import Std.Data.HashSet
import Bytecode.Archive
import Bytecode.ClassFile
import Bytecode.Flags
import Bytecode.Method
import Bytecode.Tree.Select

/-! A class while it is put together. Members are kept in the order in which they are added, and
the names they were added under in sets beside them. Bodies are laid out when the class is finished,
after which it cannot be changed. What was done before something failed stays done. -/
namespace Bytecode

/-- A method with its body, as long as that has not been laid out. -/
structure Pending where
  member : Member
  body : Option Body

structure ClassDraft where
  config : Config
  pool : Pool
  flags : UInt16
  this : BinaryName
  thisIndex : UInt16
  superIndex : UInt16
  interfaces : Array (BinaryName × UInt16)
  fields : Array Member
  fieldNames : Std.HashSet MemberName
  methods : Array Pending
  signatures : Std.HashSet (MemberName × Signature)
  /-- Code of the static initializer so far. -/
  initializer : Tree
  sourceFile : String
  attributes : List Attribute
  finished : Bool

abbrev ClassM := EStateM Error ClassDraft

namespace ClassDraft

/-- A class with no members. The superclass is the root class unless one is named. -/
def make (config : Config) (this : BinaryName) (super : Option BinaryName) (interface : Bool) :
    Except Error ClassDraft :=
  let indices : PoolM (UInt16 × UInt16) := do
    let thisIndex ← Pool.classRef (.object this)
    let superIndex ← Pool.classRef (.object (super.getD .object))
    return (thisIndex, superIndex)
  match indices .empty with
  | .ok (thisIndex, superIndex) pool => .ok {
      config, pool, this, thisIndex, superIndex
      flags := Flags.forClass interface
      interfaces := #[]
      fields := #[]
      fieldNames := ∅
      methods := #[]
      signatures := ∅
      initializer := .unit
      sourceFile := this.simpleName ++ ".java"
      attributes := []
      finished := false }
  | .error e _ => .error e

def onPool {α : Type} (x : PoolM α) : ClassM α := fun d =>
  let pool := d.pool
  let d := { d with pool := .empty }
  match x pool with
  | .ok a pool => .ok a { d with pool := pool }
  | .error e pool => .error e { d with pool := pool }

/-- Refuse to change a finished class. -/
def checkOpen : ClassM Unit := fun d =>
  if d.finished then .error (.finished d.this.text) d else .ok () d

/-- An interface is listed once, where it was first added. -/
def addInterface (name : BinaryName) : ClassM Unit := do
  checkOpen
  let d ← get
  if d.interfaces.any (·.1 = name) then return ()
  let index ← onPool (Pool.classRef (.object name))
  modify fun d => { d with interfaces := d.interfaces.push (name, index) }

def addField (flags : UInt16) (name : MemberName) (t : FieldType) : ClassM Unit := do
  checkOpen
  let nameIndex ← onPool (Pool.utf8 name.text)
  let descriptor ← onPool (Pool.utf8 t.descriptor)
  modify fun d => { d with
    fields := d.fields.push ⟨flags, nameIndex, descriptor, []⟩
    fieldNames := d.fieldNames.insert name }

def pushMethod (flags : UInt16) (name : MemberName) (s : Signature) (body : Option Body) :
    ClassM Unit := do
  let nameIndex ← onPool (Pool.utf8 name.text)
  let descriptor ← onPool (Pool.utf8 s.descriptor)
  modify fun d => { d with
    methods := d.methods.push ⟨⟨flags, nameIndex, descriptor, []⟩, body⟩
    signatures := d.signatures.insert (name, s) }

def addMethod (flags : UInt16) (name : MemberName) (s : Signature) (tree : Tree)
    (locals : UInt16) : ClassM Unit := do
  checkOpen
  let this := (← get).this
  let static := flags &&& Flags.isStatic ≠ 0
  pushMethod flags name s (some (Body.make this name s static locals tree))

def addAbstractMethod (flags : UInt16) (name : MemberName) (s : Signature) : ClassM Unit := do
  checkOpen
  pushMethod (flags ||| Flags.isAbstract) name s none

/-- Add code to the static initializer, which is only made if there is any. -/
def addToInitializer (tree : Tree) : ClassM Unit := do
  checkOpen
  modify fun d => { d with initializer := d.initializer.andThen tree }

def setSourceFile (name : String) : ClassM Unit := do
  checkOpen
  modify fun d => { d with sourceFile := name }

def hasField (d : ClassDraft) (name : MemberName) : Bool := d.fieldNames.contains name

def hasMethod (d : ClassDraft) (name : MemberName) (s : Signature) : Bool :=
  d.signatures.contains (name, s)

/-- Make the static initializer a method, if there is code for it. -/
def flushInitializer : ClassM Unit := do
  let tree := (← get).initializer
  if tree.isUnit then return ()
  modify fun d => { d with initializer := .unit }
  addMethod (Flags.isPublic ||| Flags.isStatic) .clinit .nullary
    (tree.andThen (.simple .returnVoid)) 0

end ClassDraft

/-- Lay out the body, if there is one. It is dropped once the code is an attribute. -/
def Pending.assemble (config : Config) (this : BinaryName) (m : Pending) : PoolM Pending :=
  match m.body with
  | none => return m
  | some body => do
    let code ← body.assemble config this
    let code ← Pool.codeAttribute code
    return { m with
      member := { m.member with attributes := m.member.attributes ++ [code] }
      body := none }

/-- Lay out bodies in order, up to the first that fails. -/
def Pending.assembleEach (config : Config) (this : BinaryName) :
    List Pending → Pool → (List Pending × Option Error) × Pool
  | [], pool => (([], none), pool)
  | m :: rest, pool =>
    match m.assemble config this pool with
    | .error e pool => ((m :: rest, some e), pool)
    | .ok m pool =>
      let ((rest, e), pool) := Pending.assembleEach config this rest pool
      ((m :: rest, e), pool)

namespace ClassDraft

def assembleMethods : ClassM Unit := fun d =>
  let pool := d.pool
  let d := { d with pool := .empty }
  let ((methods, failed), pool) := Pending.assembleEach d.config d.this d.methods.toList pool
  let d := { d with pool := pool, methods := methods.toArray }
  match failed with
  | none => .ok () d
  | some e => .error e d

def addSourceAttribute : ClassM Unit := do
  let name := (← get).sourceFile
  let index ← onPool (Pool.utf8 name)
  let source ← onPool (Pool.sourceFile index)
  modify fun d => { d with attributes := d.attributes ++ [source], finished := true }

/-- Lay out all bodies and add the attributes of the class. -/
def finish : ClassM Unit := do
  checkOpen
  flushInitializer
  assembleMethods
  addSourceAttribute

def classFile (d : ClassDraft) : ClassFile where
  version := d.config.version
  pool := d.pool
  flags := d.flags
  this := d.thisIndex
  super := d.superIndex
  interfaces := d.interfaces.toList.map (·.2)
  fields := d.fields.toList
  methods := d.methods.toList.map (·.member)
  attributes := d.attributes

/-- The bytes of the class, which is finished first if it is not yet. -/
def bytes : ClassM Octets := do
  if !(← get).finished then finish
  match (← get).classFile.encode with
  | .ok bytes => return bytes
  | .error e => throw e

/-- The bytes as an entry for an archive, under the name of the class file. -/
def entry : ClassM (String × Octets) := do
  let bytes ← bytes
  return ((← get).this.fileName, bytes)

end ClassDraft

end Bytecode
