import Bytecode.Config
import Bytecode.Leaf

/-! Instruction trees. A tree leaves a value of its declared type on the stack, or nothing.
It is made once and laid out many times; a part may stand in several places. -/
namespace Bytecode

/-- What is known of a tree from outside: its declared type, whether it ends in a jump
backward, and whether control never comes out at its end. -/
structure Outcome where
  type : ResultType
  back : Bool
  ends : Bool
deriving DecidableEq

namespace Outcome

def void : Outcome := ⟨.void, false, false⟩

def ofType (type : ResultType) : Outcome := ⟨type, false, false⟩

end Outcome

/-- The labels of a guarded region: `start: body stop: [exit: goto after] handler: … after:`.
There is no exit when control never leaves the body at its end. -/
structure Guard where
  start : Label
  stop : Label
  exit : Option Label
  handler : Label
  after : Label
deriving DecidableEq

inductive Tree where
  | unit
  | leaf (outcome : Outcome) (l : Leaf)
  | label (outcome : Outcome) (l : Label)
  /-- `start: test target; first; second; stop:` -/
  | branch (outcome : Outcome) (test : Test) (start target stop : Label) (first second : Tree)
  /-- `source: goto target` -/
  | goto (outcome : Outcome) (source target : Label)
  | seq (outcome : Outcome) (first second : Tree)
  /-- The same instructions under another declared type. -/
  | retype (outcome : Outcome) (inner : Tree)
  | guarded (outcome : Outcome) (g : Guard) (caught : Option BinaryName) (body handler : Tree)
  | line (outcome : Outcome) (number : UInt16) (body : Tree)

namespace Tree

instance : Inhabited Tree := ⟨unit⟩

def outcome : Tree → Outcome
  | unit => .void
  | leaf o _ | label o _ | branch o _ _ _ _ _ _ | goto o _ _ | seq o _ _ | retype o _
  | guarded o _ _ _ _ | line o _ _ => o

def type (t : Tree) : ResultType := t.outcome.type

def back (t : Tree) : Bool := t.outcome.back

def ends (t : Tree) : Bool := t.outcome.ends

def isUnit : Tree → Bool
  | unit => true
  | _ => false

/-- One after the other. What follows a jump backward is never reached and left out. -/
def andThen (a b : Tree) : Tree :=
  if a.isUnit then b
  else if b.isUnit || a.back then a
  else seq b.outcome a b

/-- Code, statements, and then a value if there is one. -/
def andThenPair (a statements : Tree) (value : Option Tree) : Tree :=
  (a.andThen statements).andThen (value.getD unit)

/-- Declare the type of what is left. -/
def declare (t : Tree) (type : ResultType) : Tree := retype ⟨type, t.back, t.ends⟩ t

def atLine (t : Tree) (number : UInt16) : Tree := line t.outcome number t

def simple (i : Simple) : Tree := leaf ⟨i.result, false, i.ends⟩ (.simple i)

def push (c : Loadable) (type : ResultType) : Tree := leaf (.ofType type) (.push c)

/-- Ints from -1 to 5 have instructions of their own. -/
def int (value : Int32) : Tree :=
  if value = -1 then simple .iconstM1
  else if value = 0 then simple .iconst0
  else if value = 1 then simple .iconst1
  else if value = 2 then simple .iconst2
  else if value = 3 then simple .iconst3
  else if value = 4 then simple .iconst4
  else if value = 5 then simple .iconst5
  else push (.integer value) .int

def long (value : Int64) : Tree :=
  if value = 0 then simple .lconst0
  else if value = 1 then simple .lconst1
  else push (.long value) .long

/-- The bits of 0, 1 and 2 have instructions of their own; negative zero does not. -/
def float (bits : UInt32) : Tree :=
  if bits = 0 then simple .fconst0
  else if bits = 0x3f800000 then simple .fconst1
  else if bits = 0x40000000 then simple .fconst2
  else push (.float bits) .float

def double (bits : UInt64) : Tree :=
  if bits = 0 then simple .dconst0
  else if bits = 0x3ff0000000000000 then simple .dconst1
  else push (.double bits) .double

def string (text : String) : Tree := push (.string text) (.object .string)

def classOf (r : RefType) : Tree := push (.classRef r) (.object .classes)

/-- Load or store a local variable. The type is that of the value loaded. -/
def var (op : LocalOp) (index : UInt16) (type : ResultType) : Tree :=
  leaf (.ofType (if op.isLoad then type else .void)) (.var op index)

def load (k : Kind) (index : UInt16) (type : ResultType) : Tree := var (.load k) index type

def store (k : Kind) (index : UInt16) : Tree := var (.store k) index .void

/-- A new object, on which its constructor has still to be called. -/
def new (name : BinaryName) : Tree := leaf (.ofType (.object name)) (.new name)

def newObjects (element : RefType) : Tree :=
  leaf (.ofType (.ref (RefType.array (.ref element)))) (.newObjects element)

def newArray (p : Prim) : Tree := leaf (.ofType (.ref (RefType.array (.prim p)))) (.newArray p)

def cast (r : RefType) : Tree := leaf (.ofType (.ref r)) (.cast r)

def instanceOf (r : RefType) : Tree := leaf (.ofType .int) (.instanceOf r)

def field (op : FieldOp) (owner : BinaryName) (name : MemberName) (t : FieldType) : Tree :=
  let type := match op with
    | .getField | .getStatic => .value t
    | .putField | .putStatic => .void
  leaf (.ofType type) (.field op owner name t)

def invoke (kind : InvokeKind) (owner : RefType) (name : MemberName) (s : Signature) : Tree :=
  leaf (.ofType s.result) (.invoke kind owner name s)

def place (l : Label) : Tree := label .void l

/-- Take a value of the given type off the stack. -/
def pop (type : ResultType) : Tree :=
  match type.slots with
  | 0 => unit
  | 1 => simple .pop
  | _ => simple .pop2

/-- Run for the effects only. A variable that would be loaded is not loaded at all. -/
def drop (t : Tree) : Tree :=
  match t with
  | leaf _ (.var (.load _) _) => unit
  | _ => t.andThen (pop t.type)

/-- Read a field of the object at hand; a void field only drops the object. -/
def getFieldOrDrop (t : Tree) (owner : BinaryName) (name : MemberName) (type : ResultType) : Tree :=
  match type with
  | .void => t.drop
  | .value f => t.andThen (field .getField owner name f)

/-- A message for readers of the code: a text that is pushed and dropped. -/
def commentAlways (text : String) : Tree := (string text).drop

def comment (config : Config) (text : String) : Tree :=
  if config.comments then commentAlways text else unit

end Tree

end Bytecode
