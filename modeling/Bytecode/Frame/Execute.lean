import Bytecode.Frame
import Bytecode.Leaf
import Bytecode.Tree

/-! Running single instructions on frames. -/
namespace Bytecode

namespace Simple

/-- What an instruction takes off the stack, the top first, and what it leaves there. Those
whose effect depends on what lies on the stack are not listed. -/
def effect? : Simple → Option (List Operand × List Held)
  | nop | returnVoid => some ([], [])
  | aconstNull => some ([], [.null])
  | iconstM1 | iconst0 | iconst1 | iconst2 | iconst3 | iconst4 | iconst5 => some ([], [.int])
  | lconst0 | lconst1 => some ([], [.long])
  | fconst0 | fconst1 | fconst2 => some ([], [.float])
  | dconst0 | dconst1 => some ([], [.double])
  | iaload | baload | caload | saload => some ([.exactly .int, .reference], [.int])
  | laload => some ([.exactly .int, .reference], [.long])
  | faload => some ([.exactly .int, .reference], [.float])
  | daload => some ([.exactly .int, .reference], [.double])
  | iastore | bastore | castore | sastore =>
    some ([.exactly .int, .exactly .int, .reference], [])
  | lastore => some ([.exactly .long, .exactly .int, .reference], [])
  | fastore => some ([.exactly .float, .exactly .int, .reference], [])
  | dastore => some ([.exactly .double, .exactly .int, .reference], [])
  | aastore => some ([.reference, .exactly .int, .reference], [])
  | iadd | isub | imul | idiv | irem | ishl | ishr | iushr | iand | ior | ixor =>
    some ([.exactly .int, .exactly .int], [.int])
  | ladd | lsub | lmul | ldiv | lrem | land | lor | lxor =>
    some ([.exactly .long, .exactly .long], [.long])
  | lshl | lshr | lushr => some ([.exactly .int, .exactly .long], [.long])
  | fadd | fsub | fmul | fdiv | frem => some ([.exactly .float, .exactly .float], [.float])
  | dadd | dsub | dmul | ddiv | drem => some ([.exactly .double, .exactly .double], [.double])
  | ineg | i2b | i2c | i2s => some ([.exactly .int], [.int])
  | lneg => some ([.exactly .long], [.long])
  | fneg => some ([.exactly .float], [.float])
  | dneg => some ([.exactly .double], [.double])
  | i2l => some ([.exactly .int], [.long])
  | i2f => some ([.exactly .int], [.float])
  | i2d => some ([.exactly .int], [.double])
  | l2i => some ([.exactly .long], [.int])
  | l2f => some ([.exactly .long], [.float])
  | l2d => some ([.exactly .long], [.double])
  | f2i => some ([.exactly .float], [.int])
  | f2l => some ([.exactly .float], [.long])
  | f2d => some ([.exactly .float], [.double])
  | d2i => some ([.exactly .double], [.int])
  | d2l => some ([.exactly .double], [.long])
  | d2f => some ([.exactly .double], [.float])
  | lcmp => some ([.exactly .long, .exactly .long], [.int])
  | fcmpL | fcmpG => some ([.exactly .float, .exactly .float], [.int])
  | dcmpL | dcmpG => some ([.exactly .double, .exactly .double], [.int])
  | ireturn => some ([.exactly .int], [])
  | lreturn => some ([.exactly .long], [])
  | freturn => some ([.exactly .float], [])
  | dreturn => some ([.exactly .double], [])
  | areturn | athrow | monitorEnter | monitorExit => some ([.reference], [])
  | aaload | arrayLength | pop | pop2 | dup | dupX1 | dupX2 | dup2 | dup2X1 | dup2X2 | swap => none

end Simple

namespace Stack

def apply (takes : List Operand) (leaves : List Held) (s : Stack) : Except Fault Stack := do
  let s ← Stack.takeAll takes s
  return s.extend leaves

/-- One wide value or two narrow ones, bottom first. -/
def popPair (s : Stack) : Except Fault (List Held × Stack) := do
  let (v, s) ← Stack.pop s
  if width v = 1 then
    let (w, s) ← Stack.popNarrow s
    return ([w, v], s)
  else return ([v], s)

/-- The element type of what an array of references holds. -/
def elementOf : Held → Except Fault Held
  | .null => .ok .null
  | .object r =>
    match r.element? with
    | some (.ref element) => .ok (.object element)
    | _ => .error .badType
  | _ => .error .badType

def isArray : Held → Bool
  | .null => true
  | .object r => r.isArray
  | _ => false

/-- Instructions whose effect depends on what lies on the stack. -/
def shuffle (i : Simple) (s : Stack) : Except Fault Stack :=
  match i with
  | .aaload => do
    let (_, s) ← Stack.take (.exactly .int) s
    let (v, s) ← Stack.take .reference s
    let element ← elementOf v
    return s.push element
  | .arrayLength => do
    let (v, s) ← Stack.take .reference s
    if isArray v then return s.push .int else throw .badType
  | .pop => do
    let (_, s) ← Stack.popNarrow s
    return s
  | .pop2 => do
    let (_, s) ← Stack.popPair s
    return s
  | .dup => do
    let (v, s) ← Stack.popNarrow s
    return s.extend [v, v]
  | .dupX1 => do
    let (v, s) ← Stack.popNarrow s
    let (w, s) ← Stack.popNarrow s
    return s.extend [v, w, v]
  | .dupX2 => do
    let (v, s) ← Stack.popNarrow s
    let (below, s) ← Stack.popPair s
    return s.extend ([v] ++ below ++ [v])
  | .dup2 => do
    let (vs, s) ← Stack.popPair s
    return s.extend (vs ++ vs)
  | .dup2X1 => do
    let (vs, s) ← Stack.popPair s
    let (w, s) ← Stack.popNarrow s
    return s.extend (vs ++ [w] ++ vs)
  | .dup2X2 => do
    let (vs, s) ← Stack.popPair s
    let (below, s) ← Stack.popPair s
    return s.extend (vs ++ below ++ vs)
  | .swap => do
    let (v, s) ← Stack.popNarrow s
    let (w, s) ← Stack.popNarrow s
    return s.extend [v, w]
  | _ => .ok s

def simple (i : Simple) (s : Stack) : Except Fault Stack :=
  match i.effect? with
  | some (takes, leaves) => apply takes leaves s
  | none => shuffle i s

end Stack

def Loadable.held : Loadable → Held
  | integer _ => .int
  | float _ => .float
  | long _ => .long
  | double _ => .double
  | string _ => .object (.object .string)
  | classRef _ => .object (.object .classes)

def Kind.held? : Kind → Option Held
  | int => some .int
  | long => some .long
  | float => some .float
  | double => some .double
  | ref => none

namespace Frame

def onStack (x : Stack → Except Fault Stack) (f : Frame) : Except Fault Frame := do
  let stack ← x f.stack
  return ⟨f.locals, stack⟩

def push (v : Held) (f : Frame) : Frame := ⟨f.locals, f.stack.push v⟩

def local? (f : Frame) (index : UInt16) : Except Fault Held :=
  match f.locals[index.toNat]? with
  | some v => .ok v
  | none => .error .badIndex

/-- A reference that was lost by joining frames is taken to be what is declared. -/
def loadReference (index : UInt16) (declared : ResultType) (f : Frame) : Except Fault Frame := do
  let v ← f.local? index
  if v.isReference then return f.push v
  else
    match VType.ofResult? declared with
    | some d => if d.isReference then return f.push d else throw .badType
    | none => throw .badType

def var (op : LocalOp) (index : UInt16) (declared : ResultType) (f : Frame) : Except Fault Frame :=
  match op, op.kind.held? with
  | .load _, none => f.loadReference index declared
  | .load _, some expected => do
    let v ← f.local? index
    if v = expected then return f.push expected else throw .badType
  | .store _, none => do
    let (v, stack) ← Stack.take .reference f.stack
    return (⟨f.locals, stack⟩ : Frame).store index v
  | .store _, some expected => do
    let (_, stack) ← Stack.take (.exactly expected) f.stack
    return (⟨f.locals, stack⟩ : Frame).store index expected

def field (op : FieldOp) (t : FieldType) : Frame → Except Fault Frame :=
  onStack <| match op with
    | .getStatic => Stack.apply [] [VType.ofField t]
    | .putStatic => Stack.apply [.ofType t] []
    | .getField => Stack.apply [.reference] [VType.ofField t]
    | .putField => Stack.apply [.ofType t, .reference] []

/-- Replace a type wherever it stands. -/
def replace (old new : Held) (f : Frame) : Frame :=
  let swap := fun v => if v = old then new else v
  ⟨f.locals.map swap, .ofList (f.stack.values.map swap)⟩

/-- What an uninitialized object is once its constructor has been called. -/
def initialized (owner : RefType) (this : BinaryName) : Held → Option Held
  | .uninitThis => some (.object (.object this))
  | .uninit _ => some (.object owner)
  | _ => none

/-- A constructor call makes every copy of the object usable. -/
def construct (owner : RefType) (s : Signature) (this : BinaryName) (f : Frame) :
    Except Fault Frame := do
  let (v, stack) ← Stack.take .reference f.stack
  match initialized owner this v with
  | none => throw .badType
  | some new => if s.result.isVoid then return replace v new ⟨f.locals, stack⟩ else throw .badType

def invoke (kind : InvokeKind) (owner : RefType) (name : MemberName) (s : Signature)
    (this : BinaryName) (f : Frame) : Except Fault Frame := do
  let stack ← Stack.takeAll (s.parameters.reverse.map Operand.ofType) f.stack
  let f : Frame := ⟨f.locals, stack⟩
  if kind = .special ∧ name = .init then f.construct owner s this
  else
    let takes := if kind.hasReceiver then [Operand.reference] else []
    f.onStack (Stack.apply takes (VType.ofResult? s.result).toList)

/-- Run an instruction that stands at a position, with the type its tree declares. -/
def execute (l : Leaf) (declared : ResultType) (position : Nat) (this : BinaryName) (f : Frame) :
    Except Fault Frame :=
  match l with
  | .simple i => f.onStack (Stack.simple i)
  | .push c => .ok (f.push c.held)
  | .var op index => f.var op index declared
  | .field op _ _ t => f.field op t
  | .invoke kind owner name s => f.invoke kind owner name s this
  | .new _ =>
    if position ≤ 65535 then .ok (f.push (.uninit position.toUInt16)) else .error .badIndex
  | .newArray p => f.onStack (Stack.apply [.exactly .int] [.object (RefType.array (.prim p))])
  | .newObjects element =>
    f.onStack (Stack.apply [.exactly .int] [.object (RefType.array (.ref element))])
  | .cast r => f.onStack (Stack.apply [.reference] [.object r])
  | .instanceOf _ => f.onStack (Stack.apply [.reference] [.int])

/-- Run the instruction at the root of a tree. Where the root is no instruction, nothing
happens. -/
def executeRoot (t : Tree) (position : Nat) (this : BinaryName) (f : Frame) : Except Fault Frame :=
  match t with
  | .leaf o l => f.execute l o.type position this
  | _ => .ok f

end Frame

end Bytecode
