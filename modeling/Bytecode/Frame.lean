import Bytecode.Opcode
import Bytecode.VType

/-! Frames: what the local variables and the operand stack hold at a point of the code. A
wide value at a local slot is followed by an unusable one. -/
namespace Bytecode

abbrev Stack := Slotted Held

structure Frame where
  locals : Array Held
  stack : Stack

namespace Frame

instance : BEq Frame := ⟨fun a b => a.locals == b.locals && a.stack == b.stack⟩

/-- The slots of a list of values. -/
def spread (values : List Held) : List Held :=
  values.flatMap fun v => if width v = 2 then [v, .top] else [v]

/-- At the start of a method, with its arguments in the first slots. -/
def ofArguments (arguments : List Held) : Frame := ⟨(spread arguments).toArray, .empty⟩

def withStack (f : Frame) (values : List Held) : Frame := ⟨f.locals, .ofList values⟩

def stackSlots (f : Frame) : Nat := f.stack.total

/-- Grow to a number of slots. -/
def grow (locals : Array Held) (size : Nat) : Array Held :=
  locals ++ Array.replicate (size - locals.size) VType.top

def widthAt (locals : Array Held) (i : Nat) : Nat := width (locals.getD i .top)

/-- Put a value into a local variable. To write over one half of a wide value makes the
other half unusable. -/
def store (index : UInt16) (v : Held) (f : Frame) : Frame :=
  let i := index.toNat
  let locals := grow f.locals (i + width v)
  let locals := if 0 < i ∧ widthAt locals (i - 1) = 2 then locals.setIfInBounds (i - 1) .top
    else locals
  let locals := if widthAt locals i = 2 ∧ width v = 1 then locals.setIfInBounds (i + 1) .top
    else locals
  let locals := locals.setIfInBounds i v
  ⟨if width v = 2 then locals.setIfInBounds (i + 1) .top else locals, f.stack⟩

/-- Stacks can be joined when they hold as many values of the same widths. -/
def joinable (a b : List Held) : Bool :=
  a.length == b.length && (a.zip b).all fun (x, y) => width x == width y

/-- What holds of both frames. -/
def union (a b : Frame) : Except Fault Frame :=
  if joinable a.stack.items b.stack.items then
    .ok ⟨VType.unionAll a.locals b.locals,
      .ofList (List.zipWith VType.union a.stack.values b.stack.values)⟩
  else .error .unequalStacks

/-- What holds of a frame and all that follow. -/
def unionAll (first : Frame) (others : List Frame) : Except Fault Frame := others.foldlM union first

/-- The values at the slots, without the second halves of the wide ones. -/
def packed : List Held → List Held → List Held
  | [], seen => seen.reverse
  | [v], seen => (v :: seen).reverse
  | v :: w :: rest, seen =>
    if width v = 2 then packed rest (v :: seen) else packed (w :: rest) (v :: seen)

def dropTops (values : List (VType UInt16)) : List (VType UInt16) :=
  (values.reverse.dropWhile (· = .top)).reverse

/-- The frame as it is written: a wide local takes one entry, and unusable locals at the end
are left out. -/
def full (f : Frame) : PoolM (List (VType UInt16) × List (VType UInt16)) := do
  let locals ← (packed f.locals.toList []).mapM VType.resolve
  let stack ← f.stack.values.mapM VType.resolve
  return (dropTops locals, stack)

end Frame

/-- What an instruction asks of a value on the stack. -/
inductive Operand where
  | exactly (v : Held)
  | reference

namespace Operand

/-- Without knowing how classes are related, any reference does where one is asked for. -/
def ofType (t : FieldType) : Operand :=
  match VType.ofField t with
  | .object _ => reference
  | v => exactly v

def accepts : Operand → Held → Bool
  | exactly v, found => v = found
  | reference, found => found.isReference

end Operand

namespace Stack

def pop (s : Stack) : Except Fault (Held × Stack) :=
  match s.pop? with
  | some r => .ok r
  | none => .error .emptyStack

/-- Take off a value of one slot. -/
def popNarrow (s : Stack) : Except Fault (Held × Stack) := do
  let (v, s) ← Stack.pop s
  if width v = 1 then return (v, s) else throw (.badWidth (width v))

def take (o : Operand) (s : Stack) : Except Fault (Held × Stack) := do
  let (v, s) ← Stack.pop s
  if o.accepts v then return (v, s) else throw .badType

/-- Take off values, the top one first. -/
def takeAll : List Operand → Stack → Except Fault Stack
  | [], s => .ok s
  | o :: rest, s => do
    let (_, s) ← Stack.take o s
    Stack.takeAll rest s

end Stack

namespace Test

def takes : Test → List Operand
  | zero _ => [.exactly .int]
  | ints _ => [.exactly .int, .exactly .int]
  | refs _ => [.reference, .reference]
  | null _ => [.reference]

end Test

/-- Take the operands of a test off the stack. -/
def Frame.branch (test : Test) (f : Frame) : Except Fault Frame := do
  let stack ← Stack.takeAll test.takes f.stack
  return ⟨f.locals, stack⟩

end Bytecode
