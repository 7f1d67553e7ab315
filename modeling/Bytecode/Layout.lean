import Bytecode.Attribute
import Bytecode.Placement
import Bytecode.Walk

/-! Laying a tree out as bytes, in three passes over the same steps. The first estimates where
the labels stand, the second settles them and sees that every jump fits two bytes, the third
emits the bytes and checks that each label is where it was settled. All passes put the same
constants into the pool and write as many bytes.

Positions are natural numbers. Where they are counted in 32 bits, that is the same for bodies of
less than 2^32 bytes; larger bodies are outside the model. -/
namespace Bytecode

/-- What is seen on the way through the code, each thing before its bytes are written. -/
inductive Sight where
  | label (l : Label) (position : Nat)
  | insn (outcome : Outcome) (l : Leaf) (position : Nat)
  | jump (test : Option Test) (source target : Label)
  | enterTry (handler : Label) (caught : Option BinaryName)
  | exitTry (handler : Label)
  | line (number : UInt16) (position : Nat)

inductive Pass where
  | estimate
  /-- Jumps that do not fit are reported for this method. -/
  | settle (method : String)
  | emit

structure Layout where
  labels : Labels
  position : Nat
  code : Array UInt8
  /-- Positions that jumps leave from and go to. -/
  jumps : Array (Nat × Nat)
  handlers : Array Handler
  sights : Array Sight

abbrev LayoutM := EStateM Error Layout

namespace Layout

def start (labels : Labels) : Layout := ⟨labels, 0, #[], #[], #[], #[]⟩

def ask {α : Type} (f : Layout → Except Error α) : LayoutM α := fun s =>
  match f s with
  | .ok a => .ok a s
  | .error e => .error e s

def see (sight : Sight) : LayoutM Unit := fun s =>
  .ok () { s with sights := s.sights.push sight }

/-- Mark the current position with a label. -/
def place (pass : Pass) (l : Label) : LayoutM Unit := fun s =>
  match pass with
  | .estimate =>
    match s.labels.estimate l s.position with
    | .ok labels => .ok () { s with labels := labels }
    | .error e => .error e s
  | .settle _ =>
    match s.labels.settle l s.position with
    | .ok labels => .ok () { s with labels := labels }
    | .error e => .error e s
  | .emit =>
    match s.labels.check l s.position with
    | .ok _ => .ok () s
    | .error e => .error e s

/-- Write bytes, which only the last pass keeps. -/
def write (pass : Pass) (bytes : Octets) : LayoutM Unit := fun s =>
  match pass with
  | .emit => .ok () { s with position := s.position + bytes.length, code := s.code ++ bytes }
  | _ => .ok () { s with position := s.position + bytes.length }

/-- The distance between the estimates of two labels, if a jump can be that far. -/
def settledOffset (method : String) (source target : Label) (s : Layout) : Except Error Int16 := do
  let goal ← s.labels.estimateOf target
  let origin ← s.labels.estimateOf source
  let offset : Int := goal - origin
  if offset < -32768 ∨ 32767 ≤ offset then throw (.branchTooFar method offset)
  return Int16.ofInt offset

/-- How far a jump goes. The label it leaves from is placed where the jump stands. -/
def offset (pass : Pass) (source target : Label) : LayoutM Int16 := do
  place pass source
  match pass with
  | .estimate => return 32767
  | .settle method => ask (settledOffset method source target)
  | .emit =>
    let origin ← ask (·.labels.positionOf source)
    let goal ← ask (·.labels.positionOf target)
    modify fun s => { s with jumps := s.jumps.push (origin, goal) }
    return Int16.ofInt (goal - origin)

def branch (pass : Pass) (opcode : UInt8) (source target : Label) : LayoutM Unit := do
  let offset ← offset pass source target
  write pass (opcode :: Octets.i16 offset)

/-- Only the last pass notes handlers, and none for an empty range. -/
def handler (pass : Pass) (first stop entry : Label) (caught : Option UInt16) : LayoutM Unit :=
  match pass with
  | .emit => do
    let first ← ask (·.labels.positionOf first)
    let stop ← ask (·.labels.positionOf stop)
    let entry ← ask (·.labels.positionOf entry)
    let h : Handler := ⟨first.toUInt16, stop.toUInt16, entry.toUInt16, caught⟩
    if h.start ≠ h.stop then
      modify fun s => { s with handlers := s.handlers.push h }
  | _ => return ()

end Layout

/-- The pool and the layout as they change together. -/
abbrev DraftM := EStateM Error (Pool × Layout)

namespace DraftM

def onPool {α : Type} (x : PoolM α) : DraftM α := fun (pool, layout) =>
  match x pool with
  | .ok a pool => .ok a (pool, layout)
  | .error e pool => .error e (pool, layout)

def onLayout {α : Type} (x : LayoutM α) : DraftM α := fun (pool, layout) =>
  match x layout with
  | .ok a layout => .ok a (pool, layout)
  | .error e layout => .error e (pool, layout)

end DraftM

namespace Layout

/-- Place a label and show where. -/
def mark (pass : Pass) (l : Label) : LayoutM Unit := do
  place pass l
  let position ← ask fun s => .ok s.position
  see (.label l position)

def jump (pass : Pass) (test : Option Test) (source target : Label) : LayoutM Unit := do
  mark pass source
  see (.jump test source target)
  branch pass ((test.map Test.opcode).getD Opcode.goto) source target

def showAt (sight : Nat → Sight) : LayoutM Unit := do
  let position ← ask fun s => .ok s.position
  see (sight position)

/-- One step of a pass. -/
def act (pass : Pass) : Step → DraftM Unit
  | .place l => DraftM.onLayout (mark pass l)
  | .jump test source target => DraftM.onLayout (jump pass test source target)
  | .leaf o l => do
    DraftM.onLayout (showAt (.insn o l))
    let bytes ← DraftM.onPool l.encode
    DraftM.onLayout (write pass bytes)
  | .enter g caught => do
    let index ← match caught with
      | none => pure none
      | some name => some <$> DraftM.onPool (Pool.classRef (.object name))
    DraftM.onLayout (handler pass g.start g.stop g.handler index)
    DraftM.onLayout (see (.enterTry g.handler caught))
  | .exit entry => DraftM.onLayout (see (.exitTry entry))
  | .line number => DraftM.onLayout (showAt (.line number))

/-- One pass over a tree. -/
def run (pass : Pass) (labels : Labels) (t : Tree) : PoolM Layout := fun pool =>
  match t.walk (act pass) (pool, start labels) with
  | .ok _ (pool, layout) => .ok layout pool
  | .error e (pool, _) => .error e pool

end Layout

end Bytecode
