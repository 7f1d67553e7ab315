import Std.Data.HashSet
import Bytecode.Frame.Execute
import Bytecode.Layout

/-! The stack map of a method body. The code is simulated from its first instruction to its
last, once. A frame is recorded each time control comes to a position that jumps leave from
or go to, or at which a handler starts; the frames recorded at a position are joined into the
one that is written. -/
namespace Bytecode

structure StackMap where
  frames : List MapFrame
  maxStack : UInt16
  maxLocals : UInt16
  /-- Casts of a value that has the wanted type already. -/
  redundant : List Nat

/-- What does not change while a body is simulated. -/
structure Scene where
  this : BinaryName
  labels : Labels
  /-- Positions that need a frame. -/
  wanted : Std.HashSet Nat

structure Simulation where
  /-- Nothing when the code is not reached. -/
  state : Option Frame
  /-- Frames by position, latest first. -/
  recorded : Std.TreeMap Nat (List Frame)
  /-- The handlers around the code, innermost first, with what they catch. -/
  active : List (Label × Held)
  maxStack : Nat
  maxLocals : Nat
  /-- Positions of redundant casts, latest first. -/
  redundant : List Nat

namespace Simulation

def start (initial : Frame) : Simulation :=
  ⟨some initial, ∅, [], initial.stackSlots, initial.locals.size, []⟩

def recordedAt (s : Simulation) (position : Nat) : List Frame :=
  (s.recorded.getD position []).reverse

def record (position : Nat) (f : Frame) (s : Simulation) : Simulation :=
  { s with recorded := s.recorded.insert position (f :: s.recorded.getD position []) }

/-- The frames recorded at a position, joined. -/
def joined (s : Simulation) (position : Nat) : Except Error (Option Frame) :=
  match s.recordedAt position with
  | [] => .ok none
  | first :: others =>
    match Frame.unionAll first others with
    | .ok f => .ok (some f)
    | .error fault => .error (.badFrame position fault)

/-- Take note of how much room the current frame needs. -/
def measure (s : Simulation) : Simulation :=
  match s.state with
  | none => s
  | some f => { s with
    maxStack := max s.maxStack f.stackSlots
    maxLocals := max s.maxLocals f.locals.size }

/-- Control comes to a label: what flows in is recorded, and the simulation goes on from all
that was recorded there so far. -/
def label (scene : Scene) (position : Nat) (s : Simulation) : Except Error Simulation :=
  if scene.wanted.contains position then do
    let s := match s.state with
      | some f => s.record position f
      | none => s
    let state ← s.joined position
    return measure { s with state := state }
  else .ok s

/-- Every instruction under a handler may go there, with only what is caught on the stack. -/
def recordHandlers (scene : Scene) (f : Frame) :
    List (Label × Held) → Simulation → Except Error Simulation
  | [], s => .ok s
  | (handler, caught) :: rest, s => do
    let s ← recordHandlers scene f rest s
    let position ← scene.labels.positionOf handler
    return s.record position (f.withStack [caught])

def isRedundant (l : Leaf) (f : Frame) : Bool :=
  match l, f.stack.last? with
  | .cast r, some (.object found) => found = r
  | _, _ => false

def insn (scene : Scene) (o : Outcome) (l : Leaf) (position : Nat) (s : Simulation) :
    Except Error Simulation :=
  match s.state with
  | none => .ok s
  | some f => do
    let s ← recordHandlers scene f s.active s
    let s := if isRedundant l f then { s with redundant := position :: s.redundant } else s
    match f.execute l o.type position scene.this with
    | .error fault => throw (.badFrame position fault)
    | .ok f =>
      let s := measure { s with state := some f }
      return if o.ends then { s with state := none } else s

def jump (scene : Scene) (test : Option Test) (source target : Label) (s : Simulation) :
    Except Error Simulation :=
  match s.state with
  | none => .ok s
  | some f => do
    let goal ← scene.labels.positionOf target
    match test with
    | none => return { s.record goal f with state := none }
    | some test =>
      let position ← scene.labels.positionOf source
      match f.branch test with
      | .error fault => throw (.badFrame position fault)
      | .ok f => return { s.record goal f with state := some f }

def caughtType (caught : Option BinaryName) : Held := .object (.object (caught.getD .throwable))

def enterTry (scene : Scene) (handler : Label) (caught : Option BinaryName) (s : Simulation) :
    Except Error Simulation := do
  let type := caughtType caught
  let s ← match s.state with
    | none => pure s
    | some f => do
      let position ← scene.labels.positionOf handler
      pure (s.record position (f.withStack [type]))
  return { s with active := (handler, type) :: s.active }

def exitTry (handler : Label) (s : Simulation) : Simulation :=
  { s with active := s.active.eraseP (·.1 = handler) }

def see (scene : Scene) (s : Simulation) : Sight → Except Error Simulation
  | .label _ position => s.label scene position
  | .insn o l position => s.insn scene o l position
  | .jump test source target => s.jump scene test source target
  | .enterTry handler caught => s.enterTry scene handler caught
  | .exitTry handler => .ok (s.exitTry handler)
  | .line _ _ => .ok s

def run (scene : Scene) (initial : Frame) (sights : List Sight) : Except Error Simulation :=
  sights.foldlM (see scene) (start initial)

/-- The frames at the given positions as they are written. Each is placed by its distance
from the one before; the first by its position. -/
def write (s : Simulation) : List Nat → Option Nat → List MapFrame → PoolM (List MapFrame)
  | [], _, done => return done.reverse
  | position :: rest, previous, done => do
    match s.joined position with
    | .error e => throw e
    | .ok none => s.write rest previous done
    | .ok (some f) =>
      let (locals, stack) ← f.full
      let delta := match previous with
        | none => position
        | some p => position - p - 1
      s.write rest (some position) (⟨delta.toUInt16, locals, stack⟩ :: done)

def finish (s : Simulation) : PoolM StackMap := do
  let frames ← s.write s.recorded.keys none []
  return ⟨frames, s.maxStack.toUInt16, s.maxLocals.toUInt16, s.redundant.reverse⟩

end Simulation

/-- The positions that need a frame: both ends of every jump, and the starts of handlers. -/
def Layout.wanted (layout : Layout) : Std.HashSet Nat :=
  let ends := layout.jumps.foldl (fun set (origin, goal) => (set.insert origin).insert goal) ∅
  layout.handlers.foldl (fun set h => set.insert h.handler.toNat) ends

end Bytecode
