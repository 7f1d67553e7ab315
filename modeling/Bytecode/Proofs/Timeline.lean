import Bytecode.Layout
import Bytecode.Proofs.Interning
import Bytecode.Proofs.Placement

/-! Steps laid out one after the other. Once all constants are in the pool, what a step writes
no longer depends on the pass, so that the positions of the steps can be told beforehand. -/
namespace Bytecode

def Leaf.octets (pool : Pool) (l : Leaf) : Octets :=
  match l.encode pool with
  | .ok bytes _ => bytes
  | .error _ _ => []

def Pool.indexOf (pool : Pool) (name : BinaryName) : UInt16 :=
  match classRef (.object name) pool with
  | .ok index _ => index
  | .error _ _ => 0

namespace Step

def placed? : Step → Option Label
  | place l => some l
  | jump _ source _ => some source
  | _ => none

/-- The labels whose positions have to be known when the step is written. -/
def named : Step → List Label
  | jump _ _ target => [target]
  | enter g _ => [g.start, g.stop, g.handler]
  | _ => []

def Ready (pool : Pool) : Step → Prop
  | leaf _ l => l.encode pool = .ok (l.octets pool) pool
  | enter _ (some name) => Pool.classRef (.object name) pool = .ok (pool.indexOf name) pool
  | _ => True

def size (pool : Pool) : Step → Nat
  | jump _ _ _ => 3
  | leaf _ l => (l.octets pool).length
  | _ => 0

def sights (position : Nat) : Step → List Sight
  | place l => [.label l position]
  | jump test source target => [.label source position, .jump test source target]
  | leaf o l => [.insn o l position]
  | enter g caught => [.enterTry g.handler caught]
  | exit handler => [.exitTry handler]
  | line number => [.line number position]

def octets (pool : Pool) (labels : Labels) : Step → Octets
  | jump test source target =>
    (test.map Test.opcode).getD Opcode.goto ::
      Octets.i16 (Int16.ofInt (labels.spot target - labels.spot source))
  | leaf _ l => l.octets pool
  | _ => []

def hops (labels : Labels) : Step → List (Nat × Nat)
  | jump _ source target => [(labels.spot source, labels.spot target)]
  | _ => []

def entry (pool : Pool) (labels : Labels) (g : Guard) (caught : Option BinaryName) : Handler :=
  ⟨(labels.spot g.start).toUInt16, (labels.spot g.stop).toUInt16,
    (labels.spot g.handler).toUInt16, caught.map pool.indexOf⟩

def handlers (pool : Pool) (labels : Labels) : Step → List Handler
  | enter g caught =>
    if (entry pool labels g caught).start ≠ (entry pool labels g caught).stop then
      [entry pool labels g caught]
    else []
  | _ => []

theorem handlers_of_ne {pool : Pool} {labels : Labels} {g : Guard}
    (full : (labels.spot g.start).toUInt16 ≠ (labels.spot g.stop).toUInt16)
    (caught : Option BinaryName) :
    (enter g caught).handlers pool labels = [entry pool labels g caught] := if_pos full

theorem handlers_of_eq {pool : Pool} {labels : Labels} {g : Guard}
    (bare : (labels.spot g.start).toUInt16 = (labels.spot g.stop).toUInt16)
    (caught : Option BinaryName) : (enter g caught).handlers pool labels = [] :=
  if_neg (not_not_intro bare)

variable {p q : Pool} {step : Step}

theorem Ready.mono (ready : step.Ready p) (grown : p.Extends q) : step.Ready q := by
  cases step with
  | leaf o l =>
    have h := l.asks_encode.interns.again p _ p q ready grown
    simp only [Ready, Leaf.octets] at *
    rw [h]
  | enter g caught =>
    cases caught with
    | none => trivial
    | some name =>
      have h : Pool.classRef (.object name) q = .ok _ q :=
        (Pool.interns_ask (.classRef _)).again p _ p q ready grown
      simp only [Ready, Pool.indexOf] at *
      rw [h]
  | _ => trivial

theorem length_octets (pool : Pool) (labels : Labels) (step : Step) :
    (step.octets pool labels).length = step.size pool := by
  cases step <;> rfl

theorem Ready.octets_eq (ready : step.Ready p) (grown : p.Extends q) (labels : Labels) :
    step.octets q labels = step.octets p labels := by
  cases step with
  | leaf o l =>
    have h := l.asks_encode.interns.again p _ p q ready grown
    simp only [octets, Leaf.octets] at *
    rw [h]
  | _ => rfl

theorem Ready.size_eq (ready : step.Ready p) (grown : p.Extends q) :
    step.size q = step.size p := by
  rw [← length_octets q .empty, ← length_octets p .empty, ready.octets_eq grown]

theorem Ready.handlers_eq (ready : step.Ready p) (grown : p.Extends q) (labels : Labels) :
    step.handlers q labels = step.handlers p labels := by
  cases step with
  | enter g caught =>
    have same : entry q labels g caught = entry p labels g caught := by
      cases caught with
      | none => rfl
      | some name =>
        have h : Pool.classRef (.object name) q = .ok _ q :=
        (Pool.interns_ask (.classRef _)).again p _ p q ready grown
        simp only [entry, Option.map_some, Pool.indexOf, h] at *
    simp only [handlers, same]
  | _ => rfl

end Step

/-- The position after steps that start at the given one. -/
def reach (pool : Pool) (position : Nat) : List Step → Nat
  | [] => position
  | step :: rest => reach pool (position + step.size pool) rest

def timeline (pool : Pool) (position : Nat) : List Step → List (Nat × Step)
  | [] => []
  | step :: rest => (position, step) :: timeline pool (position + step.size pool) rest

def sightsOf (line : List (Nat × Step)) : List Sight := line.flatMap fun (n, step) => step.sights n

def PlacedAt (line : List (Nat × Step)) (l : Label) (n : Nat) : Prop :=
  ∃ step, (n, step) ∈ line ∧ step.placed? = some l

variable {p q pool : Pool} {steps : List Step}

theorem PlacedAt.head {step : Step} {l : Label} (position : Nat) (h : step.placed? = some l) :
    PlacedAt (timeline pool position (step :: steps)) l position :=
  ⟨step, List.mem_cons_self, h⟩

theorem PlacedAt.tail {step : Step} {l : Label} {position n : Nat}
    (h : PlacedAt (timeline pool (position + step.size pool) steps) l n) :
    PlacedAt (timeline pool position (step :: steps)) l n := by
  obtain ⟨x, member, placed⟩ := h
  exact ⟨x, List.mem_cons_of_mem _ member, placed⟩

theorem reach_append (pool : Pool) (position : Nat) (first second : List Step) :
    reach pool position (first ++ second) = reach pool (reach pool position first) second := by
  induction first generalizing position with
  | nil => rfl
  | cons step rest ih => exact ih _

theorem timeline_append (pool : Pool) (position : Nat) (first second : List Step) :
    timeline pool position (first ++ second) =
      timeline pool position first ++ timeline pool (reach pool position first) second := by
  induction first generalizing position with
  | nil => rfl
  | cons step rest ih => simp only [List.cons_append, timeline, reach, ih]

theorem placedAt_append {step : Step} {l : Label} (pool : Pool) (position : Nat)
    (before after : List Step) (h : step.placed? = some l) :
    PlacedAt (timeline pool position (before ++ step :: after)) l (reach pool position before) := by
  rw [timeline_append]
  exact ⟨step, List.mem_append_right _ List.mem_cons_self, h⟩

theorem timeline_map_snd (pool : Pool) (position : Nat) (steps : List Step) :
    (timeline pool position steps).map (·.2) = steps := by
  induction steps generalizing position with
  | nil => rfl
  | cons step rest ih => simp only [timeline, List.map_cons, ih]

theorem exists_placedAt (pool : Pool) (position : Nat) {l : Label} :
    (∃ n, PlacedAt (timeline pool position steps) l n) ↔ l ∈ steps.filterMap Step.placed? := by
  have whole := timeline_map_snd pool position steps
  simp only [PlacedAt, List.mem_filterMap]
  constructor
  · rintro ⟨n, step, member, placed⟩
    exact ⟨step, whole ▸ List.mem_map.mpr ⟨_, member, rfl⟩, placed⟩
  · rintro ⟨step, member, placed⟩
    rw [← whole] at member
    obtain ⟨⟨n, x⟩, hx, rfl⟩ := List.mem_map.mp member
    exact ⟨n, x, hx, placed⟩

theorem label_mem_sightsOf {line : List (Nat × Step)} {l : Label} {n : Nat} :
    .label l n ∈ sightsOf line ↔ PlacedAt line l n := by
  simp only [sightsOf, List.mem_flatMap, PlacedAt]
  constructor
  · rintro ⟨⟨m, step⟩, member, seen⟩
    cases step <;> simp_all [Step.sights, Step.placed?]
    all_goals
      obtain ⟨rfl, rfl⟩ := seen
      exact ⟨_, member, rfl⟩
  · rintro ⟨step, member, placed⟩
    refine ⟨(n, step), member, ?_⟩
    cases step <;> simp_all [Step.sights, Step.placed?]

theorem reach_timeline_mono (ready : ∀ step ∈ steps, step.Ready p) (grown : p.Extends q)
    (position : Nat) :
    reach q position steps = reach p position steps ∧
      timeline q position steps = timeline p position steps := by
  induction steps generalizing position with
  | nil => exact ⟨rfl, rfl⟩
  | cons step rest ih =>
    have same := (ready step (by simp)).size_eq grown
    have tail := ih (fun s hs => ready s (by simp [hs])) (position + step.size p)
    simp only [reach, timeline, same, tail, and_self]

theorem le_reach (pool : Pool) (position : Nat) (steps : List Step) :
    position ≤ reach pool position steps := by
  induction steps generalizing position with
  | nil => exact Nat.le_refl _
  | cons step rest ih => exact Nat.le_trans (Nat.le_add_right _ _) (ih _)

theorem reach_le_append (pool : Pool) (position : Nat) (first second : List Step) :
    reach pool position first ≤ reach pool position (first ++ second) := by
  rw [reach_append]
  exact le_reach pool _ second

theorem flatMap_octets_length (labels : Labels) (position : Nat) (steps : List Step) :
    position + (steps.flatMap (Step.octets pool labels)).length = reach pool position steps := by
  induction steps generalizing position with
  | nil => rfl
  | cons step rest ih =>
    simp only [List.flatMap_cons, List.length_append, Step.length_octets, reach, ← ih]
    omega

end Bytecode
