import Bytecode.StackMap
import Bytecode.Proofs.FrameOrder
import Bytecode.Proofs.Placement

/-! What the simulation of a body does, sight by sight. All that is proved of whole runs rests on
the one statement here that says what becomes of the state, of the handlers in force, of the
recorded frames, and of the casts that are noted as redundant. -/
namespace Bytecode

def Frame.leave (test : Option Test) (f : Frame) : Except Fault Frame :=
  match test with
  | none => .ok f
  | some test => f.branch test

namespace Sight

def guard (active : List (Label × Held)) : Sight → List (Label × Held)
  | enterTry handler caught => (handler, Simulation.caughtType caught) :: active
  | exitTry handler => active.eraseP (·.1 = handler)
  | _ => active

end Sight

namespace Simulation

/-- The frames that are recorded at a sight, in order. -/
def records (scene : Scene) (s : Simulation) : Sight → List (Nat × Frame)
  | .label _ n => if scene.wanted.contains n then (s.state.map (n, ·)).toList else []
  | .insn _ _ _ =>
    s.state.toList.flatMap fun f =>
      s.active.reverse.map fun (handler, caught) =>
        (scene.labels.spot handler, f.withStack [caught])
  | .jump test _ target =>
    s.state.toList.flatMap fun f =>
      (f.leave test).toOption.toList.map fun g => (scene.labels.spot target, g)
  | .enterTry handler caught =>
    s.state.toList.map fun f => (scene.labels.spot handler, f.withStack [caughtType caught])
  | _ => []

def notes (s : Simulation) : Sight → List Nat
  | .insn _ l n => s.state.toList.flatMap fun f => if isRedundant l f then [n] else []
  | _ => []

/-- The state after a sight. At a label that needs a frame it is what was recorded there. -/
def Moves (scene : Scene) (s s' : Simulation) : Sight → Prop
  | .label _ n =>
    if scene.wanted.contains n then s'.joined n = .ok s'.state else s'.state = s.state
  | .insn o l n =>
    (s.state = none ∧ s'.state = none) ∨
    ∃ f g, s.state = some f ∧ f.execute l o.type n scene.this = .ok g ∧
      s'.state = if o.ends then none else some g
  | .jump test _ _ =>
    (s.state = none ∧ s'.state = none) ∨
    ∃ f g, s.state = some f ∧ f.leave test = .ok g ∧
      s'.state = if test.isSome then some g else none
  | _ => s'.state = s.state

def recordAll (s : Simulation) (new : List (Nat × Frame)) : Simulation :=
  new.foldl (fun s (p, f) => s.record p f) s

variable {scene : Scene} {s s' : Simulation}

theorem recordedAt_record (s : Simulation) (p q : Nat) (f : Frame) :
    (s.record p f).recordedAt q = s.recordedAt q ++ if p = q then [f] else [] := by
  by_cases here : p = q
  · subst here
    simp [recordedAt, record]
  · simp [recordedAt, record, Std.TreeMap.getD_insert, here]

theorem mem_record (s : Simulation) (p q : Nat) (f : Frame) :
    q ∈ (s.record p f).recorded ↔ p = q ∨ q ∈ s.recorded := by
  simp [record, Std.TreeMap.mem_insert]

theorem recordedAt_recordAll (s : Simulation) (new : List (Nat × Frame)) (q : Nat) :
    (s.recordAll new).recordedAt q =
      s.recordedAt q ++ (new.filter (·.1 = q)).map (·.2) := by
  induction new generalizing s with
  | nil => simp [recordAll]
  | cons entry rest ih =>
    obtain ⟨p, f⟩ := entry
    show ((s.record p f).recordAll rest).recordedAt q = _
    rw [ih, recordedAt_record]
    by_cases here : p = q <;> simp [here]

theorem mem_recordAll (s : Simulation) (new : List (Nat × Frame)) (q : Nat) :
    q ∈ (s.recordAll new).recorded ↔ q ∈ s.recorded ∨ ∃ f, (q, f) ∈ new := by
  induction new generalizing s with
  | nil => simp [recordAll]
  | cons entry rest ih =>
    obtain ⟨p, f⟩ := entry
    show q ∈ ((s.record p f).recordAll rest).recorded ↔ _
    rw [ih, mem_record]
    simp only [List.mem_cons, Prod.mk.injEq]
    grind

theorem recordAll_append (s : Simulation) (first second : List (Nat × Frame)) :
    s.recordAll (first ++ second) = (s.recordAll first).recordAll second :=
  List.foldl_append

theorem recordAll_other (s : Simulation) (new : List (Nat × Frame)) :
    (s.recordAll new).state = s.state ∧ (s.recordAll new).active = s.active ∧
      (s.recordAll new).redundant = s.redundant := by
  induction new generalizing s with
  | nil => exact ⟨rfl, rfl, rfl⟩
  | cons entry rest ih => exact ih (s.record entry.1 entry.2)

theorem spot_of_positionOf {labels : Labels} {l : Label} {n : Nat}
    (h : labels.positionOf l = .ok n) : labels.spot l = n :=
  Labels.spot_eq (Labels.positionOf_eq_ok.mp h)

theorem recordHandlers_ok {f : Frame} {active : List (Label × Held)}
    (h : recordHandlers scene f active s = .ok s') :
    s' = s.recordAll (active.reverse.map fun (handler, caught) =>
      (scene.labels.spot handler, f.withStack [caught])) := by
  induction active generalizing s' with
  | nil =>
    cases h
    rfl
  | cons entry rest ih =>
    obtain ⟨handler, caught⟩ := entry
    simp only [recordHandlers, bind, Except.bind] at h
    cases first : recordHandlers scene f rest s with
    | error e => simp [first] at h
    | ok mid =>
      cases place : scene.labels.positionOf handler with
      | error e => simp [first, place] at h
      | ok n =>
        simp only [first, place, pure, Except.pure] at h
        cases h
        rw [ih first, List.reverse_cons, List.map_append, recordAll_append, List.map_singleton,
          ← spot_of_positionOf place]
        rfl

structure Sees (scene : Scene) (x : Sight) (s s' : Simulation) : Prop where
  recorded : s'.recorded = (s.recordAll (s.records scene x)).recorded
  active : s'.active = x.guard s.active
  state : Moves scene s s' x
  redundant : s'.redundant = s.notes x ++ s.redundant

theorem Sees.executes {o : Outcome} {l : Leaf} {n : Nat} (h : Sees scene (.insn o l n) s s')
    {f : Frame} (present : s.state = some f) :
    ∃ g, f.execute l o.type n scene.this = .ok g ∧ s'.state = if o.ends then none else some g := by
  rcases h.state with ⟨absent, _⟩ | ⟨f', g, present', runs, next⟩
  · rw [present] at absent
    cases absent
  · rw [present] at present'
    cases present'
    exact ⟨g, runs, next⟩

theorem Sees.leaves {test : Option Test} {source target : Label}
    (h : Sees scene (.jump test source target) s s') {f : Frame} (present : s.state = some f) :
    ∃ g, f.leave test = .ok g ∧ s'.state = if test.isSome then some g else none := by
  rcases h.state with ⟨absent, _⟩ | ⟨f', g, present', left, next⟩
  · rw [present] at absent
    cases absent
  · rw [present] at present'
    cases present'
    exact ⟨g, left, next⟩

theorem measure_other (s : Simulation) :
    s.measure.state = s.state ∧ s.measure.recorded = s.recorded ∧ s.measure.active = s.active ∧
      s.measure.redundant = s.redundant := by
  unfold measure
  split <;> exact ⟨rfl, rfl, rfl, rfl⟩

theorem joined_congr {p : Nat} (h : s.recorded = s'.recorded) : s.joined p = s'.joined p := by
  simp only [joined, recordedAt, h]

theorem rejoin_ok {n : Nat}
    (h : (do
      let state ← s.joined n
      return measure { s with state := state } : Except Error Simulation) = .ok s') :
    s'.recorded = s.recorded ∧ s'.active = s.active ∧ s'.joined n = .ok s'.state ∧
      s'.redundant = s.redundant := by
  cases joins : s.joined n with
  | error e => simp [joins, bind, Except.bind] at h
  | ok state =>
    simp only [joins, bind, Except.bind, pure, Except.pure] at h
    cases h
    obtain ⟨hstate, hrecorded, hactive, hredundant⟩ := measure_other { s with state := state }
    refine ⟨hrecorded, hactive, ?_, hredundant⟩
    rw [joined_congr hrecorded, hstate]
    exact joins

theorem label_ok {l : Label} {n : Nat} (h : s.label scene n = .ok s') :
    Sees scene (.label l n) s s' := by
  unfold label at h
  by_cases wanted : scene.wanted.contains n
  · rw [if_pos wanted] at h
    cases present : s.state with
    | none =>
      simp only [present] at h
      obtain ⟨recorded, active, joins, redundant⟩ := rejoin_ok h
      exact ⟨by simp [records, wanted, present, recordAll, recorded], active,
        by simp only [Moves, wanted, if_true, joins], redundant⟩
    | some f =>
      simp only [present] at h
      obtain ⟨recorded, active, joins, redundant⟩ := rejoin_ok h
      exact ⟨by simp [records, wanted, present, recordAll, recorded], active,
        by simp only [Moves, wanted, if_true, joins], redundant⟩
  · rw [if_neg wanted] at h
    cases h
    exact ⟨by simp [records, wanted, recordAll], rfl, by simp [Moves, wanted], rfl⟩

theorem insn_ok {o : Outcome} {l : Leaf} {n : Nat} (h : s.insn scene o l n = .ok s') :
    Sees scene (.insn o l n) s s' := by
  unfold insn at h
  cases present : s.state with
  | none =>
    simp only [present] at h
    cases h
    exact ⟨by simp [records, present, recordAll], rfl, .inl ⟨present, present⟩,
      by simp [notes, present]⟩
  | some f =>
    simp only [present, bind, Except.bind] at h
    cases handled : recordHandlers scene f s.active s with
    | error e => simp [handled] at h
    | ok mid =>
      have records_eq := recordHandlers_ok handled
      simp only [handled] at h
      cases run : f.execute l o.type n scene.this with
      | error fault => simp [run, throw, throwThe, MonadExceptOf.throw] at h
      | ok g =>
        simp only [run, pure, Except.pure, Except.ok.injEq] at h
        -- The note of a redundant cast touches nothing else, and the measure none of all this.
        have noted : (if isRedundant l f = true then { mid with redundant := n :: mid.redundant }
            else mid).recorded = mid.recorded ∧
            (if isRedundant l f = true then { mid with redundant := n :: mid.redundant }
            else mid).active = mid.active ∧
            (if isRedundant l f = true then { mid with redundant := n :: mid.redundant }
            else mid).redundant = s.notes (.insn o l n) ++ mid.redundant := by
          split <;> rename_i cast <;> exact ⟨rfl, rfl, by simp [notes, present, cast]⟩
        obtain ⟨hstate, hrecorded, hactive, hredundant⟩ := measure_other
          { (if isRedundant l f = true then { mid with redundant := n :: mid.redundant }
            else mid) with state := some g }
        have all : s'.recorded = mid.recorded ∧ s'.active = mid.active ∧
            (s'.state = if o.ends then none else some g) ∧
            s'.redundant = s.notes (.insn o l n) ++ mid.redundant := by
          rw [← h]
          split
          · exact ⟨hrecorded.trans noted.1, hactive.trans noted.2.1, rfl,
              hredundant.trans noted.2.2⟩
          · exact ⟨hrecorded.trans noted.1, hactive.trans noted.2.1, hstate,
              hredundant.trans noted.2.2⟩
        have same : s.records scene (.insn o l n) = s.active.reverse.map fun (handler, caught) =>
            (scene.labels.spot handler, f.withStack [caught]) := by
          simp [records, present]
        refine ⟨?_, ?_, .inr ⟨f, g, present, run, all.2.2.1⟩, ?_⟩
        · rw [all.1, records_eq, same]
        · rw [all.2.1, records_eq]
          exact (recordAll_other s _).2.1
        · rw [all.2.2.2, records_eq, (recordAll_other s _).2.2]

theorem jump_ok {test : Option Test} {source target : Label}
    (h : s.jump scene test source target = .ok s') :
    Sees scene (.jump test source target) s s' := by
  unfold jump at h
  cases present : s.state with
  | none =>
    simp only [present] at h
    cases h
    exact ⟨by simp [records, present, recordAll], rfl, .inl ⟨present, present⟩, rfl⟩
  | some f =>
    simp only [present, bind, Except.bind] at h
    cases goal : scene.labels.positionOf target with
    | error e => simp [goal] at h
    | ok p =>
      have spot := spot_of_positionOf goal
      simp only [goal] at h
      cases test with
      | none =>
        cases h
        refine ⟨?_, rfl, .inr ⟨f, f, present, rfl, rfl⟩, rfl⟩
        simp [records, present, Frame.leave, Except.toOption, recordAll, spot]
      | some test =>
        cases origin : scene.labels.positionOf source with
        | error e => simp [origin] at h
        | ok q =>
          simp only [origin] at h
          cases left : f.branch test with
          | error fault => simp [left, throw, throwThe, MonadExceptOf.throw] at h
          | ok g =>
            simp only [left, pure, Except.pure] at h
            cases h
            refine ⟨?_, rfl, .inr ⟨f, g, present, left, rfl⟩, rfl⟩
            simp [records, present, Frame.leave, left, Except.toOption, recordAll, spot]

theorem enterTry_ok {handler : Label} {caught : Option BinaryName}
    (h : s.enterTry scene handler caught = .ok s') :
    Sees scene (.enterTry handler caught) s s' := by
  unfold enterTry at h
  cases present : s.state with
  | none =>
    simp only [present, bind, Except.bind, pure, Except.pure] at h
    cases h
    exact ⟨by simp [records, present, recordAll], rfl, present.symm ▸ present, rfl⟩
  | some f =>
    cases place : scene.labels.positionOf handler with
    | error e => simp [present, bind, Except.bind, place] at h
    | ok n =>
      simp only [present, bind, Except.bind, place, pure, Except.pure] at h
      cases h
      refine ⟨?_, rfl, rfl, rfl⟩
      simp [records, present, recordAll, spot_of_positionOf place]

theorem see_ok {x : Sight} (h : s.see scene x = .ok s') : Sees scene x s s' := by
  cases x with
  | label l n => exact label_ok h
  | insn o l n => exact insn_ok h
  | jump test source target => exact jump_ok h
  | enterTry handler caught => exact enterTry_ok h
  | exitTry handler =>
    cases h
    exact ⟨rfl, rfl, rfl, rfl⟩
  | line number n =>
    cases h
    exact ⟨rfl, rfl, rfl, rfl⟩

end Simulation

end Bytecode
