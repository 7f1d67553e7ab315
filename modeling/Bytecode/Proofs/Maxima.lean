import Bytecode.Proofs.Loops
import Bytecode.Proofs.Room

/-! The largest stack and the most local slots of a body. The simulation measures every frame that
it comes to, so the numbers it ends with bound them all; the code has room for all of them as long as
the numbers are not cut off when they are written. A frame that is recorded for a handler is measured
only where the code has a use for it. -/
namespace Bytecode

namespace Simulation

variable {scene : Scene} {s s' t : Simulation} {sights first last : List Sight} {x : Sight}
  {f : Frame} {p bound : Nat}

def gauged (scene : Scene) (s s' : Simulation) : Sight → Option Frame
  | .label _ n => if scene.wanted.contains n then s'.state else none
  | .insn o l n => s.state.bind fun f => (f.execute l o.type n scene.this).toOption
  | _ => none

structure Gauges (scene : Scene) (x : Sight) (s s' : Simulation) : Prop where
  stack : s'.maxStack = max s.maxStack ((s.gauged scene s' x).elim 0 Frame.stackSlots)
  locals : s'.maxLocals = max s.maxLocals ((s.gauged scene s' x).elim 0 (·.locals.size))

theorem recordAll_maxima (s : Simulation) (new : List (Nat × Frame)) :
    (s.recordAll new).maxStack = s.maxStack ∧ (s.recordAll new).maxLocals = s.maxLocals := by
  induction new generalizing s with
  | nil => exact ⟨rfl, rfl⟩
  | cons entry rest ih => exact ih (s.record entry.1 entry.2)

theorem rejoin_gauges {n : Nat}
    (h : (do
      let state ← s.joined n
      return measure { s with state := state } : Except Error Simulation) = .ok s') :
    s'.maxStack = max s.maxStack (s'.state.elim 0 Frame.stackSlots) ∧
      s'.maxLocals = max s.maxLocals (s'.state.elim 0 (·.locals.size)) := by
  obtain ⟨state, _, done⟩ := ok_of_bind h
  cases done
  cases state <;> simp [measure]

theorem label_gauges {l : Label} {n : Nat} (h : s.label scene n = .ok s') :
    Gauges scene (.label l n) s s' := by
  unfold label at h
  by_cases wanted : scene.wanted.contains n
  · rw [if_pos wanted] at h
    have measured : s'.maxStack = max s.maxStack (s'.state.elim 0 Frame.stackSlots) ∧
        s'.maxLocals = max s.maxLocals (s'.state.elim 0 (·.locals.size)) := by
      cases present : s.state with
      | none =>
        simp only [present] at h
        exact rejoin_gauges h
      | some f =>
        simp only [present] at h
        exact rejoin_gauges (s := s.record n f) h
    exact ⟨by simpa only [gauged, wanted, if_true] using measured.1,
      by simpa only [gauged, wanted, if_true] using measured.2⟩
  · rw [if_neg wanted] at h
    cases h
    constructor <;> simp [gauged, wanted]

theorem insn_gauges {o : Outcome} {l : Leaf} {n : Nat} (h : s.insn scene o l n = .ok s') :
    Gauges scene (.insn o l n) s s' := by
  unfold insn at h
  cases present : s.state with
  | none =>
    simp only [present] at h
    cases h
    constructor <;> simp [gauged, present]
  | some f =>
    simp only [present] at h
    obtain ⟨mid, handled, h⟩ := ok_of_bind h
    obtain ⟨stack, locals⟩ : mid.maxStack = s.maxStack ∧ mid.maxLocals = s.maxLocals := by
      rw [recordHandlers_ok handled]
      exact recordAll_maxima s _
    cases run : f.execute l o.type n scene.this with
    | error fault =>
      simp only [run] at h
      cases h
    | ok g =>
      simp only [run] at h
      cases h
      constructor
      · split <;> split <;>
          simp [gauged, present, run, Except.toOption, measure, stack]
      · split <;> split <;>
          simp [gauged, present, run, Except.toOption, measure, locals]

theorem see_gauges (h : s.see scene x = .ok s') : Gauges scene x s s' := by
  cases x with
  | label l n => exact label_gauges h
  | insn o l n => exact insn_gauges h
  | jump test source target =>
    unfold see jump at h
    cases present : s.state with
    | none =>
      simp only [present] at h
      cases h
      constructor <;> simp [gauged]
    | some f =>
      simp only [present] at h
      obtain ⟨goal, _, h⟩ := ok_of_bind h
      cases test with
      | none =>
        cases h
        constructor <;> simp [gauged, record]
      | some test =>
        obtain ⟨position, _, h⟩ := ok_of_bind h
        cases left : f.branch test with
        | error fault =>
          simp only [left] at h
          cases h
        | ok g =>
          simp only [left] at h
          cases h
          constructor <;> simp [gauged, record]
  | enterTry handler caught =>
    unfold see enterTry at h
    cases present : s.state with
    | none =>
      simp only [present] at h
      cases h
      constructor <;> simp [gauged]
    | some f =>
      simp only [present] at h
      obtain ⟨position, _, done⟩ := ok_of_bind h
      cases done
      constructor <;> simp [gauged, record]
  | exitTry handler =>
    cases h
    constructor <;> simp [gauged, exitTry]
  | line number n =>
    cases h
    constructor <;> simp [gauged]

theorem Gauges.le (h : Gauges scene x s s') :
    s.maxStack ≤ s'.maxStack ∧ s.maxLocals ≤ s'.maxLocals := by
  rw [h.stack, h.locals]
  exact ⟨Nat.le_max_left _ _, Nat.le_max_left _ _⟩

theorem Gauges.covers (h : Gauges scene x s s') (here : s.gauged scene s' x = some f) :
    f.stackSlots ≤ s'.maxStack ∧ f.locals.size ≤ s'.maxLocals := by
  rw [h.stack, h.locals, here]
  exact ⟨Nat.le_max_right _ _, Nat.le_max_right _ _⟩

/-- A frame is recorded for a handler at the sight, if it is reached. -/
def Throws (s : Simulation) : Sight → Prop
  | .insn _ _ _ => s.active ≠ []
  | .enterTry _ _ => True
  | _ => False

/-- What was measured so far covers the state and the recorded frames. A frame that is recorded for
a handler has one value on the stack, measured or not. -/
structure Measured (s : Simulation) : Prop where
  state : ∀ f, s.state = some f →
    f.Whole ∧ f.locals.size ≤ s.maxLocals ∧ f.stackSlots ≤ s.maxStack
  recorded : ∀ p, ∀ f ∈ s.recordedAt p,
    f.Whole ∧ f.locals.size ≤ s.maxLocals ∧ (f.stackSlots ≤ s.maxStack ∨ f.stackSlots = 1)
  active : ∀ e ∈ s.active, width e.2 = 1

/-- What a handler in force catches was in force before, or is caught by a try that is entered. -/
theorem Sees.mem_active (h : Sees scene x s s') {e : Label × Held} (member : e ∈ s'.active) :
    e ∈ s.active ∨ ∃ caught, e.2 = caughtType caught := by
  rw [h.active] at member
  cases x with
  | enterTry handler caught =>
    rcases List.mem_cons.mp member with rfl | old
    · exact .inr ⟨caught, rfl⟩
    · exact .inl old
  | exitTry handler => exact .inl (List.mem_of_mem_eraseP member)
  | label | insn | jump | line => exact .inl member

theorem measured_start {initial : Frame} (whole : initial.Whole) : (start initial).Measured := by
  refine ⟨?_, ?_, by simp [start]⟩
  · intro f present
    cases present
    exact ⟨whole, Nat.le_refl _, Nat.le_refl _⟩
  · intro p f member
    simp [recordedAt, start] at member

/-- A frame is recorded as control leaves with it, or for a handler, with nothing on the stack but what
is caught. -/
theorem records_cases (made : (p, f) ∈ s.records scene x) :
    ∃ e, s.state = some e ∧ ((∃ test, e.leave test = .ok f) ∨
      s.Throws x ∧ ∃ v, f = e.withStack [v] ∧
        ((∃ handler, (handler, v) ∈ s.active) ∨ ∃ caught, v = caughtType caught)) := by
  cases x with
  | label l n =>
    simp only [records] at made
    split at made
    · obtain ⟨e, present, same⟩ := Option.map_eq_some_iff.mp (Option.mem_toList.mp made)
      cases same
      exact ⟨f, present, .inl ⟨none, rfl⟩⟩
    · cases made
  | insn o l n =>
    simp only [records, List.mem_flatMap, List.mem_map, List.mem_reverse, Option.mem_toList] at made
    obtain ⟨e, present, ⟨entry, caught⟩, force, same⟩ := made
    cases same
    exact ⟨e, present, .inr ⟨List.ne_nil_of_mem force, caught, rfl, .inl ⟨entry, force⟩⟩⟩
  | jump test source target =>
    simp only [records, List.mem_flatMap, List.mem_map, Option.mem_toList] at made
    obtain ⟨e, present, g, left, same⟩ := made
    cases same
    exact ⟨e, present, .inl ⟨test, toOption_eq_some.mp left⟩⟩
  | enterTry entry caught =>
    simp only [records, List.mem_map, Option.mem_toList] at made
    obtain ⟨e, present, same⟩ := made
    cases same
    exact ⟨e, present, .inr ⟨trivial, caughtType caught, rfl, .inr ⟨caught, rfl⟩⟩⟩
  | exitTry | line => simp [records] at made

/-- Frames are recorded with the local variables of the state, and with its stack or less, but for
handlers. -/
theorem records_room (narrow : ∀ e ∈ s.active, width e.2 = 1)
    (made : (p, f) ∈ s.records scene x) :
    ∃ e, s.state = some e ∧ f.locals = e.locals ∧
      (f.stackSlots ≤ e.stackSlots ∨ f.stackSlots = 1 ∧ s.Throws x) := by
  obtain ⟨e, present, ⟨test, left⟩ | ⟨throws, v, rfl, origin⟩⟩ := records_cases made
  · obtain ⟨same, lower⟩ := Frame.leave_ok left
    exact ⟨e, present, same, .inl lower⟩
  · have one : width v = 1 := by
      rcases origin with ⟨handler, force⟩ | ⟨caught, rfl⟩
      · exact narrow (handler, v) force
      · rfl
    exact ⟨e, present, rfl, .inr ⟨Frame.stackSlots_withStack one, throws⟩⟩

theorem Sees.recordedAt_cases (h : Sees scene x s s') {p : Nat} {f : Frame}
    (member : f ∈ s'.recordedAt p) : f ∈ s.recordedAt p ∨ (p, f) ∈ s.records scene x := by
  rw [h.recordedAt] at member
  rcases List.mem_append.mp member with old | new
  · exact .inl old
  · simp only [List.mem_map, List.mem_filter, decide_eq_true_eq] at new
    obtain ⟨⟨q, g⟩, ⟨made, rfl⟩, rfl⟩ := new
    exact .inr made

theorem Measured.recordedAt_le (m : s.Measured) (h : s.see scene x = .ok s') :
    ∀ p, ∀ f ∈ s'.recordedAt p,
      f.Whole ∧ f.locals.size ≤ s.maxLocals ∧ (f.stackSlots ≤ s.maxStack ∨ f.stackSlots = 1) := by
  intro p f member
  rcases (see_ok h).recordedAt_cases member with old | made
  · exact m.recorded p f old
  · obtain ⟨e, present, same, stack⟩ := records_room m.active made
    obtain ⟨whole, locals, below⟩ := m.state e present
    refine ⟨whole.congr same, same ▸ locals, ?_⟩
    rcases stack with lower | ⟨one, _⟩
    · exact .inl (Nat.le_trans lower below)
    · exact .inr one

theorem exists_recorded {j : Frame} (joins : s.joined p = .ok (some j)) :
    ∃ f, f ∈ s.recordedAt p := by
  apply List.exists_mem_of_ne_nil
  intro empty
  simp [joined, empty] at joins

theorem room_of_joined {u : Frame} (joins : s.joined p = .ok (some u))
    (each : ∀ f ∈ s.recordedAt p, f.Whole ∧ f.locals.size ≤ bound) :
    u.Whole ∧ u.locals.size ≤ bound := by
  unfold joined at joins
  cases all : s.recordedAt p with
  | nil => simp [all] at joins
  | cons f others =>
    rw [all] at each
    simp only [all] at joins
    cases met : Frame.unionAll f others with
    | error fault => simp [met] at joins
    | ok c =>
      simp only [met, Except.ok.injEq, Option.some.injEq] at joins
      subst joins
      exact ⟨(each f (by simp)).1.unionAll met,
        Frame.size_unionAll_le met fun g member => (each g member).2⟩

theorem Measured.see (m : s.Measured) (h : s.see scene x = .ok s') : s'.Measured := by
  have seen := see_ok h
  have gauges := see_gauges h
  have recorded : ∀ p, ∀ f ∈ s'.recordedAt p, f.Whole ∧ f.locals.size ≤ s'.maxLocals ∧
      (f.stackSlots ≤ s'.maxStack ∨ f.stackSlots = 1) := by
    intro p f member
    obtain ⟨whole, locals, stack⟩ := m.recordedAt_le h p f member
    have := gauges.le
    exact ⟨whole, by omega, by omega⟩
  have unchanged : s'.state = s.state → ∀ f, s'.state = some f →
      f.Whole ∧ f.locals.size ≤ s'.maxLocals ∧ f.stackSlots ≤ s'.maxStack := by
    intro same f present
    obtain ⟨whole, locals, stack⟩ := m.state f (same ▸ present)
    have := gauges.le
    exact ⟨whole, by omega, by omega⟩
  have moves := seen.state
  refine ⟨?_, recorded, ?_⟩
  · cases x with
    | label l n =>
      simp only [Moves] at moves
      split at moves
      · rename_i wanted
        intro f present
        rw [present] at moves
        have room := room_of_joined moves fun g member =>
          ⟨(recorded n g member).1, (recorded n g member).2.1⟩
        have measured := gauges.covers (f := f) (by simp [gauged, wanted, present])
        exact ⟨room.1, room.2, measured.1⟩
      · exact unchanged moves
    | insn o l n =>
      rcases moves with ⟨before, after⟩ | ⟨e, g, before, runs, after⟩
      · exact unchanged (after.trans before.symm)
      · intro f present
        rw [after] at present
        split at present
        · cases present
        · cases present
          have measured := gauges.covers (f := g) (by simp [gauged, before, runs, Except.toOption])
          exact ⟨(Frame.size_execute (m.state e before).1 runs).1, measured.2, measured.1⟩
    | jump test source target =>
      rcases moves with ⟨before, after⟩ | ⟨e, g, before, left, after⟩
      · exact unchanged (after.trans before.symm)
      · intro f present
        rw [after] at present
        split at present
        · cases present
          obtain ⟨same, lower⟩ := Frame.leave_ok left
          obtain ⟨whole, locals, stack⟩ := m.state e before
          have := gauges.le
          exact ⟨whole.congr same, by rw [same]; omega, by omega⟩
        · cases present
    | enterTry | exitTry | line => exact unchanged moves
  · intro e member
    rcases seen.mem_active member with old | ⟨caught, type⟩
    · exact m.active e old
    · rw [type]
      rfl

theorem Runs.measured (h : Runs scene s sights s') (m : s.Measured) :
    s'.Measured ∧ s.maxStack ≤ s'.maxStack ∧ s.maxLocals ≤ s'.maxLocals := by
  induction sights generalizing s with
  | nil =>
    cases h
    exact ⟨m, Nat.le_refl _, Nat.le_refl _⟩
  | cons x rest ih =>
    obtain ⟨t, sees, later⟩ := runs_cons.mp h
    have step := (see_gauges sees).le
    obtain ⟨measured, stack, locals⟩ := ih later (m.see sees)
    exact ⟨measured, by omega, by omega⟩

def Executes (scene : Scene) (s : Simulation) (sights : List Sight) (l : Leaf) : Prop :=
  ∃ first o n last t, sights = first ++ .insn o l n :: last ∧ Runs scene s first t ∧
    t.state.isSome

def Comes (scene : Scene) (s : Simulation) (sights : List Sight) (f : Frame) : Prop :=
  ∃ first last t, sights = first ++ last ∧ Runs scene s first t ∧
    (t.state = some f ∨ ∃ o l n rest e, last = .insn o l n :: rest ∧ t.state = some e ∧
      e.execute l o.type n scene.this = .ok f)

def Guarded (scene : Scene) (s : Simulation) (sights : List Sight) : Prop :=
  ∃ first x last t, sights = first ++ x :: last ∧ Runs scene s first t ∧ t.state.isSome ∧ t.Throws x

theorem Comes.cons (sees : s.see scene x = .ok t) (h : Comes scene t last f) :
    Comes scene s (x :: last) f := by
  obtain ⟨before, after, u, rfl, ran, came⟩ := h
  exact ⟨x :: before, after, u, rfl, runs_cons.mpr ⟨t, sees, ran⟩, came⟩

theorem Executes.cons {l : Leaf} (sees : s.see scene x = .ok t) (h : Executes scene t last l) :
    Executes scene s (x :: last) l := by
  obtain ⟨before, o, n, after, u, rfl, ran, present⟩ := h
  exact ⟨x :: before, o, n, after, u, rfl, runs_cons.mpr ⟨t, sees, ran⟩, present⟩

theorem Runs.bounds (h : Runs scene s sights s') (m : s.Measured) (came : Comes scene s sights f) :
    f.stackSlots ≤ s'.maxStack ∧ f.locals.size ≤ s'.maxLocals := by
  obtain ⟨before, after, t, rfl, ran, here⟩ := came
  obtain ⟨u, ran', later⟩ := runs_append.mp h
  have same : (.ok t : Except Error Simulation) = .ok u := ran.symm.trans ran'
  cases same
  have measured := (ran.measured m).1
  rcases here with present | ⟨o, l, n, rest, e, rfl, before, runs⟩
  · obtain ⟨_, locals, stack⟩ := measured.state f present
    have := (later.measured measured).2
    omega
  · obtain ⟨u, sees, later⟩ := runs_cons.mp later
    have covers := (see_gauges sees).covers (f := f)
      (by simp [gauged, before, runs, Except.toOption])
    have := (later.measured (measured.see sees)).2
    omega

/-- A reached instruction leaves a frame that has the variable that it names. -/
theorem Runs.exists_comes (h : Runs scene s sights s') (m : s.Measured) {l : Leaf}
    (reached : Executes scene s sights l) :
    ∃ g, Comes scene s sights g ∧ l.span ≤ g.locals.size := by
  obtain ⟨before, o, n, after, t, rfl, ran, present⟩ := reached
  obtain ⟨e, present⟩ := Option.isSome_iff_exists.mp present
  obtain ⟨u, ran', later⟩ := runs_append.mp h
  have same : (.ok t : Except Error Simulation) = .ok u := ran.symm.trans ran'
  cases same
  obtain ⟨_, sees, _⟩ := runs_cons.mp later
  obtain ⟨g, runs, _⟩ := (see_ok sees).executes present
  have size := (Frame.size_execute ((ran.measured m).1.state e present).1 runs).2
  exact ⟨g, ⟨before, _, t, rfl, ran, .inr ⟨o, l, n, after, e, rfl, present, runs⟩⟩, by omega⟩

theorem Runs.maxStack_le (h : Runs scene s sights s') (start : s.maxStack ≤ bound)
    (each : ∀ f, Comes scene s sights f → f.stackSlots ≤ bound) : s'.maxStack ≤ bound := by
  induction sights generalizing s with
  | nil =>
    cases h
    exact start
  | cons x rest ih =>
    obtain ⟨t, sees, later⟩ := runs_cons.mp h
    refine ih later ?_ fun f came => each f (came.cons sees)
    rw [(see_gauges sees).stack]
    cases measured : s.gauged scene t x with
    | none => simpa using start
    | some f =>
      have came : Comes scene s (x :: rest) f := by
        cases x with
        | label l n =>
          simp only [gauged] at measured
          split at measured
          · exact ⟨[.label l n], rest, t, rfl, runs_cons.mpr ⟨t, sees, rfl⟩, .inl measured⟩
          · cases measured
        | insn o l n =>
          obtain ⟨e, present, runs⟩ := Option.bind_eq_some_iff.mp measured
          exact ⟨[], _, s, rfl, rfl,
            .inr ⟨o, l, n, rest, e, rfl, present, toOption_eq_some.mp runs⟩⟩
        | jump | enterTry | exitTry | line => cases measured
      have := each f came
      simp only [Option.elim_some]
      omega

theorem Measured.maxLocals_le (m : s.Measured) (h : s.see scene x = .ok s')
    (start : s.maxLocals ≤ bound)
    (here : ∀ o l n, x = .insn o l n → s.state.isSome → l.span ≤ bound) : s'.maxLocals ≤ bound := by
  rw [(see_gauges h).locals]
  cases measured : s.gauged scene s' x with
  | none => simpa using start
  | some f =>
    have room : f.locals.size ≤ bound := by
      cases x with
      | label l n =>
        have moves := (see_ok h).state
        simp only [gauged] at measured
        split at measured
        · rename_i wanted
          simp only [Moves, wanted, if_true, measured] at moves
          refine (room_of_joined moves fun g member => ?_).2
          obtain ⟨whole, locals, _⟩ := m.recordedAt_le h n g member
          exact ⟨whole, Nat.le_trans locals start⟩
        · cases measured
      | insn o l n =>
        obtain ⟨e, present, runs⟩ := Option.bind_eq_some_iff.mp measured
        obtain ⟨whole, locals, _⟩ := m.state e present
        rw [(Frame.size_execute whole (toOption_eq_some.mp runs)).2]
        have := here o l n rfl (by simp [present])
        omega
      | jump | enterTry | exitTry | line => cases measured
    simp only [Option.elim_some]
    omega

/-- Local slots are those on entry, and those that instructions need that are reached. -/
theorem Runs.maxLocals_le (h : Runs scene s sights s') (m : s.Measured)
    (start : s.maxLocals ≤ bound) (each : ∀ l, Executes scene s sights l → l.span ≤ bound) :
    s'.maxLocals ≤ bound := by
  induction sights generalizing s with
  | nil =>
    cases h
    exact start
  | cons x rest ih =>
    obtain ⟨t, sees, later⟩ := runs_cons.mp h
    refine ih later (m.see sees) ?_ fun l reached => each l (reached.cons sees)
    refine m.maxLocals_le sees start ?_
    rintro o l n rfl present
    exact each l ⟨[], o, n, rest, s, rfl, rfl, present⟩

end Simulation

end Bytecode
