import Bytecode.Proofs.Track

/-! The flow of control through simulated code. The state held at a position is the one after all
that comes before it has been seen and all labels there are placed. It is the join of what was
recorded there so far, and whatever is recorded later comes from a jump backward. -/
namespace Bytecode

namespace Sight

/-- The sight is passed on the way to a position. Labels at the position are, instructions
there are not. -/
def upTo (labels : Labels) (p : Nat) : Sight → Bool
  | label _ n => n ≤ p
  | insn _ _ n => n < p
  | jump _ source _ => labels.spot source < p
  | _ => true

def isOp : Sight → Bool
  | insn _ _ _ => true
  | jump _ _ _ => true
  | _ => false

end Sight

namespace Simulation

def heldAt (scene : Scene) (initial : Frame) (sights : List Sight) (p : Nat) : Option Frame :=
  match run scene initial (sights.takeWhile (Sight.upTo scene.labels p)) with
  | .ok s => s.state
  | .error _ => none

def Runs (scene : Scene) (s : Simulation) (sights : List Sight) (s' : Simulation) : Prop :=
  sights.foldlM (see scene) s = .ok s'

variable {scene : Scene} {s s' t : Simulation} {first last sights : List Sight} {x : Sight}

theorem runs_cons : Runs scene s (x :: last) s' ↔
    ∃ t, s.see scene x = .ok t ∧ Runs scene t last s' := by
  simp only [Runs, List.foldlM_cons, bind, Except.bind]
  cases s.see scene x <;> simp

theorem runs_append : Runs scene s (first ++ last) s' ↔
    ∃ t, Runs scene s first t ∧ Runs scene t last s' := by
  simp only [Runs, List.foldlM_append, bind, Except.bind]
  cases first.foldlM (see scene) s <;> simp

theorem Runs.active (h : Runs scene s sights s') :
    s'.active = sights.foldl Sight.guard s.active := by
  induction sights generalizing s with
  | nil =>
    cases h
    rfl
  | cons x rest ih =>
    obtain ⟨t, sees, later⟩ := runs_cons.mp h
    rw [ih later, (see_ok sees).active]
    rfl

theorem Sees.recordedAt (h : Sees scene x s s') (p : Nat) :
    s'.recordedAt p = s.recordedAt p ++ ((s.records scene x).filter (·.1 = p)).map (·.2) := by
  rw [← recordedAt_recordAll]
  simp only [Simulation.recordedAt, h.recorded]

/-- Records stay, and each new one was made at some sight on the way. -/
theorem Runs.recordedAt (h : Runs scene s sights s') (p : Nat) :
    ∃ more, s'.recordedAt p = s.recordedAt p ++ more ∧ ∀ f ∈ more, ∃ first x last t,
      sights = first ++ x :: last ∧ Runs scene s first t ∧ (p, f) ∈ t.records scene x := by
  induction sights generalizing s with
  | nil =>
    cases h
    exact ⟨[], by simp, by simp⟩
  | cons x rest ih =>
    obtain ⟨t, sees, later⟩ := runs_cons.mp h
    obtain ⟨more, whole, made⟩ := ih later
    refine ⟨((s.records scene x).filter (·.1 = p)).map (·.2) ++ more, ?_, ?_⟩
    · rw [whole, (see_ok sees).recordedAt, List.append_assoc]
    · intro f hf
      rcases List.mem_append.mp hf with hf | hf
      · simp only [List.mem_map, List.mem_filter, decide_eq_true_eq] at hf
        obtain ⟨⟨q, g⟩, ⟨member, rfl⟩, rfl⟩ := hf
        exact ⟨[], x, rest, s, rfl, rfl, member⟩
      · obtain ⟨first, y, last, u, rfl, ran, member⟩ := made f hf
        exact ⟨x :: first, y, last, u, rfl, runs_cons.mpr ⟨t, sees, ran⟩, member⟩

theorem Runs.mem_recordedAt (h : Runs scene s sights s') {p : Nat} {f : Frame}
    (member : f ∈ s.recordedAt p) : f ∈ s'.recordedAt p := by
  obtain ⟨more, whole, _⟩ := h.recordedAt p
  rw [whole]
  exact List.mem_append_left _ member

theorem Sees.mem_recordedAt (h : Sees scene x s s') {p : Nat} {f : Frame}
    (made : (p, f) ∈ s.records scene x) : f ∈ s'.recordedAt p := by
  rw [h.recordedAt]
  apply List.mem_append_right
  simp only [List.mem_map, List.mem_filter, decide_eq_true_eq]
  exact ⟨(p, f), ⟨made, rfl⟩, rfl⟩

theorem isJoin_of_joined {p : Nat} {u : Frame} (h : s.joined p = .ok (some u)) :
    Frame.IsJoin (s.recordedAt p) u := by
  unfold joined at h
  cases whole : s.recordedAt p with
  | nil => simp [whole] at h
  | cons f others =>
    simp only [whole] at h
    cases joins : Frame.unionAll f others with
    | error fault => simp [joins] at h
    | ok g =>
      simp only [joins, Except.ok.injEq, Option.some.injEq] at h
      exact h ▸ Frame.isJoin_unionAll joins

theorem recordedAt_of_joined_none {p : Nat} (h : s.joined p = .ok none) :
    s.recordedAt p = [] := by
  unfold joined at h
  cases whole : s.recordedAt p with
  | nil => rfl
  | cons f others =>
    simp only [whole] at h
    cases joins : Frame.unionAll f others <;> simp [joins] at h

theorem below_of_joined {p : Nat} {f : Frame} (joins : s.joined p = .ok s.state)
    (member : f ∈ s.recordedAt p) : ∃ u, s.state = some u ∧ f.Below u := by
  cases state : s.state with
  | none =>
    rw [state] at joins
    rw [recordedAt_of_joined_none joins] at member
    cases member
  | some u =>
    rw [state] at joins
    exact ⟨u, rfl, (isJoin_of_joined joins).above f member⟩

/-- As long as no instruction is seen, the state only rises. -/
theorem Runs.rises (h : Runs scene s sights s') (calm : ∀ x ∈ sights, x.isOp = false) {f : Frame}
    (present : s.state = some f) : ∃ u, s'.state = some u ∧ f.Below u := by
  induction sights generalizing s f with
  | nil =>
    cases h
    exact ⟨f, present, .refl f⟩
  | cons x rest ih =>
    obtain ⟨t, sees, later⟩ := runs_cons.mp h
    have seen := see_ok sees
    have next : ∃ g, t.state = some g ∧ f.Below g := by
      cases x with
      | label l n =>
        have moves := seen.state
        simp only [Moves] at moves
        split at moves
        · rename_i wanted
          exact below_of_joined moves (seen.mem_recordedAt (by simp [records, wanted, present]))
        · exact ⟨f, moves.trans present, .refl f⟩
      | insn | jump => simp [Sight.isOp] at calm
      | enterTry | exitTry | line => exact ⟨f, seen.state.trans present, .refl f⟩
    obtain ⟨g, hg, low⟩ := next
    obtain ⟨u, hu, high⟩ := ih later (fun y hy => calm y (by simp [hy])) hg
    exact ⟨u, hu, low.trans high⟩

end Simulation

/-- The class that an entry of the table names; an entry without one is for anything thrown. -/
def Handler.Catches (pool : Pool) (h : Handler) (name : BinaryName) : Prop :=
  match h.caught with
  | none => name = .throwable
  | some index => pool.class? index = some name.text

structure Track (pool : Pool) (scene : Scene) (handlers : List Handler) (sights : List Sight) :
    Prop where
  sorted : sights.Pairwise (Sight.Before pool scene.labels)
  solid : ∀ o l n, .insn o l n ∈ sights → 0 < (l.octets pool).length
  placed : ∀ l n, scene.labels.settled? l = some n ↔ .label l n ∈ sights
  sites : ∀ p, scene.wanted.contains p → ∃ l, .label l p ∈ sights
  jumps : ∀ test source target, .jump test source target ∈ sights →
    ∃ q p, scene.labels.settled? source = some q ∧ scene.labels.settled? target = some p ∧
      scene.wanted.contains q ∧ scene.wanted.contains p
  entries : ∀ h ∈ handlers, scene.wanted.contains h.handler.toNat
  pending : ∀ first last, sights = first ++ last → ∀ e ∈ first.foldl Sight.guard [],
    ∃ n, .label e.1 n ∈ last
  covered : ∀ first o l n last, sights = first ++ .insn o l n :: last → ∀ h ∈ handlers,
    h.start.toNat ≤ n → n < h.stop.toNat → ∀ name, h.Catches pool name →
    ∃ entry, scene.labels.spot entry = h.handler.toNat ∧
      (entry, VType.object (.object name)) ∈ first.foldl Sight.guard []

namespace Track

open Simulation

variable {pool : Pool} {scene : Scene} {handlers : List Handler} {sights first last : List Sight}
  {x : Sight} {p : Nat}

theorem upTo_of_end (track : Track pool scene handlers sights) (member : x ∈ sights)
    (h : ∀ a, x.extent? pool scene.labels = some a → a.2 ≤ p) : x.upTo scene.labels p := by
  cases x with
  | label l n => simpa [Sight.upTo] using h (n, n) rfl
  | insn o l n =>
    have := track.solid o l n member
    have := h _ rfl
    simp only [Sight.upTo, decide_eq_true_eq]
    omega
  | jump test source target =>
    have := h _ rfl
    simp only [Sight.upTo, decide_eq_true_eq]
    omega
  | enterTry | exitTry | line => rfl

theorem end_le (track : Track pool scene handlers (first ++ x :: last)) {a : Nat × Nat}
    (has : x.extent? pool scene.labels = some a) {y : Sight} (member : y ∈ first) {b : Nat × Nat}
    (hy : y.extent? pool scene.labels = some b) : b.2 ≤ a.1 :=
  (List.pairwise_append.mp track.sorted).2.2 y member x (by simp) b a hy has

theorem le_start (track : Track pool scene handlers (first ++ x :: last)) {a : Nat × Nat}
    (has : x.extent? pool scene.labels = some a) {y : Sight} (member : y ∈ last) {b : Nat × Nat}
    (hy : y.extent? pool scene.labels = some b) : a.2 ≤ b.1 :=
  (List.pairwise_cons.mp (List.pairwise_append.mp track.sorted).2.1).1 y member a b has hy

theorem extent_le (pool : Pool) (labels : Labels) {a : Nat × Nat}
    (has : x.extent? pool labels = some a) : a.1 ≤ a.2 := by
  cases x <;> cases has <;> simp

theorem takeWhile_op (track : Track pool scene handlers (first ++ x :: last)) (op : x.isOp)
    {a : Nat × Nat} (has : x.extent? pool scene.labels = some a) :
    (first ++ x :: last).takeWhile (Sight.upTo scene.labels a.1) = first := by
  have before : ∀ y ∈ first, y.upTo scene.labels a.1 = true := fun y hy =>
    track.upTo_of_end (by simp [hy]) fun b hb => track.end_le has hy hb
  have stop : x.upTo scene.labels a.1 = false := by
    cases x with
    | insn | jump =>
      cases has
      simp [Sight.upTo]
    | label | enterTry | exitTry | line => cases op
  rw [List.takeWhile_append_of_pos before, List.takeWhile_cons, stop]
  simp

theorem takeWhile_through (track : Track pool scene handlers (first ++ x :: last)) {a : Nat × Nat}
    (has : x.extent? pool scene.labels = some a) (le : a.2 ≤ p) :
    (first ++ x :: last).takeWhile (Sight.upTo scene.labels p) =
      first ++ x :: last.takeWhile (Sight.upTo scene.labels p) := by
  have here : x.upTo scene.labels p = true :=
    track.upTo_of_end (by simp) fun b hb => by
      rw [has] at hb
      cases hb
      exact le
  have before : ∀ y ∈ first, y.upTo scene.labels p = true := fun y hy =>
    track.upTo_of_end (by simp [hy]) fun b hb => by
      have := track.end_le has hy hb
      have := extent_le pool scene.labels has
      omega
  rw [List.takeWhile_append_of_pos before, List.takeWhile_cons, here]
  simp

/-- What has a place after the way to a position was left, is not on the way. -/
theorem not_upTo_of_dropWhile (track : Track pool scene handlers sights)
    (member : x ∈ sights.dropWhile (Sight.upTo scene.labels p)) {a : Nat × Nat}
    (has : x.extent? pool scene.labels = some a) : x.upTo scene.labels p = false := by
  cases whole : sights.dropWhile (Sight.upTo scene.labels p) with
  | nil =>
    rw [whole] at member
    cases member
  | cons y rest =>
    have stop : y.upTo scene.labels p = false := by
      have := List.head_dropWhile_not (Sight.upTo scene.labels p) (l := sights)
        (by rw [whole]; simp)
      simpa [whole] using this
    rw [whole] at member
    rcases List.mem_cons.mp member with rfl | later
    · exact stop
    · have split : sights = sights.takeWhile (Sight.upTo scene.labels p) ++ y :: rest := by
        rw [← whole, List.takeWhile_append_dropWhile]
      have track' := split ▸ track
      -- The first sight off the way has a place, and it ends after the position.
      have far : ∃ b, y.extent? pool scene.labels = some b ∧ p < b.2 := by
        have inside : y ∈ sights := by rw [split]; simp
        cases y with
        | label l n => exact ⟨_, rfl, by simpa [Sight.upTo] using stop⟩
        | insn o l n =>
          have := track.solid o l n inside
          simp only [Sight.upTo, decide_eq_false_iff_not] at stop
          exact ⟨_, rfl, by simp only; omega⟩
        | jump test source target =>
          simp only [Sight.upTo, decide_eq_false_iff_not] at stop
          exact ⟨_, rfl, by simp only; omega⟩
        | enterTry | exitTry | line => cases stop
      obtain ⟨b, hb, beyond⟩ := far
      have := track'.le_start hb later has
      cases x with
      | label | insn | jump =>
        cases has
        simp only [Sight.upTo, decide_eq_false_iff_not]
        simp only at this
        omega
      | enterTry | exitTry | line => cases has

end Track

end Bytecode
