import Bytecode.Proofs.Timeline
import Bytecode.Proofs.Walk
import Mathlib

/-! The three passes over a tree agree. The first fills the pool and finds the positions; from
then on nothing is interned and nothing moves, so the second can fail only at a jump, and
after it the last cannot fail. -/
namespace Bytecode

def Reaches (estimate : Label → Option Nat) (source target : Label) : Prop :=
  ∃ origin goal : Nat, estimate source = some origin ∧ estimate target = some goal ∧
    -32768 ≤ (goal : Int) - origin ∧ (goal : Int) - origin < 32767

/-- Why a jump does not reach: nobody places its target, or it is too far. -/
def Misses (estimate : Label → Option Nat) (method : String) (source target : Label) (e : Error) :
    Prop :=
  (estimate target = none ∧ e = .notPlaced target) ∨
  ∃ origin goal : Nat, estimate source = some origin ∧ estimate target = some goal ∧
    ¬ (-32768 ≤ (goal : Int) - origin ∧ (goal : Int) - origin < 32767) ∧
    e = .branchTooFar method ((goal : Int) - origin)

namespace Step

def Reaches (estimate : Label → Option Nat) : Step → Prop
  | jump _ source target => Bytecode.Reaches estimate source target
  | _ => True

def Misses (estimate : Label → Option Nat) (method : String) (e : Error) : Step → Prop
  | jump _ source target => Bytecode.Misses estimate method source target e
  | _ => False

theorem Misses.not_reaches {estimate : Label → Option Nat} {method : String} {e : Error}
    {step : Step} (h : step.Misses estimate method e) : ¬ step.Reaches estimate := by
  cases step with
  | jump test source target =>
    rintro ⟨origin, goal, hs, ht, near⟩
    rcases h with ⟨absent, _⟩ | ⟨origin', goal', hs', ht', far, _⟩
    · rw [ht] at absent
      cases absent
    · rw [hs] at hs'
      rw [ht] at ht'
      cases hs'
      cases ht'
      exact far near
  | _ => exact h.elim

end Step

namespace Layout

/-- The layout after a step, as far as all passes agree on it. -/
def moved (pool : Pool) (step : Step) (labels : Labels) (s : Layout) : Layout :=
  { s with
    labels := labels
    position := s.position + step.size pool
    sights := s.sights ++ step.sights s.position }

def written (pool : Pool) (step : Step) (s : Layout) : Layout :=
  { s.moved pool step s.labels with
    code := s.code ++ step.octets pool s.labels
    jumps := s.jumps ++ step.hops s.labels
    handlers := s.handlers ++ step.handlers pool s.labels }

structure Estimates (step : Step) (position : Nat) (before after : Labels) : Prop where
  estimate : ∀ l, after.estimate? l =
    if step.placed? = some l then some position else before.estimate? l
  settled : ∀ l, after.settled? l = before.settled? l
  free : ∀ l, step.placed? = some l →
    before.estimate? l = none ∨ before.estimate? l = some position

theorem estimates_skip {step : Step} (h : step.placed? = none) (position : Nat) (labels : Labels) :
    Estimates step position labels labels := by
  refine ⟨fun l => ?_, fun l => rfl, fun l hl => ?_⟩
  · simp [h]
  · rw [h] at hl
    cases hl

theorem estimates_placed {step : Step} {source : Label} {position : Nat} {before after : Labels}
    (h : step.placed? = some source) (accepted : before.estimate source position = .ok after) :
    Estimates step position before after := by
  obtain ⟨estimate, settled, free⟩ := Labels.estimate_ok accepted
  refine ⟨fun l => ?_, settled, fun l hl => ?_⟩
  · rw [estimate l, h]
    simp
  · rw [h] at hl
    cases hl
    exact free

variable {p q r : Pool} {s s' : Layout} {step : Step} {steps : List Step}

theorem act_estimate (h : act .estimate step (p, s) = .ok () (q, s')) :
    p.Extends q ∧ step.Ready q ∧
      ∃ labels, s' = s.moved q step labels ∧ Estimates step s.position s.labels labels := by
  cases step with
  | place l =>
    simp only [act, DraftM.onLayout, mark, place, bind, EStateM.bind, ask, see] at h
    cases he : s.labels.estimate l s.position with
    | error e => simp [he] at h
    | ok labels =>
      simp only [he] at h
      cases h
      exact ⟨.refl p, trivial, labels, by simp [moved, Step.size, Step.sights],
        estimates_placed rfl he⟩
  | jump test source target =>
    simp only [act, DraftM.onLayout, jump, mark, branch, offset, place, write, bind, EStateM.bind,
      ask, see, pure, EStateM.pure] at h
    cases he : s.labels.estimate source s.position with
    | error e => simp [he] at h
    | ok labels =>
      have known : labels.estimate? source = some s.position := by
        rw [(Labels.estimate_ok he).1]
        simp
      simp only [he, Labels.estimate_again known] at h
      cases h
      exact ⟨.refl p, trivial, labels, by simp [moved, Step.size, Step.sights, Octets.i16],
        estimates_placed rfl he⟩
  | leaf o l =>
    simp only [act, DraftM.onLayout, DraftM.onPool, showAt, ask, see, write, bind,
      EStateM.bind] at h
    cases he : l.encode p with
    | error e r => simp [he] at h
    | ok bytes r =>
      have grown := (l.asks_encode.interns.grows_ok he).extends
      simp only [he] at h
      cases h
      have later := l.asks_encode.interns.again p bytes q q he (.refl q)
      have same : l.octets q = bytes := by simp [Leaf.octets, later]
      refine ⟨grown, ?_, s.labels, ?_, estimates_skip rfl _ _⟩
      · rw [Step.Ready, same, later]
      · simp [moved, Step.size, Step.sights, same]
  | enter g caught =>
    cases caught with
    | none =>
      simp only [act, DraftM.onLayout, handler, see, pure, bind, EStateM.bind, EStateM.pure] at h
      cases h
      exact ⟨.refl p, trivial, s.labels, by simp [moved, Step.size, Step.sights],
        estimates_skip rfl _ _⟩
    | some name =>
      simp only [act, DraftM.onLayout, DraftM.onPool, handler, see, pure, bind, EStateM.bind,
        EStateM.pure, Functor.map, EStateM.map] at h
      cases he : Pool.classRef (.object name) p with
      | error e r => simp [he] at h
      | ok index r =>
        have grown := ((Pool.interns_ask (.classRef (.object name))).grows_ok he).extends
        simp only [he] at h
        cases h
        have later : Pool.classRef (.object name) q = .ok index q :=
          (Pool.interns_ask (.classRef _)).again p index q q he (.refl q)
        refine ⟨grown, ?_, s.labels, ?_, estimates_skip rfl _ _⟩
        · simp [Step.Ready, Pool.indexOf, later]
        · simp [moved, Step.size, Step.sights]
  | exit handler =>
    simp only [act, DraftM.onLayout, see] at h
    cases h
    exact ⟨.refl p, trivial, s.labels, by simp [moved, Step.size, Step.sights],
      estimates_skip rfl _ _⟩
  | line number =>
    simp only [act, DraftM.onLayout, showAt, ask, see, bind, EStateM.bind] at h
    cases h
    exact ⟨.refl p, trivial, s.labels, by simp [moved, Step.size, Step.sights],
      estimates_skip rfl _ _⟩

theorem settledOffset_of_reaches {source target : Label} (method : String)
    (h : Reaches s.labels.estimate? source target) :
    ∃ n, settledOffset method source target s = .ok n := by
  obtain ⟨origin, goal, hs, ht, low, high⟩ := h
  have near : ¬ ((goal : Int) - origin < -32768 ∨ 32767 ≤ (goal : Int) - origin) := by omega
  refine ⟨Int16.ofInt ((goal : Int) - origin), ?_⟩
  simp [settledOffset, Labels.estimateOf_eq_ok.mpr hs, Labels.estimateOf_eq_ok.mpr ht, near, bind,
    Except.bind, pure, Except.pure]

theorem settledOffset_of_not_reaches {source target : Label} {origin : Nat} (method : String)
    (placed : s.labels.estimate? source = some origin)
    (h : ¬ Reaches s.labels.estimate? source target) :
    ∃ e, settledOffset method source target s = .error e ∧
      Misses s.labels.estimate? method source target e := by
  cases ht : s.labels.estimate? target with
  | none =>
    refine ⟨.notPlaced target, ?_, .inl ⟨ht, rfl⟩⟩
    simp [settledOffset, Labels.estimateOf_of_none ht, bind, Except.bind]
  | some goal =>
    have far : (goal : Int) - origin < -32768 ∨ 32767 ≤ (goal : Int) - origin := by
      have escape : ¬ (-32768 ≤ (goal : Int) - origin ∧ (goal : Int) - origin < 32767) :=
        fun near => h ⟨origin, goal, placed, ht, near⟩
      omega
    refine ⟨.branchTooFar method ((goal : Int) - origin), ?_,
      .inr ⟨origin, goal, placed, ht, by omega, rfl⟩⟩
    simp [settledOffset, Labels.estimateOf_eq_ok.mpr placed, Labels.estimateOf_eq_ok.mpr ht, far,
      bind, Except.bind, throw, throwThe, MonadExceptOf.throw]

structure Settles (step : Step) (position : Nat) (before after : Labels) : Prop where
  estimate : after.estimate? = before.estimate?
  settled : ∀ l, after.settled? l =
    if step.placed? = some l then some position else before.settled? l

theorem settles_skip {step : Step} (h : step.placed? = none) (position : Nat) (labels : Labels) :
    Settles step position labels labels := ⟨rfl, fun l => by simp [h]⟩

/-- The label of a step can be settled where the step is taken. -/
def Open (step : Step) (s : Layout) : Prop :=
  ∀ l, step.placed? = some l → s.labels.estimate? l = some s.position ∧
    (s.labels.settled? l = none ∨ s.labels.settled? l = some s.position)

/-- A step of the second pass fails only if it is a jump that does not reach. -/
theorem act_settle (method : String) (ready : step.Ready r) (here : Open step s) :
    (step.Reaches s.labels.estimate? ∧ ∃ labels, Settles step s.position s.labels labels ∧
      act (.settle method) step (r, s) = .ok () (r, s.moved r step labels)) ∨
    ∃ e s', step.Misses s.labels.estimate? method e ∧
      act (.settle method) step (r, s) = .error e (r, s') := by
  cases step with
  | place l =>
    obtain ⟨estimated, free⟩ := here l rfl
    obtain ⟨labels, done, he, hs⟩ := Labels.settle_at_estimate estimated free
    refine .inl ⟨trivial, labels, ⟨funext he, fun k => ?_⟩, ?_⟩
    · rw [hs k]
      simp [Step.placed?]
    · simp [act, DraftM.onLayout, mark, place, bind, EStateM.bind, ask, see, done, moved, Step.size,
        Step.sights]
  | jump test source target =>
    obtain ⟨estimated, free⟩ := here source rfl
    obtain ⟨first, done, he, hs⟩ := Labels.settle_at_estimate estimated free
    obtain ⟨second, again, he', hs'⟩ := Labels.settle_at_estimate (l := source) (n := s.position)
      (by rw [he, estimated]) (.inr (by simp [hs]))
    have same : second.estimate? = s.labels.estimate? := funext fun l => by rw [he', he]
    -- The offset is asked of the table after both placements, where all estimates are the same.
    let t : Layout := { s with
      labels := second
      sights := (s.sights.push (.label source s.position)).push (.jump test source target) }
    by_cases reaches : Reaches s.labels.estimate? source target
    · have still : Reaches t.labels.estimate? source target := by rwa [same]
      obtain ⟨n, hn⟩ := settledOffset_of_reaches method still
      refine .inl ⟨reaches, second, ⟨same, fun k => ?_⟩, ?_⟩
      · rw [hs', hs]
        by_cases hk : source = k <;> simp [Step.placed?, hk]
      · simp [act, DraftM.onLayout, jump, mark, branch, offset, place, write, bind, EStateM.bind,
          ask, see, done, again, hn, t, moved, Step.size, Step.sights, Octets.i16]
    · have still : ¬ Reaches t.labels.estimate? source target := by rwa [same]
      obtain ⟨e, hn, misses⟩ := settledOffset_of_not_reaches method
        (show t.labels.estimate? source = some s.position by rw [same, estimated]) still
      refine .inr ⟨e, t, ?_, ?_⟩
      · rwa [same] at misses
      · simp [act, DraftM.onLayout, jump, mark, branch, offset, place, bind, EStateM.bind, ask, see,
          done, again, hn, t]
  | leaf o l =>
    refine .inl ⟨trivial, s.labels, settles_skip rfl _ _, ?_⟩
    simp only [Step.Ready] at ready
    simp [act, DraftM.onLayout, DraftM.onPool, showAt, ask, see, write, bind, EStateM.bind, ready,
      moved, Step.size, Step.sights]
  | enter g caught =>
    refine .inl ⟨trivial, s.labels, settles_skip rfl _ _, ?_⟩
    cases caught with
    | none =>
      simp [act, DraftM.onLayout, handler, see, pure, bind, EStateM.bind, EStateM.pure, moved,
        Step.size, Step.sights]
    | some name =>
      simp only [Step.Ready] at ready
      simp [act, DraftM.onLayout, DraftM.onPool, handler, see, pure, bind, EStateM.bind,
        EStateM.pure, Functor.map, EStateM.map, ready, moved, Step.size, Step.sights]
  | exit entry =>
    refine .inl ⟨trivial, s.labels, settles_skip rfl _ _, ?_⟩
    simp [act, DraftM.onLayout, see, moved, Step.size, Step.sights]
  | line number =>
    refine .inl ⟨trivial, s.labels, settles_skip rfl _ _, ?_⟩
    simp [act, DraftM.onLayout, showAt, ask, see, bind, EStateM.bind, moved, Step.size, Step.sights]

/-- A step of the last pass does not fail when its label is settled where it is taken, and the
labels it names are settled somewhere. -/
theorem act_emit (ready : step.Ready r)
    (here : ∀ l, step.placed? = some l → s.labels.settled? l = some s.position)
    (known : ∀ l ∈ step.named, s.labels.settled? l = some (s.labels.spot l)) :
    act .emit step (r, s) = .ok () (r, s.written r step) := by
  cases step with
  | place l =>
    simp [act, DraftM.onLayout, mark, place, bind, EStateM.bind, ask, see,
      Labels.check_at_settled (here l rfl), written, moved, Step.size, Step.sights, Step.octets,
      Step.hops, Step.handlers]
  | jump test source target =>
    have origin := here source rfl
    have goal := known target (by simp [Step.named])
    simp [act, DraftM.onLayout, jump, mark, branch, offset, place, write, bind, EStateM.bind, ask,
      see, modify, modifyGet, MonadStateOf.modifyGet, EStateM.modifyGet, pure, EStateM.pure,
      Labels.check_at_settled origin, Labels.positionOf_eq_ok.mpr origin,
      Labels.positionOf_eq_ok.mpr goal, Labels.spot_eq origin, written, moved, Step.size,
      Step.sights, Step.octets, Step.hops, Step.handlers, Octets.i16]
  | leaf o l =>
    simp only [Step.Ready] at ready
    simp [act, DraftM.onLayout, DraftM.onPool, showAt, ask, see, write, bind, EStateM.bind, ready,
      written, moved, Step.size, Step.sights, Step.octets, Step.hops, Step.handlers]
  | enter g caught =>
    have first := Labels.positionOf_eq_ok.mpr (known g.start (by simp [Step.named]))
    have stop := Labels.positionOf_eq_ok.mpr (known g.stop (by simp [Step.named]))
    have entry := Labels.positionOf_eq_ok.mpr (known g.handler (by simp [Step.named]))
    have noted : handler .emit g.start g.stop g.handler (caught.map r.indexOf) s =
        .ok () { s with handlers := s.handlers ++ Step.handlers r s.labels (.enter g caught) } := by
      by_cases bare : (s.labels.spot g.start).toUInt16 = (s.labels.spot g.stop).toUInt16
      · rw [Step.handlers_of_eq bare]
        simp [handler, ask, bind, EStateM.bind, first, stop, entry, bare, pure, EStateM.pure]
      · rw [Step.handlers_of_ne bare]
        simp only [handler, ask, bind, EStateM.bind, first, stop, entry]
        rw [if_pos bare]
        simp [modify, modifyGet, MonadStateOf.modifyGet, EStateM.modifyGet, Step.entry]
    cases caught with
    | none =>
      simp only [Option.map_none] at noted
      simp [act, DraftM.onLayout, see, pure, bind, EStateM.bind, EStateM.pure, noted, written,
        moved, Step.size, Step.sights, Step.octets, Step.hops]
    | some name =>
      simp only [Step.Ready] at ready
      simp only [Option.map_some] at noted
      simp [act, DraftM.onLayout, DraftM.onPool, see, bind, EStateM.bind, Functor.map, EStateM.map,
        ready, noted, written, moved, Step.size, Step.sights, Step.octets, Step.hops]
  | exit entry =>
    simp [act, DraftM.onLayout, see, written, moved, Step.size, Step.sights, Step.octets,
      Step.hops, Step.handlers]
  | line number =>
    simp [act, DraftM.onLayout, showAt, ask, see, bind, EStateM.bind, written, moved, Step.size,
      Step.sights, Step.octets, Step.hops, Step.handlers]

def poolOf {α : Type} : EStateM.Result Error (Pool × Layout) α → Pool
  | .ok _ (pool, _) => pool
  | .error _ (pool, _) => pool

def Keeps {α : Type} (P : Pool → Prop) (x : DraftM α) : Prop :=
  ∀ pool s, P pool → P (poolOf (x (pool, s)))

theorem keeps_onLayout {α : Type} (P : Pool → Prop) (x : LayoutM α) :
    Keeps P (DraftM.onLayout x) := by
  intro pool s h
  simp only [DraftM.onLayout]
  cases x s <;> exact h

theorem keeps_onPool {α : Type} {P : Pool → Prop} {x : PoolM α}
    (kept : ∀ pool, P pool → P (Pool.left (x pool))) : Keeps P (DraftM.onPool x) := by
  intro pool s h
  have after := kept pool h
  simp only [DraftM.onPool]
  cases hx : x pool <;> rw [hx] at after <;> exact after

theorem Keeps.bind {α β : Type} {P : Pool → Prop} {x : DraftM α} {f : α → DraftM β}
    (first : Keeps P x) (second : ∀ a, Keeps P (f a)) : Keeps P (x >>= f) := by
  intro pool s h
  have mid := first pool s h
  show P (poolOf (EStateM.bind x f (pool, s)))
  unfold EStateM.bind
  cases hx : x (pool, s) with
  | ok a t =>
    rw [hx] at mid
    exact second a t.1 t.2 mid
  | error e t =>
    rw [hx] at mid
    exact mid

theorem keeps_act {P : Pool → Prop} (pass : Pass) (step : Step)
    (leaves : ∀ o l, step = .leaf o l → ∀ pool, P pool → P (Pool.left (l.encode pool)))
    (enters : ∀ g name, step = .enter g (some name) →
      ∀ pool, P pool → P (Pool.left (Pool.classRef (.object name) pool))) :
    Keeps P (act pass step) := by
  cases step with
  | leaf o l =>
    exact (keeps_onLayout P _).bind fun _ => (keeps_onPool (leaves o l rfl)).bind fun _ =>
      keeps_onLayout P _
  | enter g caught =>
    have tail : ∀ index, Keeps P (do
        DraftM.onLayout (handler pass g.start g.stop g.handler index)
        DraftM.onLayout (see (.enterTry g.handler caught))) := fun _ =>
      (keeps_onLayout P _).bind fun _ => keeps_onLayout P _
    cases caught with
    | none => exact Keeps.bind (fun _ _ h => h) tail
    | some name =>
      have asked := keeps_onPool (enters g name rfl)
      have mapped : Keeps P (some <$> DraftM.onPool (Pool.classRef (.object name))) := by
        intro pool s h
        have after := asked pool s h
        simp only [Functor.map, EStateM.map]
        cases hx : DraftM.onPool (Pool.classRef (.object name)) (pool, s) <;> rw [hx] at after <;>
          exact after
      exact mapped.bind tail
  | place l => exact keeps_onLayout P (mark pass l)
  | jump test source target => exact keeps_onLayout P (jump pass test source target)
  | exit entry => exact keeps_onLayout P (see (.exitTry entry))
  | line number => exact keeps_onLayout P (showAt (.line number))

theorem Keeps.follow {P : Pool → Prop} {pass : Pass}
    (kept : ∀ step ∈ steps, Keeps P (act pass step)) (h : P p) (s : Layout) :
    P (poolOf (follow (act pass) steps (p, s))) := by
  induction steps generalizing p s with
  | nil => exact h
  | cons step rest ih =>
    have first := kept step (by simp) p s h
    simp only [Bytecode.follow]
    split
    · rename_i t taken
      rw [taken] at first
      exact ih (fun x hx => kept x (by simp [hx])) first t.2
    · rename_i t failed
      rw [failed] at first
      exact first

theorem keeps_ready (ready : step.Ready r) (pass : Pass) : Keeps (· = r) (act pass step) := by
  apply keeps_act
  · rintro o l rfl pool rfl
    simp only [Step.Ready] at ready
    rw [ready]
    rfl
  · rintro g name rfl pool rfl
    simp only [Step.Ready] at ready
    rw [ready]
    rfl

theorem keeps_grows (pool : Pool) (pass : Pass) (step : Step) :
    Keeps pool.Grows (act pass step) :=
  keeps_act pass step (fun _ l _ p grown => grown.trans (l.asks_encode.interns.grows p))
    (fun _ name _ p grown => grown.trans ((Pool.interns_ask (.classRef (.object name))).grows p))

theorem follow_estimate (h : follow (act .estimate) steps (p, s) = .ok () (q, s')) :
    p.Extends q ∧ (∀ step ∈ steps, step.Ready q) ∧ s'.position = reach q s.position steps ∧
      s'.sights.toList = s.sights.toList ++ sightsOf (timeline q s.position steps) ∧
      (∀ l n, s'.labels.estimate? l = some n ↔
        s.labels.estimate? l = some n ∨ PlacedAt (timeline q s.position steps) l n) ∧
      ∀ l, s'.labels.settled? l = s.labels.settled? l := by
  induction steps generalizing p s with
  | nil =>
    cases h
    exact ⟨.refl _, by simp, rfl, by simp [timeline, sightsOf], by simp [timeline, PlacedAt],
      fun _ => rfl⟩
  | cons step rest ih =>
    simp only [follow] at h
    split at h
    · rename_i t taken
      obtain ⟨mid, t⟩ := t
      obtain ⟨grown, ready, labels, rfl, estimates⟩ := act_estimate taken
      obtain ⟨grown', readies, position, sights, placed, settled⟩ := ih h
      have size := ready.size_eq grown'
      simp only [moved, ← size] at position sights placed settled
      refine ⟨grown.trans grown', ?_, position, ?_, fun l n => ?_, fun l => ?_⟩
      · intro x hx
        rcases List.mem_cons.mp hx with rfl | hx
        · exact ready.mono grown'
        · exact readies x hx
      · rw [sights]
        simp [timeline, sightsOf]
      · rw [placed, estimates.estimate]
        simp only [timeline, PlacedAt, List.mem_cons]
        by_cases here : step.placed? = some l
        · -- The label may stand in the table already, but then at this very position.
          rw [if_pos here]
          have free := estimates.free l here
          constructor
          · rintro (h | ⟨x, hx, hl⟩)
            · cases h
              exact .inr ⟨step, .inl rfl, here⟩
            · exact .inr ⟨x, .inr hx, hl⟩
          · rintro (h | ⟨x, h | hx, hl⟩)
            · rcases free with free | free
              · rw [free] at h
                cases h
              · exact .inl (free ▸ h)
            · cases h
              exact .inl rfl
            · exact .inr ⟨x, hx, hl⟩
        · rw [if_neg here]
          constructor
          · rintro (h | ⟨x, hx, hl⟩)
            · exact .inl h
            · exact .inr ⟨x, .inr hx, hl⟩
          · rintro (h | ⟨x, h | hx, hl⟩)
            · exact .inl h
            · cases h
              exact absurd hl here
            · exact .inr ⟨x, hx, hl⟩
      · rw [settled, estimates.settled]
    · cases h

/-- The second pass from its start to its end, or to the first jump that does not reach. -/
theorem follow_settle (method : String) (ready : ∀ step ∈ steps, step.Ready r)
    (agree : ∀ l n, PlacedAt (timeline r s.position steps) l n → s.labels.estimate? l = some n)
    (free : ∀ l, s.labels.settled? l = none ∨ s.labels.settled? l = s.labels.estimate? l) :
    ((∀ step ∈ steps, step.Reaches s.labels.estimate?) ∧
      ∃ s', follow (act (.settle method)) steps (r, s) = .ok () (r, s') ∧
        s'.position = reach r s.position steps ∧
        s'.sights.toList = s.sights.toList ++ sightsOf (timeline r s.position steps) ∧
        s'.labels.estimate? = s.labels.estimate? ∧
        (∀ l, s'.labels.settled? l = none ∨ s'.labels.settled? l = s.labels.estimate? l) ∧
        (∀ l n, s.labels.settled? l = some n → s'.labels.settled? l = some n) ∧
        ∀ l n, PlacedAt (timeline r s.position steps) l n → s'.labels.settled? l = some n) ∨
    ∃ before step after e s', steps = before ++ step :: after ∧
      (∀ x ∈ before, x.Reaches s.labels.estimate?) ∧ step.Misses s.labels.estimate? method e ∧
      follow (act (.settle method)) steps (r, s) = .error e (r, s') := by
  induction steps generalizing s with
  | nil =>
    exact .inl ⟨by simp, s, rfl, rfl, by simp [timeline, sightsOf], rfl, free, fun _ _ h => h,
      by simp [timeline, PlacedAt]⟩
  | cons step rest ih =>
    have here : Open step s := by
      intro l hl
      have estimated := agree l s.position (.head _ hl)
      exact ⟨estimated, by simpa [estimated] using free l⟩
    rcases act_settle method (ready step (by simp)) here with
      ⟨reaches, labels, settles, taken⟩ | ⟨e, s', misses, failed⟩
    · have agree' : ∀ l n, PlacedAt (timeline r (s.moved r step labels).position rest) l n →
          labels.estimate? l = some n := by
        intro l n placed
        rw [settles.estimate]
        exact agree l n placed.tail
      have free' : ∀ l, labels.settled? l = none ∨ labels.settled? l = labels.estimate? l := by
        intro l
        rw [settles.settled, settles.estimate]
        split
        · rename_i hl
          exact .inr (here l hl).1.symm
        · exact free l
      rcases ih (s := s.moved r step labels) (fun x hx => ready x (by simp [hx])) agree' free' with
        ⟨reach', s', done, position, sights, estimate, free'', keep, settled⟩ |
        ⟨before, x, after, e, s', split, reach', misses, failed⟩
      · simp only [moved, settles.estimate] at reach' position sights estimate free'' keep settled
        refine .inl ⟨?_, s', by simp only [follow, taken, done], position, ?_, estimate, free'',
          fun l n h => ?_, ?_⟩
        · intro x hx
          rcases List.mem_cons.mp hx with rfl | hx
          · exact reaches
          · exact reach' x hx
        · rw [sights]
          simp [timeline, sightsOf]
        · apply keep
          rw [settles.settled]
          split
          · rename_i hl
            rcases free l with hf | hf
            · rw [hf] at h
              cases h
            · rw [← (here l hl).1, ← hf, h]
          · exact h
        · rintro l n ⟨x, hx, hl⟩
          simp only [timeline, List.mem_cons] at hx
          rcases hx with hx | hx
          · cases hx
            exact keep l s.position (by rw [settles.settled, if_pos hl])
          · exact settled l n ⟨x, hx, hl⟩
      · simp only [moved, settles.estimate] at reach' misses
        refine .inr ⟨step :: before, x, after, e, s', by rw [split, List.cons_append], ?_, misses,
          by simp only [follow, taken, failed]⟩
        intro y hy
        rcases List.mem_cons.mp hy with rfl | hy
        · exact reaches
        · exact reach' y hy
    · refine .inr ⟨[], step, rest, e, s', rfl, by simp, misses, ?_⟩
      simp only [follow, failed]

theorem follow_emit (ready : ∀ step ∈ steps, step.Ready r)
    (here : ∀ l n, PlacedAt (timeline r s.position steps) l n → s.labels.settled? l = some n)
    (known : ∀ step ∈ steps, ∀ l ∈ step.named, s.labels.settled? l = some (s.labels.spot l)) :
    ∃ s', follow (act .emit) steps (r, s) = .ok () (r, s') ∧ s'.labels = s.labels ∧
      s'.position = reach r s.position steps ∧
      s'.code.toList = s.code.toList ++ steps.flatMap (Step.octets r s.labels) ∧
      s'.jumps.toList = s.jumps.toList ++ steps.flatMap (Step.hops s.labels) ∧
      s'.handlers.toList = s.handlers.toList ++ steps.flatMap (Step.handlers r s.labels) ∧
      s'.sights.toList = s.sights.toList ++ sightsOf (timeline r s.position steps) := by
  induction steps generalizing s with
  | nil => exact ⟨s, rfl, rfl, rfl, by simp, by simp, by simp, by simp [timeline, sightsOf]⟩
  | cons step rest ih =>
    have taken := act_emit (s := s) (ready step (by simp))
      (fun l hl => here l s.position (.head _ hl)) (known step (by simp))
    obtain ⟨s', done, labels, position, code, jumps, handlers, sights⟩ :=
      ih (s := s.written r step) (fun x hx => ready x (by simp [hx]))
        (fun l n placed => here l n placed.tail)
        (fun x hx => known x (by simp [hx]))
    simp only [written, moved] at labels position code jumps handlers sights
    refine ⟨s', by simp only [follow, taken, done], labels, position, ?_, ?_, ?_, ?_⟩
    · simp [code]
    · simp [jumps]
    · simp [handlers]
    · simp [sights, timeline, sightsOf]

end Layout

end Bytecode
