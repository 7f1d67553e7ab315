import Bytecode.Proofs.Decoding
import Bytecode.Proofs.Recording

/-! The order of what is seen on the way through a tree that is laid out. Positions never go
back, and strictly forward over an instruction. Regions under a handler are nested, and the
handler comes after all that it guards. -/
namespace Bytecode

namespace Sight

/-- Where a sight begins and where it ends, if it has a place of its own. -/
def extent? (pool : Pool) (labels : Labels) : Sight → Option (Nat × Nat)
  | label _ n => some (n, n)
  | insn _ l n => some (n, n + (l.octets pool).length)
  | jump _ source _ => some (labels.spot source, labels.spot source + 3)
  | _ => none

def Before (pool : Pool) (labels : Labels) (x y : Sight) : Prop :=
  ∀ a b, x.extent? pool labels = some a → y.extent? pool labels = some b → a.2 ≤ b.1

end Sight

section

variable {pool : Pool} {labels : Labels}

theorem sightsOf_cons (position : Nat) (step : Step) (rest : List Step) :
    sightsOf (timeline pool position (step :: rest)) =
      step.sights position ++ sightsOf (timeline pool (position + step.size pool) rest) := by
  simp [sightsOf, timeline]

theorem Step.extent_sights {step : Step} {position : Nat} {x : Sight} {a : Nat × Nat}
    (placed : ∀ l, step.placed? = some l → labels.settled? l = some position)
    (member : x ∈ step.sights position) (has : x.extent? pool labels = some a) :
    position ≤ a.1 ∧ a.1 ≤ a.2 ∧ a.2 ≤ position + step.size pool := by
  cases step with
  | jump test source target =>
    have here := Labels.spot_eq (placed source rfl)
    simp only [Step.sights, List.mem_cons, List.not_mem_nil, or_false] at member
    rcases member with rfl | rfl
    · cases has
      simp
    · simp only [Sight.extent?, here, Option.some.injEq] at has
      subst has
      simp [Step.size]
  | place l =>
    simp only [Step.sights, List.mem_singleton] at member
    subst member
    cases has
    simp
  | leaf o l =>
    simp only [Step.sights, List.mem_singleton] at member
    subst member
    cases has
    simp [Step.size]
  | enter | exit | line =>
    simp only [Step.sights, List.mem_singleton] at member
    subst member
    cases has

theorem Step.pairwise_sights {step : Step} {position : Nat}
    (placed : ∀ l, step.placed? = some l → labels.settled? l = some position) :
    (step.sights position).Pairwise (Sight.Before pool labels) := by
  cases step with
  | jump test source target =>
    have here := Labels.spot_eq (placed source rfl)
    simp [Step.sights, Sight.Before, Sight.extent?, here]
    omega
  | _ => simp [Step.sights]

theorem le_of_mem_sightsOf {steps : List Step} {position : Nat}
    (placed : ∀ l n, PlacedAt (timeline pool position steps) l n → labels.settled? l = some n)
    {x : Sight} {a : Nat × Nat} (member : x ∈ sightsOf (timeline pool position steps))
    (has : x.extent? pool labels = some a) : position ≤ a.1 := by
  induction steps generalizing position with
  | nil => cases member
  | cons step rest ih =>
    rw [sightsOf_cons] at member
    rcases List.mem_append.mp member with here | later
    · exact (Step.extent_sights (fun l hl => placed l position (.head _ hl)) here has).1
    · have := ih (fun l n h => placed l n h.tail) later
      omega

theorem pairwise_sightsOf {steps : List Step} {position : Nat}
    (placed : ∀ l n, PlacedAt (timeline pool position steps) l n → labels.settled? l = some n) :
    (sightsOf (timeline pool position steps)).Pairwise (Sight.Before pool labels) := by
  induction steps generalizing position with
  | nil => exact .nil
  | cons step rest ih =>
    have here : ∀ l, step.placed? = some l → labels.settled? l = some position :=
      fun l hl => placed l position (.head _ hl)
    have later := fun l n h => placed l n (PlacedAt.tail h)
    rw [sightsOf_cons, List.pairwise_append]
    refine ⟨Step.pairwise_sights here, ih later, ?_⟩
    intro x hx y hy a b ha hb
    have := (Step.extent_sights here hx ha).2.2
    have := le_of_mem_sightsOf later hy hb
    omega

end

def Step.guard (active : List (Label × Held)) : Step → List (Label × Held)
  | enter g caught => (g.handler, Simulation.caughtType caught) :: active
  | exit handler => active.eraseP (·.1 = handler)
  | _ => active

/-- At every point of the steps the handlers in force are those at the base and some more, all of
which are placed later; at the end only the base is left. -/
def Within (base : List (Label × Held)) (active : List (Label × Held)) : List Step → Prop
  | [] => active = base
  | step :: rest =>
    (∃ extra, active = extra ++ base ∧ ∀ e ∈ extra, .place e.1 ∈ step :: rest) ∧
      Within base (step.guard active) rest

namespace Within

variable {base active : List (Label × Held)} {rest : List Step}

theorem extra (h : Within base active rest) :
    ∃ extra, active = extra ++ base ∧ ∀ e ∈ extra, .place e.1 ∈ rest := by
  cases rest with
  | nil => exact ⟨[], h, by simp⟩
  | cons step rest => exact h.1

theorem cons (h : Within base active rest) (step : Step) (quiet : step.guard active = active) :
    Within base active (step :: rest) := by
  obtain ⟨extra, whole, placed⟩ := h.extra
  refine ⟨⟨extra, whole, fun e he => List.mem_cons_of_mem _ (placed e he)⟩, ?_⟩
  rw [quiet]
  exact h

theorem resume (h : Within base active rest) (outer : Option UInt16) :
    Within base active (Bytecode.resume outer ++ rest) := by
  cases outer with
  | none => exact h
  | some number => exact h.cons (.line number) rfl

theorem region (g : Guard) (caught : Option BinaryName) {body : List Step}
    (inner : ∀ {active : List (Label × Held)} {rest : List Step},
      Within base active rest → Within base active (body ++ rest))
    (after : Within base active rest) (placed : .place g.handler ∈ rest) :
    Within base active (.place g.start :: .enter g caught :: (body ++
      .place g.stop :: .exit g.handler :: rest)) := by
  obtain ⟨extra, whole, later⟩ := after.extra
  have closed : Within base ((g.handler, Simulation.caughtType caught) :: active)
      (.exit g.handler :: rest) := by
    refine ⟨⟨(g.handler, Simulation.caughtType caught) :: extra, by rw [whole]; rfl, ?_⟩, ?_⟩
    · intro e he
      rcases List.mem_cons.mp he with rfl | he
      · exact List.mem_cons_of_mem _ placed
      · exact List.mem_cons_of_mem _ (later e he)
    · simpa [Step.guard] using after
  have opened := inner (closed.cons (.place g.stop) rfl)
  refine ⟨⟨extra, whole, fun e he => ?_⟩, ⟨extra, whole, fun e he => ?_⟩, opened⟩
  · simp [later e he]
  · simp [later e he]

end Within

theorem Tree.within_steps (t : Tree) (outer : Option UInt16) {base active : List (Label × Held)}
    {rest : List Step} (h : Within base active rest) :
    Within base active (t.steps outer ++ rest) := by
  induction t generalizing outer active rest with
  | unit => exact h
  | leaf | label | goto => exact h.cons _ rfl
  | branch o test start target stop first second ih₁ ih₂ =>
    have whole := (ih₁ outer (ih₂ outer (h.cons (.place stop) rfl))).cons
      (.jump (some test) start target) rfl
    simpa [steps] using whole
  | seq o first second ih₁ ih₂ => simpa [steps] using ih₁ outer (ih₂ outer h)
  | retype o inner ih => exact ih outer h
  | guarded o g caught body handler ihb ihh =>
    have last := (ihh outer (h.cons (.place g.after) rfl)).cons
      (.place g.handler) rfl
    have exits : Within base active ((g.exit.map (Step.jump none · g.after)).toList ++
        .place g.handler :: (handler.steps outer ++ .place g.after :: rest)) := by
      cases g.exit with
      | none => exact last
      | some exit => exact last.cons (.jump none exit g.after) rfl
    have whole := Within.region g caught (ihb outer) exits (by simp)
    simpa [steps] using whole
  | line o number body ih =>
    have whole := (ih (some number) (h.resume outer)).cons (.line number) rfl
    simpa [steps] using whole

theorem Within.split {base active : List (Label × Held)} {pre post : List Step}
    (h : Within base active (pre ++ post)) :
    Within base (pre.foldl Step.guard active) post := by
  induction pre generalizing active with
  | nil => exact h
  | cons step rest ih => exact ih h.2

section

variable {pool : Pool} {steps : List Step} {position : Nat}

theorem Step.foldl_guard (step : Step) (active : List (Label × Held)) :
    (step.sights position).foldl Sight.guard active = step.guard active := by
  cases step <;> rfl

theorem foldl_guard_sightsOf (active : List (Label × Held)) :
    (sightsOf (timeline pool position steps)).foldl Sight.guard active =
      steps.foldl Step.guard active := by
  induction steps generalizing position active with
  | nil => rfl
  | cons step rest ih =>
    rw [sightsOf_cons, List.foldl_append, Step.foldl_guard, ih]
    rfl

theorem label_of_place {l : Label} (h : .place l ∈ steps) :
    ∃ n, .label l n ∈ sightsOf (timeline pool position steps) := by
  obtain ⟨n, placed⟩ := (exists_placedAt pool position).mpr
    (List.mem_filterMap.mpr ⟨.place l, h, rfl⟩)
  exact ⟨n, label_mem_sightsOf.mpr placed⟩

/-- Only a jump shows two things, so there is one way to cut it. -/
theorem Step.cut_sights {step : Step} {n : Nat} {first more : List Sight}
    (h : step.sights n = first ++ more) (start : first ≠ []) (full : more ≠ []) :
    ∃ test source target, step = .jump test source target ∧ first = [.label source n] ∧
      more = [.jump test source target] := by
  obtain ⟨x, tail, rfl⟩ := List.exists_cons_of_ne_nil start
  obtain ⟨y, others, rfl⟩ := List.exists_cons_of_ne_nil full
  cases step with
  | jump test source target =>
    cases tail with
    | nil =>
      simp only [Step.sights, List.cons_append, List.nil_append, List.cons.injEq] at h
      obtain ⟨rfl, rfl, rfl⟩ := h
      exact ⟨test, source, target, rfl, rfl, rfl⟩
    | cons z rest => simp [Step.sights] at h
  | _ => simp [Step.sights] at h

/-- What is seen is cut between two steps, or between the label of a jump and the jump. -/
theorem split_sightsOf {first last : List Sight}
    (h : sightsOf (timeline pool position steps) = first ++ last) :
    ∃ pre post, steps = pre ++ post ∧
      ((first = sightsOf (timeline pool position pre) ∧
        last = sightsOf (timeline pool (reach pool position pre) post)) ∨
      ∃ test source target rest, post = .jump test source target :: rest ∧
        first = sightsOf (timeline pool position pre) ++
          [.label source (reach pool position pre)] ∧
        last = .jump test source target ::
          sightsOf (timeline pool (reach pool position pre + 3) rest)) := by
  induction steps generalizing position first with
  | nil =>
    obtain ⟨rfl, rfl⟩ := List.append_eq_nil_iff.mp h.symm
    exact ⟨[], [], rfl, .inl ⟨rfl, rfl⟩⟩
  | cons step rest ih =>
    rw [sightsOf_cons] at h
    rcases List.append_eq_append_iff.mp h with ⟨more, hfirst, hrest⟩ | ⟨more, hstep, hlast⟩
    · -- The cut comes after the step.
      obtain ⟨pre, post, rfl, cut⟩ := ih hrest
      refine ⟨step :: pre, post, rfl, ?_⟩
      rw [sightsOf_cons, hfirst]
      rcases cut with ⟨rfl, rfl⟩ | ⟨test, source, target, tail, rfl, rfl, rfl⟩
      · exact .inl ⟨rfl, rfl⟩
      · exact .inr ⟨test, source, target, tail, rfl, by simp [reach], rfl⟩
    · by_cases start : first = []
      · subst start
        refine ⟨[], step :: rest, rfl, .inl ⟨rfl, ?_⟩⟩
        rw [reach, sightsOf_cons, hlast, hstep]
        rfl
      · by_cases full : more = []
        · subst full
          refine ⟨[step], rest, rfl, .inl ⟨?_, ?_⟩⟩
          · rw [sightsOf_cons, hstep]
            simp [sightsOf, timeline]
          · rw [hlast]
            rfl
        · obtain ⟨test, source, target, rfl, rfl, rfl⟩ := Step.cut_sights hstep start full
          exact ⟨[], .jump test source target :: rest, rfl,
            .inr ⟨test, source, target, rest, rfl, rfl, by rw [hlast]; rfl⟩⟩

theorem label_of_active {first last : List Sight} {active : List (Label × Held)}
    (h : Within [] active steps)
    (cut : sightsOf (timeline pool position steps) = first ++ last) {e : Label × Held}
    (force : e ∈ first.foldl Sight.guard active) : ∃ n, .label e.1 n ∈ last := by
  obtain ⟨pre, post, rfl, cases⟩ := split_sightsOf cut
  obtain ⟨extra, whole, placed⟩ := h.split.extra
  have later : .place e.1 ∈ post := by
    apply placed
    rw [List.append_nil] at whole
    rw [← whole]
    rcases cases with ⟨rfl, _⟩ | ⟨_, source, _, _, _, rfl, _⟩
    · rwa [foldl_guard_sightsOf] at force
    · rwa [List.foldl_append, foldl_guard_sightsOf] at force
  rcases cases with ⟨_, rfl⟩ | ⟨test, source, target, rest, rfl, _, rfl⟩
  · exact label_of_place later
  · have inside : .place e.1 ∈ rest := by simpa using later
    obtain ⟨n, seen⟩ := label_of_place inside
    exact ⟨n, List.mem_cons_of_mem _ seen⟩

theorem split_insn {first last : List Sight} {o : Outcome} {l : Leaf} {n : Nat}
    (h : sightsOf (timeline pool position steps) = first ++ .insn o l n :: last) :
    ∃ pre post, steps = pre ++ .leaf o l :: post ∧ n = reach pool position pre ∧
      first = sightsOf (timeline pool position pre) := by
  obtain ⟨pre, post, rfl, ⟨hfirst, hlast⟩ | ⟨_, _, _, _, _, _, hlast⟩⟩ := split_sightsOf h
  · cases post with
    | nil => cases hlast
    | cons step rest =>
      rw [sightsOf_cons] at hlast
      cases step <;> simp only [Step.sights, List.cons_append, List.nil_append, List.cons.injEq,
        reduceCtorEq, false_and, Sight.insn.injEq] at hlast
      obtain ⟨⟨rfl, rfl, rfl⟩, _⟩ := hlast
      exact ⟨pre, rest, rfl, rfl, hfirst⟩
  · cases hlast

end

theorem reach_region (pool : Pool) (position : Nat) (before : List Step) (g : Guard)
    (caught : Option BinaryName) :
    reach pool position (before ++ [.place g.start, .enter g caught]) =
      reach pool position before := by
  rw [reach_append]
  rfl

/-- An instruction that lies between the ends of a region stands in its body. -/
theorem mem_body {pool : Pool} {before after body pre post : List Step} {g : Guard}
    {caught : Option BinaryName} {o : Outcome} {l : Leaf}
    (whole : pre ++ .leaf o l :: post = before ++ [.place g.start, .enter g caught] ++
      (body ++ .place g.stop :: .exit g.handler :: after))
    (solid : 0 < (l.octets pool).length) (low : reach pool 0 before ≤ reach pool 0 pre)
    (high : reach pool 0 pre < reach pool (reach pool 0 before) body) :
    ∃ inner rest, body = inner ++ rest ∧
      pre = before ++ [.place g.start, .enter g caught] ++ inner := by
  rcases List.append_eq_append_iff.mp whole with ⟨c, hbefore, htail⟩ | ⟨c, hpre, htail⟩
  · cases c with
    | nil => exact ⟨[], body, rfl, by rw [hbefore]; simp⟩
    | cons step rest =>
      -- The instruction would end before the region starts.
      simp only [List.cons_append, List.cons.injEq] at htail
      obtain ⟨rfl, _⟩ := htail
      have ends := reach_region pool 0 before g caught
      rw [hbefore, reach_append] at ends
      have far := le_reach pool (reach pool 0 pre + (l.octets pool).length) rest
      simp only [reach, Step.size] at ends
      omega
  · rcases List.append_eq_append_iff.mp htail with ⟨d, hc, hrest⟩ | ⟨d, hbody, _⟩
    · -- The instruction would start after the region has ended.
      rw [hpre, hc, reach_append, reach_region, reach_append] at high
      have far := le_reach pool (reach pool (reach pool 0 before) body) d
      omega
    · exact ⟨c, d, hbody, hpre⟩

theorem Layout.Laid.settled_of_split {t : Tree} {pool : Pool} {layout : Layout}
    (laid : layout.Laid t pool) {before after : List Step} {l : Label}
    (whole : t.steps none = before ++ .place l :: after) :
    layout.labels.settled? l = some (reach pool 0 before) ∧
      reach pool 0 before ≤ layout.position := by
  constructor
  · rw [laid.labels, Tree.course, whole]
    exact placedAt_append pool 0 before after rfl
  · rw [laid.position, whole]
    exact reach_le_append pool 0 before _

theorem Layout.Laid.exists_enter {t : Tree} {pool : Pool} {layout : Layout}
    (laid : layout.Laid t pool) {h : Handler} (entry : h ∈ layout.handlers.toList) :
    ∃ g caught, .enter g caught ∈ t.steps none ∧ h = Step.entry pool layout.labels g caught := by
  rw [laid.handlers] at entry
  obtain ⟨step, member, entered⟩ := List.mem_flatMap.mp entry
  cases step with
  | enter g caught =>
    simp only [Step.handlers] at entered
    split at entered
    · exact ⟨g, caught, member, List.mem_singleton.mp entered⟩
    · cases entered
  | _ => cases entered

theorem active_of_covered {t : Tree} {pool : Pool} {layout : Layout} (laid : layout.Laid t pool)
    (small : layout.position ≤ 65535) {first last : List Sight} {o : Outcome} {l : Leaf} {n : Nat}
    (cut : layout.sights.toList = first ++ .insn o l n :: last) (solid : 0 < (l.octets pool).length)
    {h : Handler} (entry : h ∈ layout.handlers.toList) (low : h.start.toNat ≤ n)
    (high : n < h.stop.toNat) :
    ∃ g caught, .enter g caught ∈ t.steps none ∧ h = Step.entry pool layout.labels g caught ∧
      (g.handler, Simulation.caughtType caught) ∈ first.foldl Sight.guard [] := by
  obtain ⟨g, caught, member, made⟩ := laid.exists_enter entry
  refine ⟨g, caught, member, made, ?_⟩
  obtain ⟨before, after, body, inner, whole, _⟩ := Tree.surrounds_of_enter t none member
  rw [laid.sights] at cut
  obtain ⟨pre, post, split, rfl, rfl⟩ := split_insn cut
  -- The ends of the entry are the ends of the region.
  have opening : t.steps none = before ++ .place g.start :: (.enter g caught ::
      (body.steps inner ++ .place g.stop :: .exit g.handler :: after)) := by simp [whole]
  have closing : t.steps none = before ++ [.place g.start, .enter g caught] ++
      body.steps inner ++ .place g.stop :: (.exit g.handler :: after) := by simp [whole]
  have start := laid.settled_of_split opening
  have stop := laid.settled_of_split closing
  rw [reach_append, reach_region] at stop
  rw [made] at low high
  simp only [Step.entry, Labels.spot_eq start.1, Labels.spot_eq stop.1,
    toNat_toUInt16 (Nat.le_trans start.2 small), toNat_toUInt16 (Nat.le_trans stop.2 small)]
    at low high
  have both := split.symm.trans closing
  rw [List.append_assoc] at both
  obtain ⟨done, rest, hbody, rfl⟩ := mem_body both solid low high
  have nested : Within ((g.handler, Simulation.caughtType caught) ::
      before.foldl Step.guard []) ((g.handler, Simulation.caughtType caught) ::
      before.foldl Step.guard []) (body.steps inner ++ []) := body.within_steps inner rfl
  rw [List.append_nil, hbody] at nested
  obtain ⟨extra, force, _⟩ := nested.split.extra
  rw [foldl_guard_sightsOf, List.foldl_append, List.foldl_append]
  show _ ∈ done.foldl Step.guard ((g.handler, Simulation.caughtType caught) ::
    before.foldl Step.guard [])
  rw [force]
  simp

end Bytecode
