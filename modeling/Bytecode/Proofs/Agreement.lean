import Bytecode.Method
import Bytecode.Tree.Control
import Bytecode.Proofs.Passes

/-! What three passes over one tree come to. -/
namespace Bytecode

def Step.jump? : Step → Option (Label × Label)
  | .jump _ source target => some (source, target)
  | _ => none

namespace Tree

def placed : Tree → List Label
  | unit | leaf _ _ => []
  | label _ l => [l]
  | branch _ _ start _ stop first second => start :: first.placed ++ second.placed ++ [stop]
  | goto _ source _ => [source]
  | seq _ first second => first.placed ++ second.placed
  | retype _ inner => inner.placed
  | guarded _ g _ body handler =>
    g.start :: body.placed ++ g.stop :: g.exit.toList ++ g.handler :: handler.placed ++ [g.after]
  | line _ _ body => body.placed

def jumps : Tree → List (Label × Label)
  | unit | leaf _ _ | label _ _ => []
  | branch _ _ start target _ first second => (start, target) :: first.jumps ++ second.jumps
  | goto _ source target => [(source, target)]
  | seq _ first second => first.jumps ++ second.jumps
  | retype _ inner => inner.jumps
  | guarded _ g _ body handler =>
    body.jumps ++ (g.exit.map (·, g.after)).toList ++ handler.jumps
  | line _ _ body => body.jumps

theorem filterMap_resume {α : Type} (f : Step → Option α) (h : ∀ number, f (.line number) = none)
    (outer : Option UInt16) : (resume outer).filterMap f = [] := by
  cases outer <;> simp [resume, h]

theorem filterMap_placed? (t : Tree) (outer : Option UInt16) :
    (t.steps outer).filterMap Step.placed? = t.placed := by
  induction t generalizing outer with
  | guarded o g caught body handler ihb ihh =>
    cases h : g.exit <;> simp [steps, placed, List.filterMap_cons, Step.placed?, ihb, ihh, h]
  | line o number body ih =>
    simp [steps, placed, List.filterMap_cons, Step.placed?, ih,
      filterMap_resume Step.placed? fun _ => rfl]
  | _ => simp_all [steps, placed, List.filterMap_cons, Step.placed?]

theorem filterMap_jump? (t : Tree) (outer : Option UInt16) :
    (t.steps outer).filterMap Step.jump? = t.jumps := by
  induction t generalizing outer with
  | guarded o g caught body handler ihb ihh =>
    cases h : g.exit <;> simp [steps, jumps, List.filterMap_cons, Step.jump?, ihb, ihh, h]
  | line o number body ih =>
    simp [steps, jumps, List.filterMap_cons, Step.jump?, ih,
      filterMap_resume Step.jump? fun _ => rfl]
  | _ => simp_all [steps, jumps, List.filterMap_cons, Step.jump?]

def Surrounds (g : Guard) (caught : Option BinaryName) (steps : List Step) : Prop :=
  ∃ (before after : List Step) (body : Tree) (inner : Option UInt16),
    steps = before ++ (.place g.start :: .enter g caught :: body.steps inner ++
      .place g.stop :: .exit g.handler :: after) ∧ .place g.handler ∈ after

theorem Surrounds.pad {g : Guard} {caught : Option BinaryName} {steps : List Step}
    (h : Surrounds g caught steps) (first last : List Step) :
    Surrounds g caught (first ++ steps ++ last) := by
  obtain ⟨before, after, body, inner, rfl, placed⟩ := h
  exact ⟨first ++ before, after ++ last, body, inner, by simp, List.mem_append_left _ placed⟩

theorem surrounds_of_enter (t : Tree) (outer : Option UInt16) {g : Guard}
    {caught : Option BinaryName} (h : .enter g caught ∈ t.steps outer) :
    Surrounds g caught (t.steps outer) := by
  induction t generalizing outer with
  | unit | leaf | label | goto => simp [steps] at h
  | branch o test start target stop first second ih₁ ih₂ =>
    simp only [steps, List.cons_append, List.append_assoc, List.mem_cons, List.mem_append,
      List.not_mem_nil, reduceCtorEq, false_or, or_false] at h
    rcases h with h | h
    · simpa [steps] using (ih₁ outer h).pad [.jump (some test) start target]
        (second.steps outer ++ [.place stop])
    · simpa [steps] using (ih₂ outer h).pad (.jump (some test) start target :: first.steps outer)
        [.place stop]
  | seq o first second ih₁ ih₂ =>
    rcases List.mem_append.mp h with h | h
    · simpa [steps] using (ih₁ outer h).pad [] (second.steps outer)
    · simpa [steps] using (ih₂ outer h).pad (first.steps outer) []
  | retype o inner ih => exact ih outer h
  | guarded o g' caught' body handler ihb ihh =>
    have jumps : Step.enter g caught ∉ (g'.exit.map (Step.jump none · g'.after)).toList := by
      cases g'.exit <;> simp
    simp only [steps, List.cons_append, List.append_assoc, List.mem_cons, List.mem_append,
      List.not_mem_nil, reduceCtorEq, false_or, or_false, Step.enter.injEq] at h
    rcases h with ⟨rfl, rfl⟩ | h | h | h
    · exact ⟨[], (g.exit.map (Step.jump none · g.after)).toList ++ .place g.handler ::
        (handler.steps outer ++ [.place g.after]), body, outer, by simp [steps], by simp⟩
    · have whole := (ihb outer h).pad [.place g'.start, .enter g' caught'] (.place g'.stop ::
        .exit g'.handler :: ((g'.exit.map (Step.jump none · g'.after)).toList ++
          .place g'.handler :: (handler.steps outer ++ [.place g'.after])))
      simpa only [steps, List.nil_append, List.append_assoc, List.cons_append] using whole
    · exact absurd h jumps
    · have whole := (ihh outer h).pad (.place g'.start :: .enter g' caught' ::
        (body.steps outer ++ .place g'.stop :: .exit g'.handler ::
          ((g'.exit.map (Step.jump none · g'.after)).toList ++ [.place g'.handler])))
        [.place g'.after]
      simpa only [steps, List.nil_append, List.append_assoc, List.cons_append] using whole
  | line o number body ih =>
    have inside : .enter g caught ∈ body.steps (some number) := by
      cases outer <;> simpa [steps, resume] using h
    simpa [steps] using (ih (some number) inside).pad [.line number] (resume outer)

theorem placed_of_enter (t : Tree) (outer : Option UInt16) {g : Guard} {caught : Option BinaryName}
    (h : .enter g caught ∈ t.steps outer) :
    ∀ l ∈ (Step.enter g caught).named, .place l ∈ t.steps outer := by
  obtain ⟨before, after, body, inner, whole, placed⟩ := surrounds_of_enter t outer h
  intro l hl
  rw [whole]
  simp only [Step.named, List.mem_cons, List.not_mem_nil, or_false] at hl
  rcases hl with rfl | rfl | rfl
  · simp
  · simp
  · simp [placed]

end Tree

def Tree.course (pool : Pool) (t : Tree) : List (Nat × Step) := timeline pool 0 (t.steps none)

theorem Tree.exists_placedAt (pool : Pool) {t : Tree} {l : Label} :
    (∃ n, PlacedAt (t.course pool) l n) ↔ l ∈ t.placed := by
  rw [course, Bytecode.exists_placedAt, filterMap_placed?]

/-- Take thousands off a number while it is positive. -/
def Tree.descent : LabelM Tree := do
  let top ← fresh
  let again ← ifOnly (.zero .gt) (← jumpBack top)
  return concat [place top, load .int 0 .int, int 1000, simple .isub, store .int 0, load .int 0 .int,
    again]

def Tree.countdown : Tree := build do
  let guarded ← tryCatch (← descent) none (simple .pop)
  return concat [guarded, simple .iconst0, simple .ireturn]

def Body.countdown : Body := ⟨"A.f(I)I", 1, .countdown, [.int]⟩

namespace Layout

theorem run_eq (pass : Pass) (labels : Labels) (t : Tree) (pool : Pool) :
    run pass labels t pool =
      match follow (act pass) (t.steps none) (pool, start labels) with
      | .ok _ (pool, layout) => .ok layout pool
      | .error e (pool, _) => .error e pool := by
  rewrite [run, Tree.walk_eq_follow]
  rfl

theorem run_eq_ok {pass : Pass} {labels : Labels} {t : Tree} {pool later : Pool} {layout : Layout} :
    run pass labels t pool = .ok layout later ↔
      follow (act pass) (t.steps none) (pool, start labels) = .ok () (later, layout) := by
  rw [run_eq]
  cases follow (act pass) (t.steps none) (pool, start labels) with
  | ok u s =>
    obtain ⟨pool', layout'⟩ := s
    simp [and_comm]
  | error e s => simp

theorem left_run (pass : Pass) (labels : Labels) (t : Tree) (pool : Pool) :
    Pool.left (run pass labels t pool) =
      poolOf (follow (act pass) (t.steps none) (pool, start labels)) := by
  rw [run_eq]
  cases follow (act pass) (t.steps none) (pool, start labels) <;> rfl

structure Estimated (t : Tree) (pool : Pool) (estimated : Layout) : Prop where
  ready : ∀ step ∈ t.steps none, step.Ready pool
  position : estimated.position = reach pool 0 (t.steps none)
  sights : estimated.sights.toList = sightsOf (t.course pool)
  estimate : ∀ l n, estimated.labels.estimate? l = some n ↔ PlacedAt (t.course pool) l n
  settled : ∀ l, estimated.labels.settled? l = none

theorem run_estimate {t : Tree} {pool first : Pool} {estimated : Layout}
    (accepted : run .estimate .empty t pool = .ok estimated first) :
    pool.Extends first ∧ Estimated t first estimated := by
  obtain ⟨grown, ready, position, sights, estimate, settled⟩ :=
    follow_estimate (run_eq_ok.mp accepted)
  refine ⟨grown, ready, position, ?_, fun l n => ?_, fun l => ?_⟩
  · simpa [start, Tree.course] using sights
  · rw [estimate]
    simp [start, Labels.estimate?_empty, Tree.course]
  · rw [settled]
    exact Labels.settled?_empty l

variable {t : Tree} {first later : Pool} {estimated settled : Layout} {method : String}

theorem Estimated.mono (h : Estimated t first estimated) (grown : first.Extends later) :
    Estimated t later estimated := by
  obtain ⟨same, course⟩ := reach_timeline_mono h.ready grown 0
  refine ⟨fun step hs => (h.ready step hs).mono grown, by rw [h.position, same], ?_, ?_, h.settled⟩
  · rw [h.sights, Tree.course, Tree.course, course]
  · intro l n
    rw [h.estimate, Tree.course, Tree.course, course]

structure Settled (t : Tree) (pool : Pool) (estimated settled : Layout) : Prop where
  position : settled.position = estimated.position
  sights : settled.sights = estimated.sights
  labels : settled.labels.settled? = estimated.labels.estimate?
  reaches : ∀ step ∈ t.steps none, step.Reaches estimated.labels.estimate?

theorem run_settle (h : Estimated t first estimated) (method : String) :
    (∃ settled, run (.settle method) estimated.labels t first = .ok settled first ∧
      Settled t first estimated settled) ∨
    ∃ before step after e, t.steps none = before ++ step :: after ∧
      (∀ x ∈ before, x.Reaches estimated.labels.estimate?) ∧
      step.Misses estimated.labels.estimate? method e ∧
      run (.settle method) estimated.labels t first = .error e first := by
  rcases follow_settle method (s := start estimated.labels) h.ready
    (fun l n placed => (h.estimate l n).mpr placed) (fun l => .inl (h.settled l)) with
    ⟨reaches, settled, done, position, sights, estimate, free, _, placed⟩ |
    ⟨before, step, after, e, s', split, reaches, misses, failed⟩
  · refine .inl ⟨settled, run_eq_ok.mpr done, ?_, ?_, ?_, reaches⟩
    · rw [position, h.position]
      rfl
    · apply Array.ext'
      rw [sights, h.sights]
      simp [start, Tree.course]
    · funext l
      rcases free l with none | same
      · -- A label that was not settled is not placed, so it has no estimate either.
        cases he : estimated.labels.estimate? l with
        | none => exact none
        | some n =>
          have := placed l n ((h.estimate l n).mp he)
          rw [none] at this
          cases this
      · exact same
  · refine .inr ⟨before, step, after, e, split, reaches, misses, ?_⟩
    rw [run_eq, failed]

structure Laid (t : Tree) (pool : Pool) (layout : Layout) : Prop where
  ready : ∀ step ∈ t.steps none, step.Ready pool
  labels : ∀ l n, layout.labels.settled? l = some n ↔ PlacedAt (t.course pool) l n
  reaches : ∀ step ∈ t.steps none, step.Reaches layout.labels.settled?
  position : layout.position = reach pool 0 (t.steps none)
  code : layout.code.toList = (t.steps none).flatMap (Step.octets pool layout.labels)
  jumps : layout.jumps.toList = (t.steps none).flatMap (Step.hops layout.labels)
  handlers : layout.handlers.toList = (t.steps none).flatMap (Step.handlers pool layout.labels)
  sights : layout.sights.toList = sightsOf (t.course pool)

theorem Laid.mono {layout : Layout} (h : Laid t first layout) (grown : first.Extends later) :
    Laid t later layout := by
  obtain ⟨same, course⟩ := reach_timeline_mono h.ready grown 0
  refine ⟨fun step hs => (h.ready step hs).mono grown, ?_, h.reaches, by rw [h.position, same], ?_,
    h.jumps, ?_, ?_⟩
  · intro l n
    rw [h.labels, Tree.course, Tree.course, course]
  · rw [h.code, List.flatMap_def, List.flatMap_def,
      List.map_congr_left fun step hs => ((h.ready step hs).octets_eq grown layout.labels).symm]
  · rw [h.handlers, List.flatMap_def, List.flatMap_def,
      List.map_congr_left fun step hs => ((h.ready step hs).handlers_eq grown layout.labels).symm]
  · rw [h.sights, Tree.course, Tree.course, course]

/-- All labels that a step names are settled: a jump reaches its target, and the labels of a
guard are placed by the region itself. -/
theorem known_of_named (h : Estimated t first estimated) (hs : Settled t first estimated settled)
    {step : Step} (member : step ∈ t.steps none) {l : Label} (named : l ∈ step.named) :
    settled.labels.settled? l = some (settled.labels.spot l) := by
  have known : ∃ n, settled.labels.settled? l = some n := by
    cases step with
    | jump test source target =>
      obtain ⟨origin, goal, _, hg, _⟩ := hs.reaches _ member
      simp only [Step.named, List.mem_singleton] at named
      exact ⟨goal, by rw [hs.labels, named, hg]⟩
    | enter g caught =>
      have placed := Tree.placed_of_enter t none member l named
      obtain ⟨n, hn⟩ := (exists_placedAt first 0).mpr
        (List.mem_filterMap.mpr ⟨_, placed, rfl⟩)
      exact ⟨n, by rw [hs.labels, (h.estimate l n).mpr hn]⟩
    | _ => simp [Step.named] at named
  obtain ⟨n, hn⟩ := known
  rw [Labels.spot_eq hn, hn]

theorem run_emit (h : Estimated t first estimated) (hs : Settled t first estimated settled)
    (grown : first.Extends later) :
    ∃ emitted, run .emit settled.labels t later = .ok emitted later ∧
      emitted.labels = settled.labels ∧ Laid t later emitted := by
  have h' := h.mono grown
  obtain ⟨emitted, done, labels, position, code, jumps, handlers, sights⟩ :=
    follow_emit (s := start settled.labels) h'.ready
      (fun l n placed => by
        show settled.labels.settled? l = some n
        rw [hs.labels, (h'.estimate l n).mpr placed])
      (fun step member l named => known_of_named h hs member named)
  refine ⟨emitted, run_eq_ok.mpr done, labels, h'.ready, ?_, ?_, position, ?_, ?_, ?_, ?_⟩
  · intro l n
    rw [labels]
    show settled.labels.settled? l = some n ↔ _
    rw [hs.labels, h'.estimate]
  · rw [labels]
    show ∀ step ∈ t.steps none, step.Reaches settled.labels.settled?
    rw [hs.labels]
    exact hs.reaches
  · rw [code, labels]
    rfl
  · rw [jumps, labels]
    rfl
  · rw [handlers, labels]
    rfl
  · rw [sights]
    rfl

theorem grows_run (pass : Pass) (labels : Labels) (t : Tree) (pool : Pool) :
    pool.Grows (Pool.left (run pass labels t pool)) := by
  rw [left_run]
  exact Keeps.follow (fun step _ => keeps_grows pool pass step) .refl _

/-- A body that was laid out has its tree laid out, in a pool that grew meanwhile. -/
theorem of_layOut {b : Body} {pool final : Pool} {layout : Layout}
    (accepted : b.layOut pool = .ok layout final) :
    Laid b.tree final layout ∧ pool.Grows final ∧ layout.position ≤ 65535 := by
  simp only [Body.layOut, bind, EStateM.bind] at accepted
  cases he : run .estimate .empty b.tree pool with
  | error e mid => simp [he] at accepted
  | ok estimated first =>
    have grown := grows_run .estimate .empty b.tree pool
    rw [he] at grown
    obtain ⟨_, h⟩ := run_estimate he
    rcases run_settle h b.method with ⟨settled, done, hs⟩ | ⟨_, _, _, e, _, _, _, failed⟩
    · simp only [he, done] at accepted
      split at accepted
      · cases accepted
      · rename_i fits
        obtain ⟨emitted, emits, _, laid⟩ := run_emit h hs (.refl first)
        simp only [emits] at accepted
        cases accepted
        refine ⟨laid, grown, ?_⟩
        rw [laid.position, ← h.position, ← hs.position]
        simpa [Body.maxCodeSize] using fits
    · simp [he, failed] at accepted

structure PassesAgree (t : Tree) (method : String) (first : Pool) (estimated : Layout) : Prop where
  placed : ∀ l, l ∈ t.placed ↔ ∃ n, estimated.labels.estimate? l = some n
  /-- No further pass changes the pool, however it ends, nor one that has grown meanwhile. -/
  silent : ∀ pass labels later, first.Extends later →
    Pool.left (run pass labels t later) = later
  settles : (∃ settled, run (.settle method) estimated.labels t first = .ok settled first) ↔
    ∀ j ∈ t.jumps, Reaches estimated.labels.estimate? j.1 j.2
  fails : ∀ e later, run (.settle method) estimated.labels t first = .error e later →
    ∃ before j after, t.jumps = before ++ j :: after ∧
      (∀ i ∈ before, Reaches estimated.labels.estimate? i.1 i.2) ∧
      Misses estimated.labels.estimate? method j.1 j.2 e
  stays : ∀ settled later, run (.settle method) estimated.labels t first = .ok settled later →
    settled.position = estimated.position ∧ settled.sights = estimated.sights ∧
      ∀ l, settled.labels.positionOf l = estimated.labels.estimateOf l
  /-- The last pass, also when repeated later, succeeds, sees the same and writes as much. -/
  emits : ∀ settled mid later, run (.settle method) estimated.labels t first = .ok settled mid →
    first.Extends later → ∃ emitted, run .emit settled.labels t later = .ok emitted later ∧
      emitted.position = estimated.position ∧ emitted.code.size = estimated.position ∧
      emitted.sights = estimated.sights ∧
      ∀ l n, .label l n ∈ emitted.sights.toList → settled.labels.positionOf l = .ok n

/-- The jumps before the one of a step are those of the steps before it. -/
theorem jumps_of_split {before after : List Step} {test : Option Test} {source target : Label}
    (whole : t.steps none = before ++ .jump test source target :: after) :
    t.jumps = before.filterMap Step.jump? ++ (source, target) :: after.filterMap Step.jump? := by
  rw [← Tree.filterMap_jump? t none, whole, List.filterMap_append]
  rfl

theorem reaches_of_jump {steps : List Step} {estimate : Label → Option Nat}
    (h : ∀ step ∈ steps, step.Reaches estimate) {j : Label × Label}
    (member : j ∈ steps.filterMap Step.jump?) : Reaches estimate j.1 j.2 := by
  obtain ⟨step, inside, made⟩ := List.mem_filterMap.mp member
  have reaches := h step inside
  cases step <;> cases made
  exact reaches

theorem reaches_steps_iff {estimate : Label → Option Nat} :
    (∀ step ∈ t.steps none, step.Reaches estimate) ↔
      ∀ j ∈ t.jumps, Reaches estimate j.1 j.2 := by
  rw [← Tree.filterMap_jump? t none]
  constructor
  · intro h j member
    exact reaches_of_jump h member
  · intro h step member
    cases step with
    | jump test source target =>
      exact h (source, target) (List.mem_filterMap.mpr ⟨_, member, rfl⟩)
    | _ => trivial

theorem settled_of_run (h : Estimated t first estimated)
    (done : run (.settle method) estimated.labels t first = .ok settled later) :
    Settled t first estimated settled := by
  rcases run_settle h method with ⟨settled', done', hs⟩ | ⟨_, _, _, e, _, _, _, failed⟩
  · rw [done'] at done
    cases done
    exact hs
  · rw [failed] at done
    cases done

theorem first_miss (h : Estimated t first estimated) {e : Error}
    (failed : run (.settle method) estimated.labels t first = .error e later) :
    ∃ before j after, t.jumps = before ++ j :: after ∧
      (∀ i ∈ before, Reaches estimated.labels.estimate? i.1 i.2) ∧
      Misses estimated.labels.estimate? method j.1 j.2 e := by
  rcases run_settle h method with
    ⟨settled, done, _⟩ | ⟨before, step, after, e', whole, reaches, misses, failed'⟩
  · rw [done] at failed
    cases failed
  · rw [failed'] at failed
    cases failed
    cases step with
    | jump test source target =>
      refine ⟨_, _, _, jumps_of_split whole, ?_, misses⟩
      intro i member
      exact reaches_of_jump reaches member
    | _ => exact misses.elim

theorem Estimated.emits (h : Estimated t first estimated) (hs : Settled t first estimated settled)
    (grown : first.Extends later) :
    ∃ emitted, run .emit settled.labels t later = .ok emitted later ∧
      emitted.position = estimated.position ∧ emitted.code.size = estimated.position ∧
      emitted.sights = estimated.sights ∧
      ∀ l n, .label l n ∈ emitted.sights.toList → settled.labels.positionOf l = .ok n := by
  obtain ⟨emitted, emits, labels, laid⟩ := run_emit h hs grown
  have h' := h.mono grown
  refine ⟨emitted, emits, ?_, ?_, ?_, ?_⟩
  · rw [laid.position, h'.position]
  · rw [← Array.length_toList, laid.code, h'.position, ← flatMap_octets_length emitted.labels 0]
    omega
  · apply Array.ext'
    rw [laid.sights, h'.sights]
  · intro l n seen
    rw [laid.sights, label_mem_sightsOf] at seen
    rw [Labels.positionOf_eq_ok, ← labels, laid.labels]
    exact seen

theorem passes_agree (t : Tree) (method : String) (pool first : Pool) (estimated : Layout)
    (accepted : run .estimate .empty t pool = .ok estimated first) :
    PassesAgree t method first estimated := by
  obtain ⟨_, h⟩ := run_estimate accepted
  refine ⟨?_, ?_, ?_, ?_, ?_, ?_⟩
  · intro l
    rw [← Tree.exists_placedAt first]
    simp only [h.estimate]
  · intro pass labels later grown
    rw [left_run]
    exact Keeps.follow (fun step hs => keeps_ready ((h.mono grown).ready step hs) pass) rfl _
  · rw [← reaches_steps_iff]
    constructor
    · rintro ⟨settled, done⟩
      exact (settled_of_run h done).reaches
    · intro reaches
      rcases run_settle h method with
        ⟨settled, done, _⟩ | ⟨before, step, after, e, whole, _, misses, _⟩
      · exact ⟨settled, done⟩
      · exact absurd (reaches step (by rw [whole]; simp)) misses.not_reaches
  · intro e later failed
    exact first_miss h failed
  · intro settled later done
    have hs := settled_of_run h done
    refine ⟨hs.position, hs.sights, fun l => ?_⟩
    have same : settled.labels.settled? l = estimated.labels.estimate? l := by rw [hs.labels]
    rw [Labels.settled?, Labels.estimate?] at same
    rw [Labels.positionOf, Labels.estimateOf, same]
  · intro settled mid later done grown
    exact h.emits (settled_of_run h done) grown

theorem passes_agree_countdown : ∃ estimated first,
    run .estimate .empty .countdown .empty = .ok estimated first ∧
      PassesAgree .countdown "A.f(I)I" first estimated := by
  have accepted : ∃ estimated first, run .estimate .empty .countdown .empty = .ok estimated first :=
    ⟨_, _, by cbv⟩
  obtain ⟨estimated, first, accepted⟩ := accepted
  exact ⟨estimated, first, accepted, passes_agree _ _ _ _ _ accepted⟩

end Layout

end Bytecode
