import Bytecode.Proofs.Stretches

/-! Which handler an exception goes to. The table of handlers is searched from its start, and the
entry of a region stands before the entries of the regions inside it. So of the regions around an
instruction the outermost one that catches is found, which is the innermost one only where their
handlers stand in one place. -/
namespace Bytecode

structure Region where
  guard : Guard
  caught : Option BinaryName

namespace Region

def catches (thrown : String → Bool) (r : Region) : Bool := r.caught.all fun name => thrown name.text

def entry (pool : Pool) (labels : Labels) (r : Region) : Handler :=
  Step.entry pool labels r.guard r.caught

def goal (labels : Labels) (r : Region) : Nat := labels.spot r.guard.handler

end Region

def Tree.sheltered : Tree → List (Op × List Region)
  | unit | label _ _ => []
  | leaf _ l => [(.leaf l, [])]
  | branch _ test start target _ first second =>
    (.jump (some test) start target, []) :: first.sheltered ++ second.sheltered
  | goto _ source target => [(.jump none source target, [])]
  | seq _ first second => first.sheltered ++ second.sheltered
  | retype _ inner => inner.sheltered
  | guarded _ g caught body handler =>
    body.sheltered.map (fun (op, around) => (op, around ++ [⟨g, caught⟩])) ++
      (g.exit.map fun exit => (Op.jump none exit g.after, [])).toList ++ handler.sheltered
  | line _ _ body => body.sheltered

namespace Handler

def covers (h : Handler) (p : Nat) : Bool := h.start.toNat ≤ p && p < h.stop.toNat

def catches (pool : Pool) (thrown : String → Bool) (h : Handler) : Bool :=
  h.caught.all fun index => (pool.class? index).any thrown

end Handler

/-- Where control goes when something is thrown at a position: to the handler of the first entry
that covers the position and catches it. -/
def dispatch (pool : Pool) (table : List Handler) (thrown : String → Bool) (p : Nat) : Option Nat :=
  (table.find? fun h => h.covers p && h.catches pool thrown).map (·.handler.toNat)

structure Covered (pool : Pool) (labels : Labels) (table : List Handler) (start stop last : Nat)
    (x : Nat × Op) (y : Op × List Region) : Prop where
  op : x.2 = y.1
  inside : start ≤ x.1 ∧ x.1 < stop
  covering : table.filter (·.covers x.1) = (y.2.map (Region.entry pool labels)).reverse
  ordered : y.2.Pairwise fun inner outer => inner.goal labels ≤ outer.goal labels
  before : ∀ r ∈ y.2, r.goal labels ≤ last
  ready : ∀ r ∈ y.2, (Step.enter r.guard r.caught).Ready pool

structure Lies (pool : Pool) (labels : Labels) (n : Nat) (steps : List Step)
    (ops : List (Op × List Region)) (last : Nat) : Prop where
  within : ∀ h ∈ steps.flatMap (Step.handlers pool labels),
    n ≤ h.start.toNat ∧ h.stop.toNat ≤ reach pool n steps
  covered : List.Forall₂
    (Covered pool labels (steps.flatMap (Step.handlers pool labels)) n (reach pool n steps) last)
    ((timeline pool n steps).filterMap opAt) ops

variable {pool : Pool} {labels : Labels} {n last : Nat}

theorem filter_covers_eq_nil {table : List Handler} {low high p : Nat}
    (within : ∀ h ∈ table, low ≤ h.start.toNat ∧ h.stop.toNat ≤ high) (apart : p < low ∨ high ≤ p) :
    table.filter (·.covers p) = [] := by
  rw [List.filter_eq_nil_iff]
  intro h member
  have := within h member
  simp only [Handler.covers, Bool.and_eq_true, decide_eq_true_eq]
  omega

namespace Lies

theorem mono {steps : List Step} {ops : List (Op × List Region)} {later : Nat}
    (h : Lies pool labels n steps ops last) (le : last ≤ later) :
    Lies pool labels n steps ops later := by
  refine ⟨h.within, h.covered.imp fun x y c => ?_⟩
  exact ⟨c.op, c.inside, c.covering, c.ordered, fun r hr => Nat.le_trans (c.before r hr) le, c.ready⟩

theorem append {first second : List Step} {ops others : List (Op × List Region)}
    (a : Lies pool labels n first ops last)
    (b : Lies pool labels (reach pool n first) second others last) :
    Lies pool labels n (first ++ second) (ops ++ others) last := by
  have middle := le_reach pool n first
  have ends := le_reach pool (reach pool n first) second
  refine ⟨?_, ?_⟩
  · rw [List.flatMap_append, reach_append]
    intro h member
    rcases List.mem_append.mp member with member | member
    · have := a.within h member
      omega
    · have := b.within h member
      omega
  · rw [timeline_append, List.filterMap_append, List.flatMap_append, reach_append]
    -- No entry of one part covers an instruction of the other.
    refine List.rel_append (a.covered.imp fun x y c => ?_) (b.covered.imp fun x y c => ?_)
    · have := c.inside
      refine ⟨c.op, by omega, ?_, c.ordered, c.before, c.ready⟩
      rw [List.filter_append, filter_covers_eq_nil b.within (by omega), List.append_nil, c.covering]
    · have := c.inside
      refine ⟨c.op, by omega, ?_, c.ordered, c.before, c.ready⟩
      rw [List.filter_append, filter_covers_eq_nil a.within (by omega), List.nil_append, c.covering]

theorem nil : Lies pool labels n [] [] last := ⟨by simp, .nil⟩

theorem skip (step : Step) {rest : List Step} {ops : List (Op × List Region)}
    (h : Lies pool labels n rest ops last) (none : step.op? = none) (room : step.size pool = 0)
    (bare : step.handlers pool labels = []) : Lies pool labels n (step :: rest) ops last := by
  obtain ⟨within, covered⟩ := h
  constructor
  · simpa [bare, reach, room] using within
  · simpa [bare, reach, room, timeline, opAt, none] using covered

theorem place {rest : List Step} {ops : List (Op × List Region)} (l : Label)
    (h : Lies pool labels n rest ops last) : Lies pool labels n (.place l :: rest) ops last :=
  h.skip _ rfl rfl rfl

theorem single (hp : pool.Coherent) {step : Step} {op : Op} (h : Stands pool labels n step)
    (has : step.op? = some op) : Lies pool labels n [step] [(op, [])] last := by
  have solid := h.size_pos hp has
  have bare : step.handlers pool labels = [] := by
    cases step with
    | enter => cases has
    | _ => rfl
  refine ⟨by simp [bare], ?_⟩
  simp only [timeline, opAt, has, List.filterMap_cons, Option.map_some, List.filterMap_nil]
  refine .cons ⟨rfl, ?_, by simp [bare], .nil, by simp, by simp⟩ .nil
  simp only [reach]
  omega

/-- The entry of a region covers all instructions of its body, and stands before their entries. -/
theorem region {g : Guard} {caught : Option BinaryName} {body : List Step}
    {ops : List (Op × List Region)} (h : Lies pool labels n body ops (reach pool n body))
    (ready : (Step.enter g caught).Ready pool) (start : labels.spot g.start = n)
    (stop : labels.spot g.stop = reach pool n body)
    (small : reach pool n body ≤ 65535) (after : reach pool n body ≤ labels.spot g.handler) :
    Lies pool labels n (.enter g caught :: body)
      (ops.map fun (op, around) => (op, around ++ [⟨g, caught⟩])) (labels.spot g.handler) := by
  have low := le_reach pool n body
  have first : (labels.spot g.start).toUInt16.toNat = n := by
    rw [start, toNat_toUInt16 (Nat.le_trans low small)]
  have second : (labels.spot g.stop).toUInt16.toNat = reach pool n body := by
    rw [stop, toNat_toUInt16 small]
  have room : reach pool n (.enter g caught :: body) = reach pool n body := rfl
  refine ⟨?_, ?_⟩
  · rw [List.flatMap_cons, room]
    intro e member
    rcases List.mem_append.mp member with member | member
    · simp only [Step.handlers] at member
      split at member
      · rw [List.mem_singleton.mp member]
        simp only [Step.entry]
        omega
      · cases member
    · exact h.within e member
  · rw [List.forall₂_map_right_iff, room]
    refine h.covered.imp fun x y c => ?_
    have inside := c.inside
    have full : (labels.spot g.start).toUInt16 ≠ (labels.spot g.stop).toUInt16 := by
      intro same
      rw [← UInt16.toNat_inj] at same
      omega
    refine ⟨c.op, c.inside, ?_, ?_, ?_, ?_⟩
    · have covers : (Step.entry pool labels g caught).covers x.1 := by
        rw [Handler.covers, Bool.and_eq_true]
        exact ⟨decide_eq_true (by simp only [Step.entry]; omega),
          decide_eq_true (by simp only [Step.entry]; omega)⟩
      rw [List.flatMap_cons, Step.handlers_of_ne full, List.filter_append, c.covering]
      simp [covers, Region.entry]
    · rw [List.pairwise_append]
      refine ⟨c.ordered, by simp, fun r hr e he => ?_⟩
      rw [List.mem_singleton.mp he]
      exact Nat.le_trans (c.before r hr) after
    · intro r hr
      rcases List.mem_append.mp hr with hr | hr
      · exact Nat.le_trans (c.before r hr) after
      · rw [List.mem_singleton.mp hr]
        exact Nat.le_refl _
    · intro r hr
      rcases List.mem_append.mp hr with hr | hr
      · exact c.ready r hr
      · rw [List.mem_singleton.mp hr]
        exact ready

end Lies

theorem Lies.resume (outer : Option UInt16) : Lies pool labels n (resume outer) [] last := by
  cases outer with
  | none => exact .nil
  | some number => exact Lies.nil.skip _ rfl rfl rfl

/-- The jump out of a region, if there is one, is not guarded by it. -/
theorem Lies.exit (hp : pool.Coherent) (g : Guard)
    (h : Along pool (Stands pool labels) n (g.exit.map (Step.jump none · g.after)).toList) :
    Lies pool labels n (g.exit.map (Step.jump none · g.after)).toList
      (g.exit.map fun exit => (Op.jump none exit g.after, [])).toList last := by
  cases hg : g.exit with
  | none => exact .nil
  | some exit =>
    rw [hg] at h
    exact .single hp h.1 rfl

theorem Tree.lies (hp : pool.Coherent) (t : Tree) (outer : Option UInt16)
    (h : Along pool (Stands pool labels) n (t.steps outer))
    (small : reach pool n (t.steps outer) ≤ 65535) :
    Lies pool labels n (t.steps outer) t.sheltered (reach pool n (t.steps outer)) := by
  induction t generalizing outer n with
  | unit => exact .nil
  | leaf => exact .single hp h.1 rfl
  | label o l => exact Lies.nil.place l
  | goto => exact .single hp h.1 rfl
  | branch o test start target stop first second ih₁ ih₂ =>
    simp only [steps, along_append, Along, reach_append, reach, Step.size, Nat.add_zero]
      at h small ⊢
    obtain ⟨⟨⟨jump, hfirst⟩, hsecond⟩, _⟩ := h
    have middle := le_reach pool (reach pool (n + 3) (first.steps outer)) (second.steps outer)
    have one := (ih₁ outer hfirst (by omega)).mono middle
    have two := ih₂ outer hsecond small
    have whole := (Lies.single hp jump rfl).append (one.append (two.append (Lies.nil.place stop)))
    simpa [sheltered] using whole
  | seq o first second ih₁ ih₂ =>
    simp only [steps, along_append, reach_append] at h small ⊢
    have middle := le_reach pool (reach pool n (first.steps outer)) (second.steps outer)
    exact ((ih₁ outer h.1 (by omega)).mono middle).append (ih₂ outer h.2 small)
  | retype o inner ih => exact ih outer h small
  | guarded o g caught body handler ihb ihh =>
    simp only [steps, along_append, Along, reach_append, reach, Step.size, Nat.add_zero]
      at h small ⊢
    obtain ⟨⟨⟨⟨start, enter, hbody⟩, stop, _, hexit⟩, entry, hhandler⟩, _⟩ := h
    have one := le_reach pool (reach pool n (body.steps outer))
      (g.exit.map (Step.jump none · g.after)).toList
    have two := le_reach pool (reach pool (reach pool n (body.steps outer))
      (g.exit.map (Step.jump none · g.after)).toList) (handler.steps outer)
    have goal := entry.spot_eq rfl
    have inner := (ihb outer hbody (by omega)).region enter.ready (start.spot_eq rfl)
      (stop.spot_eq rfl) (by omega) (by omega)
    rw [goal] at inner
    have last := (ihh outer hhandler small).append (Lies.nil.place g.after)
    have left := (Lies.exit hp g hexit).append (last.place g.handler)
    have closed := (left.skip (.exit g.handler) rfl rfl rfl).place g.stop
    have whole := ((inner.mono two).append closed).place g.start
    simpa [sheltered] using whole
  | line o number body ih =>
    simp only [steps, along_append, Along, reach_append, reach, reach_resume, Step.size,
      Nat.add_zero] at h small ⊢
    have inner := (ih (some number) h.1.2 small).append (.resume outer)
    have whole := inner.skip (.line number) rfl rfl rfl
    simpa [sheltered] using whole

theorem Region.catches_entry (hp : pool.Coherent) {r : Region}
    (ready : (Step.enter r.guard r.caught).Ready pool) (thrown : String → Bool) :
    (r.entry pool labels).catches pool thrown = r.catches thrown := by
  obtain ⟨g, caught⟩ := r
  cases caught with
  | none => rfl
  | some name =>
    have found := Pool.class?_of_classRef hp ready
    simp [Handler.catches, Region.entry, Step.entry, Region.catches, found, RefType.className]

theorem Covered.dispatch_eq (hp : pool.Coherent) (small : last ≤ 65535) {table : List Handler}
    {start stop : Nat} {x : Nat × Op} {y : Op × List Region}
    (c : Covered pool labels table start stop last x y) (thrown : String → Bool) :
    dispatch pool table thrown x.1 =
      (y.2.reverse.find? (Region.catches thrown)).map (Region.goal labels) := by
  have search : dispatch pool table thrown x.1 =
      (((y.2.map (Region.entry pool labels)).reverse.find? (Handler.catches pool thrown)).map
        (·.handler.toNat)) := by
    rw [← c.covering, List.find?_filter]
    simp [dispatch]
  have each : ∀ r ∈ y.2.reverse, (r.entry pool labels).handler.toNat = r.goal labels ∧
      (r.entry pool labels).catches pool thrown = r.catches thrown := by
    intro r member
    rw [List.mem_reverse] at member
    have low := c.before r member
    exact ⟨toNat_toUInt16 (Nat.le_trans low small), r.catches_entry hp (c.ready r member) thrown⟩
  rw [search, ← List.map_reverse]
  generalize y.2.reverse = rs at each
  induction rs with
  | nil => rfl
  | cons r rest ih =>
    have head := each r (by simp)
    have tail := ih fun s hs => each s (by simp [hs])
    rw [List.map_cons, List.find?_cons, List.find?_cons, head.2]
    cases r.catches thrown with
    | true => simp [head.1]
    | false => exact tail

def InnermostFirst (pool : Pool) (labels : Labels) (table : List Handler) (x : Nat × Op)
    (y : Op × List Region) : Prop :=
  ∀ thrown, dispatch pool table thrown x.1 =
    (y.2.find? (Region.catches thrown)).map (Region.goal labels)

/-- An instruction where it stands in the code: an exception goes to the outermost region around it
that catches it, and to the innermost only where all their handlers are in one place. -/
structure Dispatched (pool : Pool) (labels : Labels) (table : List Handler) (x : Nat × Op)
    (y : Op × List Region) : Prop where
  op : x.2 = y.1
  outermost : ∀ thrown, dispatch pool table thrown x.1 =
    (y.2.reverse.find? (Region.catches thrown)).map (Region.goal labels)
  innermost_iff : InnermostFirst pool labels table x y ↔
    ∀ r ∈ y.2, ∀ s ∈ y.2, r.goal labels = s.goal labels

theorem find_reverse {α : Type} (p : α → Bool) (f : α → Nat) {xs : List α}
    (same : ∀ x ∈ xs, ∀ y ∈ xs, f x = f y) : (xs.reverse.find? p).map f = (xs.find? p).map f := by
  cases found : xs.find? p with
  | none =>
    have none : xs.reverse.find? p = none := by
      simpa [List.find?_eq_none] using found
    rw [none]
  | some x =>
    have some : (xs.reverse.find? p).isSome := by
      rw [List.find?_isSome]
      exact ⟨x, by simpa using List.mem_of_find?_eq_some found, List.find?_some found⟩
    obtain ⟨y, other⟩ := Option.isSome_iff_exists.mp some
    have member : y ∈ xs := by simpa using List.mem_of_find?_eq_some other
    rw [other, Option.map_some, Option.map_some, same y member x (List.mem_of_find?_eq_some found)]

theorem find_all {α : Type} (xs : List α) : xs.find? (fun _ => true) = xs.head? := by
  cases xs <;> rfl

/-- The first and the last handler around an instruction are in one place only if all are. -/
theorem goals_eq_of_ends {rs : List Region} {a z : Region}
    (ordered : rs.Pairwise fun inner outer => inner.goal labels ≤ outer.goal labels)
    (first : rs.head? = some a) (last : rs.getLast? = some z)
    (ends : z.goal labels = a.goal labels) : ∀ r ∈ rs, r.goal labels = a.goal labels := by
  intro r member
  have low : a.goal labels ≤ r.goal labels := by
    obtain ⟨rest, rfl⟩ := List.head?_eq_some_iff.mp first
    rcases List.mem_cons.mp member with rfl | later
    · exact Nat.le_refl _
    · exact List.rel_of_pairwise_cons ordered later
  have high : r.goal labels ≤ z.goal labels := by
    obtain ⟨init, rfl⟩ := List.getLast?_eq_some_iff.mp last
    rcases List.mem_append.mp member with earlier | same
    · exact (List.pairwise_append.mp ordered).2.2 r earlier z (by simp)
    · rw [List.mem_singleton.mp same]
  omega

theorem Covered.dispatched (hp : pool.Coherent) (small : last ≤ 65535) {table : List Handler}
    {start stop : Nat} {x : Nat × Op} {y : Op × List Region}
    (c : Covered pool labels table start stop last x y) : Dispatched pool labels table x y := by
  have outermost := c.dispatch_eq hp small
  refine ⟨c.op, outermost, ?_, ?_⟩
  · intro innermost
    -- Something that every region catches goes to both ends of the list.
    have both := (outermost fun _ => true).symm.trans (innermost fun _ => true)
    have all : Region.catches (fun _ => true) = fun _ => true := by
      funext r
      cases r with
      | mk g caught => cases caught <;> rfl
    simp only [all, find_all, List.head?_reverse] at both
    cases first : y.2.head? with
    | none => simp [List.head?_eq_none_iff.mp first]
    | some a =>
      rw [first, Option.map_some, Option.map_eq_some_iff] at both
      obtain ⟨z, last, ends⟩ := both
      have each := goals_eq_of_ends c.ordered first last ends
      intro r hr s hs
      rw [each r hr, each s hs]
  · intro same thrown
    rw [outermost, find_reverse _ _ same]

namespace Body

/-- Of the regions around an instruction, the outermost that catches an exception gets it. -/
theorem dispatch_outermost (config : Config) (this : BinaryName) (b : Body) (pool mid final : Pool)
    (code : Code) (layout : Layout) (made : pool.Made)
    (accepted : b.assemble config this pool = .ok code final)
    (laidOut : b.layOut pool = .ok layout mid) :
    List.Forall₂ (Dispatched final layout.labels code.handlers) layout.reported
      b.tree.sheltered := by
  obtain ⟨laid, whole, small⟩ := laid_of_assemble made accepted laidOut
  obtain ⟨_, _, _, _, _, _, _, _, _, _, handlers, _⟩ := parts_of_assemble accepted laidOut
  have lies := b.tree.lies whole.coherent none laid.stands (laid.position ▸ small)
  rw [handlers, laid.handlers, Layout.reported, laid.sights,
    filterMap_sightsOf fun l k h => (laid.labels l k).mpr h]
  exact lies.covered.imp fun x y c => c.dispatched whole.coherent (laid.position ▸ small)

def nested : Body :=
  ⟨"A.f(I)V", 1,
    .build do
      let inner ← Tree.tryCatch (.concat [.int 1, .simple .pop]) none (.simple .pop)
      let outer ← Tree.tryCatch inner none (.concat [.simple .pop, .simple .nop])
      return .concat [outer, .simple .returnVoid], [.int]⟩

theorem exists_nested : ∃ layout mid code final rest,
    nested.layOut .empty = .ok layout mid ∧ nested.assemble {} .object .empty = .ok code final ∧
    code.handlers = [⟨0, 6, 9, none⟩, ⟨0, 2, 5, none⟩] ∧ layout.labels.spot ⟨3⟩ = 5 ∧
    layout.reported = (0, .leaf (.simple .iconst1)) :: rest := by
  obtain ⟨layout, mid, s, t, later, rest, laidOut, simulated, finished, room, table, inner,
      reported⟩ : ∃ layout mid s t later rest, nested.layOut .empty = .ok layout mid ∧
      nested.simulate .object layout = .ok s ∧ s.finish mid = .ok t later ∧
      later.entries.next + 2 ≤ 65535 ∧
      layout.handlers.toList = [⟨0, 6, 9, none⟩, ⟨0, 2, 5, none⟩] ∧ layout.labels.spot ⟨3⟩ = 5 ∧
      layout.reported = (0, .leaf (.simple .iconst1)) :: rest :=
    ⟨_, _, _, _, _, _, by cbv, by cbv, by cbv, by cbv, by cbv, by cbv, by cbv⟩
  obtain ⟨code, final, accepted⟩ := exists_assemble {} laidOut simulated finished room
  obtain ⟨_, _, _, _, _, _, _, _, _, _, handlers, _⟩ := parts_of_assemble accepted laidOut
  exact ⟨layout, mid, code, final, rest, laidOut, accepted, handlers.trans table, inner, reported⟩

theorem dispatch_outermost_nested : ∃ layout mid code final,
    nested.layOut .empty = .ok layout mid ∧ nested.assemble {} .object .empty = .ok code final ∧
    List.Forall₂ (Dispatched final layout.labels code.handlers) layout.reported
      nested.tree.sheltered := by
  obtain ⟨layout, mid, code, final, _, laidOut, accepted, _⟩ := exists_nested
  exact ⟨layout, mid, code, final, laidOut, accepted,
    dispatch_outermost _ _ _ _ _ _ _ _ .refl accepted laidOut⟩

/-- What is thrown by the first instruction goes to the handler of the outer region. -/
theorem not_innermostFirst_nested : ∃ layout mid code final,
    nested.layOut .empty = .ok layout mid ∧ nested.assemble {} .object .empty = .ok code final ∧
    ¬ List.Forall₂ (InnermostFirst final layout.labels code.handlers) layout.reported
      nested.tree.sheltered := by
  obtain ⟨layout, mid, code, final, rest, laidOut, accepted, table, inner, reported⟩ := exists_nested
  refine ⟨layout, mid, code, final, laidOut, accepted, fun innermost => ?_⟩
  rw [table, reported] at innermost
  have goes : some 9 = some (layout.labels.spot ⟨3⟩) :=
    (List.forall₂_cons.mp innermost).1 fun _ => true
  rw [inner] at goes
  cases goes

end Body

end Bytecode
