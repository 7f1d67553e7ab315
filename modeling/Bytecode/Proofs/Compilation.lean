import Bytecode.Proofs.Plans

/-! The code of a plan does what is told of it. A part of the code, wherever it stands, takes control
from its first position to the one after it, halts, or goes round in itself; the parts are put together
as the tree is. -/
namespace Bytecode

/-- What a run comes to in code, from a position on. It is done where it gets to the stop; it loops
before the stop. -/
def Lands {σ : Type} (m : Machine σ) (pool : Pool) (code : Octets) (n stop : Nat) (s : σ)
    (r : Run σ) : Prop :=
  match r.ending with
  | .done => m.Reaches pool code (.running n s) r.trace (.running stop r.state)
  | .halted => m.Reaches pool code (.running n s) r.trace (.halted r.state)
  | .looping => ∃ pc < stop, m.Reaches pool code (.running n s) r.trace (.running pc r.state) ∧
      m.step pool code (.running pc r.state) = ([], .running pc r.state)

variable {σ : Type} {m : Machine σ} {pool : Pool} {labels : Labels} {code : Octets}
  {n mid stop : Nat} {s : σ} {r : Run σ}

namespace Lands

theorem still (n : Nat) (s : σ) : Lands m pool code n n s (.still s) := .refl _

/-- Control gets to the run in some steps that run nothing but jumps. -/
theorem after {s' : σ} (leads : m.Reaches pool code (.running n s) [] (.running mid s'))
    (h : Lands m pool code mid stop s' r) : Lands m pool code n stop s r := by
  obtain ⟨trace, t, ending⟩ := r
  cases ending with
  | done => exact leads.trans h
  | halted => exact leads.trans h
  | looping =>
    obtain ⟨pc, before, reaches, stays⟩ := h
    exact ⟨pc, before, leads.trans reaches, stays⟩

theorem andThen {next : σ → Run σ} (h : Lands m pool code n mid s r)
    (onward : ∀ t, Lands m pool code mid stop t (next t)) (le : mid ≤ stop) :
    Lands m pool code n stop s (r.andThen next) := by
  obtain ⟨trace, t, ending⟩ := r
  cases ending with
  | done =>
    have continues := onward t
    simp only [Run.andThen]
    generalize next t = later at continues ⊢
    obtain ⟨trace', t', ending'⟩ := later
    cases ending' with
    | done => exact h.trans continues
    | halted => exact h.trans continues
    | looping =>
      obtain ⟨pc, before, reaches, stays⟩ := continues
      exact ⟨pc, before, h.trans reaches, stays⟩
  | halted => exact h
  | looping =>
    obtain ⟨pc, before, reaches⟩ := h
    exact ⟨pc, before.trans_le le, reaches⟩

theorem leave (hp : pool.Coherent) {source target : Label} (h : Lands m pool code n mid s r)
    (jump : Inscribed pool labels code mid (.jump none source target))
    (there : labels.spot target = stop) (le : mid ≤ stop) : Lands m pool code n stop s r := by
  rw [← Run.andThen_still r]
  refine h.andThen (fun t => after (.of_step (jump.step_goto hp)) ?_) le
  rw [there]
  exact still stop t

/-- A conditional jump, with what is run where it goes and what is run where it does not. -/
theorem test (hp : pool.Coherent) {test : Test} {source target : Label} {yes no : Run σ}
    (jump : Inscribed pool labels code n (.jump (some test) source target))
    (taken : Lands m pool code (labels.spot target) stop (m.test test s).2 yes)
    (passed : Lands m pool code (n + 3) stop (m.test test s).2 no) :
    Lands m pool code n stop s (if (m.test test s).1 then yes else no) := by
  refine after (.of_step (jump.step_test hp)) ?_
  split
  · exact taken
  · exact passed

end Lands

namespace Plan

variable {p first second yes no body handler : Plan} {outer : Option UInt16}

def Works (m : Machine σ) (pool : Pool) (labels : Labels) (code : Octets) (p : Plan) : Prop :=
  ∀ outer n s, Along pool (Inscribed pool labels code) n (p.tree.steps outer) →
    Lands m pool code n (reach pool n (p.tree.steps outer)) s (p.passes m s)

theorem works_leaf (hp : pool.Coherent) (type : ResultType) (l : Leaf) :
    (leaf type l).Works m pool labels code := by
  intro outer n s h
  have runs := h.1.step_leaf (m := m) (s := s) hp
  simp only [Lands, passes]
  cases halts : l.halts <;> rw [halts] at runs <;> exact .of_step runs

theorem works_andThen (h₁ : first.Works m pool labels code) (h₂ : second.Works m pool labels code) :
    (first.andThen second).Works m pool labels code := by
  intro outer n s h
  simp only [tree, Tree.steps_andThen] at h ⊢
  cases back : first.tree.back with
  | true =>
    -- The second part is not in the code, and the first never gets to it.
    rw [passes, Run.andThen_of_ne (not_done_of_back m back s)]
    simp only [back, if_true, List.append_nil] at h ⊢
    exact h₁ outer n s h
  | false =>
    simp only [back, Bool.false_eq_true, if_false, along_append, reach_append] at h ⊢
    exact (h₁ outer n s h.1).andThen (fun t => h₂ outer _ t h.2) (le_reach pool _ _)

theorem works_atLine (number : UInt16) (works : p.Works m pool labels code) :
    (p.atLine number).Works m pool labels code := by
  intro outer n s h
  simp only [tree, Tree.atLine, Tree.steps, along_append, Along, reach_append, reach, reach_resume,
    Step.size, Nat.add_zero, List.cons_append] at h ⊢
  exact works (some number) n s h.2.1

theorem works_forever (hp : pool.Coherent) (supply : UInt32) :
    (forever supply).Works m pool labels code := by
  intro outer n s h
  obtain ⟨top, back, _⟩ := h
  have stays := back.step_goto (m := m) (s := s) hp
  rw [top.stands.spot_eq rfl] at stays
  have room : n < n + 0 + 3 := by omega
  exact ⟨n, room, .refl _, stays⟩

section

variable (hp : pool.Coherent) (supply : UInt32) (test : Test) (h₁ : yes.Works m pool labels code)
  (h₂ : no.Works m pool labels code)

include hp h₂ in
/-- With nothing to run if the test holds, the jump leads over the other arm. -/
theorem works_ifElse_of_isUnit (hy : yes.tree.isUnit) :
    (ifElse supply test yes no).Works m pool labels code := by
  intro outer n s h
  simp only [tree, Tree.ifElse_of_isUnit test supply no.tree hy, Tree.joined, Tree.steps,
    List.append_nil, List.cons_append, along_append, Along, reach_append, reach, Step.size,
    Nat.add_zero] at h ⊢
  obtain ⟨jump, arm, stop, _⟩ := h
  simp only [passes, passes_of_isUnit m hy, Run.andThen_still, ite_self]
  refine .test hp jump ?_ (h₂ outer _ _ arm)
  rw [stop.stands.spot_eq rfl]
  exact .still _ _

include hp h₁ in
/-- With nothing to run if the test fails, the negated test leads over the other arm. -/
theorem works_ifElse_of_isUnit_right (hy : yes.tree.isUnit = false) (hn : no.tree.isUnit) :
    (ifElse supply test yes no).Works m pool labels code := by
  intro outer n s h
  simp only [tree, Tree.ifElse_of_isUnit_right test supply hy hn, Tree.joined, Tree.steps,
    List.append_nil, List.cons_append, along_append, Along, reach_append, reach, Step.size,
    Nat.add_zero] at h ⊢
  obtain ⟨jump, arm, stop, _⟩ := h
  have lands : Lands m pool code n (reach pool (n + 3) (yes.tree.steps outer)) s
      (if (m.test test.negate s).1 then .still (m.test test.negate s).2
        else yes.passes m (m.test test.negate s).2) := by
    refine .test hp jump ?_ (h₁ outer _ _ arm)
    rw [stop.stands.spot_eq rfl]
    exact .still _ _
  have leaves : no.tree.ends = false := by
    rw [Tree.isUnit_iff.mp hn]
    rfl
  simp only [passes, passes_of_isUnit m hn, leaves, Bool.false_eq_true, if_false]
  rw [m.negated] at lands
  cases holds : (m.test test s).1 <;> simpa [holds] using lands

include hp h₁ h₂ in
/-- With two arms, the one for a failed test falls into the other, unless it is left by a jump. -/
theorem works_ifElse_of_two (hy : yes.tree.isUnit = false) (hn : no.tree.isUnit = false) :
    (ifElse supply test yes no).Works m pool labels code := by
  intro outer n s h
  rw [passes]
  simp only [tree, Tree.ifElse_of_two test supply hy hn, Tree.joined, Tree.steps,
    Tree.steps_place_andThen, List.append_assoc, List.cons_append, along_append, Along, reach_append,
    reach, Step.size, Nat.add_zero] at h ⊢
  obtain ⟨jump, arm, target, other, stop, _⟩ := h
  cases ends : no.tree.ends with
  | true =>
    simp only [ends, if_true] at arm target other ⊢
    refine .test hp jump ?_ ((h₂ outer _ _ arm).andThen (fun t => h₁ outer _ t other)
      (le_reach pool _ _))
    rw [target.stands.spot_eq rfl]
    exact h₁ outer _ _ other
  | false =>
    -- The jump that leaves the arm is in the code, as the arm does not end in a jump backward.
    have back : no.tree.back = false := by
      by_contra back
      simp [ends_of_back (Bool.not_eq_false _ ▸ back)] at ends
    simp only [ends, back, Bool.false_eq_true, if_false, Tree.steps_andThen, Tree.steps,
      along_append, Along, reach_append, reach, Step.size] at arm target other stop ⊢
    refine .test hp jump ?_ ((h₂ outer _ _ arm.1).leave hp arm.2.1 (stop.stands.spot_eq rfl) ?_)
    · rw [target.stands.spot_eq rfl]
      exact h₁ outer _ _ other
    · exact (Nat.le_add_right _ 3).trans (le_reach pool _ _)

include hp h₁ h₂ in
theorem works_ifElse : (ifElse supply test yes no).Works m pool labels code := by
  cases hy : yes.tree.isUnit with
  | true => exact works_ifElse_of_isUnit hp supply test h₂ hy
  | false =>
    cases hn : no.tree.isUnit with
    | true => exact works_ifElse_of_isUnit_right hp supply test h₁ hy hn
    | false => exact works_ifElse_of_two hp supply test h₁ h₂ hy hn

end

/-- A guarded body falls into its handler, unless it is left by a jump. -/
theorem works_tryCatch (hp : pool.Coherent) (supply : UInt32) (caught : Option BinaryName)
    (h₁ : body.Works m pool labels code) (h₂ : handler.Works m pool labels code) :
    (tryCatch supply body caught handler).Works m pool labels code := by
  intro outer n s h
  obtain ⟨g, shape, exits⟩ := Tree.exists_tryCatch body.tree handler.tree caught supply
  simp only [tree, shape, Tree.steps, List.append_assoc, List.cons_append, along_append, Along,
    reach_append, reach, Step.size, Nat.add_zero] at h ⊢
  obtain ⟨_, _, guarded, _, _, exit, _, caught, after, _⟩ := h
  rw [passes, ← exits]
  cases leaves : g.exit with
  | none =>
    simp only [leaves, Option.map_none, Option.toList_none, reach, Option.isNone_none,
      if_true] at caught ⊢
    exact (h₁ outer n s guarded).andThen (fun t => h₂ outer _ t caught) (le_reach pool _ _)
  | some source =>
    simp only [leaves, Option.map_some, Option.toList_some, Along, reach, Step.size,
      Option.isNone_some, Bool.false_eq_true, if_false] at exit after ⊢
    exact (h₁ outer n s guarded).leave hp exit.1 (after.stands.spot_eq rfl)
      ((Nat.le_add_right _ 3).trans (le_reach pool _ _))

theorem works (hp : pool.Coherent) (p : Plan) : p.Works m pool labels code := by
  induction p with
  | unit => exact fun outer n s h => .still n s
  | leaf type l => exact works_leaf hp type l
  | andThen first second ih₁ ih₂ => exact works_andThen ih₁ ih₂
  | declare p type ih => exact ih
  | atLine p number ih => exact works_atLine number ih
  | ifElse supply test yes no ih₁ ih₂ => exact works_ifElse hp supply test ih₁ ih₂
  | forever supply => exact works_forever hp supply
  | tryCatch supply body caught handler ih₁ ih₂ => exact works_tryCatch hp supply caught ih₁ ih₂

end Plan

namespace Machine

/-- Run from their start, the bytes run these instructions, and no others however long it takes. -/
def Performs (m : Machine σ) (pool : Pool) (code : Octets) (s : σ) (trace : List Leaf) : Prop :=
  ∃ enough, ∀ n ≥ enough, (m.exec pool code n (.running 0 s)).1 = trace

def Finishes (m : Machine σ) (pool : Pool) (code : Octets) (s : σ) : Prop :=
  ∃ n t, (m.exec pool code n (.running 0 s)).2 = .running code.length t

theorem step_end (m : Machine σ) (pool : Pool) (code : Octets) (s : σ) :
    m.step pool code (.running code.length s) = ([], .running code.length s) := by
  rw [step, List.drop_length]
  rfl

theorem exec_of_reaches {c c' : Control σ} {trace : List Leaf}
    (reaches : m.Reaches pool code c trace c') (stays : m.step pool code c' = ([], c')) :
    ∃ enough, ∀ n ≥ enough, m.exec pool code n c = (trace, c') := by
  obtain ⟨enough, reaches⟩ := reaches
  refine ⟨enough, fun n le => ?_⟩
  obtain ⟨more, rfl⟩ := Nat.exists_eq_add_of_le le
  rw [exec_add, reaches, exec_of_stays stays, List.append_nil]

end Machine

def Faithful (m : Machine σ) (pool : Pool) (code : Octets) (s : σ) (r : Run σ) : Prop :=
  m.Performs pool code s r.trace ∧ (m.Finishes pool code s ↔ r.ending = .done)

theorem Lands.exists_rest (h : Lands m pool code 0 code.length s r) :
    ∃ c, m.Reaches pool code (.running 0 s) r.trace c ∧ m.step pool code c = ([], c) ∧
      ((∃ t, c = .running code.length t) ↔ r.ending = .done) := by
  obtain ⟨trace, t, ending⟩ := r
  cases ending with
  | done => exact ⟨_, h, m.step_end pool code t, by simp⟩
  | halted => exact ⟨_, h, rfl, by simp⟩
  | looping =>
    obtain ⟨pc, before, reaches, stays⟩ := h
    exact ⟨_, reaches, stays, by simp [before.ne]⟩

theorem Lands.faithful (h : Lands m pool code 0 code.length s r) : Faithful m pool code s r := by
  obtain ⟨c, reaches, stays, atEnd⟩ := h.exists_rest
  obtain ⟨enough, runs⟩ := Machine.exec_of_reaches reaches stays
  refine ⟨⟨enough, fun n le => by rw [runs n le]⟩, ?_⟩
  rw [← atEnd]
  constructor
  · rintro ⟨n, t, gets⟩
    -- At the end of the bytes control stays, so that it is still there when all is run.
    have later := runs (n + enough) (Nat.le_add_left _ _)
    rw [Machine.exec_add, gets, Machine.exec_of_stays (m.step_end pool code t)] at later
    exact ⟨t, (congrArg Prod.snd later).symm⟩
  · rintro ⟨t, rfl⟩
    exact ⟨enough, t, by rw [runs enough le_rfl]⟩

theorem Faithful.iff_agrees {r' : Run σ} (h : Faithful m pool code s r) :
    Faithful m pool code s r' ↔ r.trace = r'.trace ∧ (r.ending = .done ↔ r'.ending = .done) := by
  obtain ⟨⟨enough, runs⟩, finishes⟩ := h
  constructor
  · rintro ⟨⟨enough', runs'⟩, finishes'⟩
    refine ⟨?_, finishes.symm.trans finishes'⟩
    rw [← runs (max enough enough') (le_max_left _ _), runs' _ (le_max_right _ _)]
  · rintro ⟨same, ending⟩
    exact ⟨⟨enough, same ▸ runs⟩, finishes.trans ending⟩

theorem Layout.laid_of_runs {t : Tree} {method : String} {start first mid final : Pool}
    {estimated settled layout : Layout}
    (one : run .estimate .empty t start = .ok estimated first)
    (two : run (.settle method) estimated.labels t first = .ok settled mid)
    (three : run .emit settled.labels t mid = .ok layout final) :
    layout.Laid t final ∧ start.Grows final := by
  have grown₁ : start.Grows first := by
    have grown := grows_run .estimate .empty t start
    rwa [one] at grown
  have grown₂ : first.Grows mid := by
    have grown := grows_run (.settle method) estimated.labels t first
    rwa [two] at grown
  obtain ⟨_, h⟩ := run_estimate one
  obtain ⟨emitted, emits, _, laid⟩ := run_emit h (settled_of_run h two) grown₂.extends
  rw [three] at emits
  cases emits
  exact ⟨laid, grown₁.trans grown₂⟩

theorem Plan.lands_of_laid {p : Plan} {layout : Layout} (hp : pool.Coherent)
    (laid : layout.Laid p.tree pool) (m : Machine σ) (s : σ) :
    Lands m pool layout.code.toList 0 layout.code.toList.length s (p.passes m s) := by
  have ending : layout.code.toList.length = reach pool 0 (p.tree.steps none) := by
    rw [laid.code, ← flatMap_octets_length layout.labels 0, Nat.zero_add]
  rw [ending]
  exact p.works hp none 0 s laid.inscribed

namespace Plan

/-- Code of a plan that was laid out, in any pool that grew out of its own. On every machine it does
what is told of it, arms and guarded bodies that fall through included. It is true to the structure of
the plan exactly where that comes to the same, and so it is if no jump is left out after a part that
may be left at its end. -/
theorem code_faithful_iff (p : Plan) (method : String) (start first mid final later : Pool)
    (estimated settled layout : Layout) (made : start.Made)
    (one : Layout.run .estimate .empty p.tree start = .ok estimated first)
    (two : Layout.run (.settle method) estimated.labels p.tree first = .ok settled mid)
    (three : Layout.run .emit settled.labels p.tree mid = .ok layout final)
    (grown : final.Grows later) (m : Machine σ) (s : σ) :
    Lands m later layout.code.toList 0 layout.code.toList.length s (p.passes m s) ∧
      (Faithful m later layout.code.toList s (p.means m s) ↔
        (p.passes m s).trace = (p.means m s).trace ∧
          ((p.passes m s).ending = .done ↔ (p.means m s).ending = .done)) ∧
      (p.honest → Faithful m later layout.code.toList s (p.means m s)) := by
  obtain ⟨laid, filled⟩ := Layout.laid_of_runs one two three
  have hp : later.Coherent := Pool.Made.coherent ((made.trans filled).trans grown)
  have lands := lands_of_laid hp (laid.mono grown.extends) m s
  refine ⟨lands, lands.faithful.iff_agrees, fun honest => ?_⟩
  rw [← passes_eq_means m honest]
  exact lands.faithful

/-- An endless loop if the test fails, and a guarded return if it holds. Neither is left by a jump. -/
def careful : Plan :=
  andThen (leaf .int (.simple .iconst1))
    (ifElse 7 (.zero .eq) (tryCatch 2 (leaf .void (.simple .returnVoid)) none
      (leaf .void (.simple .pop))) (forever 0))

theorem code_faithful_iff_careful : ∃ first mid final estimated settled layout,
    Layout.run .estimate .empty careful.tree .empty = .ok estimated first ∧
    Layout.run (.settle "f") estimated.labels careful.tree first = .ok settled mid ∧
    Layout.run .emit settled.labels careful.tree mid = .ok layout final ∧
    ∀ (σ : Type) (m : Machine σ) (s : σ),
      Lands m final layout.code.toList 0 layout.code.toList.length s (careful.passes m s) ∧
        Faithful m final layout.code.toList s (careful.means m s) := by
  obtain ⟨first, mid, final, estimated, settled, layout, one, two, three⟩ :
      ∃ first mid final estimated settled layout,
        Layout.run .estimate .empty careful.tree .empty = .ok estimated first ∧
        Layout.run (.settle "f") estimated.labels careful.tree first = .ok settled mid ∧
        Layout.run .emit settled.labels careful.tree mid = .ok layout final :=
    ⟨_, _, _, _, _, _, by cbv, by cbv, by cbv⟩
  refine ⟨first, mid, final, estimated, settled, layout, one, two, three, fun σ m s => ?_⟩
  obtain ⟨lands, _, faithful⟩ :=
    code_faithful_iff careful "f" .empty first mid final final estimated settled layout .refl one two
      three .refl m s
  exact ⟨lands, faithful (by decide)⟩

end Plan

def Machine.alternating : Machine Bool where
  effect _ s := s
  test t s := ((t.opcode % 2 == 1) != s, !s)
  negated t s := by
    have flips : (t.negate.opcode % 2 == 1) = !(t.opcode % 2 == 1) := by
      cases t with
      | zero t | ints t | refs t | null t => cases t <;> decide
    simp [flips]

namespace Plan

/-- A branch within the arm of another. The inner one may be left at its end. -/
def leaking : Plan :=
  ifElse 4 (.zero .eq) (leaf .int (.simple .iconst1))
    (ifElse 0 (.zero .ne) (leaf .void (.simple .returnVoid)) (leaf .int (.simple .iconst2)))

/-- Control falls from the arm of the outer branch into the other. -/
theorem not_faithful_leaking : ∃ first mid final estimated settled layout,
    Layout.run .estimate .empty leaking.tree .empty = .ok estimated first ∧
    Layout.run (.settle "f") estimated.labels leaking.tree first = .ok settled mid ∧
    Layout.run .emit settled.labels leaking.tree mid = .ok layout final ∧
    ¬ Faithful .alternating final layout.code.toList true (leaking.means .alternating true) := by
  obtain ⟨first, mid, final, estimated, settled, layout, one, two, three⟩ :
      ∃ first mid final estimated settled layout,
        Layout.run .estimate .empty leaking.tree .empty = .ok estimated first ∧
        Layout.run (.settle "f") estimated.labels leaking.tree first = .ok settled mid ∧
        Layout.run .emit settled.labels leaking.tree mid = .ok layout final :=
    ⟨_, _, _, _, _, _, by cbv, by cbv, by cbv⟩
  refine ⟨first, mid, final, estimated, settled, layout, one, two, three, fun faithful => ?_⟩
  obtain ⟨laid, filled⟩ := Layout.laid_of_runs one two three
  have lands := lands_of_laid (Pool.Made.coherent filled) laid .alternating true
  have same := (lands.faithful.iff_agrees.mp faithful).1
  have passed : (leaking.passes .alternating true).trace = [.simple .iconst2, .simple .iconst1] := by
    decide
  have meant : (leaking.means .alternating true).trace = [.simple .iconst2] := by decide
  rw [passed, meant] at same
  cases same

end Plan

end Bytecode
