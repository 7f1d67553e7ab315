import Bytecode.Proofs.Plans
import Bytecode.Proofs.Agreement

/-! The labels that a call takes from the supply. It places each of them once in the tree that it
makes, and besides them what its parts place. Branches and guarded regions refer to no others. -/
namespace Bytecode

namespace Tree

@[simp] def refers : Tree → List Label
  | branch _ _ start target stop _ _ => [start, target, stop]
  | guarded _ g _ _ _ => [g.start, g.stop, g.handler, g.after] ++ g.exit.toList
  | _ => []

@[simp] def parts : Tree → List Tree
  | unit => [unit]
  | leaf o l => [leaf o l]
  | label o l => [label o l]
  | branch o test start target stop first second =>
    branch o test start target stop first second :: first.parts ++ second.parts
  | goto o source target => [goto o source target]
  | seq o first second => seq o first second :: first.parts ++ second.parts
  | retype o inner => retype o inner :: inner.parts
  | guarded o g caught body handler => guarded o g caught body handler :: body.parts ++ handler.parts
  | line o number body => line o number body :: body.parts

/-- Each branch and each guarded region places all labels that it refers to. -/
def Closed (t : Tree) : Prop := ∀ part ∈ t.parts, ∀ l ∈ part.refers, l ∈ part.placed

section

variable {o : Outcome} {a b : Tree}

theorem closed_unit : unit.Closed := by simp [Closed]

theorem closed_leaf {l : Leaf} : (leaf o l).Closed := by simp [Closed]

theorem closed_label {l : Label} : (label o l).Closed := by simp [Closed]

theorem closed_goto {source target : Label} : (goto o source target).Closed := by
  simp [Closed]

theorem closed_retype : (retype o a).Closed ↔ a.Closed := by simp [Closed]

theorem closed_line {number : UInt16} : (line o number a).Closed ↔ a.Closed := by
  simp [Closed]

theorem closed_seq : (seq o a b).Closed ↔ a.Closed ∧ b.Closed := by
  simp [Closed, or_imp, forall_and]

/-- Of the labels of a branch only the target may be placed elsewhere. -/
theorem closed_branch {test : Test} {start target stop : Label} :
    (branch o test start target stop a b).Closed ↔
      target ∈ (branch o test start target stop a b).placed ∧ a.Closed ∧ b.Closed := by
  simp [Closed, placed, or_imp, forall_and]

theorem closed_guarded {g : Guard} {caught : Option BinaryName} :
    (guarded o g caught a b).Closed ↔ a.Closed ∧ b.Closed := by
  cases h : g.exit <;> simp [Closed, placed, or_imp, forall_and, h]

end

section

variable (a b : Tree)

theorem placed_andThen : (a.andThen b).placed = a.placed ++ if a.back then [] else b.placed := by
  rw [← filterMap_placed? _ none, steps_andThen, List.filterMap_append, filterMap_placed?]
  split
  · rfl
  · rw [filterMap_placed?]

theorem jumps_andThen : (a.andThen b).jumps = a.jumps ++ if a.back then [] else b.jumps := by
  rw [← filterMap_jump? _ none, steps_andThen, List.filterMap_append, filterMap_jump?]
  split
  · rfl
  · rw [filterMap_jump?]

theorem Closed.andThen {a b : Tree} (ha : a.Closed) (hb : b.Closed) : (a.andThen b).Closed := by
  unfold Tree.andThen
  split_ifs
  · exact hb
  · exact ha
  · exact closed_seq.mpr ⟨ha, hb⟩

theorem pop_plain (type : ResultType) :
    (pop type).placed = [] ∧ (pop type).jumps = [] ∧ (pop type).Closed ∧ (pop type).back = false := by
  unfold pop
  split
  · exact ⟨rfl, rfl, closed_unit, rfl⟩
  · exact ⟨rfl, rfl, closed_leaf, rfl⟩
  · exact ⟨rfl, rfl, closed_leaf, rfl⟩

/-- A tree that is run for its effects is the tree with something to drop its value, or a load that is
left out. -/
theorem drop_cases (t : Tree) :
    (∃ o l, t = leaf o l ∧ t.drop = unit) ∨ t.drop = t.andThen (pop t.type) := by
  unfold drop
  split
  · exact .inl ⟨_, _, rfl, rfl⟩
  · exact .inr rfl

theorem ends_drop_of_back {t : Tree} (h : t.drop.back) (flow : t.back → t.ends) : t.drop.ends := by
  rcases t.drop_cases with ⟨o, l, _, dropped⟩ | dropped
  · rw [dropped] at h
    cases h
  · rw [dropped] at h ⊢
    exact ends_andThen_of_back h flow (by simp [pop_plain])

end

/-- The labels from one number up to another, round the end of the numbers if that is on the way. -/
def labelsFrom (n m : UInt32) : List Label :=
  (List.range (m - n).toNat).map fun i => ⟨n + .ofNat i⟩

theorem mem_labelsFrom {n m : UInt32} {l : Label} : l ∈ labelsFrom n m ↔ l.id - n < m - n := by
  obtain ⟨id⟩ := l
  simp only [labelsFrom, List.mem_map, List.mem_range, Label.mk.injEq, UInt32.lt_iff_toNat_lt]
  constructor
  · rintro ⟨i, below, rfl⟩
    rw [add_sub_cancel_left, UInt32.toNat_ofNat_of_lt' (below.trans (m - n).toNat_lt)]
    exact below
  · intro below
    exact ⟨(id - n).toNat, below, by rw [UInt32.ofNat_toNat, add_sub_cancel]⟩

theorem perm_labelsFrom (n : UInt32) (k : Nat) {own : List Label} (small : k < 2 ^ 32)
    (same : own = (List.range k).map fun i => ⟨n + .ofNat i⟩) :
    own.Perm (labelsFrom n (n + .ofNat k)) := by
  rw [labelsFrom, add_sub_cancel_left, UInt32.toNat_ofNat_of_lt' small, same]

theorem nodup_labelsFrom (n m : UInt32) : (labelsFrom n m).Nodup := by
  refine List.Nodup.map_on (fun i first j second same => ?_) List.nodup_range
  have first := (List.mem_range.mp first).trans (m - n).toNat_lt
  have second := (List.mem_range.mp second).trans (m - n).toNat_lt
  have same := congrArg UInt32.toNat (add_left_cancel (congrArg Label.id same))
  rwa [UInt32.toNat_ofNat_of_lt' first, UInt32.toNat_ofNat_of_lt' second] at same

/-- What a call does with the labels that it takes, of which the first has the number given: it places
each of them, and besides them what the parts place. -/
structure Takes (parts : List Tree) (aims : List Label) (n : UInt32) (made : Tree × UInt32) :
    Prop where
  takes : made.2 ≠ n
  placed : made.1.placed.Perm (labelsFrom n made.2 ++ parts.flatMap placed)
  flow : made.1.back → made.1.ends
  jumps : ∀ j ∈ made.1.jumps, j.2 ∈ made.1.placed ∨ j.2 ∈ aims ∨ ∃ t ∈ parts, j ∈ t.jumps
  closed : (∀ t ∈ parts, t.Closed) → made.1.Closed

theorem Takes.first_mem {parts : List Tree} {aims : List Label} {n : UInt32} {made : Tree × UInt32}
    (h : Takes parts aims n made) : ⟨n⟩ ∈ labelsFrom n made.2 := by
  rw [mem_labelsFrom, sub_self]
  exact UInt32.pos_iff_ne_zero.mpr (sub_ne_zero.mpr h.takes)

section

variable (n : UInt32) (target : Label) (test : Test) (yes no body handler : Tree)
  (caught : Option BinaryName)

theorem takes_goto {o : Outcome} (flow : o.back → o.ends) :
    Takes [] [target] n (goto o ⟨n⟩ target, n + 1) where
  takes := by simp
  placed := by
    rw [List.flatMap_nil, List.append_nil]
    exact perm_labelsFrom n 1 (by decide) (by simp [Tree.placed])
  flow := flow
  jumps := by simp [Tree.jumps]
  closed _ := closed_goto

theorem takes_jump : Takes [] [target] n (jump target n) := takes_goto n target nofun

theorem takes_jumpBack : Takes [] [target] n (jumpBack target n) := takes_goto n target fun _ => rfl

theorem takes_forever : Takes [] [] n (forever n) where
  takes := by
    show n + 1 + 1 ≠ n
    simp [add_assoc]
  placed := by
    show [(⟨n⟩ : Label), ⟨n + 1⟩].Perm (labelsFrom n (n + 1 + 1) ++ [])
    rw [List.append_nil, add_assoc]
    exact perm_labelsFrom n 2 (by decide) (by simp [List.range_succ])
  flow _ := rfl
  jumps := by
    show ∀ j ∈ [((⟨n + 1⟩ : Label), (⟨n⟩ : Label))], j.2 ∈ [(⟨n⟩ : Label), ⟨n + 1⟩] ∨ _
    simp
  closed _ := closed_seq.mpr ⟨closed_label, closed_goto⟩

/-- A branch that goes to its end or to a label in it, with labels of its own in its arms. -/
theorem takes_joined {parts : List Tree} {start target stop : Label} {first second : Tree}
    {m : UInt32} (own : List Label) (takes : m ≠ n)
    (labels : (start :: stop :: own).Perm (labelsFrom n m))
    (inner : (first.placed ++ second.placed).Perm (own ++ parts.flatMap placed))
    (aim : target = stop ∨ target ∈ second.placed)
    (jumps : ∀ j, j ∈ first.jumps ∨ j ∈ second.jumps → j.2 = stop ∨ ∃ t ∈ parts, j ∈ t.jumps)
    (closed : (∀ t ∈ parts, t.Closed) → first.Closed ∧ second.Closed) :
    Takes parts [] n (joined test start target stop first second, m) := by
  have here : stop ∈ (joined test start target stop first second).placed := by
    simp [joined, placed]
  have there : target ∈ (joined test start target stop first second).placed := by
    rcases aim with same | inside
    · exact same ▸ here
    · simp [joined, placed, inside]
  refine ⟨takes, ?_, fun back => ?_, fun j member => ?_,
    fun h => closed_branch.mpr ⟨there, closed h⟩⟩
  · refine List.perm_iff_count.mpr fun l => ?_
    have outer := labels.count_eq l
    have inner := inner.count_eq l
    simp only [List.count_cons, List.count_append] at outer inner
    simp only [joined, placed, List.cons_append, List.append_assoc, List.count_cons,
      List.count_append, List.count_nil]
    omega
  · cases back
  · simp only [joined, Tree.jumps, List.cons_append, List.mem_cons, List.mem_append] at member
    rcases member with rfl | member
    · exact .inl there
    · rcases jumps j member with same | old
      · exact .inl (same ▸ here)
      · exact .inr (.inr old)

theorem takes_oneArm {arm : Tree} (parts : List Tree) (same : parts.flatMap placed = arm.placed)
    (member : arm ∈ parts) :
    Takes parts [] n (joined test ⟨n⟩ ⟨n + 1⟩ ⟨n + 1⟩ arm unit, n + 2) := by
  refine takes_joined n test [] (by simp)
    (perm_labelsFrom n 2 (by decide) (by simp [List.range_succ])) ?_ (.inl rfl) ?_
    fun h => ⟨h arm member, closed_unit⟩
  · rw [same, placed, List.append_nil]
    exact .refl _
  · rintro j (inside | inside)
    · exact .inr ⟨arm, member, inside⟩
    · cases inside

/-- The arm that comes first may be followed by a jump over the other. -/
theorem takes_twoArms {first : Tree} {m : UInt32} (skip : List Label) (takes : m ≠ n)
    (labels : (⟨n⟩ :: ⟨n + 1⟩ :: ⟨n + 2⟩ :: skip).Perm (labelsFrom n m))
    (inner : first.placed = no.placed ++ skip)
    (jumps : ∀ j ∈ first.jumps, j.2 = ⟨n + 1⟩ ∨ j ∈ no.jumps) (closed : no.Closed → first.Closed) :
    Takes [yes, no] [] n
      (joined test ⟨n⟩ ⟨n + 2⟩ ⟨n + 1⟩ first ((place ⟨n + 2⟩).andThen yes), m) := by
  have second : ((place ⟨n + 2⟩).andThen yes).placed = ⟨n + 2⟩ :: yes.placed := placed_andThen _ _
  have onward : ((place ⟨n + 2⟩).andThen yes).jumps = yes.jumps := jumps_andThen _ _
  refine takes_joined n test (⟨n + 2⟩ :: skip) takes labels ?_ (.inr (by simp [second])) ?_
    fun h => ?_
  · refine List.perm_iff_count.mpr fun l => ?_
    simp only [second, inner, List.flatMap_cons, List.flatMap_nil, List.append_nil,
      List.cons_append, List.count_cons, List.count_append]
    omega
  · rintro j (inside | inside)
    · exact (jumps j inside).imp_right fun old => ⟨no, by simp, old⟩
    · exact .inr ⟨yes, by simp, onward ▸ inside⟩
  · exact ⟨closed (h no (by simp)), closed_label.andThen (h yes (by simp))⟩

theorem takes_ifElse (flow : no.back → no.ends) :
    Takes [yes, no] [] n (ifElse test yes no n) := by
  cases hy : yes.isUnit with
  | true =>
    have made : ifElse test yes no n = (joined test ⟨n⟩ ⟨n + 1⟩ ⟨n + 1⟩ no unit, n + 2) :=
      Prod.ext (ifElse_of_isUnit test n no hy)
        (by simp [ifElse, hy, fresh, bind, StateT.bind, pure, StateT.pure, add_assoc])
    rw [made]
    exact takes_oneArm n test _ (by simp [isUnit_iff.mp hy, placed]) (by simp)
  | false =>
    cases hn : no.isUnit with
    | true =>
      have made : ifElse test yes no n = (joined test.negate ⟨n⟩ ⟨n + 1⟩ ⟨n + 1⟩ yes unit, n + 2) :=
        Prod.ext (ifElse_of_isUnit_right test n hy hn)
          (by simp [ifElse, hy, hn, fresh, bind, StateT.bind, pure, StateT.pure, add_assoc])
      rw [made]
      exact takes_oneArm n _ _ (by simp [isUnit_iff.mp hn, placed]) (by simp)
    | false =>
      have tree := ifElse_of_two test n hy hn
      cases leaves : no.ends with
      | true =>
        rw [leaves, if_pos rfl] at tree
        have next : (ifElse test yes no n).2 = n + 3 := by
          simp [ifElse, hy, hn, leaves, fresh, bind, StateT.bind, pure, StateT.pure, add_assoc]
        rw [← Prod.mk.eta (p := ifElse test yes no n), tree, next]
        exact takes_twoArms n test yes no [] (by simp)
          (perm_labelsFrom n 3 (by decide) (by simp [List.range_succ])) (by simp)
          (fun j inside => .inr inside) id
      | false =>
        have ahead : no.back = false := by
          rw [← Bool.not_eq_true]
          exact fun back => by simp [flow back] at leaves
        rw [leaves, if_neg Bool.false_ne_true] at tree
        have next : (ifElse test yes no n).2 = n + 4 := by
          simp [ifElse, hy, hn, leaves, jump, fresh, bind, StateT.bind, pure, StateT.pure, add_assoc]
        rw [← Prod.mk.eta (p := ifElse test yes no n), tree, next]
        refine takes_twoArms n test yes no [⟨n + 3⟩] (by simp)
          (perm_labelsFrom n 4 (by decide) (by simp [List.range_succ])) ?_ ?_ (·.andThen closed_goto)
        · rw [placed_andThen, ahead]
          rfl
        · intro j inside
          rw [jumps_andThen, ahead] at inside
          rcases List.mem_append.mp inside with inside | inside
          · exact .inr inside
          · exact .inl (congrArg Prod.snd (List.mem_singleton.mp inside))

theorem takes_ifOnly : Takes [yes] [] n (ifOnly test yes n) := by
  obtain ⟨takes, placed, flow, jumps, closed⟩ := takes_ifElse n test yes unit nofun
  refine ⟨takes, ?_, flow, fun j member => ?_, fun h => closed fun t member => ?_⟩
  · simpa [Tree.placed, ifOnly] using placed
  · simpa [Tree.jumps, ifOnly] using jumps j member
  · rcases List.mem_pair.mp member with rfl | rfl
    · exact h t (by simp)
    · exact closed_unit

theorem takes_guarded {o : Outcome} {g : Guard} {m : UInt32} (takes : m ≠ n) (ahead : o.back = false)
    (labels : ([g.start, g.stop] ++ g.exit.toList ++ [g.handler, g.after]).Perm (labelsFrom n m)) :
    Takes [body, handler] [] n (guarded o g caught body handler, m) where
  takes := takes
  placed := by
    refine List.perm_iff_count.mpr fun l => ?_
    have same := labels.count_eq l
    simp only [List.cons_append, List.nil_append, List.count_cons, List.count_append,
      List.count_nil] at same
    simp only [Tree.placed, List.flatMap_cons, List.flatMap_nil, List.append_nil, List.cons_append,
      List.append_assoc, List.count_cons, List.count_append, List.count_nil, ← same]
    omega
  flow back := absurd back (by simp [Tree.back, outcome, ahead])
  jumps j member := by
    have after : g.after ∈ (guarded o g caught body handler).placed := by simp [Tree.placed]
    simp only [Tree.jumps, List.append_assoc, List.mem_append, Option.mem_toList,
      Option.map_eq_some_iff] at member
    rcases member with inside | ⟨_, _, rfl⟩ | inside
    · exact .inr (.inr ⟨body, by simp, inside⟩)
    · exact .inl after
    · exact .inr (.inr ⟨handler, by simp, inside⟩)
  closed h := closed_guarded.mpr ⟨h body (by simp), h handler (by simp)⟩

theorem takes_tryCatch : Takes [body, handler] [] n (tryCatch body caught handler n) := by
  cases leaves : body.ends with
  | true =>
    have made : tryCatch body caught handler n = (guarded ⟨body.type, false, handler.ends⟩
        ⟨⟨n⟩, ⟨n + 1⟩, none, ⟨n + 2⟩, ⟨n + 3⟩⟩ caught body handler, n + 4) := by
      simp [tryCatch, leaves, fresh, bind, StateT.bind, pure, StateT.pure, add_assoc]
    rw [made]
    exact takes_guarded n body handler caught (by simp) rfl
      (perm_labelsFrom n 4 (by decide) (by simp [List.range_succ]))
  | false =>
    have made : tryCatch body caught handler n = (guarded ⟨body.type, false, false⟩
        ⟨⟨n⟩, ⟨n + 1⟩, some ⟨n + 2⟩, ⟨n + 3⟩, ⟨n + 4⟩⟩ caught body handler, n + 5) := by
      simp [tryCatch, leaves, fresh, bind, StateT.bind, pure, StateT.pure, Functor.map, StateT.map,
        add_assoc]
    rw [made]
    exact takes_guarded n body handler caught (by simp) rfl
      (perm_labelsFrom n 5 (by decide) (by simp [List.range_succ]))

end

end Tree

end Bytecode
