import Bytecode.Proofs.Supply

/-! Sequencing as a monoid. The empty tree is neutral. Two ways of putting parts together may give
different trees, but what is known of them from outside is the same, and so is every walk: what is
left out after a jump backward does not depend on how the parts are bracketed. -/
namespace Bytecode.Tree

/-- The trees that can be made, with labels from any supply. All other ways to make a tree are put
together from these: a pair of statements and a value, a loop around nothing, a branch with one arm,
a comment, the reading of an element or of a field, and the instructions that are chosen by a type. -/
inductive Obtained : Tree → Prop where
  | unit : Obtained unit
  | simple (i : Simple) : Obtained (simple i)
  | int (value : Int32) : Obtained (int value)
  | long (value : Int64) : Obtained (long value)
  | float (bits : UInt32) : Obtained (float bits)
  | double (bits : UInt64) : Obtained (double bits)
  | string (text : String) : Obtained (string text)
  | classOf (r : RefType) : Obtained (classOf r)
  | var (op : LocalOp) (index : UInt16) (type : ResultType) : Obtained (var op index type)
  | new (name : BinaryName) : Obtained (new name)
  | newObjects (element : RefType) : Obtained (newObjects element)
  | newArray (p : Prim) : Obtained (newArray p)
  | cast (r : RefType) : Obtained (cast r)
  | instanceOf (r : RefType) : Obtained (instanceOf r)
  | field (op : FieldOp) (owner : BinaryName) (name : MemberName) (t : FieldType) :
    Obtained (field op owner name t)
  | invoke (kind : InvokeKind) (owner : RefType) (name : MemberName) (s : Signature) :
    Obtained (invoke kind owner name s)
  | place (l : Label) : Obtained (place l)
  | andThen {a b : Tree} : Obtained a → Obtained b → Obtained (a.andThen b)
  | declare {t : Tree} (type : ResultType) : Obtained t → Obtained (t.declare type)
  | drop {t : Tree} : Obtained t → Obtained t.drop
  | atLine {t : Tree} (number : UInt16) : Obtained t → Obtained (t.atLine number)
  | jump (target : Label) (supply : UInt32) : Obtained (jump target supply).1
  | jumpBack (target : Label) (supply : UInt32) : Obtained (jumpBack target supply).1
  | ifElse {yes no : Tree} (test : Test) (supply : UInt32) : Obtained yes → Obtained no →
    Obtained (ifElse test yes no supply).1
  | tryCatch {body handler : Tree} (caught : Option BinaryName) (supply : UInt32) : Obtained body →
    Obtained handler → Obtained (tryCatch body caught handler supply).1

theorem back_simple (i : Simple) : (simple i).back = false := rfl

theorem back_push (c : Loadable) (type : ResultType) : (push c type).back = false := rfl

/-- A jump backward is the last thing that a tree does. -/
theorem Obtained.flow {t : Tree} (obtained : t.Obtained) : t.back → t.ends := by
  induction obtained with
  | int value | long value | float bits | double bits =>
    simp [Tree.int, Tree.long, Tree.float, Tree.double, apply_ite Tree.back, back_simple, back_push]
  | andThen _ _ iha ihb => exact fun h => ends_andThen_of_back h iha ihb
  | declare type _ ih => exact ih
  | drop _ ih => exact fun h => ends_drop_of_back h ih
  | atLine number _ ih => exact ih
  | jump target supply => exact (takes_jump supply target).flow
  | jumpBack target supply => exact (takes_jumpBack supply target).flow
  | ifElse test supply _ _ _ ihn => exact (takes_ifElse supply test _ _ ihn).flow
  | tryCatch caught supply => exact (takes_tryCatch supply _ _ caught).flow
  | _ => exact fun h => by cases h

structure Alike (s t : Tree) : Prop where
  outcome : s.outcome = t.outcome
  walk : ∀ (ε σ : Type) (act : Step → EStateM ε σ Unit), s.walk act = t.walk act

theorem alike_of_steps {s t : Tree} (outcome : s.outcome = t.outcome)
    (steps : s.steps none = t.steps none) : s.Alike t where
  outcome := outcome
  walk ε σ act := by rw [walk_eq_forM, walk_eq_forM, steps]

variable {a b c : Tree}

theorem unit_andThen (t : Tree) : unit.andThen t = t := rfl

theorem andThen_unit (t : Tree) : t.andThen unit = t := by
  unfold andThen
  split_ifs with empty
  · exact (isUnit_iff.mp empty).symm
  · rfl
  · contradiction

theorem andThen_of_back (back : a.back) (b : Tree) : a.andThen b = a := by
  unfold andThen
  split_ifs with empty
  · rw [isUnit_iff.mp empty] at back
    cases back
  · rfl
  · simp_all

theorem andThen_eq_seq (ha : a ≠ unit) (hb : b ≠ unit) (ahead : ¬ a.back) :
    a.andThen b = seq b.outcome a b := by
  simp [andThen, isUnit_iff, ha, hb, ahead]

/-- Both ways of bracketing leave out the same parts, so that the trees are equal, unless all three
parts are there and the first two go on. -/
theorem andThen_assoc (a b c : Tree) : (a.andThen b).andThen c = a.andThen (b.andThen c) ∨
    (a.andThen b).andThen c = seq c.outcome (seq b.outcome a b) c ∧
      a.andThen (b.andThen c) = seq c.outcome a (seq c.outcome b c) := by
  by_cases ha : a = unit
  · exact .inl (by rw [ha, unit_andThen, unit_andThen])
  by_cases hb : b = unit
  · exact .inl (by rw [hb, andThen_unit, unit_andThen])
  by_cases hc : c = unit
  · exact .inl (by rw [hc, andThen_unit, andThen_unit])
  by_cases backA : a.back
  · exact .inl (by rw [andThen_of_back backA, andThen_of_back backA, andThen_of_back backA])
  have first := andThen_eq_seq ha hb backA
  by_cases backB : b.back
  · -- The jump backward of the second part is that of the first two together.
    have both : (seq b.outcome a b).back := backB
    exact .inl (by rw [andThen_of_back backB, first, andThen_of_back both])
  · have second := andThen_eq_seq hb hc backB
    rw [first, second]
    exact .inr ⟨andThen_eq_seq (by simp) hc backB, andThen_eq_seq ha (by simp) backA⟩

theorem andThen_monoid (a b c : Tree) :
    unit.andThen a = a ∧ a.andThen unit = a ∧
      ((a.andThen b).andThen c).Alike (a.andThen (b.andThen c)) ∧
      (a.Obtained → a.back → a.ends) := by
  refine ⟨unit_andThen a, andThen_unit a, ?_, Obtained.flow⟩
  rcases andThen_assoc a b c with same | ⟨left, right⟩
  · rw [same]
    exact alike_of_steps rfl rfl
  · rw [left, right]
    exact alike_of_steps rfl (by simp [steps])

/-- What would return from a loop around nothing is left out, with the message in front of it or
after it. -/
theorem andThen_monoid_forever : (forever 0).1.Obtained ∧ (forever 0).1.back ∧
    (forever 0).1.ends ∧
    (((forever 0).1.andThen (commentAlways "never")).andThen (simple .returnVoid)).Alike
      ((forever 0).1.andThen ((commentAlways "never").andThen (simple .returnVoid))) := by
  have obtained : (forever 0).1.Obtained := .andThen (.place ⟨0⟩) (.jumpBack ⟨0⟩ 1)
  have laws := andThen_monoid (forever 0).1 (commentAlways "never") (simple .returnVoid)
  exact ⟨obtained, rfl, laws.2.2.2 obtained rfl, laws.2.2.1⟩

end Bytecode.Tree
