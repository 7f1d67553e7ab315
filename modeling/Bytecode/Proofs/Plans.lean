import Bytecode.Tree.Control
import Bytecode.Proofs.Machine

/-! What trees without labels of their own stand for. Such a tree is made by a plan: leaves one after
the other, branches, endless loops and guarded regions. A plan has a meaning by its structure, and
another by the code that its tree comes to, where the jump out of an arm or of a guarded body is left
out if that part is known not to be left at its end. The two are the same as long as what is known is
true. -/
namespace Bytecode

inductive Ending where
  | done
  | halted
  | looping
deriving DecidableEq

structure Run (σ : Type) where
  trace : List Leaf
  state : σ
  ending : Ending

namespace Run

variable {σ : Type}

def still (s : σ) : Run σ := ⟨[], s, .done⟩

def andThen (r : Run σ) (next : σ → Run σ) : Run σ :=
  match r.ending with
  | .done => ⟨r.trace ++ (next r.state).trace, (next r.state).state, (next r.state).ending⟩
  | _ => r

theorem andThen_still (r : Run σ) : r.andThen still = r := by
  obtain ⟨trace, s, ending⟩ := r
  cases ending <;> simp [andThen, still]

theorem still_andThen (s : σ) (next : σ → Run σ) : (still s).andThen next = next s := by
  simp [andThen, still]

theorem andThen_of_ne {r : Run σ} (h : r.ending ≠ .done) (next : σ → Run σ) :
    r.andThen next = r := by
  obtain ⟨trace, s, ending⟩ := r
  cases ending with
  | done => exact absurd rfl h
  | _ => rfl

theorem ending_andThen {r : Run σ} {next : σ → Run σ} (h : (r.andThen next).ending = .done) :
    r.ending = .done ∧ (next r.state).ending = .done := by
  obtain ⟨trace, s, ending⟩ := r
  cases ending with
  | done => exact ⟨rfl, h⟩
  | _ => cases h

end Run

namespace Tree

theorem isUnit_iff {t : Tree} : t.isUnit ↔ t = unit := by
  cases t <;> simp [isUnit]

theorem steps_andThen (a b : Tree) (outer : Option UInt16) :
    (a.andThen b).steps outer = a.steps outer ++ if a.back then [] else b.steps outer := by
  rw [andThen]
  split
  · rename_i empty
    simp [isUnit_iff.mp empty, steps, back, outcome, Outcome.void]
  · split
    · rename_i short
      rcases Bool.or_eq_true_iff.mp short with empty | back
      · simp [isUnit_iff.mp empty, steps]
      · simp [back]
    · rename_i long
      simp only [Bool.or_eq_true, not_or, Bool.not_eq_true] at long
      simp [steps, long.2]

theorem steps_place_andThen (l : Label) (t : Tree) (outer : Option UInt16) :
    ((place l).andThen t).steps outer = .place l :: t.steps outer := by
  rw [steps_andThen]
  rfl

theorem isUnit_andThen {a b : Tree} (h : (a.andThen b).isUnit) : a.isUnit ∧ b.isUnit := by
  rw [andThen] at h
  split at h
  · exact ⟨‹_›, h⟩
  · split at h
    · contradiction
    · cases h

theorem back_andThen {a b : Tree} (h : (a.andThen b).back) : a.back ∨ b.back := by
  rw [andThen] at h
  split at h
  · exact .inr h
  · split at h
    · exact .inl h
    · exact .inr h

theorem ends_andThen_of_back {a b : Tree} (h : (a.andThen b).back) (ha : a.back → a.ends)
    (hb : b.back → b.ends) : (a.andThen b).ends := by
  unfold andThen at *
  split_ifs at * with empty short
  · exact hb h
  · exact ha h
  · exact hb h

section

variable (test : Test) (supply : UInt32) {yes no : Tree}

theorem ifElse_of_isUnit (no : Tree) (h : yes.isUnit) :
    (ifElse test yes no supply).1 = joined test ⟨supply⟩ ⟨supply + 1⟩ ⟨supply + 1⟩ no unit := by
  simp [ifElse, h, fresh, bind, StateT.bind, pure, StateT.pure]

theorem ifElse_of_isUnit_right (hy : yes.isUnit = false) (hn : no.isUnit) :
    (ifElse test yes no supply).1 =
      joined test.negate ⟨supply⟩ ⟨supply + 1⟩ ⟨supply + 1⟩ yes unit := by
  simp [ifElse, hy, hn, fresh, bind, StateT.bind, pure, StateT.pure]

theorem ifElse_of_two (hy : yes.isUnit = false) (hn : no.isUnit = false) :
    (ifElse test yes no supply).1 = joined test ⟨supply⟩ ⟨supply + 2⟩ ⟨supply + 1⟩
      (if no.ends then no
        else no.andThen (goto ⟨.void, false, true⟩ ⟨supply + 3⟩ ⟨supply + 1⟩))
      ((place ⟨supply + 2⟩).andThen yes) := by
  cases h : no.ends <;>
    simp [ifElse, hy, hn, h, jump, fresh, bind, StateT.bind, pure, StateT.pure, add_assoc]

theorem exists_ifElse (yes no : Tree) : ∃ test' start target stop first second,
    (ifElse test yes no supply).1 = joined test' start target stop first second := by
  cases hy : yes.isUnit with
  | true => exact ⟨_, _, _, _, _, _, ifElse_of_isUnit test supply no hy⟩
  | false =>
    cases hn : no.isUnit with
    | true => exact ⟨_, _, _, _, _, _, ifElse_of_isUnit_right test supply hy hn⟩
    | false => exact ⟨_, _, _, _, _, _, ifElse_of_two test supply hy hn⟩

theorem isUnit_ifElse (yes no : Tree) : (ifElse test yes no supply).1.isUnit = false := by
  obtain ⟨_, _, _, _, _, _, shape⟩ := exists_ifElse test supply yes no
  rw [shape]
  rfl

theorem back_ifElse (yes no : Tree) : (ifElse test yes no supply).1.back = false := by
  obtain ⟨_, _, _, _, _, _, shape⟩ := exists_ifElse test supply yes no
  rw [shape]
  rfl

end

section

variable (body handler : Tree) (caught : Option BinaryName) (supply : UInt32)

theorem exists_tryCatch : ∃ g : Guard, (tryCatch body caught handler supply).1 =
    guarded ⟨body.type, false, body.ends && handler.ends⟩ g caught body handler ∧
      g.exit.isNone = body.ends := by
  cases h : body.ends <;>
    simp [tryCatch, h, fresh, bind, StateT.bind, pure, StateT.pure, Functor.map, StateT.map]

theorem isUnit_tryCatch : (tryCatch body caught handler supply).1.isUnit = false := by
  obtain ⟨g, shape, _⟩ := exists_tryCatch body handler caught supply
  rw [shape]
  rfl

theorem back_tryCatch : (tryCatch body caught handler supply).1.back = false := by
  obtain ⟨g, shape, _⟩ := exists_tryCatch body handler caught supply
  rw [shape]
  rfl

end

end Tree

/-- How a tree without labels of its own is made. A plan that needs labels takes them from a supply
that starts at the number given. -/
inductive Plan where
  | unit
  | leaf (type : ResultType) (l : Leaf)
  | andThen (first second : Plan)
  | declare (p : Plan) (type : ResultType)
  | atLine (p : Plan) (number : UInt16)
  | ifElse (supply : UInt32) (test : Test) (yes no : Plan)
  | forever (supply : UInt32)
  | tryCatch (supply : UInt32) (body : Plan) (caught : Option BinaryName) (handler : Plan)

namespace Plan

variable {σ : Type}

def tree : Plan → Tree
  | unit => .unit
  | leaf type l => .leaf ⟨type, false, l.halts⟩ l
  | andThen first second => first.tree.andThen second.tree
  | declare p type => p.tree.declare type
  | atLine p number => p.tree.atLine number
  | ifElse supply test yes no => (Tree.ifElse test yes.tree no.tree supply).1
  | forever supply => (Tree.forever supply).1
  | tryCatch supply body caught handler => (Tree.tryCatch body.tree caught handler.tree supply).1

/-- The meaning of a plan by its structure, when nothing is thrown. -/
def means (m : Machine σ) : Plan → σ → Run σ
  | unit, s => .still s
  | leaf _ l, s => ⟨[l], m.effect l s, if l.halts then .halted else .done⟩
  | andThen first second, s => (means m first s).andThen (means m second)
  | declare p _, s => means m p s
  | atLine p _, s => means m p s
  | ifElse _ test yes no, s =>
    if (m.test test s).1 then means m yes (m.test test s).2 else means m no (m.test test s).2
  | forever _, s => ⟨[], s, .looping⟩
  | tryCatch _ body _ _, s => means m body s

/-- What the code of a plan does. Where the jump out of a part is left out, control falls into what
stands after the part. -/
def passes (m : Machine σ) : Plan → σ → Run σ
  | unit, s => .still s
  | leaf _ l, s => ⟨[l], m.effect l s, if l.halts then .halted else .done⟩
  | andThen first second, s => (passes m first s).andThen (passes m second)
  | declare p _, s => passes m p s
  | atLine p _, s => passes m p s
  | ifElse _ test yes no, s =>
    if (m.test test s).1 then passes m yes (m.test test s).2
    else if no.tree.ends then (passes m no (m.test test s).2).andThen (passes m yes)
    else passes m no (m.test test s).2
  | forever _, s => ⟨[], s, .looping⟩
  | tryCatch _ body _ handler, s =>
    if body.tree.ends then (passes m body s).andThen (passes m handler) else passes m body s

def completes : Plan → Bool
  | unit => true
  | leaf _ l => !l.halts
  | andThen first second => first.completes && second.completes
  | declare p _ | atLine p _ => p.completes
  | ifElse _ _ yes no => yes.completes || no.completes
  | forever _ => false
  | tryCatch _ body _ _ => body.completes

/-- No jump is left out after an arm or a guarded body that may be left at its end. -/
def honest : Plan → Bool
  | unit | leaf _ _ | forever _ => true
  | andThen first second => first.honest && second.honest
  | declare p _ | atLine p _ => p.honest
  | ifElse _ _ yes no => yes.honest && no.honest && !(no.tree.ends && no.completes)
  | tryCatch _ body _ _ => body.honest && !(body.tree.ends && body.completes)

theorem completes_of_done (m : Machine σ) (p : Plan) {s : σ} (h : (p.means m s).ending = .done) :
    p.completes := by
  induction p generalizing s with
  | unit => rfl
  | leaf type l =>
    cases halts : l.halts with
    | false => simp [completes, halts]
    | true => simp [means, halts] at h
  | andThen first second ih₁ ih₂ =>
    obtain ⟨one, two⟩ := Run.ending_andThen h
    simp [completes, ih₁ one, ih₂ two]
  | declare p type ih => exact ih h
  | atLine p number ih => exact ih h
  | ifElse supply test yes no ih₁ ih₂ =>
    rw [means] at h
    split at h
    · simp [completes, ih₁ h]
    · simp [completes, ih₂ h]
  | forever => cases h
  | tryCatch supply body caught handler ih => exact ih h

/-- The code of a plan does what the plan means, if every jump is rightly left out. -/
theorem passes_eq_means (m : Machine σ) {p : Plan} (h : p.honest) : p.passes m = p.means m := by
  induction p with
  | unit => rfl
  | leaf => rfl
  | andThen first second ih₁ ih₂ =>
    simp only [honest, Bool.and_eq_true] at h
    funext s
    rw [passes, means, ih₁ h.1, ih₂ h.2]
  | declare p type ih => exact ih h
  | atLine p number ih => exact ih h
  | ifElse supply test yes no ih₁ ih₂ =>
    simp only [honest, Bool.and_eq_true, Bool.not_eq_true', Bool.and_eq_false_iff] at h
    obtain ⟨⟨hyes, hno⟩, rightly⟩ := h
    funext s
    rw [passes, means, ih₁ hyes, ih₂ hno]
    split
    · rfl
    · split
      · rename_i ends
        -- The arm is not left by a jump, but nothing falls through: it never comes to its end.
        refine Run.andThen_of_ne (fun finished => ?_) _
        have completes := completes_of_done m no finished
        simp [ends, completes] at rightly
      · rfl
  | forever => rfl
  | tryCatch supply body caught handler ih =>
    simp only [honest, Bool.and_eq_true, Bool.not_eq_true', Bool.and_eq_false_iff] at h
    funext s
    rw [passes, means, ih h.1]
    split
    · rename_i ends
      refine Run.andThen_of_ne (fun finished => ?_) _
      have completes := completes_of_done m body finished
      simp [ends, completes] at h
    · rfl

theorem passes_of_isUnit (m : Machine σ) {p : Plan} (h : p.tree.isUnit) : p.passes m = .still := by
  induction p with
  | unit => rfl
  | leaf => cases h
  | andThen first second ih₁ ih₂ =>
    obtain ⟨one, two⟩ := Tree.isUnit_andThen h
    funext s
    rw [passes, ih₁ one, ih₂ two, Run.still_andThen]
  | declare => cases h
  | atLine => cases h
  | ifElse supply test yes no => simp [tree, Tree.isUnit_ifElse] at h
  | forever => cases h
  | tryCatch supply body caught handler => simp [tree, Tree.isUnit_tryCatch] at h

/-- A plan whose tree ends in a jump backward is never left at its end. -/
theorem not_done_of_back (m : Machine σ) {p : Plan} (h : p.tree.back) (s : σ) :
    (p.passes m s).ending ≠ .done := by
  induction p generalizing s with
  | unit => cases h
  | leaf => cases h
  | andThen first second ih₁ ih₂ =>
    intro finished
    obtain ⟨one, two⟩ := Run.ending_andThen finished
    rcases Tree.back_andThen h with back | back
    · exact ih₁ back s one
    · exact ih₂ back _ two
  | declare p type ih => exact ih h s
  | atLine p number ih => exact ih h s
  | ifElse supply test yes no => simp [tree, Tree.back_ifElse] at h
  | forever => nofun
  | tryCatch supply body caught handler => simp [tree, Tree.back_tryCatch] at h

theorem ends_of_back {p : Plan} (h : p.tree.back) : p.tree.ends := by
  induction p with
  | unit => cases h
  | leaf => cases h
  | andThen first second ih₁ ih₂ => exact Tree.ends_andThen_of_back h ih₁ ih₂
  | declare p type ih => exact ih h
  | atLine p number ih => exact ih h
  | ifElse supply test yes no => simp [tree, Tree.back_ifElse] at h
  | forever => rfl
  | tryCatch supply body caught handler => simp [tree, Tree.back_tryCatch] at h

end Plan

end Bytecode
