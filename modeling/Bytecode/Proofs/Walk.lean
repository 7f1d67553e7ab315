import Bytecode.Walk

/-! The walk takes the steps of a tree and no others. The list of what is pending and the lines it
is in are only how it finds them, so that all further statements are about lists of steps. -/
namespace Bytecode

variable {ε σ : Type}

def follow (act : Step → EStateM ε σ Unit) : List Step → σ → EStateM.Result ε σ Unit
  | [], s => .ok () s
  | step :: rest, s =>
    match act step s with
    | .ok _ s => follow act rest s
    | .error e s => .error e s

theorem forM_eq_follow (act : Step → EStateM ε σ Unit) (steps : List Step) (s : σ) :
    forM steps act s = follow act steps s := by
  induction steps generalizing s with
  | nil => rfl
  | cons step rest ih =>
    rw [List.forM_cons, follow]
    show EStateM.bind (act step) (fun _ => forM rest act) s = _
    unfold EStateM.bind
    cases act step s with
    | ok u s' => exact ih s'
    | error e s' => rfl

namespace Work

/-- The steps that pending work comes down to. A line that ends gives way to the one around it,
which is found below it among the lines. -/
def steps : List UInt16 → List Work → List Step
  | _, [] => []
  | lines, visit t :: rest => t.steps lines.head? ++ steps lines rest
  | lines, place l :: rest => .place l :: steps lines rest
  | lines, jump source target :: rest => .jump none source target :: steps lines rest
  | lines, exit handler :: rest => .exit handler :: steps lines rest
  | lines, endLine :: rest => resume lines.tail.head? ++ steps lines.tail rest

theorem steps_guarded (lines : List UInt16) (g : Guard) (body handler : Tree) (rest : List Work) :
    steps lines (guarded g body handler rest) =
      body.steps lines.head? ++ .place g.stop :: .exit g.handler ::
        (g.exit.map (Step.jump none · g.after)).toList ++
        .place g.handler :: handler.steps lines.head? ++ .place g.after :: steps lines rest := by
  unfold guarded
  cases g.exit <;> simp [steps]

end Work

/-- Whatever is pending, in code of whatever lines, the walk takes the steps it comes down to. -/
theorem walk_eq_forM (act : Step → EStateM ε σ Unit) (lines : List UInt16) (pending : List Work) :
    walk act lines pending = forM (Work.steps lines pending) act := by
  fun_induction walk act lines pending with
  | case1 lines => rfl
  | case2 lines l rest ih | case3 lines source target rest ih | case4 lines handler rest ih =>
    rw [ih, Work.steps, List.forM_cons]
  | case5 lines rest outermost ih => simp [ih, Work.steps, outermost, resume]
  | case6 lines rest outer around ih => simp [ih, Work.steps, around, resume]
  | case7 lines rest ih | case8 lines o l rest ih | case9 lines o l rest ih
  | case10 lines o test start target stop first second rest ih
  | case11 lines o source target rest ih | case12 lines o first second rest ih
  | case13 lines o inner rest ih => simp [ih, Work.steps, Tree.steps]
  | case14 lines o g caught body handler rest ih =>
    simp [ih, Work.steps_guarded, Work.steps, Tree.steps]
  | case15 lines o number body rest ih =>
    -- The line is on top while its body is walked; at the end the one below takes over.
    simp [ih, Work.steps, Tree.steps]

theorem Tree.walk_eq_forM (act : Step → EStateM ε σ Unit) (t : Tree) :
    t.walk act = forM (t.steps none) act := by
  rw [Tree.walk, Bytecode.walk_eq_forM]
  simp [Work.steps]

theorem Tree.walk_eq_follow (act : Step → EStateM ε σ Unit) (t : Tree) (s : σ) :
    t.walk act s = follow act (t.steps none) s := by
  rw [Tree.walk_eq_forM, forM_eq_follow]

end Bytecode
