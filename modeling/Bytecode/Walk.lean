import Bytecode.Tree

/-! Walking a tree. The steps of a tree, in order, are the same for whoever takes them; the
walk keeps what is still to be done on a list of its own, and the lines it is in on another,
and stops at the first step that fails. -/
namespace Bytecode

/-- One thing to do on the way through a tree. -/
inductive Step where
  | place (l : Label)
  | jump (test : Option Test) (source target : Label)
  | leaf (outcome : Outcome) (l : Leaf)
  | enter (g : Guard) (caught : Option BinaryName)
  | exit (handler : Label)
  | line (number : UInt16)

/-- The line that takes over again where a line ends. -/
def resume (outer : Option UInt16) : List Step := (outer.map Step.line).toList

namespace Tree

/-- The steps of a tree that stands in code of the given line. -/
def steps (outer : Option UInt16) : Tree → List Step
  | unit => []
  | leaf o l => [.leaf o l]
  | label _ l => [.place l]
  | branch _ test start target stop first second =>
    .jump (some test) start target :: first.steps outer ++ second.steps outer ++ [.place stop]
  | goto _ source target => [.jump none source target]
  | seq _ first second => first.steps outer ++ second.steps outer
  | retype _ inner => inner.steps outer
  | guarded _ g caught body handler =>
    .place g.start :: .enter g caught :: body.steps outer ++
      .place g.stop :: .exit g.handler :: (g.exit.map (Step.jump none · g.after)).toList ++
      .place g.handler :: handler.steps outer ++ [.place g.after]
  | line _ number body => .line number :: body.steps (some number) ++ resume outer

end Tree

/-- What is still to be done: visit a tree, or go on with one after a part of it. -/
inductive Work where
  | visit (t : Tree)
  | place (l : Label)
  | jump (source target : Label)
  | exit (handler : Label)
  /-- The body of the innermost line ends. -/
  | endLine

namespace Work

/-- The turns that a tree takes, at most. -/
def weigh : Tree → Nat
  | .unit | .leaf _ _ | .label _ _ | .goto _ _ _ => 1
  | .branch _ _ _ _ _ first second => weigh first + weigh second + 2
  | .seq _ first second => weigh first + weigh second + 1
  | .retype _ inner => weigh inner + 1
  | .guarded _ _ _ body handler => weigh body + weigh handler + 6
  | .line _ _ body => weigh body + 2

def weight : Work → Nat
  | visit t => weigh t
  | _ => 1

def total : List Work → Nat
  | [] => 0
  | w :: rest => weight w + total rest

/-- What a guarded region comes down to once it has been entered. -/
def guarded (g : Guard) (body handler : Tree) (rest : List Work) : List Work :=
  let resumed := place g.handler :: visit handler :: place g.after :: rest
  visit body :: place g.stop :: exit g.handler ::
    match g.exit with
    | none => resumed
    | some source => jump source g.after :: resumed

theorem total_guarded (g : Guard) (body handler : Tree) (rest : List Work) :
    total (guarded g body handler rest) < weigh body + weigh handler + 6 + total rest := by
  unfold guarded
  cases g.exit <;> simp only [total, weight] <;> omega

end Work

/-- Do all that is pending. The lines are those whose bodies are still being walked, innermost
first. -/
def walk {ε σ : Type} (act : Step → EStateM ε σ Unit) (lines : List UInt16) (pending : List Work) :
    EStateM ε σ Unit :=
  match pending with
  | [] => pure ()
  | .place l :: rest => do
    act (.place l)
    walk act lines rest
  | .jump source target :: rest => do
    act (.jump none source target)
    walk act lines rest
  | .exit handler :: rest => do
    act (.exit handler)
    walk act lines rest
  | .endLine :: rest =>
    match lines.tail.head? with
    | none => walk act lines.tail rest
    | some outer => do
      act (.line outer)
      walk act lines.tail rest
  | .visit .unit :: rest => walk act lines rest
  | .visit (.leaf o l) :: rest => do
    act (.leaf o l)
    walk act lines rest
  | .visit (.label _ l) :: rest => do
    act (.place l)
    walk act lines rest
  | .visit (.branch _ test start target stop first second) :: rest => do
    act (.jump (some test) start target)
    walk act lines (.visit first :: .visit second :: .place stop :: rest)
  | .visit (.goto _ source target) :: rest => do
    act (.jump none source target)
    walk act lines rest
  | .visit (.seq _ first second) :: rest => walk act lines (.visit first :: .visit second :: rest)
  | .visit (.retype _ inner) :: rest => walk act lines (.visit inner :: rest)
  | .visit (.guarded _ g caught body handler) :: rest => do
    act (.place g.start)
    act (.enter g caught)
    walk act lines (Work.guarded g body handler rest)
  | .visit (.line _ number body) :: rest => do
    act (.line number)
    walk act (number :: lines) (.visit body :: .endLine :: rest)
termination_by Work.total pending
decreasing_by
  all_goals simp only [Work.total, Work.weight, Work.weigh]
  any_goals omega
  exact Work.total_guarded ..

/-- Take the steps of a tree. -/
def Tree.walk {ε σ : Type} (act : Step → EStateM ε σ Unit) (t : Tree) : EStateM ε σ Unit :=
  Bytecode.walk act [] [.visit t]

end Bytecode
