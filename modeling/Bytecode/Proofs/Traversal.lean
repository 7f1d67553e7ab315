import Bytecode.Layout
import Bytecode.Proofs.Walk

/-! The walk against recursion. The walk works off a list of what is pending, beside the lines it is
in; the traversal follows the tree itself. For everyone who may take part the two make the same calls
in the same order, up to the first that fails. -/
namespace Bytecode

variable {ε σ : Type}

/-- Those who take part in a walk: a pool, a writer of code and a visitor. The state is that of all
of them, and each call may fail. -/
structure Crew (ε σ : Type) where
  /-- The pool: the index of a class. -/
  index : BinaryName → EStateM ε σ UInt16
  /-- The writer: the offset of the next byte. -/
  position : σ → Nat
  place : Label → EStateM ε σ Unit
  branch : UInt8 → Label → Label → EStateM ε σ Unit
  handler : Label → Label → Label → Option UInt16 → EStateM ε σ Unit
  write : Leaf → EStateM ε σ Unit
  /-- The visitor. -/
  see : Sight → EStateM ε σ Unit

namespace Crew

variable (c : Crew ε σ)

def showAt (sight : Nat → Sight) : EStateM ε σ Unit := do
  let s ← get
  c.see (sight (c.position s))

def mark (l : Label) : EStateM ε σ Unit := do
  c.place l
  c.showAt (.label l)

def jump (test : Option Test) (source target : Label) : EStateM ε σ Unit := do
  c.mark source
  c.see (.jump test source target)
  c.branch ((test.map Test.opcode).getD Opcode.goto) source target

def insn (o : Outcome) (l : Leaf) : EStateM ε σ Unit := do
  c.showAt (.insn o l)
  c.write l

def caughtIndex : Option BinaryName → EStateM ε σ (Option UInt16)
  | none => pure none
  | some name => some <$> c.index name

def register (g : Guard) (caught : Option BinaryName) : EStateM ε σ Unit := do
  let index ← c.caughtIndex caught
  c.handler g.start g.stop g.handler index

def line (number : UInt16) : EStateM ε σ Unit := c.showAt (.line number)

/-- The line that takes over again where a line ends, if there is one. -/
def resume : Option UInt16 → EStateM ε σ Unit
  | none => pure ()
  | some outer => c.line outer

def leave (g : Guard) : EStateM ε σ Unit :=
  match g.exit with
  | none => pure ()
  | some source => c.jump none source g.after

def act : Step → EStateM ε σ Unit
  | .place l => c.mark l
  | .jump test source target => c.jump test source target
  | .leaf o l => c.insn o l
  | .enter g caught => do
    c.register g caught
    c.see (.enterTry g.handler caught)
  | .exit handler => c.see (.exitTry handler)
  | .line number => c.line number

end Crew

/-- Visit a tree by recursion, in code of the given line. -/
def Tree.traverse (c : Crew ε σ) (outer : Option UInt16) : Tree → EStateM ε σ Unit
  | unit => pure ()
  | leaf o l => c.insn o l
  | label _ l => c.mark l
  | branch _ test start target stop first second => do
    c.jump (some test) start target
    first.traverse c outer
    second.traverse c outer
    c.mark stop
  | goto _ source target => c.jump none source target
  | seq _ first second => do
    first.traverse c outer
    second.traverse c outer
  | retype _ inner => inner.traverse c outer
  | guarded _ g caught body handler => do
    c.mark g.start
    c.register g caught
    c.see (.enterTry g.handler caught)
    body.traverse c outer
    c.mark g.stop
    c.see (.exitTry g.handler)
    c.leave g
    c.mark g.handler
    handler.traverse c outer
    c.mark g.after
  | line _ number body => do
    c.line number
    body.traverse c (some number)
    c.resume outer

namespace Crew

variable (c : Crew ε σ)

theorem forM_resume (outer : Option UInt16) : forM (Bytecode.resume outer) c.act = c.resume outer := by
  cases outer with
  | none => rfl
  | some number => simp [Bytecode.resume, resume, act]

theorem forM_leave (g : Guard) :
    forM (g.exit.map (Step.jump none · g.after)).toList c.act = c.leave g := by
  unfold leave
  cases g.exit with
  | none => rfl
  | some source => simp [act]

end Crew

/-- To traverse a tree is to take its steps. -/
theorem Tree.traverse_eq_forM (c : Crew ε σ) (t : Tree) (outer : Option UInt16) :
    t.traverse c outer = forM (t.steps outer) c.act := by
  induction t generalizing outer with
  | unit => rfl
  | leaf o l | label o l | goto o source target => simp [traverse, steps, Crew.act]
  | branch o test start target stop first second ih₁ ih₂ =>
    simp [traverse, steps, ih₁, ih₂, Crew.act]
  | seq o first second ih₁ ih₂ => simp [traverse, steps, ih₁, ih₂]
  | retype o inner ih => simp [traverse, steps, ih]
  | guarded o g caught body handler ih₁ ih₂ =>
    simp [traverse, steps, ih₁, ih₂, c.forM_leave, Crew.act]
  | line o number body ih => simp [traverse, steps, ih, c.forM_resume, Crew.act]

namespace Layout

def crew (pass : Pass) : Crew Error (Pool × Layout) where
  index name := DraftM.onPool (Pool.classRef (.object name))
  position s := s.2.position
  place l := DraftM.onLayout (place pass l)
  branch opcode source target := DraftM.onLayout (branch pass opcode source target)
  handler first stop entry index := DraftM.onLayout (handler pass first stop entry index)
  write l := do
    let bytes ← DraftM.onPool l.encode
    DraftM.onLayout (write pass bytes)
  see sight := DraftM.onLayout (see sight)

variable (pass : Pass)

theorem onLayout_bind {α β : Type} (x : LayoutM α) (next : α → LayoutM β) :
    DraftM.onLayout (x >>= next) = DraftM.onLayout x >>= fun a => DraftM.onLayout (next a) := by
  funext ⟨pool, layout⟩
  simp only [DraftM.onLayout, bind, EStateM.bind]
  cases x layout <;> rfl

theorem onLayout_mark (l : Label) : DraftM.onLayout (mark pass l) = (crew pass).mark l :=
  onLayout_bind (place pass l) fun _ => showAt (.label l)

theorem onLayout_jump (test : Option Test) (source target : Label) :
    DraftM.onLayout (jump pass test source target) = (crew pass).jump test source target := by
  rw [jump, onLayout_bind, onLayout_mark]
  simp only [onLayout_bind]
  rfl

theorem act_eq_crew : act pass = (crew pass).act := by
  funext step
  cases step with
  | place l => exact onLayout_mark pass l
  | jump test source target => exact onLayout_jump pass test source target
  | leaf o l => rfl
  | enter g caught =>
    cases caught <;> simp [act, Crew.act, Crew.register, Crew.caughtIndex, crew]
  | exit handler => rfl
  | line number => rfl

end Layout

/-- The walk is the traversal: for every crew, and so for each pass of the layout. -/
theorem Tree.walk_eq_traverse (t : Tree) :
    (∀ (ε σ : Type) (c : Crew ε σ), t.walk c.act = t.traverse c none) ∧
      ∀ pass, t.walk (Layout.act pass) = t.traverse (Layout.crew pass) none := by
  have same (ε σ : Type) (c : Crew ε σ) : t.walk c.act = t.traverse c none := by
    rw [t.walk_eq_forM, t.traverse_eq_forM]
  refine ⟨same, fun pass => ?_⟩
  rw [Layout.act_eq_crew]
  exact same _ _ (Layout.crew pass)

end Bytecode
