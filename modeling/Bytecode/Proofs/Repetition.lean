import Bytecode.Proofs.Asking
import Bytecode.Proofs.Assembly

/-! Assembling again. A pass over a tree has no other way to the pool than requests, whatever it does
to the layout and wherever it stops, and so has all that comes after the passes. -/
namespace Bytecode

namespace DraftM

variable {α β : Type}

/-- What a draft asks of the pool when it begins with a layout. A layout that is given up is
dropped. -/
def asks (x : DraftM α) (layout : Layout) : PoolM (α × Layout) := fun pool =>
  match x (pool, layout) with
  | .ok a (pool, layout) => .ok (a, layout) pool
  | .error e (pool, _) => .error e pool

theorem asks_pure (a : α) (layout : Layout) :
    asks (pure a) layout = (pure (a, layout) : PoolM (α × Layout)) := rfl

theorem asks_bind (x : DraftM α) (f : α → DraftM β) (layout : Layout) :
    asks (x >>= f) layout = asks x layout >>= fun (a, layout) => asks (f a) layout := by
  funext pool
  simp only [asks, bind, EStateM.bind]
  cases x (pool, layout) <;> rfl

theorem asks_onPool (x : PoolM α) (layout : Layout) :
    asks (onPool x) layout = (·, layout) <$> x := by
  funext pool
  simp only [asks, onPool, Functor.map, EStateM.map]
  cases x pool <;> rfl

def Asks (x : DraftM α) : Prop := ∀ layout, Pool.Asks (asks x layout)

namespace Asks

protected theorem pure (a : α) : Asks (Pure.pure a) := fun layout => by
  rw [asks_pure]
  exact .pure _

protected theorem bind {x : DraftM α} {f : α → DraftM β} (hx : Asks x) (hf : ∀ a, Asks (f a)) :
    Asks (x >>= f) := fun layout => by
  rw [asks_bind]
  exact (hx layout).bind fun (a, layout) => hf a layout

protected theorem onPool {x : PoolM α} (hx : Pool.Asks x) : Asks (onPool x) := fun layout => by
  rw [asks_onPool]
  exact hx.map _

protected theorem onLayout (x : LayoutM α) : Asks (onLayout x) := fun layout => by
  cases done : x layout with
  | ok a later =>
    have same : asks (onLayout x) layout = pure (a, later) := by
      funext pool
      simp only [asks, onLayout, done]
      rfl
    rw [same]
    exact .pure _
  | error e later =>
    have same : asks (onLayout x) layout = throw e := by
      funext pool
      simp only [asks, onLayout, done]
      rfl
    rw [same]
    exact .throw _

end Asks

end DraftM

namespace Layout

theorem asks_act (pass : Pass) (step : Step) : DraftM.Asks (act pass step) := by
  cases step with
  | leaf o l =>
    exact (DraftM.Asks.onLayout _).bind fun _ =>
      (DraftM.Asks.onPool l.asks_encode).bind fun _ => .onLayout _
  | enter g caught =>
    cases caught with
    | none =>
      exact (DraftM.Asks.pure _).bind fun _ => (DraftM.Asks.onLayout _).bind fun _ => .onLayout _
    | some name =>
      have index : DraftM.Asks (some <$> DraftM.onPool (Pool.classRef (.object name))) := by
        rw [← bind_pure_comp]
        exact (DraftM.Asks.onPool (Pool.Asks.request (.classRef _))).bind fun _ => .pure _
      exact index.bind fun _ => (DraftM.Asks.onLayout _).bind fun _ => .onLayout _
  | place l => exact .onLayout (mark pass l)
  | jump test source target => exact .onLayout (jump pass test source target)
  | exit handler => exact .onLayout (see (.exitTry handler))
  | line number => exact .onLayout (showAt (.line number))

theorem asks_follow (pass : Pass) (steps : List Step) : DraftM.Asks (follow (act pass) steps) := by
  induction steps with
  | nil => exact .pure ()
  | cons step rest ih =>
    have first : follow (act pass) (step :: rest) =
        act pass step >>= fun _ => follow (act pass) rest := by
      funext s
      simp only [follow, bind, EStateM.bind]
      cases act pass step s <;> rfl
    rw [first]
    exact (asks_act pass step).bind fun _ => ih

theorem asks_run (pass : Pass) (labels : Labels) (t : Tree) : Pool.Asks (run pass labels t) := by
  have same : run pass labels t =
      Prod.snd <$> DraftM.asks (follow (act pass) (t.steps none)) (start labels) := by
    funext pool
    simp only [run, Tree.walk_eq_follow, Functor.map, EStateM.map, DraftM.asks]
    cases follow (act pass) (t.steps none) (pool, start labels) <;> rfl
  rw [same]
  exact (asks_follow pass _ _).map _

end Layout

namespace Simulation

theorem asks_write (s : Simulation) (positions : List Nat) (previous : Option Nat)
    (done : List MapFrame) : Pool.Asks (s.write positions previous done) := by
  induction positions generalizing previous done with
  | nil => exact .pure _
  | cons position rest ih =>
    unfold write
    split
    · exact .throw _
    · exact ih previous done
    · rename_i f _
      exact f.asks_full.bind fun _ => ih _ _

theorem asks_finish (s : Simulation) : Pool.Asks s.finish :=
  (s.asks_write _ _ _).bind fun _ => .pure _

end Simulation

namespace Body

theorem asks_layOut (b : Body) : Pool.Asks b.layOut := by
  refine (Layout.asks_run _ _ _).bind fun estimated => ?_
  refine (Layout.asks_run _ _ _).bind fun settled => ?_
  dsimp only
  split
  · exact (Pool.Asks.throw _).bind fun _ => Layout.asks_run _ _ _
  · exact Layout.asks_run _ _ _

theorem asks_assemble (config : Config) (this : BinaryName) (b : Body) :
    Pool.Asks (b.assemble config this) := by
  refine b.asks_layOut.bind fun layout => ?_
  split
  · exact .throw _
  · rename_i simulation _
    exact simulation.asks_finish.bind fun _ => (Pool.asks_named _ _).bind fun _ =>
      (Pool.asks_named _ _).bind fun _ => .pure _

theorem interns_assemble (config : Config) (this : BinaryName) (b : Body) :
    Pool.Interns (b.assemble config this) := (b.asks_assemble config this).interns

/-- A body that is assembled again, in the pool that the first time has left, is assembled to the same
code or fails with the same error, and leaves that pool as it is. -/
theorem assemble_twice (config : Config) (this : BinaryName) (b : Body) (pool : Pool) :
    b.assemble config this (Pool.left (b.assemble config this pool)) =
      b.assemble config this pool :=
  (b.interns_assemble config this).twice pool

end Body

end Bytecode
