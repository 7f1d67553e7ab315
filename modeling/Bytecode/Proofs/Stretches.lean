import Bytecode.Proofs.Assembly

/-! Parts of code that is laid out. What is known of all the steps of a tree is known of those of
each part, at the position where the part stands. -/
namespace Bytecode

/-- Something holds of each of some steps at the position where it stands, the first of them at the
position given. -/
def Along (pool : Pool) (P : Nat → Step → Prop) (n : Nat) : List Step → Prop
  | [] => True
  | step :: rest => P n step ∧ Along pool P (n + step.size pool) rest

structure Stands (pool : Pool) (labels : Labels) (n : Nat) (step : Step) : Prop where
  ready : step.Ready pool
  placed : ∀ l, step.placed? = some l → labels.settled? l = some n
  reaches : step.Reaches labels.settled?

variable {pool : Pool} {labels : Labels} {n : Nat}

theorem along_append {P : Nat → Step → Prop} {first second : List Step} :
    Along pool P n (first ++ second) ↔
      Along pool P n first ∧ Along pool P (reach pool n first) second := by
  induction first generalizing n with
  | nil => simp [Along, reach]
  | cons step rest ih => simp [Along, reach, ih, and_assoc]

theorem reach_resume (outer : Option UInt16) : reach pool n (resume outer) = n := by
  cases outer <;> rfl

namespace Stands

variable {step : Step}

theorem spot_eq {l : Label} (h : Stands pool labels n step) (places : step.placed? = some l) :
    labels.spot l = n :=
  Labels.spot_eq (h.placed l places)

theorem size_pos (hp : pool.Coherent) {op : Op} (h : Stands pool labels n step)
    (has : step.op? = some op) : 0 < step.size pool := by
  cases step with
  | leaf o l => exact Leaf.octets_pos hp h.ready
  | jump => simp [Step.size]
  | _ => cases has

end Stands

theorem along_stands {steps : List Step} (ready : ∀ step ∈ steps, step.Ready pool)
    (placed : ∀ l k, PlacedAt (timeline pool n steps) l k → labels.settled? l = some k)
    (reaches : ∀ step ∈ steps, step.Reaches labels.settled?) :
    Along pool (Stands pool labels) n steps := by
  induction steps generalizing n with
  | nil => trivial
  | cons step rest ih =>
    refine ⟨⟨ready step (by simp), ?_, reaches step (by simp)⟩, ih ?_ ?_ ?_⟩
    · exact fun l places => placed l n (.head n places)
    · exact fun s hs => ready s (by simp [hs])
    · exact fun l k h => placed l k h.tail
    · exact fun s hs => reaches s (by simp [hs])

theorem Layout.Laid.stands {t : Tree} {layout : Layout} (laid : layout.Laid t pool) :
    Along pool (Stands pool layout.labels) 0 (t.steps none) :=
  along_stands laid.ready (fun l k h => (laid.labels l k).mpr h) laid.reaches

end Bytecode
