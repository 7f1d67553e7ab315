import Bytecode.Proofs.Stretches

/-! Instructions met on the way through a tree: where each stands, and what the steps before it have
made of a state. Positions are also told from the sizes of what comes before, without the steps. -/
namespace Bytecode

def Op.size (pool : Pool) : Op → Nat
  | leaf l => (l.octets pool).length
  | jump _ _ _ => 3

def Tree.size (pool : Pool) (t : Tree) : Nat := (t.ops.map (Op.size pool)).sum

/-- The instructions among steps, each with its position and with what the steps before it have made
of a state. -/
def watch {σ : Type} (turn : σ → Step → σ) (pool : Pool) (s : σ) (n : Nat) :
    List Step → List (Nat × Op × σ)
  | [] => []
  | step :: rest =>
    (step.op?.map fun op => (n, op, s)).toList ++
      watch turn pool (turn s step) (n + step.size pool) rest

variable {pool : Pool} {n : Nat}

theorem Step.size_of_op? {step : Step} {op : Op} (has : step.op? = some op) :
    step.size pool = op.size pool := by
  cases step <;> cases has <;> rfl

theorem Step.size_of_silent {step : Step} (silent : step.op? = none) : step.size pool = 0 := by
  cases step <;> first | rfl | cases silent

theorem reach_eq_add (pool : Pool) (n : Nat) (steps : List Step) :
    reach pool n steps = n + ((steps.filterMap Step.op?).map (Op.size pool)).sum := by
  induction steps generalizing n with
  | nil => rfl
  | cons step rest ih =>
    rw [reach, ih]
    cases has : step.op? with
    | none => simp [has, Step.size_of_silent has]
    | some op =>
      simp only [List.filterMap_cons, has, List.map_cons, List.sum_cons, Step.size_of_op? has]
      omega

theorem Tree.reach_steps (pool : Pool) (n : Nat) (t : Tree) (outer : Option UInt16) :
    reach pool n (t.steps outer) = n + t.size pool := by
  rw [reach_eq_add, filterMap_op?, size]

section

variable {σ : Type} {turn : σ → Step → σ} {s : σ}

theorem watch_append (first second : List Step) :
    watch turn pool s n (first ++ second) =
      watch turn pool s n first ++
        watch turn pool (first.foldl turn s) (reach pool n first) second := by
  induction first generalizing s n with
  | nil => rfl
  | cons step rest ih => simp [watch, reach, ih]

theorem map_watch (steps : List Step) :
    (watch turn pool s n steps).map (fun x => (x.1, x.2.1)) =
      (timeline pool n steps).filterMap opAt := by
  induction steps generalizing s n with
  | nil => rfl
  | cons step rest ih => cases has : step.op? <;> simp [watch, timeline, opAt, has, ih]

theorem mem_watch {steps : List Step} {p : Nat} {op : Op} {s' : σ} :
    (p, op, s') ∈ watch turn pool s n steps ↔ ∃ before step after,
      steps = before ++ step :: after ∧ step.op? = some op ∧ p = reach pool n before ∧
        s' = before.foldl turn s := by
  constructor
  · intro member
    induction steps generalizing s n with
    | nil => cases member
    | cons step rest ih =>
      rcases List.mem_append.mp member with here | later
      · obtain ⟨found, has, same⟩ := Option.map_eq_some_iff.mp (Option.mem_toList.mp here)
        cases same
        exact ⟨[], step, rest, rfl, has, rfl, rfl⟩
      · obtain ⟨before, x, after, rfl, has, rfl, rfl⟩ := ih later
        exact ⟨step :: before, x, after, rfl, has, rfl, rfl⟩
  · rintro ⟨before, step, after, rfl, has, rfl, rfl⟩
    rw [watch_append]
    simp [watch, has]

theorem Layout.Laid.reported_eq {t : Tree} {layout : Layout} (laid : layout.Laid t pool)
    (turn : σ → Step → σ) (s : σ) :
    layout.reported = (watch turn pool s 0 (t.steps none)).map fun x => (x.1, x.2.1) := by
  rw [map_watch, Layout.reported, laid.sights,
    filterMap_sightsOf fun l k h => (laid.labels l k).mpr h, Tree.course]

end

theorem Layout.Laid.size_code {t : Tree} {layout : Layout} (laid : layout.Laid t pool) :
    layout.code.size = layout.position := by
  rw [← Array.length_toList, laid.code, laid.position, ← flatMap_octets_length layout.labels 0]
  omega

theorem Layout.Laid.size_pos {t : Tree} {layout : Layout} (laid : layout.Laid t pool)
    (hp : pool.Coherent) : ∀ op ∈ t.ops, 0 < op.size pool := by
  intro op member
  rw [← t.filterMap_op? none] at member
  obtain ⟨step, inside, has⟩ := List.mem_filterMap.mp member
  have ready := laid.ready step inside
  cases step with
  | leaf o l =>
    cases has
    exact Leaf.octets_pos hp ready
  | jump =>
    cases has
    exact Nat.zero_lt_succ 2
  | _ => cases has

end Bytecode
