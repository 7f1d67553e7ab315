import Bytecode.Proofs.WideLocals

/-! Frames that say less. What can be run on a frame can be run on every frame that it is coarser
than, and the frames that are left are related in the same way. So what is accepted in a joined state
is accepted on each of the paths that come together there. -/
namespace Bytecode

theorem VType.fine_iff (v w : Held) : Fine v w ↔ w = v ∨ w = .top ∧ width v = 1 := by
  have narrow : width (.top : Held) = 1 := rfl
  unfold Fine Below
  constructor
  · rintro ⟨same | rfl, wide⟩
    · exact .inl same
    · exact .inr ⟨rfl, by omega⟩
  · rintro (rfl | ⟨rfl, one⟩)
    · exact ⟨.inl rfl, rfl⟩
    · exact ⟨.inr rfl, by omega⟩

namespace Frame

variable {s t : Frame}

/-- The first frame says no more than the second. The type of a wide value on the stack is never
given up, and a variable that is missing is unusable. -/
structure Coarser (t s : Frame) : Prop where
  upper : t.Formed
  lower : s.Formed
  stack : List.Forall₂ (fun w v => w = v ∨ w = .top ∧ width v = 1) t.stack.values s.stack.values
  slots : ∀ i, t.slot i = s.slot i ∨ t.slot i = .top

theorem coarser_iff : t.Coarser s ↔ t.Formed ∧ s.Formed ∧ s.Finer t := by
  have values : Stack.Finer s.stack t.stack ↔ List.Forall₂
      (fun w v => w = v ∨ w = .top ∧ width v = 1) t.stack.values s.stack.values := by
    simp only [← VType.fine_iff, Stack.Finer, Slotted.items, List.forall₂_reverse_iff]
    exact ⟨.flip, .flip⟩
  constructor
  · rintro ⟨upper, lower, stack, slots⟩
    exact ⟨upper, lower, values.mpr stack, slots, (formed_iff.mp lower).2⟩
  · rintro ⟨upper, lower, finer⟩
    exact ⟨upper, lower, values.mp finer.stack, finer.slots⟩

/-- Simulation is monotone: an instruction that runs on the coarser frame, and loads no reference
whose type was lost, runs on the other one, and so does a test. -/
theorem coarser_runs (s t : Frame) (coarser : t.Coarser s) :
    (∀ l declared position this t', t.keeps l → t.execute l declared position this = .ok t' →
      ∃ s', s.execute l declared position this = .ok s' ∧ t'.Coarser s') ∧
    ∀ test t', t.branch test = .ok t' → ∃ s', s.branch test = .ok s' ∧ t'.Coarser s' := by
  obtain ⟨upper, lower, finer⟩ := coarser_iff.mp coarser
  constructor
  · intro l declared position this t' kept ran
    obtain ⟨s', ran', finer'⟩ := follows_execute finer kept declared position this t' ran
    exact ⟨s', ran', coarser_iff.mpr ⟨upper.execute ran, lower.execute ran', finer'⟩⟩
  · intro test t' ran
    obtain ⟨s', ran', finer'⟩ := follows_branch finer test t' ran
    exact ⟨s', ran', coarser_iff.mpr ⟨upper.branch ran, lower.branch ran', finer'⟩⟩

/-- An object is under construction, and a variable holds a copy of it. -/
def making : Frame := (ofArguments [.uninit 3, .long]).withStack [.int, .uninit 3]

def makingLess : Frame := (ofArguments [.uninit 3]).withStack [.top, .uninit 3]

theorem coarser_making : makingLess.Coarser making := by
  refine ⟨formed_ofArguments _, formed_ofArguments _, ?_, fun i => ?_⟩
  · exact .cons (.inr ⟨rfl, rfl⟩) (.cons (.inl rfl) .nil)
  · rcases i with _ | i
    · exact .inl rfl
    · exact .inr rfl

theorem coarser_runs_making : makingLess.Coarser making ∧
    (makingLess.keeps (.invoke .special (.object .object) .init ⟨[], .void⟩)) ∧
    ∃ t' s', makingLess.execute (.invoke .special (.object .object) .init ⟨[], .void⟩) .void 7
        .object = .ok t' ∧
      making.execute (.invoke .special (.object .object) .init ⟨[], .void⟩) .void 7 .object = .ok s' ∧
      t'.Coarser s' ∧ t'.locals = #[.object (.object .object)] ∧
      s'.locals = #[.object (.object .object), .long, .top] := by
  obtain ⟨t', ran, locals⟩ : ∃ t',
      makingLess.execute (.invoke .special (.object .object) .init ⟨[], .void⟩) .void 7 .object =
        .ok t' ∧ t'.locals = #[.object (.object .object)] := ⟨_, by cbv, by cbv⟩
  obtain ⟨s', ran', coarser⟩ :=
    (coarser_runs making makingLess coarser_making).1 _ _ _ _ t' rfl ran
  refine ⟨coarser_making, rfl, t', s', ran, ran', coarser, locals, ?_⟩
  obtain ⟨u, ran'', locals'⟩ : ∃ u,
      making.execute (.invoke .special (.object .object) .init ⟨[], .void⟩) .void 7 .object =
        .ok u ∧ u.locals = #[.object (.object .object), .long, .top] := ⟨_, by cbv, by cbv⟩
  rw [ran'] at ran''
  cases ran''
  exact locals'

end Frame

end Bytecode
