import Bytecode.Placement
import Std.Data.TreeMap.Lemmas

/-! The table of labels, read as two partial functions from labels to positions. -/
namespace Bytecode.Labels

def estimate? (ls : Labels) (l : Label) : Option Nat := (ls.get? l).bind Placement.estimate

def settled? (ls : Labels) (l : Label) : Option Nat := (ls.get? l).bind Placement.settled

/-- Where a label was settled; of use only for labels that were. -/
def spot (ls : Labels) (l : Label) : Nat := (ls.settled? l).getD 0

theorem estimate?_empty (l : Label) : empty.estimate? l = none := by
  simp [estimate?, empty, get?]

theorem settled?_empty (l : Label) : empty.settled? l = none := by
  simp [settled?, empty, get?]

theorem get?_insert (ls : Labels) (l k : Label) (p : Placement) :
    get? (Std.TreeMap.insert ls l.id p) k = if l = k then some p else ls.get? k := by
  cases l
  cases k
  simp [get?, Std.TreeMap.getElem?_insert]

theorem estimateOf_eq_ok {ls : Labels} {l : Label} {n : Nat} :
    ls.estimateOf l = .ok n ↔ ls.estimate? l = some n := by
  unfold estimateOf estimate?
  cases (ls.get? l).bind Placement.estimate <;> simp

theorem estimateOf_of_none {ls : Labels} {l : Label} (h : ls.estimate? l = none) :
    ls.estimateOf l = .error (.notPlaced l) := by
  unfold estimate? at h
  simp [estimateOf, h]

theorem positionOf_eq_ok {ls : Labels} {l : Label} {n : Nat} :
    ls.positionOf l = .ok n ↔ ls.settled? l = some n := by
  unfold positionOf settled?
  cases (ls.get? l).bind Placement.settled <;> simp

theorem spot_eq {ls : Labels} {l : Label} {n : Nat} (h : ls.settled? l = some n) :
    ls.spot l = n := by
  simp [spot, h]

/-- What an estimate that was accepted has done. A label that has one keeps it. -/
theorem estimate_ok {ls ls' : Labels} {l : Label} {n : Nat} (h : ls.estimate l n = .ok ls') :
    (∀ k, ls'.estimate? k = if l = k then some n else ls.estimate? k) ∧
    (∀ k, ls'.settled? k = ls.settled? k) ∧
    (ls.estimate? l = none ∨ ls.estimate? l = some n) := by
  unfold estimate at h
  split at h
  · rename_i fresh
    cases h
    refine ⟨fun k => ?_, fun k => ?_, by simp [estimate?, fresh]⟩
    · simp only [estimate?, get?_insert]
      split <;> rfl
    · simp only [settled?, get?_insert]
      split
      · rename_i same
        simp [← same, fresh]
      · rfl
  · rename_i settled known
    cases h
    refine ⟨fun k => ?_, fun k => ?_, by simp [estimate?, known]⟩
    · simp only [estimate?, get?_insert]
      split <;> rfl
    · simp only [settled?, get?_insert]
      split
      · rename_i same
        simp [← same, known]
      · rfl
  · rename_i earlier settled known
    have old : ls.estimate? l = some earlier := by simp [estimate?, known]
    split at h
    · rename_i same
      cases h
      refine ⟨fun k => ?_, fun _ => rfl, .inr (same ▸ old)⟩
      split
      · rename_i hk
        rw [← hk, ← same, old]
      · rfl
    · cases h

theorem estimate_again {ls : Labels} {l : Label} {n : Nat} (known : ls.estimate? l = some n) :
    ls.estimate l n = .ok ls := by
  simp only [estimate?, Option.bind_eq_some_iff] at known
  obtain ⟨⟨e, settled⟩, hl, he⟩ := known
  cases he
  simp [estimate, hl]

theorem settle_at_estimate {ls : Labels} {l : Label} {n : Nat} (estimated : ls.estimate? l = some n)
    (free : ls.settled? l = none ∨ ls.settled? l = some n) :
    ∃ ls', ls.settle l n = .ok ls' ∧ (∀ k, ls'.estimate? k = ls.estimate? k) ∧
      ∀ k, ls'.settled? k = if l = k then some n else ls.settled? k := by
  simp only [estimate?, Option.bind_eq_some_iff] at estimated
  obtain ⟨⟨e, settled⟩, known, he⟩ := estimated
  cases he
  have unmoved : (settled.any (· ≠ n)) = false := by
    rcases free with h | h <;> simp_all [settled?]
  have done : ls.settle l n = .ok (Std.TreeMap.insert ls l.id ⟨some n, some n⟩) := by
    simp only [settle, known, unmoved, Nat.lt_irrefl, if_false, Bool.false_eq_true]
  refine ⟨_, done, fun k => ?_, fun k => ?_⟩
  · simp only [estimate?, get?_insert]
    split
    · rename_i same
      simp [← same, known]
    · rfl
  · simp only [settled?, get?_insert]
    split <;> rfl

theorem check_at_settled {ls : Labels} {l : Label} {n : Nat} (settled : ls.settled? l = some n) :
    ls.check l n = .ok () := by
  simp [check, positionOf_eq_ok.mpr settled]

end Bytecode.Labels
