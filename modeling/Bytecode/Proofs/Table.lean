import Bytecode.Method
import Bytecode.Proofs.Fixpoint
import Std.Data.HashSet.Lemmas

/-! The stack map table as it is written, and as it is read back: each frame stands at a distance
from the one before it. -/
namespace Bytecode

namespace MapFrame

def place (previous : Option Nat) (m : MapFrame) : Nat :=
  match previous with
  | none => m.delta.toNat
  | some p => p + m.delta.toNat + 1

def places (previous : Option Nat) : List MapFrame → List (Nat × MapFrame)
  | [] => []
  | m :: rest => (m.place previous, m) :: places (some (m.place previous)) rest

theorem exists_place (previous : Option Nat) {frames : List MapFrame} {m : MapFrame}
    (member : m ∈ frames) : ∃ p, (p, m) ∈ places previous frames := by
  induction frames generalizing previous with
  | nil => cases member
  | cons first rest ih =>
    rcases List.mem_cons.mp member with rfl | later
    · exact ⟨_, List.mem_cons_self⟩
    · obtain ⟨p, found⟩ := ih _ later
      exact ⟨p, List.mem_cons_of_mem _ found⟩

end MapFrame

namespace Simulation

variable {s : Simulation} {pool final : Pool}

structure Written (s : Simulation) (keys : List Nat) (previous : Option Nat) (final : Pool)
    (frames : List MapFrame) : Prop where
  frame : ∀ p m, (p, m) ∈ MapFrame.places previous frames → p ∈ keys ∧
    ∃ j, s.joined p = .ok (some j) ∧ j.full final = .ok (m.locals, m.stack) final
  complete : ∀ p ∈ keys, s.recordedAt p ≠ [] → ∃ m, (p, m) ∈ MapFrame.places previous frames

theorem Written.cons {keys : List Nat} {previous : Option Nat} {frames : List MapFrame} {p : Nat}
    {m : MapFrame} {j : Frame} (written : Written s keys (some p) final frames)
    (here : m.place previous = p) (joins : s.joined p = .ok (some j))
    (wire : j.full final = .ok (m.locals, m.stack) final) :
    Written s (p :: keys) previous final (m :: frames) := by
  constructor
  · intro q n hq
    simp only [MapFrame.places, here, List.mem_cons] at hq
    rcases hq with hq | hq
    · cases hq
      exact ⟨by simp, j, joins, wire⟩
    · obtain ⟨inside, found⟩ := written.frame q n hq
      exact ⟨by simp [inside], found⟩
  · intro q hq recorded
    simp only [MapFrame.places, here, List.mem_cons]
    rcases List.mem_cons.mp hq with rfl | hq
    · exact ⟨m, .inl rfl⟩
    · obtain ⟨n, found⟩ := written.complete q hq recorded
      exact ⟨n, .inr found⟩

theorem Written.skip {keys : List Nat} {previous : Option Nat} {frames : List MapFrame} {p : Nat}
    (written : Written s keys previous final frames) (joins : s.joined p = .ok none) :
    Written s (p :: keys) previous final frames := by
  constructor
  · intro q m hq
    obtain ⟨inside, found⟩ := written.frame q m hq
    exact ⟨by simp [inside], found⟩
  · intro q hq recorded
    rcases List.mem_cons.mp hq with rfl | hq
    · exact absurd (recordedAt_of_joined_none joins) recorded
    · exact written.complete q hq recorded

theorem write_ok {keys : List Nat} {previous : Option Nat} {done frames : List MapFrame}
    (sorted : keys.Pairwise (· < ·)) (above : ∀ q, previous = some q → ∀ p ∈ keys, q < p)
    (small : ∀ p ∈ keys, p ≤ 65535) (h : s.write keys previous done pool = .ok frames final) :
    pool.Grows final ∧ ∃ new, frames = done.reverse ++ new ∧
      Written s keys previous final new := by
  induction keys generalizing previous done pool with
  | nil =>
    cases h
    exact ⟨.refl, [], by simp, ⟨by simp [MapFrame.places], by simp⟩⟩
  | cons p rest ih =>
    obtain ⟨least, sorted'⟩ := List.pairwise_cons.mp sorted
    have small' : ∀ q ∈ rest, q ≤ 65535 := fun q hq => small q (by simp [hq])
    have bound := small p (by simp)
    unfold write at h
    cases joins : s.joined p with
    | error e =>
      simp only [joins] at h
      cases h
    | ok found =>
      cases found with
      | none =>
        simp only [joins] at h
        obtain ⟨grown, new, whole, written⟩ :=
          ih sorted' (fun q hq r hr => above q hq r (by simp [hr])) small' h
        exact ⟨grown, new, whole, written.skip joins⟩
      | some j =>
        simp only [joins] at h
        obtain ⟨wire, mid, wrote, others⟩ := exists_of_bind h
        obtain ⟨grown, new, rfl, written⟩ := ih sorted' (fun q hq r hr => by
          cases hq
          exact least r hr) small' others
        have first := j.asks_full.interns.grows_ok wrote
        have again := j.asks_full.interns.again _ _ _ _ wrote grown.extends
        refine ⟨first.trans grown, _, by rw [List.reverse_cons, List.append_assoc], ?_⟩
        -- The distance is not cut off, so the frame is found again at its position.
        refine written.cons ?_ joins again
        cases previous with
        | none => exact toNat_toUInt16 bound
        | some q =>
          have := above q rfl p (by simp)
          simp only [MapFrame.place, toNat_toUInt16 (show p - q - 1 ≤ 65535 by omega)]
          omega

theorem records_le {scene : Scene} {bound p : Nat} {f : Frame} {x : Sight}
    (settled : ∀ l n, scene.labels.settled? l = some n → n ≤ bound)
    (label : ∀ l n, x = .label l n → n ≤ bound) (made : (p, f) ∈ s.records scene x) :
    p ≤ bound := by
  have spots : ∀ l, scene.labels.spot l ≤ bound := by
    intro l
    cases known : scene.labels.settled? l with
    | none => simp [Labels.spot, known]
    | some n => exact Labels.spot_eq known ▸ settled l n known
  cases x with
  | label l n =>
    simp only [records] at made
    split at made
    · obtain ⟨_, _, same⟩ := Option.map_eq_some_iff.mp (Option.mem_toList.mp made)
      cases same
      exact label l p rfl
    · cases made
  | insn o l n =>
    simp only [records, List.mem_flatMap, List.mem_map] at made
    obtain ⟨_, _, ⟨entry, _⟩, _, same⟩ := made
    cases same
    exact spots entry
  | jump test source target =>
    simp only [records, List.mem_flatMap, List.mem_map] at made
    obtain ⟨_, _, _, _, same⟩ := made
    cases same
    exact spots target
  | enterTry entry caught =>
    simp only [records, List.mem_map] at made
    obtain ⟨_, _, same⟩ := made
    cases same
    exact spots entry
  | exitTry | line => simp [records] at made

theorem Runs.recorded_le {scene : Scene} {bound : Nat} {t t' : Simulation} {sights : List Sight}
    (h : Runs scene t sights t') (settled : ∀ l n, scene.labels.settled? l = some n → n ≤ bound)
    (labels : ∀ l n, .label l n ∈ sights → n ≤ bound) (before : ∀ p ∈ t.recorded, p ≤ bound) :
    ∀ p ∈ t'.recorded, p ≤ bound := by
  induction sights generalizing t with
  | nil =>
    cases h
    exact before
  | cons x rest ih =>
    obtain ⟨mid, sees, later⟩ := runs_cons.mp h
    refine ih later (fun l n hn => labels l n (by simp [hn])) ?_
    intro p hp
    rw [(see_ok sees).recorded, mem_recordAll] at hp
    rcases hp with hp | ⟨f, made⟩
    · exact before p hp
    · exact records_le settled (fun l n hx => labels l n (by simp [hx])) made

theorem mem_recorded_of_recordedAt {p : Nat} (h : s.recordedAt p ≠ []) : p ∈ s.recorded := by
  apply Classical.byContradiction
  intro absent
  apply h
  simp [recordedAt, Std.TreeMap.getD_eq_fallback absent]

theorem Written.exists_of_recorded {previous : Option Nat} {frames : List MapFrame} {p : Nat}
    (written : Written s s.recorded.keys previous final frames) (h : s.recordedAt p ≠ []) :
    ∃ m, (p, m) ∈ MapFrame.places previous frames :=
  written.complete p (Std.TreeMap.mem_keys.mpr (mem_recorded_of_recordedAt h)) h

theorem finish_ok {map : StackMap} (small : ∀ p ∈ s.recorded, p ≤ 65535)
    (h : s.finish pool = .ok map final) :
    pool.Grows final ∧ Written s s.recorded.keys none final map.frames := by
  obtain ⟨frames, mid, wrote, done⟩ := exists_of_bind h
  cases done
  have sorted : s.recorded.keys.Pairwise (· < ·) :=
    Std.TreeMap.ordered_keys.imp fun less => by simpa [Nat.compare_eq_lt] using less
  obtain ⟨grown, new, whole, written⟩ := write_ok sorted (by simp)
    (fun p hp => small p (Std.TreeMap.mem_keys.mp hp)) wrote
  rw [List.reverse_nil, List.nil_append] at whole
  exact ⟨grown, whole ▸ written⟩

end Simulation

def Layout.Site (layout : Layout) (p : Nat) : Prop :=
  (∃ j ∈ layout.jumps.toList, p = j.1 ∨ p = j.2) ∨
  ∃ h ∈ layout.handlers.toList, p = h.handler.toNat

theorem Layout.contains_wanted (layout : Layout) (p : Nat) :
    layout.wanted.contains p ↔ layout.Site p := by
  have ends : ∀ (jumps : List (Nat × Nat)) (set : Std.HashSet Nat),
      (jumps.foldl (fun set j => (set.insert j.1).insert j.2) set).contains p ↔
        set.contains p ∨ ∃ j ∈ jumps, p = j.1 ∨ p = j.2 := by
    intro jumps
    induction jumps with
    | nil => simp
    | cons j rest ih =>
      intro set
      rw [List.foldl_cons, ih]
      simp only [Std.HashSet.contains_insert, Bool.or_eq_true, beq_iff_eq, List.mem_cons]
      grind
  have starts : ∀ (handlers : List Handler) (set : Std.HashSet Nat),
      (handlers.foldl (fun set h => set.insert h.handler.toNat) set).contains p ↔
        set.contains p ∨ ∃ h ∈ handlers, p = h.handler.toNat := by
    intro handlers
    induction handlers with
    | nil => simp
    | cons h rest ih =>
      intro set
      rw [List.foldl_cons, ih]
      simp only [Std.HashSet.contains_insert, Bool.or_eq_true, beq_iff_eq, List.mem_cons]
      grind
  unfold wanted
  rw [← Array.foldl_toList, ← Array.foldl_toList, starts]
  exact or_congr ((ends layout.jumps.toList ∅).trans (by simp)) Iff.rfl

end Bytecode
