import Bytecode.Descriptor
import Bytecode.Proofs.Slots
import Mathlib

/-! Sequences under any edits, counted in machine words. Whatever is added and taken off, a sequence
holds the items that a plain list would hold after the same edits. Each begins at the sum of the widths
before it, and as long as no sum passes the end of the words, it is found there and nowhere else. -/
namespace Bytecode

variable {α κ : Type} [Width α] [Counter κ]

theorem slots_eq_sum (xs : List α) : slots xs = (xs.map width).sum := by
  induction xs with
  | nil => rfl
  | cons x rest ih => simp [slots, ih]

namespace Edit

end Edit

namespace Slotted

def before (xs : List α) (place : Nat) : Nat := ((xs.take place).map width).sum

theorem getElem?_running (slot : κ) (xs : List α) (place : Nat) : (running slot xs)[place]? =
    xs[place]?.map fun x => (Counter.advance slot (before xs place), x) := by
  induction xs generalizing slot place with
  | nil => rfl
  | cons x rest ih =>
    cases place with
    | zero => simp [running, before, Counter.advance_zero]
    | succ place =>
      have later : before (x :: rest) (place + 1) = width x + before rest place := by
        simp only [before, List.take_succ_cons, List.map_cons, List.sum_cons]
      rw [running, List.getElem?_cons_succ, ih, List.getElem?_cons_succ, later,
        Counter.advance_advance]

theorem getElem?_toList (s : Slotted α κ) (place : Nat) : s.toList[place]? =
    s.values[place]?.map fun x => (Counter.advance s.start (before s.values place), x) := by
  rw [toList_eq_running, getElem?_running]

theorem map_fst_pop? (s : Slotted α κ) : s.pop?.map (·.1) = s.values.getLast? := by
  rcases s.empty_or_push with ⟨none, gone⟩ | ⟨rest, x, rfl⟩
  · rw [gone, List.reverse_eq_nil_iff.mp none]
    rfl
  · rw [pop?_push, values_push, List.getLast?_concat]
    rfl

theorem apart (s : Slotted α) {m n : Nat} {x y : α} (first : (m, x) ∈ s.toList)
    (second : (n, y) ∈ s.toList) : m = n ∨ m + width x ≤ n ∨ n + width y ≤ m := by
  obtain ⟨i, here, begins⟩ := Array.mem_iff_getElem.mp (Array.mem_toList_iff.mp first)
  obtain ⟨j, there, begins'⟩ := Array.mem_iff_getElem.mp (Array.mem_toList_iff.mp second)
  rcases Nat.lt_trichotomy i j with before | rfl | after
  · have ends := s.ends_le before there
    rw [begins, begins'] at ends
    exact .inr (.inl ends)
  · cases begins.symm.trans begins'
    exact .inl rfl
  · have ends := s.ends_le after here
    rw [begins, begins'] at ends
    exact .inr (.inr ends)

section Words

/-! While no sum of widths passes the end of the words, a sequence counts as one in plain numbers
does. -/

theorem toNat_advance {slot : UInt64} {n : Nat} (fits : slot.toNat + n < 2 ^ 64) :
    (Counter.advance slot n).toNat = slot.toNat + n := by
  have small : n < 2 ^ 64 := by omega
  show (slot + .ofNat n).toNat = _
  rw [UInt64.toNat_add, UInt64.toNat_ofNat_of_lt' small, Nat.mod_eq_of_lt fits]

def plain (e : UInt64 × α) : Nat × α := (e.1.toNat, e.2)

theorem running_toNat {slot : UInt64} {xs : List α} (fits : slot.toNat + slots xs < 2 ^ 64) :
    running slot.toNat xs = (running slot xs).map plain := by
  induction xs generalizing slot with
  | nil => rfl
  | cons x rest ih =>
    rw [slots, ← Nat.add_assoc] at fits
    have next : (Counter.advance slot (width x)).toNat = slot.toNat + width x :=
      toNat_advance (by omega)
    rw [← next] at fits
    rw [running, running, List.map_cons, ← ih fits, next]
    rfl

/-- The same items, counted in plain numbers. -/
def counted (s : Slotted α UInt64) : Slotted α := (startingAt s.start.toNat).extend s.values

variable (s : Slotted α UInt64)

theorem start_counted : s.counted.start = s.start.toNat := start_extend _ _

theorem values_counted : s.counted.values = s.values := values_extend _ _

variable {s} (fits : s.start.toNat + slots s.values < 2 ^ 64)

include fits

theorem toList_counted : s.counted.toList = s.toList.map plain := by
  rw [toList_eq_running, start_counted, values_counted, running_toNat fits, ← toList_eq_running]

theorem next_counted : s.counted.next = s.next.toNat := by
  rw [next_eq_values, start_counted, values_counted, s.linked.next]
  exact (toNat_advance fits).symm

omit [Width α] fits in
theorem lastUpTo_plain (entries : Array (UInt64 × α)) (slot : UInt64) (base count : Nat)
    (inside : base + count ≤ (entries.map plain).size) :
    lastUpTo (entries.map plain) slot.toNat base count inside =
      lastUpTo entries slot base count (Array.size_map ▸ inside) := by
  fun_induction lastUpTo (entries.map plain) slot.toNat base count inside with
  | case1 base count inside several half later ih =>
    rw [ih, lastUpTo.eq_def entries slot base count, dif_pos several, if_pos]
    simpa [plain, UInt64.lt_iff_toNat_lt] using later
  | case2 base count inside several half upTo ih =>
    rw [ih, lastUpTo.eq_def entries slot base count, dif_pos several, if_neg]
    simpa [plain, UInt64.le_iff_toNat_le] using upTo
  | case3 base count inside single => rw [lastUpTo, dif_neg single]

theorem get?_counted (slot : UInt64) : s.counted.get? slot.toNat = s.get? slot := by
  have entries : s.counted.entries = s.entries.map plain :=
    Array.toList_inj.mp ((toList_counted fits).trans Array.toList_map.symm)
  simp only [get?, entries, Array.size_map, lastUpTo_plain, Array.getElem?_map]
  cases s.entries[lastUpTo s.entries slot 0 s.entries.size _]? with
  | none => rfl
  | some e => simp only [Option.map_some, plain, UInt64.toNat_inj]

end Words

structure Holds (start : UInt64) (xs : List α) (s : Slotted α UInt64) : Prop where
  values : s.values = xs
  entries : ∀ place : Nat,
    s.toList[place]? = xs[place]?.map fun x => (start + .ofNat (before xs place), x)
  next : s.next = start + .ofNat (xs.map width).sum
  total : s.total = (xs.map width).sum % 2 ^ 64
  last : s.last? = xs.getLast?
  popped : s.pop?.map (·.1) = xs.getLast?

structure Laid (start : UInt64) (xs : List α) (s : Slotted α UInt64) : Prop where
  entries : ∀ place : Nat,
    s.toList[place]?.map plain = xs[place]?.map fun x => (start.toNat + before xs place, x)
  next : s.next.toNat = start.toNat + (xs.map width).sum
  total : s.total = (xs.map width).sum
  found : ∀ slot x, s.get? slot = some x ↔
    ∃ place : Nat, xs[place]? = some x ∧ slot.toNat = start.toNat + before xs place
  /-- Only the first of the slots of an item leads to it. -/
  inner : ∀ (place : Nat) (x : α) (slot : UInt64), xs[place]? = some x →
    start.toNat + before xs place < slot.toNat →
    slot.toNat < start.toNat + before xs place + width x → s.get? slot = none
  outer : ∀ slot, slot < start ∨ s.next ≤ slot → s.get? slot = none

theorem holds (s : Slotted α UInt64) : Holds s.start s.values s where
  values := rfl
  entries := s.getElem?_toList
  next := by
    rw [← slots_eq_sum]
    exact s.linked.next
  total := by
    have next : s.next = s.start + .ofNat (slots s.values) := s.linked.next
    show (s.next - s.start).toNat = _
    rw [next, UInt64.add_comm, UInt64.add_sub_cancel, UInt64.toNat_ofNat', slots_eq_sum]
  last := by rw [last?_eq_head?, items, List.head?_reverse]
  popped := s.map_fst_pop?

theorem mem_toList_iff (s : Slotted α) {slot : Nat} {x : α} : (slot, x) ∈ s.toList ↔
    ∃ place : Nat, s.values[place]? = some x ∧ slot = s.start + before s.values place := by
  simp only [List.mem_iff_getElem?, getElem?_toList, Option.map_eq_some_iff, Prod.mk.injEq]
  constructor
  · rintro ⟨place, _, found, rfl, rfl⟩
    exact ⟨place, found, rfl⟩
  · rintro ⟨place, found, rfl⟩
    exact ⟨place, x, found, rfl, rfl⟩

theorem laid (positive : ∀ x : α, 1 ≤ width x) {s : Slotted α UInt64}
    (fits : s.start.toNat + (s.values.map width).sum < 2 ^ 64) : Laid s.start s.values s := by
  rw [← slots_eq_sum] at fits
  have entry {slot : UInt64} {x : α} : s.get? slot = some x ↔ (slot.toNat, x) ∈ s.counted.toList := by
    rw [← get?_counted fits, get?_eq_some positive]
  have place {slot : Nat} {x : α} : (slot, x) ∈ s.counted.toList ↔
      ∃ place : Nat, s.values[place]? = some x ∧ slot = s.start.toNat + before s.values place := by
    rw [mem_toList_iff, start_counted, values_counted]
  have next : s.next.toNat = s.start.toNat + slots s.values := by
    rw [← next_counted fits, next_eq_values, start_counted, values_counted]
  exact {
    entries := fun i => by
      rw [← List.getElem?_map, ← toList_counted fits, getElem?_toList, start_counted,
        values_counted]
      rfl
    next := by rw [next, slots_eq_sum]
    total := by
      rw [s.holds.total, ← slots_eq_sum]
      exact Nat.mod_eq_of_lt (by omega)
    found := fun slot x => entry.trans place
    inner := fun i x slot here above below => by
      refine Option.eq_none_iff_forall_ne_some.mpr fun y found => ?_
      have := s.counted.apart (place.mpr ⟨i, here, rfl⟩) (entry.mp found)
      have := positive y
      omega
    outer := fun slot outside => by
      refine Option.eq_none_iff_forall_ne_some.mpr fun y found => ?_
      have within := s.counted.lt_next_of_mem (entry.mp found)
      rw [start_counted, next_counted fits] at within
      rw [UInt64.lt_iff_toNat_lt, UInt64.le_iff_toNat_le] at outside
      have := positive y
      omega }

end Slotted

end Bytecode
