import Bytecode.Slotted

/-! Sequences of items with widths, seen as lists of slots and items. Each item stands at the sum of
the widths before it. The search by halving relies on this order: it ends at the last item that begins
at a slot, and where every item has a width there is no other. -/
namespace Bytecode

variable {α κ : Type} [Width α] [Counter κ]

theorem slots_reverse (xs : List α) : slots xs.reverse = slots xs := by
  induction xs with
  | nil => rfl
  | cons x rest ih =>
    simp only [List.reverse_cons, slots_append, slots, ih]
    omega

namespace Slotted

theorem toList_eq_running (s : Slotted α κ) : s.toList = running s.start s.values := s.linked.running

theorem toList_push (s : Slotted α κ) (x : α) : (s.push x).toList = s.toList ++ [(s.next, x)] :=
  Array.toList_push

theorem values_push (s : Slotted α κ) (x : α) : (s.push x).values = s.values ++ [x] := by
  rw [values, toList_push, List.map_append]
  rfl

theorem items_push (s : Slotted α κ) (x : α) : (s.push x).items = x :: s.items := by
  rw [items, values_push, List.reverse_concat]
  rfl

theorem values_extend (s : Slotted α κ) (xs : List α) : (s.extend xs).values = s.values ++ xs := by
  induction xs generalizing s with
  | nil => exact (List.append_nil _).symm
  | cons x rest ih =>
    refine (ih (s.push x)).trans ?_
    rw [values_push, List.append_assoc]
    rfl

theorem items_extend (s : Slotted α κ) (xs : List α) :
    (s.extend xs).items = xs.reverse ++ s.items := by
  rw [items, values_extend, List.reverse_append]
  rfl

theorem values_ofList (xs : List α) : (ofList xs : Slotted α κ).values = xs := values_extend empty xs

theorem start_extend (s : Slotted α κ) (xs : List α) : (s.extend xs).start = s.start := by
  induction xs generalizing s with
  | nil => rfl
  | cons x xs ih => exact ih (s.push x)

theorem mem_items {s : Slotted α κ} {x : α} : x ∈ s.items ↔ x ∈ s.values := List.mem_reverse

theorem mem_items_push {s : Slotted α κ} {x y : α} : x ∈ (s.push y).items ↔ x = y ∨ x ∈ s.items := by
  rw [items_push, List.mem_cons]

theorem size_eq_length (s : Slotted α κ) : s.size = s.values.length := by simp [size, values, toList]

theorem eq_of_entries {s t : Slotted α κ} (start : s.start = t.start) (entries : s.entries = t.entries) :
    s = t := by
  have next : s.next = t.next := by
    rw [s.linked.next, t.linked.next, start, entries]
  cases s
  cases t
  cases start
  cases entries
  cases next
  rfl

theorem pop?_push (s : Slotted α κ) (x : α) : (s.push x).pop? = some (x, s) := by
  have last : ∀ filled, (s.push x).entries.back filled = (s.next, x) := by
    simp [push, Array.back]
  have left : (s.push x).entries.pop = s.entries := Array.pop_push
  rw [pop?, dif_pos (by simp [push])]
  simp only [last, left]
  rfl

/-- Nothing can be taken from what is empty; all else has a last item. -/
theorem empty_or_push (s : Slotted α κ) :
    s.items = [] ∧ s.pop? = none ∨ ∃ rest x, s = push rest x := by
  by_cases filled : 0 < s.entries.size
  · refine .inr ⟨⟨s.start, s.entries.pop, _, s.linked.pop filled⟩, (s.entries.back filled).2, ?_⟩
    exact eq_of_entries rfl (push_back s.entries filled).symm
  · have none : s.entries = #[] := Array.eq_empty_of_size_eq_zero (by omega)
    refine .inl ⟨?_, dif_neg filled⟩
    simp [items, values, toList, none]

theorem eq_push_of_pop? {s rest : Slotted α κ} {x : α} (h : s.pop? = some (x, rest)) :
    s = rest.push x := by
  rcases s.empty_or_push with ⟨_, none⟩ | ⟨rest, x, rfl⟩
  · rw [none] at h
    cases h
  · rw [pop?_push] at h
    cases h
    rfl

theorem last?_eq_head? (s : Slotted α κ) : s.last? = s.items.head? := by
  simp [last?, items, values, toList]

theorem mem_values_iff (s : Slotted α κ) (x : α) : x ∈ s.values ↔ ∃ n, (n, x) ∈ s.toList := by
  simp [values]

theorem next_eq_values (s : Slotted α) : s.next = s.start + slots s.values := s.linked.next

theorem total_eq_values (s : Slotted α) : s.total = slots s.values := by
  show s.next - s.start = slots s.values
  rw [next_eq_values, Nat.add_sub_cancel_left]

theorem le_of_mem_running {slot n : Nat} {xs : List α} {x : α} (h : (n, x) ∈ running slot xs) :
    slot ≤ n ∧ n + width x ≤ slot + slots xs := by
  induction xs generalizing slot with
  | nil => cases h
  | cons y rest ih =>
    simp only [running, Counter.advance_nat, List.mem_cons, Prod.mk.injEq] at h
    simp only [slots]
    rcases h with ⟨rfl, rfl⟩ | h
    · omega
    · have := ih h
      omega

theorem pairwise_running (slot : Nat) (xs : List α) :
    (running slot xs).Pairwise fun a b => a.1 + width a.2 ≤ b.1 := by
  induction xs generalizing slot with
  | nil => exact .nil
  | cons x rest ih => exact .cons (fun _ later => (le_of_mem_running later).1) (ih _)

theorem lt_next_of_mem (s : Slotted α) {n : Nat} {x : α} (h : (n, x) ∈ s.toList) :
    s.start ≤ n ∧ n + width x ≤ s.next := by
  rw [toList_eq_running] at h
  rw [next_eq_values]
  exact le_of_mem_running h

theorem ends_le (s : Slotted α) {i j : Nat} (before : i < j) (inside : j < s.entries.size) :
    s.entries[i].1 + width s.entries[i].2 ≤ s.entries[j].1 := by
  have apart := pairwise_running s.start s.values
  rw [← toList_eq_running] at apart
  exact List.pairwise_iff_getElem.mp apart i j _ inside before

theorem begins_le (s : Slotted α) {i j : Nat} (before : i ≤ j) (inside : j < s.entries.size) :
    s.entries[i].1 ≤ s.entries[j].1 := by
  rcases Nat.lt_or_eq_of_le before with before | rfl
  · have := s.ends_le before inside
    omega
  · exact Nat.le_refl _

/-- Halving ends at a place among those searched, and of the places after the first it parts those
that begin up to the slot from the rest. -/
theorem lastUpTo_parts (s : Slotted α) (slot base count : Nat)
    (inside : base + count ≤ s.entries.size) (filled : 0 < count) :
    ∃ place, lastUpTo s.entries slot base count inside = place ∧
      base ≤ place ∧ place < base + count ∧
      ∀ j (within : j < base + count), base < j → (s.entries[j].1 ≤ slot ↔ j ≤ place) := by
  fun_induction lastUpTo s.entries slot base count inside with
  | case1 base count inside several half later ih =>
    obtain ⟨place, found, low, high, parts⟩ := ih (by omega)
    refine ⟨place, found, low, by omega, fun j within after => ?_⟩
    by_cases near : j < base + (count - half)
    · exact parts j near after
    -- What was cut off begins no earlier than the entry in the middle.
    · have := s.begins_le (i := base + half) (j := j) (by omega) (by omega)
      omega
  | case2 base count inside several half upTo ih =>
    obtain ⟨place, found, low, high, parts⟩ := ih (by omega)
    refine ⟨place, found, by omega, by omega, fun j within after => ?_⟩
    by_cases near : base + half < j
    · exact parts j (by omega) near
    -- What was passed over begins no later than the entry in the middle.
    · have := s.begins_le (i := j) (j := base + half) (by omega) (by omega)
      omega
  | case3 base count inside single =>
    exact ⟨base, rfl, Nat.le_refl _, by omega, fun j within after => by omega⟩

/-- What is found at a slot is the last item that begins there. -/
theorem get?_eq_some_iff (s : Slotted α) {n : Nat} {x : α} : s.get? n = some x ↔
    ∃ i : Nat, s.entries[i]? = some (n, x) ∧
      ∀ (j : Nat) (e : Nat × α), i < j → s.entries[j]? = some e → e.1 ≠ n := by
  by_cases filled : 0 < s.entries.size
  · obtain ⟨place, found, -, inside, parts⟩ := s.lastUpTo_parts n 0 s.entries.size (by omega) filled
    rw [Nat.zero_add] at inside
    rw [get?, found, Array.getElem?_eq_getElem inside]
    constructor
    · intro h
      obtain ⟨here, same⟩ := Option.ite_none_right_eq_some.mp h
      cases same
      refine ⟨place, by rw [← here]; exact Array.getElem?_eq_getElem inside,
        fun j e after there => ?_⟩
      obtain ⟨within, rfl⟩ := Array.getElem?_eq_some_iff.mp there
      have := parts j (by omega) (by omega)
      omega
    · rintro ⟨i, here, last⟩
      obtain ⟨within, begins⟩ := Array.getElem?_eq_some_iff.mp here
      have upTo : i ≤ place := by
        by_cases first : i = 0
        · omega
        · exact (parts i (by omega) (by omega)).mp (Nat.le_of_eq (by rw [begins]))
      -- An entry that begins there too, but later, is excluded.
      rcases Nat.lt_or_eq_of_le upTo with before | rfl
      · have low := s.begins_le upTo inside
        have high := (parts place (by omega) (by omega)).mpr (Nat.le_refl _)
        rw [begins] at low
        exact absurd (Nat.le_antisymm high low)
          (last place _ before (Array.getElem?_eq_getElem inside))
      · rw [begins]
        exact if_pos rfl
  · have none : ∀ i, s.entries[i]? = none := fun i => Array.getElem?_eq_none (by omega)
    simp [get?, none]

theorem get?_eq_some (positive : ∀ x : α, 0 < width x) (s : Slotted α) {n : Nat} {x : α} :
    s.get? n = some x ↔ (n, x) ∈ s.toList := by
  rw [get?_eq_some_iff, toList, List.mem_iff_getElem?]
  simp only [Array.getElem?_toList]
  refine exists_congr fun i => ⟨fun h => h.1, fun here => ⟨here, fun j e after there => ?_⟩⟩
  obtain ⟨_, begins⟩ := Array.getElem?_eq_some_iff.mp here
  obtain ⟨inside, rfl⟩ := Array.getElem?_eq_some_iff.mp there
  have ends := s.ends_le after inside
  have := positive x
  simp only [begins] at ends
  omega

end Slotted

end Bytecode
