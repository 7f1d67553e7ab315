/-! Sequences whose items take up a number of slots. An item is addressed by the slot at
which it begins: the sum of the widths before it, counted from the first slot. The constant
pool (from slot 1) and the operand stack (from slot 0) are addressed this way. Those two are
never long enough for a machine word to overflow and count in plain numbers; a sequence that
may start anywhere counts in machine words. -/
namespace Bytecode

/-- What slots are counted in. -/
class Counter (κ : Type) where
  origin : κ
  advance : κ → Nat → κ
  distance : κ → κ → Nat
  advance_zero : ∀ k, advance k 0 = k
  advance_advance : ∀ k m n, advance (advance k m) n = advance k (m + n)

namespace Counter

instance : Counter Nat where
  origin := 0
  advance := (· + ·)
  distance start stop := stop - start
  advance_zero := Nat.add_zero
  advance_advance := Nat.add_assoc

/-- Machine words start over at 2^64. -/
instance : Counter UInt64 where
  origin := 0
  advance k n := k + .ofNat n
  distance start stop := (stop - start).toNat
  advance_zero := UInt64.add_zero
  advance_advance k m n := by rw [UInt64.ofNat_add, UInt64.add_assoc]

theorem advance_nat (k n : Nat) : advance k n = k + n := rfl

end Counter

class Width (α : Type) where
  width : α → Nat

export Width (width)

/-- Slots taken by a list of items. -/
def slots {α : Type} [Width α] : List α → Nat
  | [] => 0
  | x :: rest => width x + slots rest

variable {α κ : Type} [Width α] [Counter κ]

theorem slots_append (xs ys : List α) : slots (xs ++ ys) = slots xs + slots ys := by
  induction xs with
  | nil => simp only [List.nil_append, slots, Nat.zero_add]
  | cons x rest ih =>
    simp only [List.cons_append, slots, ih]
    omega

namespace Slotted

/-- Items one after the other, each with the slot at which it begins. -/
def running (slot : κ) : List α → List (κ × α)
  | [] => []
  | x :: rest => (slot, x) :: running (Counter.advance slot (width x)) rest

theorem running_append (slot : κ) (xs ys : List α) :
    running slot (xs ++ ys) = running slot xs ++ running (Counter.advance slot (slots xs)) ys := by
  induction xs generalizing slot with
  | nil => simp only [List.nil_append, running, slots, Counter.advance_zero]
  | cons x rest ih => simp only [List.cons_append, running, ih, slots, Counter.advance_advance]

theorem push_back {β : Type} (xs : Array β) (filled : 0 < xs.size) :
    xs.pop.push (xs.back filled) = xs := by
  refine Array.toList_inj.mp ?_
  have ends := List.dropLast_concat_getLast (List.ne_nil_of_length_pos filled)
  rw [List.getLast_eq_getElem] at ends
  rw [Array.toList_push, Array.toList_pop]
  exact ends

/-- The entries are items that run on from the first slot, and the next slot is the one after
them. -/
structure Linked (start : κ) (entries : List (κ × α)) (next : κ) : Prop where
  running : entries = running start (entries.map (·.2))
  next : next = Counter.advance start (slots (entries.map (·.2)))

namespace Linked

variable {start next slot : κ} {entries : List (κ × α)} {x : α}

theorem nil (start : κ) : Linked start ([] : List (κ × α)) start :=
  ⟨rfl, (Counter.advance_zero start).symm⟩

theorem concat_iff : Linked start (entries ++ [(slot, x)]) next ↔
    Linked start entries slot ∧ next = Counter.advance slot (width x) := by
  have items : (entries ++ [(slot, x)]).map (·.2) = entries.map (·.2) ++ [x] := by simp
  have total : slots (entries.map (·.2) ++ [x]) = slots (entries.map (·.2)) + width x := by
    simp only [slots_append, slots, Nat.add_zero]
  constructor
  · rintro ⟨runs, ends⟩
    rw [items, running_append] at runs
    obtain ⟨before, last⟩ := List.append_inj' runs rfl
    cases last
    rw [items, total, ← Counter.advance_advance] at ends
    exact ⟨⟨before, rfl⟩, ends⟩
  · rintro ⟨⟨runs, rfl⟩, rfl⟩
    refine ⟨?_, by rw [items, total, Counter.advance_advance]⟩
    rw [items, running_append, ← runs]
    rfl

theorem pop {entries : Array (κ × α)} (h : Linked start entries.toList next)
    (filled : 0 < entries.size) : Linked start entries.pop.toList (entries.back filled).1 := by
  rw [← push_back entries filled, Array.toList_push] at h
  exact (concat_iff.mp h).1

end Linked

end Slotted

/-- Each item is kept with the slot at which it begins, and beside them the first free slot. -/
structure Slotted (α : Type) [Width α] (κ : Type := Nat) [Counter κ] where
  start : κ
  entries : Array (κ × α)
  next : κ
  linked : Slotted.Linked start entries.toList next

namespace Slotted

def startingAt (start : κ) : Slotted α κ := ⟨start, #[], start, .nil start⟩

def empty : Slotted α κ := startingAt Counter.origin

instance : Inhabited (Slotted α κ) := ⟨empty⟩

def size (s : Slotted α κ) : Nat := s.entries.size

def isEmpty (s : Slotted α κ) : Bool := s.entries.isEmpty

/-- Slots taken by all items. -/
def total (s : Slotted α κ) : Nat := Counter.distance s.start s.next

/-- Add an item; it begins at the slot that was free before. -/
def push (s : Slotted α κ) (x : α) : Slotted α κ where
  start := s.start
  entries := s.entries.push (s.next, x)
  next := Counter.advance s.next (width x)
  linked := by
    rw [Array.toList_push]
    exact Linked.concat_iff.mpr ⟨s.linked, rfl⟩

def extend (s : Slotted α κ) (xs : List α) : Slotted α κ := xs.foldl push s

def ofList (xs : List α) : Slotted α κ := empty.extend xs

/-- The last item and what is left without it. The slot at which it began is free again. -/
def pop? (s : Slotted α κ) : Option (α × Slotted α κ) :=
  if filled : 0 < s.entries.size then
    some ((s.entries.back filled).2, {
      start := s.start
      entries := s.entries.pop
      next := (s.entries.back filled).1
      linked := s.linked.pop filled })
  else none

def last? (s : Slotted α κ) : Option α := s.entries.back?.map (·.2)

/-- Of a number of entries from a place on, the place of the last that begins at the slot or
before it, by halving their number; the first place if there is none. -/
def lastUpTo [LT κ] [DecidableLT κ] (entries : Array (κ × α)) (slot : κ) (base count : Nat)
    (inside : base + count ≤ entries.size) : Nat :=
  if several : 1 < count then
    let half := count / 2
    if slot < (entries[base + half]).1 then lastUpTo entries slot base (count - half) (by omega)
    else lastUpTo entries slot (base + half) (count - half) (by omega)
  else base
termination_by count

/-- The item that begins at a slot. The second slot of a wide item holds nothing. -/
def get? [LT κ] [DecidableLT κ] [DecidableEq κ] (s : Slotted α κ) (slot : κ) : Option α :=
  match s.entries[lastUpTo s.entries slot 0 s.entries.size (Nat.le_of_eq (Nat.zero_add _))]? with
  | some (begins, x) => if begins = slot then some x else none
  | none => none

/-- Items in order, each with the slot at which it begins. -/
def toList (s : Slotted α κ) : List (κ × α) := s.entries.toList

def values (s : Slotted α κ) : List α := s.toList.map (·.2)

/-- Items, the latest first. -/
def items (s : Slotted α κ) : List α := s.values.reverse

/-- Two sequences are equal when their items are and begin at the same slots. -/
instance [BEq α] [BEq κ] : BEq (Slotted α κ) := ⟨fun a b => a.toList == b.toList⟩

def render [ToString κ] (text : α → String) (s : Slotted α κ) : String :=
  "[" ++ ", ".intercalate (s.toList.map fun (slot, x) => s!"#{slot} = " ++ text x) ++ "]"

end Slotted

end Bytecode
