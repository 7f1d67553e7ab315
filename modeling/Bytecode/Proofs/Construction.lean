import Bytecode.Proofs.Selection

/-! Constructor calls. The object on which a constructor was called is usable from then on, in every
place that holds it; all else stays where it is and what it is. -/
namespace Bytecode

namespace Slotted

variable {α : Type} [Width α]

theorem slots_map {f : α → α} (same : ∀ x, width (f x) = width x) (xs : List α) :
    slots (xs.map f) = slots xs := by
  induction xs with
  | nil => rfl
  | cons x xs ih => rw [List.map_cons, slots, slots, same, ih]

theorem mem_running_add {start slot n : Nat} {xs : List α} {x : α} :
    (start + n, x) ∈ running (start + slot) xs ↔ (n, x) ∈ running slot xs := by
  induction xs generalizing slot with
  | nil => simp [running]
  | cons y ys ih =>
    simp only [running, Counter.advance_nat, List.mem_cons, Prod.mk.injEq, Nat.add_left_cancel_iff,
      Nat.add_assoc, ih]

theorem mem_running_map {f : α → α} (same : ∀ x, width (f x) = width x) {slot n : Nat} {xs : List α}
    {y : α} : (n, y) ∈ running slot (xs.map f) ↔ ∃ x, (n, x) ∈ running slot xs ∧ f x = y := by
  induction xs generalizing slot with
  | nil => simp [running]
  | cons x xs ih =>
    simp only [List.map_cons, running, List.mem_cons, Prod.mk.injEq, same, ih]
    grind

variable (positive : ∀ x : α, 0 < width x)
include positive

theorem get?_extend (s : Slotted α) (xs : List α) {n : Nat} (low : n < s.next) :
    (s.extend xs).get? n = s.get? n := by
  refine Option.ext fun x => ?_
  rw [get?_eq_some positive, get?_eq_some positive, toList_eq_running, toList_eq_running,
    start_extend, values_extend, running_append, List.mem_append, Counter.advance_nat,
    ← s.next_eq_values]
  refine or_iff_left fun above => ?_
  have := (le_of_mem_running above).1
  omega

/-- To rebuild a sequence with items of the same widths leaves each at its distance from the
start. -/
theorem get?_ofList_map {f : α → α} (same : ∀ x, width (f x) = width x) (s : Slotted α) (n : Nat) :
    (ofList (s.values.map f)).get? n = (s.get? (s.start + n)).map f := by
  refine Option.ext fun y => ?_
  have start : (ofList (s.values.map f)).start = 0 := start_extend empty _
  rw [get?_eq_some positive, toList_eq_running, values_ofList, start, mem_running_map same,
    Option.map_eq_some_iff]
  refine exists_congr fun x => and_congr_left fun _ => ?_
  rw [get?_eq_some positive, toList_eq_running]
  exact mem_running_add.symm

end Slotted

theorem Operand.width_of_accepts {t : FieldType} {v : Held} (h : (ofType t).accepts v) :
    width v = width t := by
  cases t with
  | ref r => exact VType.width_of_isReference h
  | prim p =>
    cases p <;>
    · simp only [ofType, VType.ofField, accepts, decide_eq_true_eq] at h
      rw [← h]
      rfl

theorem slots_of_fitting {parameters : List FieldType} {arguments : List Held}
    (fit : List.Forall₂ (fun t v => (Operand.ofType t).accepts v = true) parameters arguments) :
    slots arguments = slots parameters := by
  induction fit with
  | nil => rfl
  | cons here _ ih => rw [slots, slots, Operand.width_of_accepts here, ih]

namespace Frame

/-- Place by place, where the raw object was there is the one that was made of it, and all else is as
it was. -/
def Turned (raw made : Held) : List Held → List Held → Prop :=
  List.Forall₂ fun v w => if v = raw then w = made else w = v

structure Constructed (s : Signature) (f g : Frame) (raw made : Held) (below arguments : List Held) :
    Prop where
  found : f.stack.values = below ++ raw :: arguments
  fitting : List.Forall₂ (fun t v => (Operand.ofType t).accepts v = true) s.parameters arguments
  locals : Turned raw made f.locals.toList g.locals.toList
  stack : Turned raw made below g.stack.values
  gone : raw ∉ g.locals.toList ∧ raw ∉ g.stack.values
  shorter : g.stack.size + 1 + s.parameters.length = f.stack.size
  room : g.stackSlots + 1 + slots s.parameters = f.stackSlots
  /-- What is left on the stack is as high above its bottom as before. -/
  inPlace : ∀ n < g.stackSlots, g.stack.get? n =
    (f.stack.get? (f.stack.start + n)).map fun v => if v = raw then made else v

variable {f g : Frame} {owner : RefType} {s : Signature} {declared : ResultType} {position : Nat}
  {this : BinaryName} {raw made : Held}

theorem turned_map (values : List Held) :
    Turned raw made values (values.map fun v => if v = raw then made else v) := by
  unfold Turned
  rw [List.forall₂_map_right_iff, List.forall₂_same]
  intro v _
  split <;> rfl

theorem notMem_turned (differ : raw ≠ made) (values : List Held) :
    raw ∉ values.map fun v => if v = raw then made else v := by
  rw [List.mem_map]
  rintro ⟨v, _, same⟩
  split at same
  · exact differ same.symm
  · contradiction

/-- What a constructor call finds on the stack, and what it makes of the frame. -/
theorem execute_init (h : f.execute (.invoke .special owner .init s) declared position this = .ok g) :
    ∃ rest raw made arguments, f.stack = rest.extend (raw :: arguments) ∧
      List.Forall₂ (fun t v => (Operand.ofType t).accepts v = true) s.parameters arguments ∧
      initialized owner this raw = some made ∧ g = replace raw made ⟨f.locals, rest⟩ := by
  obtain ⟨stack, taken, h⟩ := ok_of_bind h
  obtain ⟨values, fit, found⟩ := Stack.takeAll_ok taken
  rw [List.forall₂_map_left_iff, ← values.reverse_reverse, List.forall₂_reverse_iff] at fit
  rw [if_pos ⟨rfl, rfl⟩] at h
  obtain ⟨raw, made, rest, received, _, new, rfl⟩ := construct_ok h
  refine ⟨rest, raw, made, values.reverse, ?_, fit, new, rfl⟩
  exact found.trans (congrArg (Slotted.extend · values.reverse) received)

theorem width_turned (h : initialized owner this raw = some made) (v : Held) :
    width (if v = raw then made else v) = width v := by
  split
  · rename_i same
    rw [same, (width_initialized h).1, (width_initialized h).2]
  · rfl

theorem constructed_replace {rest : Stack} {arguments : List Held}
    (found : f.stack = rest.extend (raw :: arguments))
    (fit : List.Forall₂ (fun t v => (Operand.ofType t).accepts v = true) s.parameters arguments)
    (h : initialized owner this raw = some made) :
    Constructed s f (replace raw made ⟨f.locals, rest⟩) raw made rest.values arguments := by
  have differ : raw ≠ made := by
    rcases initialized_cases h with ⟨rfl, rfl⟩ | ⟨_, rfl, rfl⟩ <;> simp
  have values : f.stack.values = rest.values ++ raw :: arguments := by
    rw [found, Slotted.values_extend]
  have locals : (replace raw made ⟨f.locals, rest⟩).locals.toList =
      f.locals.toList.map fun v => if v = raw then made else v := Array.toList_map ..
  have stack : (replace raw made ⟨f.locals, rest⟩).stack.values =
      rest.values.map fun v => if v = raw then made else v := Slotted.values_ofList _
  have room : (replace raw made ⟨f.locals, rest⟩).stackSlots = slots rest.values := by
    rw [stackSlots_eq, stack, Slotted.slots_map (width_turned h)]
  refine ⟨values, fit, ?_, ?_, ⟨?_, ?_⟩, ?_, ?_, fun n low => ?_⟩
  · exact locals ▸ turned_map _
  · exact stack ▸ turned_map _
  · exact locals ▸ notMem_turned differ _
  · exact stack ▸ notMem_turned differ _
  · rw [Slotted.size_eq_length, Slotted.size_eq_length, stack, values, List.length_map,
      List.length_append, List.length_cons, fit.length_eq]
    omega
  · rw [room, stackSlots_eq, values, slots_append, slots,
      (width_initialized h).1, slots_of_fitting fit]
    omega
  · rw [room] at low
    have below : rest.start + n < rest.next := by
      rw [rest.next_eq_values]
      omega
    rw [found, Slotted.start_extend, Slotted.get?_extend VType.width_pos rest _ below]
    exact Slotted.get?_ofList_map VType.width_pos (width_turned h) rest n

theorem constructor_initializes
    (h : f.execute (.invoke .special owner .init s) declared position this = .ok g) :
    ∃ below raw made arguments, Constructed s f g raw made below arguments ∧
      (raw = .uninitThis ∧ made = .object (.object this) ∨
        ∃ offset, raw = .uninit offset ∧ made = .object owner) := by
  obtain ⟨rest, raw, made, arguments, found, fit, new, rfl⟩ := execute_init h
  exact ⟨rest.values, raw, made, arguments, constructed_replace found fit new,
    initialized_cases new⟩

/-- Two objects are under way, each in a variable and on the stack, and above a second copy of the one
lie the arguments of its constructor. -/
def underway : Frame :=
  ⟨#[.uninit 4, .long, .top, .uninit 0],
    .ofList [.uninit 0, .double, .uninit 4, .uninit 0, .int, .long]⟩

/-- Both copies of the one object that are left become usable, the other object does not. -/
theorem constructor_initializes_underway : ∃ g : Frame,
    underway.execute (.invoke .special (.object .throwable) .init ⟨[.prim .int, .prim .long], .void⟩)
      .void 9 .object = .ok g ∧
    g.locals = #[.uninit 4, .long, .top, .object (.object .throwable)] ∧
    g.stack.values = [.object (.object .throwable), .double, .uninit 4] ∧
    ∃ below raw made arguments,
      Constructed ⟨[.prim .int, .prim .long], .void⟩ underway g raw made below arguments ∧
      (raw = .uninitThis ∧ made = .object (.object .object) ∨
        ∃ offset, raw = .uninit offset ∧ made = .object (.object .throwable)) := by
  have ran : underway.execute
      (.invoke .special (.object .throwable) .init ⟨[.prim .int, .prim .long], .void⟩) .void 9 .object =
        .ok ⟨#[.uninit 4, .long, .top, .object (.object .throwable)],
          .ofList [.object (.object .throwable), .double, .uninit 4]⟩ := by cbv
  exact ⟨_, ran, rfl, rfl, constructor_initializes ran⟩

end Frame

end Bytecode
