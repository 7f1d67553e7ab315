import Bytecode.Method
import Bytecode.Proofs.Selection

/-! The frame at the start of a method. The arguments stand in the first local slots, each after the
slots of those before it, where the instructions for their types load them. -/
namespace Bytecode

theorem slots_ofField (parameters : List FieldType) :
    slots (parameters.map VType.ofField) = slots parameters := by
  induction parameters with
  | nil => rfl
  | cons t rest ih =>
    rw [List.map_cons, slots, slots, ih, VType.width_ofField]
    rfl

namespace Frame

theorem length_spread (values : List Held) : (spread values).length = slots values := by
  induction values with
  | nil => rfl
  | cons v rest ih =>
    rw [← List.singleton_append, spread_append, List.length_append, ih, slots_append]
    rcases v.width_eq_one_or_two with one | two
    · simp [spread, slots, one]
    · simp [spread, slots, two]

theorem getElem?_spread (before after : List Held) (v : Held) :
    (spread (before ++ v :: after))[slots before]? = some v := by
  rw [spread_append, ← length_spread, List.getElem?_append_right le_rfl, Nat.sub_self]
  unfold spread
  rw [List.flatMap_cons]
  split <;> rfl

theorem getElem?_spread_second (before after : List Held) {v : Held} (wide : width v = 2) :
    (spread (before ++ v :: after))[slots before + 1]? = some .top := by
  rw [spread_append, ← length_spread, List.getElem?_append_right (Nat.le_add_right _ 1),
    Nat.add_sub_cancel_left]
  simp [spread, wide]

structure Offers (f : Frame) (t : FieldType) (slot : Nat) : Prop where
  here : f.locals[slot]? = some (VType.ofField t)
  second : t = .prim .long ∨ t = .prim .double → f.locals[slot + 1]? = some .top
  loads : ∀ (index : UInt16) (position : Nat) (this : BinaryName), index.toNat = slot →
    f.executeRoot ((ResultType.value t).load index) position this = .ok (f.push (VType.ofField t))

theorem offers_of_split {arguments before after : List Held} {t : FieldType}
    (split : arguments = before ++ VType.ofField t :: after) :
    (ofArguments arguments).Offers t (slots before) := by
  have here : (ofArguments arguments).locals[slots before]? = some (VType.ofField t) := by
    rw [split]
    simpa [ofArguments] using getElem?_spread before after (VType.ofField t)
  refine ⟨here, fun wide => ?_, fun index position this same => ?_⟩
  · have two : width (VType.ofField t) = 2 := by rcases wide with rfl | rfl <;> rfl
    rw [split]
    simpa [ofArguments] using getElem?_spread_second before after two
  · refine var_load _ index t _ ?_
    rw [same, slot, Array.getD_eq_getD_getElem?, here]
    rfl

end Frame

namespace Body

def initial (b : Body) : Frame := .ofArguments b.entry

variable (owner : BinaryName) (name : MemberName) (s : Signature) (static : Bool)

theorem slots_entryTypes : slots (entryTypes owner name s static) = s.parameterSlots (!static) := by
  have receives : width (receiver owner name) = 1 := by
    unfold receiver
    split <;> rfl
  rw [entryTypes, slots_append, slots_ofField]
  cases static <;> simp [slots, receives, Signature.parameterSlots]

/-- The arguments before a parameter are those of the shorter signature. -/
theorem entryTypes_split {k : Nat} {t : FieldType} (here : s.parameters[k]? = some t) :
    entryTypes owner name s static = entryTypes owner name ⟨s.parameters.take k, s.result⟩ static ++
      VType.ofField t :: (s.parameters.drop (k + 1)).map VType.ofField := by
  obtain ⟨inside, rfl⟩ := List.getElem?_eq_some_iff.mp here
  have split := List.take_append_drop k s.parameters
  rw [List.drop_eq_getElem_cons inside] at split
  rw [entryTypes, entryTypes, List.append_assoc, ← List.map_cons, ← List.map_append, split]

/-- The slots of a method's first frame are those that its signature counts. The receiver has the first
one, and each parameter arrives after the receiver and the parameters before it. -/
theorem arguments_arrive (locals : UInt16) (tree : Tree) :
    (make owner name s static locals tree).initial.locals.size = s.parameterSlots (!static) ∧
      (static = false → (make owner name s static locals tree).initial.locals[0]? =
        some (receiver owner name)) ∧
      ∀ k t, s.parameters[k]? = some t → (make owner name s static locals tree).initial.Offers t
        ((if static then 0 else 1) + slots (s.parameters.take k)) := by
  refine ⟨?_, fun dynamic => ?_, fun k t here => ?_⟩
  · rw [← slots_entryTypes owner name s static, ← Frame.length_spread]
    rfl
  · rw [dynamic]
    exact List.getElem?_toArray.trans
      (Frame.getElem?_spread [] (s.parameters.map VType.ofField) (receiver owner name))
  · have before := slots_entryTypes owner name ⟨s.parameters.take k, s.result⟩ static
    have offers := Frame.offers_of_split (entryTypes_split owner name s static here)
    rw [before] at offers
    cases static <;> exact offers

def mixed : Signature :=
  ⟨[.prim .long, .prim .int, .prim .double, .ref (.object .throwable)], .void⟩

/-- A constructor with wide and narrow parameters; the third is loaded from slot 4. -/
theorem arguments_arrive_mixed :
    (make .throwable .init mixed false 0 .unit).initial.locals =
      #[.uninitThis, .long, .top, .int, .double, .top, .object (.object .throwable)] ∧
    (make .throwable .init mixed false 0 .unit).initial.locals.size = mixed.parameterSlots true ∧
    (make .throwable .init mixed false 0 .unit).initial.locals[0]? =
      some (receiver .throwable .init) ∧
    (make .throwable .init mixed false 0 .unit).initial.Offers (.prim .double) 4 := by
  have all := arguments_arrive .throwable .init mixed false 0 .unit
  exact ⟨by cbv, all.1, all.2.1 rfl, all.2.2 2 (.prim .double) rfl⟩

end Body

end Bytecode
