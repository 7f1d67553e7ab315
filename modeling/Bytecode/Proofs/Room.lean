import Bytecode.Proofs.Merging
import Bytecode.Proofs.Precision

/-! The room that frames take. An instruction changes the number of local slots only as far as the
variable needs that it names, and a wide value never stands in the last slot, so that a frame as it
is written takes no more slots than it has while the code is simulated. -/
namespace Bytecode

theorem ok_of_bind {ε α β : Type} {x : Except ε α} {f : α → Except ε β} {b : β}
    (h : x >>= f = .ok b) : ∃ a, x = .ok a ∧ f a = .ok b := by
  cases x with
  | error e => cases h
  | ok a => exact ⟨a, rfl, h⟩

/-- The local slots up to the end of the variable that an instruction names. -/
def Leaf.span : Leaf → Nat
  | .var op index => index.toNat + op.kind.slots
  | _ => 0

namespace VType

variable {κ : Type}

theorem width_pos (v : VType κ) : 0 < width v := by
  have := v.width_eq_one_or_two
  omega

theorem width_of_isReference {v : VType κ} (h : v.isReference) : width v = 1 := by
  cases v <;> first | rfl | cases h

theorem length_le_slots (values : List (VType κ)) : values.length ≤ slots values := by
  induction values with
  | nil => exact Nat.le_refl _
  | cons v rest ih =>
    have := width_pos v
    simp only [List.length_cons, slots]
    omega

theorem width_of_resolve {v : Held} {w : VType UInt16} {p q : Pool} (h : v.resolve p = .ok w q) :
    width w = width v := by
  cases v with
  | object r =>
    obtain ⟨index, _, _, done⟩ := exists_of_bind h
    cases done
    rfl
  | _ =>
    cases h
    rfl

theorem slots_of_resolve {values : List Held} {wire : List (VType UInt16)} {p q : Pool}
    (h : values.mapM resolve p = .ok wire q) : slots wire = slots values := by
  induction values generalizing wire p with
  | nil =>
    cases h
    rfl
  | cons v rest ih =>
    rw [List.mapM_cons] at h
    obtain ⟨w, _, first, h⟩ := exists_of_bind h
    obtain ⟨others, _, later, done⟩ := exists_of_bind h
    cases done
    simp only [slots, width_of_resolve first, ih later]

end VType

namespace Kind

theorem width_held {k : Kind} {v : Held} (h : k.held? = some v) : width v = k.slots := by
  cases k <;> cases h <;> rfl

theorem slots_of_held {k : Kind} (h : k.held? = none) : k.slots = 1 := by
  cases k <;> first | rfl | cases h

end Kind

namespace Stack

theorem pop_ok {s s' : Stack} {v : Held} (h : pop s = .ok (v, s')) : s = s'.push v := by
  unfold pop at h
  split at h
  · rename_i popped
    cases h
    exact Slotted.eq_push_of_pop? popped
  · cases h

theorem items_pop {s s' : Stack} {v : Held} (h : pop s = .ok (v, s')) : s.items = v :: s'.items := by
  rw [pop_ok h, Slotted.items_push]

theorem take_ok {o : Operand} {s s' : Stack} {v : Held} (h : take o s = .ok (v, s')) :
    s = s'.push v ∧ o.accepts v := by
  obtain ⟨⟨w, rest⟩, popped, h⟩ := ok_of_bind h
  dsimp only at h
  split at h
  · rename_i accepted
    cases h
    exact ⟨pop_ok popped, accepted⟩
  · cases h

theorem items_take {o : Operand} {s s' : Stack} {v : Held} (h : take o s = .ok (v, s')) :
    s.items = v :: s'.items ∧ o.accepts v := by
  obtain ⟨rfl, accepted⟩ := take_ok h
  exact ⟨s'.items_push v, accepted⟩

theorem extend_append (s : Stack) (vs ws : List Held) :
    s.extend (vs ++ ws) = (s.extend vs).extend ws :=
  List.foldl_append

/-- Operands that can be taken off find values at the end of the stack, the first operand the last
value. -/
theorem takeAll_ok {operands : List Operand} {s s' : Stack} (h : takeAll operands s = .ok s') :
    ∃ values, List.Forall₂ (fun o v => o.accepts v = true) operands values ∧
      s = s'.extend values.reverse := by
  induction operands generalizing s with
  | nil =>
    cases h
    exact ⟨[], .nil, rfl⟩
  | cons o operands ih =>
    obtain ⟨⟨v, mid⟩, taken, later⟩ := ok_of_bind h
    obtain ⟨rfl, accepted⟩ := take_ok taken
    obtain ⟨values, others, rfl⟩ := ih later
    refine ⟨v :: values, .cons accepted others, ?_⟩
    rw [List.reverse_cons, extend_append]
    rfl

theorem suffix_takeAll {operands : List Operand} {s s' : Stack}
    (h : takeAll operands s = .ok s') : s'.items <:+ s.items := by
  obtain ⟨values, _, rfl⟩ := takeAll_ok h
  rw [Slotted.items_extend]
  exact List.suffix_append _ _

theorem slots_takeAll {operands : List Operand} {s s' : Stack} (h : takeAll operands s = .ok s') :
    slots s'.items ≤ slots s.items := by
  obtain ⟨popped, items⟩ := suffix_takeAll h
  rw [← items, slots_append]
  exact Nat.le_add_left _ _

end Stack

namespace Frame

variable {f g a b c first : Frame} {others : List Frame}

/-- No wide value stands in the last local slot. -/
def Whole (f : Frame) : Prop := ∀ i, width (f.slot i) = 2 → i + 1 < f.locals.size

theorem Whole.congr (whole : f.Whole) (same : g.locals = f.locals) : g.Whole := by
  simpa only [Whole, slot, same] using whole

theorem size_store (f : Frame) (index : UInt16) (v : Held) :
    (f.store index v).locals.size = max f.locals.size (index.toNat + width v) := by
  simp only [store, size_unset, Array.size_setIfInBounds]
  simp only [grow, Array.size_append, Array.size_replicate]
  omega

theorem Whole.store (whole : f.Whole) (index : UInt16) (v : Held) : (f.store index v).Whole := by
  intro i wide
  have narrow : width (.top : Held) = 1 := rfl
  have here := whole i
  rw [slot_store] at wide
  rw [size_store]
  grind

theorem whole_ofArguments (arguments : List Held) : (ofArguments arguments).Whole := by
  have spread : ∀ i, width ((spread arguments).getD i .top) = 2 →
      i + 1 < (spread arguments).length := by
    induction arguments with
    | nil => simp [Frame.spread, width]
    | cons v rest ih =>
      intro i wide
      simp only [Frame.spread, List.flatMap_cons] at wide ih ⊢
      split at wide
      · rename_i two
        simp only [two, if_true]
        rcases i with _ | _ | i
        · simp
        · cases wide
        · have := ih i wide
          simp only [List.length_append, List.length_cons, List.length_nil]
          omega
      · rename_i narrow
        simp only [narrow, if_false]
        cases i with
        | zero => exact absurd wide narrow
        | succ i =>
          have := ih i wide
          simp only [List.length_append, List.length_cons, List.length_nil]
          omega
  intro i
  simpa [slot, ofArguments, List.getD_eq_getElem?_getD] using spread i

theorem Whole.union (first : a.Whole) (joined : a.union b = .ok c) : c.Whole := by
  obtain ⟨_, rfl⟩ := union_eq_ok joined
  intro i wide
  rw [slot_unionAll] at wide
  have narrow : width (.top : Held) = 1 := rfl
  have here : width (a.slot i) = 2 := by
    unfold VType.union at wide
    split at wide
    · exact wide
    · omega
  have := first i here
  simp only [VType.unionAll, Array.size_ofFn]
  omega

theorem Whole.unionAll (whole : first.Whole) (joined : unionAll first others = .ok c) : c.Whole := by
  induction others generalizing first with
  | nil =>
    cases joined
    exact whole
  | cons b rest ih =>
    rw [unionAll_cons] at joined
    obtain ⟨mid, met, joined⟩ := ok_of_bind joined
    exact ih (whole.union met) joined

theorem size_unionAll_le {bound : Nat} (joined : Frame.unionAll first others = .ok c)
    (each : ∀ f ∈ first :: others, f.locals.size ≤ bound) : c.locals.size ≤ bound := by
  induction others generalizing first with
  | nil =>
    cases joined
    exact each c (by simp)
  | cons b rest ih =>
    rw [unionAll_cons] at joined
    obtain ⟨mid, met, joined⟩ := ok_of_bind joined
    refine ih joined fun f member => ?_
    rcases List.mem_cons.mp member with rfl | later
    · have one := each first (by simp)
      have two := each b (by simp)
      rw [(union_eq_ok met).2]
      simp only [VType.unionAll, Array.size_ofFn]
      omega
    · exact each f (by simp [later])

theorem Whole.replace (whole : f.Whole) {old new : Held} (usable : old ≠ .top)
    (narrow : width new = 1) : (replace old new f).Whole := by
  intro i wide
  rw [slot_replace usable] at wide
  have same : (Frame.replace old new f).locals.size = f.locals.size := by simp [Frame.replace]
  rw [same]
  split at wide
  · omega
  · exact whole i wide

theorem locals_onStack {x : Stack → Except Fault Stack} (h : onStack x f = .ok g) :
    g.locals = f.locals := by
  obtain ⟨_, _, done⟩ := ok_of_bind h
  cases done
  rfl

theorem size_local {index : UInt16} {v : Held} (h : f.local? index = .ok v) :
    index.toNat < f.locals.size := by
  unfold local? at h
  split at h
  · rename_i here
    exact (Array.getElem?_eq_some_iff.mp here).1
  · cases h

/-- What is loaded is what the variable holds, or a type that is declared in its place. -/
theorem load_ok {k : Kind} {index : UInt16} {declared : ResultType}
    (h : f.var (.load k) index declared = .ok g) :
    ∃ v found, f.local? index = .ok found ∧ g = f.push v ∧
      (v = found ∨ VType.ofResult? declared = some v) ∧ ∀ w, k.held? = some w → found = w := by
  unfold var at h
  simp only [LocalOp.kind] at h
  cases held : k.held? with
  | none =>
    simp only [held] at h
    obtain ⟨found, here, h⟩ := ok_of_bind h
    have any : ∀ w, none = some w → found = w := fun _ absent => by cases absent
    split at h
    · cases h
      exact ⟨found, found, here, rfl, .inl rfl, any⟩
    · split at h
      · rename_i d lost
        split at h
        · cases h
          exact ⟨d, found, here, rfl, .inr lost, any⟩
        · cases h
      · cases h
  | some expected =>
    simp only [held] at h
    obtain ⟨found, here, h⟩ := ok_of_bind h
    split at h
    · rename_i same
      cases h
      exact ⟨expected, found, here, rfl, .inl same.symm, fun w wanted => by cases wanted; exact same⟩
    · cases h

theorem Whole.load_le {k : Kind} {index : UInt16} {found : Held} (whole : f.Whole)
    (here : f.local? index = .ok found) (fits : ∀ w, k.held? = some w → found = w) :
    index.toNat + k.slots ≤ f.locals.size := by
  have inside := size_local here
  cases held : k.held? with
  | none =>
    rw [Kind.slots_of_held held]
    exact inside
  | some expected =>
    have last := whole index.toNat
    rw [local?_eq_ok here, fits expected held, Kind.width_held held] at last
    have : k.slots = 1 ∨ k.slots = 2 := by cases k <;> simp [Kind.slots]
    omega

theorem store_ok {k : Kind} {index : UInt16} {declared : ResultType}
    (h : f.var (.store k) index declared = .ok g) :
    ∃ v stack, f.stack.items = v :: stack.items ∧ width v = k.slots ∧
      g = store index v ⟨f.locals, stack⟩ := by
  unfold var at h
  simp only [LocalOp.kind] at h
  cases held : k.held? with
  | none =>
    simp only [held] at h
    obtain ⟨⟨v, stack⟩, taken, h⟩ := ok_of_bind h
    cases h
    obtain ⟨items, reference⟩ := Stack.items_take taken
    have narrow := VType.width_of_isReference reference
    exact ⟨v, stack, items, narrow.trans (Kind.slots_of_held held).symm, rfl⟩
  | some expected =>
    simp only [held] at h
    obtain ⟨⟨v, stack⟩, taken, h⟩ := ok_of_bind h
    cases h
    obtain ⟨items, accepted⟩ := Stack.items_take taken
    have same : expected = v := by simpa [Operand.accepts] using accepted
    exact ⟨expected, stack, same ▸ items, Kind.width_held held, rfl⟩

theorem construct_ok {owner : RefType} {signature : Signature} {this : BinaryName}
    (h : f.construct owner signature this = .ok g) :
    ∃ old new stack, f.stack = stack.push old ∧ old ≠ .top ∧
      initialized owner this old = some new ∧ g = replace old new ⟨f.locals, stack⟩ := by
  obtain ⟨⟨v, stack⟩, taken, h⟩ := ok_of_bind h
  obtain ⟨received, reference⟩ := Stack.take_ok taken
  have usable : v ≠ .top := by
    rintro rfl
    cases reference
  simp only at h
  cases made : initialized owner this v with
  | none =>
    simp only [made] at h
    cases h
  | some new =>
    simp only [made] at h
    split at h
    · cases h
      exact ⟨v, new, stack, received, usable, made, rfl⟩
    · cases h

/-- An instruction leaves the local variables as they are, stores one, or makes the copies of an
object usable. -/
theorem locals_of_execute {l : Leaf} {declared : ResultType} {position : Nat} {this : BinaryName}
    (whole : f.Whole) (h : f.execute l declared position this = .ok g) :
    (g.locals = f.locals ∧ l.span ≤ f.locals.size) ∨
    (∃ index v stack, l.span = index.toNat + width v ∧ g = store index v ⟨f.locals, stack⟩) ∨
    ∃ old new stack, l.span = 0 ∧ old ≠ .top ∧ width new = 1 ∧
      g = replace old new ⟨f.locals, stack⟩ := by
  cases l with
  | simple | field | newArray | newObjects | cast | instanceOf =>
    exact .inl ⟨locals_onStack h, Nat.zero_le _⟩
  | push c =>
    cases h
    exact .inl ⟨rfl, Nat.zero_le _⟩
  | new name =>
    simp only [execute] at h
    split at h
    · cases h
      exact .inl ⟨rfl, Nat.zero_le _⟩
    · cases h
  | var op index =>
    cases op with
    | load k =>
      obtain ⟨v, found, here, rfl, _, fits⟩ := load_ok h
      exact .inl ⟨rfl, whole.load_le here fits⟩
    | store k =>
      obtain ⟨v, stack, _, fits, rfl⟩ := store_ok h
      exact .inr (.inl ⟨index, v, stack, by rw [fits]; rfl, rfl⟩)
  | invoke kind owner name signature =>
    obtain ⟨stack, _, h⟩ := ok_of_bind h
    dsimp only at h
    split at h
    · obtain ⟨old, new, rest, _, usable, made, rfl⟩ := construct_ok h
      exact .inr (.inr ⟨old, new, rest, rfl, usable, (width_initialized made).2, rfl⟩)
    · have same : g.locals = (⟨f.locals, stack⟩ : Frame).locals := locals_onStack h
      exact .inl ⟨same, Nat.zero_le _⟩

/-- After an instruction there are as many local slots as before, or as many as the variable needs
that it names. -/
theorem size_execute {l : Leaf} {declared : ResultType} {position : Nat} {this : BinaryName}
    (whole : f.Whole) (h : f.execute l declared position this = .ok g) :
    g.Whole ∧ g.locals.size = max f.locals.size l.span := by
  have popped : ∀ stack, (⟨f.locals, stack⟩ : Frame).Whole := fun _ => whole
  rcases locals_of_execute whole h with ⟨same, inside⟩ | ⟨index, v, stack, span, rfl⟩ |
    ⟨old, new, stack, span, usable, narrow, rfl⟩
  · exact ⟨whole.congr same, by rw [same]; omega⟩
  · exact ⟨(popped stack).store index v, by rw [size_store, span]⟩
  · exact ⟨(popped stack).replace usable narrow, by simp [replace, span]⟩

theorem stackSlots_withStack {v : Held} (narrow : width v = 1) :
    (f.withStack [v]).stackSlots = 1 := by
  rw [stackSlots_eq, withStack, Slotted.values_ofList]
  simp [slots, narrow]

theorem leave_ok {test : Option Test} (h : f.leave test = .ok g) :
    g.locals = f.locals ∧ g.stackSlots ≤ f.stackSlots := by
  cases test with
  | none =>
    cases h
    exact ⟨rfl, Nat.le_refl _⟩
  | some test =>
    obtain ⟨stack, taken, done⟩ := ok_of_bind h
    cases done
    refine ⟨rfl, ?_⟩
    have fewer := Stack.slots_takeAll taken
    rw [Slotted.items, Slotted.items, slots_reverse, slots_reverse] at fewer
    rw [stackSlots_eq, stackSlots_eq]
    exact fewer

theorem Below.stackSlots_le (h : a.Below b) : b.stackSlots ≤ a.stackSlots := by
  rw [stackSlots_eq, stackSlots_eq]
  exact slots_le_of_below h.stack

theorem slots_packed (values seen : List Held)
    (whole : ∀ i, width (values.getD i .top) = 2 → i + 1 < values.length) :
    slots (packed values seen) = values.length + slots seen := by
  fun_induction packed values seen with
  | case1 seen => rw [slots_reverse, List.length_nil, Nat.zero_add]
  | case2 v seen =>
    have narrow : width v ≠ 2 := fun wide => by simpa using whole 0 wide
    have := v.width_eq_one_or_two
    rw [slots_reverse, slots, List.length_singleton]
    omega
  | case3 v w rest seen wide ih =>
    have later := ih fun i h => by
      have := whole (i + 2) h
      simp only [List.length_cons] at this
      omega
    simp only [later, slots, List.length_cons]
    omega
  | case4 v w rest seen narrow ih =>
    have := v.width_eq_one_or_two
    have later := ih fun i h => by
      have := whole (i + 1) h
      simp only [List.length_cons] at this ⊢
      omega
    simp only [later, slots, List.length_cons]
    omega

theorem slots_dropTops (values : List (VType UInt16)) : slots (dropTops values) ≤ slots values := by
  have whole := List.takeWhile_append_dropWhile (p := (· = VType.top)) (l := values.reverse)
  rw [dropTops, slots_reverse, ← slots_reverse values, ← whole, slots_append]
  simp

theorem slots_of_full {wire : List (VType UInt16) × List (VType UInt16)} {p q : Pool}
    (whole : f.Whole) (h : f.full p = .ok wire q) :
    slots wire.1 ≤ f.locals.size ∧ slots wire.2 = f.stackSlots := by
  obtain ⟨locals, _, first, h⟩ := exists_of_bind h
  obtain ⟨stack, _, second, done⟩ := exists_of_bind h
  cases done
  constructor
  · have packed := slots_packed f.locals.toList []
      (by simpa [Whole, slot, Array.getD_eq_getD_getElem?, List.getD_eq_getElem?_getD] using whole)
    rw [← VType.slots_of_resolve first] at packed
    have fewer := slots_dropTops locals
    simp only [slots, Array.length_toList] at packed
    exact Nat.le_trans fewer (Nat.le_of_eq packed)
  · rw [VType.slots_of_resolve second, stackSlots_eq]

end Frame

end Bytecode
