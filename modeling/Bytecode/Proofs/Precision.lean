import Bytecode.Frame.Execute
import Bytecode.Proofs.FrameOrder
import Bytecode.Proofs.Slots

/-! Simulation is monotone. A frame is finer than another if it is below it, their stacks have values
of the same widths, and its wide variables are followed by unusable ones. What can be run on a frame
can be run on a finer one, and leaves a finer one; only a reference whose type was lost may be loaded
as two different types. -/
namespace Bytecode

/-- Where the second succeeds the first does, and the results are related. -/
def Follows {α β : Type} (R : α → β → Prop) (x : Except Fault α) (y : Except Fault β) : Prop :=
  ∀ b, y = .ok b → ∃ a, x = .ok a ∧ R a b

namespace Follows

variable {α β γ δ : Type} {R : α → β → Prop} {S : γ → δ → Prop}

protected theorem ok {a : α} {b : β} (h : R a b) : Follows R (.ok a) (.ok b) := by
  intro c same
  cases same
  exact ⟨a, rfl, h⟩

theorem error (x : Except Fault α) (fault : Fault) : Follows R x (.error fault) := by
  intro b wrong
  cases wrong

theorem bind {x : Except Fault α} {y : Except Fault β} {f : α → Except Fault γ}
    {g : β → Except Fault δ} (first : Follows R x y) (second : ∀ a b, R a b → Follows S (f a) (g b)) :
    Follows S (x >>= f) (y >>= g) := by
  intro d done
  cases here : y with
  | error fault =>
    rw [here] at done
    cases done
  | ok b =>
    rw [here] at done
    obtain ⟨a, there, related⟩ := first b here
    rw [there]
    exact second a b related d done

end Follows

namespace VType

theorem width_eq_one_or_two {κ : Type} (v : VType κ) : width v = 1 ∨ width v = 2 := by
  cases v <;> simp [width]

/-- The second says no more than the first, of a value of the same width. -/
def Fine (v w : Held) : Prop := Below v w ∧ width w = width v

theorem Fine.refl (v : Held) : Fine v v := ⟨.refl v, rfl⟩

theorem Fine.trans {u v w : Held} (first : Fine u v) (second : Fine v w) : Fine u w :=
  ⟨first.1.trans second.1, second.2.trans first.2⟩

theorem Below.eq {v w : Held} (h : Below v w) (usable : w ≠ .top) : w = v :=
  h.resolve_right usable

end VType

namespace Operand

/-- A value that is accepted is usable, unless an unusable one is asked for. -/
theorem usable_of_accepts {o : Operand} {v : Held} (usual : o ≠ .exactly .top) (h : o.accepts v) :
    v ≠ .top := by
  rintro rfl
  cases o with
  | exactly w =>
    simp only [accepts, decide_eq_true_eq] at h
    exact usual (h ▸ rfl)
  | reference => cases h

theorem ofType_usual (t : FieldType) : ofType t ≠ .exactly .top := by
  cases t with
  | prim p => cases p <;> simp [ofType, VType.ofField]
  | ref r => simp [ofType, VType.ofField]

end Operand

namespace Stack

def Finer (s t : Stack) : Prop := List.Forall₂ VType.Fine s.items t.items

variable {s t : Stack}

theorem Finer.refl (s : Stack) : Finer s s := List.forall₂_same.mpr fun _ _ => .refl _

theorem Finer.extend {vs ws : List Held} (h : Finer s t) (more : List.Forall₂ VType.Fine vs ws) :
    Finer (s.extend vs) (t.extend ws) := by
  unfold Finer
  rw [Slotted.items_extend, Slotted.items_extend]
  exact List.rel_append (List.rel_reverse more) h

theorem Finer.extend_same (h : Finer s t) (vs : List Held) : Finer (s.extend vs) (t.extend vs) :=
  h.extend (List.forall₂_same.mpr fun _ _ => .refl _)

theorem finer_push_iff {v w : Held} :
    Finer (s.push v) (t.push w) ↔ VType.Fine v w ∧ Finer s t := by
  unfold Finer
  rw [Slotted.items_push, Slotted.items_push, List.forall₂_cons]

theorem Finer.push (h : Finer s t) (v : Held) : Finer (s.push v) (t.push v) :=
  finer_push_iff.mpr ⟨.refl v, h⟩

theorem pop_push (s : Stack) (v : Held) : pop (s.push v) = .ok (v, s) := by
  rw [pop, Slotted.pop?_push]

theorem follows_pop (h : Finer s t) :
    Follows (fun a b => VType.Fine a.1 b.1 ∧ Finer a.2 b.2) (Stack.pop s) (Stack.pop t) := by
  have long : s.items.length = t.items.length := List.Forall₂.length_eq h
  rcases t.empty_or_push with ⟨_, gone⟩ | ⟨t, w, rfl⟩
  · rw [pop, pop, gone]
    exact .error _ _
  · rcases s.empty_or_push with ⟨none, _⟩ | ⟨s, v, rfl⟩
    · rw [none, Slotted.items_push] at long
      cases long
    · rw [pop_push, pop_push]
      exact .ok (finer_push_iff.mp h)

theorem follows_popNarrow (h : Finer s t) :
    Follows (fun a b => VType.Fine a.1 b.1 ∧ Finer a.2 b.2) (Stack.popNarrow s)
      (Stack.popNarrow t) := by
  refine (follows_pop h).bind fun a b ⟨fine, rest⟩ => ?_
  dsimp only
  rw [fine.2]
  split
  · exact .ok ⟨fine, rest⟩
  · exact .error _ _

/-- What is taken off is the same, since it is usable. -/
theorem follows_take {o : Operand} (usual : o ≠ .exactly .top) (h : Finer s t) :
    Follows (fun a b => a.1 = b.1 ∧ o.accepts b.1 ∧ Finer a.2 b.2) (Stack.take o s)
      (Stack.take o t) := by
  refine (follows_pop h).bind fun a b ⟨fine, rest⟩ => ?_
  dsimp only
  by_cases accepted : o.accepts b.1
  · have same := fine.1.eq (Operand.usable_of_accepts usual accepted)
    rw [← same, if_pos accepted, if_pos accepted]
    exact .ok ⟨rfl, accepted, rest⟩
  · rw [if_neg accepted]
    exact .error _ _

theorem follows_takeAll {os : List Operand} (usual : ∀ o ∈ os, o ≠ .exactly .top)
    (h : Finer s t) : Follows Finer (Stack.takeAll os s) (Stack.takeAll os t) := by
  induction os generalizing s t with
  | nil => exact .ok h
  | cons o rest ih =>
    refine (follows_take (usual o (by simp)) h).bind fun a b ⟨_, _, later⟩ => ?_
    exact ih (fun p member => usual p (by simp [member])) later

theorem follows_apply {takes : List Operand} (usual : ∀ o ∈ takes, o ≠ .exactly .top)
    (leaves : List Held) (h : Finer s t) :
    Follows Finer (Stack.apply takes leaves s) (Stack.apply takes leaves t) :=
  (follows_takeAll usual h).bind fun _ _ rest => .ok (rest.extend_same leaves)

theorem follows_popPair (h : Finer s t) :
    Follows (fun a b => List.Forall₂ VType.Fine a.1 b.1 ∧ Finer a.2 b.2) (Stack.popPair s)
      (Stack.popPair t) := by
  refine (follows_pop h).bind fun a b ⟨fine, rest⟩ => ?_
  dsimp only
  rw [fine.2]
  split
  · refine (follows_popNarrow rest).bind fun c d ⟨fine', rest'⟩ => ?_
    exact .ok ⟨.cons fine' (.cons fine .nil), rest'⟩
  · exact .ok ⟨.cons fine .nil, rest⟩

theorem follows_shuffle (i : Simple) (h : Finer s t) :
    Follows Finer (Stack.shuffle i s) (Stack.shuffle i t) := by
  have fineAppend : ∀ {vs ws vs' ws' : List Held}, List.Forall₂ VType.Fine vs ws →
      List.Forall₂ VType.Fine vs' ws' → List.Forall₂ VType.Fine (vs ++ vs') (ws ++ ws') :=
    fun first second => List.rel_append first second
  have one : ∀ {v w : Held}, VType.Fine v w → List.Forall₂ VType.Fine [v] [w] :=
    fun fine => .cons fine .nil
  cases i with
  | aaload =>
    refine (follows_take (by simp) h).bind fun a b ⟨_, _, h⟩ => ?_
    refine (follows_take (by simp) h).bind fun c d ⟨same, _, h⟩ => ?_
    dsimp only
    rw [same]
    cases Stack.elementOf d.1 with
    | error fault => exact .error _ _
    | ok element => exact .ok (h.push element)
  | arrayLength =>
    refine (follows_take (by simp) h).bind fun a b ⟨same, _, h⟩ => ?_
    dsimp only
    rw [same]
    split
    · exact .ok (h.push .int)
    · exact .error _ _
  | pop => exact (follows_popNarrow h).bind fun a b ⟨_, h⟩ => .ok h
  | pop2 => exact (follows_popPair h).bind fun a b ⟨_, h⟩ => .ok h
  | dup =>
    exact (follows_popNarrow h).bind fun a b ⟨fine, h⟩ =>
      .ok (h.extend (fineAppend (one fine) (one fine)))
  | dupX1 =>
    refine (follows_popNarrow h).bind fun a b ⟨fine, h⟩ => ?_
    refine (follows_popNarrow h).bind fun c d ⟨below, h⟩ => ?_
    exact .ok (h.extend (fineAppend (one fine) (fineAppend (one below) (one fine))))
  | dupX2 =>
    refine (follows_popNarrow h).bind fun a b ⟨fine, h⟩ => ?_
    refine (follows_popPair h).bind fun c d ⟨below, h⟩ => ?_
    exact .ok (h.extend (fineAppend (fineAppend (one fine) below) (one fine)))
  | dup2 =>
    exact (follows_popPair h).bind fun a b ⟨fine, h⟩ => .ok (h.extend (fineAppend fine fine))
  | dup2X1 =>
    refine (follows_popPair h).bind fun a b ⟨fine, h⟩ => ?_
    refine (follows_popNarrow h).bind fun c d ⟨below, h⟩ => ?_
    exact .ok (h.extend (fineAppend (fineAppend fine (one below)) fine))
  | dup2X2 =>
    refine (follows_popPair h).bind fun a b ⟨fine, h⟩ => ?_
    refine (follows_popPair h).bind fun c d ⟨below, h⟩ => ?_
    exact .ok (h.extend (fineAppend (fineAppend fine below) fine))
  | swap =>
    refine (follows_popNarrow h).bind fun a b ⟨fine, h⟩ => ?_
    refine (follows_popNarrow h).bind fun c d ⟨below, h⟩ => ?_
    exact .ok (h.extend (fineAppend (one fine) (one below)))
  | _ => exact .ok h

theorem follows_simple (i : Simple) (h : Finer s t) :
    Follows Finer (Stack.simple i s) (Stack.simple i t) := by
  unfold Stack.simple
  cases listed : i.effect? with
  | none => exact follows_shuffle i h
  | some effect =>
    obtain ⟨takes, leaves⟩ := effect
    refine follows_apply (fun o member => ?_) leaves h
    cases i <;> cases listed <;> revert o <;> simp

end Stack

namespace Frame

theorem getD_setIfInBounds (locals : Array Held) (i j : Nat) (v : Held) :
    (locals.setIfInBounds i v).getD j .top =
      if i = j ∧ i < locals.size then v else locals.getD j .top := by
  simp only [Array.getD_eq_getD_getElem?, Array.getElem?_setIfInBounds]
  by_cases same : i = j
  · subst same
    by_cases inside : i < locals.size <;> simp [inside]
  · simp [same]

theorem getD_unset (given : Prop) [Decidable given] (locals : Array Held) (i j : Nat) :
    (if given then locals.setIfInBounds i .top else locals).getD j .top =
      if given ∧ i = j then .top else locals.getD j .top := by
  by_cases holds : given
  · rw [if_pos holds, getD_setIfInBounds]
    by_cases same : i = j
    · subst same
      by_cases inside : i < locals.size <;> simp [holds, inside]
    · simp [same]
  · simp [holds]

theorem size_unset (given : Prop) [Decidable given] (locals : Array Held) (i : Nat) :
    (if given then locals.setIfInBounds i .top else locals).size = locals.size := by
  split <;> simp

theorem getD_grow (locals : Array Held) (size i : Nat) :
    (grow locals size).getD i .top = locals.getD i .top := by
  simp only [grow, Array.getD_eq_getD_getElem?, Array.getElem?_append, Array.getElem?_replicate]
  by_cases inside : i < locals.size
  · simp [inside]
  · rw [if_neg inside, Array.getElem?_eq_none (by omega)]
    split <;> rfl

theorem lt_size_grow (locals : Array Held) {size i : Nat} (h : i < size) :
    i < (grow locals size).size := by
  simp only [grow, Array.size_append, Array.size_replicate]
  omega

/-- A store writes one variable, and makes unusable what is then half of a wide one. -/
theorem slot_store (f : Frame) (index : UInt16) (v : Held) (j : Nat) :
    (f.store index v).slot j =
      if j = index.toNat then v
      else if j = index.toNat + 1 ∧ (width v = 2 ∨ width (f.slot index.toNat) = 2) then .top
      else if j + 1 = index.toNat ∧ width (f.slot j) = 2 then .top
      else f.slot j := by
  have wide := v.width_eq_one_or_two
  have inside : index.toNat < (grow f.locals (index.toNat + width v)).size :=
    lt_size_grow _ (by omega)
  simp only [store, slot, widthAt, getD_unset, getD_setIfInBounds, size_unset, getD_grow, inside]
  generalize index.toNat = i
  grind

/-- A wide value is followed by what cannot be used. -/
def Paired (f : Frame) : Prop := ∀ i, width (f.slot i) = 2 → f.slot (i + 1) = .top

structure Finer (s t : Frame) : Prop where
  stack : Stack.Finer s.stack t.stack
  slots : ∀ i, VType.Below (s.slot i) (t.slot i)
  paired : s.Paired

variable {s t : Frame}

theorem Finer.last (h : s.Finer t) {v : Held} (usable : v ≠ .top) (top : t.stack.last? = some v) :
    s.stack.last? = some v := by
  have stack : List.Forall₂ VType.Fine s.stack.items t.stack.items := h.stack
  rw [Slotted.last?_eq_head?] at top ⊢
  generalize s.stack.items = xs at stack
  generalize t.stack.items = ys at stack top
  cases stack with
  | nil => cases top
  | cons fine _ =>
    cases top
    rw [List.head?_cons, fine.1.eq usable]

theorem Finer.push (h : s.Finer t) (v : Held) : (s.push v).Finer (t.push v) :=
  ⟨h.stack.push v, h.slots, h.paired⟩

theorem Finer.withStack (h : s.Finer t) (values : List Held) :
    (s.withStack values).Finer (t.withStack values) :=
  ⟨.refl _, h.slots, h.paired⟩

theorem Finer.store (h : s.Finer t) (index : UInt16) (v : Held) :
    (s.store index v).Finer (t.store index v) := by
  refine ⟨h.stack, fun j => ?_, fun j wide => ?_⟩
  · have here := h.slots j
    have half := h.paired index.toNat
    have low := h.slots index.toNat
    rw [slot_store, slot_store]
    unfold VType.Below at *
    grind
  · have narrow : width (.top : Held) = 1 := rfl
    have here := h.paired j
    have half := h.paired (j + 1)
    rw [slot_store] at wide ⊢
    grind

theorem follows_onStack {x y : Stack → Except Fault Stack} (h : s.Finer t)
    (runs : Follows Stack.Finer (x s.stack) (y t.stack)) :
    Follows Finer (onStack x s) (onStack y t) :=
  runs.bind fun _ _ stack => .ok ⟨stack, h.slots, h.paired⟩

theorem local?_eq_ok {f : Frame} {index : UInt16} {v : Held} (found : f.local? index = .ok v) :
    f.slot index.toNat = v := by
  unfold local? at found
  split at found
  · rename_i w here
    cases found
    simp [slot, Array.getD_eq_getD_getElem?, here]
  · cases found

theorem local?_of_slot {f : Frame} {index : UInt16} (usable : f.slot index.toNat ≠ .top) :
    f.local? index = .ok (f.slot index.toNat) := by
  unfold local?
  split
  · rename_i w here
    simp [slot, Array.getD_eq_getD_getElem?, here]
  · rename_i missing
    simp [slot, Array.getD_eq_getD_getElem?, missing] at usable

/-- What is usable in a variable is found there in the finer frame too. -/
theorem Finer.local? (h : s.Finer t) {index : UInt16} {v : Held} (found : t.local? index = .ok v)
    (usable : v ≠ .top) : s.local? index = .ok v := by
  have same := (h.slots index.toNat).eq (by rw [local?_eq_ok found]; exact usable)
  rw [local?_eq_ok found] at same
  rw [local?_of_slot (by rw [← same]; exact usable), same]

theorem follows_loadReference (h : s.Finer t) (index : UInt16) (declared : ResultType)
    (kept : (t.slot index.toNat).isReference) :
    Follows Finer (s.loadReference index declared) (t.loadReference index declared) := by
  unfold loadReference
  cases found : t.local? index with
  | error fault => exact .error _ _
  | ok v =>
    rw [local?_eq_ok found] at kept
    have usable : v ≠ .top := by
      rintro rfl
      cases kept
    rw [h.local? found usable]
    simp only [bind, Except.bind, kept, if_true]
    exact .ok (h.push v)

theorem follows_loadExactly (h : s.Finer t) (index : UInt16) {expected : Held}
    (usual : expected ≠ .top) :
    Follows Finer
      (do
        let v ← s.local? index
        if v = expected then return s.push expected else throw .badType)
      (do
        let v ← t.local? index
        if v = expected then return t.push expected else throw .badType) := by
  cases found : t.local? index with
  | error fault => exact .error _ _
  | ok v =>
    by_cases same : v = expected
    · subst same
      rw [h.local? found usual]
      simp only [bind, Except.bind, if_true]
      exact .ok (h.push v)
    · simp only [bind, Except.bind, same, if_false]
      exact .error _ _

theorem follows_storeTaken (h : s.Finer t) (index : UInt16) {o : Operand}
    (usual : o ≠ .exactly .top) (stored : Held → Held) :
    Follows Finer
      (do
        let (v, stack) ← Stack.take o s.stack
        return (⟨s.locals, stack⟩ : Frame).store index (stored v))
      (do
        let (v, stack) ← Stack.take o t.stack
        return (⟨t.locals, stack⟩ : Frame).store index (stored v)) := by
  refine (Stack.follows_take usual h.stack).bind fun a b ⟨same, _, rest⟩ => ?_
  dsimp only
  rw [same]
  have popped : (⟨s.locals, a.2⟩ : Frame).Finer ⟨t.locals, b.2⟩ := ⟨rest, h.slots, h.paired⟩
  exact .ok (popped.store index (stored b.1))

def keeps (f : Frame) : Leaf → Bool
  | .var (.load .ref) index => (f.slot index.toNat).isReference
  | _ => true

theorem follows_var (h : s.Finer t) (op : LocalOp) (index : UInt16) (declared : ResultType)
    (kept : t.keeps (.var op index)) :
    Follows Finer (s.var op index declared) (t.var op index declared) := by
  cases op with
  | load k =>
    cases k with
    | ref => exact follows_loadReference h index declared kept
    | int | long | float | double => exact follows_loadExactly h index (by simp)
  | store k =>
    cases k with
    | ref => exact follows_storeTaken h index (by simp) id
    | int => exact follows_storeTaken h index (by simp) fun _ => .int
    | long => exact follows_storeTaken h index (by simp) fun _ => .long
    | float => exact follows_storeTaken h index (by simp) fun _ => .float
    | double => exact follows_storeTaken h index (by simp) fun _ => .double

theorem slot_replace {old new : Held} (usable : old ≠ .top) (f : Frame) (i : Nat) :
    (replace old new f).slot i = if f.slot i = old then new else f.slot i := by
  simp only [replace, slot, Array.getD_eq_getD_getElem?, Array.getElem?_map]
  cases f.locals[i]? with
  | none => simp [usable.symm]
  | some v => simp

theorem Finer.replace (h : s.Finer t) {old new : Held} (usable : old ≠ .top)
    (narrow : width new = 1) : (replace old new s).Finer (replace old new t) := by
  refine ⟨?_, fun i => ?_, fun i wide => ?_⟩
  · have each : ∀ v w, VType.Fine v w →
        VType.Fine (if v = old then new else v) (if w = old then new else w) := by
      rintro v w ⟨rfl | rfl, same⟩
      · exact .refl _
      · rw [if_neg usable.symm]
        split
        · exact ⟨.inr rfl, by rw [narrow]; rfl⟩
        · exact ⟨.inr rfl, same⟩
    have stack : List.Forall₂ VType.Fine s.stack.items t.stack.items := h.stack
    simp only [Stack.Finer, Frame.replace, Slotted.items, Slotted.values_ofList, ← List.map_reverse,
      List.forall₂_map_left_iff, List.forall₂_map_right_iff]
    exact stack.imp each
  · have here := h.slots i
    rw [slot_replace usable, slot_replace usable]
    unfold VType.Below at *
    grind
  · have here := h.paired i
    rw [slot_replace usable] at wide ⊢
    grind

theorem initialized_cases {owner : RefType} {this : BinaryName} {raw made : Held}
    (h : initialized owner this raw = some made) :
    raw = .uninitThis ∧ made = .object (.object this) ∨
      ∃ offset, raw = .uninit offset ∧ made = .object owner := by
  unfold initialized at h
  split at h <;> cases h
  · exact .inl ⟨rfl, rfl⟩
  · exact .inr ⟨_, rfl, rfl⟩

theorem width_initialized {owner : RefType} {this : BinaryName} {raw made : Held}
    (h : initialized owner this raw = some made) : width raw = 1 ∧ width made = 1 := by
  rcases initialized_cases h with ⟨rfl, rfl⟩ | ⟨_, rfl, rfl⟩ <;> exact ⟨rfl, rfl⟩

theorem follows_construct (h : s.Finer t) (owner : RefType) (signature : Signature)
    (this : BinaryName) :
    Follows Finer (s.construct owner signature this) (t.construct owner signature this) := by
  refine (Stack.follows_take (by simp) h.stack).bind fun a b ⟨same, accepted, rest⟩ => ?_
  have usable := Operand.usable_of_accepts (by simp) accepted
  dsimp only
  rw [same]
  cases made : initialized owner this b.1 with
  | none => exact .error _ _
  | some new =>
    have popped : (⟨s.locals, a.2⟩ : Frame).Finer ⟨t.locals, b.2⟩ := ⟨rest, h.slots, h.paired⟩
    dsimp only
    split
    · exact .ok (popped.replace usable (width_initialized made).2)
    · exact .error _ _

theorem follows_invoke (h : s.Finer t) (kind : InvokeKind) (owner : RefType) (name : MemberName)
    (signature : Signature) (this : BinaryName) :
    Follows Finer (s.invoke kind owner name signature this)
      (t.invoke kind owner name signature this) := by
  have usual : ∀ o ∈ signature.parameters.reverse.map Operand.ofType, o ≠ .exactly .top := by
    simp only [List.mem_map, forall_exists_index, and_imp]
    rintro o p _ rfl
    exact Operand.ofType_usual p
  refine (Stack.follows_takeAll usual h.stack).bind fun a b rest => ?_
  have popped : (⟨s.locals, a⟩ : Frame).Finer ⟨t.locals, b⟩ := ⟨rest, h.slots, h.paired⟩
  dsimp only
  split
  · exact follows_construct popped owner signature this
  · refine follows_onStack popped (Stack.follows_apply ?_ _ rest)
    split <;> simp

/-- What can be run on a frame can be run on a finer one, and leaves a finer one. -/
theorem follows_execute (h : s.Finer t) {l : Leaf} (kept : t.keeps l) (declared : ResultType)
    (position : Nat) (this : BinaryName) :
    Follows Finer (s.execute l declared position this) (t.execute l declared position this) := by
  cases l with
  | simple i => exact follows_onStack h (Stack.follows_simple i h.stack)
  | push c => exact .ok (h.push c.held)
  | var op index => exact follows_var h op index declared kept
  | field op owner name f =>
    cases op with
    | getStatic => exact follows_onStack h (Stack.follows_apply (by simp) _ h.stack)
    | putStatic =>
      exact follows_onStack h (Stack.follows_apply (by simp [Operand.ofType_usual]) _ h.stack)
    | getField => exact follows_onStack h (Stack.follows_apply (by simp) _ h.stack)
    | putField =>
      exact follows_onStack h (Stack.follows_apply (by simp [Operand.ofType_usual]) _ h.stack)
  | invoke kind owner name signature => exact follows_invoke h kind owner name signature this
  | new name =>
    unfold execute
    dsimp only
    split
    · exact .ok (h.push _)
    · exact .error _ _
  | newArray | newObjects | cast | instanceOf =>
    exact follows_onStack h (Stack.follows_apply (by simp) _ h.stack)

theorem follows_branch (h : s.Finer t) (test : Test) :
    Follows Finer (s.branch test) (t.branch test) := by
  have usual : ∀ o ∈ test.takes, o ≠ .exactly .top := by
    cases test <;> simp [Test.takes]
  exact (Stack.follows_takeAll usual h.stack).bind fun _ _ rest => .ok ⟨rest, h.slots, h.paired⟩

theorem paired_ofArguments (arguments : List Held) : (ofArguments arguments).Paired := by
  have spread : ∀ i, width ((spread arguments).getD i .top) = 2 →
      (spread arguments).getD (i + 1) .top = .top := by
    induction arguments with
    | nil => simp [Frame.spread]
    | cons v rest ih =>
      intro i wide
      simp only [Frame.spread, List.flatMap_cons] at wide ih ⊢
      split at wide
      · rename_i two
        simp only [two, if_true]
        rcases i with _ | _ | i
        · rfl
        · cases wide
        · exact ih i wide
      · rename_i narrow
        simp only [narrow, if_false]
        cases i with
        | zero => exact absurd wide narrow
        | succ i => exact ih i wide
  intro i
  simpa [slot, ofArguments, List.getD_eq_getElem?_getD] using spread i

end Frame

end Bytecode
