import Bytecode.Frame
import Bytecode.Proofs.Interning
import Mathlib.Data.List.Forall2

/-! Frames by how much they promise. One frame is below another when both have as many values on
the stack and whatever the upper one says of a value or a variable, the lower one says too; a
variable that is missing is unusable. The union of two frames is the least one above both. -/
namespace Bytecode

namespace VType

/-- The second promises nothing that the first does not. -/
def Below (a b : Held) : Prop := b = a ∨ b = .top

theorem Below.refl (a : Held) : Below a a := .inl rfl

theorem below_top (a : Held) : Below a .top := .inr rfl

theorem Below.trans {a b c : Held} (first : Below a b) (second : Below b c) : Below a c := by
  rcases second with rfl | rfl
  · exact first
  · exact below_top a

theorem Below.antisymm {a b : Held} (first : Below a b) (second : Below b a) : a = b := by
  rcases first with rfl | rfl
  · rfl
  · rcases second with h | h <;> exact h

theorem union_top_right (a : Held) : a.union .top = .top := by
  unfold union
  split
  · assumption
  · rfl

theorem union_top_left (a : Held) : VType.union .top a = .top := by
  unfold union
  split <;> rfl

theorem below_union_left (a b : Held) : Below a (a.union b) := by
  unfold union
  split
  · exact .refl a
  · exact below_top a

theorem below_union_right (a b : Held) : Below b (a.union b) := by
  unfold union
  split
  · rename_i same
    exact same ▸ .refl a
  · exact below_top b

theorem union_below {a b c : Held} (first : Below a c) (second : Below b c) :
    Below (a.union b) c := by
  rcases first with rfl | rfl
  · rcases second with rfl | rfl
    · simp [union, Below]
    · exact below_top _
  · exact below_top _

end VType

theorem forall₂_trans {R : Held → Held → Prop} (trans : ∀ u v w, R u v → R v w → R u w)
    {xs ys zs : List Held} (first : List.Forall₂ R xs ys) (second : List.Forall₂ R ys zs) :
    List.Forall₂ R xs zs := by
  induction first generalizing zs with
  | nil =>
    cases second
    exact .nil
  | cons here _ ih =>
    cases second with
    | cons there rest => exact .cons (trans _ _ _ here there) (ih rest)

namespace Frame

/-- What a local variable holds; nothing usable beyond the last one. -/
def slot (f : Frame) (i : Nat) : Held := f.locals.getD i .top

structure Below (a b : Frame) : Prop where
  stack : List.Forall₂ VType.Below a.stack.values b.stack.values
  slots : ∀ i, VType.Below (a.slot i) (b.slot i)

structure Same (a b : Frame) : Prop where
  stack : a.stack.values = b.stack.values
  slots : ∀ i, a.slot i = b.slot i

def Absorbs (a b : Frame) : Prop := ∃ c, a.union b = .ok c ∧ c.Same a

variable {a b c : Frame}

theorem Below.refl (a : Frame) : a.Below a :=
  ⟨List.forall₂_same.mpr fun _ _ => .refl _, fun _ => .refl _⟩

theorem Below.trans (first : a.Below b) (second : b.Below c) : a.Below c :=
  ⟨forall₂_trans (R := VType.Below) (fun _ _ _ => .trans) first.stack second.stack,
    fun i => (first.slots i).trans (second.slots i)⟩

theorem Below.antisymm (first : a.Below b) (second : b.Below a) : a.Same b := by
  refine ⟨?_, fun i => (first.slots i).antisymm (second.slots i)⟩
  have equal : ∀ {xs ys : List Held}, List.Forall₂ VType.Below xs ys →
      List.Forall₂ VType.Below ys xs → xs = ys := by
    intro xs ys h
    induction h with
    | nil => exact fun _ => rfl
    | cons first _ ih =>
      intro h'
      cases h' with
      | cons second rest => rw [first.antisymm second, ih rest]
  exact equal first.stack second.stack

theorem Same.below (h : a.Same b) : a.Below b := by
  constructor
  · rw [h.stack]
    exact List.forall₂_same.mpr fun _ _ => .refl _
  · intro i
    rw [h.slots]
    exact .refl _

theorem getD_unionAll (a b : Array Held) (i : Nat) :
    (VType.unionAll a b).getD i .top = (a.getD i .top).union (b.getD i .top) := by
  simp only [VType.unionAll, Array.getD_eq_getD_getElem?, Array.getElem?_ofFn]
  by_cases inside : i < max a.size b.size
  · rw [dif_pos inside]
    cases a[i]? with
    | none => exact (VType.union_top_left _).symm
    | some x =>
      cases b[i]? with
      | none => exact (VType.union_top_right _).symm
      | some y => rfl
  · have outside : a.size ≤ i ∧ b.size ≤ i := by omega
    rw [dif_neg inside, Array.getElem?_eq_none outside.1, Array.getElem?_eq_none outside.2]
    rfl

theorem slot_unionAll {stack : Stack} (i : Nat) :
    slot ⟨VType.unionAll a.locals b.locals, stack⟩ i = (a.slot i).union (b.slot i) :=
  getD_unionAll a.locals b.locals i

theorem length_of_joinable {xs ys : List Held} (h : joinable xs ys) : xs.length = ys.length := by
  simp only [joinable, Bool.and_eq_true, beq_iff_eq] at h
  exact h.1

theorem forall₂_zipWith_left {xs ys : List Held} (h : xs.length = ys.length) :
    List.Forall₂ VType.Below xs (List.zipWith VType.union xs ys) := by
  induction xs generalizing ys with
  | nil => cases ys <;> simp_all
  | cons x rest ih =>
    cases ys with
    | nil => cases h
    | cons y tail => exact .cons (VType.below_union_left x y) (ih (by simpa using h))

theorem forall₂_zipWith_right {xs ys : List Held} (h : xs.length = ys.length) :
    List.Forall₂ VType.Below ys (List.zipWith VType.union xs ys) := by
  induction xs generalizing ys with
  | nil => cases ys <;> simp_all
  | cons x rest ih =>
    cases ys with
    | nil => cases h
    | cons y tail => exact .cons (VType.below_union_right x y) (ih (by simpa using h))

theorem zipWith_forall₂ {xs ys zs : List Held} (first : List.Forall₂ VType.Below xs zs)
    (second : List.Forall₂ VType.Below ys zs) :
    List.Forall₂ VType.Below (List.zipWith VType.union xs ys) zs := by
  induction first generalizing ys with
  | nil =>
    cases second
    exact .nil
  | cons h _ ih =>
    cases second with
    | cons h' rest => exact .cons (VType.union_below h h') (ih rest)

structure IsJoin (frames : List Frame) (join : Frame) : Prop where
  above : ∀ f ∈ frames, f.Below join
  least : ∀ g, (∀ f ∈ frames, f.Below g) → join.Below g

theorem isJoin_union (h : a.union b = .ok c) : IsJoin [a, b] c := by
  unfold union at h
  split at h
  · rename_i joinable
    cases h
    have long : a.stack.values.length = b.stack.values.length := by
      simpa [Slotted.items] using length_of_joinable joinable
    constructor
    · intro f hf
      simp only [List.mem_cons, List.not_mem_nil, or_false] at hf
      rcases hf with rfl | rfl
      · constructor
        · rw [Slotted.values_ofList]
          exact forall₂_zipWith_left long
        · intro i
          rw [slot_unionAll]
          exact VType.below_union_left _ _
      · constructor
        · rw [Slotted.values_ofList]
          exact forall₂_zipWith_right long
        · intro i
          rw [slot_unionAll]
          exact VType.below_union_right _ _
    · intro g hg
      have first := hg a (by simp)
      have second := hg b (by simp)
      constructor
      · rw [Slotted.values_ofList]
        exact zipWith_forall₂ first.stack second.stack
      · intro i
        rw [slot_unionAll]
        exact VType.union_below (first.slots i) (second.slots i)
  · cases h

theorem IsJoin.single (a : Frame) : IsJoin [a] a :=
  ⟨fun f hf => by rw [List.mem_singleton.mp hf]; exact .refl a, fun g hg => hg a (by simp)⟩

theorem IsJoin.pair_below {g : Frame} (h : IsJoin [a, b] c) (first : a.Below g)
    (second : b.Below g) : c.Below g := by
  apply h.least
  intro f hf
  simp only [List.mem_cons, List.not_mem_nil, or_false] at hf
  rcases hf with rfl | rfl
  · exact first
  · exact second

theorem IsJoin.union {frames : List Frame} (h : IsJoin frames a) (joined : a.union b = .ok c) :
    IsJoin (frames ++ [b]) c := by
  have pair := isJoin_union joined
  constructor
  · intro f hf
    rcases List.mem_append.mp hf with hf | hf
    · exact (h.above f hf).trans (pair.above a (by simp))
    · exact pair.above f (by simp [List.mem_singleton.mp hf])
  · intro g hg
    have first : a.Below g := by
      apply h.least
      intro f hf
      exact hg f (List.mem_append_left _ hf)
    exact pair.pair_below first (hg b (by simp))

theorem IsJoin.foldlM {frames others : List Frame} (h : IsJoin frames a)
    (joined : others.foldlM Frame.union a = .ok c) : IsJoin (frames ++ others) c := by
  induction others generalizing frames a with
  | nil =>
    cases joined
    simpa using h
  | cons b rest ih =>
    simp only [List.foldlM_cons, bind, Except.bind] at joined
    cases hb : Frame.union a b with
    | error e => simp [hb] at joined
    | ok mid =>
      simp only [hb] at joined
      simpa using ih (h.union hb) joined

theorem isJoin_unionAll {first : Frame} {others : List Frame}
    (joined : unionAll first others = .ok c) : IsJoin (first :: others) c :=
  (IsJoin.single first).foldlM joined

theorem Absorbs.below (h : a.Absorbs b) : b.Below a := by
  obtain ⟨c, joined, same⟩ := h
  exact ((isJoin_union joined).above b (by simp)).trans same.below

/-- What was joined in the end brought nothing new if all of it did not. -/
theorem absorbs_of_foldlM {others : List Frame} (joined : others.foldlM Frame.union a = .ok c)
    (same : c.Below a) (member : b ∈ others) : a.Absorbs b := by
  obtain ⟨before, after, rfl⟩ := List.append_of_mem member
  simp only [List.foldlM_append, List.foldlM_cons, bind, Except.bind] at joined
  cases first : before.foldlM Frame.union a with
  | error e => simp [first] at joined
  | ok mid =>
    simp only [first] at joined
    cases second : mid.union b with
    | error e => simp [second] at joined
    | ok next =>
      simp only [second] at joined
      have low : a.Below mid := ((IsJoin.single a).foldlM first).above a (by simp)
      have pair := isJoin_union second
      have last := (IsJoin.single next).foldlM joined
      have high : next.Below a := (last.above next (by simp)).trans same
      have sameStack : a.stack.values = mid.stack.values :=
        (low.antisymm ((pair.above mid (by simp)).trans high)).stack
      -- The stacks fit together here because they did when the frame was joined.
      have fits : joinable a.stack.items b.stack.items := by
        rw [Slotted.items, sameStack]
        unfold Frame.union at second
        split at second
        · assumption
        · cases second
      have joins : a.union b = .ok _ := if_pos fits
      have join := isJoin_union joins
      have above : b.Below a := (pair.above b (by simp)).trans high
      exact ⟨_, joins, (join.pair_below (.refl a) above).antisymm (join.above a (by simp))⟩

theorem packed_tops (k : Nat) (seen : List Held) :
    packed (List.replicate k .top) seen = seen.reverse ++ List.replicate k .top := by
  induction k generalizing seen with
  | zero => simp [packed]
  | succ k ih =>
    cases k with
    | zero => simp [packed]
    | succ k =>
      have narrow : width (.top : Held) = 1 := rfl
      simp only [List.replicate_succ, packed, narrow] at ih ⊢
      rw [if_neg (by decide), ih]
      simp

/-- Unusable variables at the end stay at the end, though one may count as half of a wide one. -/
theorem packed_append_tops (locals : List Held) (k : Nat) (seen : List Held) :
    ∃ j, packed (locals ++ List.replicate k .top) seen =
      packed locals seen ++ List.replicate j .top := by
  fun_induction packed locals seen with
  | case1 seen => exact ⟨k, packed_tops k seen⟩
  | case2 v seen =>
    cases k with
    | zero => exact ⟨0, by simp [packed]⟩
    | succ k =>
      by_cases wide : width v = 2
      · exact ⟨k, by simp [List.replicate_succ, packed, wide, packed_tops]⟩
      · refine ⟨k + 1, ?_⟩
        have rest := packed_tops (k + 1) (v :: seen)
        simp only [List.replicate_succ] at rest
        simp [List.replicate_succ, packed, wide, rest]
  | case3 v w rest seen wide ih =>
    obtain ⟨j, hj⟩ := ih
    exact ⟨j, by simpa [packed, wide] using hj⟩
  | case4 v w rest seen narrow ih =>
    obtain ⟨j, hj⟩ := ih
    exact ⟨j, by simpa [packed, narrow] using hj⟩

theorem mapM_resolve_tops (k : Nat) :
    (List.replicate k (.top : Held)).mapM VType.resolve =
      (pure (List.replicate k .top) : PoolM (List (VType UInt16))) := by
  induction k with
  | zero => rfl
  | succ k ih => simp [List.replicate_succ, ih, VType.resolve]

theorem dropTops_append_tops (values : List (VType UInt16)) (k : Nat) :
    dropTops (values ++ List.replicate k .top) = dropTops values := by
  have skip : ∀ rest : List (VType UInt16),
      (List.replicate k VType.top ++ rest).dropWhile (· = VType.top) =
        rest.dropWhile (· = VType.top) := by
    induction k with
    | zero => simp
    | succ k ih =>
      intro rest
      simp [List.replicate_succ, ih rest]
  simp only [dropTops, List.reverse_append, List.reverse_replicate, skip]

theorem full_append_tops (locals : List Held) (stack : Stack) (k : Nat) :
    full ⟨(locals ++ List.replicate k VType.top).toArray, stack⟩ =
      full ⟨locals.toArray, stack⟩ := by
  obtain ⟨j, hj⟩ := packed_append_tops locals k []
  simp only [full, hj, List.mapM_append, mapM_resolve_tops, bind_assoc, pure_bind,
    dropTops_append_tops]

/-- Of two lists that agree up to unusable ends, the shorter one has only to be filled up. -/
theorem eq_append_tops {xs ys : List Held} (short : xs.length ≤ ys.length)
    (same : ∀ i : Nat, xs.getD i .top = ys.getD i .top) :
    ys = xs ++ List.replicate (ys.length - xs.length) .top := by
  apply List.ext_getElem?
  intro i
  have here := same i
  simp only [List.getD_eq_getElem?_getD] at here
  by_cases hx : i < xs.length
  · have hy : i < ys.length := by omega
    simp_all
  · by_cases hy : i < ys.length
    · rw [List.getElem?_append_right (by omega), List.getElem?_replicate, if_pos (by omega)]
      simp_all
    · rw [List.getElem?_append_right (by omega), List.getElem?_replicate, if_neg (by omega)]
      simp_all

theorem Same.full_eq (h : a.Same b) : a.full = b.full := by
  have sameStack : ∀ locals : Array Held, full ⟨locals, a.stack⟩ = full ⟨locals, b.stack⟩ := by
    intro locals
    simp only [full, h.stack]
  have slots : ∀ i : Nat, a.locals.toList.getD i .top = b.locals.toList.getD i .top := by
    intro i
    simpa [slot, Array.getD_eq_getD_getElem?] using h.slots i
  rcases Nat.le_total a.locals.toList.length b.locals.toList.length with short | short
  · have filled := eq_append_tops short slots
    have same := full_append_tops a.locals.toList b.stack
      (b.locals.toList.length - a.locals.toList.length)
    rw [← filled] at same
    exact (sameStack a.locals).trans same.symm
  · have filled := eq_append_tops short fun i => (slots i).symm
    have same := full_append_tops b.locals.toList b.stack
      (a.locals.toList.length - b.locals.toList.length)
    rw [← filled] at same
    exact (sameStack a.locals).trans same

end Frame

theorem VType.asks_resolve (v : Held) : Pool.Asks v.resolve := by
  cases v with
  | object r => exact (Pool.Asks.request (.classRef r)).bind fun _ => .pure _
  | _ => exact .pure _

theorem Frame.asks_full (f : Frame) : Pool.Asks f.full :=
  (Pool.Asks.mapM VType.asks_resolve _).bind fun _ =>
    (Pool.Asks.mapM VType.asks_resolve _).bind fun _ => .pure _

end Bytecode
