import Bytecode.Proofs.Assembly
import Bytecode.Proofs.Offsets

/-! Frames joined in any order. Which stacks can be joined is settled by the widths of their values,
and the join keeps the widths, but for a long that meets a double: what these have in common takes
one slot. -/
namespace Bytecode

namespace VType

theorem width_le_of_below {a b : Held} (h : Below a b) : width b ≤ width a := by
  rcases h with rfl | rfl
  · exact Nat.le_refl _
  · cases a <;> simp [width]

theorem width_union {a b : Held} (same : width a = width b) (first : ¬ (a = .long ∧ b = .double))
    (second : ¬ (b = .long ∧ a = .double)) : width (a.union b) = width a := by
  unfold union
  split
  · rfl
  · cases a <;> cases b <;> simp_all [width]

end VType

theorem exists_of_forall₂ {α : Type} {R : α → α → Prop} {xs ys : List α} {k : Nat} {x : α}
    (h : List.Forall₂ R xs ys) (found : xs[k]? = some x) : ∃ y, ys[k]? = some y ∧ R x y := by
  induction h generalizing k with
  | nil => cases found
  | cons here _ ih =>
    cases k with
    | zero =>
      cases found
      exact ⟨_, rfl, here⟩
    | succ k => exact ih found

theorem slots_le_of_below {xs ys : List Held} (h : List.Forall₂ VType.Below xs ys) :
    slots ys ≤ slots xs := by
  induction h with
  | nil => exact Nat.le_refl _
  | cons here _ ih =>
    have := VType.width_le_of_below here
    simp only [slots]
    omega

/-- A wide value that is given up leaves a lower stack. -/
theorem slots_lt_of_below {xs ys : List Held} {k : Nat} {x : Held}
    (h : List.Forall₂ VType.Below xs ys) (wide : xs[k]? = some x) (two : width x = 2)
    (lost : ys[k]? = some .top) : slots ys < slots xs := by
  induction h generalizing k with
  | nil => cases wide
  | cons here rest ih =>
    simp only [slots]
    cases k with
    | zero =>
      cases wide
      cases lost
      have below := slots_le_of_below rest
      have narrow : width (.top : Held) = 1 := rfl
      omega
    | succ k =>
      have below := ih wide lost
      have := VType.width_le_of_below here
      omega

namespace Frame

def shape (f : Frame) : List Nat := f.stack.values.map width

/-- Somewhere the first stack has a long, and the second a double. -/
def Clash (a b : Frame) : Prop := (.long, .double) ∈ a.stack.values.zip b.stack.values

instance (a b : Frame) : Decidable (a.Clash b) := inferInstanceAs (Decidable (_ ∈ _))

def Clashes (frames : List Frame) : Prop := ∃ a ∈ frames, ∃ b ∈ frames, a.Clash b

instance (frames : List Frame) : Decidable (Clashes frames) :=
  inferInstanceAs (Decidable (∃ a ∈ frames, ∃ b ∈ frames, a.Clash b))

def OrderFree (first : Frame) (others : List Frame) : Prop :=
  ∀ f rest, (f :: rest).Perm (first :: others) → unionAll f rest = unionAll first others

def KeepsHeight (first : Frame) (others : List Frame) : Prop :=
  ∀ join, unionAll first others = .ok join → ∀ f ∈ first :: others, join.stackSlots = f.stackSlots

variable {a b c d f first : Frame} {frames others rest : List Frame}

theorem clash_iff : a.Clash b ↔
    ∃ k : Nat, a.stack.values[k]? = some .long ∧ b.stack.values[k]? = some .double := by
  rw [Clash, List.mem_iff_getElem?]
  simp only [List.getElem?_zip_eq_some]

theorem stackSlots_eq (f : Frame) : f.stackSlots = slots f.stack.values := f.stack.total_eq_values

theorem stackSlots_of_shape (same : a.shape = b.shape) : a.stackSlots = b.stackSlots := by
  rw [stackSlots_eq, stackSlots_eq, slots_eq_sum, slots_eq_sum]
  exact congrArg List.sum same

theorem joinable_iff (xs ys : List Held) : joinable xs ys ↔ xs.map width = ys.map width := by
  induction xs generalizing ys with
  | nil => cases ys <;> simp [joinable]
  | cons x rest ih =>
    cases ys with
    | nil => simp [joinable]
    | cons y tail =>
      have later := ih tail
      simp only [joinable, Bool.and_eq_true, beq_iff_eq] at later ⊢
      simp only [List.length_cons, List.zip_cons_cons, List.all_cons, Bool.and_eq_true, beq_iff_eq,
        Nat.add_right_cancel_iff, List.map_cons, List.cons.injEq, ← later]
      tauto

theorem joinable_items_iff : joinable a.stack.items b.stack.items ↔ a.shape = b.shape := by
  rw [joinable_iff, shape, shape, Slotted.items, Slotted.items, List.map_reverse, List.map_reverse]
  exact List.reverse_injective.eq_iff

theorem union_of_shape (same : a.shape = b.shape) :
    a.union b = .ok ⟨VType.unionAll a.locals b.locals,
      .ofList (List.zipWith VType.union a.stack.values b.stack.values)⟩ :=
  if_pos (joinable_items_iff.mpr same)

theorem union_of_ne (other : a.shape ≠ b.shape) : a.union b = .error .unequalStacks :=
  if_neg (joinable_items_iff.not.mpr other)

theorem union_eq_ok (joined : a.union b = .ok c) :
    a.shape = b.shape ∧ c = ⟨VType.unionAll a.locals b.locals,
      .ofList (List.zipWith VType.union a.stack.values b.stack.values)⟩ := by
  by_cases same : a.shape = b.shape
  · rw [union_of_shape same] at joined
    cases joined
    exact ⟨same, rfl⟩
  · rw [union_of_ne same] at joined
    cases joined

theorem map_width_zipWith {xs ys : List Held} (same : xs.map width = ys.map width)
    (first : ∀ k : Nat, ¬ (xs[k]? = some .long ∧ ys[k]? = some .double))
    (second : ∀ k : Nat, ¬ (ys[k]? = some .long ∧ xs[k]? = some .double)) :
    (List.zipWith VType.union xs ys).map width = xs.map width := by
  induction xs generalizing ys with
  | nil => simp
  | cons x rest ih =>
    cases ys with
    | nil => simp at same
    | cons y tail =>
      simp only [List.map_cons, List.cons.injEq] at same
      have head := VType.width_union same.1 (by simpa using first 0) (by simpa using second 0)
      have later := ih same.2 (fun k => by simpa using first (k + 1))
        (fun k => by simpa using second (k + 1))
      simp only [List.zipWith_cons_cons, List.map_cons, head, later]

theorem shape_union (joined : a.union b = .ok c) (calm : ¬ Clashes [a, b]) : c.shape = a.shape := by
  obtain ⟨same, rfl⟩ := union_eq_ok joined
  simp only [shape, Slotted.values_ofList]
  apply map_width_zipWith same
  · exact fun k clash => calm ⟨a, by simp, b, by simp, clash_iff.mpr ⟨k, clash⟩⟩
  · exact fun k clash => calm ⟨b, by simp, a, by simp, clash_iff.mpr ⟨k, clash⟩⟩

theorem value_of_below {k : Nat} {v : Held} (below : a.Below b) (found : b.stack.values[k]? = some v)
    (usable : v ≠ .top) : a.stack.values[k]? = some v := by
  have flipped := List.Forall₂.flip below.stack
  obtain ⟨w, here, same | wrong⟩ := exists_of_forall₂ flipped found
  · rw [same]
    exact here
  · exact absurd wrong usable

theorem clashes_of_below (each : ∀ f ∈ frames, ∃ g ∈ others, g.Below f) (h : Clashes frames) :
    Clashes others := by
  obtain ⟨a, ha, b, hb, clash⟩ := h
  obtain ⟨k, long, double⟩ := clash_iff.mp clash
  obtain ⟨a', ha', below⟩ := each a ha
  obtain ⟨b', hb', below'⟩ := each b hb
  exact ⟨a', ha', b', hb', clash_iff.mpr ⟨k, value_of_below below long (by decide),
    value_of_below below' double (by decide)⟩⟩

theorem calm_union (joined : a.union b = .ok c) (calm : ¬ Clashes (a :: b :: rest)) :
    ¬ Clashes (c :: rest) := by
  intro clashes
  apply calm
  apply clashes_of_below _ clashes
  intro f member
  rcases List.mem_cons.mp member with rfl | later
  · exact ⟨a, by simp, (isJoin_union joined).above a (by simp)⟩
  · exact ⟨f, by simp [later], .refl f⟩

theorem calm_pair (calm : ¬ Clashes (a :: b :: rest)) : ¬ Clashes [a, b] := by
  intro clashes
  apply calm
  apply clashes_of_below _ clashes
  intro f member
  exact ⟨f, by simp at member ⊢; tauto, .refl f⟩

theorem unionAll_cons : unionAll a (b :: rest) = (a.union b >>= fun c => unionAll c rest) := rfl

/-- Where nothing clashes, frames can be joined if their stacks have one shape, which is kept. -/
theorem unionAll_of_shape (calm : ¬ Clashes (first :: others))
    (same : ∀ f ∈ others, f.shape = first.shape) :
    ∃ join, unionAll first others = .ok join ∧ join.shape = first.shape := by
  induction others generalizing first with
  | nil => exact ⟨first, rfl, rfl⟩
  | cons b rest ih =>
    have fits : first.shape = b.shape := (same b (by simp)).symm
    have joined := union_of_shape fits
    have kept := shape_union joined (calm_pair calm)
    obtain ⟨join, done, shape⟩ := ih (calm_union joined calm) fun f member => by
      rw [kept]
      exact same f (by simp [member])
    refine ⟨join, ?_, shape.trans kept⟩
    rw [unionAll_cons, joined]
    exact done

theorem shape_of_unionAll (calm : ¬ Clashes (first :: others))
    (joined : unionAll first others = .ok c) : ∀ f ∈ others, f.shape = first.shape := by
  induction others generalizing first with
  | nil => simp
  | cons b rest ih =>
    rw [unionAll_cons] at joined
    cases met : first.union b with
    | error e =>
      rw [met] at joined
      cases joined
    | ok mid =>
      rw [met] at joined
      have kept := shape_union met (calm_pair calm)
      intro f member
      rcases List.mem_cons.mp member with rfl | later
      · exact (union_eq_ok met).1.symm
      · exact (ih (calm_union met calm) joined f later).trans kept

theorem unionAll_error {fault : Fault} (refused : unionAll first others = .error fault) :
    fault = .unequalStacks := by
  induction others generalizing first with
  | nil => cases refused
  | cons b rest ih =>
    rw [unionAll_cons] at refused
    by_cases same : first.shape = b.shape
    · rw [union_of_shape same] at refused
      exact ih refused
    · rw [union_of_ne same] at refused
      cases refused
      rfl

theorem size_unionAll (joined : unionAll first others = .ok c) :
    c.locals.size = ((first :: others).map (·.locals.size)).foldl max 0 := by
  induction others generalizing first with
  | nil =>
    cases joined
    simp
  | cons b rest ih =>
    rw [unionAll_cons] at joined
    cases met : first.union b with
    | error e =>
      rw [met] at joined
      cases joined
    | ok mid =>
      rw [met] at joined
      have size : mid.locals.size = max first.locals.size b.locals.size := by
        rw [(union_eq_ok met).2]
        simp [VType.unionAll]
      rw [ih joined]
      simp [size]

theorem stack_unionAll (joined : unionAll first others = .ok c) (several : others ≠ []) :
    c.stack = .ofList c.stack.values := by
  induction others generalizing first with
  | nil => exact absurd rfl several
  | cons b rest ih =>
    rw [unionAll_cons] at joined
    cases met : first.union b with
    | error e =>
      rw [met] at joined
      cases joined
    | ok mid =>
      rw [met] at joined
      cases rest with
      | nil =>
        cases joined
        rw [(union_eq_ok met).2, Slotted.values_ofList]
      | cons d rest => exact ih joined (by simp)

theorem IsJoin.perm (h : IsJoin frames c) (perm : frames.Perm others) : IsJoin others c := by
  constructor
  · exact fun f member => h.above f (perm.mem_iff.mpr member)
  · exact fun g above => h.least g fun f member => above f (perm.mem_iff.mp member)

theorem eq_of_same (same : c.Same d) (size : c.locals.size = d.locals.size)
    (one : c.stack = .ofList c.stack.values) (two : d.stack = .ofList d.stack.values) : c = d := by
  have sameStack : c.stack = d.stack := by rw [one, two, same.stack]
  have sameLocals : c.locals = d.locals := by
    apply Array.ext size
    intro i low high
    have here := same.slots i
    simpa [slot, low, high] using here
  calc
    c = ⟨c.locals, c.stack⟩ := rfl
    _ = ⟨d.locals, d.stack⟩ := by rw [sameLocals, sameStack]
    _ = d := rfl

/-- Two orders that both succeed give one frame. -/
theorem unionAll_unique (perm : (f :: rest).Perm (first :: others)) (one : unionAll f rest = .ok c)
    (two : unionAll first others = .ok d) : c = d := by
  cases others with
  | nil =>
    obtain ⟨rfl, rfl⟩ : f = first ∧ rest = [] := by simpa using perm
    rw [one] at two
    cases two
    rfl
  | cons b tail =>
    have several : rest ≠ [] := by
      rintro rfl
      simpa using perm.length_eq
    have join := (isJoin_unionAll one).perm perm
    have join' := isJoin_unionAll two
    have same := (join.least d join'.above).antisymm (join'.least c join.above)
    refine eq_of_same same ?_ (stack_unionAll one several) (stack_unionAll two (by simp))
    rw [size_unionAll one, size_unionAll two]
    exact (perm.map _).foldl_eq 0

theorem clashes_perm (perm : frames.Perm others) (h : Clashes frames) : Clashes others :=
  clashes_of_below (fun f member => ⟨f, perm.mem_iff.mp member, .refl f⟩) h

theorem unionAll_perm (calm : ¬ Clashes (first :: others))
    (perm : (f :: rest).Perm (first :: others)) (joined : unionAll first others = .ok c) :
    unionAll f rest = .ok c := by
  have shapes : ∀ g ∈ first :: others, g.shape = first.shape := by
    simpa using shape_of_unionAll calm joined
  have here : f.shape = first.shape := shapes f (perm.mem_iff.mp (by simp))
  obtain ⟨join, done, _⟩ := unionAll_of_shape (fun clashes => calm (clashes_perm perm clashes))
    fun g member => (shapes g (perm.mem_iff.mp (by simp [member]))).trans here.symm
  rw [done, unionAll_unique perm done joined]

theorem orderFree_of_calm (calm : ¬ Clashes (first :: others)) : OrderFree first others := by
  intro f rest perm
  cases joined : unionAll first others with
  | ok c => exact unionAll_perm calm perm joined
  | error fault =>
    cases done : unionAll f rest with
    | ok c =>
      rw [unionAll_perm (fun clashes => calm (clashes_perm perm clashes)) perm.symm done] at joined
      cases joined
    | error other => rw [unionAll_error joined, unionAll_error done]

theorem keepsHeight_of_calm (calm : ¬ Clashes (first :: others)) : KeepsHeight first others := by
  intro join joined f member
  have shapes := shape_of_unionAll calm joined
  obtain ⟨join', joined', kept⟩ := unionAll_of_shape calm shapes
  have same : join' = join := Except.ok.inj (joined'.symm.trans joined)
  apply stackSlots_of_shape
  rw [← same, kept]
  rcases List.mem_cons.mp member with rfl | later
  · rfl
  · exact (shapes f later).symm

/-- Above a long and a double there is only what takes one slot. -/
theorem lower_of_clash (join : IsJoin frames c) (one : a ∈ frames) (two : b ∈ frames)
    (clash : a.Clash b) : c.stackSlots < a.stackSlots := by
  obtain ⟨k, long, double⟩ := clash_iff.mp clash
  obtain ⟨v, here, below⟩ := exists_of_forall₂ (join.above a one).stack long
  obtain ⟨w, there, below'⟩ := exists_of_forall₂ (join.above b two).stack double
  have same : v = w := Option.some.inj (here.symm.trans there)
  have lost : v = .top := by
    rcases below with rfl | rfl
    · rcases below' with wrong | wrong <;> rw [← same] at wrong <;> cases wrong
    · rfl
  rw [lost] at here
  rw [stackSlots_eq, stackSlots_eq]
  exact slots_lt_of_below (join.above a one).stack long rfl here

/-- Joining frames gives the same outcome in every order, and stacks of the height of those joined,
exactly if no long meets a double or all orders fail. Where none does, it succeeds exactly for
stacks of one shape. -/
theorem orderFree_and_keepsHeight_iff (first : Frame) (others : List Frame) :
    (OrderFree first others ∧ KeepsHeight first others ↔
      (Clashes (first :: others) → ∀ f rest, (f :: rest).Perm (first :: others) →
        unionAll f rest = .error .unequalStacks)) ∧
    (¬ Clashes (first :: others) →
      ((∃ join, unionAll first others = .ok join) ↔ ∀ f ∈ others, f.shape = first.shape)) := by
  refine ⟨⟨?_, ?_⟩, ?_⟩
  · rintro ⟨free, keeps⟩ ⟨a, one, b, two, clash⟩ f rest perm
    cases done : unionAll f rest with
    | ok join =>
      rw [free f rest perm] at done
      have lower := lower_of_clash (isJoin_unionAll done) one two clash
      have := keeps join done a one
      omega
    | error fault => rw [unionAll_error done]
  · intro fails
    by_cases clashes : Clashes (first :: others)
    · have all := fails clashes
      have here := all first others (.refl _)
      refine ⟨fun f rest perm => (all f rest perm).trans here.symm, fun join joined => ?_⟩
      rw [here] at joined
      cases joined
    · exact ⟨orderFree_of_calm clashes, keepsHeight_of_calm clashes⟩
  · intro calm
    constructor
    · rintro ⟨join, joined⟩
      exact shape_of_unionAll calm joined
    · intro same
      obtain ⟨join, joined, _⟩ := unionAll_of_shape calm same
      exact ⟨join, joined⟩

end Frame

namespace Body

def mixing : Body :=
  ⟨"A.f(I)V", 1,
    .build do
      let pushed ← Tree.ifElse (.zero .eq) (.long 0) (.double 0)
      return .concat [.load .int 0 .int, pushed, .simple .pop, .simple .returnVoid], [.int]⟩

/-- Where the long meets the double, a frame of one slot is made of two that have two. Another long
can be joined before that, but not after. -/
theorem not_keepsHeight_mixing : ∃ layout mid code final s f g,
    mixing.layOut .empty = .ok layout mid ∧ mixing.assemble {} .object .empty = .ok code final ∧
    mixing.simulate .object layout = .ok s ∧ s.recordedAt 9 = [f, g] ∧
    ¬ Frame.KeepsHeight f [g] ∧ ¬ Frame.OrderFree f [g, g] := by
  obtain ⟨layout, mid, s, t, f, g, join, laidOut, simulated, finished, room, recorded, joined, low, high,
      fails, succeeds⟩ : ∃ layout mid s t f g join,
      mixing.layOut .empty = .ok layout mid ∧ mixing.simulate .object layout = .ok s ∧
      s.finish mid = .ok t mid ∧ mid.entries.next + 2 ≤ 65535 ∧ s.recordedAt 9 = [f, g] ∧
      Frame.unionAll f [g] = .ok join ∧ join.stackSlots = 1 ∧ f.stackSlots = 2 ∧
      Frame.unionAll f [g, g] = .error .unequalStacks ∧ (Frame.unionAll g [g, f]).isOk :=
    ⟨_, _, _, _, _, _, _, by cbv, by cbv, by cbv, by cbv, by cbv, by cbv, by cbv, by cbv, by cbv,
      by cbv⟩
  obtain ⟨code, final, accepted⟩ := exists_assemble {} laidOut simulated finished room
  refine ⟨layout, mid, code, final, s, f, g, laidOut, accepted, simulated, recorded, ?_, ?_⟩
  · intro keeps
    have := keeps join joined f (by simp)
    omega
  · intro free
    have perm : ([g, g] ++ [f]).Perm ([f] ++ [g, g]) := List.perm_append_comm
    rw [free g [g, f] perm, fails] at succeeds
    cases succeeds

end Body

end Bytecode
