import Bytecode.Proofs.Descriptors
import Bytecode.Proofs.Room

/-! Wide local variables. A long or a double takes two slots, of which the second is unusable, and
nothing that is done to a frame leaves one half without the other. So a frame can be written with one
entry for each of them and without unusable variables at its end: it is read back as it was. -/
namespace Bytecode

namespace VType

theorem width_eq_two {v : Held} : width v = 2 ↔ v = .long ∨ v = .double := by
  cases v <;> simp [width]

def read? (p : Pool) : VType UInt16 → Option Held
  | top => some top
  | int => some int
  | float => some float
  | double => some double
  | long => some long
  | null => some null
  | uninitThis => some uninitThis
  | object index => do
    let name ← p.class? index
    return object (← (RefType.ofClassName name).toOption)
  | uninit offset => some (uninit offset)

theorem read?_of_resolve {v : Held} {w : VType UInt16} {p q r : Pool} (hr : r.Coherent)
    (h : v.resolve p = .ok w q) (grown : q.Extends r) : w.read? r = some v := by
  cases v with
  | object c =>
    obtain ⟨index, asked, done⟩ := (Pool.interns_ask (.classRef c)).parts (fun _ => .pure _) h grown
    cases done
    simp [read?, Pool.class?_of_classRef hr asked, RefType.ofClassName_className, Except.toOption]
  | _ =>
    cases h
    rfl

theorem mapM_read?_of_resolve {values : List Held} {wire : List (VType UInt16)} {p q r : Pool}
    (hr : r.Coherent) (h : values.mapM resolve p = .ok wire q) (grown : q.Extends r) :
    wire.mapM (read? r) = some values := by
  induction values generalizing wire p with
  | nil =>
    cases h
    rfl
  | cons v rest ih =>
    rw [List.mapM_cons] at h
    obtain ⟨w, mid, first, h⟩ := exists_of_bind h
    obtain ⟨others, last, second, done⟩ := exists_of_bind h
    cases done
    have kept := ((Pool.Asks.mapM asks_resolve rest).interns.grows_ok second).extends.trans grown
    simp [List.mapM_cons, read?_of_resolve hr first kept, ih second]

end VType

namespace Frame

variable {f g a b c : Frame}

theorem Paired.finer (paired : f.Paired) : f.Finer f :=
  ⟨.refl _, fun _ => .refl _, paired⟩

theorem Paired.union (first : a.Paired) (second : b.Paired) (joined : a.union b = .ok c) :
    c.Paired := by
  obtain ⟨_, rfl⟩ := union_eq_ok joined
  intro i wide
  have narrow : width (.top : Held) = 1 := rfl
  rw [slot_unionAll] at wide ⊢
  by_cases same : a.slot i = b.slot i
  · rw [VType.union, if_pos same] at wide
    rw [first i wide, second i (same ▸ wide)]
    rfl
  · rw [VType.union, if_neg same] at wide
    omega

/-- A long or a double is followed by a slot that is there and unusable. -/
def Formed (f : Frame) : Prop :=
  ∀ i : Nat, f.locals[i]? = some .long ∨ f.locals[i]? = some .double →
    f.locals[i + 1]? = some .top

theorem getElem?_of_slot {i : Nat} {v : Held} (usable : v ≠ .top) (h : f.slot i = v) :
    f.locals[i]? = some v := by
  rw [slot, Array.getD_eq_getD_getElem?] at h
  cases here : f.locals[i]? with
  | none =>
    rw [here] at h
    exact absurd h.symm usable
  | some w =>
    rw [here] at h
    exact congrArg some h

theorem slot_of_getElem? {i : Nat} {v : Held} (h : f.locals[i]? = some v) : f.slot i = v := by
  simp [slot, Array.getD_eq_getD_getElem?, h]

theorem formed_iff : f.Formed ↔ f.Whole ∧ f.Paired := by
  constructor
  · intro formed
    have next : ∀ i, width (f.slot i) = 2 → f.locals[i + 1]? = some .top := by
      intro i wide
      rcases VType.width_eq_two.mp wide with long | double
      · exact formed i (.inl (getElem?_of_slot (by simp) long))
      · exact formed i (.inr (getElem?_of_slot (by simp) double))
    exact ⟨fun i wide => (Array.getElem?_eq_some_iff.mp (next i wide)).1,
      fun i wide => slot_of_getElem? (next i wide)⟩
  · rintro ⟨whole, paired⟩ i wide
    have two : width (f.slot i) = 2 := by
      rcases wide with long | double
      · rw [slot_of_getElem? long]
        rfl
      · rw [slot_of_getElem? double]
        rfl
    have inside := whole i two
    have top := paired i two
    rw [slot, Array.getD_eq_getD_getElem?, Array.getElem?_eq_getElem inside] at top
    rw [Array.getElem?_eq_getElem inside]
    exact congrArg some top

theorem Formed.congr (formed : f.Formed) (same : g.locals = f.locals) : g.Formed := by
  simpa only [Formed, same] using formed

theorem formed_ofArguments (arguments : List Held) : (ofArguments arguments).Formed :=
  formed_iff.mpr ⟨whole_ofArguments arguments, paired_ofArguments arguments⟩

theorem Formed.store (formed : f.Formed) (index : UInt16) (v : Held) : (f.store index v).Formed := by
  obtain ⟨whole, paired⟩ := formed_iff.mp formed
  exact formed_iff.mpr ⟨whole.store index v, (paired.finer.store index v).paired⟩

theorem Formed.replace (formed : f.Formed) {old new : Held} (usable : old ≠ .top)
    (narrow : width new = 1) : (replace old new f).Formed := by
  obtain ⟨whole, paired⟩ := formed_iff.mp formed
  exact formed_iff.mpr ⟨whole.replace usable narrow, (paired.finer.replace usable narrow).paired⟩

theorem Formed.union (first : a.Formed) (second : b.Formed) (joined : a.union b = .ok c) :
    c.Formed := by
  obtain ⟨whole, paired⟩ := formed_iff.mp first
  exact formed_iff.mpr
    ⟨whole.union joined, paired.union (formed_iff.mp second).2 joined⟩

theorem Formed.execute (formed : f.Formed) {l : Leaf} {declared : ResultType} {position : Nat}
    {this : BinaryName} (h : f.execute l declared position this = .ok g) : g.Formed := by
  have popped : ∀ stack, (⟨f.locals, stack⟩ : Frame).Formed := fun _ => formed
  rcases locals_of_execute (formed_iff.mp formed).1 h with ⟨same, _⟩ | ⟨index, v, stack, _, rfl⟩ |
    ⟨old, new, stack, _, usable, narrow, rfl⟩
  · exact formed.congr same
  · exact (popped stack).store index v
  · exact (popped stack).replace usable narrow

theorem Formed.branch (formed : f.Formed) {test : Test} (h : f.branch test = .ok g) : g.Formed := by
  have left : f.leave (some test) = .ok g := h
  exact formed.congr (leave_ok left).1

inductive Obtained : Frame → Prop where
  | arguments (values : List Held) : Obtained (ofArguments values)
  | execute {f g : Frame} (l : Leaf) (declared : ResultType) (position : Nat) (this : BinaryName) :
    Obtained f → f.execute l declared position this = .ok g → Obtained g
  | branch {f g : Frame} (test : Test) : Obtained f → f.branch test = .ok g → Obtained g
  | store {f : Frame} (index : UInt16) (v : Held) : Obtained f → Obtained (f.store index v)
  | withStack {f : Frame} (values : List Held) : Obtained f → Obtained (f.withStack values)
  | union {f g join : Frame} : Obtained f → Obtained g → f.union g = .ok join → Obtained join

theorem Obtained.formed (h : f.Obtained) : f.Formed := by
  induction h with
  | arguments values => exact formed_ofArguments values
  | execute _ _ _ _ _ runs ih => exact ih.execute runs
  | branch _ _ runs ih => exact ih.branch runs
  | store index v _ ih => exact ih.store index v
  | withStack _ _ ih => exact ih
  | union _ _ joined first second => exact first.union second joined

theorem spread_append (xs ys : List Held) : spread (xs ++ ys) = spread xs ++ spread ys :=
  List.flatMap_append

theorem spread_tops (k : Nat) : spread (List.replicate k .top) = List.replicate k .top := by
  induction k with
  | zero => rfl
  | succ k ih =>
    rw [List.replicate_succ, ← List.singleton_append, spread_append, ih]
    rfl

/-- The second halves of wide variables are put back where they were left out. -/
theorem spread_packed (values seen : List Held)
    (formed : ∀ i, width (values.getD i .top) = 2 → values[i + 1]? = some .top) :
    spread (packed values seen) = spread seen.reverse ++ values := by
  fun_induction packed values seen with
  | case1 seen => rw [List.append_nil]
  | case2 v seen =>
    have narrow : width v ≠ 2 := fun wide => by simpa using formed 0 wide
    rw [List.reverse_cons, spread_append]
    simp [spread, narrow]
  | case3 v w rest seen wide ih =>
    have half : w = .top := by simpa using formed 0 wide
    rw [ih fun i => formed (i + 2), List.reverse_cons, spread_append, half]
    simp [spread, wide]
  | case4 v w rest seen narrow ih =>
    rw [ih fun i => formed (i + 1), List.reverse_cons, spread_append]
    simp [spread, narrow]

theorem dropTops_tops (values : List (VType UInt16)) :
    ∃ k, values = dropTops values ++ List.replicate k .top := by
  have cut := List.takeWhile_append_dropWhile (p := (· = VType.top)) (l := values.reverse)
  have tops : values.reverse.takeWhile (· = VType.top) =
      List.replicate (values.reverse.takeWhile (· = VType.top)).length .top :=
    List.eq_replicate_iff.mpr ⟨rfl, fun v member => by simpa using List.mem_takeWhile_imp member⟩
  refine ⟨(values.reverse.takeWhile (· = VType.top)).length, ?_⟩
  rw [tops] at cut
  have whole := congrArg List.reverse cut
  rwa [List.reverse_append, List.reverse_replicate, List.reverse_reverse, eq_comm] at whole

/-- What is written of a frame is read back: of the local variables, up to unusable ones at the
end. -/
theorem mapM_read?_of_full {wire : List (VType UInt16) × List (VType UInt16)} {p q : Pool}
    (hq : q.Coherent) (h : f.full p = .ok wire q) :
    ∃ values k, wire.1.mapM (VType.read? q) = some values ∧
      packed f.locals.toList [] = values ++ List.replicate k .top ∧
      wire.2.mapM (VType.read? q) = some f.stack.values := by
  obtain ⟨locals, mid, first, h⟩ := exists_of_bind h
  obtain ⟨stack, last, second, done⟩ := exists_of_bind h
  cases done
  have grown := ((Pool.Asks.mapM VType.asks_resolve _).interns.grows_ok second).extends
  have read := VType.mapM_read?_of_resolve hq first grown
  obtain ⟨k, whole⟩ := dropTops_tops locals
  have tops : (List.replicate k (.top : VType UInt16)).mapM (VType.read? q) =
      some (List.replicate k .top) := by
    clear whole
    induction k with
    | zero => rfl
    | succ k ih => simp [List.replicate_succ, List.mapM_cons, ih, VType.read?]
  rw [whole, List.mapM_append, tops] at read
  cases kept : (dropTops locals).mapM (VType.read? q) with
  | none => simp [kept] at read
  | some values =>
    refine ⟨values, k, rfl, ?_, VType.mapM_read?_of_resolve hq second (.refl q)⟩
    simpa [kept, eq_comm] using read

/-- The slots of values, filled up to a number of them. -/
def unpack (size : Nat) (values : List Held) : List Held :=
  spread values ++ List.replicate (size - (spread values).length) .top

def read? (p : Pool) (size : Nat) (wire : List (VType UInt16) × List (VType UInt16)) :
    Option Frame := do
  let locals ← wire.1.mapM (VType.read? p)
  let stack ← wire.2.mapM (VType.read? p)
  return ⟨(unpack size locals).toArray, .ofList stack⟩

theorem Formed.read? (formed : f.Formed) {wire : List (VType UInt16) × List (VType UInt16)}
    {p q : Pool} (hq : q.Coherent) (h : f.full p = .ok wire q) :
    ∃ g, Frame.read? q f.locals.size wire = some g ∧ g.locals = f.locals ∧
      g.stack.values = f.stack.values := by
  obtain ⟨values, k, locals, cut, stack⟩ := mapM_read?_of_full hq h
  have slots : spread values ++ List.replicate k .top = f.locals.toList := by
    have whole := spread_packed f.locals.toList [] fun i wide => by
      rw [Array.getElem?_toList]
      refine formed i ((VType.width_eq_two.mp wide).imp ?_ ?_) <;> intro same <;>
        exact getElem?_of_slot (by simp)
          (by simpa [slot, Array.getD_eq_getD_getElem?, List.getD_eq_getElem?_getD] using same)
    rwa [cut, spread_append, spread_tops, List.reverse_nil] at whole
  have unpacked : unpack f.locals.size values = f.locals.toList := by
    have size : (spread values).length + k = f.locals.size := by
      simpa using congrArg List.length slots
    rw [unpack, ← slots, show f.locals.size - (spread values).length = k by omega]
  refine ⟨⟨(unpack f.locals.size values).toArray, .ofList f.stack.values⟩, ?_, ?_, ?_⟩
  · simp [Frame.read?, locals, stack]
  · rw [unpacked]
  · exact Slotted.values_ofList _

/-- Wide variables stay whole whatever is done to a frame, and what is written of it is enough to have
all of it back. -/
theorem obtained_reads_back (f : Frame) (obtained : f.Obtained) :
    f.Formed ∧ ∀ pool wire final, pool.Made → f.full pool = .ok wire final →
      ∃ g, read? final f.locals.size wire = some g ∧ g.locals = f.locals ∧
        g.stack.values = f.stack.values := by
  refine ⟨obtained.formed, fun pool wire final made written => ?_⟩
  have grown := f.asks_full.interns.grows_ok written
  exact obtained.formed.read? (Pool.Made.coherent (made.trans grown)) written

/-- A double is put over the second half of a long, and an int after it. -/
def overlapping : Frame :=
  (((ofArguments [.long, .null]).store 1 .double).store 4 .int).withStack
    [.object (.object .string)]

def neighbour : Frame :=
  (ofArguments [.int, .double, .float, .int]).withStack [.object (.object .string)]

theorem obtained_reads_back_overlapping : ∃ join final g, overlapping.union neighbour = .ok join ∧
    join.Obtained ∧ join.Formed ∧ join.locals = #[.top, .double, .top, .top, .int] ∧
    join.full .empty = .ok ([.top, .double, .top, .int], [.object 2]) final ∧
    read? final 5 ([.top, .double, .top, .int], [.object 2]) = some g ∧ g.locals = join.locals ∧
    g.stack.values = [.object (.object .string)] := by
  obtain ⟨join, final, joined, locals, stack, written⟩ : ∃ join final,
      overlapping.union neighbour = .ok join ∧
      join.locals = #[.top, .double, .top, .top, .int] ∧
      join.stack.values = [.object (.object .string)] ∧
      join.full .empty = .ok ([.top, .double, .top, .int], [.object 2]) final :=
    ⟨_, _, by cbv, by cbv, by cbv, by cbv⟩
  have obtained : join.Obtained :=
    .union (.withStack _ (.store 4 _ (.store 1 _ (.arguments _)))) (.withStack _ (.arguments _)) joined
  obtain ⟨formed, back⟩ := obtained_reads_back join obtained
  obtain ⟨g, read, same, values⟩ := back .empty _ final .refl written
  rw [locals] at read
  exact ⟨join, final, g, joined, obtained, formed, locals, written, read, same, values.trans stack⟩

end Frame

end Bytecode
