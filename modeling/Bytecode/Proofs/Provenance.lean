import Bytecode.Proofs.Elision
import Bytecode.Proofs.Maxima
import Bytecode.Proofs.WideLocals

/-! Where objects come from whose constructor has not been called. A frame holds one only if it was
there on entry, or if an instruction was seen that makes it: copies, stores, joins and handlers bring
no other. So the type that is written for such an object leads to the instruction that made it. -/
namespace Bytecode

namespace VType

/-- An object whose constructor has not been called. -/
def Raw (v : Held) : Prop := v = .uninitThis ∨ ∃ offset, v = .uninit offset

theorem Raw.ne_top {v : Held} (raw : v.Raw) : v ≠ .top := by
  rintro rfl
  simp [Raw] at raw

theorem not_raw_ofField (t : FieldType) : ¬ (ofField t).Raw := by
  unfold ofField
  split <;> simp [Raw]

theorem not_raw_ofResult? {t : ResultType} {v : Held} (h : ofResult? t = some v) : ¬ v.Raw := by
  cases t with
  | void => cases h
  | value t =>
    cases h
    exact not_raw_ofField t

/-- To say less of a value brings up no raw object. -/
theorem Below.eq_of_raw {v w : Held} (below : Below v w) (raw : w.Raw) : v = w := by
  rcases below with same | lost
  · exact same.symm
  · exact absurd lost raw.ne_top

theorem exists_of_mapM_read? {p : Pool} {wire : List (VType UInt16)} {values : List Held}
    (h : wire.mapM (read? p) = some values) {w : VType UInt16} (member : w ∈ wire) :
    ∃ v ∈ values, w.read? p = some v := by
  induction wire generalizing values with
  | nil => cases member
  | cons x rest ih =>
    simp only [List.mapM_cons, Option.bind_eq_bind, Option.bind_eq_some_iff, Option.pure_def,
      Option.some.injEq] at h
    obtain ⟨v, first, others, later, rfl⟩ := h
    rcases List.mem_cons.mp member with rfl | here
    · exact ⟨v, by simp, first⟩
    · obtain ⟨u, listed, same⟩ := ih later here
      exact ⟨u, by simp [listed], same⟩

end VType

theorem Loadable.not_raw_held (c : Loadable) : ¬ c.held.Raw := by
  cases c <;> simp [held, VType.Raw]

namespace Stack

variable {s s' rest : Stack} {v : Held} {leaves : List Held}

theorem items_popNarrow (h : popNarrow s = .ok (v, s')) : s.items = v :: s'.items := by
  obtain ⟨⟨w, below⟩, popped, h⟩ := ok_of_bind h
  simp only at h
  split at h
  · cases h
    exact items_pop popped
  · cases h

theorem items_popPair {vs : List Held} (h : popPair s = .ok (vs, s')) :
    s.items = vs.reverse ++ s'.items := by
  obtain ⟨⟨w, below⟩, popped, h⟩ := ok_of_bind h
  simp only at h
  split at h
  · obtain ⟨⟨x, last⟩, popped', h⟩ := ok_of_bind h
    cases h
    rw [items_pop popped, items_popNarrow popped']
    rfl
  · cases h
    exact items_pop popped

/-- Of what is put on the stack in place of other values, the raw objects were among these. -/
theorem mem_of_extend (popped : List Held) (items : s.items = popped ++ rest.items)
    (drawn : ∀ w ∈ leaves, w.Raw → w ∈ popped) (raw : v.Raw)
    (member : v ∈ (rest.extend leaves).items) : v ∈ s.items := by
  rw [Slotted.items_extend, List.mem_append, List.mem_reverse] at member
  rw [items, List.mem_append]
  exact member.imp_left fun new => drawn v new raw

theorem mem_of_apply {takes : List Operand} (ready : ∀ w ∈ leaves, ¬ w.Raw) (raw : v.Raw)
    (h : apply takes leaves s = .ok s') (member : v ∈ s'.items) : v ∈ s.items := by
  obtain ⟨below, taken, h⟩ := ok_of_bind h
  cases h
  obtain ⟨popped, items⟩ := suffix_takeAll taken
  exact mem_of_extend popped items.symm (fun w new rawer => absurd rawer (ready w new)) raw member

theorem not_raw_elementOf {w : Held} (h : elementOf w = .ok v) : ¬ v.Raw := by
  unfold elementOf at h
  split at h
  · cases h
    simp [VType.Raw]
  · split at h
    · cases h
      simp [VType.Raw]
    · cases h
  · cases h

theorem mem_of_shuffle (i : Simple) (raw : v.Raw) (h : shuffle i s = .ok s')
    (member : v ∈ s'.items) : v ∈ s.items := by
  cases i with
  | aaload =>
    obtain ⟨⟨a, t⟩, first, h⟩ := ok_of_bind h
    obtain ⟨⟨b, u⟩, second, h⟩ := ok_of_bind h
    obtain ⟨element, made, h⟩ := ok_of_bind h
    cases h
    rw [(items_take first).1, (items_take second).1]
    rcases Slotted.mem_items_push.mp member with rfl | old
    · exact absurd raw (not_raw_elementOf made)
    · simp [old]
  | arrayLength =>
    obtain ⟨⟨a, t⟩, first, h⟩ := ok_of_bind h
    dsimp only at h
    split at h
    · cases h
      rw [(items_take first).1]
      rcases Slotted.mem_items_push.mp member with rfl | old
      · simp [VType.Raw] at raw
      · simp [old]
    · cases h
  | pop =>
    obtain ⟨⟨a, t⟩, first, h⟩ := ok_of_bind h
    cases h
    exact items_popNarrow first ▸ List.mem_cons_of_mem a member
  | pop2 =>
    obtain ⟨⟨a, t⟩, first, h⟩ := ok_of_bind h
    cases h
    exact items_popPair first ▸ List.mem_append_right a.reverse member
  | dup =>
    obtain ⟨⟨a, t⟩, first, h⟩ := ok_of_bind h
    cases h
    exact mem_of_extend [a] (items_popNarrow first) (by simp) raw member
  | dupX1 =>
    obtain ⟨⟨a, t⟩, first, h⟩ := ok_of_bind h
    obtain ⟨⟨b, u⟩, second, h⟩ := ok_of_bind h
    cases h
    exact mem_of_extend [a, b] (by rw [items_popNarrow first, items_popNarrow second]; rfl)
      (by simp) raw member
  | dupX2 =>
    obtain ⟨⟨a, t⟩, first, h⟩ := ok_of_bind h
    obtain ⟨⟨below, u⟩, second, h⟩ := ok_of_bind h
    cases h
    exact mem_of_extend (a :: below.reverse)
      (by rw [items_popNarrow first, items_popPair second]; rfl) (by grind) raw member
  | dup2 =>
    obtain ⟨⟨as, t⟩, first, h⟩ := ok_of_bind h
    cases h
    exact mem_of_extend as.reverse (items_popPair first) (by grind) raw member
  | dup2X1 =>
    obtain ⟨⟨as, t⟩, first, h⟩ := ok_of_bind h
    obtain ⟨⟨b, u⟩, second, h⟩ := ok_of_bind h
    cases h
    exact mem_of_extend (as.reverse ++ [b])
      (by rw [items_popPair first, items_popNarrow second, List.append_assoc]; rfl) (by grind) raw
      member
  | dup2X2 =>
    obtain ⟨⟨as, t⟩, first, h⟩ := ok_of_bind h
    obtain ⟨⟨below, u⟩, second, h⟩ := ok_of_bind h
    cases h
    exact mem_of_extend (as.reverse ++ below.reverse)
      (by rw [items_popPair first, items_popPair second, List.append_assoc]) (by grind) raw member
  | swap =>
    obtain ⟨⟨a, t⟩, first, h⟩ := ok_of_bind h
    obtain ⟨⟨b, u⟩, second, h⟩ := ok_of_bind h
    cases h
    exact mem_of_extend [a, b] (by rw [items_popNarrow first, items_popNarrow second]; rfl)
      (by simp) raw member
  | _ =>
    cases h
    exact member

theorem mem_of_simple (i : Simple) (raw : v.Raw) (h : simple i s = .ok s')
    (member : v ∈ s'.items) : v ∈ s.items := by
  unfold simple at h
  cases listed : i.effect? with
  | none =>
    simp only [listed] at h
    exact mem_of_shuffle i raw h member
  | some effect =>
    obtain ⟨takes, leaves⟩ := effect
    simp only [listed] at h
    refine mem_of_apply ?_ raw h member
    cases i <;> cases listed <;> simp [VType.Raw]

end Stack

def Leaf.Makes (l : Leaf) (position : Nat) (v : Held) : Prop :=
  (∃ name, l = .new name) ∧ position ≤ 65535 ∧ v = .uninit position.toUInt16

namespace Frame

variable {f g : Frame} {v : Held}

def Holds (f : Frame) (v : Held) : Prop := (∃ i, f.slot i = v) ∨ v ∈ f.stack.items

theorem holds_of_stack {stack : Stack} (fewer : v ∈ stack.items → v ∈ f.stack.items)
    (held : (⟨f.locals, stack⟩ : Frame).Holds v) : f.Holds v :=
  held.imp_right fewer

theorem holds_of_onStack {x : Stack → Except Fault Stack}
    (fewer : ∀ stack, x f.stack = .ok stack → v ∈ stack.items → v ∈ f.stack.items)
    (h : f.onStack x = .ok g) (held : g.Holds v) : f.Holds v := by
  obtain ⟨stack, ran, h⟩ := ok_of_bind h
  cases h
  exact holds_of_stack (fewer stack ran) held

theorem holds_of_apply {takes : List Operand} {leaves : List Held} (raw : v.Raw)
    (ready : ∀ w ∈ leaves, ¬ w.Raw) (h : f.onStack (Stack.apply takes leaves) = .ok g)
    (held : g.Holds v) : f.Holds v :=
  holds_of_onStack (fun _ => Stack.mem_of_apply ready raw) h held

theorem holds_of_push {w : Held} (held : (f.push w).Holds v) : v = w ∨ f.Holds v := by
  rcases held with slot | member
  · exact .inr (.inl slot)
  · exact (Slotted.mem_items_push.mp member).imp_right .inr

theorem holds_of_store {index : UInt16} {w : Held} (raw : v.Raw)
    (held : (f.store index w).Holds v) : v = w ∨ f.Holds v := by
  rcases held with ⟨i, here⟩ | member
  · have usable := raw.ne_top
    rw [slot_store] at here
    grind [Holds]
  · exact .inr (.inr member)

theorem holds_of_replace {old new : Held} (raw : v.Raw) (usable : old ≠ .top) (ready : ¬ new.Raw)
    (held : (replace old new f).Holds v) : f.Holds v := by
  rcases held with ⟨i, here⟩ | member
  · rw [slot_replace usable] at here
    split at here
    · exact absurd (here ▸ raw) ready
    · exact .inl ⟨i, here⟩
  · rw [Slotted.mem_items, replace, Slotted.values_ofList, List.mem_map] at member
    obtain ⟨w, there, here⟩ := member
    split at here
    · exact absurd (here ▸ raw) ready
    · exact .inr (Slotted.mem_items.mpr (here ▸ there))

theorem holds_of_below (below : f.Below g) (raw : v.Raw) (held : g.Holds v) : f.Holds v := by
  rcases held with ⟨i, rfl⟩ | member
  · exact .inl ⟨i, (below.slots i).eq_of_raw raw⟩
  · obtain ⟨k, here⟩ := List.mem_iff_getElem?.mp (Slotted.mem_items.mp member)
    have there := value_of_below below here raw.ne_top
    exact .inr (Slotted.mem_items.mpr (List.mem_of_getElem? there))

theorem holds_of_withStack {w : Held} (ready : ¬ w.Raw) (raw : v.Raw)
    (held : (f.withStack [w]).Holds v) : f.Holds v := by
  rcases held with slot | member
  · exact .inl slot
  · cases List.mem_singleton.mp member
    exact absurd raw ready

theorem mem_of_holds_ofArguments {arguments : List Held} (raw : v.Raw)
    (held : (ofArguments arguments).Holds v) : v ∈ arguments := by
  rcases held with ⟨i, here⟩ | member
  · have inside := getElem?_of_slot raw.ne_top here
    rw [ofArguments, List.getElem?_toArray] at inside
    obtain ⟨w, listed, spread⟩ := List.mem_flatMap.mp (List.mem_of_getElem? inside)
    have same : v = w := by
      split at spread
      · rcases List.mem_cons.mp spread with same | half
        · exact same
        · exact absurd (List.mem_singleton.mp half) raw.ne_top
      · exact List.mem_singleton.mp spread
    exact same ▸ listed
  · cases member

theorem not_raw_initialized {owner : RefType} {this : BinaryName} {old new : Held}
    (h : initialized owner this old = some new) : ¬ new.Raw := by
  rcases initialized_cases h with ⟨_, rfl⟩ | ⟨_, _, rfl⟩ <;> simp [VType.Raw]

theorem holds_of_var {op : LocalOp} {index : UInt16} {declared : ResultType} (raw : v.Raw)
    (h : f.var op index declared = .ok g) (held : g.Holds v) : f.Holds v := by
  cases op with
  | load k =>
    obtain ⟨w, found, here, rfl, same | lost, _⟩ := load_ok h
    · rcases holds_of_push held with rfl | old
      · exact .inl ⟨index.toNat, by rw [local?_eq_ok here, same]⟩
      · exact old
    · rcases holds_of_push held with rfl | old
      · exact absurd raw (VType.not_raw_ofResult? lost)
      · exact old
  | store k =>
    obtain ⟨w, stack, items, _, rfl⟩ := store_ok h
    rcases holds_of_store raw held with rfl | old
    · exact .inr (by simp [items])
    · exact holds_of_stack (fun member => by simp [items, member]) old

theorem holds_of_field {op : FieldOp} {t : FieldType} (raw : v.Raw) (h : f.field op t = .ok g)
    (held : g.Holds v) : f.Holds v := by
  cases op with
  | getStatic | getField =>
    exact holds_of_apply raw (by simpa using VType.not_raw_ofField t) h held
  | putStatic | putField => exact holds_of_apply raw (by simp) h held

theorem holds_of_invoke {kind : InvokeKind} {owner : RefType} {name : MemberName}
    {signature : Signature} {this : BinaryName} (raw : v.Raw)
    (h : f.invoke kind owner name signature this = .ok g) (held : g.Holds v) : f.Holds v := by
  obtain ⟨stack, taken, h⟩ := ok_of_bind h
  have popped : (⟨f.locals, stack⟩ : Frame).Holds v := by
    dsimp only at h
    split at h
    · obtain ⟨old, new, rest, received, usable, made, rfl⟩ := construct_ok h
      have called := holds_of_replace raw usable (not_raw_initialized made) held
      exact holds_of_stack (fun member => received ▸ Slotted.mem_items_push.mpr (.inr member)) called
    · refine holds_of_apply raw (fun w given => ?_) h held
      exact VType.not_raw_ofResult? (Option.mem_toList.mp given)
  exact holds_of_stack (fun member => (Stack.suffix_takeAll taken).subset member) popped

/-- A raw object that is held after an instruction was held before it, or the instruction makes
it. -/
theorem holds_of_execute {l : Leaf} {declared : ResultType} {position : Nat} {this : BinaryName}
    (raw : v.Raw) (h : f.execute l declared position this = .ok g) (held : g.Holds v) :
    f.Holds v ∨ l.Makes position v := by
  cases l with
  | simple i => exact .inl (holds_of_onStack (fun _ => Stack.mem_of_simple i raw) h held)
  | push c =>
    cases h
    rcases holds_of_push held with rfl | old
    · exact absurd raw c.not_raw_held
    · exact .inl old
  | var op index => exact .inl (holds_of_var raw h held)
  | field op owner name t => exact .inl (holds_of_field raw h held)
  | invoke kind owner name signature => exact .inl (holds_of_invoke raw h held)
  | new name =>
    simp only [execute] at h
    split at h
    · rename_i small
      cases h
      exact (holds_of_push held).symm.imp_right fun same => ⟨⟨name, rfl⟩, small, same⟩
    · cases h
  | newArray | newObjects | cast | instanceOf =>
    exact .inl (holds_of_apply raw (by simp [VType.Raw]) h held)

theorem holds_of_leave {test : Option Test} (h : f.leave test = .ok g) (held : g.Holds v) :
    f.Holds v := by
  cases test with
  | none =>
    cases h
    exact held
  | some test =>
    obtain ⟨stack, taken, h⟩ := ok_of_bind h
    cases h
    exact holds_of_stack (fun member => (Stack.suffix_takeAll taken).subset member) held

theorem mem_packed {values seen : List Held} (member : v ∈ packed values seen) :
    v ∈ values ∨ v ∈ seen := by
  fun_induction packed values seen with
  | case1 seen => exact .inr (List.mem_reverse.mp member)
  | case2 w seen => simpa [or_comm] using member
  | case3 w half rest seen wide ih => grind
  | case4 w next rest seen narrow ih => grind

theorem exists_of_full {wire : List (VType UInt16) × List (VType UInt16)} {p q : Pool}
    (hq : q.Coherent) (h : f.full p = .ok wire q) {w : VType UInt16}
    (member : w ∈ wire.1 ++ wire.2) : ∃ v, w.read? q = some v ∧ f.Holds v := by
  obtain ⟨values, k, locals, cut, stack⟩ := mapM_read?_of_full hq h
  rcases List.mem_append.mp member with here | here
  · obtain ⟨v, listed, same⟩ := VType.exists_of_mapM_read? locals here
    have inside : v ∈ packed f.locals.toList [] := cut ▸ List.mem_append_left _ listed
    rcases mem_packed inside with slot | none
    · obtain ⟨i, here⟩ := List.mem_iff_getElem?.mp slot
      rw [Array.getElem?_toList] at here
      exact ⟨v, same, .inl ⟨i, slot_of_getElem? here⟩⟩
    · cases none
  · obtain ⟨v, listed, same⟩ := VType.exists_of_mapM_read? stack here
    exact ⟨v, same, .inr (Slotted.mem_items.mpr listed)⟩

end Frame

namespace Simulation

variable {scene : Scene} {s s' : Simulation} {sights : List Sight} {x : Sight} {f u : Frame}
  {v : Held} {p : Nat}

def Holds (s : Simulation) (v : Held) : Prop :=
  (∃ f, s.state = some f ∧ f.Holds v) ∨ ∃ p, ∃ f ∈ s.recordedAt p, f.Holds v

theorem holds_of_joined (joins : s.joined p = .ok (some u)) (raw : v.Raw) (held : u.Holds v) :
    ∃ f ∈ s.recordedAt p, f.Holds v := by
  obtain ⟨f, member⟩ := exists_recorded joins
  exact ⟨f, member, Frame.holds_of_below ((isJoin_of_joined joins).above f member) raw held⟩

theorem not_raw_caughtType (caught : Option BinaryName) : ¬ (caughtType caught).Raw := by
  simp [caughtType, VType.Raw]

def CatchesReady (s : Simulation) : Prop := ∀ e ∈ s.active, ¬ e.2.Raw

theorem CatchesReady.sees (ready : s.CatchesReady) (sees : Sees scene x s s') : s'.CatchesReady := by
  intro e member
  rcases sees.mem_active member with old | ⟨caught, type⟩
  · exact ready e old
  · exact type ▸ not_raw_caughtType caught

theorem holds_of_records (ready : s.CatchesReady) (made : (p, f) ∈ s.records scene x)
    (raw : v.Raw) (held : f.Holds v) : ∃ e, s.state = some e ∧ e.Holds v := by
  obtain ⟨e, present, ⟨test, left⟩ | ⟨_, w, rfl, origin⟩⟩ := records_cases made
  · exact ⟨e, present, Frame.holds_of_leave left held⟩
  · have complete : ¬ w.Raw := by
      rcases origin with ⟨handler, force⟩ | ⟨caught, rfl⟩
      · exact ready (handler, w) force
      · exact not_raw_caughtType caught
    exact ⟨e, present, Frame.holds_of_withStack complete raw held⟩

/-- A raw object that is held after a sight was held before it, or an instruction is seen that makes
it. -/
theorem holds_of_see (ready : s.CatchesReady) (raw : v.Raw) (h : s.see scene x = .ok s')
    (held : s'.Holds v) : s.Holds v ∨ ∃ o l n, x = .insn o l n ∧ l.Makes n v := by
  have seen := see_ok h
  have recorded : ∀ p, ∀ f ∈ s'.recordedAt p, f.Holds v → s.Holds v := by
    intro p f member here
    rcases seen.recordedAt_cases member with old | made
    · exact .inr ⟨p, f, old, here⟩
    · exact .inl (holds_of_records ready made raw here)
  rcases held with ⟨f, present, here⟩ | ⟨p, f, member, here⟩
  · have moves := seen.state
    have unchanged : s'.state = s.state → s.Holds v := fun same => .inl ⟨f, same ▸ present, here⟩
    cases x with
    | label l n =>
      simp only [Moves] at moves
      split at moves
      · rw [present] at moves
        -- The state is joined from all that is recorded there by now.
        obtain ⟨g, member, there⟩ := holds_of_joined moves raw here
        exact .inl (recorded n g member there)
      · exact .inl (unchanged moves)
    | insn o l n =>
      rcases moves with ⟨_, after⟩ | ⟨e, g, before, runs, after⟩
      · rw [after] at present
        cases present
      · rw [after] at present
        split at present
        · cases present
        · cases present
          rcases Frame.holds_of_execute raw runs here with old | made
          · exact .inl (.inl ⟨e, before, old⟩)
          · exact .inr ⟨o, l, n, rfl, made⟩
    | jump test source target =>
      rcases moves with ⟨_, after⟩ | ⟨e, g, before, left, after⟩
      · rw [after] at present
        cases present
      · rw [after] at present
        split at present
        · cases present
          exact .inl (.inl ⟨e, before, Frame.holds_of_leave left here⟩)
        · cases present
    | enterTry | exitTry | line => exact .inl (unchanged moves)
  · exact .inl (recorded p f member here)

/-- A raw object that is held in the end was held in the beginning, or an instruction was seen on the
way that makes it. -/
theorem Runs.holds (ran : Runs scene s sights s') (ready : s.CatchesReady) (raw : v.Raw)
    (held : s'.Holds v) : s.Holds v ∨ ∃ o l n, .insn o l n ∈ sights ∧ l.Makes n v := by
  induction sights generalizing s with
  | nil =>
    cases ran
    exact .inl held
  | cons x rest ih =>
    obtain ⟨t, sees, later⟩ := runs_cons.mp ran
    rcases ih later (ready.sees (see_ok sees)) with here | ⟨o, l, n, seen, made⟩
    · rcases holds_of_see ready raw sees here with old | ⟨o, l, n, rfl, made⟩
      · exact .inl old
      · exact .inr ⟨o, l, n, by simp, made⟩
    · exact .inr ⟨o, l, n, by simp [seen], made⟩

theorem holds_start (initial : Frame) (held : (start initial).Holds v) : initial.Holds v := by
  rcases held with ⟨f, present, here⟩ | ⟨p, f, member, _⟩
  · cases present
    exact here
  · simp [recordedAt, start] at member

end Simulation

namespace Body

variable {config : Config} {this : BinaryName} {b : Body} {pool mid final : Pool} {code : Code}
  {layout : Layout} {simulation : Simulation}

def FramesWritten (pool : Pool) (code : Code) (frames : List MapFrame) : Prop :=
  ∃ name lines, pool.text? name = some "StackMapTable" ∧
    code.attributes = [⟨name, Octets.counted MapFrame.encode frames⟩, lines]

/-- An instruction that makes an object is written as it was laid out: no cast reaches into it. -/
theorem getElem?_new (made : pool.Made) (accepted : b.assemble config this pool = .ok code final)
    (laidOut : b.layOut pool = .ok layout mid)
    (simulated : b.simulate this layout = .ok simulation) {o : Outcome} {name : BinaryName} {n : Nat}
    (seen : .insn o (.new name) n ∈ layout.sights.toList) : code.code[n]? = some Opcode.new := by
  obtain ⟨laid, whole, _⟩ := laid_of_assemble made accepted laidOut
  obtain ⟨_, _, _, track, _⟩ := of_assemble made accepted laidOut
  have names := laid.namesAt whole.coherent seen rfl
  rw [getElem?_code made accepted laidOut simulated, if_neg]
  · rw [← Array.getElem?_toList]
    exact names.getElem?
  · rintro ⟨_, q, noted, low, high⟩
    obtain ⟨o', r, _, seen', _⟩ := (track.mem_redundant simulated).mp noted
    have solid := track.solid o _ n seen
    -- The cast that would cover the position is another instruction, so the two are apart.
    rcases track.eq_or_apart seen' seen with same | before | after
    · cases same
    · rw [Leaf.length_octets_cast (laid.ready_cast seen')] at before
      omega
    · omega

/-- A raw object in a frame that is written was there on entry, or an instruction is seen that makes
it. -/
theorem mem_entry_of_frame {map : StackMap} (whole : final.Coherent)
    (simulated : b.simulate this layout = .ok simulation)
    (written : simulation.Written simulation.recorded.keys none final map.frames) {m : MapFrame}
    (member : m ∈ map.frames) {w : VType UInt16} (listed : w ∈ m.locals ++ m.stack) {v : Held}
    (read : w.read? final = some v) (raw : v.Raw) :
    v ∈ b.entry ∨ ∃ o l n, .insn o l n ∈ layout.sights.toList ∧ l.Makes n v := by
  obtain ⟨p, here⟩ := MapFrame.exists_place none member
  obtain ⟨_, j, joins, wire⟩ := written.frame p m here
  obtain ⟨v', read', held⟩ := Frame.exists_of_full whole wire listed
  rw [read] at read'
  cases read'
  have ends : simulation.Holds v := .inr ⟨p, Simulation.holds_of_joined joins raw held⟩
  have ran : Simulation.Runs (layout.scene this) (.start (Frame.ofArguments b.entry))
      layout.sights.toList simulation := simulated
  refine (ran.holds (by simp [Simulation.CatchesReady, Simulation.start]) raw ends).imp_left ?_
  intro starts
  exact Frame.mem_of_holds_ofArguments raw (Simulation.holds_start _ starts)

/-- The type of an object that still waits for its constructor leads to where the object is made. The
receiver is such an object in a frame only if it is one on entry. -/
theorem uninit_leads_to_new (config : Config) (this : BinaryName) (b : Body) (pool final : Pool)
    (code : Code) (made : pool.Made) (accepted : b.assemble config this pool = .ok code final)
    (entry : ∀ offset, .uninit offset ∉ b.entry) :
    ∃ map, b.Maps this pool map ∧ FramesWritten final code map.frames ∧
      (∀ m ∈ map.frames, ∀ offset, .uninit offset ∈ m.locals ++ m.stack →
        offset.toNat < code.code.length ∧ code.code[offset.toNat]? = some Opcode.new) ∧
      (.uninitThis ∉ b.entry → ∀ m ∈ map.frames, .uninitThis ∉ m.locals ++ m.stack) := by
  obtain ⟨layout, mid, laidOut, _⟩ := exists_of_bind accepted
  obtain ⟨_, whole, _⟩ := laid_of_assemble made accepted laidOut
  obtain ⟨simulation, map, later, finished, assembled, written⟩ :=
    map_of_assemble made accepted laidOut
  have simulated := assembled.simulated
  refine ⟨map, ⟨layout, mid, simulation, later, laidOut, simulated, finished⟩,
    assembled.attributes, ?_, ?_⟩
  · intro m member offset listed
    rcases mem_entry_of_frame whole.coherent simulated written member listed rfl
      (.inr ⟨offset, rfl⟩) with given | ⟨o, l, n, seen, ⟨name, rfl⟩, small, same⟩
    · exact absurd given (entry offset)
    · cases same
      rw [toNat_toUInt16 (by omega)]
      have byte := getElem?_new made accepted laidOut simulated seen
      exact ⟨(List.getElem?_eq_some_iff.mp byte).1, byte⟩
  · intro complete m member listed
    rcases mem_entry_of_frame whole.coherent simulated written member listed rfl (.inl rfl) with
      given | ⟨_, _, _, _, _, _, same⟩
    · exact complete given
    · cases same

/-- Of what a method is called with, only the receiver can wait for its constructor. -/
theorem uninit_notMem_entryTypes (owner : BinaryName) (name : MemberName) (s : Signature)
    (static : Bool) (offset : UInt16) : .uninit offset ∉ entryTypes owner name s static := by
  intro member
  rcases List.mem_append.mp member with receiver | argument
  · cases static with
    | true => cases receiver
    | false =>
      have same : .uninit offset = Body.receiver owner name := List.mem_singleton.mp receiver
      unfold Body.receiver at same
      split at same <;> cases same
  · obtain ⟨t, _, same⟩ := List.mem_map.mp argument
    exact VType.not_raw_ofField t (same ▸ .inr ⟨offset, rfl⟩)

/-- An object is made after a cast that is not needed, and a copy of it stored. No constructor is
called. -/
def postponing : Body :=
  ⟨"java/lang/Throwable.<clinit>(ILjava/lang/Throwable;)V", 3,
    .build do
      let tested ← Tree.ifOnly (.zero .eq) .unit
      return .concat [.load .ref 1 (.object .throwable), .cast (.object .throwable), .simple .pop,
        .new .throwable, .simple .dup, .store .ref 2, .load .int 0 .int, tested, .simple .pop,
        .simple .returnVoid],
    entryTypes .throwable .clinit ⟨[.prim .int, .ref (.object .throwable)], .void⟩ true⟩

theorem uninit_leads_to_new_postponing : ∃ code final map,
    postponing.assemble {} .object .empty = .ok code final ∧ postponing.Maps .object .empty map ∧
    FramesWritten final code map.frames ∧ map.redundant = [1] ∧
    (∃ m ∈ map.frames, .uninit 5 ∈ m.locals ∧ .uninit 5 ∈ m.stack) ∧
    code.code[5]? = some Opcode.new ∧ ∀ m ∈ map.frames, .uninitThis ∉ m.locals ++ m.stack := by
  obtain ⟨layout, mid, s, map, later, laidOut, simulated, finished, room, noted, m, member, stored,
    pushed⟩ : ∃ layout mid s map later, postponing.layOut .empty = .ok layout mid ∧
        postponing.simulate .object layout = .ok s ∧ s.finish mid = .ok map later ∧
        later.entries.next + 2 ≤ 65535 ∧ map.redundant = [1] ∧
        ∃ m, map.frames[0]? = some m ∧ .uninit 5 ∈ m.locals ∧ .uninit 5 ∈ m.stack :=
    ⟨_, _, _, _, _, by cbv, by cbv, by cbv, by cbv, by cbv, _, by cbv, by decide, by decide⟩
  obtain ⟨code, final, accepted⟩ := exists_assemble {} laidOut simulated finished room
  have entry : ∀ offset, .uninit offset ∉ postponing.entry := uninit_notMem_entryTypes _ _ _ _
  obtain ⟨map', maps, attributes, news, complete⟩ :=
    uninit_leads_to_new {} .object postponing .empty final code .refl accepted entry
  obtain rfl := maps.eq laidOut simulated finished
  have listed := List.mem_of_getElem? member
  refine ⟨code, final, map', accepted, maps, attributes, noted, ⟨m, listed, stored, pushed⟩, ?_,
    complete (by decide)⟩
  exact (news m listed 5 (List.mem_append_left _ stored)).2

end Body

end Bytecode
