import Bytecode.Proofs.HandlerFrames
import Bytecode.Proofs.Maxima

/-! The limits that the code of a body declares. They bound all that the simulation comes to, and the
counts of the written frames are the true ones, exactly as long as nothing is larger than a number of
the class file can be: nothing else is checked. The frames of the table keep to the limits but for one
case, that of a handler with nothing to guard in code whose stack is always empty. -/
namespace Bytecode

theorem MapFrame.mem_of_place {previous : Option Nat} {frames : List MapFrame} {m : MapFrame}
    {p : Nat} (member : (p, m) ∈ places previous frames) : m ∈ frames := by
  induction frames generalizing previous with
  | nil => cases member
  | cons first rest ih =>
    rcases List.mem_cons.mp member with same | later
    · cases same
      exact List.mem_cons_self
    · exact List.mem_cons_of_mem _ (ih later)

theorem toNat_max (a b : UInt16) : (max a b).toNat = max a.toNat b.toNat := by
  by_cases le : a ≤ b
  · have below := UInt16.le_iff_toNat_le.mp le
    rw [show max a b = b from if_pos le]
    omega
  · have below : ¬ a.toNat ≤ b.toNat := fun h => le (UInt16.le_iff_toNat_le.mpr h)
    rw [show max a b = a from if_neg le]
    omega

namespace Simulation

variable {scene : Scene} {s final : Simulation} {sights : List Sight} {initial f : Frame} {p : Nat}
  {pool : Pool} {handlers : List Handler} {keys : List Nat} {frames : List MapFrame} {wire : MapFrame}

theorem Measured.written (m : s.Measured) (written : Written s keys none pool frames)
    (here : (p, wire) ∈ MapFrame.places none frames) :
    slots wire.locals ≤ s.maxLocals ∧
      ∃ j, s.joined p = .ok (some j) ∧ slots wire.stack = j.stackSlots := by
  obtain ⟨_, j, joins, full⟩ := written.frame p wire here
  obtain ⟨whole, size⟩ := room_of_joined joins fun f member =>
    ⟨(m.recorded p f member).1, (m.recorded p f member).2.1⟩
  obtain ⟨locals, stack⟩ := Frame.slots_of_full whole full
  exact ⟨Nat.le_trans locals size, j, joins, stack⟩

theorem stackSlots_le_of_joined {j : Frame} (joins : s.joined p = .ok (some j))
    (member : f ∈ s.recordedAt p) : j.stackSlots ≤ f.stackSlots :=
  ((isJoin_of_joined joins).above f member).stackSlots_le

theorem comes_of_heldAt (ran : Runs scene (start initial) sights final)
    (held : heldAt scene initial sights p = some f) : Comes scene (start initial) sights f := by
  obtain ⟨t, way, _⟩ := Track.exists_held ran p
  rw [Track.heldAt_eq way] at held
  exact ⟨_, _, t, List.takeWhile_append_dropWhile.symm, way, .inl held⟩

/-- Every recorded frame is no higher than one that was measured, or is one for a handler. -/
theorem Runs.recorded_room (ran : Runs scene (start initial) sights final) (whole : initial.Whole)
    (member : f ∈ final.recordedAt p) :
    f.stackSlots ≤ final.maxStack ∨ Guarded scene (start initial) sights := by
  obtain ⟨more, all, made⟩ := ran.recordedAt p
  have none : (start initial).recordedAt p = [] := by
    simp [Simulation.recordedAt, start]
  rw [all, none, List.nil_append] at member
  obtain ⟨before, x, after, t, rfl, reached, made⟩ := made f member
  have measured := (reached.measured (measured_start whole)).1
  obtain ⟨e, present, _, lower | ⟨_, throws⟩⟩ := records_room measured.active made
  · have came : Comes scene (start initial) (before ++ x :: after) e :=
      ⟨before, _, t, rfl, reached, .inl present⟩
    have := (ran.bounds (measured_start whole) came).1
    exact .inl (by omega)
  · exact .inr ⟨before, x, after, t, rfl, reached, by simp [present], throws⟩

/-- Where a frame is recorded for a handler, the table has one with something on the stack. -/
theorem Runs.exists_guarded (ran : Runs scene (start initial) sights final)
    (guarded : Guarded scene (start initial) sights) :
    ∃ p f v, f ∈ final.recordedAt p ∧ f.stack.values = [v] := by
  obtain ⟨before, x, after, t, rfl, reached, present, throws⟩ := guarded
  obtain ⟨e, present⟩ := Option.isSome_iff_exists.mp present
  obtain ⟨u, reached', later⟩ := runs_append.mp ran
  have same : (.ok t : Except Error Simulation) = .ok u := reached.symm.trans reached'
  cases same
  obtain ⟨u, sees, rest⟩ := runs_cons.mp later
  have kept : ∀ q v, (q, e.withStack [v]) ∈ t.records scene x →
      ∃ p f v, f ∈ final.recordedAt p ∧ f.stack.values = [v] := fun q v made =>
    ⟨q, _, v, rest.mem_recordedAt ((see_ok sees).mem_recordedAt made), Slotted.values_ofList [v]⟩
  cases x with
  | insn o l n =>
    obtain ⟨⟨handler, caught⟩, force⟩ := List.exists_mem_of_ne_nil _ throws
    apply kept (scene.labels.spot handler) caught
    simp only [records, present, Option.toList_some, List.flatMap_singleton, List.mem_map,
      List.mem_reverse]
    exact ⟨_, force, rfl⟩
  | enterTry handler caught =>
    apply kept (scene.labels.spot handler) (caughtType caught)
    simp [records, present]
  | label | jump | exitTry | line => cases throws

/-- The frame at a position that needs one is no higher than the state held there, or than one that
comes by a jump backward. -/
theorem Runs.site_room (ran : Runs scene (start initial) sights final) (whole : initial.Whole)
    (track : Track pool scene handlers sights) (wanted : scene.wanted.contains p) {j : Frame}
    (joins : final.joined p = .ok (some j)) : j.stackSlots ≤ final.maxStack := by
  obtain ⟨t, way, rest⟩ := Track.exists_held ran p
  obtain ⟨more, all, back⟩ := track.back_of_late way rest
  obtain ⟨f, member⟩ := exists_recorded joins
  have lower := stackSlots_le_of_joined joins member
  rw [all] at member
  rcases List.mem_append.mp member with early | late
  · obtain ⟨u, held, below⟩ := below_of_joined (track.joined_held wanted way) early
    have here : u.Below j := by
      have least := (isJoin_of_joined (held ▸ track.joined_held wanted way)).least
      refine least j fun g member => (isJoin_of_joined joins).above g ?_
      rw [all]
      exact List.mem_append_left _ member
    have came := comes_of_heldAt ran ((Track.heldAt_eq way).trans held)
    have := (ran.bounds (measured_start whole) came).1
    have := here.stackSlots_le
    omega
  · obtain ⟨q, _, test, source, target, e, _, _, _, held, left⟩ := back f late
    have := (Frame.leave_ok left).2
    have := (ran.bounds (measured_start whole) (comes_of_heldAt ran held)).1
    omega

/-- The stacks of all frames of the table were measured exactly if there is ever something on the
stack, or else no frame is recorded for a handler. -/
theorem Runs.heights_iff (ran : Runs scene (start initial) sights final) (whole : initial.Whole)
    (written : Written final final.recorded.keys none pool frames) :
    (∀ m ∈ frames, slots m.stack ≤ final.maxStack) ↔
      0 < final.maxStack ∨ ¬ Guarded scene (start initial) sights := by
  have measured := (ran.measured (measured_start whole)).1
  constructor
  · intro fit
    apply Classical.byContradiction
    intro neither
    obtain ⟨empty, guarded⟩ := not_or.mp neither
    -- The table has a frame at the handler, and it is as high as the one recorded there.
    obtain ⟨p, f, v, recorded, one⟩ := ran.exists_guarded (Classical.not_not.mp guarded)
    obtain ⟨m, here⟩ := written.exists_of_recorded (List.ne_nil_of_mem recorded)
    obtain ⟨_, j, joins, same⟩ := measured.written written here
    have stack := ((isJoin_of_joined joins).above f recorded).stack.length_eq
    have high := VType.length_le_slots j.stack.values
    have low := fit m (MapFrame.mem_of_place here)
    rw [one, List.length_singleton] at stack
    rw [same, Frame.stackSlots_eq] at low
    omega
  · intro either m member
    obtain ⟨p, here⟩ := MapFrame.exists_place none member
    obtain ⟨_, j, joins, same⟩ := measured.written written here
    obtain ⟨f, recorded⟩ := exists_recorded joins
    have lower := stackSlots_le_of_joined joins recorded
    rw [same]
    rcases either with some | unguarded
    · have := (measured.recorded p f recorded).2.2
      omega
    · rcases ran.recorded_room whole recorded with inside | guarded
      · omega
      · exact absurd guarded unguarded

end Simulation

namespace Body

open Simulation

variable {config : Config} {this : BinaryName} {b : Body} {pool mid final : Pool} {code : Code}
  {layout : Layout} {simulation : Simulation} {map : StackMap}

def Comes (b : Body) (this : BinaryName) (layout : Layout) (f : Frame) : Prop :=
  Simulation.Comes (layout.scene this) (.start (Frame.ofArguments b.entry)) layout.sights.toList f

def Executes (b : Body) (this : BinaryName) (layout : Layout) (l : Leaf) : Prop :=
  Simulation.Executes (layout.scene this) (.start (Frame.ofArguments b.entry)) layout.sights.toList l

/-- A try is entered where control comes, or an instruction inside of one is reached. -/
def Guarded (b : Body) (this : BinaryName) (layout : Layout) : Prop :=
  Simulation.Guarded (layout.scene this) (.start (Frame.ofArguments b.entry)) layout.sights.toList

structure Ample (b : Body) (this : BinaryName) (layout : Layout) (map : StackMap) (code : Code) :
    Prop where
  stack : ∀ f, b.Comes this layout f → f.stackSlots ≤ code.maxStack.toNat
  asked : b.locals ≤ code.maxLocals
  entry : (Frame.ofArguments b.entry).locals.size ≤ code.maxLocals.toNat
  named : ∀ l, b.Executes this layout l → l.span ≤ code.maxLocals.toNat
  counts : ∀ m ∈ map.frames, m.locals.length.toUInt16.toNat = m.locals.length ∧
    m.stack.length.toUInt16.toNat = m.stack.length

def FramesFit (map : StackMap) (code : Code) : Prop :=
  ∀ m ∈ map.frames, slots m.stack ≤ code.maxStack.toNat ∧ slots m.locals ≤ code.maxLocals.toNat

theorem maxima_of_assemble (accepted : b.assemble config this pool = .ok code final)
    (laidOut : b.layOut pool = .ok layout mid)
    (simulated : b.simulate this layout = .ok simulation) :
    code.maxStack = simulation.maxStack.toUInt16 ∧
      code.maxLocals = max simulation.maxLocals.toUInt16 b.locals := by
  obtain ⟨layout', mid', first, accepted⟩ := exists_of_bind accepted
  rw [laidOut] at first
  cases first
  simp only [simulated] at accepted
  obtain ⟨map, later, finished, accepted⟩ := exists_of_bind accepted
  obtain ⟨frames, third, _, accepted⟩ := exists_of_bind accepted
  obtain ⟨lines, fourth, _, accepted⟩ := exists_of_bind accepted
  cases accepted
  obtain ⟨_, _, _, done⟩ := exists_of_bind finished
  cases done
  exact ⟨rfl, rfl⟩

/-- What is not larger than a number of the class file can be is written as it is. -/
theorem limits_of_assemble (accepted : b.assemble config this pool = .ok code final)
    (laidOut : b.layOut pool = .ok layout mid) (simulated : b.simulate this layout = .ok simulation)
    (stack : simulation.maxStack ≤ 65535) (locals : simulation.maxLocals ≤ 65535) :
    code.maxStack.toNat = simulation.maxStack ∧
      code.maxLocals.toNat = max simulation.maxLocals b.locals.toNat := by
  obtain ⟨hstack, hlocals⟩ := maxima_of_assemble accepted laidOut simulated
  rw [hstack, hlocals, toNat_max, toNat_toUInt16 stack, toNat_toUInt16 locals]
  exact ⟨rfl, rfl⟩

theorem Assembled.measured (h : b.Assembled this layout simulation map code final) :
    simulation.Measured :=
  (h.runs.measured (measured_start (Frame.whole_ofArguments b.entry))).1

theorem Assembled.bounds (h : b.Assembled this layout simulation map code final) {f : Frame}
    (came : b.Comes this layout f) :
    f.stackSlots ≤ simulation.maxStack ∧ f.locals.size ≤ simulation.maxLocals :=
  h.runs.bounds (measured_start (Frame.whole_ofArguments b.entry)) came

theorem Assembled.maxStack_le (h : b.Assembled this layout simulation map code final) {bound : Nat}
    (each : ∀ f, b.Comes this layout f → f.stackSlots ≤ bound) : simulation.maxStack ≤ bound :=
  h.runs.maxStack_le (Nat.zero_le _) each

theorem comes_entry (b : Body) (this : BinaryName) (layout : Layout) :
    b.Comes this layout (Frame.ofArguments b.entry) :=
  ⟨[], _, _, rfl, rfl, .inl rfl⟩

theorem Assembled.maxLocals_le (h : b.Assembled this layout simulation map code final) {bound : Nat}
    (entry : (Frame.ofArguments b.entry).locals.size ≤ bound)
    (each : ∀ l, b.Executes this layout l → l.span ≤ bound) : simulation.maxLocals ≤ bound :=
  h.runs.maxLocals_le (measured_start (Frame.whole_ofArguments b.entry)) entry each

theorem Assembled.exists_comes (h : b.Assembled this layout simulation map code final) {l : Leaf}
    (reached : b.Executes this layout l) : ∃ g, b.Comes this layout g ∧ l.span ≤ g.locals.size :=
  h.runs.exists_comes (measured_start (Frame.whole_ofArguments b.entry)) reached

theorem Assembled.maxima_le (h : b.Assembled this layout simulation map code final) {bound : Nat}
    (small : ∀ f, b.Comes this layout f → f.stackSlots ≤ bound ∧ f.locals.size ≤ bound) :
    simulation.maxStack ≤ bound ∧ simulation.maxLocals ≤ bound := by
  refine ⟨h.maxStack_le fun f came => (small f came).1, ?_⟩
  refine h.maxLocals_le (small _ (comes_entry b this layout)).2 fun l reached => ?_
  obtain ⟨g, came, inside⟩ := h.exists_comes reached
  exact Nat.le_trans inside (small g came).2

theorem Assembled.exists_nonempty (h : b.Assembled this layout simulation map code final)
    (some : 0 < simulation.maxStack) : ∃ f, b.Comes this layout f ∧ 0 < f.stackSlots := by
  apply Classical.byContradiction
  intro none
  have lowest : simulation.maxStack ≤ 0 := h.maxStack_le fun f came =>
    Nat.le_of_not_lt fun some => none ⟨f, came, some⟩
  omega

theorem Ample.span_le (h : b.Ample this layout map code) {l : Leaf}
    (reached : b.Executes this layout l) : l.span ≤ 65535 := by
  have := h.named l reached
  have := code.maxLocals.toNat_lt
  omega

/-- The limits and the counts are right exactly if the stack is never higher than 65535 slots, and
neither the arguments nor a variable of a reached instruction need more local slots. -/
theorem ample_iff (config : Config) (this : BinaryName) (b : Body) (pool mid final : Pool)
    (code : Code) (layout : Layout) (made : pool.Made)
    (accepted : b.assemble config this pool = .ok code final)
    (laidOut : b.layOut pool = .ok layout mid) :
    ∃ simulation map, b.Assembled this layout simulation map code final ∧
      (b.Ample this layout map code ↔
        (∀ f, b.Comes this layout f → f.stackSlots ≤ 65535) ∧
        (Frame.ofArguments b.entry).locals.size ≤ 65535 ∧
        ∀ l, b.Executes this layout l → l.span ≤ 65535) := by
  obtain ⟨simulation, map, assembled, _, written⟩ := of_assemble made accepted laidOut
  refine ⟨simulation, map, assembled, ?_, ?_⟩
  · intro ample
    have stackBound := code.maxStack.toNat_lt
    have localsBound := code.maxLocals.toNat_lt
    refine ⟨fun f came => ?_, ?_, fun l reached => ample.span_le reached⟩
    · have := ample.stack f came
      omega
    · have := ample.entry
      omega
  · rintro ⟨stack, entry, named⟩
    have maxStack := assembled.maxStack_le stack
    have maxLocals := assembled.maxLocals_le entry named
    obtain ⟨declaredStack, declaredLocals⟩ :=
      limits_of_assemble accepted laidOut assembled.simulated maxStack maxLocals
    constructor
    · intro f came
      rw [declaredStack]
      exact (assembled.bounds came).1
    · rw [UInt16.le_iff_toNat_le, declaredLocals]
      exact Nat.le_max_right _ _
    · have := (assembled.bounds (comes_entry b this layout)).2
      omega
    · intro l reached
      obtain ⟨g, came, inside⟩ := assembled.exists_comes reached
      have := (assembled.bounds came).2
      omega
    · intro m member
      obtain ⟨p, here⟩ := MapFrame.exists_place none member
      obtain ⟨locals, j, joins, same⟩ := assembled.measured.written written here
      obtain ⟨f, recorded⟩ := exists_recorded joins
      have lower := stackSlots_le_of_joined joins recorded
      have measured := (assembled.measured.recorded p f recorded).2.2
      have fewer := VType.length_le_slots m.locals
      have fewer' := VType.length_le_slots m.stack
      exact ⟨toNat_toUInt16 (by omega), toNat_toUInt16 (by omega)⟩

def keeping : Body :=
  ⟨"A.f(I)V", 1,
    .build do
      let tested ← Tree.ifOnly (.zero .ne) (.simple .nop)
      return .concat [.long 0, .store .long 2, .load .int 0 .int, tested, .simple .returnVoid],
    [.int]⟩

theorem ample_iff_keeping : ∃ layout mid code final simulation map,
    keeping.layOut .empty = .ok layout mid ∧ keeping.assemble {} .object .empty = .ok code final ∧
    keeping.Assembled .object layout simulation map code final ∧ simulation.maxStack = 2 ∧
    simulation.maxLocals = 4 ∧ keeping.Ample .object layout map code := by
  obtain ⟨layout, mid, s, t, later, laidOut, simulated, finished, room, stack, locals⟩ :
      ∃ layout mid s t later, keeping.layOut .empty = .ok layout mid ∧
      keeping.simulate .object layout = .ok s ∧ s.finish mid = .ok t later ∧
      later.entries.next + 2 ≤ 65535 ∧ s.maxStack = 2 ∧ s.maxLocals = 4 :=
    ⟨_, _, _, _, _, by cbv, by cbv, by cbv, by cbv, by cbv, by cbv⟩
  obtain ⟨code, final, accepted⟩ := exists_assemble {} laidOut simulated finished room
  obtain ⟨simulation, map, assembled, iff⟩ := ample_iff _ _ _ _ _ _ _ _ .refl accepted laidOut
  have same : (.ok simulation : Except Error Simulation) = .ok s :=
    assembled.simulated.symm.trans simulated
  cases same
  refine ⟨layout, mid, code, final, s, map, laidOut, accepted, assembled, stack, locals,
    iff.mpr ⟨fun f came => ?_, by decide, fun l reached => ?_⟩⟩
  · have := (assembled.bounds came).1
    omega
  · obtain ⟨g, came, inside⟩ := assembled.exists_comes reached
    have := (assembled.bounds came).2
    omega

def outlying : Body :=
  ⟨"A.f()V", 0, .concat [.int 0, .store .int 65535, .simple .returnVoid], []⟩

theorem exists_outlying : ∃ layout mid code final,
    outlying.layOut .empty = .ok layout mid ∧ outlying.assemble {} .object .empty = .ok code final ∧
    outlying.Executes .object layout (.var (.store .int) 65535) := by
  obtain ⟨layout, mid, laidOut, seen, room⟩ : ∃ layout mid,
      outlying.layOut .empty = .ok layout mid ∧
      layout.sights.toList = [.insn (.ofType .int) (.simple .iconst0) 0,
        .insn .void (.var (.store .int) 65535) 1,
        .insn ⟨.void, false, true⟩ (.simple .returnVoid) 5] ∧
      mid.entries.next + 2 ≤ 65535 := ⟨_, _, by cbv, by cbv, by cbv⟩
  obtain ⟨s, simulated, none⟩ : ∃ s, outlying.simulate .object layout = .ok s ∧ s.recorded = ∅ := by
    unfold simulate
    rw [seen]
    exact ⟨_, rfl, rfl⟩
  have finished : ∃ map, s.finish mid = .ok map mid := by
    unfold Simulation.finish
    rw [none]
    exact ⟨_, rfl⟩
  obtain ⟨map, finished⟩ := finished
  obtain ⟨code, final, accepted⟩ := exists_assemble {} laidOut simulated finished room
  refine ⟨layout, mid, code, final, laidOut, accepted, ?_⟩
  unfold Executes
  rw [seen]
  exact ⟨[_], _, _, _, _, rfl, rfl, rfl⟩

/-- The slots that the variable needs are one more than can be declared, and nothing refuses it. -/
theorem not_ample_outlying : ∃ layout mid code final simulation map,
    outlying.layOut .empty = .ok layout mid ∧ outlying.assemble {} .object .empty = .ok code final ∧
    outlying.Assembled .object layout simulation map code final ∧
    ¬ outlying.Ample .object layout map code := by
  obtain ⟨layout, mid, code, final, laidOut, accepted, reached⟩ := exists_outlying
  obtain ⟨simulation, map, assembled, _⟩ := of_assemble .refl accepted laidOut
  refine ⟨layout, mid, code, final, simulation, map, laidOut, accepted, assembled, fun ample => ?_⟩
  have fits : 65536 ≤ 65535 := ample.span_le reached
  omega

/-- The frames at the ends of jumps and at the handlers that have an entry keep to the limits. All
frames do exactly if there is ever something on the stack, or else no frame is recorded for a
handler. -/
theorem framesFit_iff (config : Config) (this : BinaryName) (b : Body) (pool mid final : Pool)
    (code : Code) (layout : Layout) (made : pool.Made)
    (accepted : b.assemble config this pool = .ok code final)
    (laidOut : b.layOut pool = .ok layout mid)
    (small : ∀ f, b.Comes this layout f → f.stackSlots ≤ 65535 ∧ f.locals.size ≤ 65535) :
    ∃ simulation map, b.Assembled this layout simulation map code final ∧
      (∀ p m, (p, m) ∈ MapFrame.places none map.frames → layout.Site p →
        slots m.stack ≤ code.maxStack.toNat ∧ slots m.locals ≤ code.maxLocals.toNat) ∧
      (FramesFit map code ↔
        (∃ f, b.Comes this layout f ∧ 0 < f.stackSlots) ∨ ¬ b.Guarded this layout) := by
  obtain ⟨simulation, map, assembled, track, written⟩ := of_assemble made accepted laidOut
  have whole := Frame.whole_ofArguments b.entry
  obtain ⟨maxStack, maxLocals⟩ := assembled.maxima_le small
  obtain ⟨declaredStack, declaredLocals⟩ :=
    limits_of_assemble accepted laidOut assembled.simulated maxStack maxLocals
  have locals : ∀ p m, (p, m) ∈ MapFrame.places none map.frames →
      slots m.locals ≤ code.maxLocals.toNat := by
    intro p m here
    have := (assembled.measured.written written here).1
    omega
  have heights := assembled.runs.heights_iff whole written
  refine ⟨simulation, map, assembled, fun p m here site => ⟨?_, locals p m here⟩, ?_, ?_⟩
  · obtain ⟨_, j, joins, same⟩ := assembled.measured.written written here
    rw [same, declaredStack]
    exact assembled.runs.site_room whole track ((layout.contains_wanted p).mpr site) joins
  · intro fit
    rcases heights.mp fun m member => declaredStack ▸ (fit m member).1 with some | unguarded
    · exact .inl (assembled.exists_nonempty some)
    · exact .inr unguarded
  · intro either m member
    obtain ⟨p, here⟩ := MapFrame.exists_place none member
    refine ⟨?_, locals p m here⟩
    rw [declaredStack]
    apply heights.mpr _ m member
    rcases either with ⟨f, came, some⟩ | unguarded
    · exact .inl (Nat.lt_of_lt_of_le some (assembled.bounds came).1)
    · exact .inr unguarded

theorem framesFit_iff_storing : ∃ layout mid code final simulation map,
    storing.layOut .empty = .ok layout mid ∧ storing.assemble {} .object .empty = .ok code final ∧
    storing.Assembled .object layout simulation map code final ∧
    (∀ f, storing.Comes .object layout f → f.stackSlots ≤ 65535 ∧ f.locals.size ≤ 65535) ∧
    layout.Site 5 ∧ FramesFit map code := by
  obtain ⟨layout, mid, s, t, later, laidOut, simulated, finished, room, stack, locals, table⟩ :
      ∃ layout mid s t later, storing.layOut .empty = .ok layout mid ∧
      storing.simulate .object layout = .ok s ∧ s.finish mid = .ok t later ∧
      later.entries.next + 2 ≤ 65535 ∧ s.maxStack = 1 ∧ s.maxLocals = 1 ∧
      layout.handlers.toList = [⟨0, 5, 5, none⟩] :=
    ⟨_, _, _, _, _, by cbv, by cbv, by cbv, by cbv, by cbv, by cbv, by cbv⟩
  obtain ⟨code, final, accepted⟩ := exists_assemble {} laidOut simulated finished room
  have ran : Runs (layout.scene .object) (.start (Frame.ofArguments storing.entry))
      layout.sights.toList s := simulated
  have small : ∀ f, storing.Comes .object layout f →
      f.stackSlots ≤ 65535 ∧ f.locals.size ≤ 65535 := by
    intro f came
    have := ran.bounds (measured_start (Frame.whole_ofArguments _)) came
    omega
  obtain ⟨simulation, map, assembled, _, iff⟩ :=
    framesFit_iff _ _ _ _ _ _ _ _ .refl accepted laidOut small
  have same : (.ok simulation : Except Error Simulation) = .ok s :=
    assembled.simulated.symm.trans simulated
  cases same
  refine ⟨layout, mid, code, final, s, map, laidOut, accepted, assembled, small, ?_,
    iff.mpr (.inl (assembled.exists_nonempty (by omega)))⟩
  exact .inr ⟨⟨0, 5, 5, none⟩, by simp [table], rfl⟩

def hollow : Body :=
  ⟨"A.f()V", 0,
    .build do
      let guarded ← Tree.tryCatch .unit none (.simple .pop)
      return .concat [guarded, .simple .returnVoid], []⟩

/-- No entry of the table leads to the handler, and what it would get is not measured, but the frame
is written. -/
theorem not_framesFit_hollow : ∃ layout mid code final simulation map,
    hollow.layOut .empty = .ok layout mid ∧ hollow.assemble {} .object .empty = .ok code final ∧
    hollow.Assembled .object layout simulation map code final ∧
    (∀ f, hollow.Comes .object layout f → f.stackSlots ≤ 65535 ∧ f.locals.size ≤ 65535) ∧
    ¬ FramesFit map code := by
  obtain ⟨layout, mid, s, t, later, first, x, last, u, laidOut, simulated, finished, room, stack,
      locals, cut, reached, present, throws⟩ :
      ∃ layout mid s t later first x last u, hollow.layOut .empty = .ok layout mid ∧
      hollow.simulate .object layout = .ok s ∧ s.finish mid = .ok t later ∧
      later.entries.next + 2 ≤ 65535 ∧ s.maxStack = 0 ∧ s.maxLocals = 0 ∧
      layout.sights.toList = first ++ x :: last ∧
      Simulation.run (layout.scene .object) (Frame.ofArguments []) first = .ok u ∧
      u.state.isSome ∧ u.Throws x :=
    ⟨_, _, _, _, _, [.label ⟨0⟩ 0], .enterTry ⟨3⟩ none, _, _, by cbv, by cbv, by cbv, by cbv,
      by cbv, by cbv, by cbv, by cbv, by cbv, trivial⟩
  obtain ⟨code, final, accepted⟩ := exists_assemble {} laidOut simulated finished room
  obtain ⟨simulation, map, assembled, _, written⟩ := of_assemble .refl accepted laidOut
  have same : (.ok simulation : Except Error Simulation) = .ok s :=
    assembled.simulated.symm.trans simulated
  cases same
  refine ⟨layout, mid, code, final, s, map, laidOut, accepted, assembled, fun f came => ?_,
    fun fit => ?_⟩
  · have := assembled.bounds came
    omega
  · have declared := (limits_of_assemble accepted laidOut simulated (by omega) (by omega)).1
    have heights := assembled.runs.heights_iff (Frame.whole_ofArguments _) written
    rcases heights.mp fun m member => declared ▸ (fit m member).1 with some | unguarded
    · omega
    · exact unguarded ⟨first, x, last, u, cut, reached, present, throws⟩

end Body

end Bytecode
