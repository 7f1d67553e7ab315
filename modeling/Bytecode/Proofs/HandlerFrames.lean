import Bytecode.Proofs.Assembly

/-! The frames at handlers. A handler gets the states of the instructions that it guards, and a frame
for it is joined from them; a jump is no such instruction. So the frame at a handler covers the state
before a jump only if that state has all that the recorded ones agree on, and code in which the last
store before a jump is seen by nobody else is accepted. -/
namespace Bytecode

namespace Frame

variable {a b c : Frame}

theorem slot_of_union (h : a.union b = .ok c) (i : Nat) : c.slot i = (a.slot i).union (b.slot i) := by
  unfold union at h
  split at h
  · cases h
    exact slot_unionAll i
  · cases h

theorem slot_of_foldlM {others : List Frame} (joined : others.foldlM Frame.union a = .ok c) {i : Nat}
    {v : Held} (first : a.slot i = v) (each : ∀ g ∈ others, g.slot i = v) : c.slot i = v := by
  induction others generalizing a with
  | nil =>
    cases joined
    exact first
  | cons b rest ih =>
    simp only [List.foldlM_cons, bind, Except.bind] at joined
    cases hb : Frame.union a b with
    | error e => simp [hb] at joined
    | ok mid =>
      simp only [hb] at joined
      have here : mid.slot i = v := by
        rw [slot_of_union hb, first, each b (by simp)]
        simp [VType.union]
      exact ih joined here fun g hg => each g (by simp [hg])

end Frame

namespace Simulation

variable {s : Simulation} {p : Nat} {j : Frame}

/-- A variable is usable in a joined frame exactly if the recorded frames agree on it. -/
theorem slot_of_joined (joins : s.joined p = .ok (some j)) {i : Nat} {v : Held} (usable : v ≠ .top) :
    j.slot i = v ↔ ∀ g ∈ s.recordedAt p, g.slot i = v := by
  constructor
  · intro here g member
    rcases ((isJoin_of_joined joins).above g member).slots i with same | top
    · rw [← same, here]
    · exact absurd (here.symm.trans top) usable
  · intro each
    unfold joined at joins
    cases whole : s.recordedAt p with
    | nil => simp [whole] at joins
    | cons f others =>
      rw [whole] at joins each
      simp only at joins
      cases folded : Frame.unionAll f others with
      | error e => simp [folded] at joins
      | ok k =>
        simp only [folded, Except.ok.injEq, Option.some.injEq] at joins
        subst joins
        exact Frame.slot_of_foldlM folded (each f (by simp)) fun g hg => each g (by simp [hg])

structure Agrees (s : Simulation) (p : Nat) (f : Frame) : Prop where
  recorded : s.recordedAt p ≠ []
  slots : ∀ i v, v ≠ .top → (∀ g ∈ s.recordedAt p, g.slot i = v) → f.slot i = v

theorem agrees_iff (joins : s.joined p = .ok (some j)) {f : Frame} :
    s.Agrees p f ↔ ∀ i, VType.Below (f.slot i) (j.slot i) := by
  constructor
  · intro agrees i
    by_cases top : j.slot i = .top
    · exact .inr top
    · exact .inl (agrees.slots i _ top ((slot_of_joined joins top).mp rfl)).symm
  · intro below
    refine ⟨?_, fun i v usable each => ?_⟩
    · intro empty
      simp [joined, empty] at joins
    · have here := (slot_of_joined joins usable).mpr each
      rcases below i with same | top
      · rw [← same, here]
      · exact absurd (here.symm.trans top) usable

end Simulation

/-- The state before an instruction in the range of an entry is recorded at its handler. -/
theorem Track.mem_recordedAt_of_throws {pool : Pool} {scene : Scene} {handlers : List Handler}
    {sights : List Sight} {initial : Frame} {final : Simulation}
    (track : Track pool scene handlers sights)
    (ran : Simulation.Runs scene (.start initial) sights final) {o : Outcome} {l : Leaf} {q : Nat}
    {f : Frame} {h : Handler} {name : BinaryName} (seen : .insn o l q ∈ sights)
    (held : Simulation.heldAt scene initial sights q = some f) (entry : h ∈ handlers)
    (low : h.start.toNat ≤ q) (high : q < h.stop.toNat) (catches : h.Catches pool name) :
    f.withStack [.object (.object name)] ∈ final.recordedAt h.handler.toNat := by
  obtain ⟨first, last, t, t', rfl, before, sees, after⟩ := exists_cut ran seen
  have present := track.state_of_held rfl rfl before held
  obtain ⟨label, spot, force⟩ := track.covered first o l q last rfl h entry low high name catches
  have active : t.active = first.foldl Sight.guard [] := before.active
  refine after.mem_recordedAt ((Simulation.see_ok sees).mem_recordedAt ?_)
  simp only [Simulation.records, present, Option.toList_some, List.flatMap_singleton, List.mem_map,
    List.mem_reverse, active]
  exact ⟨_, force, by rw [spot]⟩

namespace Body

open Simulation

def JumpAt (b : Body) (this : BinaryName) (layout : Layout) (q : Nat) (f : Frame) : Prop :=
  ∃ test source target, .jump test source target ∈ layout.sights.toList ∧
    layout.labels.positionOf source = .ok q ∧ b.held this layout q = some f

/-- The frame written at the handler of an entry has no variable that the given one does not have:
each is the same there, or unusable. -/
def HandlerCovers (simulation : Simulation) (map : StackMap) (final : Pool) (h : Handler) (f : Frame) :
    Prop :=
  ∃ m j, (h.handler.toNat, m) ∈ MapFrame.places none map.frames ∧
    simulation.joined h.handler.toNat = .ok (some j) ∧
    j.full final = .ok (m.locals, m.stack) final ∧ ∀ i, VType.Below (f.slot i) (j.slot i)

def JumpsCovered (b : Body) (this : BinaryName) (layout : Layout) (simulation : Simulation)
    (map : StackMap) (code : Code) (final : Pool) : Prop :=
  ∀ h ∈ code.handlers, ∀ q f, b.JumpAt this layout q f → h.start.toNat ≤ q → q < h.stop.toNat →
    HandlerCovers simulation map final h f

theorem handlerCovers_iff {simulation : Simulation} {map : StackMap} {final : Pool}
    (written : simulation.Written simulation.recorded.keys none final map.frames) (h : Handler)
    (f : Frame) : HandlerCovers simulation map final h f ↔ simulation.Agrees h.handler.toNat f := by
  constructor
  · rintro ⟨m, j, _, joins, _, below⟩
    exact (agrees_iff joins).mpr below
  · intro agrees
    obtain ⟨m, inside⟩ := written.exists_of_recorded agrees.recorded
    obtain ⟨_, j, joins, wire⟩ := written.frame _ m inside
    exact ⟨m, j, inside, joins, wire, (agrees_iff joins).mp agrees⟩

/-- The frames at handlers cover the states before all other instructions in their ranges. They
cover those before jumps exactly if these states have all that the recorded ones agree on. -/
theorem jumpsCovered_iff (config : Config) (this : BinaryName) (b : Body) (pool mid final : Pool)
    (code : Code) (layout : Layout) (made : pool.Made)
    (accepted : b.assemble config this pool = .ok code final)
    (laidOut : b.layOut pool = .ok layout mid) :
    ∃ simulation map, b.Assembled this layout simulation map code final ∧
      (∀ h ∈ code.handlers, ∀ name, h.Catches final name → ∀ o l q f,
        .insn o l q ∈ layout.sights.toList → b.held this layout q = some f →
        h.start.toNat ≤ q → q < h.stop.toNat →
        f.withStack [.object (.object name)] ∈ simulation.recordedAt h.handler.toNat ∧
          HandlerCovers simulation map final h f) ∧
      (b.JumpsCovered this layout simulation map code final ↔
        ∀ h ∈ code.handlers, ∀ q f, b.JumpAt this layout q f → h.start.toNat ≤ q →
          q < h.stop.toNat → simulation.Agrees h.handler.toNat f) := by
  obtain ⟨simulation, map, assembled, track, written⟩ := of_assemble made accepted laidOut
  refine ⟨simulation, map, assembled, ?_, ?_⟩
  · intro h entry name catches o l q f seen held low high
    have recorded :=
      track.mem_recordedAt_of_throws assembled.runs seen held entry low high catches
    refine ⟨recorded, (handlerCovers_iff written h f).mpr ⟨List.ne_nil_of_mem recorded, ?_⟩⟩
    intro i v _ each
    show (f.withStack [.object (.object name)]).slot i = v
    exact each _ recorded
  · simp only [JumpsCovered, handlerCovers_iff written]

/-- A variable that holds an int gets a float before a jump out of the guarded region. -/
def storing : Body :=
  ⟨"A.f(I)V", 1,
    .build do
      let out ← fresh
      let guarded ← Tree.tryCatch (.concat [.float 0, .store .float 0, ← Tree.jump out]) none
        (.simple .pop)
      return .concat [guarded, .place out, .simple .returnVoid], [.int]⟩

theorem exists_storing : ∃ layout mid code final s j f,
    storing.layOut .empty = .ok layout mid ∧ storing.assemble {} .object .empty = .ok code final ∧
    storing.simulate .object layout = .ok s ∧ code.handlers = [⟨0, 5, 5, none⟩] ∧
    storing.JumpAt .object layout 2 f ∧ f.slot 0 = .float ∧
    s.joined 5 = .ok (some j) ∧ j.slot 0 = .int := by
  obtain ⟨layout, mid, s, t, later, j, f, laidOut, simulated, finished, room, table, seen, here, held,
      float, joins, int⟩ : ∃ layout mid s t later j f,
      storing.layOut .empty = .ok layout mid ∧ storing.simulate .object layout = .ok s ∧
      s.finish mid = .ok t later ∧ later.entries.next + 2 ≤ 65535 ∧
      layout.handlers.toList = [⟨0, 5, 5, none⟩] ∧
      layout.sights.toList[5]? = some (.jump none ⟨1⟩ ⟨0⟩) ∧
      layout.labels.positionOf ⟨1⟩ = .ok 2 ∧ storing.held .object layout 2 = some f ∧
      f.slot 0 = .float ∧ s.joined 5 = .ok (some j) ∧ j.slot 0 = .int :=
    ⟨_, _, _, _, _, _, _, by cbv, by cbv, by cbv, by cbv, by cbv, by cbv, by cbv, by cbv, by cbv,
      by cbv, by cbv⟩
  obtain ⟨code, final, accepted⟩ := exists_assemble {} laidOut simulated finished room
  obtain ⟨_, _, _, _, _, _, _, _, _, _, handlers, _⟩ := parts_of_assemble accepted laidOut
  exact ⟨layout, mid, code, final, s, j, f, laidOut, accepted, simulated, handlers.trans table,
    ⟨none, ⟨1⟩, ⟨0⟩, List.mem_of_getElem? seen, here, held⟩, float, joins, int⟩

theorem jumpsCovered_iff_storing : ∃ layout mid code final simulation map,
    storing.layOut .empty = .ok layout mid ∧ storing.assemble {} .object .empty = .ok code final ∧
    storing.Assembled .object layout simulation map code final ∧
    (storing.JumpsCovered .object layout simulation map code final ↔
      ∀ h ∈ code.handlers, ∀ q f, storing.JumpAt .object layout q f → h.start.toNat ≤ q →
        q < h.stop.toNat → simulation.Agrees h.handler.toNat f) ∧
    ∃ h ∈ code.handlers, ∃ f, storing.JumpAt .object layout 2 f ∧ h.start.toNat ≤ 2 ∧
      2 < h.stop.toNat := by
  obtain ⟨layout, mid, code, final, s, j, f, laidOut, accepted, _, table, jump, _⟩ := exists_storing
  obtain ⟨simulation, map, assembled, _, iff⟩ :=
    jumpsCovered_iff _ _ _ _ _ _ _ _ .refl accepted laidOut
  refine ⟨layout, mid, code, final, simulation, map, laidOut, accepted, assembled, iff, ?_⟩
  rw [table]
  exact ⟨_, List.mem_singleton_self _, f, jump, by decide, by decide⟩

/-- The frame at the handler has an int where the jump is reached with a float. -/
theorem not_jumpsCovered_storing : ∃ layout mid code final simulation map,
    storing.layOut .empty = .ok layout mid ∧ storing.assemble {} .object .empty = .ok code final ∧
    storing.Assembled .object layout simulation map code final ∧
    ¬ storing.JumpsCovered .object layout simulation map code final := by
  obtain ⟨layout, mid, code, final, s, j, f, laidOut, accepted, simulated, table, jump, float, joins,
    int⟩ := exists_storing
  obtain ⟨simulation, map, assembled, _⟩ := of_assemble .refl accepted laidOut
  have same : (.ok simulation : Except Error Simulation) = .ok s :=
    assembled.simulated.symm.trans simulated
  injection same with same
  rw [← same] at joins
  refine ⟨layout, mid, code, final, simulation, map, laidOut, accepted, assembled, fun covered => ?_⟩
  obtain ⟨_, k, _, there, _, below⟩ :=
    covered ⟨0, 5, 5, none⟩ (by simp [table]) 2 f jump (by decide) (by decide)
  have found : (.ok (some j) : Except Error (Option Frame)) = .ok (some k) := joins.symm.trans there
  cases found
  have here := below 0
  rw [float, int] at here
  rcases here with wrong | wrong <;> cases wrong

end Body

end Bytecode
