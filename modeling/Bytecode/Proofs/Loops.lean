import Bytecode.Proofs.Assembly

/-! Loops in assembled bodies. The table of frames is a fixpoint of the simulation wherever jumps
backward bring nothing new. Nothing sees to it that they do not: that holds exactly where the frame
in the table is the state from which the loop was simulated, and a loop is accepted without it. -/
namespace Bytecode

namespace Frame

theorem same_iff {a b : Frame} : a.Same b ↔ a.stack.values = b.stack.values ∧
    ∀ i < max a.locals.size b.locals.size, a.slot i = b.slot i := by
  constructor
  · intro same
    exact ⟨same.stack, fun i _ => same.slots i⟩
  · rintro ⟨stack, slots⟩
    refine ⟨stack, fun i => ?_⟩
    by_cases inside : i < max a.locals.size b.locals.size
    · exact slots i inside
    · have beyond : a.locals.size ≤ i ∧ b.locals.size ≤ i := by omega
      simp [slot, Array.getD_eq_getD_getElem?, beyond]

instance (a b : Frame) : Decidable (a.Same b) := decidable_of_iff _ same_iff.symm

def absorbs? (a b : Frame) : Bool :=
  match a.union b with
  | .ok c => c.Same a
  | .error _ => false

theorem absorbs?_iff {a b : Frame} : a.absorbs? b ↔ a.Absorbs b := by
  unfold absorbs? Absorbs
  cases a.union b <;> simp

end Frame

namespace Simulation

variable {scene : Scene} {initial : Frame} {sights : List Sight}

def carried? (scene : Scene) (initial : Frame) (sights : List Sight) :
    Sight → Option (Nat × Frame × Nat)
  | .jump test source target => do
    let q ← (scene.labels.positionOf source).toOption
    let p ← (scene.labels.positionOf target).toOption
    let f ← heldAt scene initial sights q
    let g ← (f.leave test).toOption
    return (q, g, p)
  | _ => none

theorem toOption_eq_some {ε α : Type} {x : Except ε α} {a : α} :
    x.toOption = some a ↔ x = .ok a := by
  cases x <;> simp [Except.toOption]

theorem jumps_iff {q p : Nat} {g : Frame} : Jumps scene initial sights q g p ↔
    ∃ x ∈ sights, carried? scene initial sights x = some (q, g, p) := by
  constructor
  · rintro ⟨test, source, target, f, seen, origin, goal, held, left⟩
    refine ⟨_, seen, ?_⟩
    simp [carried?, origin, goal, held, left, Except.toOption]
  · rintro ⟨x, seen, carried⟩
    cases x with
    | jump test source target =>
      simp only [carried?, Option.bind_eq_bind, Option.bind_eq_some_iff, toOption_eq_some,
        Option.pure_def, Option.some.injEq, Prod.mk.injEq] at carried
      obtain ⟨_, origin, _, goal, f, held, _, left, rfl, rfl, rfl⟩ := carried
      exact ⟨test, source, target, f, seen, origin, goal, held, left⟩
    | _ => cases carried

def calm? (scene : Scene) (initial : Frame) (sights : List Sight) (x : Sight) : Bool :=
  match carried? scene initial sights x with
  | none => true
  | some (q, g, p) => q < p || (heldAt scene initial sights p).any (·.absorbs? g)

theorem backAbsorbed_iff_all :
    BackAbsorbed scene initial sights ↔ sights.all (calm? scene initial sights) := by
  rw [List.all_eq_true]
  constructor
  · intro absorbed x seen
    unfold calm?
    cases carried : carried? scene initial sights x with
    | none => rfl
    | some c =>
      obtain ⟨q, g, p⟩ := c
      by_cases forward : q < p
      · simp [forward]
      · obtain ⟨u, held, absorbs⟩ :=
          absorbed q g p (jumps_iff.mpr ⟨x, seen, carried⟩) (by omega)
        simp [held, Frame.absorbs?_iff.mpr absorbs]
  · intro calm q g p jump back
    obtain ⟨x, seen, carried⟩ := jumps_iff.mp jump
    have here := calm x seen
    have notForward : ¬ q < p := by omega
    simp only [calm?, carried, notForward, decide_false, Bool.false_or, Option.any_eq_true] at here
    obtain ⟨u, held, absorbs⟩ := here
    exact ⟨u, held, Frame.absorbs?_iff.mp absorbs⟩

instance : Decidable (BackAbsorbed scene initial sights) :=
  decidable_of_iff _ backAbsorbed_iff_all.symm

end Simulation

namespace Body

open Simulation

variable {config : Config} {this : BinaryName} {b : Body} {pool mid final : Pool} {code : Code}
  {layout : Layout}

def Jumps (b : Body) (this : BinaryName) (layout : Layout) (q : Nat) (g : Frame) (p : Nat) : Prop :=
  Simulation.Jumps (layout.scene this) (Frame.ofArguments b.entry) layout.sights.toList q g p

/-- Jumps backward bring nothing new to where they lead. -/
def LoopsClosed (b : Body) (this : BinaryName) (layout : Layout) : Prop :=
  BackAbsorbed (layout.scene this) (Frame.ofArguments b.entry) layout.sights.toList

instance : Decidable (b.LoopsClosed this layout) :=
  inferInstanceAs (Decidable (BackAbsorbed _ _ _))

/-- If jumps backward bring nothing new, the frames of the table are the states held at the ends of
jumps and the starts of handlers, and the states held agree with each other along every edge. -/
theorem stackMap_fixpoint (config : Config) (this : BinaryName) (b : Body) (pool mid final : Pool)
    (code : Code) (layout : Layout) (made : pool.Made)
    (accepted : b.assemble config this pool = .ok code final)
    (laidOut : b.layOut pool = .ok layout mid) (closed : b.LoopsClosed this layout) :
    ∃ simulation map, b.Assembled this layout simulation map code final ∧
      (∀ p m, (p, m) ∈ MapFrame.places none map.frames → layout.Site p →
        ∃ u, b.held this layout p = some u ∧ u.full final = .ok (m.locals, m.stack) final) ∧
      (∀ p u, layout.Site p → b.held this layout p = some u →
        ∃ m, (p, m) ∈ MapFrame.places none map.frames) ∧
      Consistent final (layout.scene this) code.handlers (Frame.ofArguments b.entry)
        layout.sights.toList := by
  obtain ⟨simulation, map, assembled, track, written⟩ := of_assemble made accepted laidOut
  have ran := assembled.runs
  refine ⟨simulation, map, assembled, ?_, ?_, track.consistent ran closed⟩
  · intro p m inside site
    obtain ⟨_, j, joins, wire⟩ := written.frame p m inside
    obtain ⟨u, held, same⟩ := track.joined_same ran ((layout.contains_wanted p).mpr site)
      (fun q g => closed q g p) joins
    exact ⟨u, held, same.full_eq ▸ wire⟩
  · intro p u site held
    have recorded := track.recordedAt_of_held ran ((layout.contains_wanted p).mpr site) held
    exact written.exists_of_recorded recorded

def descent : Body :=
  ⟨"A.f(I)V", 1, (Tree.build Tree.descent).andThen (.simple .returnVoid), [.int]⟩

theorem stackMap_fixpoint_descent : ∃ layout mid code final simulation map,
    descent.layOut .empty = .ok layout mid ∧
    descent.assemble {} .object .empty = .ok code final ∧ descent.LoopsClosed .object layout ∧
    descent.Assembled .object layout simulation map code final ∧
    (∀ p m, (p, m) ∈ MapFrame.places none map.frames → layout.Site p →
      ∃ u, descent.held .object layout p = some u ∧ u.full final = .ok (m.locals, m.stack) final) ∧
    (∀ p u, layout.Site p → descent.held .object layout p = some u →
      ∃ m, (p, m) ∈ MapFrame.places none map.frames) ∧
    Consistent final (layout.scene .object) code.handlers (Frame.ofArguments descent.entry)
      layout.sights.toList := by
  obtain ⟨layout, mid, s, t, laidOut, simulated, finished, room, closed⟩ : ∃ layout mid s t,
      descent.layOut .empty = .ok layout mid ∧ descent.simulate .object layout = .ok s ∧
      s.finish mid = .ok t mid ∧ mid.entries.next + 2 ≤ 65535 ∧
      descent.LoopsClosed .object layout :=
    ⟨_, _, _, _, by cbv, by cbv, by cbv, by cbv, of_decide_eq_true (by cbv)⟩
  obtain ⟨code, final, accepted⟩ := exists_assemble {} laidOut simulated finished room
  obtain ⟨simulation, map, whole⟩ := stackMap_fixpoint _ _ _ _ _ _ _ _ .refl accepted laidOut closed
  exact ⟨layout, mid, code, final, simulation, map, laidOut, accepted, closed, whole⟩

/-- The frame in the table covers whatever jumps backward carry to it. They bring nothing new
exactly if that frame is the state held there, from which the loop was simulated. -/
theorem loopsClosed_iff (config : Config) (this : BinaryName) (b : Body) (pool mid final : Pool)
    (code : Code) (layout : Layout) (made : pool.Made)
    (accepted : b.assemble config this pool = .ok code final)
    (laidOut : b.layOut pool = .ok layout mid) :
    ∃ simulation map, b.Assembled this layout simulation map code final ∧
      (∀ q g p, b.Jumps this layout q g p → p ≤ q → ∃ m j,
        (p, m) ∈ MapFrame.places none map.frames ∧ simulation.joined p = .ok (some j) ∧
        j.full final = .ok (m.locals, m.stack) final ∧ g.Below j) ∧
      (b.LoopsClosed this layout ↔ ∀ q g p, b.Jumps this layout q g p → p ≤ q → ∃ u j,
        b.held this layout p = some u ∧ simulation.joined p = .ok (some j) ∧ j.Same u) := by
  obtain ⟨simulation, map, assembled, track, written⟩ := of_assemble made accepted laidOut
  have ran := assembled.runs
  have covered : ∀ q g p, b.Jumps this layout q g p → p ≤ q → ∃ m j,
      (p, m) ∈ MapFrame.places none map.frames ∧ simulation.joined p = .ok (some j) ∧
      j.full final = .ok (m.locals, m.stack) final ∧ g.Below j := by
    intro q g p jump back
    have recorded := track.mem_recordedAt_of_back ran jump back
    obtain ⟨m, inside⟩ := written.exists_of_recorded (List.ne_nil_of_mem recorded)
    obtain ⟨_, j, joins, wire⟩ := written.frame p m inside
    exact ⟨m, j, inside, joins, wire, (isJoin_of_joined joins).above g recorded⟩
  refine ⟨simulation, map, assembled, covered, ?_, ?_⟩
  · intro closed q g p jump back
    obtain ⟨m, j, _, joins, _⟩ := covered q g p jump back
    obtain ⟨u, held, same⟩ := track.joined_same ran (track.wanted_of_jump jump)
      (fun q g => closed q g p) joins
    exact ⟨u, j, held, joins, same⟩
  · intro same q g p jump back
    obtain ⟨u, j, held, joins, same⟩ := same q g p jump back
    exact ⟨u, held, track.absorbs_of_same ran jump back held joins same⟩

def retyping : Body :=
  ⟨"A.f(I)V", 1,
    .build do
      let top ← fresh
      return .concat [.place top, .load .int 0 .int, .simple .pop, .float 0, .store .float 0,
        ← Tree.jumpBack top], [.int]⟩

theorem loopsClosed_iff_retyping : ∃ layout mid code final simulation map,
    retyping.layOut .empty = .ok layout mid ∧
    retyping.assemble {} .object .empty = .ok code final ∧
    retyping.Assembled .object layout simulation map code final ∧
    ¬ ∀ q g p, retyping.Jumps .object layout q g p → p ≤ q → ∃ u j,
      retyping.held .object layout p = some u ∧ simulation.joined p = .ok (some j) ∧ j.Same u := by
  obtain ⟨layout, mid, s, t, laidOut, simulated, finished, room, opened⟩ : ∃ layout mid s t,
      retyping.layOut .empty = .ok layout mid ∧ retyping.simulate .object layout = .ok s ∧
      s.finish mid = .ok t mid ∧ mid.entries.next + 2 ≤ 65535 ∧
      ¬ retyping.LoopsClosed .object layout :=
    ⟨_, _, _, _, by cbv, by cbv, by cbv, by cbv, of_decide_eq_false (by cbv)⟩
  obtain ⟨code, final, accepted⟩ := exists_assemble {} laidOut simulated finished room
  obtain ⟨simulation, map, assembled, _, iff⟩ :=
    loopsClosed_iff _ _ _ _ _ _ _ _ .refl accepted laidOut
  exact ⟨layout, mid, code, final, simulation, map, laidOut, accepted, assembled,
    fun same => opened (iff.mpr same)⟩

/-- A loop that is entered at its condition. No state is held at its body, which takes a float
from a variable that holds an int. -/
def lateEntry : Body :=
  ⟨"A.f(I)V", 1,
    .build do
      let top ← fresh
      let condition ← fresh
      let enter ← Tree.jump condition
      let again ← Tree.ifOnly (.zero .ne) (← Tree.jumpBack top)
      return .concat [enter, .place top, .load .float 0 .float, .simple .pop, .place condition,
        .load .int 0 .int, again, .simple .returnVoid], [.int]⟩

theorem not_loopsClosed_lateEntry : ∃ layout mid code final,
    lateEntry.layOut .empty = .ok layout mid ∧
    lateEntry.assemble {} .object .empty = .ok code final ∧
    ¬ lateEntry.LoopsClosed .object layout := by
  obtain ⟨layout, mid, s, t, laidOut, simulated, finished, room, opened⟩ : ∃ layout mid s t,
      lateEntry.layOut .empty = .ok layout mid ∧ lateEntry.simulate .object layout = .ok s ∧
      s.finish mid = .ok t mid ∧ mid.entries.next + 2 ≤ 65535 ∧
      ¬ lateEntry.LoopsClosed .object layout :=
    ⟨_, _, _, _, by cbv, by cbv, by cbv, by cbv, of_decide_eq_false (by cbv)⟩
  obtain ⟨code, final, accepted⟩ := exists_assemble {} laidOut simulated finished room
  exact ⟨layout, mid, code, final, laidOut, accepted, opened⟩

end Body

end Bytecode
