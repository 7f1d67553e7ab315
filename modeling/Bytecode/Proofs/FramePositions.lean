import Bytecode.Proofs.Blocks
import Bytecode.Proofs.Casts
import Bytecode.Proofs.Limits

/-! Where the frames of the stack map stand: at the ends of jumps and the starts of handlers that
control comes to, and also at the handlers of tries that are entered and have nothing inside. These
are in no entry of the table of handlers. -/
namespace Bytecode

namespace Simulation

def Enters (scene : Scene) (initial : Frame) (sights : List Sight) (r : Region) : Prop :=
  ∃ first last t f, sights = first ++ .enterTry r.guard.handler r.caught :: last ∧
    Runs scene (start initial) first t ∧ t.state = some f

inductive ComesTo (pool : Pool) (scene : Scene) (handlers : List Handler) (initial : Frame)
    (sights : List Sight) : Nat → Prop where
  | start : ComesTo pool scene handlers initial sights 0
  | edge {g : Frame} {p : Nat} : Edge pool scene handlers initial sights g p →
    ComesTo pool scene handlers initial sights p
  | enters {r : Region} {p : Nat} : Enters scene initial sights r →
    scene.labels.positionOf r.guard.handler = .ok p → ComesTo pool scene handlers initial sights p

variable {scene : Scene}

/-- A frame is recorded at the handler of a try that is entered, whatever is inside. -/
theorem Enters.recordedAt {initial : Frame} {sights : List Sight} {r : Region} {final : Simulation}
    (enters : Enters scene initial sights r) (ran : Runs scene (start initial) sights final) :
    final.recordedAt (scene.labels.spot r.guard.handler) ≠ [] := by
  obtain ⟨first, last, t, f, rfl, before, present⟩ := enters
  obtain ⟨t', before', rest⟩ := runs_append.mp ran
  have same : (.ok t : Except Error Simulation) = .ok t' := before.symm.trans before'
  cases same
  obtain ⟨u, sees, after⟩ := runs_cons.mp rest
  have made : (scene.labels.spot r.guard.handler, f.withStack [caughtType r.caught]) ∈
      t.records scene (.enterTry r.guard.handler r.caught) := by
    simp [records, present]
  exact List.ne_nil_of_mem (after.mem_recordedAt ((see_ok sees).mem_recordedAt made))

end Simulation

theorem Block.full_of_covers {b : Block} {p : Nat} (h : b.covers p) : b.full := by
  simp only [covers, Bool.and_eq_true, decide_eq_true_eq] at h
  simp only [full, decide_eq_true_eq]
  omega

theorem Block.Entered.catches {pool : Pool} {b : Block} {h : Handler} (entered : b.Entered pool h) :
    h.Catches pool (b.region.caught.getD .throwable) := by
  have caught := entered.caught
  unfold Handler.Catches
  cases hc : b.region.caught with
  | none =>
    cases hh : h.caught with
    | none => rfl
    | some index => simp [hc, hh] at caught
  | some name =>
    cases hh : h.caught with
    | none => simp [hc, hh] at caught
    | some index => simpa [hc, hh] using caught

theorem Tree.exists_block (pool : Pool) {t : Tree} {r : Region}
    (member : .enter r.guard r.caught ∈ t.steps none) : ∃ b ∈ t.blocks pool 0 0, b.region = r := by
  have listed : r ∈ (t.steps none).filterMap Step.region? :=
    List.mem_filterMap.mpr ⟨_, member, rfl⟩
  rw [t.filterMap_region? pool none 0 0] at listed
  exact List.mem_map.mp listed

theorem Layout.Laid.exists_entered {t : Tree} {pool : Pool} {layout : Layout}
    (laid : layout.Laid t pool) (hp : pool.Coherent) (small : layout.position ≤ 65535) {b : Block}
    (listed : b ∈ t.blocks pool 0 0) (full : b.full) :
    ∃ h ∈ layout.handlers.toList, b.Entered pool h := by
  refine ⟨b.region.entry pool layout.labels, ?_, laid.entered_blocks hp small b listed⟩
  rw [laid.handlers_eq_map hp small]
  exact List.mem_map.mpr ⟨b, List.mem_filter.mpr ⟨listed, full⟩, rfl⟩

namespace Body

open Simulation

def ComesTo (b : Body) (this : BinaryName) (layout : Layout) (pool : Pool) (p : Nat) : Prop :=
  Simulation.ComesTo pool (layout.scene this) layout.handlers.toList (Frame.ofArguments b.entry)
    layout.sights.toList p

def Enters (b : Body) (this : BinaryName) (layout : Layout) (r : Region) : Prop :=
  Simulation.Enters (layout.scene this) (Frame.ofArguments b.entry) layout.sights.toList r

/-- The handler of a try that is entered and has nothing inside stands at the position. -/
def Hollow (b : Body) (this : BinaryName) (layout : Layout) (pool : Pool) (p : Nat) : Prop :=
  ∃ c ∈ b.tree.blocks pool 0 0, c.full = false ∧ c.handler = p ∧ b.Enters this layout c.region

def Framed (b : Body) (this : BinaryName) (layout : Layout) (pool : Pool) (p : Nat) : Prop :=
  (layout.Site p ∧ b.ComesTo this layout pool p) ∨ b.Hollow this layout pool p

structure Reached (b : Body) (this : BinaryName) (layout : Layout) (pool : Pool) (n : Nat)
    (s : Simulation) : Prop where
  state : ∀ f, s.state = some f → b.ComesTo this layout pool n
  recorded : ∀ p f, f ∈ s.recordedAt p → b.Framed this layout pool p

def Seen (b : Body) (this : BinaryName) (layout : Layout) (first : List Sight) (s : Simulation) :
    Prop :=
  Runs (layout.scene this) (start (Frame.ofArguments b.entry)) first s

variable {b : Body} {this : BinaryName} {layout : Layout} {pool : Pool} {n p : Nat}
  {s s' : Simulation} {first last : List Sight} {x : Sight} {g : Frame}

theorem Framed.comesTo (framed : b.Framed this layout pool p) (laid : layout.Laid b.tree pool) :
    b.ComesTo this layout pool p := by
  rcases framed with ⟨_, comes⟩ | ⟨c, listed, _, rfl, enters⟩
  · exact comes
  · exact .enters enters (Labels.positionOf_eq_ok.mpr (laid.settled_blocks c listed).handler)

namespace Reached

theorem start (b : Body) (this : BinaryName) (layout : Layout) (pool : Pool) :
    b.Reached this layout pool 0 (.start (Frame.ofArguments b.entry)) :=
  ⟨fun _ _ => .start, fun p f member => by simp [recordedAt, Simulation.start] at member⟩

theorem sees (h : b.Reached this layout pool n s) (sees : Sees (layout.scene this) x s s')
    (made : ∀ p g, (p, g) ∈ s.records (layout.scene this) x → b.Framed this layout pool p) :
    ∀ p g, g ∈ s'.recordedAt p → b.Framed this layout pool p := by
  intro p g member
  rcases sees.recordedAt_cases member with old | new
  · exact h.recorded p g old
  · exact made p g new

theorem label (h : b.Reached this layout pool n s) (laid : layout.Laid b.tree pool) {l : Label}
    (sees : Sees (layout.scene this) (.label l n) s s') : b.Reached this layout pool n s' := by
  have recorded := h.sees sees fun p f new => by
    simp only [records] at new
    split at new
    · rename_i wanted
      obtain ⟨g, present, same⟩ := Option.map_eq_some_iff.mp (Option.mem_toList.mp new)
      cases same
      exact .inl ⟨(layout.contains_wanted n).mp wanted, h.state f present⟩
    · cases new
  refine ⟨fun f present => ?_, recorded⟩
  have moves := sees.state
  simp only [Moves] at moves
  split at moves
  · rw [present] at moves
    obtain ⟨g, member⟩ := List.exists_mem_of_ne_nil (s'.recordedAt n) fun empty => by
      simp [joined, empty] at moves
    exact (recorded n g member).comesTo laid
  · exact h.state f (moves ▸ present)

end Reached

section

variable (laid : layout.Laid b.tree pool) (hp : pool.Coherent) (small : layout.position ≤ 65535)

include laid hp small

theorem held_of_cut {a : Nat × Nat} (op : x.isOp) (has : x.extent? pool layout.labels = some a)
    (cut : layout.sights.toList = first ++ x :: last) (seen : b.Seen this layout first s) :
    b.held this layout a.1 = s.state := by
  have track := laid.track hp small this
  rw [held, cut]
  rw [cut] at track
  exact track.heldAt_op op has seen

/-- An instruction may throw to the handlers of the tries that cover it, and for these the table has
entries. -/
theorem framed_of_insn {o : Outcome} {l : Leaf}
    (cut : layout.sights.toList = first ++ .insn o l n :: last) (seen : b.Seen this layout first s)
    (new : (p, g) ∈ s.records (layout.scene this) (.insn o l n)) :
    b.Framed this layout pool p := by
  simp only [records, List.mem_flatMap, Option.mem_toList, List.mem_map, List.mem_reverse] at new
  obtain ⟨f, present, e, force, same⟩ := new
  have active : s.active = _ := (Runs.active seen).trans (laid.active_eq hp cut)
  rw [active] at force
  obtain ⟨c, covering, rfl⟩ := List.mem_map.mp force
  obtain ⟨listed, covers⟩ := List.mem_filter.mp (List.mem_reverse.mp covering)
  obtain ⟨entry, inside, entered⟩ :=
    laid.exists_entered hp small listed (Block.full_of_covers covers)
  have goal : entry.handler.toNat = p := by
    rw [entered.handler, ← Labels.spot_eq (laid.settled_blocks c listed).handler]
    exact congrArg Prod.fst same
  simp only [Block.covers, Bool.and_eq_true, decide_eq_true_eq] at covers
  have member : .insn o l n ∈ layout.sights.toList := by simp [cut]
  have held : b.held this layout n = some f :=
    (held_of_cut laid hp small rfl rfl cut seen).trans present
  subst goal
  refine .inl ⟨.inr ⟨entry, inside, rfl⟩, .edge (.throws member held inside ?_ ?_
    entered.catches)⟩
  · rw [entered.start]
    exact covers.1
  · rw [entered.stop]
    exact covers.2

theorem framed_of_jump {test : Option Test} {source target : Label}
    (origin : layout.labels.settled? source = some n)
    (cut : layout.sights.toList = first ++ .jump test source target :: last)
    (seen : b.Seen this layout first s)
    (new : (p, g) ∈ s.records (layout.scene this) (.jump test source target)) :
    b.Framed this layout pool p := by
  simp only [records, List.mem_flatMap, Option.mem_toList, List.mem_map] at new
  obtain ⟨f, present, g', left, same⟩ := new
  have member : .jump test source target ∈ layout.sights.toList := by simp [cut]
  obtain ⟨q, p', _, settled, _, wanted⟩ := (laid.track hp small this).jumps _ _ _ member
  have goal : p' = p := by
    rw [← Labels.spot_eq settled]
    exact congrArg Prod.fst same
  subst goal
  have held : b.held this layout n = some f := by
    rw [← Labels.spot_eq origin]
    exact (held_of_cut laid hp small rfl rfl cut seen).trans present
  have jumps : b.Jumps this layout n g' p' :=
    ⟨test, source, target, f, member, Labels.positionOf_eq_ok.mpr origin,
      Labels.positionOf_eq_ok.mpr settled, held, toOption_eq_some.mp left⟩
  exact .inl ⟨(layout.contains_wanted _).mp wanted, .edge (.jumps jumps)⟩

/-- A try has an entry in the table, or else nothing inside. -/
theorem framed_of_enterTry {r : Region} (entered : .enter r.guard r.caught ∈ b.tree.steps none)
    (cut : layout.sights.toList = first ++ .enterTry r.guard.handler r.caught :: last)
    (seen : b.Seen this layout first s)
    (new : (p, g) ∈ s.records (layout.scene this) (.enterTry r.guard.handler r.caught)) :
    b.Framed this layout pool p := by
  simp only [records, List.mem_map, Option.mem_toList] at new
  obtain ⟨f, present, same⟩ := new
  obtain ⟨c, listed, rfl⟩ := Tree.exists_block pool entered
  have settled := (laid.settled_blocks c listed).handler
  have goal : c.handler = p := by
    rw [← Labels.spot_eq settled]
    exact congrArg Prod.fst same
  have enters : b.Enters this layout c.region := ⟨first, last, s, f, cut, seen, present⟩
  cases full : c.full with
  | false => exact .inr ⟨c, listed, full, goal, enters⟩
  | true =>
    obtain ⟨entry, inside, into⟩ := laid.exists_entered hp small listed full
    refine .inl ⟨.inr ⟨entry, inside, by rw [into.handler, goal]⟩, ?_⟩
    exact .enters enters (Labels.positionOf_eq_ok.mpr (goal ▸ settled))

namespace Reached

theorem insn (h : b.Reached this layout pool n s) {o : Outcome} {l : Leaf}
    (cut : layout.sights.toList = first ++ .insn o l n :: last) (seen : b.Seen this layout first s)
    (sees : Sees (layout.scene this) (.insn o l n) s s') :
    b.Reached this layout pool (n + (l.octets pool).length) s' := by
  refine ⟨fun g next => ?_, h.sees sees fun p g new => framed_of_insn laid hp small cut seen new⟩
  rcases sees.state with ⟨_, none⟩ | ⟨f, g', present, run, moves⟩
  · rw [none] at next
    cases next
  · rw [next] at moves
    have member : .insn o l n ∈ layout.sights.toList := by simp [cut]
    have held := (held_of_cut laid hp small rfl rfl cut seen).trans present
    cases ends : o.ends with
    | true => simp [ends] at moves
    | false => exact .edge (.falls member held run ends)

theorem jump (h : b.Reached this layout pool n s) {test : Option Test} {source target : Label}
    (origin : layout.labels.settled? source = some n)
    (cut : layout.sights.toList = first ++ .jump test source target :: last)
    (seen : b.Seen this layout first s)
    (sees : Sees (layout.scene this) (.jump test source target) s s') :
    b.Reached this layout pool (n + 3) s' := by
  refine ⟨fun g next => ?_,
    h.sees sees fun p g new => framed_of_jump laid hp small origin cut seen new⟩
  rcases sees.state with ⟨_, none⟩ | ⟨f, g', present, left, moves⟩
  · rw [none] at next
    cases next
  · rw [next] at moves
    have held := (held_of_cut laid hp small rfl rfl cut seen).trans present
    simp only [Labels.spot_eq origin] at held
    have member : .jump test source target ∈ layout.sights.toList := by simp [cut]
    cases test with
    | none => simp at moves
    | some test => exact .edge (.passes member (Labels.positionOf_eq_ok.mpr origin) held left)

theorem step {pre rest : List Step} {step : Step}
    (whole : b.tree.steps none = pre ++ step :: rest)
    (h : b.Reached this layout pool (reach pool 0 pre) s)
    (before : b.Seen this layout (sightsOf (timeline pool 0 pre)) s)
    (sees : Runs (layout.scene this) s (step.sights (reach pool 0 pre)) s') :
    b.Reached this layout pool (reach pool 0 pre + step.size pool) s' := by
  have cut : layout.sights.toList = sightsOf (timeline pool 0 pre) ++
      (step.sights (reach pool 0 pre) ++
        sightsOf (timeline pool (reach pool 0 pre + step.size pool) rest)) := by
    rw [laid.sights, Tree.course, whole, timeline_append]
    simp [sightsOf, timeline]
  cases step with
  | place l =>
    obtain ⟨t, seen, done⟩ := runs_cons.mp sees
    cases done
    exact h.label laid (see_ok seen)
  | jump test source target =>
    obtain ⟨t, placed, sees⟩ := runs_cons.mp sees
    obtain ⟨u, seen, done⟩ := runs_cons.mp sees
    cases done
    have origin : layout.labels.settled? source = some (reach pool 0 pre) := by
      rw [laid.labels, Tree.course, whole]
      exact placedAt_append pool 0 pre rest rfl
    have here : b.Seen this layout
        (sightsOf (timeline pool 0 pre) ++ [.label source (reach pool 0 pre)]) t :=
      runs_append.mpr ⟨s, before, runs_cons.mpr ⟨t, placed, rfl⟩⟩
    rw [Step.sights, List.cons_append, List.append_cons] at cut
    exact (h.label laid (see_ok placed)).jump laid hp small origin cut here (see_ok seen)
  | leaf o l =>
    obtain ⟨t, seen, done⟩ := runs_cons.mp sees
    cases done
    exact h.insn laid hp small cut before (see_ok seen)
  | enter g caught =>
    obtain ⟨t, seen, done⟩ := runs_cons.mp sees
    cases done
    have entered : .enter g caught ∈ b.tree.steps none := by simp [whole]
    refine ⟨fun f present => h.state f ((see_ok seen).state.symm.trans present),
      h.sees (see_ok seen) fun p f new => ?_⟩
    exact framed_of_enterTry (r := ⟨g, caught⟩) laid hp small entered cut before new
  | exit | line =>
    obtain ⟨t, seen, done⟩ := runs_cons.mp sees
    cases done
    exact ⟨fun f present => h.state f ((see_ok seen).state.symm.trans present),
      h.sees (see_ok seen) fun _ _ new => by cases new⟩

theorem run (pre post : List Step) (whole : b.tree.steps none = pre ++ post)
    (h : b.Reached this layout pool (reach pool 0 pre) s)
    (before : b.Seen this layout (sightsOf (timeline pool 0 pre)) s)
    (after : Runs (layout.scene this) s (sightsOf (timeline pool (reach pool 0 pre) post)) s') :
    b.Reached this layout pool (reach pool 0 (pre ++ post)) s' := by
  induction post generalizing pre s with
  | nil =>
    cases after
    rwa [List.append_nil]
  | cons step rest ih =>
    rw [sightsOf_cons] at after
    obtain ⟨t, here, later⟩ := runs_append.mp after
    have next : reach pool 0 (pre ++ [step]) = reach pool 0 pre + step.size pool := by
      rw [reach_append]
      rfl
    have seen : sightsOf (timeline pool 0 (pre ++ [step])) =
        sightsOf (timeline pool 0 pre) ++ step.sights (reach pool 0 pre) := by
      rw [timeline_append]
      simp [sightsOf, timeline]
    have kept := h.step laid hp small whole before here
    rw [← next] at kept later
    have reached := ih (pre ++ [step]) (by rw [whole]; simp) kept
      (by rw [seen]; exact runs_append.mpr ⟨s, before, here⟩) later
    rwa [List.append_assoc] at reached

end Reached

theorem Framed.recordedAt (framed : b.Framed this layout pool p)
    (ran : b.Seen this layout layout.sights.toList s) : s.recordedAt p ≠ [] := by
  have track := laid.track hp small this
  rcases framed with ⟨site, comes⟩ | ⟨c, listed, _, goal, enters⟩
  · have wanted := (layout.contains_wanted p).mpr site
    cases comes with
    | start =>
      obtain ⟨u, held, _⟩ := Track.entry_below ran
      exact track.recordedAt_of_held ran wanted held
    | edge edge =>
      rcases track.below_or_back ran edge with ⟨u, held, _⟩ | ⟨q, jump, back⟩
      · exact track.recordedAt_of_held ran wanted held
      · exact List.ne_nil_of_mem (track.mem_recordedAt_of_back ran jump back)
    | enters enters goal => exact spot_of_positionOf goal ▸ enters.recordedAt ran
  · have spot := Labels.spot_eq (laid.settled_blocks c listed).handler
    rw [← goal, ← spot]
    exact enters.recordedAt ran

theorem recordedAt_iff (ran : b.Seen this layout layout.sights.toList s) :
    s.recordedAt p ≠ [] ↔ b.Framed this layout pool p := by
  constructor
  · intro recorded
    obtain ⟨f, member⟩ := List.exists_mem_of_ne_nil _ recorded
    rw [laid.sights, Tree.course] at ran
    have reached := Reached.run laid hp small [] _ rfl (.start b this layout pool) rfl ran
    exact reached.recorded p f member
  · exact fun framed => framed.recordedAt laid hp small ran

end

end Body

def StackMap.positions (map : StackMap) : List Nat :=
  (MapFrame.places none map.frames).map Prod.fst

theorem MapFrame.lt_of_places {frames : List MapFrame} {q p : Nat}
    (member : p ∈ (places (some q) frames).map Prod.fst) : q < p := by
  induction frames generalizing q with
  | nil => cases member
  | cons m rest ih =>
    have here : q < m.place (some q) := by
      simp only [place]
      omega
    rcases List.mem_cons.mp member with rfl | later
    · exact here
    · exact Nat.lt_trans here (ih later)

theorem MapFrame.pairwise_places (previous : Option Nat) (frames : List MapFrame) :
    ((places previous frames).map Prod.fst).Pairwise (· < ·) := by
  induction frames generalizing previous with
  | nil => exact .nil
  | cons m rest ih => exact .cons (fun p member => lt_of_places member) (ih _)

namespace Simulation

variable {s : Simulation} {pool : Pool} {map : StackMap}

theorem Written.mem_positions (written : s.Written s.recorded.keys none pool map.frames) {p : Nat} :
    p ∈ map.positions ↔ s.recordedAt p ≠ [] := by
  constructor
  · intro member
    obtain ⟨⟨q, m⟩, placed, rfl⟩ := List.mem_map.mp member
    obtain ⟨_, j, joins, _⟩ := written.frame q m placed
    intro empty
    simp [joined, empty] at joins
  · intro recorded
    obtain ⟨m, placed⟩ := written.exists_of_recorded recorded
    exact List.mem_map.mpr ⟨_, placed, rfl⟩

end Simulation

namespace Body

structure FramesPlaced (b : Body) (this : BinaryName) (layout : Layout) (map : StackMap)
    (code : Code) (pool : Pool) : Prop where
  increasing : map.positions.Pairwise (· < ·)
  within : ∀ p ∈ map.positions, p ≤ code.code.length
  short : code.code.length ≤ 65535
  listed : ∀ p, p ∈ map.positions ↔ (layout.Site p ∧ b.ComesTo this layout pool p) ∨
    b.Hollow this layout pool p

theorem frames_placed (config : Config) (this : BinaryName) (b : Body) (pool mid final : Pool)
    (code : Code) (layout : Layout) (made : pool.Made)
    (accepted : b.assemble config this pool = .ok code final)
    (laidOut : b.layOut pool = .ok layout mid) :
    ∃ simulation map, b.Assembled this layout simulation map code final ∧
      b.FramesPlaced this layout map code final := by
  obtain ⟨laid, whole, small⟩ := laid_of_assemble made accepted laidOut
  obtain ⟨simulation, map, assembled, _, written⟩ := of_assemble made accepted laidOut
  have length : code.code.length = layout.position :=
    (length_of_assemble accepted laidOut).trans laid.size_code
  refine ⟨simulation, map, assembled, MapFrame.pairwise_places _ _, ?_, by omega, ?_⟩
  · intro p member
    rw [length]
    exact recorded_le_position laid assembled.simulated p
      (Simulation.mem_recorded_of_recordedAt (written.mem_positions.mp member))
  · intro p
    rw [written.mem_positions]
    exact recordedAt_iff laid whole.coherent small assembled.runs

/-- There is a frame for a handler that is in no entry. -/
theorem frames_placed_hollow : ∃ layout mid code final simulation map,
    hollow.layOut .empty = .ok layout mid ∧ hollow.assemble {} .object .empty = .ok code final ∧
    hollow.Assembled .object layout simulation map code final ∧
    hollow.FramesPlaced .object layout map code final ∧ code.handlers = [] ∧ 3 ∈ map.positions := by
  obtain ⟨layout, mid, s, t, later, last, u, f, laidOut, simulated, finished, room, table, cut,
      reached, present⟩ : ∃ layout mid s t later last u f,
      hollow.layOut .empty = .ok layout mid ∧ hollow.simulate .object layout = .ok s ∧
      s.finish mid = .ok t later ∧ later.entries.next + 2 ≤ 65535 ∧ layout.handlers.toList = [] ∧
      layout.sights.toList = [.label ⟨0⟩ 0] ++ .enterTry ⟨3⟩ none :: last ∧
      Simulation.run (layout.scene .object) (Frame.ofArguments []) [.label ⟨0⟩ 0] = .ok u ∧
      u.state = some f :=
    ⟨_, _, _, _, _, _, _, _, by cbv, by cbv, by cbv, by cbv, by cbv, by cbv, by cbv, by cbv⟩
  obtain ⟨code, final, accepted⟩ := exists_assemble {} laidOut simulated finished room
  obtain ⟨simulation, map, assembled, placed⟩ :=
    frames_placed _ _ _ _ _ _ _ _ .refl accepted laidOut
  refine ⟨layout, mid, code, final, simulation, map, laidOut, accepted, assembled, placed,
    assembled.handlers.trans table, (placed.listed 3).mpr (.inr ?_)⟩
  exact ⟨_, List.mem_cons_self, rfl, rfl, _, last, u, f, cut, reached, present⟩

end Body

end Bytecode
