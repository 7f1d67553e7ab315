import Bytecode.Proofs.Table

/-! Assembled bodies. What is laid out is a track for the simulation, and the code of a body is put
together from the layout, a whole run of the simulation along it, and the table written then. -/
namespace Bytecode

section

variable {pool : Pool} {steps : List Step} {position : Nat}

theorem mem_of_timeline {n : Nat} {step : Step} (h : (n, step) ∈ timeline pool position steps) :
    step ∈ steps := by
  rw [← timeline_map_snd pool position steps]
  exact List.mem_map.mpr ⟨_, h, rfl⟩

theorem split_of_timeline {n : Nat} {step : Step} (h : (n, step) ∈ timeline pool position steps) :
    ∃ before after, steps = before ++ step :: after ∧ n = reach pool position before := by
  induction steps generalizing position with
  | nil => cases h
  | cons x rest ih =>
    rcases List.mem_cons.mp h with same | later
    · cases same
      exact ⟨[], rest, rfl, rfl⟩
    · obtain ⟨before, after, rfl, rfl⟩ := ih later
      exact ⟨x :: before, after, rfl, rfl⟩

theorem jump_of_sight {test : Option Test} {source target : Label}
    (h : .jump test source target ∈ sightsOf (timeline pool position steps)) :
    .jump test source target ∈ steps := by
  obtain ⟨⟨n, step⟩, member, seen⟩ := List.mem_flatMap.mp h
  cases step <;> simp [Step.sights] at seen
  obtain ⟨rfl, rfl, rfl⟩ := seen
  exact mem_of_timeline member

theorem leaf_of_sight {o : Outcome} {l : Leaf} {n : Nat}
    (h : .insn o l n ∈ sightsOf (timeline pool position steps)) : .leaf o l ∈ steps := by
  obtain ⟨⟨m, step⟩, member, seen⟩ := List.mem_flatMap.mp h
  cases step <;> simp [Step.sights] at seen
  obtain ⟨rfl, rfl, rfl⟩ := seen
  exact mem_of_timeline member

end

def Layout.scene (layout : Layout) (this : BinaryName) : Scene :=
  ⟨this, layout.labels, layout.wanted⟩

namespace Layout.Laid

variable {t : Tree} {pool : Pool} {layout : Layout}

theorem label_iff (laid : layout.Laid t pool) (l : Label) (n : Nat) :
    layout.labels.settled? l = some n ↔ .label l n ∈ layout.sights.toList := by
  rw [laid.labels, laid.sights, label_mem_sightsOf]

theorem settled_le (laid : layout.Laid t pool) {l : Label} {n : Nat}
    (h : layout.labels.settled? l = some n) : n ≤ layout.position := by
  obtain ⟨step, member, _⟩ := (laid.labels l n).mp h
  obtain ⟨before, after, whole, rfl⟩ : ∃ before after, t.steps none = before ++ step :: after ∧
      n = reach pool 0 before := split_of_timeline member
  rw [laid.position, whole]
  exact reach_le_append pool 0 before _

theorem jump_ends (laid : layout.Laid t pool) {test : Option Test} {source target : Label}
    (member : .jump test source target ∈ t.steps none) :
    ∃ q p, layout.labels.settled? source = some q ∧ layout.labels.settled? target = some p ∧
      layout.wanted.contains q ∧ layout.wanted.contains p := by
  obtain ⟨q, p, hs, ht, _⟩ := laid.reaches _ member
  have noted : (q, p) ∈ layout.jumps.toList := by
    rw [laid.jumps]
    refine List.mem_flatMap.mpr ⟨_, member, ?_⟩
    simp [Step.hops, Labels.spot_eq hs, Labels.spot_eq ht]
  refine ⟨q, p, hs, ht, ?_, ?_⟩
  · exact (layout.contains_wanted q).mpr (.inl ⟨_, noted, .inl rfl⟩)
  · exact (layout.contains_wanted p).mpr (.inl ⟨_, noted, .inr rfl⟩)

theorem entry_handler (laid : layout.Laid t pool) (small : layout.position ≤ 65535) {g : Guard}
    {caught : Option BinaryName} (member : .enter g caught ∈ t.steps none) :
    layout.labels.settled? g.handler =
      some (Step.entry pool layout.labels g caught).handler.toNat := by
  have placed := Tree.placed_of_enter t none member g.handler (by simp [Step.named])
  obtain ⟨n, seen⟩ : ∃ n, .label g.handler n ∈ sightsOf (t.course pool) := label_of_place placed
  have settled : layout.labels.settled? g.handler = some n := by
    rw [laid.label_iff, laid.sights]
    exact seen
  have bound := laid.settled_le settled
  rw [settled, Step.entry, Labels.spot_eq settled, toNat_toUInt16 (by omega)]

theorem track (laid : layout.Laid t pool) (hp : pool.Coherent) (small : layout.position ≤ 65535)
    (this : BinaryName) :
    Track pool (layout.scene this) layout.handlers.toList layout.sights.toList := by
  have placed : ∀ l n, PlacedAt (t.course pool) l n → layout.labels.settled? l = some n :=
    fun l n h => (laid.labels l n).mpr h
  have solid : ∀ o l n, .insn o l n ∈ layout.sights.toList → 0 < (l.octets pool).length := by
    intro o l n seen
    rw [laid.sights] at seen
    exact Leaf.octets_pos hp (laid.ready _ (leaf_of_sight seen))
  refine ⟨?_, solid, laid.label_iff, ?_, ?_, ?_, ?_, ?_⟩
  · rw [laid.sights]
    exact pairwise_sightsOf placed
  · intro p wanted
    rcases (layout.contains_wanted p).mp wanted with ⟨j, noted, ends⟩ | ⟨h, entry, rfl⟩
    · rw [laid.jumps] at noted
      obtain ⟨step, member, made⟩ := List.mem_flatMap.mp noted
      cases step with
      | jump test source target =>
        obtain ⟨q, r, hs, ht, _⟩ := laid.jump_ends member
        simp only [Step.hops, List.mem_singleton, Labels.spot_eq hs, Labels.spot_eq ht] at made
        subst made
        rcases ends with rfl | rfl
        · exact ⟨source, (laid.label_iff _ _).mp hs⟩
        · exact ⟨target, (laid.label_iff _ _).mp ht⟩
      | _ => cases made
    · obtain ⟨g, caught, member, rfl⟩ := laid.exists_enter entry
      exact ⟨g.handler, (laid.label_iff _ _).mp (laid.entry_handler small member)⟩
  · intro test source target seen
    rw [laid.sights] at seen
    exact laid.jump_ends (jump_of_sight seen)
  · intro h entry
    exact (layout.contains_wanted _).mpr (.inr ⟨h, entry, rfl⟩)
  · intro first last cut e force
    rw [laid.sights] at cut
    have nested : Within [] [] (t.steps none ++ []) := t.within_steps none rfl
    rw [List.append_nil] at nested
    exact label_of_active nested cut force
  · intro first o l n last cut h entry low high name catches
    have inside : .insn o l n ∈ layout.sights.toList := by rw [cut]; simp
    obtain ⟨g, caught, member, rfl, force⟩ :=
      active_of_covered laid small cut (solid o l n inside) entry low high
    refine ⟨g.handler, Labels.spot_eq (laid.entry_handler small member), ?_⟩
    -- The class that the entry names in the pool is the one that the guard catches.
    have same : caught.getD .throwable = name := by
      cases caught with
      | none => exact catches.symm
      | some c =>
        have named := Pool.class?_of_classRef hp (laid.ready _ member)
        simp only [Handler.Catches, Step.entry, Option.map_some] at catches
        rw [named] at catches
        cases c
        cases name
        simpa [RefType.className] using catches
    rw [← same]
    exact force

end Layout.Laid

theorem Pool.exists_utf8 {text : String} {p : Pool} (short : Modified.length text ≤ 65535)
    (room : p.entries.next + 1 ≤ 65535) :
    ∃ i q, utf8 text p = .ok i q ∧ q.entries.next ≤ p.entries.next + 1 := by
  have asks : utf8 text p = intern (.utf8 text) p := by
    unfold utf8
    rw [if_neg (by omega)]
  rcases intern_cases (.utf8 text) p with ⟨i, _, done⟩ | ⟨full, _⟩ | ⟨_, _, done⟩
  · exact ⟨i, p, asks.trans done, by omega⟩
  · have narrow : width (Constant.utf8 text) = 1 := rfl
    omega
  · exact ⟨_, _, asks.trans done, Nat.le_refl _⟩

theorem Pool.exists_named {name : String} {p : Pool} (short : Modified.length name ≤ 65535)
    (room : p.entries.next + 1 ≤ 65535) (info : Octets) :
    ∃ a q, named name info p = .ok a q ∧ q.entries.next ≤ p.entries.next + 1 := by
  obtain ⟨i, q, done, grown⟩ := exists_utf8 short room
  exact ⟨⟨i, info⟩, q, bind_of_ok done _, grown⟩

theorem Simulation.Written.mono {s : Simulation} {keys : List Nat} {previous : Option Nat}
    {p q : Pool} {frames : List MapFrame} (written : Written s keys previous p frames)
    (grown : p.Extends q) : Written s keys previous q frames := by
  constructor
  · intro n m member
    obtain ⟨inside, j, joins, wire⟩ := written.frame n m member
    exact ⟨inside, j, joins, j.asks_full.interns.again _ _ _ _ wire grown⟩
  · exact written.complete

namespace Body

/-- The state held at a position once all labels there are placed. -/
def held (b : Body) (this : BinaryName) (layout : Layout) (p : Nat) : Option Frame :=
  Simulation.heldAt (layout.scene this) (Frame.ofArguments b.entry) layout.sights.toList p

structure Assembled (b : Body) (this : BinaryName) (layout : Layout) (simulation : Simulation)
    (map : StackMap) (code : Code) (final : Pool) : Prop where
  simulated : b.simulate this layout = .ok simulation
  handlers : code.handlers = layout.handlers.toList
  attributes : ∃ name lines, final.text? name = some "StackMapTable" ∧
    code.attributes = [⟨name, Octets.counted MapFrame.encode map.frames⟩, lines]

variable {config : Config} {this : BinaryName} {b : Body} {pool mid final : Pool} {code : Code}
  {layout : Layout}

theorem Assembled.runs {simulation : Simulation} {map : StackMap}
    (h : b.Assembled this layout simulation map code final) :
    Simulation.Runs (layout.scene this) (.start (Frame.ofArguments b.entry)) layout.sights.toList
      simulation := h.simulated

theorem recorded_le_position {t : Tree} (laid : layout.Laid t mid) {simulation : Simulation}
    (simulated : b.simulate this layout = .ok simulation) :
    ∀ p ∈ simulation.recorded, p ≤ layout.position := by
  have ran : Simulation.Runs (layout.scene this) (.start (Frame.ofArguments b.entry))
      layout.sights.toList simulation := simulated
  refine ran.recorded_le ?_ ?_ ?_
  · exact fun l n settled => laid.settled_le settled
  · exact fun l n seen => laid.settled_le ((laid.label_iff l n).mpr seen)
  · intro p recorded
    exact absurd recorded Std.TreeMap.not_mem_emptyc

theorem recorded_small {t : Tree} (laid : layout.Laid t mid) (small : layout.position ≤ 65535)
    {simulation : Simulation} (simulated : b.simulate this layout = .ok simulation) :
    ∀ p ∈ simulation.recorded, p ≤ 65535 := by
  intro p recorded
  exact Nat.le_trans (recorded_le_position laid simulated p recorded) small

/-- Nothing but the names of its attributes is asked for after the table of a body is written. -/
theorem exists_assemble_le {simulation : Simulation} {map : StackMap} (config : Config)
    (laidOut : b.layOut pool = .ok layout mid) (simulated : b.simulate this layout = .ok simulation)
    (finished : simulation.finish mid = .ok map final) (room : final.entries.next + 2 ≤ 65535) :
    ∃ code later, b.assemble config this pool = .ok code later ∧
      later.entries.next ≤ final.entries.next + 2 := by
  have first : Modified.length "StackMapTable" ≤ 65535 := by cbv
  have second : Modified.length "LineNumberTable" ≤ 65535 := by cbv
  unfold assemble
  rw [bind_of_ok laidOut]
  simp only [simulated]
  rw [bind_of_ok finished]
  unfold Pool.stackMapTable Pool.lineNumberTable
  obtain ⟨frames, p, framed, grown⟩ := Pool.exists_named first (p := final) (by omega)
    (Octets.counted MapFrame.encode map.frames)
  rw [bind_of_ok framed]
  obtain ⟨lines, q, lined, grown'⟩ := Pool.exists_named second (p := p) (by omega) _
  rw [bind_of_ok lined]
  exact ⟨_, _, rfl, by omega⟩

theorem exists_assemble {simulation : Simulation} {map : StackMap} (config : Config)
    (laidOut : b.layOut pool = .ok layout mid) (simulated : b.simulate this layout = .ok simulation)
    (finished : simulation.finish mid = .ok map final) (room : final.entries.next + 2 ≤ 65535) :
    ∃ code later, b.assemble config this pool = .ok code later := by
  obtain ⟨code, later, done, _⟩ := exists_assemble_le config laidOut simulated finished room
  exact ⟨code, later, done⟩

theorem parts_of_assemble (accepted : b.assemble config this pool = .ok code final)
    (laidOut : b.layOut pool = .ok layout mid) :
    ∃ simulation map later frames third lines,
      b.simulate this layout = .ok simulation ∧ simulation.finish mid = .ok map later ∧
      Pool.stackMapTable map.frames later = .ok frames third ∧ third.Grows final ∧
      code.handlers = layout.handlers.toList ∧ code.attributes = [frames, lines] ∧
      code.code = (if config.elide then map.redundant.foldl blank layout.code
        else layout.code).toList := by
  obtain ⟨layout', mid', first, accepted⟩ := exists_of_bind accepted
  rw [laidOut] at first
  cases first
  cases simulated : b.simulate this layout with
  | error e =>
    simp only [simulated] at accepted
    cases accepted
  | ok simulation =>
    simp only [simulated] at accepted
    obtain ⟨map, later, finished, accepted⟩ := exists_of_bind accepted
    obtain ⟨frames, third, framed, accepted⟩ := exists_of_bind accepted
    obtain ⟨lines, fourth, lined, accepted⟩ := exists_of_bind accepted
    cases accepted
    exact ⟨simulation, map, later, frames, third, lines, rfl, finished, framed,
      (Pool.asks_named _ _).interns.grows_ok lined, rfl, rfl, rfl⟩

theorem laid_of_assemble (made : pool.Made) (accepted : b.assemble config this pool = .ok code final)
    (laidOut : b.layOut pool = .ok layout mid) :
    layout.Laid b.tree final ∧ final.Made ∧ layout.position ≤ 65535 := by
  obtain ⟨simulation, map, later, frames, third, lines, simulated, finished, framed, last, _⟩ :=
    parts_of_assemble accepted laidOut
  obtain ⟨laid, begun, small⟩ := Layout.of_layOut laidOut
  have wrote := (Simulation.finish_ok (recorded_small laid small simulated) finished).1
  have after := wrote.trans (((Pool.asks_named _ _).interns.grows_ok framed).trans last)
  exact ⟨laid.mono after.extends, made.trans (begun.trans after), small⟩

/-- The map of a body that was assembled, and what is known of it in terms of the pool in the
end. -/
theorem map_of_assemble (made : pool.Made)
    (accepted : b.assemble config this pool = .ok code final)
    (laidOut : b.layOut pool = .ok layout mid) :
    ∃ simulation map later, simulation.finish mid = .ok map later ∧
      b.Assembled this layout simulation map code final ∧
      simulation.Written simulation.recorded.keys none final map.frames := by
  obtain ⟨laid, whole, small⟩ := laid_of_assemble made accepted laidOut
  obtain ⟨simulation, map, later, frames, third, lines, simulated, finished, framed, last, handlers,
    attributes, _⟩ := parts_of_assemble accepted laidOut
  have written := (Simulation.finish_ok (recorded_small laid small simulated) finished).2
  have after := ((Pool.asks_named _ _).interns.grows_ok framed).trans last
  refine ⟨simulation, map, later, finished, ⟨simulated, handlers, ?_⟩, written.mono after.extends⟩
  obtain ⟨name, asked, done⟩ :=
    (Pool.interns_ask (.utf8 "StackMapTable")).parts (fun _ => .pure _) framed last.extends
  cases done
  exact ⟨name, lines, Pool.text?_of_utf8 whole.coherent asked, attributes⟩

/-- What is known of a body that was assembled, in terms of the pool in the end. -/
theorem of_assemble (made : pool.Made) (accepted : b.assemble config this pool = .ok code final)
    (laidOut : b.layOut pool = .ok layout mid) :
    ∃ simulation map, b.Assembled this layout simulation map code final ∧
      Track final (layout.scene this) code.handlers layout.sights.toList ∧
      simulation.Written simulation.recorded.keys none final map.frames := by
  obtain ⟨laid, whole, small⟩ := laid_of_assemble made accepted laidOut
  obtain ⟨simulation, map, _, _, assembled, written⟩ := map_of_assemble made accepted laidOut
  refine ⟨simulation, map, assembled, ?_, written⟩
  rw [assembled.handlers]
  exact laid.track whole.coherent small this

end Body

end Bytecode
