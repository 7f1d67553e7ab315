import Bytecode.Proofs.References

/-! Casts left out and casts kept. Whether redundant casts are written or left out, a body is refused
with the same error, or else everything but the bytes of these casts is the same. Each such cast is a
whole instruction, and shares no byte with another one. -/
namespace Bytecode

def Sight.cast? : Sight → Option Nat
  | insn _ (.cast _) n => some n
  | _ => none

namespace Simulation

variable {scene : Scene} {s s' : Simulation} {sights : List Sight}

theorem notes_sublist (s : Simulation) (x : Sight) :
    (s.notes x).reverse.Sublist x.cast?.toList := by
  cases x with
  | insn o l n =>
    cases present : s.state with
    | none => simp [notes, present]
    | some f =>
      by_cases redundant : isRedundant l f
      · obtain ⟨r, rfl, _⟩ := isRedundant_iff.mp redundant
        simp [notes, present, redundant, Sight.cast?]
      · simp [notes, present, redundant]
  | _ => simp [notes]

theorem Runs.redundant_sublist (ran : Runs scene s sights s') :
    ∃ more, s'.redundant = more ++ s.redundant ∧
      more.reverse.Sublist (sights.filterMap Sight.cast?) := by
  induction sights generalizing s with
  | nil =>
    cases ran
    exact ⟨[], rfl, .slnil⟩
  | cons x rest ih =>
    obtain ⟨t, sees, later⟩ := runs_cons.mp ran
    obtain ⟨more, noted, sublist⟩ := ih later
    refine ⟨more ++ s.notes x, by rw [noted, (see_ok sees).redundant, List.append_assoc], ?_⟩
    simp only [List.filterMap_eq_flatMap_toList] at sublist ⊢
    rw [List.reverse_append, List.flatMap_cons]
    exact (s.notes_sublist x).append sublist

end Simulation

section

variable {pool : Pool} {labels : Labels}

theorem exists_decode_steps (hp : pool.Coherent) {steps : List Step}
    (ready : ∀ step ∈ steps, step.Ready pool) :
    ∃ insns, decode 0 (steps.flatMap (Step.octets pool labels)) = some insns := by
  have spells : Spells (fun i => pool.ServesAll i.uses)
      (steps.flatMap (Step.octets pool labels)) := by
    induction steps with
    | nil => exact .nil
    | cons step rest ih =>
      rw [List.flatMap_cons]
      exact (step.spells_octets hp (ready step (by simp))).append
        (ih fun x member => ready x (by simp [member]))
  obtain ⟨insns, decoded, _⟩ := spells.exists_decode 0
  exact ⟨insns, decoded⟩

end

/-- An instruction that names a class stands at a position of code: whole instructions come before
it, and its index leads to the class. -/
def NamesAt (pool : Pool) (code : Octets) (q : Nat) (opcode : UInt8) (r : RefType) : Prop :=
  ∃ before index after, code = before ++ (opcode :: Octets.u16 index ++ after) ∧ before.length = q ∧
    (∃ insns, decode 0 before = some insns) ∧ pool.class? index = some r.className

namespace NamesAt

variable {pool : Pool} {code : Octets} {q : Nat} {opcode : UInt8} {r : RefType}

theorem room (h : NamesAt pool code q opcode r) : q + 3 ≤ code.length := by
  obtain ⟨before, index, after, rfl, rfl, _⟩ := h
  simp only [List.length_append, List.length_cons, Octets.u16, List.length_nil]
  omega

theorem getElem? (h : NamesAt pool code q opcode r) : code[q]? = some opcode := by
  obtain ⟨before, index, after, rfl, rfl, _⟩ := h
  simp

end NamesAt

namespace Layout.Laid

variable {t : Tree} {pool : Pool} {layout : Layout} {o : Outcome} {q : Nat}

theorem namesAt {l : Leaf} {r : RefType} {opcode : UInt8} (laid : layout.Laid t pool)
    (hp : pool.Coherent) (seen : .insn o l q ∈ layout.sights.toList)
    (encodes : l.encode = do
      let index ← Pool.classRef r
      return Leaf.indexed opcode index) :
    NamesAt pool layout.code.toList q opcode r := by
  rw [laid.sights] at seen
  obtain ⟨before, after, steps, rfl⟩ := split_of_timeline (leaf_mem_of_sight seen)
  have ready : l.encode pool = .ok (l.octets pool) pool :=
    laid.ready (.leaf o l) (leaf_of_sight seen)
  rw [encodes] at ready
  obtain ⟨index, asked, done⟩ :=
    (Pool.interns_ask (.classRef r)).parts (fun _ => .pure _) ready (.refl pool)
  injection done with bytes
  refine ⟨before.flatMap (Step.octets pool layout.labels), index,
    after.flatMap (Step.octets pool layout.labels), ?_, ?_, ?_, Pool.class?_of_classRef hp asked⟩
  · rw [laid.code, steps, List.flatMap_append, List.flatMap_cons, Step.octets, ← bytes]
    rfl
  · rw [← flatMap_octets_length layout.labels, Nat.zero_add]
  · exact exists_decode_steps hp fun step member => laid.ready step (by simp [steps, member])

end Layout.Laid

/-- Two codes that are the same but for casts: at the given positions these are written in the first,
and left out in the second. -/
structure Code.Blanks (pool : Pool) (casts : List Nat) (kept gone : Code) : Prop where
  maxStack : gone.maxStack = kept.maxStack
  maxLocals : gone.maxLocals = kept.maxLocals
  handlers : gone.handlers = kept.handlers
  attributes : gone.attributes = kept.attributes
  length : gone.code.length = kept.code.length
  within : ∀ q ∈ casts, q + 3 ≤ kept.code.length
  apart : casts.Pairwise fun p q => p + 3 ≤ q
  whole : ∀ q ∈ casts, ∃ r, NamesAt pool kept.code q Opcode.cast r
  nops : ∀ q ∈ casts, ∀ i < 3, gone.code[q + i]? = some Opcode.nop
  others : ∀ k, (∀ q ∈ casts, k < q ∨ q + 3 ≤ k) → gone.code[k]? = kept.code[k]?

namespace Body

def Maps (b : Body) (this : BinaryName) (pool : Pool) (map : StackMap) : Prop :=
  ∃ layout mid simulation later, b.layOut pool = .ok layout mid ∧
    b.simulate this layout = .ok simulation ∧ simulation.finish mid = .ok map later

variable {this : BinaryName} {b : Body} {pool : Pool}

theorem Maps.eq {map map' : StackMap} (maps : b.Maps this pool map) {layout : Layout}
    {mid later : Pool} {simulation : Simulation} (laidOut : b.layOut pool = .ok layout mid)
    (simulated : b.simulate this layout = .ok simulation)
    (finished : simulation.finish mid = .ok map' later) : map = map' := by
  obtain ⟨_, _, _, _, first, second, third⟩ := maps
  rw [laidOut] at first
  cases first
  rw [simulated] at second
  cases second
  rw [finished] at third
  cases third
  rfl

/-- Whether a body is refused, and what it is assembled to but for its bytes, is the same for every
configuration. -/
theorem assemble_cases (this : BinaryName) (b : Body) (pool : Pool) :
    (∃ e left, ∀ config, b.assemble config this pool = .error e left) ∨
    ∃ layout mid simulation map later frames lines final, b.layOut pool = .ok layout mid ∧
      b.simulate this layout = .ok simulation ∧ simulation.finish mid = .ok map later ∧
      ∀ config, b.assemble config this pool =
        .ok ⟨map.maxStack, max map.maxLocals b.locals,
          (if config.elide then map.redundant.foldl blank layout.code else layout.code).toList,
          layout.handlers.toList, [frames, lines]⟩ final := by
  unfold assemble
  cases laidOut : b.layOut pool with
  | error e left => exact .inl ⟨e, left, fun config => bind_of_error laidOut _⟩
  | ok layout mid =>
    simp only [bind_of_ok laidOut]
    cases simulated : b.simulate this layout with
    | error e => exact .inl ⟨e, mid, fun config => rfl⟩
    | ok simulation =>
      dsimp only
      cases finished : simulation.finish mid with
      | error e left => exact .inl ⟨e, left, fun config => bind_of_error finished _⟩
      | ok map later =>
        simp only [bind_of_ok finished]
        cases framed : Pool.stackMapTable map.frames later with
        | error e left => exact .inl ⟨e, left, fun config => bind_of_error framed _⟩
        | ok frames third =>
          simp only [bind_of_ok framed]
          -- The length of the code, and with it the table of lines, does not depend on the casts.
          have size : ∀ config : Config, (if config.elide then map.redundant.foldl blank layout.code
              else layout.code).size = layout.code.size := by
            intro config
            split
            · exact size_foldl_blank _ _
            · rfl
          simp only [size]
          cases lined : Pool.lineNumberTable (Lines.table layout.sights.toList layout.code.size)
              third with
          | error e left => exact .inl ⟨e, left, fun config => bind_of_error lined _⟩
          | ok lines final =>
            refine .inr ⟨layout, mid, simulation, map, later, frames, lines, final, rfl, simulated,
              finished, fun config => ?_⟩
            rw [bind_of_ok lined]
            rfl

theorem redundant_apart {layout : Layout} {simulation : Simulation} {handlers : List Handler}
    (laid : layout.Laid b.tree pool)
    (track : Track pool (layout.scene this) handlers layout.sights.toList)
    (simulated : b.simulate this layout = .ok simulation) :
    simulation.redundant.reverse.Pairwise fun p q => p + 3 ≤ q := by
  obtain ⟨more, noted, sublist⟩ := Simulation.Runs.redundant_sublist simulated
  rw [noted, Simulation.start, List.append_nil]
  refine List.Pairwise.sublist sublist (List.pairwise_filterMap.mpr ?_)
  refine track.sorted.imp_of_mem fun {x y} first second before p here q there => ?_
  cases x with
  | insn o l n =>
    cases l with
    | cast r =>
      cases here
      cases y with
      | insn o' l' m =>
        cases l' with
        | cast r' =>
          cases there
          have ends := before _ _ rfl rfl
          rwa [Leaf.length_octets_cast (laid.ready_cast first)] at ends
        | _ => cases there
      | _ => cases there
    | _ => cases here
  | _ => cases here

/-- With redundant casts left out or kept, a body is refused with the same error, or it is assembled
to code that differs only where these casts stand. -/
theorem elision_blanks_casts (config : Config) (this : BinaryName) (b : Body) (pool : Pool)
    (made : pool.Made) :
    (∃ e left, b.assemble { config with elide := true } this pool = .error e left ∧
      b.assemble { config with elide := false } this pool = .error e left) ∨
    ∃ gone kept final map, b.assemble { config with elide := true } this pool = .ok gone final ∧
      b.assemble { config with elide := false } this pool = .ok kept final ∧
      b.Maps this pool map ∧ Code.Blanks final map.redundant kept gone := by
  rcases assemble_cases this b pool with ⟨e, left, refused⟩ |
    ⟨layout, mid, simulation, map, later, frames, lines, final, laidOut, simulated, finished, all⟩
  · exact .inl ⟨e, left, refused _, refused _⟩
  have keeping := all { config with elide := false }
  have leaving := all { config with elide := true }
  obtain ⟨laid, whole, _⟩ := laid_of_assemble made keeping laidOut
  obtain ⟨_, _, _, track, _⟩ := of_assemble made keeping laidOut
  have positions : map.redundant = simulation.redundant.reverse := by
    obtain ⟨_, _, _, done⟩ := exists_of_bind finished
    cases done
    rfl
  have casts : ∀ q ∈ map.redundant, ∃ r, NamesAt final layout.code.toList q Opcode.cast r := by
    intro q member
    rw [positions, List.mem_reverse] at member
    obtain ⟨o, r, _, seen, _⟩ := (track.mem_redundant simulated).mp member
    exact ⟨r, laid.namesAt whole.coherent seen rfl⟩
  have room : ∀ q ∈ map.redundant, q + 3 ≤ layout.code.size := by
    intro q member
    obtain ⟨r, names⟩ := casts q member
    exact names.room
  refine .inr ⟨_, _, final, map, leaving, keeping,
    ⟨layout, mid, simulation, later, laidOut, simulated, finished⟩, ?_⟩
  refine ⟨rfl, rfl, rfl, rfl, ?_, room, ?_, casts, ?_, ?_⟩
  · simp [size_foldl_blank]
  · rw [positions]
    exact redundant_apart laid track simulated
  · intro q member i low
    simp only [if_true, Array.getElem?_toList]
    rw [getElem?_foldl_blank room, if_pos ⟨q, member, by omega, by omega⟩]
  · intro k outside
    simp only [if_true, Array.getElem?_toList]
    rw [getElem?_foldl_blank room, if_neg]
    · rfl
    · rintro ⟨q, member, low, high⟩
      have := outside q member
      omega

theorem elision_blanks_casts_guarding : ∃ gone kept final map,
    guarding.assemble { elide := true } .object .empty = .ok gone final ∧
    guarding.assemble { elide := false } .object .empty = .ok kept final ∧
    guarding.Maps .object .empty map ∧ Code.Blanks final map.redundant kept gone ∧
    map.redundant = [1] ∧ kept.code[1]? = some Opcode.cast ∧ gone.code[1]? = some Opcode.nop := by
  obtain ⟨layout, mid, s, map, later, laidOut, simulated, finished, room, noted⟩ :
      ∃ layout mid s map later, guarding.layOut .empty = .ok layout mid ∧
        guarding.simulate .object layout = .ok s ∧ s.finish mid = .ok map later ∧
        later.entries.next + 2 ≤ 65535 ∧ map.redundant = [1] :=
    ⟨_, _, _, _, _, by cbv, by cbv, by cbv, by cbv, by cbv⟩
  obtain ⟨code, final, accepted⟩ :=
    exists_assemble { elide := true } laidOut simulated finished room
  rcases elision_blanks_casts {} .object guarding .empty .refl with ⟨e, left, refused, _⟩ |
    ⟨gone, kept, final', map', leaving, keeping, maps, blanks⟩
  · rw [accepted] at refused
    cases refused
  obtain rfl := maps.eq laidOut simulated finished
  have here : 1 ∈ map'.redundant := by simp [noted]
  obtain ⟨r, names⟩ := blanks.whole 1 here
  exact ⟨gone, kept, final', map', leaving, keeping, maps, blanks, noted, names.getElem?,
    blanks.nops 1 here 0 (by decide)⟩

end Body

end Bytecode
