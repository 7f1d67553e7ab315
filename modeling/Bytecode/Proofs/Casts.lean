import Bytecode.Proofs.Paths

/-! Casts that are left out. A cast is redundant where the state held has the wanted type on top of
the stack, and only the bytes of such casts are written over. A value that comes to where a cast was
left out has the type it would be cast to, as long as the state held there says no more than what
holds on every path. -/
namespace Bytecode

namespace Simulation

variable {scene : Scene} {initial : Frame} {sights : List Sight} {s s' : Simulation} {x : Sight}
  {q : Nat}

def kept? (scene : Scene) (initial : Frame) (sights : List Sight) : Sight → Bool
  | .insn _ l q => (heldAt scene initial sights q).all (·.keeps l)
  | _ => true

theorem loadsKept_iff_all :
    LoadsKept scene initial sights ↔ sights.all (kept? scene initial sights) := by
  rw [List.all_eq_true]
  constructor
  · intro kept x seen
    cases x with
    | insn o l q =>
      simp only [kept?, Option.all_eq_true_iff_get]
      exact fun present => kept o l q _ seen (Option.some_get present).symm
    | _ => rfl
  · intro all o l q f seen held
    have here := all _ seen
    simpa [kept?, held] using here

instance : Decidable (LoadsKept scene initial sights) :=
  decidable_of_iff _ loadsKept_iff_all.symm

theorem calm_iff : s.Calm ↔ ∀ p ∈ s.recorded.keys, ¬ Frame.Clashes (s.recordedAt p) := by
  constructor
  · exact fun calm p _ => calm p
  · intro calm p clashes
    refine calm p (Std.TreeMap.mem_keys.mpr (mem_recorded_of_recordedAt ?_)) clashes
    obtain ⟨a, member, _⟩ := clashes
    exact List.ne_nil_of_mem member

instance : Decidable s.Calm := decidable_of_iff _ calm_iff.symm

theorem Written.exists_joined {previous : Option Nat} {pool : Pool} {frames : List MapFrame}
    (written : Written s s.recorded.keys previous pool frames) (p : Nat) :
    ∃ r, s.joined p = .ok r := by
  cases whole : s.recordedAt p with
  | nil => exact ⟨none, by simp [joined, whole]⟩
  | cons first others =>
    obtain ⟨m, inside⟩ := written.exists_of_recorded (p := p) (by simp [whole])
    obtain ⟨_, j, joins, _⟩ := written.frame p m inside
    exact ⟨j, joins⟩

theorem isRedundant_iff {l : Leaf} {f : Frame} :
    isRedundant l f ↔ ∃ r, l = .cast r ∧ f.stack.last? = some (.object r) := by
  unfold isRedundant
  split <;> simp_all [eq_comm]

theorem mem_notes : q ∈ s.notes x ↔ ∃ o r f, x = .insn o (.cast r) q ∧ s.state = some f ∧
    f.stack.last? = some (.object r) := by
  constructor
  · intro noted
    cases x with
    | insn o l n =>
      obtain ⟨f, state, here⟩ := List.mem_flatMap.mp noted
      split at here
      · rename_i redundant
        obtain ⟨r, rfl, top⟩ := isRedundant_iff.mp redundant
        rw [List.mem_singleton.mp here]
        exact ⟨o, r, f, rfl, Option.mem_toList.mp state, top⟩
      · cases here
    | _ => cases noted
  · rintro ⟨o, r, f, rfl, state, top⟩
    have redundant : isRedundant (.cast r) f := isRedundant_iff.mpr ⟨r, rfl, top⟩
    simp [notes, state, redundant]

theorem Runs.mem_redundant (ran : Runs scene s sights s') :
    q ∈ s'.redundant ↔ q ∈ s.redundant ∨ ∃ first x last t, sights = first ++ x :: last ∧
      Runs scene s first t ∧ q ∈ t.notes x := by
  induction sights generalizing s with
  | nil =>
    cases ran
    simp
  | cons x rest ih =>
    obtain ⟨t, sees, later⟩ := runs_cons.mp ran
    rw [ih later, (see_ok sees).redundant, List.mem_append]
    constructor
    · rintro ((here | early) | ⟨first, y, last, t', rfl, ran', noted⟩)
      · exact .inr ⟨[], x, rest, s, rfl, rfl, here⟩
      · exact .inl early
      · exact .inr ⟨x :: first, y, last, t', rfl, runs_cons.mpr ⟨t, sees, ran'⟩, noted⟩
    · rintro (early | ⟨first, y, last, t', split, ran', noted⟩)
      · exact .inl (.inr early)
      · cases first with
        | nil =>
          cases split
          cases ran'
          exact .inl (.inl noted)
        | cons z first =>
          cases split
          obtain ⟨t'', sees', ran'⟩ := runs_cons.mp ran'
          rw [sees] at sees'
          cases sees'
          exact .inr ⟨first, y, last, t', rfl, ran', noted⟩

end Simulation

namespace Track

open Simulation

variable {pool : Pool} {scene : Scene} {handlers : List Handler} {sights : List Sight}
  {initial : Frame} {final : Simulation} {q : Nat}

/-- A cast is redundant exactly if the state held has the wanted type on top. -/
theorem mem_redundant (track : Track pool scene handlers sights)
    (ran : Runs scene (start initial) sights final) :
    q ∈ final.redundant ↔ ∃ o r f, .insn o (.cast r) q ∈ sights ∧
      heldAt scene initial sights q = some f ∧ f.stack.last? = some (.object r) := by
  rw [ran.mem_redundant]
  constructor
  · rintro (none | ⟨first, x, last, t, rfl, before, noted⟩)
    · cases none
    · obtain ⟨o, r, f, rfl, state, top⟩ := mem_notes.mp noted
      exact ⟨o, r, f, by simp, (track.heldAt_op rfl rfl before).trans state, top⟩
  · rintro ⟨o, r, f, seen, held, top⟩
    obtain ⟨first, last, t, t', rfl, before, sees, after⟩ := exists_cut ran seen
    have state := track.state_of_held rfl rfl before held
    exact .inr ⟨first, _, last, t, rfl, before, mem_notes.mpr ⟨o, r, f, rfl, state, top⟩⟩

/-- Two instructions are one and the same, or one ends before the other starts. -/
theorem eq_or_apart (track : Track pool scene handlers sights) {o o' : Outcome} {l l' : Leaf}
    {p : Nat} (one : .insn o l p ∈ sights) (two : .insn o' l' q ∈ sights) :
    Sight.insn o l p = .insn o' l' q ∨ p + (l.octets pool).length ≤ q ∨
      q + (l'.octets pool).length ≤ p := by
  obtain ⟨first, last, rfl⟩ := List.append_of_mem one
  rcases List.mem_append.mp two with early | late
  · exact .inr (.inr (track.end_le rfl early rfl))
  · rcases List.mem_cons.mp late with same | late
    · exact .inl same.symm
    · exact .inr (.inl (track.le_start rfl late rfl))

end Track

namespace Leaf

variable {r : RefType} {pool : Pool}

theorem exists_octets_cast (ready : (cast r).encode pool = .ok ((cast r).octets pool) pool) :
    ∃ index, (cast r).octets pool = Opcode.cast :: Octets.u16 index := by
  obtain ⟨index, mid, _, done⟩ := exists_of_bind ready
  injection done with bytes
  exact ⟨index, bytes.symm⟩

theorem length_octets_cast (ready : (cast r).encode pool = .ok ((cast r).octets pool) pool) :
    ((cast r).octets pool).length = 3 := by
  obtain ⟨index, bytes⟩ := exists_octets_cast ready
  rw [bytes]
  rfl

end Leaf

namespace Layout.Laid

variable {t : Tree} {pool : Pool} {layout : Layout} {o : Outcome} {q : Nat}

theorem exists_code {l : Leaf} (laid : layout.Laid t pool)
    (seen : .insn o l q ∈ layout.sights.toList) :
    ∃ before after, layout.code.toList = before ++ (l.octets pool ++ after) ∧ before.length = q := by
  rw [laid.sights] at seen
  obtain ⟨⟨n, step⟩, member, here⟩ := List.mem_flatMap.mp seen
  cases step <;> simp [Step.sights] at here
  obtain ⟨rfl, rfl, rfl⟩ := here
  obtain ⟨before, after, steps, rfl⟩ := split_of_timeline member
  refine ⟨before.flatMap (Step.octets pool layout.labels),
    after.flatMap (Step.octets pool layout.labels), ?_, ?_⟩
  · rw [laid.code, steps, List.flatMap_append, List.flatMap_cons]
    rfl
  · rw [← flatMap_octets_length layout.labels, Nat.zero_add]

theorem ready_cast {r : RefType} (laid : layout.Laid t pool)
    (seen : .insn o (.cast r) q ∈ layout.sights.toList) :
    (Leaf.cast r).encode pool = .ok ((Leaf.cast r).octets pool) pool :=
  laid.ready (.leaf o (.cast r)) (leaf_of_sight (laid.sights ▸ seen))

theorem cast_room {r : RefType} (laid : layout.Laid t pool)
    (seen : .insn o (.cast r) q ∈ layout.sights.toList) : q + 3 ≤ layout.code.size := by
  obtain ⟨before, after, code, rfl⟩ := laid.exists_code seen
  have size := congrArg List.length code
  simp only [Array.length_toList, List.length_append,
    Leaf.length_octets_cast (laid.ready_cast seen)] at size
  omega

theorem getElem?_cast {r : RefType} (laid : layout.Laid t pool)
    (seen : .insn o (.cast r) q ∈ layout.sights.toList) :
    layout.code[q]? = some Opcode.cast := by
  obtain ⟨before, after, code, rfl⟩ := laid.exists_code seen
  obtain ⟨index, bytes⟩ := Leaf.exists_octets_cast (laid.ready_cast seen)
  rw [← Array.getElem?_toList, code, bytes]
  simp

end Layout.Laid

namespace Body

theorem size_blank (code : Array UInt8) (position : Nat) :
    (blank code position).size = code.size := by
  unfold blank
  split <;> simp

theorem size_foldl_blank (positions : List Nat) (code : Array UInt8) :
    (positions.foldl blank code).size = code.size := by
  induction positions generalizing code with
  | nil => rfl
  | cons p rest ih => rw [List.foldl_cons, ih, size_blank]

theorem getElem?_blank {code : Array UInt8} {p : Nat} (room : p + 3 ≤ code.size) (k : Nat) :
    (blank code p)[k]? = if p ≤ k ∧ k < p + 3 then some Opcode.nop else code[k]? := by
  unfold blank
  rw [if_pos room]
  simp only [Array.getElem?_setIfInBounds, Array.size_setIfInBounds]
  grind

theorem getElem?_foldl_blank {code : Array UInt8} {positions : List Nat}
    (room : ∀ p ∈ positions, p + 3 ≤ code.size) (k : Nat) :
    (positions.foldl blank code)[k]? =
      if ∃ p ∈ positions, p ≤ k ∧ k < p + 3 then some Opcode.nop else code[k]? := by
  induction positions generalizing code with
  | nil => simp
  | cons p rest ih =>
    have room' : ∀ r ∈ rest, r + 3 ≤ (blank code p).size := by
      intro r member
      rw [size_blank]
      exact room r (by simp [member])
    rw [List.foldl_cons, ih room', getElem?_blank (room p (by simp))]
    simp only [List.mem_cons, exists_eq_or_imp]
    by_cases later : ∃ r ∈ rest, r ≤ k ∧ k < r + 3 <;> simp [later]

variable {config : Config} {this : BinaryName} {b : Body} {pool mid final : Pool} {code : Code}
  {layout : Layout} {simulation : Simulation} {q : Nat}

theorem length_of_assemble (accepted : b.assemble config this pool = .ok code final)
    (laidOut : b.layOut pool = .ok layout mid) : code.code.length = layout.code.size := by
  obtain ⟨_, map, _, _, _, _, _, _, _, _, _, _, bytes⟩ := parts_of_assemble accepted laidOut
  rw [bytes, Array.length_toList]
  split
  · exact size_foldl_blank _ _
  · rfl

theorem code_of_assemble (accepted : b.assemble config this pool = .ok code final)
    (laidOut : b.layOut pool = .ok layout mid) (simulated : b.simulate this layout = .ok simulation) :
    code.code = (if config.elide then simulation.redundant.reverse.foldl blank layout.code
      else layout.code).toList := by
  obtain ⟨simulation', map, later, frames, third, lines, again, finished, _, _, _, _, bytes⟩ :=
    parts_of_assemble accepted laidOut
  rw [simulated] at again
  cases again
  obtain ⟨table, fourth, _, done⟩ := exists_of_bind finished
  cases done
  exact bytes

/-- A cast to the type is laid out at a position, and in its place the code has nops. -/
def Elided (layout : Layout) (code : Code) (r : RefType) (q : Nat) : Prop :=
  (∃ o, .insn o (.cast r) q ∈ layout.sights.toList) ∧ ∀ i < 3, code.code[q + i]? = some Opcode.nop

def Arrives (b : Body) (this : BinaryName) (layout : Layout) (code : Code) (pool : Pool) :
    Nat → Frame → Prop :=
  Simulation.Arrives pool (layout.scene this) code.handlers (Frame.ofArguments b.entry)
    layout.sights.toList

def LoadsKept (b : Body) (this : BinaryName) (layout : Layout) : Prop :=
  Simulation.LoadsKept (layout.scene this) (Frame.ofArguments b.entry) layout.sights.toList

instance (b : Body) (this : BinaryName) (layout : Layout) : Decidable (b.LoadsKept this layout) :=
  inferInstanceAs (Decidable (Simulation.LoadsKept _ _ _))

/-- The bytes of redundant casts are written over if that is asked for, and no others. -/
theorem getElem?_code (made : pool.Made)
    (accepted : b.assemble config this pool = .ok code final)
    (laidOut : b.layOut pool = .ok layout mid)
    (simulated : b.simulate this layout = .ok simulation) (k : Nat) :
    code.code[k]? =
      if config.elide ∧ ∃ p ∈ simulation.redundant, p ≤ k ∧ k < p + 3 then some Opcode.nop
      else layout.code[k]? := by
  obtain ⟨_, _, _, track, _⟩ := of_assemble made accepted laidOut
  have room : ∀ p ∈ simulation.redundant.reverse, p + 3 ≤ layout.code.size := by
    intro p noted
    obtain ⟨o, r, f, seen, _⟩ := (track.mem_redundant simulated).mp (List.mem_reverse.mp noted)
    exact (laid_of_assemble made accepted laidOut).1.cast_room seen
  rw [code_of_assemble accepted laidOut simulated, Array.getElem?_toList]
  by_cases elide : config.elide
  · rw [if_pos elide, getElem?_foldl_blank room]
    simp only [elide, true_and, List.mem_reverse]
  · rw [if_neg elide, if_neg fun both => elide both.1]

theorem elided_iff (made : pool.Made)
    (accepted : b.assemble config this pool = .ok code final)
    (laidOut : b.layOut pool = .ok layout mid)
    (simulated : b.simulate this layout = .ok simulation) (r : RefType) :
    Elided layout code r q ↔ config.elide ∧ ∃ o u, .insn o (.cast r) q ∈ layout.sights.toList ∧
      b.held this layout q = some u ∧ u.stack.last? = some (.object r) := by
  obtain ⟨_, _, _, track, _⟩ := of_assemble made accepted laidOut
  have laid := (laid_of_assemble made accepted laidOut).1
  have bytes := getElem?_code made accepted laidOut simulated
  constructor
  · rintro ⟨⟨o, seen⟩, gone⟩
    have here := gone 0 (by decide)
    rw [Nat.add_zero, bytes, laid.getElem?_cast seen] at here
    split at here
    · rename_i covered
      obtain ⟨elide, p, noted, low, high⟩ := covered
      obtain ⟨o', r', f, seen', held, top⟩ := (track.mem_redundant simulated).mp noted
      -- Two casts do not overlap, so that the one that covers the position starts there.
      rcases track.eq_or_apart seen' seen with same | before | after
      · cases same
        exact ⟨elide, o, f, seen, held, top⟩
      · rw [Leaf.length_octets_cast (laid.ready_cast seen')] at before
        omega
      · rw [Leaf.length_octets_cast (laid.ready_cast seen)] at after
        omega
    · cases here
  · rintro ⟨elide, o, u, seen, held, top⟩
    refine ⟨⟨o, seen⟩, fun i low => ?_⟩
    have noted := (track.mem_redundant simulated).mpr ⟨o, r, u, seen, held, top⟩
    rw [bytes, if_pos]
    exact ⟨elide, q, noted, by omega, by omega⟩

/-- Whatever path comes to where a cast was left out has a value of the wanted type on top. -/
def CastsPass (b : Body) (this : BinaryName) (layout : Layout) (code : Code) (pool : Pool) : Prop :=
  ∀ q f r, b.Arrives this layout code pool q f → Elided layout code r q →
    f.stack.last? = some (.object r)

/-- A cast is left out exactly where the state held has the wanted type on top. So does every path
that comes there, if jumps backward bring nothing new, no long meets a double, and no reference is
loaded whose type was lost. -/
theorem elided_casts_pass (config : Config) (this : BinaryName) (b : Body) (pool mid final : Pool)
    (code : Code) (layout : Layout) (made : pool.Made)
    (accepted : b.assemble config this pool = .ok code final)
    (laidOut : b.layOut pool = .ok layout mid) :
    ∃ simulation map, b.Assembled this layout simulation map code final ∧
      (∀ r q, Elided layout code r q ↔ config.elide ∧ ∃ o u,
        .insn o (.cast r) q ∈ layout.sights.toList ∧ b.held this layout q = some u ∧
        u.stack.last? = some (.object r)) ∧
      (b.LoopsClosed this layout → simulation.Calm → b.LoadsKept this layout →
        b.CastsPass this layout code final) := by
  obtain ⟨simulation, map, assembled, track, written⟩ := of_assemble made accepted laidOut
  have exactly : ∀ r q, Elided layout code r q ↔ config.elide ∧ ∃ o u,
      .insn o (.cast r) q ∈ layout.sights.toList ∧ b.held this layout q = some u ∧
      u.stack.last? = some (.object r) :=
    fun r q => elided_iff made accepted laidOut assembled.simulated r
  refine ⟨simulation, map, assembled, exactly, ?_⟩
  intro closed calm kept q f r path elided
  obtain ⟨u, held, finer⟩ := track.arrives_finer assembled.runs calm written.exists_joined closed
    kept path
  obtain ⟨_, o, u', seen, held', top⟩ := (exactly r q).mp elided
  rw [show b.held this layout q = some u from held] at held'
  cases held'
  exact finer.last (by simp) top

/-- A path comes to a cast of a value that has the wanted type in the state held. The sights that the
path passes are given, and that of the cast; all of this can be computed. -/
def Reaches (b : Body) (turns : List (Nat × Simulation.Turn)) (i q : Nat) (r : RefType)
    (meets : Layout → Simulation → Frame → Prop) : Prop :=
  ∃ layout mid s map later f o u, b.layOut .empty = .ok layout mid ∧
    b.simulate .object layout = .ok s ∧ s.finish mid = .ok map later ∧
    later.entries.next + 2 ≤ 65535 ∧
    (∀ pool, Simulation.follow? pool (layout.scene .object) layout.handlers.toList
      layout.sights.toList turns 0 (Frame.ofArguments b.entry) = some (q, f)) ∧
    layout.sights.toList[i]? = some (.insn o (.cast r) q) ∧
    b.held .object layout q = some u ∧ u.stack.last? = some (.object r) ∧ meets layout s f

theorem Reaches.exists_elided {turns : List (Nat × Simulation.Turn)} {i : Nat} {r : RefType}
    {meets : Layout → Simulation → Frame → Prop} (reaches : b.Reaches turns i q r meets) :
    ∃ layout mid code final simulation map f, b.layOut .empty = .ok layout mid ∧
      b.assemble {} .object .empty = .ok code final ∧
      b.Assembled .object layout simulation map code final ∧ meets layout simulation f ∧
      b.Arrives .object layout code final q f ∧ Elided layout code r q := by
  obtain ⟨layout, mid, s, _, later, f, o, u, laidOut, simulated, finished, room, path, seen, held,
    top, met⟩ := reaches
  obtain ⟨code, final, accepted⟩ := exists_assemble {} laidOut simulated finished room
  obtain ⟨s', map, assembled, _⟩ := of_assemble .refl accepted laidOut
  have same := assembled.simulated
  rw [simulated] at same
  cases same
  refine ⟨layout, mid, code, final, s, map, f, laidOut, accepted, assembled, met, ?_, ?_⟩
  · rw [Arrives, assembled.handlers]
    exact .follow? .entry (path final)
  · exact (elided_iff .refl accepted laidOut simulated r).mpr
      ⟨rfl, o, u, List.mem_of_getElem? seen, held, top⟩

def guarding : Body :=
  ⟨"C.f(ILjava/lang/Throwable;)V", 2,
    .build do
      let top ← fresh
      let casting := .concat [.load .ref 1 (.object .throwable), .cast (.object .throwable),
        .simple .pop]
      let guarded ← Tree.tryCatch casting none (.simple .pop)
      let again ← Tree.ifOnly (.zero .ne) (← Tree.jumpBack top)
      return .concat [.place top, guarded, .load .int 0 .int, again, .simple .returnVoid],
    [.int, .object (.object .throwable)]⟩

/-- The load throws, and the next time around it goes on to the cast. -/
theorem reaches_guarding :
    guarding.Reaches [(3, .up ⟨0, 5, 8, none⟩ .throwable), (11, .on), (13, .on), (15, .on),
      (17, .off), (3, .on)] 4 1 (.object .throwable) fun layout s _ =>
        guarding.LoopsClosed .object layout ∧ s.Calm ∧ guarding.LoadsKept .object layout :=
  ⟨_, _, _, _, _, _, _, _, by cbv, by cbv, by cbv, by cbv, fun pool => by cbv, by cbv, by cbv,
    by cbv, of_decide_eq_true (by cbv), of_decide_eq_true (by cbv), of_decide_eq_true (by cbv)⟩

theorem elided_casts_pass_guarding : ∃ layout mid code final simulation map f,
    guarding.layOut .empty = .ok layout mid ∧
    guarding.assemble {} .object .empty = .ok code final ∧
    guarding.Assembled .object layout simulation map code final ∧
    guarding.LoopsClosed .object layout ∧ simulation.Calm ∧ guarding.LoadsKept .object layout ∧
    guarding.Arrives .object layout code final 1 f ∧ Elided layout code (.object .throwable) 1 ∧
    f.stack.last? = some (.object (.object .throwable)) := by
  obtain ⟨layout, mid, code, final, s, map, f, laidOut, accepted, assembled, ⟨closed, calm, kept⟩,
    arrives, elided⟩ := reaches_guarding.exists_elided
  obtain ⟨s', map', assembled', _, passes⟩ :=
    elided_casts_pass _ _ _ _ _ _ _ _ .refl accepted laidOut
  have same := assembled'.simulated
  rw [assembled.simulated] at same
  cases same
  exact ⟨layout, mid, code, final, s, map, f, laidOut, accepted, assembled, closed, calm, kept,
    arrives, elided, passes closed calm kept 1 f _ arrives elided⟩

def wanted : RefType := .object ⟨"A", by decide⟩

def other : RefType := .object ⟨"B", by decide⟩

/-- A variable gets one type or another, and is then loaded as if it always had the first. -/
def lossy : Body :=
  ⟨"C.f(ILA;LB;)V", 4,
    .build do
      let stored ← Tree.ifElse (.zero .eq) (.concat [.load .ref 2 (.ref other), .store .ref 3])
        (.concat [.load .ref 1 (.ref wanted), .store .ref 3])
      return .concat [.load .int 0 .int, stored, .load .ref 3 (.ref wanted), .cast wanted,
        .simple .pop, .simple .returnVoid],
    [.int, .object wanted, .object other]⟩

/-- A loop that puts another type into a variable after it was cast. -/
def swapping : Body :=
  ⟨"C.f(ILA;LB;)V", 3,
    .build do
      let top ← fresh
      let tested ← Tree.ifOnly (.zero .ne)
        (.concat [.load .ref 1 (.ref wanted), .cast wanted, .simple .pop])
      return .concat [.place top, .load .int 0 .int, tested, .load .ref 2 (.ref other),
        .store .ref 1, ← Tree.jumpBack top],
    [.int, .object wanted, .object other]⟩

/-- A long or a double is popped, and with it another value where the two are joined. -/
def sinking : Body :=
  ⟨"C.f(ILA;LB;)V", 3,
    .build do
      let pushed ← Tree.ifElse (.zero .eq) (.long 0) (.double 0)
      return .concat [.load .ref 1 (.ref wanted), .load .ref 2 (.ref other), .load .int 0 .int,
        pushed, .simple .pop2, .cast wanted, .simple .pop, .simple .returnVoid],
    [.int, .object wanted, .object other]⟩

def Slips (b : Body) (meets : Layout → Simulation → Prop) : Prop :=
  ∃ layout mid code final simulation map, b.layOut .empty = .ok layout mid ∧
    b.assemble {} .object .empty = .ok code final ∧
    b.Assembled .object layout simulation map code final ∧ meets layout simulation ∧
    ¬ b.CastsPass .object layout code final

theorem Reaches.slips {turns : List (Nat × Simulation.Turn)} {i : Nat}
    {meets : Layout → Simulation → Prop}
    (reaches : b.Reaches turns i q wanted fun layout s f =>
      f.stack.last? = some (.object other) ∧ meets layout s) : b.Slips meets := by
  obtain ⟨layout, mid, code, final, s, map, f, laidOut, accepted, assembled, ⟨last, met⟩, arrives,
    elided⟩ := reaches.exists_elided
  refine ⟨layout, mid, code, final, s, map, laidOut, accepted, assembled, met, fun passes => ?_⟩
  have right := passes q f wanted arrives elided
  rw [last] at right
  exact absurd right (by decide)

theorem reaches_lossy :
    lossy.Reaches [(0, .on), (2, .off), (8, .on), (9, .on), (11, .on)] 12 12 wanted
      fun layout s f => f.stack.last? = some (.object other) ∧
        lossy.LoopsClosed .object layout ∧ s.Calm :=
  ⟨_, _, _, _, _, _, _, _, by cbv, by cbv, by cbv, by cbv, fun pool => by cbv, by cbv, by cbv,
    by cbv, by cbv, of_decide_eq_true (by cbv), of_decide_eq_true (by cbv)⟩

theorem reaches_swapping :
    swapping.Reaches [(1, .on), (3, .off), (8, .on), (9, .on), (11, .off), (1, .on), (3, .on),
      (4, .on)] 5 5 wanted fun layout s f => f.stack.last? = some (.object other) ∧
        s.Calm ∧ swapping.LoadsKept .object layout :=
  ⟨_, _, _, _, _, _, _, _, by cbv, by cbv, by cbv, by cbv, fun pool => by cbv, by cbv, by cbv,
    by cbv, by cbv, of_decide_eq_true (by cbv), of_decide_eq_true (by cbv)⟩

theorem reaches_sinking :
    sinking.Reaches [(0, .on), (1, .on), (2, .on), (4, .off), (9, .on), (11, .on)] 12 12 wanted
      fun layout _ f => f.stack.last? = some (.object other) ∧
        sinking.LoopsClosed .object layout ∧ sinking.LoadsKept .object layout :=
  ⟨_, _, _, _, _, _, _, _, by cbv, by cbv, by cbv, by cbv, fun pool => by cbv, by cbv, by cbv,
    by cbv, by cbv, of_decide_eq_true (by cbv), of_decide_eq_true (by cbv)⟩

/-- Any two of the three conditions are not enough: a cast is left out that would have failed. -/
theorem not_castsPass :
    lossy.Slips (fun layout s => lossy.LoopsClosed .object layout ∧ s.Calm) ∧
    swapping.Slips (fun layout s => s.Calm ∧ swapping.LoadsKept .object layout) ∧
    sinking.Slips (fun layout _ =>
      sinking.LoopsClosed .object layout ∧ sinking.LoadsKept .object layout) :=
  ⟨reaches_lossy.slips, reaches_swapping.slips, reaches_sinking.slips⟩

end Body

end Bytecode
