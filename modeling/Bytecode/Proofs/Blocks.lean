import Bytecode.Proofs.Dispatch
import Bytecode.Proofs.Watching

/-! The tries of a tree. Where the body of each begins and ends, and which instructions stand in it,
is told from the tree alone. The table of handlers has just these ranges, and the simulation has the
handlers of just these tries in force at an instruction. -/
namespace Bytecode

/-- A try of a tree: its number in the order of the walk, its labels and what it catches, and where
its body begins and ends and its handler begins. -/
structure Block where
  number : Nat
  region : Region
  start : Nat
  stop : Nat
  handler : Nat

namespace Block

def full (b : Block) : Bool := b.start < b.stop

def covers (b : Block) (p : Nat) : Bool := b.start ≤ p && p < b.stop

def hold (b : Block) : Label × Held :=
  (b.region.guard.handler, Simulation.caughtType b.region.caught)

/-- The second is inside the body of the first, or after it. -/
def Apart (a b : Block) : Prop := a.start ≤ b.start ∧ b.stop ≤ a.stop ∨ a.stop ≤ b.start

end Block

structure Housed where
  position : Nat
  op : Op
  around : List Block

def Housed.inside (b : Block) (x : Housed) : Housed := { x with around := b :: x.around }

def Guard.exitSize (g : Guard) : Nat := if g.exit.isSome then 3 else 0

namespace Tree

def tries : Tree → Nat
  | unit | leaf _ _ | label _ _ | goto _ _ _ => 0
  | branch _ _ _ _ _ first second | seq _ first second => first.tries + second.tries
  | retype _ inner => inner.tries
  | guarded _ _ _ body handler => body.tries + handler.tries + 1
  | line _ _ body => body.tries

def block (pool : Pool) (g : Guard) (caught : Option BinaryName) (body : Tree) (k n : Nat) :
    Block :=
  ⟨k, ⟨g, caught⟩, n, n + body.size pool, n + body.size pool + g.exitSize⟩

/-- The tries of a tree that stands at a position, in the order of the walk, the first of them with
the number given. -/
def blocks (pool : Pool) : Tree → Nat → Nat → List Block
  | unit, _, _ | leaf _ _, _, _ | label _ _, _, _ | goto _ _ _, _, _ => []
  | branch _ _ _ _ _ first second, k, n =>
    first.blocks pool k (n + 3) ++
      second.blocks pool (k + first.tries) (n + 3 + first.size pool)
  | seq _ first second, k, n =>
    first.blocks pool k n ++ second.blocks pool (k + first.tries) (n + first.size pool)
  | retype _ inner, k, n => inner.blocks pool k n
  | guarded _ g caught body handler, k, n =>
    block pool g caught body k n :: body.blocks pool (k + 1) n ++
      handler.blocks pool (k + 1 + body.tries) (n + body.size pool + g.exitSize)
  | line _ _ body, k, n => body.blocks pool k n

def housed (pool : Pool) : Tree → Nat → Nat → List Housed
  | unit, _, _ | label _ _, _, _ => []
  | leaf _ l, _, n => [⟨n, .leaf l, []⟩]
  | goto _ source target, _, n => [⟨n, .jump none source target, []⟩]
  | branch _ test start target _ first second, k, n =>
    ⟨n, .jump (some test) start target, []⟩ :: first.housed pool k (n + 3) ++
      second.housed pool (k + first.tries) (n + 3 + first.size pool)
  | seq _ first second, k, n =>
    first.housed pool k n ++ second.housed pool (k + first.tries) (n + first.size pool)
  | retype _ inner, k, n => inner.housed pool k n
  | guarded _ g caught body handler, k, n =>
    (body.housed pool (k + 1) n).map (Housed.inside (block pool g caught body k n)) ++
      (g.exit.map fun exit => ⟨n + body.size pool, .jump none exit g.after, []⟩).toList ++
      handler.housed pool (k + 1 + body.tries) (n + body.size pool + g.exitSize)
  | line _ _ body, k, n => body.housed pool k n

end Tree

variable {pool : Pool} {labels : Labels} {n : Nat}

def Housed.meets (active : List (Label × Held)) (x : Housed) : Nat × Op × List (Label × Held) :=
  (x.position, x.op, x.around.reverse.map Block.hold ++ active)

theorem Guard.reach_exit (g : Guard) :
    reach pool n (g.exit.map (Step.jump none · g.after)).toList = n + g.exitSize := by
  cases h : g.exit <;> simp [reach, exitSize, h, Step.size]

namespace Tree

section

variable (pool : Pool) (o : Outcome)

theorem size_branch (test : Test) (start target stop : Label) (first second : Tree) :
    (branch o test start target stop first second).size pool =
      3 + first.size pool + second.size pool := by
  simp [size, ops, Op.size, Nat.add_assoc]

theorem size_seq (first second : Tree) :
    (seq o first second).size pool = first.size pool + second.size pool := by
  simp [size, ops]

theorem size_guarded (g : Guard) (caught : Option BinaryName) (body handler : Tree) :
    (guarded o g caught body handler).size pool =
      body.size pool + g.exitSize + handler.size pool := by
  cases h : g.exit <;> simp [size, ops, Op.size, Guard.exitSize, h, Nat.add_assoc]

end

theorem watch_guard (pool : Pool) (t : Tree) (outer : Option UInt16)
    (active : List (Label × Held)) (k n : Nat) :
    watch Step.guard pool active n (t.steps outer) =
        (t.housed pool k n).map (Housed.meets active) ∧
      (t.steps outer).foldl Step.guard active = active := by
  induction t generalizing outer active k n with
  | unit => exact ⟨rfl, rfl⟩
  | leaf | label | goto => exact ⟨rfl, rfl⟩
  | branch o test start target stop first second ih₁ ih₂ =>
    obtain ⟨seen₁, left₁⟩ := ih₁ outer active k (n + 3)
    obtain ⟨seen₂, left₂⟩ := ih₂ outer active (k + first.tries) (n + 3 + first.size pool)
    simp [steps, housed, watch, watch_append, reach_steps, Step.guard, Step.size,
      seen₁, left₁, seen₂, left₂, Step.op?, Housed.meets]
  | seq o first second ih₁ ih₂ =>
    obtain ⟨seen₁, left₁⟩ := ih₁ outer active k n
    obtain ⟨seen₂, left₂⟩ := ih₂ outer active (k + first.tries) (n + first.size pool)
    simp [steps, housed, watch_append, reach_steps, seen₁, left₁, seen₂, left₂]
  | retype o inner ih => exact ih outer active k n
  | guarded o g caught body handler ihb ihh =>
    have inner := ihb outer ((g.handler, Simulation.caughtType caught) :: active) (k + 1) n
    have last := ihh outer active (k + 1 + body.tries) (n + body.size pool + g.exitSize)
    have deeper : Housed.meets active ∘ Housed.inside (block pool g caught body k n) =
        Housed.meets ((g.handler, Simulation.caughtType caught) :: active) := by
      funext x
      simp [Housed.meets, Housed.inside, block, Block.hold]
    cases hg : g.exit <;> simp only [Guard.exitSize, hg, Option.isSome_none, Option.isSome_some,
      Bool.false_eq_true, reduceIte, Nat.add_zero] at last <;>
      simp [steps, housed, watch, watch_append, reach_steps, Step.guard, Step.size, Step.op?,
        Guard.exitSize, hg, deeper, Housed.meets, inner.1, inner.2, last.1, last.2]
  | line o number body ih =>
    obtain ⟨seen, left⟩ := ih (some number) active k n
    cases outer <;> simp [steps, resume, housed, watch, watch_append, Step.guard, Step.size,
      Step.op?, seen, left]

theorem map_number_blocks (pool : Pool) (t : Tree) (k n : Nat) :
    (t.blocks pool k n).map Block.number = List.range' k t.tries := by
  induction t generalizing k n with
  | unit | leaf | label | goto => rfl
  | branch o test start target stop first second ih₁ ih₂ =>
    simp [blocks, tries, ih₁, ih₂]
  | seq o first second ih₁ ih₂ => simp [blocks, tries, ih₁, ih₂]
  | retype o inner ih => exact ih k n
  | guarded o g caught body handler ihb ihh =>
    rw [blocks, tries, List.range'_succ, ← List.range'_append_1]
    simp [ihb, ihh, block]
  | line o number body ih => exact ih k n

end Tree

/-- Tries and instructions in a stretch of code. The tries keep to the stretch, no two of them
overlap in part, and an instruction stands in the bodies of those that cover its position. -/
structure Arranged (low high : Nat) (blocks : List Block) (housed : List Housed) : Prop where
  le : low ≤ high
  within : ∀ b ∈ blocks, low ≤ b.start ∧ b.start ≤ b.stop ∧ b.stop ≤ high ∧ b.stop ≤ b.handler
  apart : blocks.Pairwise Block.Apart
  inside : ∀ x ∈ housed, low ≤ x.position ∧ x.position < high
  around : ∀ x ∈ housed, x.around = blocks.filter (·.covers x.position)

namespace Arranged

variable {low middle high : Nat} {blocks others : List Block} {housed more : List Housed}

theorem nil (n : Nat) : Arranged n n [] [] := ⟨Nat.le_refl n, by simp, .nil, by simp, by simp⟩

theorem single (low : Nat) {size : Nat} (op : Op) (solid : 0 < size) :
    Arranged low (low + size) [] [⟨low, op, []⟩] :=
  ⟨by omega, by simp, .nil, by simpa using solid, by simp⟩

theorem filter_eq_nil (h : Arranged low high blocks housed) {p : Nat}
    (out : p < low ∨ high ≤ p) : blocks.filter (·.covers p) = [] := by
  rw [List.filter_eq_nil_iff]
  intro b member
  have := h.within b member
  simp only [Block.covers, Bool.and_eq_true, decide_eq_true_eq]
  omega

theorem append (a : Arranged low middle blocks housed) (b : Arranged middle high others more) :
    Arranged low high (blocks ++ others) (housed ++ more) := by
  have start := a.le
  have stop := b.le
  refine ⟨by omega, ?_, ?_, ?_, ?_⟩
  · intro x member
    rcases List.mem_append.mp member with member | member
    · have := a.within x member
      omega
    · have := b.within x member
      omega
  · refine List.pairwise_append.mpr ⟨a.apart, b.apart, fun x hx y hy => .inr ?_⟩
    have := a.within x hx
    have := b.within y hy
    omega
  · intro x member
    rcases List.mem_append.mp member with member | member
    · have := a.inside x member
      omega
    · have := b.inside x member
      omega
  · -- No try of one part covers an instruction of the other.
    intro x member
    rw [List.filter_append]
    rcases List.mem_append.mp member with member | member
    · have := a.inside x member
      rw [b.filter_eq_nil (by omega), List.append_nil, a.around x member]
    · have := b.inside x member
      rw [a.filter_eq_nil (by omega), List.nil_append, b.around x member]

theorem region (h : Arranged low high blocks housed) {b : Block} (start : b.start = low)
    (stop : b.stop = high) (after : b.stop ≤ b.handler) :
    Arranged low high (b :: blocks) (housed.map (Housed.inside b)) := by
  have room := h.le
  refine ⟨h.le, ?_, ?_, ?_, ?_⟩
  · intro x member
    rcases List.mem_cons.mp member with rfl | member
    · omega
    · exact h.within x member
  · refine List.pairwise_cons.mpr ⟨fun x hx => .inl ?_, h.apart⟩
    have := h.within x hx
    omega
  · intro x member
    obtain ⟨y, hy, rfl⟩ := List.mem_map.mp member
    exact h.inside y hy
  · intro x member
    obtain ⟨y, hy, rfl⟩ := List.mem_map.mp member
    have covered : b.covers y.position = true := by
      have := h.inside y hy
      simp only [Block.covers, Bool.and_eq_true, decide_eq_true_eq]
      omega
    simp [Housed.inside, covered, h.around y hy]

end Arranged

theorem Guard.arranged_exit (g : Guard) (n : Nat) :
    Arranged n (n + g.exitSize) []
      (g.exit.map fun exit => ⟨n, .jump none exit g.after, []⟩).toList := by
  cases h : g.exit with
  | none => simpa [exitSize, h] using Arranged.nil n
  | some exit => simpa [exitSize, h] using Arranged.single n _ (Nat.zero_lt_succ 2)

theorem Tree.arranged (t : Tree) (solid : ∀ op ∈ t.ops, 0 < op.size pool) (k n : Nat) :
    Arranged n (n + t.size pool) (t.blocks pool k n) (t.housed pool k n) := by
  induction t generalizing k n with
  | unit => exact .nil n
  | leaf o l =>
    have room : 0 < (leaf o l).size pool := by
      simpa [size, ops] using solid (.leaf l) (by simp [ops])
    exact .single n _ room
  | label => exact .nil n
  | goto => exact .single n _ (Nat.zero_lt_succ 2)
  | branch o test start target stop first second ih₁ ih₂ =>
    have one := ih₁ (fun op h => solid op (by simp [ops, h])) k (n + 3)
    have two := ih₂ (fun op h => solid op (by simp [ops, h])) (k + first.tries)
      (n + 3 + first.size pool)
    have jump := Arranged.single n (.jump (some test) start target) (Nat.zero_lt_succ 2)
    have whole := jump.append (one.append two)
    simpa [blocks, housed, size_branch, Nat.add_assoc] using whole
  | seq o first second ih₁ ih₂ =>
    have one := ih₁ (fun op h => solid op (by simp [ops, h])) k n
    have two := ih₂ (fun op h => solid op (by simp [ops, h])) (k + first.tries)
      (n + first.size pool)
    simpa [blocks, housed, size_seq, Nat.add_assoc] using one.append two
  | retype o inner ih => exact ih solid k n
  | guarded o g caught body handler ihb ihh =>
    have one := ihb (fun op h => solid op (by simp [ops, h])) (k + 1) n
    have two := ihh (fun op h => solid op (by simp [ops, h])) (k + 1 + body.tries)
      (n + body.size pool + g.exitSize)
    have opened := one.region (b := block pool g caught body k n) rfl rfl (Nat.le_add_right _ _)
    have whole := opened.append ((g.arranged_exit _).append two)
    simpa [blocks, housed, size_guarded, Nat.add_assoc] using whole
  | line o number body ih => exact ih solid k n

def Step.region? : Step → Option Region
  | enter g caught => some ⟨g, caught⟩
  | _ => none

theorem Tree.filterMap_region? (pool : Pool) (t : Tree) (outer : Option UInt16) (k n : Nat) :
    (t.steps outer).filterMap Step.region? = (t.blocks pool k n).map Block.region := by
  induction t generalizing outer k n with
  | unit | leaf | label | goto => rfl
  | branch o test start target stop first second ih₁ ih₂ =>
    simp [steps, blocks, List.filterMap_cons, Step.region?, ← ih₁ outer, ← ih₂ outer]
  | seq o first second ih₁ ih₂ => simp [steps, blocks, ← ih₁ outer, ← ih₂ outer]
  | retype o inner ih => exact ih outer k n
  | guarded o g caught body handler ihb ihh =>
    cases h : g.exit <;> simp [steps, blocks, block, List.filterMap_cons, Step.region?,
      ← ihb outer, ← ihh outer, h]
  | line o number body ih =>
    simp [steps, blocks, List.filterMap_cons, Step.region?, ← ih (some number),
      filterMap_resume Step.region? fun _ => rfl]

structure Block.Settled (pool : Pool) (labels : Labels) (b : Block) : Prop where
  start : labels.settled? b.region.guard.start = some b.start
  stop : labels.settled? b.region.guard.stop = some b.stop
  handler : labels.settled? b.region.guard.handler = some b.handler
  ready : (Step.enter b.region.guard b.region.caught).Ready pool

theorem Tree.settled_of_stands (t : Tree) (outer : Option UInt16) (k : Nat)
    (h : Along pool (Stands pool labels) n (t.steps outer)) :
    ∀ b ∈ t.blocks pool k n, b.Settled pool labels := by
  induction t generalizing outer k n with
  | unit | leaf | label | goto => simp [blocks]
  | branch o test start target stop first second ih₁ ih₂ =>
    simp only [steps, along_append, Along, reach, reach_steps, Step.size] at h
    obtain ⟨⟨⟨_, hfirst⟩, hsecond⟩, _⟩ := h
    simp only [blocks, List.forall_mem_append]
    exact ⟨ih₁ outer _ hfirst, ih₂ outer _ hsecond⟩
  | seq o first second ih₁ ih₂ =>
    simp only [steps, along_append, reach_steps] at h
    simp only [blocks, List.forall_mem_append]
    exact ⟨ih₁ outer _ h.1, ih₂ outer _ h.2⟩
  | retype o inner ih => exact ih outer k h
  | guarded o g caught body handler ihb ihh =>
    simp only [steps, along_append, Along, reach_append, reach, reach_steps, Guard.reach_exit,
      Step.size, Nat.add_zero] at h
    obtain ⟨⟨⟨⟨start, enter, hbody⟩, stop, _, _⟩, entry, hhandler⟩, _⟩ := h
    simp only [blocks, List.forall_mem_append, List.forall_mem_cons]
    exact ⟨⟨⟨start.placed _ rfl, stop.placed _ rfl, entry.placed _ rfl, enter.ready⟩,
      ihb outer _ hbody⟩, ihh outer _ hhandler⟩
  | line o number body ih =>
    simp only [steps, along_append, Along, Step.size, Nat.add_zero] at h
    exact ih (some number) k h.1.2

structure Block.Entered (pool : Pool) (b : Block) (h : Handler) : Prop where
  start : h.start.toNat = b.start
  stop : h.stop.toNat = b.stop
  handler : h.handler.toNat = b.handler
  caught : h.caught.map pool.class? = b.region.caught.map fun name => some name.text

theorem flatMap_handlers (steps : List Step) :
    steps.flatMap (Step.handlers pool labels) = (steps.filterMap Step.region?).flatMap fun r =>
      (Step.enter r.guard r.caught).handlers pool labels := by
  induction steps with
  | nil => rfl
  | cons step rest ih =>
    cases step <;> simp [List.filterMap_cons, Step.region?, Step.handlers, ih]

namespace Block

variable {b : Block}

theorem Settled.entered (h : b.Settled pool labels) (hp : pool.Coherent)
    (start : b.start ≤ 65535) (stop : b.stop ≤ 65535) (handler : b.handler ≤ 65535) :
    b.Entered pool (b.region.entry pool labels) := by
  refine ⟨?_, ?_, ?_, ?_⟩
  · rw [Region.entry, Step.entry, Labels.spot_eq h.start, toNat_toUInt16 start]
  · rw [Region.entry, Step.entry, Labels.spot_eq h.stop, toNat_toUInt16 stop]
  · rw [Region.entry, Step.entry, Labels.spot_eq h.handler, toNat_toUInt16 handler]
  · have ready := h.ready
    cases hc : b.region.caught with
    | none => simp [Region.entry, Step.entry, hc]
    | some name =>
      rw [hc] at ready
      have found := Pool.class?_of_classRef hp ready
      simp [Region.entry, Step.entry, hc, found, RefType.className]

theorem Settled.handlers_eq (h : b.Settled pool labels) (le : b.start ≤ b.stop)
    (small : b.stop ≤ 65535) :
    (Step.enter b.region.guard b.region.caught).handlers pool labels =
      if b.full then [b.region.entry pool labels] else [] := by
  have same : (labels.spot b.region.guard.start).toUInt16 =
      (labels.spot b.region.guard.stop).toUInt16 ↔ b.start = b.stop := by
    rw [Labels.spot_eq h.start, Labels.spot_eq h.stop, ← UInt16.toNat_inj,
      toNat_toUInt16 (Nat.le_trans le small), toNat_toUInt16 small]
  split
  · rename_i full
    have ne : b.start ≠ b.stop := Nat.ne_of_lt (of_decide_eq_true full)
    exact Step.handlers_of_ne (mt same.mp ne) _
  · rename_i bare
    have eq : b.start = b.stop := Nat.le_antisymm le (Nat.le_of_not_lt (mt decide_eq_true bare))
    exact Step.handlers_of_eq (same.mpr eq) _

end Block

namespace Layout

namespace Laid

variable {t : Tree} {layout : Layout}

theorem settled_blocks (laid : layout.Laid t pool) :
    ∀ b ∈ t.blocks pool 0 0, b.Settled pool layout.labels :=
  t.settled_of_stands none 0 laid.stands

theorem arranged (laid : layout.Laid t pool) (hp : pool.Coherent) :
    Arranged 0 layout.position (t.blocks pool 0 0) (t.housed pool 0 0) := by
  have whole := t.arranged (laid.size_pos hp) 0 0
  rwa [← t.reach_steps pool 0 none, ← laid.position] at whole

theorem entered_blocks (laid : layout.Laid t pool) (hp : pool.Coherent)
    (small : layout.position ≤ 65535) :
    ∀ b ∈ t.blocks pool 0 0, b.Entered pool (b.region.entry pool layout.labels) := by
  intro b member
  have settled := laid.settled_blocks b member
  have start := laid.settled_le settled.start
  have stop := laid.settled_le settled.stop
  have handler := laid.settled_le settled.handler
  exact settled.entered hp (by omega) (by omega) (by omega)

theorem handlers_eq_map (laid : layout.Laid t pool) (hp : pool.Coherent)
    (small : layout.position ≤ 65535) :
    layout.handlers.toList =
      ((t.blocks pool 0 0).filter Block.full).map fun b => b.region.entry pool layout.labels := by
  have each : ∀ b ∈ t.blocks pool 0 0,
      (Step.enter b.region.guard b.region.caught).handlers pool layout.labels =
        if b.full then [b.region.entry pool layout.labels] else [] := by
    intro b member
    have within := (laid.arranged hp).within b member
    exact (laid.settled_blocks b member).handlers_eq within.2.1 (by omega)
  rw [laid.handlers, flatMap_handlers, t.filterMap_region? pool none 0 0, List.flatMap_map]
  generalize t.blocks pool 0 0 = blocks at each
  induction blocks with
  | nil => rfl
  | cons b rest ih =>
    have tail := ih fun c hc => each c (by simp [hc])
    rw [List.flatMap_cons, each b (by simp), tail]
    cases full : b.full <;> simp [full]

/-- The handlers in force where an instruction stands are those of the tries that cover it, the
innermost first. -/
theorem active_eq (laid : layout.Laid t pool) (hp : pool.Coherent) {first last : List Sight}
    {o : Outcome} {l : Leaf} {p : Nat}
    (cut : layout.sights.toList = first ++ .insn o l p :: last) :
    first.foldl Sight.guard [] =
      ((t.blocks pool 0 0).filter (·.covers p)).reverse.map Block.hold := by
  rw [laid.sights, Tree.course] at cut
  obtain ⟨pre, post, whole, rfl, rfl⟩ := split_insn cut
  have met : (reach pool 0 pre, Op.leaf l, pre.foldl Step.guard []) ∈
      watch Step.guard pool [] 0 (t.steps none) :=
    mem_watch.mpr ⟨pre, .leaf o l, post, whole, rfl, rfl, rfl⟩
  rw [(t.watch_guard pool none [] 0 0).1] at met
  obtain ⟨x, member, same⟩ := List.mem_map.mp met
  simp only [Housed.meets, List.append_nil, Prod.mk.injEq] at same
  rw [foldl_guard_sightsOf, ← same.2.2, ← same.1, (laid.arranged hp).around x member]

end Laid

structure RangesMatch (b : Body) (pool : Pool) (layout : Layout) : Prop where
  numbered : (b.tree.blocks pool 0 0).map Block.number = List.range b.tree.tries
  /-- There is one entry for each try whose body has a byte, and no other. -/
  table : List.Forall₂ (Block.Entered pool) ((b.tree.blocks pool 0 0).filter Block.full)
    layout.handlers.toList
  ordered : ∀ h ∈ layout.handlers.toList, h.start < h.stop ∧ h.stop ≤ h.handler
  nested : layout.handlers.toList.Pairwise fun a c =>
    a.start ≤ c.start ∧ c.stop ≤ a.stop ∨ a.stop ≤ c.start
  reported : layout.reported = (b.tree.housed pool 0 0).map fun x => (x.position, x.op)
  inside : ∀ x ∈ b.tree.housed pool 0 0,
    x.around = (b.tree.blocks pool 0 0).filter (·.covers x.position)
  /-- The handlers in force when a leaf is seen are those of the tries that cover its position. -/
  active : ∀ this first o l p last s, layout.sights.toList = first ++ .insn o l p :: last →
    Simulation.run (layout.scene this) (Frame.ofArguments b.entry) first = .ok s →
    s.active = ((b.tree.blocks pool 0 0).filter (·.covers p)).reverse.map Block.hold

theorem ranges_match (b : Body) (pool final : Pool) (layout : Layout) (made : pool.Made)
    (accepted : b.layOut pool = .ok layout final) : RangesMatch b final layout := by
  obtain ⟨laid, filled, small⟩ := of_layOut accepted
  have hp : final.Coherent := Pool.Made.coherent (made.trans filled)
  have arranged := laid.arranged hp
  have entered := laid.entered_blocks hp small
  have table := laid.handlers_eq_map hp small
  refine ⟨?_, ?_, ?_, ?_, ?_, arranged.around, ?_⟩
  · rw [b.tree.map_number_blocks, List.range_eq_range']
  · rw [table, List.forall₂_map_right_iff, List.forall₂_same]
    exact fun c member => entered c (List.mem_of_mem_filter member)
  · rw [table]
    intro h member
    obtain ⟨c, kept, rfl⟩ := List.mem_map.mp member
    obtain ⟨listed, full⟩ := List.mem_filter.mp kept
    have ends := entered c listed
    have within := arranged.within c listed
    have room : c.start < c.stop := of_decide_eq_true full
    rw [UInt16.lt_iff_toNat_lt, UInt16.le_iff_toNat_le, ends.start, ends.stop, ends.handler]
    omega
  · rw [table, List.pairwise_map]
    refine (arranged.apart.imp_of_mem fun {a c} ha hc apart => ?_).filter _
    have one := entered a ha
    have two := entered c hc
    rw [UInt16.le_iff_toNat_le, UInt16.le_iff_toNat_le, UInt16.le_iff_toNat_le, one.start, one.stop,
      two.start, two.stop]
    exact apart
  · rw [laid.reported_eq Step.guard [], (b.tree.watch_guard final none [] 0 0).1, List.map_map]
    rfl
  · intro this first o l p last s cut ran
    have force : s.active = first.foldl Sight.guard [] := Simulation.Runs.active ran
    rw [force, laid.active_eq hp cut]

theorem ranges_match_nested : ∃ layout final,
    Body.nested.layOut .empty = .ok layout final ∧
    layout.handlers.toList = [⟨0, 6, 9, none⟩, ⟨0, 2, 5, none⟩] ∧
    RangesMatch Body.nested final layout := by
  obtain ⟨layout, final, accepted, table⟩ : ∃ layout final,
      Body.nested.layOut .empty = .ok layout final ∧
      layout.handlers.toList = [⟨0, 6, 9, none⟩, ⟨0, 2, 5, none⟩] := ⟨_, _, by cbv, by cbv⟩
  exact ⟨layout, final, accepted, table, ranges_match _ _ _ _ .refl accepted⟩

end Layout

end Bytecode
