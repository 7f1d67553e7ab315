import Bytecode.Proofs.References
import Bytecode.Proofs.Watching

/-! The line table of code that is laid out. The last entry that starts no later than an instruction
has the line of the innermost line around it: inner lines start later, and where one ends the line
around it starts again. -/
namespace Bytecode

/-- The instructions of a tree, each with the line of the innermost line node around it. -/
def Tree.lined (line : Option UInt16) : Tree → List (Op × Option UInt16)
  | unit | label _ _ => []
  | leaf _ l => [(.leaf l, line)]
  | goto _ source target => [(.jump none source target, line)]
  | branch _ test start target _ first second =>
    (.jump (some test) start target, line) :: first.lined line ++ second.lined line
  | seq _ first second => first.lined line ++ second.lined line
  | retype _ inner => inner.lined line
  | guarded _ g _ body handler =>
    body.lined line ++ (g.exit.map fun exit => (Op.jump none exit g.after, line)).toList ++
      handler.lined line
  | Tree.line _ number body => body.lined (some number)

def Step.current (now : Option UInt16) : Step → Option UInt16
  | line number => some number
  | _ => now

/-- The line around a tree, if there is one, is the one that was started last. -/
def Resumed (outer now : Option UInt16) : Prop := ∀ number, outer = some number → now = some number

structure Finds (x : Nat × Op × Option UInt16) (y : Op × Option UInt16) : Prop where
  op : x.2.1 = y.1
  line : Resumed y.2 x.2.2

/-- Steps of a part of a tree that stands in a line. Whatever comes before, their instructions have
the lines given, and the line around is started again in the end. -/
def Carries (pool : Pool) (outer : Option UInt16) (steps : List Step)
    (ops : List (Op × Option UInt16)) : Prop :=
  ∀ n now, Resumed outer now → List.Forall₂ Finds (watch Step.current pool now n steps) ops ∧
    Resumed outer (steps.foldl Step.current now)

variable {pool : Pool} {n : Nat} {outer now : Option UInt16}

namespace Carries

variable {first second : List Step} {ops others : List (Op × Option UInt16)}

theorem nil : Carries pool outer [] [] := fun _ _ resumed => ⟨.nil, resumed⟩

theorem append (a : Carries pool outer first ops) (b : Carries pool outer second others) :
    Carries pool outer (first ++ second) (ops ++ others) := by
  intro n now resumed
  obtain ⟨one, middle⟩ := a n now resumed
  obtain ⟨two, last⟩ := b (reach pool n first) _ middle
  rw [watch_append, List.foldl_append]
  exact ⟨List.rel_append one two, last⟩

theorem op {step : Step} {x : Op} (has : step.op? = some x) :
    Carries pool outer [step] [(x, outer)] := by
  intro n now resumed
  have same : step.current now = now := by
    cases step with
    | line => cases has
    | _ => rfl
  simp only [watch, has, List.foldl_cons, same]
  exact ⟨.cons ⟨rfl, resumed⟩ .nil, resumed⟩

theorem skip (step : Step) (h : Carries pool outer first ops) (silent : step.op? = none)
    (same : ∀ now, step.current now = now) : Carries pool outer (step :: first) ops := by
  intro n now resumed
  simp only [watch, silent, List.foldl_cons, same]
  exact h _ now resumed

theorem place (l : Label) (h : Carries pool outer first ops) :
    Carries pool outer (.place l :: first) ops :=
  h.skip _ rfl fun _ => rfl

theorem exit (g : Guard) : Carries pool outer (g.exit.map (Step.jump none · g.after)).toList
    (g.exit.map fun exit => (Op.jump none exit g.after, outer)).toList := by
  cases g.exit with
  | none => exact nil
  | some exit => exact op rfl

/-- A line around another one starts again where that one ends. -/
theorem line {number : UInt16} (h : Carries pool (some number) first ops) :
    Carries pool outer (.line number :: first ++ resume outer) ops := by
  intro n now resumed
  have inner : List.Forall₂ Finds (watch Step.current pool now n (.line number :: first)) ops :=
    (h n (some number) fun _ same => same).1
  rw [watch_append, List.foldl_append]
  cases outer with
  | none => exact ⟨by simpa [resume, watch] using inner, fun _ same => by cases same⟩
  | some outside => exact ⟨by simpa [resume, watch, Step.op?] using inner, fun _ same => same⟩

end Carries

theorem Tree.carries_lined (pool : Pool) (t : Tree) (outer : Option UInt16) :
    Carries pool outer (t.steps outer) (t.lined outer) := by
  induction t generalizing outer with
  | unit => exact .nil
  | label o l => exact Carries.nil.place l
  | leaf | goto => exact .op rfl
  | branch o test start target stop first second ih₁ ih₂ =>
    have jump : Carries pool outer [.jump (some test) start target]
        [(.jump (some test) start target, outer)] := .op rfl
    have whole := jump.append ((ih₁ outer).append ((ih₂ outer).append (Carries.nil.place stop)))
    simpa [steps, lined] using whole
  | seq o first second ih₁ ih₂ => exact (ih₁ outer).append (ih₂ outer)
  | retype o inner ih => exact ih outer
  | guarded o g caught body handler ihb ihh =>
    have last := ((ihh outer).append (Carries.nil.place g.after)).place g.handler
    have left := ((Carries.exit g).append last).skip (.exit g.handler) rfl fun _ => rfl
    have body := (ihb outer).append (left.place g.stop)
    have whole := (body.skip (.enter g caught) rfl fun _ => rfl).place g.start
    simpa [steps, lined] using whole
  | line o number body ih => exact (ih (some number)).line

namespace Lines

structure Started (lines : Std.TreeMap Nat UInt16) (p : Nat) (now : Option UInt16) : Prop where
  le : ∀ k ∈ lines, k ≤ p
  latest : ∀ number, now = some number → ∃ q, lines[q]? = some number ∧ ∀ k ∈ lines, k ≤ q

variable {lines : Std.TreeMap Nat UInt16} {p : Nat}

theorem started_empty (p : Nat) : Started ∅ p none := ⟨by simp, by simp⟩

theorem Started.step (h : Started lines n now) (step : Step) :
    Started ((step.sights n).foldl see lines) (n + step.size pool) (step.current now) := by
  cases step with
  | line number =>
    have low : ∀ k ∈ lines.insert n number, k ≤ n := by
      intro k member
      rcases Std.TreeMap.mem_insert.mp member with same | old
      · rw [Nat.compare_eq_eq.mp same]
      · exact h.le k old
    refine ⟨low, fun m same => ⟨n, ?_, low⟩⟩
    cases same
    exact Std.TreeMap.getElem?_insert_self
  | _ => exact ⟨fun k member => Nat.le_trans (h.le k member) (Nat.le_add_right _ _), h.latest⟩

theorem Started.steps (h : Started lines n now) (steps : List Step) :
    Started ((sightsOf (timeline pool n steps)).foldl see lines) (reach pool n steps)
      (steps.foldl Step.current now) := by
  induction steps generalizing lines n now with
  | nil => exact h
  | cons step rest ih =>
    rw [sightsOf_cons, List.foldl_append]
    exact ih (h.step step)

theorem getElem?_foldl_see (steps : List Step) (before : p < n) :
    ((sightsOf (timeline pool n steps)).foldl see lines)[p]? = lines[p]? := by
  induction steps generalizing lines n with
  | nil => rfl
  | cons step rest ih =>
    rw [sightsOf_cons, List.foldl_append, ih (Nat.lt_of_lt_of_le before (Nat.le_add_right _ _))]
    cases step with
    | line number =>
      have apart : ¬ compare n p = .eq := fun same =>
        Nat.ne_of_gt before (Nat.compare_eq_eq.mp same)
      exact (Std.TreeMap.getElem?_insert).trans (if_neg apart)
    | _ => rfl

structure Covers (table : List LineEntry) (p : Nat) (e : LineEntry) : Prop where
  mem : e ∈ table
  le : e.start.toNat ≤ p
  last : ∀ f ∈ table, f.start.toNat ≤ p → f.start ≤ e.start

variable {sights : List Sight} {length : Nat}

theorem mem_table (small : length ≤ 65535) {e : LineEntry} :
    e ∈ table sights length ↔
      (sights.foldl see ∅)[e.start.toNat]? = some e.line ∧ e.start.toNat < length := by
  simp only [table, List.mem_map, List.mem_filter, decide_eq_true_eq, Prod.exists,
    Std.TreeMap.mem_toList_iff_getElem?_eq_some]
  constructor
  · rintro ⟨p, number, ⟨starts, inside⟩, rfl⟩
    rw [toNat_toUInt16 (by omega)]
    exact ⟨starts, inside⟩
  · rintro ⟨starts, inside⟩
    refine ⟨e.start.toNat, e.line, ⟨starts, inside⟩, ?_⟩
    simp

theorem pairwise_table (small : length ≤ 65535) :
    (table sights length).Pairwise fun a b => a.start < b.start := by
  rw [table, List.pairwise_map]
  have ordered := Std.TreeMap.ordered_keys_toList (t := sights.foldl see ∅)
  refine (ordered.filter _).imp_of_mem fun {a b} ha hb less => ?_
  have first : a.1 < length := of_decide_eq_true (List.mem_filter.mp ha).2
  have second : b.1 < length := of_decide_eq_true (List.mem_filter.mp hb).2
  rw [UInt16.lt_iff_toNat_lt, toNat_toUInt16 (by omega), toNat_toUInt16 (by omega)]
  exact Nat.compare_eq_lt.mp less

end Lines

/-- The lines that start up to an instruction are those that have started when it is met. -/
theorem Lines.getElem?_of_op {before after : List Step} {step : Step} {op : Op} {k : Nat}
    (has : step.op? = some op) (solid : 0 < op.size pool) (le : k ≤ reach pool 0 before) :
    ((sightsOf (timeline pool 0 (before ++ step :: after))).foldl see ∅)[k]? =
      ((sightsOf (timeline pool 0 before)).foldl see ∅)[k]? := by
  have silent : ∀ lines, (step.sights (reach pool 0 before)).foldl see lines = lines := by
    intro lines
    cases step with
    | line => cases has
    | _ => rfl
  have parts : sightsOf (timeline pool 0 (before ++ step :: after)) =
      sightsOf (timeline pool 0 before) ++
        sightsOf (timeline pool (reach pool 0 before) (step :: after)) := by
    simp [timeline_append, sightsOf]
  rw [parts, List.foldl_append, sightsOf_cons, List.foldl_append, silent, getElem?_foldl_see]
  rw [Step.size_of_op? has]
  omega

theorem Layout.Laid.covers_of_watch {t : Tree} {layout : Layout} (laid : layout.Laid t pool)
    (hp : pool.Coherent) (small : layout.position ≤ 65535) {p : Nat} {op : Op} {number : UInt16}
    (met : (p, op, some number) ∈ watch Step.current pool none 0 (t.steps none)) :
    ∃ e, Lines.Covers (Lines.table layout.sights.toList layout.code.size) p e ∧
      e.line = number := by
  obtain ⟨before, step, after, whole, has, rfl, now⟩ := mem_watch.mp met
  have solid : 0 < op.size pool := by
    apply laid.size_pos hp
    rw [← t.filterMap_op? none, whole]
    simp [has]
  have stays {k : Nat} (le : k ≤ reach pool 0 before) :
      (layout.sights.toList.foldl Lines.see ∅)[k]? =
        ((sightsOf (timeline pool 0 before)).foldl Lines.see ∅)[k]? := by
    rw [laid.sights, Tree.course, whole]
    exact Lines.getElem?_of_op has solid le
  have inside : reach pool 0 before < layout.position := by
    have room := le_reach pool (reach pool 0 before + step.size pool) after
    rw [laid.position, whole, reach_append, reach]
    rw [Step.size_of_op? has] at room ⊢
    omega
  have started : Lines.Started _ (reach pool 0 before) _ := (Lines.started_empty 0).steps before
  obtain ⟨q, starts, greatest⟩ := started.latest number now.symm
  have low : q ≤ reach pool 0 before :=
    started.le q (Std.TreeMap.mem_iff_isSome_getElem?.mpr (by rw [starts]; rfl))
  have fits : layout.code.size ≤ 65535 := laid.size_code ▸ small
  have back : q.toUInt16.toNat = q := toNat_toUInt16 (by omega)
  refine ⟨⟨q.toUInt16, number⟩, ⟨?_, ?_, ?_⟩, rfl⟩
  · rw [Lines.mem_table fits, laid.size_code, back, stays low]
    exact ⟨starts, by omega⟩
  · rwa [back]
  · intro f listed le
    have entered := ((Lines.mem_table fits).mp listed).1
    rw [stays le] at entered
    rw [UInt16.le_iff_toNat_le, back]
    exact greatest _ (Std.TreeMap.mem_iff_isSome_getElem?.mpr (by rw [entered]; rfl))

structure LineFound (table : List LineEntry) (x : Nat × Op) (y : Op × Option UInt16) : Prop where
  op : x.2 = y.1
  line : ∀ number, y.2 = some number → ∃ e, Lines.Covers table x.1 e ∧ e.line = number

namespace Layout

structure LinesFound (b : Body) (pool : Pool) (layout : Layout) (table : List LineEntry) :
    Prop where
  found : List.Forall₂ (LineFound table) layout.reported (b.tree.lined none)
  increasing : table.Pairwise fun a c => a.start < c.start
  below : ∀ e ∈ table, e.start.toNat < layout.code.size
  written : ∀ config this code final, b.assemble config this pool = .ok code final →
    code.code.length = layout.code.size ∧ Body.LinesWritten final code table

theorem lines_found (b : Body) (pool final : Pool) (layout : Layout) (made : pool.Made)
    (accepted : b.layOut pool = .ok layout final) :
    LinesFound b pool layout (Lines.table layout.sights.toList layout.code.size) := by
  obtain ⟨laid, filled, small⟩ := of_layOut accepted
  have hp : final.Coherent := Pool.Made.coherent (made.trans filled)
  have fits : layout.code.size ≤ 65535 := laid.size_code ▸ small
  refine ⟨?_, Lines.pairwise_table fits, ?_, ?_⟩
  · rw [laid.reported_eq Step.current none, List.forall₂_map_left_iff]
    have carried := (b.tree.carries_lined final none 0 none fun _ same => same).1
    have each := (List.forall₂_and_left _ _).mpr ⟨fun x met => met, carried⟩
    refine each.imp fun x y h => ⟨h.2.op, fun number same => ?_⟩
    obtain ⟨met, finds⟩ := h
    obtain ⟨p, op, now⟩ := x
    cases finds.line number same
    exact laid.covers_of_watch hp small met
  · exact fun e listed => ((Lines.mem_table fits).mp listed).2
  · intro config this code later assembled
    have whole := (Body.laid_of_assemble made assembled accepted).2.1
    exact ⟨Body.length_of_assemble assembled accepted,
      Body.lines_of_assemble whole assembled accepted⟩

end Layout

/-- A line that starts with one inside it, which has one byte, and a line with none. -/
def Body.annotated : Body :=
  ⟨"A.f()V", 0,
    .concat [(Tree.concat [(Tree.simple .nop).atLine 2, Tree.unit.atLine 3, .simple .nop]).atLine 1,
      .simple .returnVoid], []⟩

theorem Layout.lines_found_annotated : ∃ layout final,
    Body.annotated.layOut .empty = .ok layout final ∧
    Lines.table layout.sights.toList layout.code.size = [⟨0, 2⟩, ⟨1, 1⟩] ∧
    LinesFound Body.annotated .empty layout [⟨0, 2⟩, ⟨1, 1⟩] := by
  obtain ⟨layout, final, accepted, table⟩ : ∃ layout final,
      Body.annotated.layOut .empty = .ok layout final ∧
      Lines.table layout.sights.toList layout.code.size = [⟨0, 2⟩, ⟨1, 1⟩] :=
    ⟨_, _, by cbv, by cbv⟩
  have found := lines_found _ _ _ _ .refl accepted
  rw [table] at found
  exact ⟨layout, final, accepted, table, found⟩

end Bytecode
