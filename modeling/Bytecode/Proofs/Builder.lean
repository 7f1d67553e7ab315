import Bytecode.Proofs.Refusals
import Bytecode.Proofs.Supply

/-! Trees with labels, as they are built. All labels come from one supply. Some are handed out, to
be placed and jumped to at will; the others belong to the call that took them, which places each of
them once in the tree that it makes. So the labels of a tree are distinct exactly if no tree with
labels of its own is used twice in it and no label that was handed out is placed twice; and only a
label that was handed out can be missing. All this is so until the supply comes round: then a call
takes labels that belong to another. -/
namespace Bytecode

/-- For each label taken so far the call that took it, or none if it was handed out. Calls are
numbered. -/
structure Ledger where
  takers : List (Option Nat)
  calls : Nat
  below : ∀ c, some c ∈ takers → c < calls

namespace Ledger

def empty : Ledger := ⟨[], 0, nofun⟩

/-- How many labels were taken. -/
def next (g : Ledger) : Nat := g.takers.length

def supply (g : Ledger) : UInt32 := .ofNat g.next

/-- A label that was handed out. -/
def Given (g : Ledger) (l : Label) : Prop := g.takers[l.id.toNat]? = some none

def Owns (g : Ledger) (c : Nat) (l : Label) : Prop := g.takers[l.id.toNat]? = some (some c)

theorem below_append {takers : List (Option Nat)} {calls later count : Nat} {taker : Option Nat}
    (below : ∀ c, some c ∈ takers → c < calls) (grows : calls ≤ later)
    (new : ∀ c, taker = some c → c < later) :
    ∀ c, some c ∈ takers ++ List.replicate count taker → c < later := by
  intro c member
  rcases List.mem_append.mp member with old | added
  · exact (below c old).trans_le grows
  · exact new c (List.eq_of_mem_replicate added).symm

def handOut (g : Ledger) (upTo : UInt32) : Ledger where
  takers := g.takers ++ List.replicate (upTo - g.supply).toNat none
  calls := g.calls
  below := below_append g.below le_rfl nofun

def call (g : Ledger) (upTo : UInt32) : Ledger where
  takers := g.takers ++ List.replicate (upTo - g.supply).toNat (some g.calls)
  calls := g.calls + 1
  below := below_append g.below (Nat.le_succ _) fun _ same => by
    cases same
    exact Nat.lt_succ_self _

structure Later (g h : Ledger) : Prop where
  kept : ∀ n, n < g.next → h.takers[n]? = g.takers[n]?
  new : ∀ n c, g.next ≤ n → h.takers[n]? = some (some c) → g.calls ≤ c

variable {g h : Ledger} {l : Label} {c : Nat}

theorem Given.lt_next (given : g.Given l) : l.id.toNat < g.next :=
  (List.getElem?_eq_some_iff.mp given).1

theorem Owns.lt_next (owns : g.Owns c l) : l.id.toNat < g.next :=
  (List.getElem?_eq_some_iff.mp owns).1

theorem Owns.lt_calls (owns : g.Owns c l) : c < g.calls := g.below c (List.mem_of_getElem? owns)

theorem Later.lt_next (later : g.Later h) {n : Nat} (old : n < g.next) : n < h.next := by
  have found := List.getElem?_eq_getElem old
  rw [← later.kept n old] at found
  exact (List.getElem?_eq_some_iff.mp found).1

theorem Later.given (later : g.Later h) (given : g.Given l) : h.Given l :=
  (later.kept l.id.toNat given.lt_next).trans given

theorem Later.owns (later : g.Later h) (owns : g.Owns c l) : h.Owns c l :=
  (later.kept l.id.toNat owns.lt_next).trans owns

theorem Later.owns_iff (later : g.Later h) (old : c < g.calls) : h.Owns c l ↔ g.Owns c l := by
  refine ⟨fun owns => ?_, later.owns⟩
  by_cases before : l.id.toNat < g.next
  · exact (later.kept l.id.toNat before).symm.trans owns
  · exact absurd (later.new l.id.toNat c (by omega) owns) (by omega)

theorem later_append {count : Nat} {taker : Option Nat}
    (added : h.takers = g.takers ++ List.replicate count taker)
    (new : ∀ c, taker = some c → g.calls ≤ c) : g.Later h := by
  refine ⟨fun n old => ?_, fun n c after found => ?_⟩
  · rw [added, List.getElem?_append_left old]
  · rw [added, List.getElem?_append_right after] at found
    exact new c (List.eq_of_mem_replicate (List.mem_of_getElem? found)).symm

theorem next_append {count : Nat} {taker : Option Nat}
    (added : h.takers = g.takers ++ List.replicate count taker) : h.next = g.next + count := by
  rw [next, added, List.length_append, List.length_replicate, next]

theorem later_handOut (g : Ledger) (upTo : UInt32) : g.Later (g.handOut upTo) :=
  later_append rfl nofun

theorem later_call (g : Ledger) (upTo : UInt32) : g.Later (g.call upTo) :=
  later_append rfl fun _ same => (Option.some.inj same).le

section

variable {upTo : UInt32}

theorem next_call : (g.call upTo).next = g.next + (upTo - g.supply).toNat := next_append rfl

theorem next_handOut : (g.handOut upTo).next = g.next + (upTo - g.supply).toNat := next_append rfl

/-- The next label is the one at which the call has stopped. -/
theorem supply_call : (g.call upTo).supply = upTo := by
  rw [supply, next_call, UInt32.ofNat_add, UInt32.ofNat_toNat]
  exact add_sub_cancel _ _

/-- The labels that a call takes are those after the old ones, as long as there are labels left. -/
theorem mem_labelsFrom_iff (few : (g.call upTo).next ≤ 2 ^ 32) :
    l ∈ Tree.labelsFrom g.supply upTo ↔ g.next ≤ l.id.toNat ∧ l.id.toNat < (g.call upTo).next := by
  have small := l.id.toNat_lt
  have supply : g.supply.toNat = g.next % 2 ^ 32 := UInt32.toNat_ofNat ..
  rw [Tree.mem_labelsFrom, UInt32.lt_iff_toNat_lt, UInt32.toNat_sub, supply]
  rw [next_call] at few ⊢
  omega

theorem owns_call (few : (g.call upTo).next ≤ 2 ^ 32) (new : l ∈ Tree.labelsFrom g.supply upTo) :
    (g.call upTo).Owns g.calls l := by
  obtain ⟨low, high⟩ := (mem_labelsFrom_iff few).mp new
  rw [next_call] at high
  show (g.takers ++ List.replicate _ (some g.calls))[l.id.toNat]? = some (some g.calls)
  rw [List.getElem?_append_right low, List.getElem?_replicate, if_pos]
  show l.id.toNat - g.next < (upTo - g.supply).toNat
  omega

theorem owns_call_iff (few : (g.call upTo).next ≤ 2 ^ 32) :
    (g.call upTo).Owns c l ↔ g.Owns c l ∨ c = g.calls ∧ l ∈ Tree.labelsFrom g.supply upTo := by
  constructor
  · intro owns
    by_cases before : l.id.toNat < g.next
    · exact .inl (((later_call g upTo).kept l.id.toNat before).symm.trans owns)
    · have new := (mem_labelsFrom_iff few).mpr ⟨by omega, owns.lt_next⟩
      have same : some (some c) = some (some g.calls) := owns.symm.trans (owns_call few new)
      cases same
      exact .inr ⟨rfl, new⟩
  · rintro (old | ⟨rfl, new⟩)
    · exact (later_call g upTo).owns old
    · exact owns_call few new

end

end Ledger

/-- A tree with a record of how it was built: the calls whose labels it holds, each as often as it
holds them; the labels that were placed in it by hand; and those of them that were left out again,
together with what they stood in, because it came after a jump backward. -/
structure Piece where
  tree : Tree
  calls : List Nat
  asked : List Label
  lost : List Label

namespace Piece

def plain (t : Tree) : Piece := ⟨t, [], [], []⟩

def place (l : Label) : Piece := ⟨.place l, [], [l], []⟩

def andThen (p q : Piece) : Piece where
  tree := p.tree.andThen q.tree
  calls := p.calls ++ if p.tree.back then [] else q.calls
  asked := p.asked ++ q.asked
  lost := p.lost ++ if p.tree.back then q.asked else q.lost

def onTree (p : Piece) (f : Tree → Tree) : Piece := { p with tree := f p.tree }

def made (parts : List Piece) (call : Nat) (t : Tree) : Piece :=
  ⟨t, call :: parts.flatMap calls, parts.flatMap asked, parts.flatMap lost⟩

structure Sound (g : Ledger) (p : Piece) : Prop where
  flow : p.tree.back → p.tree.ends
  taken : ∀ l ∈ p.tree.placed, l.id.toNat < g.next
  /-- A label of a call stands as often in the tree as the call does. -/
  owned : ∀ l c, g.Owns c l → p.tree.placed.count l = p.calls.count c
  owning : ∀ c ∈ p.calls, ∃ l, g.Owns c l
  aims : ∀ j ∈ p.tree.jumps, j.2 ∈ p.tree.placed ∨ g.Given j.2
  closed : p.tree.Closed
  asked : ∀ l ∈ p.asked, l ∈ p.tree.placed ∨ l ∈ p.lost

variable {g h : Ledger} {p q : Piece}

theorem Sound.lt_calls (sound : p.Sound g) {c : Nat} (member : c ∈ p.calls) : c < g.calls := by
  obtain ⟨l, owns⟩ := sound.owning c member
  exact owns.lt_calls

theorem Sound.later (sound : p.Sound g) (later : g.Later h) : p.Sound h where
  flow := sound.flow
  taken l placed := later.lt_next (sound.taken l placed)
  owned l c owns := by
    by_cases old : c < g.calls
    · exact sound.owned l c ((later.owns_iff old).mp owns)
    · -- Neither the call nor its label is known to the piece.
      have foreign : l ∉ p.tree.placed := by
        intro placed
        have before := sound.taken l placed
        rw [Ledger.Owns, later.kept l.id.toNat before] at owns
        exact old (Ledger.Owns.lt_calls owns)
      rw [List.count_eq_zero_of_not_mem foreign,
        List.count_eq_zero_of_not_mem fun member => old (sound.lt_calls member)]
  owning c member := by
    obtain ⟨l, owns⟩ := sound.owning c member
    exact ⟨l, later.owns owns⟩
  aims j member := (sound.aims j member).imp_right later.given
  closed := sound.closed
  asked := sound.asked

theorem sound_plain {t : Tree} (flow : t.back → t.ends) (placed : t.placed = [])
    (jumps : t.jumps = []) (closed : t.Closed) : (plain t).Sound g where
  flow := flow
  taken := by simp [plain, placed]
  owned := by simp [plain, placed]
  owning := nofun
  aims := by simp [plain, jumps]
  closed := closed
  asked := nofun

theorem sound_place {l : Label} (given : g.Given l) : (place l).Sound g where
  flow := nofun
  taken k placed := by
    rw [List.mem_singleton.mp placed]
    exact given.lt_next
  owned k c owns := by
    refine List.count_eq_zero_of_not_mem fun placed => ?_
    rw [List.mem_singleton.mp placed, Ledger.Owns, given] at owns
    cases owns
  owning := nofun
  aims := nofun
  closed := Tree.closed_label
  asked k member := .inl member

theorem Sound.andThen (hp : p.Sound g) (hq : q.Sound g) : (p.andThen q).Sound g where
  flow back := Tree.ends_andThen_of_back back hp.flow hq.flow
  taken l placed := by
    simp only [Piece.andThen, Tree.placed_andThen, List.mem_append] at placed
    rcases placed with placed | placed
    · exact hp.taken l placed
    · split at placed
      · cases placed
      · exact hq.taken l placed
  owned l c owns := by
    simp only [Piece.andThen, Tree.placed_andThen, List.count_append, hp.owned l c owns]
    split
    · rfl
    · rw [hq.owned l c owns]
  owning c member := by
    rcases List.mem_append.mp member with member | member
    · exact hp.owning c member
    · split at member
      · cases member
      · exact hq.owning c member
  aims j member := by
    simp only [Piece.andThen, Tree.jumps_andThen, Tree.placed_andThen, List.mem_append] at *
    rcases member with member | member
    · exact (hp.aims j member).imp_left .inl
    · split at member
      · cases member
      · rename_i ahead
        rw [if_neg ahead]
        exact (hq.aims j member).imp_left .inr
  closed := hp.closed.andThen hq.closed
  asked l member := by
    simp only [Piece.andThen, Tree.placed_andThen, List.mem_append] at *
    rcases member with member | member
    · exact (hp.asked l member).imp .inl .inl
    · split
      · exact .inr (.inr member)
      · exact (hq.asked l member).imp .inr .inr

theorem Sound.onTree {f : Tree → Tree} (sound : p.Sound g)
    (flow : (f p.tree).back → (f p.tree).ends) (placed : (f p.tree).placed = p.tree.placed)
    (jumps : (f p.tree).jumps = p.tree.jumps) (closed : (f p.tree).Closed) :
    (p.onTree f).Sound g where
  flow := flow
  taken := by simpa [Piece.onTree, placed] using sound.taken
  owned := by simpa [Piece.onTree, placed] using sound.owned
  owning := sound.owning
  aims := by simpa [Piece.onTree, placed, jumps] using sound.aims
  closed := closed
  asked := by simpa [Piece.onTree, placed] using sound.asked

theorem Sound.drop (sound : p.Sound g) : (p.onTree Tree.drop).Sound g := by
  obtain ⟨placed, jumps, closed, _⟩ := Tree.pop_plain p.tree.type
  have flow := fun back => Tree.ends_drop_of_back back sound.flow
  rcases Tree.drop_cases p.tree with ⟨o, l, shape, dropped⟩ | dropped
  · apply sound.onTree flow <;> rw [dropped]
    · rw [shape]; rfl
    · rw [shape]; rfl
    · exact Tree.closed_unit
  · apply sound.onTree flow <;> rw [dropped]
    · simp [Tree.placed_andThen, placed]
    · simp [Tree.jumps_andThen, jumps]
    · exact sound.closed.andThen closed

/-- A label of a call stands as often in all pieces together as the call does. -/
theorem count_placed {parts : List Piece} (sound : ∀ p ∈ parts, p.Sound g) {l : Label} {c : Nat}
    (owns : g.Owns c l) :
    ((parts.map tree).flatMap Tree.placed).count l = (parts.flatMap calls).count c := by
  induction parts with
  | nil => rfl
  | cons p rest ih =>
    have first := (sound p (by simp)).owned l c owns
    have others := ih fun q member => sound q (List.mem_cons_of_mem p member)
    simp only [List.map_cons, List.flatMap_cons, List.count_append, first, others]

section

variable {parts : List Piece} {aims : List Label} {t : Tree} {upTo : UInt32}

theorem lt_next_of_parts (sound : ∀ p ∈ parts, p.Sound g) {l : Label}
    (member : l ∈ (parts.map tree).flatMap Tree.placed) : l.id.toNat < g.next := by
  obtain ⟨_, member, placed⟩ := List.mem_flatMap.mp member
  obtain ⟨p, part, rfl⟩ := List.mem_map.mp member
  exact (sound p part).taken l placed

/-- The labels that a call takes are its own, and stand once in what it makes. -/
theorem owned_made (few : (g.call upTo).next ≤ 2 ^ 32) (sound : ∀ p ∈ parts, p.Sound g)
    (takes : Tree.Takes (parts.map tree) aims g.supply (t, upTo)) {l : Label} {c : Nat}
    (owns : (g.call upTo).Owns c l) :
    t.placed.count l = (g.calls :: parts.flatMap calls).count c := by
  rw [takes.placed.count_eq, List.count_append]
  rcases (Ledger.owns_call_iff few).mp owns with old | ⟨rfl, new⟩
  · have before := old.lt_next
    have foreign : l ∉ Tree.labelsFrom g.supply upTo := fun new =>
      absurd ((Ledger.mem_labelsFrom_iff few).mp new).1 (by omega)
    rw [List.count_eq_zero_of_not_mem foreign, count_placed sound old,
      List.count_cons_of_ne old.lt_calls.ne', Nat.zero_add]
  · have after := ((Ledger.mem_labelsFrom_iff few).mp new).1
    have foreign : l ∉ (parts.map tree).flatMap Tree.placed := fun placed =>
      absurd (lt_next_of_parts sound placed) (by omega)
    have fresh : g.calls ∉ parts.flatMap calls := by
      intro member
      obtain ⟨p, part, member⟩ := List.mem_flatMap.mp member
      exact lt_irrefl _ ((sound p part).lt_calls member)
    rw [List.count_eq_zero_of_not_mem foreign, List.count_cons_self,
      List.count_eq_zero_of_not_mem fresh,
      List.count_eq_one_of_mem (Tree.nodup_labelsFrom _ _) new]

theorem sound_made (few : (g.call upTo).next ≤ 2 ^ 32) (sound : ∀ p ∈ parts, p.Sound g)
    (given : ∀ l ∈ aims, g.Given l)
    (takes : Tree.Takes (parts.map tree) aims g.supply (t, upTo)) :
    (made parts g.calls t).Sound (g.call upTo) := by
  have later := g.later_call upTo
  have kept : ∀ p ∈ parts, ∀ {l}, l ∈ p.tree.placed → l ∈ t.placed := fun p part l placed =>
    takes.placed.mem_iff.mpr (List.mem_append_right _
      (List.mem_flatMap.mpr ⟨p.tree, List.mem_map_of_mem part, placed⟩))
  refine ⟨takes.flow, fun l placed => ?_, fun l c => owned_made few sound takes, fun c member => ?_,
    fun j member => ?_, takes.closed (by simpa using fun p part => (sound p part).closed),
    fun l member => ?_⟩
  · rcases List.mem_append.mp (takes.placed.mem_iff.mp placed) with new | placed
    · exact (Ledger.owns_call few new).lt_next
    · exact later.lt_next (lt_next_of_parts sound placed)
  · rcases List.mem_cons.mp member with rfl | member
    · exact ⟨⟨g.supply⟩, Ledger.owns_call few takes.first_mem⟩
    · obtain ⟨p, part, member⟩ := List.mem_flatMap.mp member
      exact ((sound p part).later later).owning c member
  · rcases takes.jumps j member with placed | aimed | ⟨_, member, inside⟩
    · exact .inl placed
    · exact .inr (later.given (given j.2 aimed))
    · obtain ⟨p, part, rfl⟩ := List.mem_map.mp member
      exact (((sound p part).later later).aims j inside).imp_left (kept p part)
  · obtain ⟨p, part, member⟩ := List.mem_flatMap.mp member
    refine ((sound p part).asked l member).imp (kept p part) fun lost => ?_
    exact List.mem_flatMap.mpr ⟨p, part, lost⟩

end

end Piece

structure Bench where
  ledger : Ledger
  pieces : List Piece

namespace Bench

def start : Bench := ⟨.empty, []⟩

def Given (b : Bench) (l : Label) : Prop := b.ledger.Given l

def handOut (b : Bench) : Bench := ⟨b.ledger.handOut (fresh b.ledger.supply).2, b.pieces⟩

def add (b : Bench) (p : Piece) : Bench := ⟨b.ledger, p :: b.pieces⟩

def call (b : Bench) (parts : List Piece) (make : LabelM Tree) : Bench :=
  ⟨b.ledger.call (make b.ledger.supply).2,
    .made parts b.ledger.calls (make b.ledger.supply).1 :: b.pieces⟩

inductive Step (b : Bench) : Bench → Prop where
  | label : Step b b.handOut
  | unit : Step b (b.add (.plain .unit))
  | leaf (o : Outcome) (l : Leaf) (ahead : o.back = false) : Step b (b.add (.plain (.leaf o l)))
  | place (l : Label) (given : b.Given l) : Step b (b.add (.place l))
  | andThen {p q : Piece} (first : p ∈ b.pieces) (second : q ∈ b.pieces) :
    Step b (b.add (p.andThen q))
  | declare {p : Piece} (type : ResultType) (member : p ∈ b.pieces) :
    Step b (b.add (p.onTree (·.declare type)))
  | atLine {p : Piece} (number : UInt16) (member : p ∈ b.pieces) :
    Step b (b.add (p.onTree (·.atLine number)))
  | drop {p : Piece} (member : p ∈ b.pieces) : Step b (b.add (p.onTree .drop))
  | jump (target : Label) (given : b.Given target) : Step b (b.call [] (Tree.jump target))
  | jumpBack (target : Label) (given : b.Given target) : Step b (b.call [] (Tree.jumpBack target))
  | forever : Step b (b.call [] Tree.forever)
  | ifElse (test : Test) {yes no : Piece} (first : yes ∈ b.pieces) (second : no ∈ b.pieces) :
    Step b (b.call [yes, no] (Tree.ifElse test yes.tree no.tree))
  | ifOnly (test : Test) {yes : Piece} (member : yes ∈ b.pieces) :
    Step b (b.call [yes] (Tree.ifOnly test yes.tree))
  | tryCatch (caught : Option BinaryName) {body handler : Piece} (first : body ∈ b.pieces)
      (second : handler ∈ b.pieces) :
    Step b (b.call [body, handler] (Tree.tryCatch body.tree caught handler.tree))

inductive Built : Bench → Prop where
  | start : Built start
  | step {b c : Bench} : Built b → Step b c → Built c

def Sound (b : Bench) : Prop := ∀ p ∈ b.pieces, p.Sound b.ledger

variable {b c : Bench} {p : Piece}

theorem Sound.add (h : b.Sound) (new : p.Sound b.ledger) : (b.add p).Sound := by
  intro q member
  rcases List.mem_cons.mp member with rfl | member
  · exact new
  · exact h q member

theorem Sound.call (h : b.Sound) {parts : List Piece} {aims : List Label} {make : LabelM Tree}
    (few : (b.call parts make).ledger.next ≤ 2 ^ 32)
    (takes : Tree.Takes (parts.map Piece.tree) aims b.ledger.supply (make b.ledger.supply))
    (present : ∀ p ∈ parts, p ∈ b.pieces) (given : ∀ l ∈ aims, b.Given l) :
    (b.call parts make).Sound := by
  intro q member
  rcases List.mem_cons.mp member with rfl | member
  · exact Piece.sound_made few (fun p part => h p (present p part)) given takes
  · exact (h q member).later (b.ledger.later_call _)

theorem Step.next_le (step : Step b c) : b.ledger.next ≤ c.ledger.next := by
  cases step with
  | label => exact (Nat.le_add_right ..).trans_eq Ledger.next_handOut.symm
  | unit | leaf | place | andThen | declare | atLine | drop => exact le_rfl
  | jump | jumpBack | forever | ifElse | ifOnly | tryCatch =>
    exact (Nat.le_add_right ..).trans_eq Ledger.next_call.symm

/-- Whatever is done, what is known of the pieces stays known, and is known of the new one. -/
theorem Step.sound (step : Step b c) (few : c.ledger.next ≤ 2 ^ 32) (h : b.Sound) : c.Sound := by
  cases step with
  | label => exact fun q member => (h q member).later (b.ledger.later_handOut _)
  | unit =>
    have ahead : Tree.unit.back = false := rfl
    exact h.add (Piece.sound_plain (by simp [ahead]) rfl rfl Tree.closed_unit)
  | leaf o l ahead =>
    refine h.add (Piece.sound_plain (fun back => ?_) rfl rfl Tree.closed_leaf)
    rw [Tree.back, Tree.outcome, ahead] at back
    cases back
  | place l given => exact h.add (Piece.sound_place given)
  | andThen first second => exact h.add ((h _ first).andThen (h _ second))
  | declare type member =>
    have old := h _ member
    exact h.add (old.onTree old.flow rfl rfl (Tree.closed_retype.mpr old.closed))
  | atLine number member =>
    have old := h _ member
    exact h.add (old.onTree old.flow rfl rfl (Tree.closed_line.mpr old.closed))
  | drop member => exact h.add (h _ member).drop
  | jump target given => exact h.call few (Tree.takes_jump _ target) (by simp) (by simpa using given)
  | jumpBack target given =>
    exact h.call few (Tree.takes_jumpBack _ target) (by simp) (by simpa using given)
  | forever => exact h.call few (Tree.takes_forever _) (by simp) (by simp)
  | ifElse test first second =>
    exact h.call few (Tree.takes_ifElse _ test _ _ (h _ second).flow) (by simp [first, second])
      (by simp)
  | ifOnly test member => exact h.call few (Tree.takes_ifOnly _ test _) (by simp [member]) (by simp)
  | tryCatch caught first second =>
    exact h.call few (Tree.takes_tryCatch _ _ _ caught) (by simp [first, second]) (by simp)

theorem Built.sound (built : Built b) (few : b.ledger.next ≤ 2 ^ 32) : b.Sound := by
  induction built with
  | start => exact nofun
  | step _ step ih => exact step.sound few (ih (step.next_le.trans few))

end Bench

end Bytecode
