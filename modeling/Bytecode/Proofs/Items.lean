import Bytecode.Proofs.Decoding
import Bytecode.Proofs.ModifiedText
import Bytecode.Proofs.Slots

/-! What the constants of a pool stand for. A constant stands for the item that is found by following
its indices; items are asked for one after the other, and an item that is missing is added after the
items that it comes down to. -/
namespace Bytecode

namespace Constant

def isText : Constant → Bool
  | utf8 _ => true
  | _ => false

def isClass : Constant → Bool
  | classRef _ => true
  | _ => false

def isNameAndType : Constant → Bool
  | nameAndType _ _ => true
  | _ => false

/-- The indices that a constant holds, with what has to stand there. -/
def parts : Constant → List (UInt16 × (Constant → Bool))
  | classRef name => [(name, isText)]
  | string text => [(text, isText)]
  | nameAndType name descriptor => [(name, isText), (descriptor, isText)]
  | fieldRef owner member | methodRef owner member | interfaceMethodRef owner member =>
    [(owner, isClass), (member, isNameAndType)]
  | _ => []

end Constant

inductive Item where
  | utf8 (text : String)
  | integer (value : Int32)
  | float (bits : UInt32)
  | long (value : Int64)
  | double (bits : UInt64)
  | classRef (name : String)
  | string (text : String)
  | fieldRef (owner name descriptor : String)
  | methodRef (owner name descriptor : String)
  | interfaceMethodRef (owner name descriptor : String)
  | nameAndType (name descriptor : String)
deriving DecidableEq

namespace Item

instance : Width Item where
  width
    | long _ => 2
    | double _ => 2
    | _ => 1

def memberParts (owner name descriptor : String) : List Item :=
  [utf8 owner, classRef owner, utf8 name, utf8 descriptor, nameAndType name descriptor]

/-- An item after the items that it comes down to, in the order in which they are asked for. -/
def trail : Item → List Item
  | classRef name => [utf8 name, classRef name]
  | string text => [utf8 text, string text]
  | nameAndType name descriptor => [utf8 name, utf8 descriptor, nameAndType name descriptor]
  | fieldRef owner name descriptor =>
    memberParts owner name descriptor ++ [fieldRef owner name descriptor]
  | methodRef owner name descriptor =>
    memberParts owner name descriptor ++ [methodRef owner name descriptor]
  | interfaceMethodRef owner name descriptor =>
    memberParts owner name descriptor ++ [interfaceMethodRef owner name descriptor]
  | x => [x]

def excess? : Item → Option Nat
  | utf8 text => if Modified.length text > 65535 then some (Modified.length text) else none
  | _ => none

end Item

inductive Refusal where
  | tooLong (length : Nat)
  | full (x : Item)

/-- Items asked for one after the other: which are there in the end, and what was refused. An item
that is missing is added, if it is not too long and there are slots for it below 65535. -/
def enlist (items : List Item) : List Item → List Item × Option Refusal
  | [] => (items, none)
  | x :: rest =>
    match x.excess? with
    | some length => (items, some (.tooLong length))
    | none =>
      if x ∈ items then enlist items rest
      else if 65535 < 1 + slots items + width x then (items, some (.full x))
      else enlist (items ++ [x]) rest

theorem enlist_append (items xs ys : List Item) :
    enlist items (xs ++ ys) =
      match enlist items xs with
      | (now, none) => enlist now ys
      | stopped => stopped := by
  induction xs generalizing items with
  | nil => rfl
  | cons x rest ih =>
    simp only [List.cons_append, enlist]
    cases x.excess? with
    | some length => rfl
    | none =>
      dsimp only
      split
      · exact ih items
      · split
        · rfl
        · exact ih (items ++ [x])

theorem enlist_new (items xs : List Item) :
    ∃ new, (enlist items xs).1 = items ++ new ∧ ∀ x ∈ new, x ∈ xs := by
  induction xs generalizing items with
  | nil => exact ⟨[], by simp [enlist]⟩
  | cons x rest ih =>
    simp only [enlist]
    split
    · exact ⟨[], by simp⟩
    · split
      · obtain ⟨new, longer, own⟩ := ih items
        exact ⟨new, longer, fun y hy => List.mem_cons_of_mem x (own y hy)⟩
      · split
        · exact ⟨[], by simp⟩
        · obtain ⟨new, longer, own⟩ := ih (items ++ [x])
          refine ⟨x :: new, by simp [longer], ?_⟩
          simpa using fun y hy => Or.inr (own y hy)

theorem enlist_full_iff {items now xs : List Item} {x : Item} :
    enlist items xs = (now, some (.full x)) ↔
      ∃ before rest, xs = before ++ x :: rest ∧ enlist items before = (now, none) ∧
        x.excess? = none ∧ x ∉ now ∧ 65535 < 1 + slots now + width x := by
  constructor
  · induction xs generalizing items with
    | nil => simp [enlist]
    | cons y rest ih =>
      intro h
      simp only [enlist] at h
      split at h
      · cases h
      · rename_i short
        split at h
        · rename_i present
          obtain ⟨before, rest', rfl, first, last⟩ := ih h
          exact ⟨y :: before, rest', rfl, by simp [enlist, short, present, first], last⟩
        · rename_i absent
          split at h
          · rename_i full
            cases h
            exact ⟨[], rest, rfl, rfl, short, absent, full⟩
          · rename_i room
            obtain ⟨before, rest', rfl, first, last⟩ := ih h
            exact ⟨y :: before, rest', rfl, by simp [enlist, short, absent, room, first], last⟩
  · rintro ⟨before, rest, rfl, first, short, absent, full⟩
    simp [enlist_append, first, enlist, short, absent, full]

theorem exists_of_enlist_tooLong {items now xs : List Item} {length : Nat}
    (h : enlist items xs = (now, some (.tooLong length))) :
    ∃ text, .utf8 text ∈ xs ∧ length = Modified.length text ∧ 65535 < Modified.length text := by
  induction xs generalizing items with
  | nil => simp [enlist] at h
  | cons x rest ih =>
    have later : ∀ items, enlist items rest = (now, some (.tooLong length)) →
        ∃ text, .utf8 text ∈ x :: rest ∧ length = Modified.length text ∧
          65535 < Modified.length text := by
      intro items h
      obtain ⟨text, member, long⟩ := ih h
      exact ⟨text, List.mem_cons_of_mem x member, long⟩
    simp only [enlist] at h
    split at h
    · rename_i excess
      cases h
      cases x <;> simp [Item.excess?] at excess
      exact ⟨_, by simp, excess.2.symm, excess.1⟩
    · split at h
      · exact later _ h
      · split at h
        · cases h
        · exact later _ h

namespace Pool

def read (p : Pool) : Constant → Option Item
  | .utf8 text => some (.utf8 text)
  | .integer value => some (.integer value)
  | .float bits => some (.float bits)
  | .long value => some (.long value)
  | .double bits => some (.double bits)
  | .classRef name => (p.text? name).map .classRef
  | .string text => (p.text? text).map .string
  | .fieldRef owner member => (p.member? owner member).map fun (o, n, d) => .fieldRef o n d
  | .methodRef owner member => (p.member? owner member).map fun (o, n, d) => .methodRef o n d
  | .interfaceMethodRef owner member =>
    (p.member? owner member).map fun (o, n, d) => .interfaceMethodRef o n d
  | .nameAndType name descriptor => return .nameAndType (← p.text? name) (← p.text? descriptor)

def item? (p : Pool) (index : UInt16) : Option Item := (p.get? index).bind p.read

def items (p : Pool) : List Item := p.entries.values.filterMap p.read

def Retains (p q : Pool) : Prop := ∀ i c, p.get? i = some c → q.get? i = some c

def Supports (p : Pool) (c : Constant) : Prop :=
  ∀ part ∈ c.parts, ∃ d, p.get? part.1 = some d ∧ part.2 d

variable {p q : Pool} {i j : UInt16} {c d : Constant} {x : Item}

theorem text?_eq_some {text : String} : p.text? i = some text ↔ p.get? i = some (.utf8 text) := by
  unfold text?
  split
  · rename_i found
    simp [found]
  · rename_i other
    constructor
    · intro h
      cases h
    · intro h
      exact absurd h (other text)

theorem class?_eq_some {name : String} :
    p.class? i = some name ↔ ∃ k, p.get? i = some (.classRef k) ∧ p.text? k = some name := by
  unfold class?
  split
  · rename_i k found
    simp [found]
  · rename_i other
    constructor
    · intro h
      cases h
    · rintro ⟨k, h, _⟩
      exact absurd h (other k)

theorem nameAndType?_eq_some {name descriptor : String} :
    p.nameAndType? i = some (name, descriptor) ↔
      ∃ k l, p.get? i = some (.nameAndType k l) ∧ p.text? k = some name ∧
        p.text? l = some descriptor := by
  unfold nameAndType?
  split
  · rename_i k l found
    simp [found, Option.bind_eq_some_iff]
  · rename_i other
    constructor
    · intro h
      cases h
    · rintro ⟨k, l, h, _⟩
      exact absurd h (other k l)

theorem member?_eq_some {owner name descriptor : String} :
    p.member? i j = some (owner, name, descriptor) ↔
      p.class? i = some owner ∧ p.nameAndType? j = some (name, descriptor) := by
  simp [member?, Option.bind_eq_some_iff]

namespace Retains

theorem refl (p : Pool) : p.Retains p := fun _ _ h => h

theorem trans {r : Pool} (first : p.Retains q) (second : q.Retains r) : p.Retains r :=
  fun i c h => second i c (first i c h)

theorem text? (h : p.Retains q) {text : String} (found : p.text? i = some text) :
    q.text? i = some text :=
  text?_eq_some.mpr (h i _ (text?_eq_some.mp found))

theorem class? (h : p.Retains q) {name : String} (found : p.class? i = some name) :
    q.class? i = some name := by
  obtain ⟨k, here, text⟩ := class?_eq_some.mp found
  exact class?_eq_some.mpr ⟨k, h i _ here, h.text? text⟩

theorem nameAndType? (h : p.Retains q) {name descriptor : String}
    (found : p.nameAndType? i = some (name, descriptor)) :
    q.nameAndType? i = some (name, descriptor) := by
  obtain ⟨k, l, here, first, second⟩ := nameAndType?_eq_some.mp found
  exact nameAndType?_eq_some.mpr ⟨k, l, h i _ here, h.text? first, h.text? second⟩

theorem member? (h : p.Retains q) {m : String × String × String}
    (found : p.member? i j = some m) : q.member? i j = some m := by
  obtain ⟨owner, name, descriptor⟩ := m
  obtain ⟨first, second⟩ := member?_eq_some.mp found
  exact member?_eq_some.mpr ⟨h.class? first, h.nameAndType? second⟩

theorem read (h : p.Retains q) (found : p.read c = some x) : q.read c = some x := by
  cases c with
  | classRef | string =>
    obtain ⟨text, first, rfl⟩ := Option.map_eq_some_iff.mp found
    simp [Pool.read, h.text? first]
  | nameAndType name descriptor =>
    simp only [Pool.read, Option.bind_eq_bind, Option.bind_eq_some_iff, Option.pure_def,
      Option.some.injEq] at found
    obtain ⟨n, first, d, second, rfl⟩ := found
    simp [Pool.read, h.text? first, h.text? second]
  | fieldRef | methodRef | interfaceMethodRef =>
    obtain ⟨m, first, rfl⟩ := Option.map_eq_some_iff.mp found
    simp [Pool.read, h.member? first]
  | _ => exact found

theorem item? (h : p.Retains q) (found : p.item? i = some x) : q.item? i = some x := by
  obtain ⟨c, here, stands⟩ := Option.bind_eq_some_iff.mp found
  exact Option.bind_eq_some_iff.mpr ⟨c, h i c here, h.read stands⟩

end Retains

theorem isText_of_text? {text : String} (h : p.text? i = some text) :
    ∃ d, p.get? i = some d ∧ d.isText :=
  ⟨_, text?_eq_some.mp h, rfl⟩

theorem supports_of_member? {m : String × String × String} (h : p.member? i j = some m) :
    ∀ part ∈ [(i, Constant.isClass), (j, Constant.isNameAndType)],
      ∃ d, p.get? part.1 = some d ∧ part.2 d := by
  obtain ⟨owner, name, descriptor⟩ := m
  obtain ⟨first, second⟩ := member?_eq_some.mp h
  obtain ⟨k, here, _⟩ := class?_eq_some.mp first
  obtain ⟨l, m, there, _⟩ := nameAndType?_eq_some.mp second
  simp only [List.forall_mem_cons]
  exact ⟨⟨_, here, rfl⟩, ⟨_, there, rfl⟩, by simp⟩

theorem supports_of_read (h : p.read c = some x) : p.Supports c := by
  cases c with
  | classRef | string =>
    obtain ⟨text, first, _⟩ := Option.map_eq_some_iff.mp h
    simpa [Supports, Constant.parts] using isText_of_text? first
  | nameAndType name descriptor =>
    simp only [read, Option.bind_eq_bind, Option.bind_eq_some_iff] at h
    obtain ⟨n, first, d, second, _⟩ := h
    simpa [Supports, Constant.parts] using ⟨isText_of_text? first, isText_of_text? second⟩
  | fieldRef | methodRef | interfaceMethodRef =>
    obtain ⟨m, first, _⟩ := Option.map_eq_some_iff.mp h
    exact supports_of_member? first
  | _ => simp [Supports, Constant.parts]

theorem width_of_read (h : p.read c = some x) : width x = width c := by
  cases c with
  | classRef | string =>
    obtain ⟨_, _, rfl⟩ := Option.map_eq_some_iff.mp h
    rfl
  | nameAndType name descriptor =>
    simp only [read, Option.bind_eq_bind, Option.bind_eq_some_iff] at h
    obtain ⟨_, _, _, _, same⟩ := h
    cases same
    rfl
  | fieldRef | methodRef | interfaceMethodRef =>
    obtain ⟨_, _, rfl⟩ := Option.map_eq_some_iff.mp h
    rfl
  | _ =>
    cases h
    rfl

end Pool

end Bytecode
