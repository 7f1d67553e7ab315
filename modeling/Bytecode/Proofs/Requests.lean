import Bytecode.Proofs.Items

/-! The constant pool under requests of any kind and in any order, granted or not. A sound pool
stands for a list of distinct items. A request adds what is missing of the item it is for, parts
first, and stops where an item does not fit. -/
namespace Bytecode

namespace Pool

/-- The representation invariant: what an entry refers to stands before it, and every text can be
written. -/
structure Sound (p : Pool) : Prop extends Coherent p where
  refers : ∀ n c, (n, c) ∈ p.entries.toList → ∀ part ∈ c.parts, part.1.toNat < n ∧
    ∃ d, (part.1.toNat, d) ∈ p.entries.toList ∧ part.2 d
  short : ∀ text, .utf8 text ∈ p.entries.values → (Modified.encode text).length ≤ 65535

namespace Sound

variable {p q : Pool} {i j : UInt16} {c d : Constant} {x : Item}

theorem supports (h : p.Sound) (found : p.get? i = some c) : p.Supports c := by
  intro part member
  obtain ⟨_, d, there, kind⟩ := h.refers _ c (get?_iff.mp found) part member
  exact ⟨d, get?_iff.mpr there, kind⟩

theorem text_unique (h : p.Sound) {text : String} (first : p.text? i = some text)
    (second : p.text? j = some text) : i = j :=
  h.index_unique (text?_eq_some.mp first) (text?_eq_some.mp second)

theorem class_unique (h : p.Sound) {name : String} (first : p.class? i = some name)
    (second : p.class? j = some name) : i = j := by
  obtain ⟨k, here, text⟩ := class?_eq_some.mp first
  obtain ⟨l, there, text'⟩ := class?_eq_some.mp second
  rw [h.text_unique text text'] at here
  exact h.index_unique here there

theorem nameAndType_unique (h : p.Sound) {m : String × String}
    (first : p.nameAndType? i = some m) (second : p.nameAndType? j = some m) : i = j := by
  obtain ⟨name, descriptor⟩ := m
  obtain ⟨k, l, here, one, two⟩ := nameAndType?_eq_some.mp first
  obtain ⟨k', l', there, one', two'⟩ := nameAndType?_eq_some.mp second
  rw [h.text_unique one one', h.text_unique two two'] at here
  exact h.index_unique here there

theorem member_unique (h : p.Sound) {i' j' : UInt16} {m : String × String × String}
    (first : p.member? i j = some m) (second : p.member? i' j' = some m) : i = i' ∧ j = j' := by
  obtain ⟨owner, name, descriptor⟩ := m
  obtain ⟨one, two⟩ := member?_eq_some.mp first
  obtain ⟨one', two'⟩ := member?_eq_some.mp second
  exact ⟨h.class_unique one one', h.nameAndType_unique two two'⟩

/-- No two constants stand for the same item. -/
theorem read_injective (h : p.Sound) (first : p.read c = some x) (second : p.read d = some x) :
    c = d := by
  cases c <;> cases d <;>
    simp only [read, Option.bind_eq_bind, Option.bind_eq_some_iff, Option.map_eq_some_iff,
      Option.some.injEq, Option.pure_def] at first second
  all_goals grind [h.text_unique, h.member_unique]

theorem exists_class (h : p.Sound) (found : ∃ d, p.get? i = some d ∧ d.isClass) :
    ∃ name, p.class? i = some name := by
  obtain ⟨d, here, kind⟩ := found
  cases d with
  | classRef k =>
    obtain ⟨e, there, text⟩ := h.supports here (k, Constant.isText) (by simp [Constant.parts])
    cases e with
    | utf8 name => exact ⟨name, class?_eq_some.mpr ⟨k, here, text?_eq_some.mpr there⟩⟩
    | _ => cases text
  | _ => cases kind

theorem exists_text (found : ∃ d, p.get? i = some d ∧ d.isText) : ∃ text, p.text? i = some text := by
  obtain ⟨d, here, kind⟩ := found
  cases d with
  | utf8 text => exact ⟨text, text?_eq_some.mpr here⟩
  | _ => cases kind

theorem exists_nameAndType (h : p.Sound) (found : ∃ d, p.get? i = some d ∧ d.isNameAndType) :
    ∃ name descriptor, p.nameAndType? i = some (name, descriptor) := by
  obtain ⟨d, here, kind⟩ := found
  cases d with
  | nameAndType k l =>
    have both := h.supports here
    simp only [Supports, Constant.parts, List.forall_mem_cons] at both
    obtain ⟨name, first⟩ := exists_text both.1
    obtain ⟨descriptor, second⟩ := exists_text both.2.1
    exact ⟨name, descriptor, nameAndType?_eq_some.mpr ⟨k, l, here, first, second⟩⟩
  | _ => cases kind

theorem exists_member (h : p.Sound)
    (found : ∀ part ∈ [(i, Constant.isClass), (j, Constant.isNameAndType)],
      ∃ d, p.get? part.1 = some d ∧ part.2 d) : ∃ m, p.member? i j = some m := by
  simp only [List.forall_mem_cons] at found
  obtain ⟨owner, first⟩ := h.exists_class found.1
  obtain ⟨name, descriptor, second⟩ := h.exists_nameAndType found.2.1
  exact ⟨(owner, name, descriptor), member?_eq_some.mpr ⟨first, second⟩⟩

theorem exists_read (h : p.Sound) (parts : p.Supports c) : ∃ x, p.read c = some x := by
  cases c with
  | classRef | string =>
    simp only [Supports, Constant.parts, List.forall_mem_cons] at parts
    obtain ⟨text, first⟩ := exists_text parts.1
    exact ⟨_, by simp only [read, first, Option.map_some]; rfl⟩
  | nameAndType name descriptor =>
    simp only [Supports, Constant.parts, List.forall_mem_cons] at parts
    obtain ⟨n, first⟩ := exists_text parts.1
    obtain ⟨d, second⟩ := exists_text parts.2.1
    exact ⟨.nameAndType n d, by simp [read, first, second]⟩
  | fieldRef | methodRef | interfaceMethodRef =>
    obtain ⟨m, first⟩ := h.exists_member parts
    exact ⟨_, by simp only [read, first, Option.map_some]; rfl⟩
  | _ => exact ⟨_, rfl⟩

theorem exists_read_of_mem (h : p.Sound) (member : c ∈ p.entries.values) :
    ∃ x, p.read c = some x := by
  obtain ⟨i, found⟩ := h.mem_values_iff.mp member
  exact h.exists_read (h.supports found)

theorem mem_items_iff (h : p.Sound) (stands : p.read c = some x) :
    x ∈ p.items ↔ c ∈ p.entries.values := by
  rw [items, List.mem_filterMap]
  constructor
  · rintro ⟨d, member, same⟩
    rwa [h.read_injective stands same]
  · intro member
    exact ⟨c, member, stands⟩

theorem slots_items (h : p.Sound) : slots p.items = slots p.entries.values := by
  have each : ∀ c ∈ p.entries.values, ∃ x, p.read c = some x := fun _ => h.exists_read_of_mem
  rw [items]
  generalize p.entries.values = cs at each
  induction cs with
  | nil => rfl
  | cons c rest ih =>
    obtain ⟨x, stands⟩ := each c (by simp)
    have tail := ih fun d hd => each d (by simp [hd])
    rw [List.filterMap_cons_some stands, slots, slots, width_of_read stands, tail]

end Sound

variable {p q : Pool} {i j : UInt16} {c d : Constant} {x : Item}

theorem sound_empty : empty.Sound where
  toCoherent := coherent_empty
  refers n c member := by cases member
  short text member := by cases member

theorem retains_push (p : Pool) (c : Constant) : p.Retains (p.push c) := by
  intro i d found
  rw [get?_iff] at found ⊢
  rw [push, Slotted.toList_push]
  exact List.mem_append_left _ found

namespace Sound

theorem push (h : p.Sound) (fresh : p.indices[c]? = none)
    (fits : p.entries.next + width c ≤ 65535) (parts : p.Supports c)
    (short : ∀ text, c = .utf8 text → Modified.length text ≤ 65535) : (p.push c).Sound := by
  have values : (p.push c).entries.values = p.entries.values ++ [c] := Slotted.values_push _ _
  have list : (p.push c).entries.toList = p.entries.toList ++ [(p.entries.next, c)] :=
    Slotted.toList_push _ _
  constructor
  case toCoherent => exact h.toCoherent.push fresh fits
  case refers =>
    intro n d member part hp
    rw [list] at member ⊢
    simp only [List.mem_append, List.mem_singleton, Prod.mk.injEq] at member ⊢
    rcases member with member | ⟨rfl, rfl⟩
    · obtain ⟨before, e, there, kind⟩ := h.refers n d member part hp
      exact ⟨before, e, .inl there, kind⟩
    · obtain ⟨e, there, kind⟩ := parts part hp
      rw [get?_iff] at there
      have below := (p.entries.lt_next_of_mem there).2
      have := width_constant_pos e
      exact ⟨by omega, e, .inl there, kind⟩
  case short =>
    intro text member
    rw [values, List.mem_append, List.mem_singleton] at member
    rcases member with member | same
    · exact h.short text member
    · rw [Modified.length_encode]
      exact short text same.symm

theorem items_push (h : p.Sound) (stands : p.read c = some x) :
    (p.push c).items = p.items ++ [x] := by
  have kept := retains_push p c
  have old : p.entries.values.filterMap (p.push c).read = p.entries.values.filterMap p.read := by
    apply List.filterMap_congr
    intro d member
    obtain ⟨y, same⟩ := h.exists_read_of_mem member
    rw [same, kept.read same]
  rw [items, items, Pool.push, Slotted.values_push, List.filterMap_append, ← Pool.push, old]
  simp [kept.read stands]

end Sound

/-- The answer to a request: the index of its goal, or the error for what was refused. -/
def Answers (goal : Item) : Option Refusal → EStateM.Result Error Pool UInt16 → Prop
  | none, .ok i q => q.item? i = some goal
  | some (.tooLong length), .error (.textTooLong n) _ => n = length
  | some (.full x), .error (.poolFull c n) q => q.read c = some x ∧ n = q.entries.next
  | _, _ => False

structure Meets (p : Pool) (xs : List Item) (goal : Item)
    (result : EStateM.Result Error Pool UInt16) : Prop where
  sound : (left result).Sound
  appends : ∃ new, (left result).entries.values = p.entries.values ++ new
  retains : p.Retains (left result)
  items : (left result).items = (enlist p.items xs).1
  answer : Answers goal (enlist p.items xs).2 result

theorem meets_intern (h : p.Sound) (stands : p.read c = some x) (short : x.excess? = none) :
    Meets p [x] x (intern c p) := by
  have present := h.mem_items_iff stands
  have size : 1 + slots p.items = p.entries.next := by rw [h.slots_items, h.next]
  have wide := width_of_read stands
  rcases intern_cases c p with ⟨i, asked, done⟩ | ⟨fresh, full, refused⟩ | ⟨fresh, room, done⟩
  · have here := h.found.mp asked
    have inside : x ∈ p.items := present.mpr (h.mem_values_iff.mpr ⟨i, here⟩)
    rw [done]
    refine ⟨h, ⟨[], by simp [left]⟩, .refl p, by simp [left, enlist, short, inside], ?_⟩
    simp [Answers, enlist, short, inside, item?, here, stands]
  · have missing : x ∉ p.items := fun inside => h.absent_iff.mp fresh (present.mp inside)
    rw [refused]
    refine ⟨h, ⟨[], by simp [left]⟩, .refl p, ?_, ?_⟩
    · simp [left, enlist, short, missing, size, wide, full]
    · simp [Answers, enlist, short, missing, size, wide, full, stands]
  · have missing : x ∉ p.items := fun inside => h.absent_iff.mp fresh (present.mp inside)
    have fits : ¬ 65535 < p.entries.next + width c := by omega
    have long : ∀ text, c = .utf8 text → Modified.length text ≤ 65535 := by
      rintro text rfl
      cases stands
      simpa [Item.excess?] using short
    have sound := h.push fresh room (supports_of_read stands) long
    have here : (p.push c).get? p.entries.next.toUInt16 = some c := by
      rw [get?_iff, toNat_toUInt16 (by omega), push, Slotted.toList_push]
      simp
    rw [done]
    refine ⟨sound, ⟨[c], Slotted.values_push _ _⟩, retains_push p c, ?_, ?_⟩
    · simp [left, enlist, short, missing, size, wide, fits, h.items_push stands]
    · simp [Answers, enlist, short, missing, size, wide, fits, item?, here,
        (retains_push p c).read stands]

theorem Meets.bind {x : PoolM UInt16} {f : UInt16 → PoolM UInt16} {xs ys : List Item} {a b : Item}
    (first : Meets p xs a (x p))
    (second : ∀ i q, q.Sound → p.Retains q → q.item? i = some a → Meets q ys b (f i q)) :
    Meets p (xs ++ ys) b ((x >>= f) p) := by
  obtain ⟨sound, ⟨new, longer⟩, retains, items, answer⟩ := first
  obtain ⟨⟨now, stop⟩, enlisted⟩ : ∃ pair, enlist p.items xs = pair := ⟨_, rfl⟩
  have both := enlist_append p.items xs ys
  rw [enlisted] at items answer both
  show Meets p (xs ++ ys) b (EStateM.bind x f p)
  unfold EStateM.bind
  cases asked : x p with
  | ok i q =>
    rw [asked] at sound longer retains items answer
    cases stop with
    | some refusal => cases refusal <;> exact answer.elim
    | none =>
      obtain ⟨sound', ⟨new', longer'⟩, retains', items', answer'⟩ := second i q sound retains answer
      simp only [left] at items longer
      rw [items] at items' answer'
      refine ⟨sound', ⟨new ++ new', ?_⟩, retains.trans retains', ?_, ?_⟩
      · rw [longer', longer, List.append_assoc]
      · rw [both, items']
      · rw [both]
        exact answer'
  | error e q =>
    rw [asked] at sound longer retains items answer
    cases stop with
    | none => exact answer.elim
    | some refusal =>
      refine ⟨sound, ⟨new, longer⟩, retains, ?_, ?_⟩
      · rw [both]
        exact items
      · rw [both]
        cases refusal <;> cases e <;> exact answer

theorem meets_utf8 (h : p.Sound) (text : String) :
    Meets p [.utf8 text] (.utf8 text) (utf8 text p) := by
  by_cases long : Modified.length text > 65535
  · have refused : utf8 text p = .error (.textTooLong (Modified.length text)) p := by
      unfold utf8
      rw [if_pos long]
      rfl
    rw [refused]
    refine ⟨h, ⟨[], by simp [left]⟩, .refl p, ?_, ?_⟩
    · simp [left, enlist, Item.excess?, long]
    · simp [Answers, enlist, Item.excess?, long]
  · have asks : utf8 text p = intern (.utf8 text) p := by
      unfold utf8
      rw [if_neg long]
    rw [asks]
    exact meets_intern h rfl (by simp [Item.excess?, long])

theorem text?_of_item? {text : String} (h : p.item? i = some (.utf8 text)) :
    p.text? i = some text := by
  obtain ⟨c, found, stands⟩ := Option.bind_eq_some_iff.mp h
  cases c <;> simp [read, Option.bind_eq_some_iff] at stands
  rw [stands] at found
  exact text?_eq_some.mpr found

theorem class?_of_item? {name : String} (h : p.item? i = some (.classRef name)) :
    p.class? i = some name := by
  obtain ⟨c, found, stands⟩ := Option.bind_eq_some_iff.mp h
  cases c <;> simp [read, Option.bind_eq_some_iff] at stands
  exact class?_eq_some.mpr ⟨_, found, stands⟩

theorem nameAndType?_of_item? {name descriptor : String}
    (h : p.item? i = some (.nameAndType name descriptor)) :
    p.nameAndType? i = some (name, descriptor) := by
  obtain ⟨c, found, stands⟩ := Option.bind_eq_some_iff.mp h
  cases c <;> simp [read, Option.bind_eq_some_iff] at stands
  exact nameAndType?_eq_some.mpr ⟨_, _, found, stands⟩

theorem meets_string (h : p.Sound) (text : String) :
    Meets p (Item.string text).trail (.string text) (string text p) := by
  refine (meets_utf8 h text).bind fun i q sound _ found => ?_
  exact meets_intern sound (by simp [read, text?_of_item? found]) rfl

theorem meets_classRef (h : p.Sound) (r : RefType) :
    Meets p (Item.classRef r.className).trail (.classRef r.className) (classRef r p) := by
  refine (meets_utf8 h r.className).bind fun i q sound _ found => ?_
  exact meets_intern sound (by simp [read, text?_of_item? found]) rfl

theorem meets_nameAndType (h : p.Sound) (name descriptor : String) :
    Meets p (Item.nameAndType name descriptor).trail (.nameAndType name descriptor)
      (nameAndType name descriptor p) := by
  refine (meets_utf8 h name).bind fun i q sound _ first => ?_
  refine (meets_utf8 sound descriptor).bind fun j r sound kept second => ?_
  have first := text?_of_item? (kept.item? first)
  exact meets_intern sound (by simp [read, first, text?_of_item? second]) rfl

theorem meets_member (h : p.Sound) (make : UInt16 → UInt16 → Constant)
    (item : String → String → String → Item) (owner : RefType) (name descriptor : String)
    (stands : ∀ (q : Pool) i j o n d, q.member? i j = some (o, n, d) →
      q.read (make i j) = some (item o n d))
    (short : ∀ o n d, (item o n d).excess? = none) :
    Meets p (Item.memberParts owner.className name descriptor ++
        [item owner.className name descriptor]) (item owner.className name descriptor)
      ((do
        let owner ← classRef owner
        let member ← nameAndType name descriptor
        intern (make owner member) : PoolM UInt16) p) := by
  refine (meets_classRef h owner).bind fun i q sound _ first => ?_
  refine (meets_nameAndType sound name descriptor).bind fun j r sound kept second => ?_
  have first := class?_of_item? (kept.item? first)
  have second := nameAndType?_of_item? second
  exact meets_intern sound (stands r i j _ _ _ (member?_eq_some.mpr ⟨first, second⟩)) (short _ _ _)

namespace Request

def item : Request → Item
  | utf8 text => .utf8 text
  | integer value | loadable (.integer value) => .integer value
  | float bits | loadable (.float bits) => .float bits
  | long value | loadable (.long value) => .long value
  | double bits | loadable (.double bits) => .double bits
  | string text | loadable (.string text) => .string text
  | classRef r | loadable (.classRef r) => .classRef r.className
  | nameAndType name descriptor => .nameAndType name descriptor
  | fieldRef owner name t => .fieldRef (RefType.object owner).className name t.descriptor
  | methodRef owner name s => .methodRef owner.className name s.descriptor
  | interfaceMethodRef owner name s =>
    .interfaceMethodRef (RefType.object owner).className name s.descriptor
  | named name _ => .utf8 name

end Request

theorem meets_ask (h : p.Sound) (r : Request) :
    Meets p r.item.trail r.item (r.ask p) := by
  cases r with
  | utf8 text => exact meets_utf8 h text
  | integer | float | long | double => exact meets_intern h rfl rfl
  | string text => exact meets_string h text
  | classRef r => exact meets_classRef h r
  | nameAndType name descriptor => exact meets_nameAndType h name descriptor
  | fieldRef owner name t =>
    refine meets_member h .fieldRef .fieldRef _ name t.descriptor ?_ fun _ _ _ => rfl
    intro q i j o n d found
    simp [read, found]
  | methodRef owner name s =>
    refine meets_member h .methodRef .methodRef owner name s.descriptor ?_ fun _ _ _ => rfl
    intro q i j o n d found
    simp [read, found]
  | interfaceMethodRef owner name s =>
    refine meets_member h .interfaceMethodRef .interfaceMethodRef _ name s.descriptor ?_
      fun _ _ _ => rfl
    intro q i j o n d found
    simp [read, found]
  | loadable value =>
    cases value with
    | string text => exact meets_string h text
    | classRef r => exact meets_classRef h r
    | _ => exact meets_intern h rfl rfl
  | named name info =>
    rw [Request.ask, name_named]
    exact meets_utf8 h name

def after (requests : List Request) : Pool :=
  requests.foldl (fun p r => left (r.ask p)) empty

theorem sound_after (requests : List Request) : (after requests).Sound := by
  unfold after
  have step : ∀ (p : Pool) (r : Request), p.Sound → (left (r.ask p)).Sound :=
    fun p r h => (meets_ask h r).sound
  have start := sound_empty
  generalize empty = p at start
  induction requests generalizing p with
  | nil => exact start
  | cons r rest ih => exact ih _ (step p r start)

theorem intern_eq_error_iff (h : p.Sound) {e : Error} :
    intern c p = .error e q ↔
      (c ∉ p.entries.values ∧ 65535 < p.next.toNat + width c) ∧
        e = .poolFull c p.next.toNat ∧ q = p := by
  rw [← h.absent_iff, h.count]
  rcases intern_cases c p with ⟨i, found, done⟩ | ⟨fresh, full, refused⟩ | ⟨fresh, room, done⟩
  · simp [done, found]
  · simp [refused, fresh, full, eq_comm]
  · simp [done, Nat.not_lt.mpr room]

/-- What a request comes to. It only appends, and only items that it needs; it gives the index of
what it asks for, unless one of the items it needs is missing and has no room where the items before
it have been added, or is a text that is too long. -/
structure Served (p : Pool) (r : Request) : Prop where
  retains : p.Retains (left (r.ask p))
  appends : ∃ new, (left (r.ask p)).entries.values = p.entries.values ++ new ∧
    ∀ c ∈ new, ∃ x ∈ r.item.trail, (left (r.ask p)).read c = some x
  granted : ∀ i q, r.ask p = .ok i q → q.item? i = some r.item
  full_iff : ∀ x now,
    (∃ c q, r.ask p = .error (.poolFull c q.entries.next) q ∧ q.read c = some x ∧ q.items = now) ↔
      ∃ before rest, r.item.trail = before ++ x :: rest ∧ enlist p.items before = (now, none) ∧
        x.excess? = none ∧ x ∉ now ∧ 65535 < 1 + slots now + width x
  refused : ∀ e q, r.ask p = .error e q → (∃ c, e = .poolFull c q.entries.next) ∨
    ∃ text, .utf8 text ∈ r.item.trail ∧ e = .textTooLong (Modified.length text) ∧
      65535 < Modified.length text

namespace Meets

variable {xs : List Item} {goal : Item} {result : EStateM.Result Error Pool UInt16}

theorem full_iff (h : Meets p xs goal result) {now : List Item} :
    (∃ c q, result = .error (.poolFull c q.entries.next) q ∧ q.read c = some x ∧ q.items = now) ↔
      enlist p.items xs = (now, some (.full x)) := by
  obtain ⟨_, _, _, items, answer⟩ := h
  obtain ⟨⟨now', stop⟩, enlisted⟩ : ∃ pair, enlist p.items xs = pair := ⟨_, rfl⟩
  rw [enlisted] at items answer ⊢
  constructor
  · rintro ⟨c, q, rfl, stands, rfl⟩
    rcases stop with _ | (_ | y)
    · exact answer.elim
    · exact answer.elim
    · have same := stands.symm.trans answer.1
      cases same
      simpa [left] using items.symm
  · intro same
    cases same
    rcases result with _ | ⟨e, q⟩
    · exact answer.elim
    · cases e with
      | poolFull c n =>
        obtain ⟨stands, rfl⟩ := answer
        exact ⟨c, q, rfl, stands, items⟩
      | _ => exact answer.elim

theorem refused {e : Error} (h : Meets p xs goal (.error e q)) :
    (∃ c, e = .poolFull c q.entries.next) ∨
      ∃ text, .utf8 text ∈ xs ∧ e = .textTooLong (Modified.length text) ∧
        65535 < Modified.length text := by
  have answer := h.answer
  obtain ⟨⟨now, stop⟩, enlisted⟩ : ∃ pair, enlist p.items xs = pair := ⟨_, rfl⟩
  rw [enlisted] at answer
  rcases stop with _ | (length | x)
  · exact answer.elim
  · cases e with
    | textTooLong n =>
      cases answer
      obtain ⟨text, member, rfl, long⟩ := exists_of_enlist_tooLong enlisted
      exact .inr ⟨text, member, rfl, long⟩
    | _ => exact answer.elim
  · cases e with
    | poolFull c n =>
      rw [answer.2]
      exact .inl ⟨c, rfl⟩
    | _ => exact answer.elim

theorem new_of_appends (h : Meets p xs goal result) :
    ∃ new, (left result).entries.values = p.entries.values ++ new ∧
      ∀ c ∈ new, ∃ x ∈ xs, (left result).read c = some x := by
  obtain ⟨new, longer⟩ := h.appends
  refine ⟨new, longer, fun c member => ?_⟩
  have inside : c ∈ (left result).entries.values := by simp [longer, member]
  have absent : c ∉ p.entries.values := by
    have apart := h.sound.distinct
    rw [longer, List.nodup_append] at apart
    exact fun earlier => apart.2.2 c earlier c member rfl
  obtain ⟨x, stands⟩ := h.sound.exists_read_of_mem inside
  have listed := (h.sound.mem_items_iff stands).mpr inside
  obtain ⟨added, same, own⟩ := enlist_new p.items xs
  rw [h.items, same, List.mem_append] at listed
  rcases listed with earlier | later
  · obtain ⟨d, old, read⟩ := List.mem_filterMap.mp earlier
    rw [h.sound.read_injective stands (h.retains.read read)] at absent
    exact absurd old absent
  · exact ⟨x, own x later, stands⟩

end Meets

theorem served (h : p.Sound) (r : Request) : Served p r := by
  have meets := meets_ask h r
  refine ⟨meets.retains, meets.new_of_appends, ?_, ?_, ?_⟩
  · intro i q asked
    rw [asked] at meets
    have answer := meets.answer
    generalize (enlist p.items r.item.trail).2 = stop at answer
    rcases stop with _ | (_ | _)
    · exact answer
    · exact answer.elim
    · exact answer.elim
  · intro x now
    rw [meets.full_iff, enlist_full_iff]
  · intro e q asked
    rw [asked] at meets
    exact meets.refused

/-- Requests of any kind, in any order, whether granted or not, keep the pool sound. A constant is
refused exactly when it is missing and its slots do not fit, which changes nothing. -/
theorem sound_and_served (requests : List Request) :
    (after requests).Sound ∧
      (∀ c e q, intern c (after requests) = .error e q ↔
        (c ∉ (after requests).entries.values ∧
          65535 < (after requests).next.toNat + width c) ∧
        e = .poolFull c (after requests).next.toNat ∧ q = after requests) ∧
      ∀ r, Served (after requests) r :=
  have sound := sound_after requests
  ⟨sound, fun _ _ _ => intern_eq_error_iff sound, served sound⟩

end Pool

end Bytecode
