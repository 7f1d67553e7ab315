import Bytecode.Proofs.Descriptors
import Bytecode.Proofs.Integrity

/-! What holds of a class whatever was done to it. The lists of a class are what its history says
was accepted, in that order, the sets beside them have the names of what is in the lists, and both
agree with the pool. Each change keeps this, so that it does not matter where an operation stopped. -/
namespace Bytecode

structure Member.Stands (p : Pool) (flags : UInt16) (name descriptor : String) (m : Member) :
    Prop where
  flags : m.flags = flags
  name : p.text? m.name = some name
  descriptor : p.text? m.descriptor = some descriptor

theorem Member.Stands.mono {p q : Pool} {flags : UInt16} {name descriptor : String} {m : Member}
    (h : m.Stands p flags name descriptor) (kept : p.Retains q) :
    m.Stands q flags name descriptor :=
  ⟨h.flags, kept.text? h.name, kept.text? h.descriptor⟩

theorem MemberName.eq_of_text {a b : MemberName} (h : a.text = b.text) : a = b := by
  cases a
  cases b
  cases h
  rfl

theorem BinaryName.eq_of_text {a b : BinaryName} (h : a.text = b.text) : a = b := by
  cases a
  cases b
  cases h
  rfl

theorem Signature.eq_of_descriptor {s t : Signature} (h : s.descriptor = t.descriptor) : s = t := by
  have same := s.parse_descriptor
  rw [h, t.parse_descriptor] at same
  exact (Except.ok.inj same).symm

/-- A relation between two lists is kept where one item of the second is replaced. -/
theorem forall₂_replace {α β : Type} {R S : α → β → Prop} {xs : List α} {before after : List β}
    {b c : β} (h : List.Forall₂ R xs (before ++ b :: after)) (others : ∀ x y, R x y → S x y)
    (here : ∀ x, R x b → S x c) : List.Forall₂ S xs (before ++ c :: after) := by
  induction before generalizing xs with
  | nil =>
    cases h with
    | cons first rest => exact .cons (here _ first) (rest.imp others)
  | cons y before ih =>
    cases h with
    | cons first rest => exact .cons (others _ _ first) (ih rest)

theorem forall₂_push {α β : Type} {R : α → β → Prop} {xs : List α} {ys : Array β} {x : α} {y : β}
    (h : List.Forall₂ R xs ys.toList) (last : R x y) :
    List.Forall₂ R (xs ++ [x]) (ys.push y).toList := by
  rw [Array.toList_push]
  exact List.rel_append h (.cons last .nil)

theorem exists_mem_of_forall₂ {α β : Type} {R : α → β → Prop} {xs : List α} {ys : List β} {y : β}
    (h : List.Forall₂ R xs ys) (member : y ∈ ys) : ∃ x ∈ xs, R x y := by
  induction h with
  | nil => cases member
  | cons first _ ih =>
    rcases List.mem_cons.mp member with rfl | later
    · exact ⟨_, List.mem_cons_self, first⟩
    · obtain ⟨x, found, related⟩ := ih later
      exact ⟨x, List.mem_cons_of_mem _ found, related⟩

theorem mem_insert_iff {α : Type} [BEq α] [Hashable α] [LawfulBEq α] [LawfulHashable α]
    {s : Std.HashSet α} {xs : List α} (h : ∀ x, x ∈ s ↔ x ∈ xs) {x y : α} :
    y ∈ s.insert x ↔ y ∈ xs ++ [x] := by
  rw [Std.HashSet.mem_insert, h, List.mem_append, List.mem_singleton, beq_iff_eq, or_comm, eq_comm]

theorem eraseDups_known {α : Type} [BEq α] [LawfulBEq α] {xs : List α} {x : α} (h : x ∈ xs) :
    (xs ++ [x]).eraseDups = xs.eraseDups := by
  rw [List.eraseDups_append]
  simp [List.removeAll, h]

theorem eraseDups_new {α : Type} [BEq α] [LawfulBEq α] {xs : List α} {x : α} (h : x ∉ xs) :
    (xs ++ [x]).eraseDups = xs.eraseDups ++ [x] := by
  rw [List.eraseDups_append]
  simp [List.removeAll, h, List.eraseDups_cons]

namespace Pool

variable {p q : Pool} {text : String} {e : Error}

theorem intern_refused {c : Constant} (h : intern c p = .error e q) : q = p := by
  rcases intern_cases c p with ⟨i, _, done⟩ | ⟨_, _, done⟩ | ⟨_, _, done⟩
  all_goals
    rw [done] at h
    cases h
  rfl

theorem utf8_refused (h : utf8 text p = .error e q) : q = p := by
  unfold utf8 at h
  split at h
  · cases h
    rfl
  · exact intern_refused h

theorem utf8_granted {i : UInt16} (h : utf8 text p = .ok i q) :
    q = p ∨ q = p.push (.utf8 text) := by
  unfold utf8 at h
  split at h
  · cases h
  · rcases intern_cases (.utf8 text) p with ⟨i, _, done⟩ | ⟨_, _, done⟩ | ⟨_, _, done⟩
    all_goals
      rw [done] at h
      cases h
    · exact .inl rfl
    · exact .inr rfl

/-- Where the rest adds nothing if it is refused, only the text can have been added. -/
theorem refused_of_utf8 {α : Type} {f : UInt16 → PoolM α} (h : (utf8 text >>= f) p = .error e q)
    (stays : ∀ i {p q : Pool} {e : Error}, f i p = .error e q → q = p) :
    q = p ∨ q = p.push (.utf8 text) := by
  rcases error_of_bind h with first | ⟨i, mid, first, second⟩
  · exact .inl (utf8_refused first)
  · rw [stays i second]
    exact utf8_granted first

theorem names_refused {name descriptor : String} (h : names name descriptor p = .error e q) :
    q = p ∨ q = p.push (.utf8 name) := by
  apply refused_of_utf8 h
  intro i p q e second
  rcases error_of_bind second with refused | ⟨j, last, _, done⟩
  · exact utf8_refused refused
  · cases done

end Pool

namespace ClassDraft

namespace Event

def interface? : Event → Option BinaryName
  | interface name => some name
  | _ => none

def field? : Event → Option (UInt16 × MemberName × FieldType)
  | field flags name t => some (flags, name, t)
  | _ => none

/-- A method that was added, by the caller or for the code of the initializer. -/
def method? (this : BinaryName) : Event → Option Addition
  | method x => some x
  | flush tree true => some (.initializer this tree)
  | _ => none

end Event

variable {d e : ClassDraft}

def Compiled (d : ClassDraft) (b : Body) (m : Member) : Prop :=
  ∃ code a, b.assemble d.config d.this d.pool = .ok code d.pool ∧ m.attributes = [a] ∧
    d.pool.text? a.name = some "Code" ∧ a.info = code.encode

def Carries (d : ClassDraft) (m : Pending) : Option Body → Prop
  | none => m.body = none ∧ m.member.attributes = []
  | some b => m.body = some b ∧ m.member.attributes = [] ∨ m.body = none ∧ d.Compiled b m.member

structure Bears (d : ClassDraft) (x : Addition) (m : Pending) : Prop where
  stands : m.member.Stands d.pool x.flags x.name.text x.signature.descriptor
  carries : d.Carries m x.body

def BearsField (d : ClassDraft) (x : UInt16 × MemberName × FieldType) (f : Member) : Prop :=
  f.Stands d.pool x.1 x.2.1.text x.2.2.descriptor ∧ f.attributes = []

def Sourced (d : ClassDraft) : Prop :=
  if d.finished then ∃ a index, d.attributes = [a] ∧ d.pool.text? a.name = some "SourceFile" ∧
    a.info = Octets.u16 index ∧ d.pool.text? index = some d.sourceFile
  else d.attributes = []

structure Grown (d e : ClassDraft) : Prop where
  config : e.config = d.config
  this : e.this = d.this
  retains : d.pool.Retains e.pool
  indices : d.pool.Extends e.pool

theorem carries_pending (x : Addition) (given : UInt16 × UInt16) :
    d.Carries (x.pending given) x.body := by
  cases body : x.body with
  | none => exact ⟨body, rfl⟩
  | some b => exact .inl ⟨body, rfl⟩

theorem Grown.compiled (h : Grown d e) {b : Body} {m : Member} (compiled : d.Compiled b m) :
    e.Compiled b m := by
  obtain ⟨code, a, assembled, whole, name, info⟩ := compiled
  refine ⟨code, a, ?_, whole, h.retains.text? name, info⟩
  rw [h.config, h.this]
  exact (b.interns_assemble d.config d.this).again _ _ _ _ assembled h.indices

theorem Grown.bears (h : Grown d e) {x : Addition} {m : Pending} (bears : d.Bears x m) :
    e.Bears x m := by
  refine ⟨bears.stands.mono h.retains, ?_⟩
  have carries := bears.carries
  cases body : x.body with
  | none =>
    rw [body] at carries
    exact carries
  | some b =>
    rw [body] at carries
    exact carries.imp_right fun ⟨dropped, compiled⟩ => ⟨dropped, h.compiled compiled⟩

theorem Grown.bearsField (h : Grown d e) {x : UInt16 × MemberName × FieldType} {f : Member}
    (bears : d.BearsField x f) : e.BearsField x f :=
  ⟨bears.1.mono h.retains, bears.2⟩

theorem Change.isGrown (built : d.pool.Built) {event : Option Event} (h : Change d event e) :
    Grown d e := by
  obtain ⟨x, asks, same⟩ := h.grown
  obtain ⟨this, config⟩ := h.this
  refine ⟨config, this, ?_, ?_⟩
  · rw [same]
    exact built.retains asks
  · rw [same]
    exact (asks.interns.grows _).extends

/-- The lists of a class are those of its history, and the sets have the names of their members. -/
structure Upheld (past : List Event) (d : ClassDraft) : Prop where
  built : d.pool.Built
  order : d.interfaces.toList.map Prod.fst = (past.filterMap Event.interface?).eraseDups
  distinct : (d.interfaces.toList.map Prod.fst).Nodup
  classes : ∀ x ∈ d.interfaces.toList, d.pool.class? x.2 = some x.1.text
  fields : List.Forall₂ d.BearsField (past.filterMap Event.field?) d.fields.toList
  fieldNames : ∀ name, name ∈ d.fieldNames ↔ name ∈ (past.filterMap Event.field?).map (·.2.1)
  methods : List.Forall₂ d.Bears (past.filterMap (Event.method? d.this)) d.methods.toList
  signatures : ∀ key, key ∈ d.signatures ↔
    key ∈ (past.filterMap (Event.method? d.this)).map fun x => (x.name, x.signature)
  sourced : d.Sourced

theorem Upheld.mem_interface_iff {past : List Event} (h : Upheld past d) {name : BinaryName} :
    name ∈ d.interfaces.toList.map Prod.fst ↔ name ∈ past.filterMap Event.interface? := by
  rw [h.order, List.mem_eraseDups]

theorem Sourced.grown (h : d.Sourced) (grown : Grown d e) (attributes : e.attributes = d.attributes)
    (finished : e.finished = d.finished) (source : e.sourceFile = d.sourceFile) : e.Sourced := by
  unfold Sourced at h ⊢
  rw [attributes, finished, source]
  split
  · rename_i closed
    rw [if_pos closed] at h
    obtain ⟨a, index, whole, name, info, text⟩ := h
    exact ⟨a, index, whole, grown.retains.text? name, info, grown.retains.text? text⟩
  · rename_i isOpen
    rwa [if_neg isOpen] at h

theorem Bears.lay {x : Addition} {m m' : Pending} (built : d.pool.Built) (grown : Grown d e)
    (h : d.Bears x m) (done : m.assemble d.config d.this d.pool = .ok m' e.pool) :
    e.Bears x m' := by
  cases present : m.body with
  | none =>
    simp only [Pending.assemble, present] at done
    obtain ⟨rfl, _⟩ := EStateM.Result.ok.inj done
    exact grown.bears h
  | some body =>
    simp only [Pending.assemble, present] at done
    obtain ⟨code, mid, assembled, done⟩ := exists_of_bind done
    obtain ⟨a, last, named, done⟩ := exists_of_bind done
    cases done
    have begun := (built.of_ok (body.asks_assemble d.config d.this) assembled).1
    obtain ⟨name, info⟩ := begun.sound.named_of_ok named
    have later := ((Pool.asks_named _ _).interns.grows_ok named).extends
    have again := (body.interns_assemble d.config d.this).again _ _ _ _ assembled later
    rw [← grown.config, ← grown.this] at again
    have stands := h.stands.mono grown.retains
    have carries := h.carries
    refine ⟨⟨stands.flags, stands.name, stands.descriptor⟩, ?_⟩
    cases added : x.body with
    | none =>
      rw [added, Carries, present] at carries
      cases carries.1
    | some b =>
      rw [added, Carries, present] at carries
      rcases carries with ⟨same, bare⟩ | ⟨dropped, _⟩
      · cases same
        exact .inr ⟨rfl, code, a, again, by simp [bare], name, info⟩
      · cases dropped

theorem filterMap_told {β : Type} (f : Event → Option β) (past : List Event)
    (event : Option Event) :
    (past ++ event.toList).filterMap f = past.filterMap f ++ (event.bind f).toList := by
  rw [List.filterMap_append]
  cases event with
  | none => rfl
  | some told => cases found : f told <;> simp [found]

theorem Sourced.change {event : Option Event} (h : d.Sourced) (c : Change d event e)
    (grown : Grown d e) : e.Sourced := by
  have bare (isOpen : d.finished = false) : d.attributes = [] := by
    rwa [Sourced, if_neg (by simp [isOpen])] at h
  cases c with
  | rename isOpen name =>
    rw [Sourced, if_neg (by simp [isOpen])]
    exact bare isOpen
  | @close _ a isOpen found source =>
    obtain ⟨index, info, text⟩ := source
    exact ⟨a, index, by rw [bare isOpen]; rfl, found, info, text⟩
  | _ => exact h.grown grown rfl rfl rfl

/-- A method that is added is the one in the history, and one that is laid out stays it. -/
theorem Upheld.methods_change {past : List Event} {event : Option Event} (h : Upheld past d)
    (c : Change d event e) (grown : Grown d e) : List.Forall₂ e.Bears
      ((past ++ event.toList).filterMap (Event.method? e.this)) e.methods.toList := by
  have methods := h.methods.imp fun _ _ => grown.bears
  rw [filterMap_told]
  cases c with
  | @method _ x given first second =>
    apply forall₂_push methods
    exact ⟨⟨rfl, first, second⟩, carries_pending x given⟩
  | flush present first second =>
    apply forall₂_push methods
    exact ⟨⟨rfl, first, second⟩, carries_pending _ _⟩
  | lay here done =>
    have listed := h.methods
    rw [here] at listed
    have laid := forall₂_replace listed (fun _ _ => grown.bears) fun _ bears =>
      bears.lay h.built grown done
    simpa using laid
  | _ => simpa [Event.method?] using methods

theorem Upheld.change {past : List Event} {event : Option Event} (h : Upheld past d)
    (c : Change d event e) : Upheld (past ++ event.toList) e := by
  have grown := c.isGrown h.built
  obtain ⟨x, asks, same⟩ := c.grown
  have fields := h.fields.imp fun _ _ => grown.bearsField
  constructor
  case built =>
    rw [same]
    exact h.built.left asks
  case order =>
    rw [filterMap_told]
    cases c with
    | known listed => exact h.order.trans (eraseDups_known (h.mem_interface_iff.mp listed)).symm
    | interface new found =>
      have missing := mt h.mem_interface_iff.mpr new
      simpa [h.order, Event.interface?] using (eraseDups_new missing).symm
    | _ => simpa [Event.interface?, Addition.addTo] using h.order
  case distinct =>
    cases c with
    | interface new found =>
      rw [Array.toList_push, List.map_append]
      exact List.concat_eq_append ▸ h.distinct.concat new
    | _ => exact h.distinct
  case classes =>
    cases c with
    | interface new found =>
      rw [Array.toList_push, List.forall_mem_append]
      exact ⟨h.classes, List.forall_mem_singleton.mpr found⟩
    | _ => exact fun x member => grown.retains.class? (h.classes x member)
  case fields =>
    rw [filterMap_told]
    cases c with
    | field flags first second => exact forall₂_push fields ⟨⟨rfl, first, second⟩, rfl⟩
    | _ => simpa [Event.field?, Addition.addTo] using fields
  case fieldNames =>
    intro name
    rw [filterMap_told, List.map_append]
    cases c with
    | field flags first second => exact mem_insert_iff h.fieldNames
    | _ =>
      show name ∈ d.fieldNames ↔ name ∈ _ ++ []
      rw [List.append_nil, h.fieldNames]
  case methods => exact h.methods_change c grown
  case signatures =>
    intro key
    rw [filterMap_told, List.map_append]
    cases c with
    | method first second | flush present first second => exact mem_insert_iff h.signatures
    | _ =>
      show key ∈ d.signatures ↔ key ∈ _ ++ []
      rw [List.append_nil]
      exact h.signatures key
  case sourced => exact h.sourced.change c grown

theorem upheld_of_make {config : Config} {this : BinaryName} {super : Option BinaryName}
    {interface : Bool} (begun : make config this super interface = .ok d) : Upheld [] d := by
  have fresh := fresh_of_make begun
  have bare : d.Sourced := by
    rw [Sourced, if_neg (by simp [fresh.isOpen])]
    exact fresh.attributes
  exact ⟨(pool_of_make begun).1, by simp [fresh.interfaces], by simp [fresh.interfaces],
    by simp [fresh.interfaces], by simp [fresh.fields], by simp [fresh.fieldNames],
    by simp [fresh.methods], by simp [fresh.signatures], bare⟩

theorem upheld_after {past : List Event} (h : Upheld past d) (operations : List Operation) :
    Upheld (past ++ history d operations) (d.after operations) :=
  (changes_after h.built operations).invariant past h fun h c => h.change c

theorem Upheld.hasField_iff {past : List Event} (h : Upheld past d) (name : MemberName) :
    d.hasField name = true ↔ ∃ f ∈ d.classFile.fields, d.pool.text? f.name = some name.text := by
  rw [hasField, ← Std.HashSet.mem_iff_contains, h.fieldNames, List.mem_map]
  constructor
  · rintro ⟨x, member, rfl⟩
    obtain ⟨f, listed, stands, _⟩ := exists_mem_of_forall₂ h.fields.flip member
    exact ⟨f, listed, stands.name⟩
  · rintro ⟨f, listed, found⟩
    obtain ⟨x, member, stands, _⟩ := exists_mem_of_forall₂ h.fields listed
    rw [stands.name] at found
    exact ⟨x, member, MemberName.eq_of_text (Option.some.inj found)⟩

theorem Upheld.hasMethod_iff {past : List Event} (h : Upheld past d) (name : MemberName)
    (s : Signature) :
    d.hasMethod name s = true ↔ ∃ m ∈ d.classFile.methods,
      d.pool.text? m.name = some name.text ∧ d.pool.text? m.descriptor = some s.descriptor := by
  rw [hasMethod, ← Std.HashSet.mem_iff_contains, h.signatures, List.mem_map]
  constructor
  · rintro ⟨x, member, same⟩
    cases same
    obtain ⟨m, listed, bears⟩ := exists_mem_of_forall₂ h.methods.flip member
    exact ⟨m.member, List.mem_map_of_mem listed, bears.stands.name, bears.stands.descriptor⟩
  · rintro ⟨_, member, first, second⟩
    obtain ⟨m, listed, rfl⟩ := List.mem_map.mp member
    obtain ⟨x, told, bears⟩ := exists_mem_of_forall₂ h.methods listed
    rw [bears.stands.name] at first
    rw [bears.stands.descriptor] at second
    exact ⟨x, told, Prod.ext (MemberName.eq_of_text (Option.some.inj first))
      (Signature.eq_of_descriptor (Option.some.inj second))⟩

theorem Upheld.interface_names {past : List Event} (h : Upheld past d) :
    d.classFile.interfaces.map d.pool.class? =
      (past.filterMap Event.interface?).eraseDups.map fun name => some name.text := by
  rw [← h.order, classFile, List.map_map, List.map_map]
  exact List.map_congr_left h.classes

theorem Upheld.interfaces_nodup {past : List Event} (h : Upheld past d) :
    d.classFile.interfaces.Nodup := by
  apply List.Nodup.of_map d.pool.class?
  rw [h.interface_names, ← h.order]
  apply h.distinct.map
  intro a b same
  exact BinaryName.eq_of_text (Option.some.inj same)

def Operation.name? : Operation → Option String
  | addInterface name => some name.text
  | addField _ name _ | addMethod _ name _ _ _ | addAbstractMethod _ name _ => some name.text
  | _ => none

theorem error_of_enter {α : Type} {x : PoolM α} {change : α → ClassDraft → ClassDraft}
    {fault : Error} (h : enter x change d = .error fault e) :
    ∃ q, x d.pool = .error fault q ∧ e = { d with pool := q } := by
  cases done : x d.pool with
  | ok a q =>
    rw [enter_ok done] at h
    cases h
  | error other q =>
    rw [enter_error done] at h
    cases h
    exact ⟨q, rfl, rfl⟩

/-- An operation that is refused leaves the class as it was, but for its name in the pool. -/
theorem run_refused {o : Operation} {fault : Error} (edits : o.attempts = false)
    (refused : o.run d = .error fault e) :
    ∃ q, e = { d with pool := q } ∧
      (q = d.pool ∨ ∃ text, o.name? = some text ∧ q = d.pool.push (.utf8 text)) := by
  by_cases closed : d.finished = true
  · rw [run_finished closed edits] at refused
    cases refused
    exact ⟨d.pool, rfl, .inl rfl⟩
  · have isOpen := eq_false_of_ne_true closed
    have member {x : Addition}
        (refused : pushMethod x.flags x.name x.signature x.body d = .error fault e) :
        ∃ q, e = { d with pool := q } ∧ (q = d.pool ∨ q = d.pool.push (.utf8 x.name.text)) := by
      rw [pushMethod_eq] at refused
      obtain ⟨q, refused, same⟩ := error_of_enter refused
      exact ⟨q, same, Pool.names_refused refused⟩
    cases o with
    | addInterface name =>
      by_cases listed : name ∈ d.interfaces.toList.map Prod.fst
      · rw [Operation.run, addInterface_known isOpen listed] at refused
        cases refused
      · rw [Operation.run, addInterface_new isOpen listed] at refused
        obtain ⟨q, refused, same⟩ := error_of_enter refused
        have left := Pool.refused_of_utf8 refused fun _ => Pool.intern_refused
        exact ⟨q, same, left.imp_right fun same => ⟨_, rfl, same⟩⟩
    | addField flags name t =>
      rw [Operation.run, addField_open isOpen] at refused
      obtain ⟨q, refused, same⟩ := error_of_enter refused
      exact ⟨q, same, (Pool.names_refused refused).imp_right fun same => ⟨_, rfl, same⟩⟩
    | addMethod flags name s tree locals =>
      rw [Operation.run, addMethod_open isOpen] at refused
      obtain ⟨q, same, left⟩ := member (x := ⟨flags, name, s, some _⟩) refused
      exact ⟨q, same, left.imp_right fun same => ⟨_, rfl, same⟩⟩
    | addAbstractMethod flags name s =>
      rw [Operation.run, addAbstractMethod_open isOpen] at refused
      obtain ⟨q, same, left⟩ := member (x := ⟨_, name, s, none⟩) refused
      exact ⟨q, same, left.imp_right fun same => ⟨_, rfl, same⟩⟩
    | addToInitializer tree =>
      rw [Operation.run, addToInitializer_open isOpen] at refused
      cases refused
    | setSourceFile name =>
      rw [Operation.run, setSourceFile_open isOpen] at refused
      cases refused
    | finish | bytes | entry => cases edits

structure Consistent (past : List Event) (d : ClassDraft) : Prop extends Upheld past d where
  hasField : ∀ name, d.hasField name = true ↔
    ∃ f ∈ d.classFile.fields, d.pool.text? f.name = some name.text
  hasMethod : ∀ name s, d.hasMethod name s = true ↔ ∃ m ∈ d.classFile.methods,
    d.pool.text? m.name = some name.text ∧ d.pool.text? m.descriptor = some s.descriptor
  names : d.classFile.interfaces.map d.pool.class? =
    (past.filterMap Event.interface?).eraseDups.map fun name => some name.text
  nodup : d.classFile.interfaces.Nodup

/-- After any operations, successful or not, what a class tells of its members is what its indices
lead to, its lists are those of what was accepted, and an operation that is then refused changes
nothing, except that it may add its name to the pool. -/
theorem consistent_after (config : Config) (this : BinaryName) (super : Option BinaryName)
    (interface : Bool) (start : ClassDraft) (operations : List Operation)
    (begun : make config this super interface = .ok start) :
    Consistent (history start operations) (start.after operations) ∧
      ∀ (o : Operation) (fault : Error) (e : ClassDraft), o.attempts = false →
        o.run (start.after operations) = .error fault e →
        ∃ q, e = { start.after operations with pool := q } ∧
          (q = (start.after operations).pool ∨ ∃ text, o.name? = some text ∧
            q = (start.after operations).pool.push (.utf8 text)) := by
  have h : Upheld (history start operations) (start.after operations) :=
    upheld_after (upheld_of_make begun) operations
  constructor
  · exact { h with
      hasField := h.hasField_iff
      hasMethod := h.hasMethod_iff
      names := h.interface_names
      nodup := h.interfaces_nodup }
  · intro o fault e
    exact run_refused

theorem consistent_after_building : ∃ start d,
    make {} ⟨"C", by decide⟩ (some ⟨"B", by decide⟩) false = .ok start ∧
    finish (start.after building) = .ok () d ∧
    Consistent (history start (building ++ [.finish])) d ∧
    ∀ (o : Operation) (fault : Error) (e : ClassDraft), o.attempts = false →
      o.run d = .error fault e → ∃ q, e = { d with pool := q } ∧
        (q = d.pool ∨ ∃ text, o.name? = some text ∧ q = d.pool.push (.utf8 text)) := by
  obtain ⟨start, d, begun, finished⟩ := exists_building
  have closed : start.after (building ++ [.finish]) = d := by
    rw [after_append]
    exact congrArg left finished
  refine ⟨start, d, begun, finished, ?_⟩
  rw [← closed]
  exact consistent_after _ _ _ _ start (building ++ [.finish]) begun

end ClassDraft

end Bytecode
