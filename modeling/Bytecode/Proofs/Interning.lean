import Bytecode.Attribute
import Bytecode.Leaf
import Bytecode.Proofs.Slots
import Std.Data.HashMap.Lemmas

/-! Requests to the pool. Each comes down to constants that are put in one after the other. So
whatever is asked of a pool, its constants keep their indices, and what was answered once is answered
again, from any larger pool and without changing it. What was refused is refused again by the pool
that was left. This is all that the passes over a tree have to know of the pool. -/
namespace Bytecode

theorem exists_of_bind {ε σ α β : Type} {x : EStateM ε σ α} {f : α → EStateM ε σ β} {s t : σ}
    {b : β} (h : (x >>= f) s = .ok b t) : ∃ a mid, x s = .ok a mid ∧ f a mid = .ok b t := by
  change EStateM.bind x f s = _ at h
  unfold EStateM.bind at h
  cases hx : x s with
  | ok a mid =>
    rw [hx] at h
    exact ⟨a, mid, rfl, h⟩
  | error e mid =>
    rw [hx] at h
    cases h

theorem bind_of_ok {ε σ α β : Type} {x : EStateM ε σ α} {s t : σ} {a : α} (h : x s = .ok a t)
    (f : α → EStateM ε σ β) : (x >>= f) s = f a t := by
  change EStateM.bind x f s = _
  unfold EStateM.bind
  rw [h]

theorem error_of_bind {ε σ α β : Type} {x : EStateM ε σ α} {f : α → EStateM ε σ β} {s t : σ} {e : ε}
    (h : (x >>= f) s = .error e t) :
    x s = .error e t ∨ ∃ a mid, x s = .ok a mid ∧ f a mid = .error e t := by
  change EStateM.bind x f s = _ at h
  unfold EStateM.bind at h
  cases hx : x s with
  | ok a mid =>
    rw [hx] at h
    exact .inr ⟨a, mid, rfl, h⟩
  | error e' mid =>
    rw [hx] at h
    cases h
    exact .inl rfl

theorem bind_of_error {ε σ α β : Type} {x : EStateM ε σ α} {s t : σ} {e : ε}
    (h : x s = .error e t) (f : α → EStateM ε σ β) : (x >>= f) s = .error e t := by
  change EStateM.bind x f s = _
  unfold EStateM.bind
  rw [h]

theorem toNat_toUInt16 {n : Nat} (h : n ≤ 65535) : n.toUInt16.toNat = n := by
  simp only [Nat.toUInt16, UInt16.toNat_ofNat']
  omega

namespace Pool

/-- The pool that a request leaves behind, whether it is granted or not. -/
def left {α : Type} : EStateM.Result Error Pool α → Pool
  | .ok _ p => p
  | .error _ p => p

inductive Grows (p : Pool) : Pool → Prop where
  | refl : Grows p p
  | intern {q : Pool} (c : Constant) : Grows p q → Grows p (left (intern c q))

theorem Grows.trans {p q r : Pool} (first : p.Grows q) (second : q.Grows r) : p.Grows r := by
  induction second with
  | refl => exact first
  | intern c _ ih => exact .intern c ih

def Made (p : Pool) : Prop := empty.Grows p

def Extends (p q : Pool) : Prop :=
  ∀ (c : Constant) (i : UInt16), p.indices[c]? = some i → q.indices[c]? = some i

theorem Extends.refl (p : Pool) : p.Extends p := fun _ _ h => h

theorem Extends.trans {p q r : Pool} (first : p.Extends q) (second : q.Extends r) :
    p.Extends r := fun c i h => second c i (first c i h)

def push (p : Pool) (c : Constant) : Pool :=
  ⟨p.entries.push c, p.indices.insert c p.entries.next.toUInt16⟩

theorem intern_cases (c : Constant) (p : Pool) :
    (∃ i, p.indices[c]? = some i ∧ intern c p = .ok i p) ∨
    (p.indices[c]? = none ∧ 65535 < p.entries.next + width c ∧
      intern c p = .error (.poolFull c p.entries.next) p) ∨
    (p.indices[c]? = none ∧ p.entries.next + width c ≤ 65535 ∧
      intern c p = .ok p.entries.next.toUInt16 (p.push c)) := by
  cases h : p.indices[c]? with
  | some i => exact .inl ⟨i, rfl, by simp [intern, h]⟩
  | none =>
    by_cases full : p.entries.next + width c > 65535
    · exact .inr (.inl ⟨rfl, full, by simp [intern, h, full]⟩)
    · exact .inr (.inr ⟨rfl, by omega, by simp [intern, h, full, push]⟩)

theorem intern_found {c : Constant} {p q : Pool} {i : UInt16} (h : intern c p = .ok i q) :
    q.indices[c]? = some i := by
  rcases intern_cases c p with ⟨j, hj, he⟩ | ⟨_, _, he⟩ | ⟨_, _, he⟩
  · rw [he] at h
    cases h
    exact hj
  · rw [he] at h
    cases h
  · rw [he] at h
    cases h
    simp [push]

theorem width_constant_pos (c : Constant) : 0 < width c := by
  cases c <;> simp [width]

theorem extends_push {p : Pool} {c : Constant} (fresh : p.indices[c]? = none) :
    p.Extends (p.push c) := by
  intro d j h
  simp only [push, Std.HashMap.getElem?_insert]
  split
  · rename_i same
    have hd : c = d := by simpa using same
    subst hd
    rw [fresh] at h
    cases h
  · exact h

theorem extends_intern (c : Constant) (p : Pool) : p.Extends (left (intern c p)) := by
  rcases intern_cases c p with ⟨i, _, he⟩ | ⟨_, _, he⟩ | ⟨fresh, _, he⟩ <;> rw [he]
  · exact .refl p
  · exact .refl p
  · exact extends_push fresh

theorem get?_iff {p : Pool} {i : UInt16} {c : Constant} :
    p.get? i = some c ↔ (i.toNat, c) ∈ p.entries.toList :=
  Slotted.get?_eq_some width_constant_pos p.entries

/-- Each entry stands at the sum of the widths before it, and the index of a constant is the slot of
its entry. -/
structure Coherent (p : Pool) : Prop where
  offsets : p.entries.toList = Slotted.running 1 p.entries.values
  next : p.entries.next = 1 + slots p.entries.values
  room : p.entries.next ≤ 65535
  count : p.next.toNat = p.entries.next
  distinct : p.entries.values.Nodup
  inverse : ∀ c (i : UInt16), p.indices[c]? = some i ↔ (i.toNat, c) ∈ p.entries.toList

namespace Coherent

variable {p : Pool} {i j : UInt16} {c : Constant}

theorem found (h : p.Coherent) : p.indices[c]? = some i ↔ p.get? i = some c := by
  rw [h.inverse, get?_iff]

theorem index_unique (h : p.Coherent) (first : p.get? i = some c) (second : p.get? j = some c) :
    i = j := by
  have same := (h.found.mpr first).symm.trans (h.found.mpr second)
  exact Option.some.inj same

theorem index_of_mem (h : p.Coherent) {n : Nat} (member : (n, c) ∈ p.entries.toList) :
    n.toUInt16.toNat = n := by
  have below := (p.entries.lt_next_of_mem member).2
  have := h.room
  exact toNat_toUInt16 (by omega)

theorem mem_values_iff (h : p.Coherent) : c ∈ p.entries.values ↔ ∃ i, p.get? i = some c := by
  rw [Slotted.mem_values_iff]
  constructor
  · rintro ⟨n, member⟩
    refine ⟨n.toUInt16, get?_iff.mpr ?_⟩
    rwa [h.index_of_mem member]
  · rintro ⟨i, found⟩
    exact ⟨i.toNat, get?_iff.mp found⟩

theorem absent_iff (h : p.Coherent) : p.indices[c]? = none ↔ c ∉ p.entries.values := by
  rw [h.mem_values_iff, Option.eq_none_iff_forall_ne_some]
  simp only [ne_eq, h.found, not_exists]

theorem push (h : p.Coherent) (fresh : p.indices[c]? = none)
    (fits : p.entries.next + width c ≤ 65535) : (p.push c).Coherent := by
  have absent := h.absent_iff.mp fresh
  have index : p.entries.next.toUInt16.toNat = p.entries.next := toNat_toUInt16 (by omega)
  have values : (p.push c).entries.values = p.entries.values ++ [c] := Slotted.values_push _ _
  have list : (p.push c).entries.toList = p.entries.toList ++ [(p.entries.next, c)] :=
    Slotted.toList_push _ _
  constructor
  case offsets =>
    rw [list, values, Slotted.running_append, h.offsets, h.next]
    rfl
  case next =>
    rw [values, slots_append, ← Nat.add_assoc, ← h.next]
    rfl
  case room => exact fits
  case count => exact toNat_toUInt16 fits
  case distinct =>
    rw [values, List.nodup_append]
    refine ⟨h.distinct, by simp, fun d member e last => ?_⟩
    rw [List.mem_singleton.mp last]
    rintro rfl
    exact absent member
  case inverse =>
    intro d i
    rw [list]
    simp only [Pool.push, Std.HashMap.getElem?_insert, List.mem_append, List.mem_singleton,
      Prod.mk.injEq, beq_iff_eq]
    split
    · rename_i same
      subst same
      constructor
      · intro given
        cases given
        exact .inr ⟨index, rfl⟩
      · rintro (member | ⟨here, _⟩)
        · exact absurd ((p.entries.mem_values_iff c).mpr ⟨_, member⟩) absent
        · rw [← UInt16.toNat_inj.mp (index.trans here.symm)]
    · rename_i other
      rw [h.inverse]
      constructor
      · exact .inl
      · rintro (member | ⟨_, same⟩)
        · exact member
        · exact absurd same.symm other

theorem intern (h : p.Coherent) (c : Constant) : (left (intern c p)).Coherent := by
  rcases intern_cases c p with ⟨i, _, he⟩ | ⟨_, _, he⟩ | ⟨fresh, fits, he⟩ <;> rw [he]
  · exact h
  · exact h
  · exact h.push fresh fits

end Coherent

theorem coherent_empty : empty.Coherent where
  offsets := rfl
  next := rfl
  room := by decide
  count := by decide
  distinct := .nil
  inverse c i := by simp [empty, Slotted.toList, Slotted.startingAt]

theorem Grows.extends {p q : Pool} (h : p.Grows q) : p.Extends q := by
  induction h with
  | refl => exact .refl p
  | intern c _ ih => exact ih.trans (extends_intern c _)

theorem Made.coherent {p : Pool} (h : p.Made) : p.Coherent := by
  induction h with
  | refl => exact coherent_empty
  | intern c _ ih => exact ih.intern c

structure Interns {α : Type} (x : PoolM α) : Prop where
  grows : ∀ p : Pool, p.Grows (left (x p))
  again : ∀ (p : Pool) (a : α) (q r : Pool), x p = .ok a q → q.Extends r → x r = .ok a r
  refused : ∀ (p : Pool) (e : Error) (q : Pool), x p = .error e q → x q = .error e q

namespace Interns

variable {α β : Type}

theorem grows_ok {x : PoolM α} (hx : Interns x) {p q : Pool} {a : α} (h : x p = .ok a q) :
    p.Grows q := by
  have grown := hx.grows p
  rwa [h] at grown

protected theorem pure (a : α) : Interns (Pure.pure a : PoolM α) where
  grows _ := .refl
  again p b q r h _ := by
    cases h
    rfl
  refused p e q h := by cases h

protected theorem throw (e : Error) : Interns (MonadExcept.throw e : PoolM α) where
  grows _ := .refl
  again p b q r h _ := by cases h
  refused p e q h := by
    cases h
    rfl

theorem parts {x : PoolM α} {f : α → PoolM β} (hx : Interns x) (hf : ∀ a, Interns (f a))
    {p q r : Pool} {b : β} (h : (x >>= f) p = .ok b q) (later : q.Extends r) :
    ∃ a, x r = .ok a r ∧ f a r = .ok b r := by
  obtain ⟨a, mid, first, second⟩ := exists_of_bind h
  have grown := ((hf a).grows_ok second).extends
  exact ⟨a, hx.again p a mid r first (grown.trans later), (hf a).again mid b q r second later⟩

protected theorem bind {x : PoolM α} {f : α → PoolM β} (hx : Interns x)
    (hf : ∀ a, Interns (f a)) : Interns (x >>= f) where
  grows p := by
    have first := hx.grows p
    show p.Grows (left (EStateM.bind x f p))
    unfold EStateM.bind
    cases hp : x p with
    | ok a q =>
      rw [hp] at first
      exact first.trans ((hf a).grows q)
    | error e q =>
      rw [hp] at first
      exact first
  again p b q r h later := by
    obtain ⟨a, first, second⟩ := parts hx hf h later
    rw [bind_of_ok first, second]
  refused p e q h := by
    rcases error_of_bind h with first | ⟨a, mid, first, second⟩
    · exact bind_of_error (hx.refused p e q first) f
    · have grown := (hf a).grows mid
      rw [second] at grown
      rw [bind_of_ok (hx.again p a mid q first grown.extends)]
      exact (hf a).refused mid e q second

/-- Asking again changes nothing, neither the answer nor the pool that the first time has left. -/
theorem twice {x : PoolM α} (hx : Interns x) (p : Pool) : x (left (x p)) = x p := by
  cases asked : x p with
  | ok a q => exact hx.again p a q q asked (.refl q)
  | error e q => exact hx.refused p e q asked

end Interns

/-- Nothing is done to the pool but to put constants into it, and nothing is refused of itself but a
text for its length. -/
inductive Puts : {α : Type} → PoolM α → Prop where
  | pure {α : Type} (a : α) : Puts (Pure.pure a : PoolM α)
  | tooLong {α : Type} (length : Nat) : Puts (MonadExcept.throw (.textTooLong length) : PoolM α)
  | intern (c : Constant) : Puts (intern c)
  | bind {α β : Type} {x : PoolM α} {f : α → PoolM β} :
    Puts x → (∀ a, Puts (f a)) → Puts (x >>= f)

theorem interns_intern (c : Constant) : Interns (intern c) where
  grows _ := .intern c .refl
  again p a q r h later := by
    have found := later c a (intern_found h)
    simp [intern, found]
  refused p e q h := by
    rcases intern_cases c p with ⟨i, _, he⟩ | ⟨_, _, he⟩ | ⟨_, _, he⟩ <;> rw [he] at h <;> cases h
    exact he

theorem Puts.interns {α : Type} {x : PoolM α} (h : Puts x) : Interns x := by
  induction h with
  | pure a => exact .pure a
  | tooLong length => exact .throw _
  | intern c => exact interns_intern c
  | bind _ _ first second => exact first.bind second

inductive Request where
  | utf8 (text : String)
  | integer (value : Int32)
  | float (bits : UInt32)
  | long (value : Int64)
  | double (bits : UInt64)
  | string (text : String)
  | classRef (r : RefType)
  | nameAndType (name descriptor : String)
  | fieldRef (owner : BinaryName) (name : String) (t : FieldType)
  | methodRef (owner : RefType) (name : String) (s : Signature)
  | interfaceMethodRef (owner : BinaryName) (name : String) (s : Signature)
  | loadable (value : Loadable)
  | named (name : String) (info : Octets)

namespace Request

/-- The request put to a pool. Of an attribute only the index of its name comes from the pool. -/
def ask : Request → PoolM UInt16
  | utf8 text => Pool.utf8 text
  | integer value => Pool.integer value
  | float bits => Pool.float bits
  | long value => Pool.long value
  | double bits => Pool.double bits
  | string text => Pool.string text
  | classRef r => Pool.classRef r
  | nameAndType name descriptor => Pool.nameAndType name descriptor
  | fieldRef owner name t => Pool.fieldRef owner name t
  | methodRef owner name s => Pool.methodRef owner name s
  | interfaceMethodRef owner name s => Pool.interfaceMethodRef owner name s
  | loadable value => Pool.loadable value
  | named name info => Attribute.name <$> Pool.named name info

end Request

theorem name_named (name : String) (info : Octets) :
    (Attribute.name <$> named name info) = utf8 name := by
  funext p
  simp only [named, bind, pure, Functor.map, EStateM.map, EStateM.bind, EStateM.pure]
  cases utf8 name p <;> rfl

theorem puts_utf8 (text : String) : Puts (utf8 text) := by
  unfold utf8
  dsimp only
  split
  · exact .tooLong _
  · exact .intern _

theorem puts_classRef (r : RefType) : Puts (classRef r) := (puts_utf8 _).bind fun _ => .intern _

/-- Fields and methods are asked for by their owner, their name and type, and the two together. -/
theorem puts_member (owner : RefType) (name descriptor : String)
    (made : UInt16 → UInt16 → Constant) : Puts (do
      let owner ← classRef owner
      let member ← nameAndType name descriptor
      intern (made owner member)) :=
  (puts_classRef _).bind fun _ =>
    ((puts_utf8 _).bind fun _ => (puts_utf8 _).bind fun _ => .intern _).bind fun _ => .intern _

theorem puts_ask (r : Request) : Puts r.ask := by
  cases r with
  | utf8 text => exact puts_utf8 text
  | integer | float | long | double => exact .intern _
  | string text => exact (puts_utf8 text).bind fun _ => .intern _
  | classRef r => exact puts_classRef r
  | nameAndType name descriptor =>
    exact (puts_utf8 _).bind fun _ => (puts_utf8 _).bind fun _ => .intern _
  | fieldRef owner name t => exact puts_member _ name t.descriptor .fieldRef
  | methodRef owner name s => exact puts_member owner name s.descriptor .methodRef
  | interfaceMethodRef owner name s => exact puts_member _ name s.descriptor .interfaceMethodRef
  | loadable value =>
    cases value with
    | string text => exact (puts_utf8 text).bind fun _ => .intern _
    | classRef r => exact puts_classRef r
    | _ => exact .intern _
  | named name info =>
    rw [Request.ask, name_named]
    exact puts_utf8 name

theorem interns_ask (r : Request) : Interns r.ask := (puts_ask r).interns

inductive Asks : {α : Type} → PoolM α → Prop where
  | pure {α : Type} (a : α) : Asks (Pure.pure a : PoolM α)
  | throw {α : Type} (e : Error) : Asks (MonadExcept.throw e : PoolM α)
  | request (r : Request) : Asks r.ask
  | bind {α β : Type} {x : PoolM α} {f : α → PoolM β} :
    Asks x → (∀ a, Asks (f a)) → Asks (x >>= f)

namespace Asks

variable {α β : Type} {x : PoolM α}

theorem interns (h : Asks x) : Interns x := by
  induction h with
  | pure a => exact .pure a
  | throw e => exact .throw e
  | request r => exact interns_ask r
  | bind _ _ first second => exact first.bind second

theorem map (h : Asks x) (f : α → β) : Asks (f <$> x) := by
  rw [← bind_pure_comp]
  exact h.bind fun a => .pure (f a)

theorem mapM {f : α → PoolM β} (h : ∀ a, Asks (f a)) (values : List α) : Asks (values.mapM f) := by
  induction values with
  | nil => exact .pure _
  | cons v rest ih =>
    rw [List.mapM_cons]
    exact (h v).bind fun _ => ih.bind fun _ => .pure _

end Asks

theorem asks_named (name : String) (info : Octets) : Asks (named name info) :=
  (Asks.request (.utf8 name)).bind fun _ => .pure _

end Pool

def Error.label? : Error → Option Label
  | .notPlaced l | .placedTwice l | .moved l _ _ => some l
  | _ => none

theorem Leaf.encode_cases (l : Leaf) :
    (∃ bytes, l.encode = pure bytes) ∨ (∃ e : Error, e.label? = none ∧ l.encode = throw e) ∨
      ∃ (r : Pool.Request) (f : UInt16 → Octets), l.encode = f <$> r.ask := by
  cases l with
  | push c => exact .inr (.inr ⟨.loadable c, (pushOctets · c.isWide), bind_pure_comp ..⟩)
  | field op owner name t =>
    exact .inr (.inr ⟨.fieldRef owner name.text t, indexed op.opcode, bind_pure_comp ..⟩)
  | invoke kind owner name s =>
    cases kind with
    | interface =>
      by_cases many : s.parameterSlots true > 255
      · refine .inr (.inl ⟨.tooManyArguments (callee owner name s) (s.parameterSlots true), rfl, ?_⟩)
        unfold encode
        dsimp only
        rw [if_pos many]
        rfl
      · unfold encode
        dsimp only
        rw [if_neg many]
        cases owner with
        | object owner =>
          exact .inr (.inr ⟨.interfaceMethodRef owner name.text s,
            (interfaceOctets · (s.parameterSlots true).toUInt8), bind_pure_comp ..⟩)
        | _ => exact .inr (.inl ⟨_, rfl, rfl⟩)
    | _ => exact .inr (.inr ⟨.methodRef owner name.text s, indexed _, bind_pure_comp ..⟩)
  | new name => exact .inr (.inr ⟨.classRef (.object name), indexed _, bind_pure_comp ..⟩)
  | newObjects r | cast r | instanceOf r =>
    exact .inr (.inr ⟨.classRef r, indexed _, bind_pure_comp ..⟩)
  | simple | var | newArray => exact .inl ⟨_, rfl⟩

theorem Leaf.asks_encode (l : Leaf) : Pool.Asks l.encode := by
  rcases l.encode_cases with ⟨bytes, same⟩ | ⟨e, _, same⟩ | ⟨r, f, same⟩ <;> rw [same]
  · exact .pure bytes
  · exact .throw e
  · exact (Pool.Asks.request r).map f

end Bytecode
