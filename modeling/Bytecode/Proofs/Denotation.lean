import Bytecode.Proofs.Descriptors
import Bytecode.Proofs.Requests

/-! Indices stand for what was asked for. A class is found by its name alone and a member by the
texts of its owner, name and descriptor, and each of these texts is that of one type only. -/
namespace Bytecode.Pool

inductive Getter where
  | utf8
  | integer
  | float
  | long
  | double
  | string
  | classRef
  | nameAndType
  | fieldRef
  | methodRef
  | interfaceMethodRef
  | loadable
deriving DecidableEq

def Request.getter? : Request → Option Getter
  | utf8 _ => some .utf8
  | integer _ => some .integer
  | float _ => some .float
  | long _ => some .long
  | double _ => some .double
  | string _ => some .string
  | classRef _ => some .classRef
  | nameAndType _ _ => some .nameAndType
  | fieldRef _ _ _ => some .fieldRef
  | methodRef _ _ _ => some .methodRef
  | interfaceMethodRef _ _ _ => some .interfaceMethodRef
  | loadable _ => some .loadable
  | named _ _ => none

/-- The request of a kind that is for an item, its texts read as the types that they name. -/
def Getter.request? : Getter → Item → Option Request
  | utf8, .utf8 text => some (.utf8 text)
  | integer, .integer value => some (.integer value)
  | float, .float bits => some (.float bits)
  | long, .long value => some (.long value)
  | double, .double bits => some (.double bits)
  | string, .string text => some (.string text)
  | classRef, .classRef name => return .classRef (← (RefType.ofClassName name).toOption)
  | nameAndType, .nameAndType name descriptor => some (.nameAndType name descriptor)
  | fieldRef, .fieldRef owner name descriptor =>
    return .fieldRef (← (BinaryName.ofString owner).toOption) name
      (← (FieldType.parse descriptor).toOption)
  | methodRef, .methodRef owner name descriptor =>
    return .methodRef (← (RefType.ofClassName owner).toOption) name
      (← (Signature.parse descriptor).toOption)
  | interfaceMethodRef, .interfaceMethodRef owner name descriptor =>
    return .interfaceMethodRef (← (BinaryName.ofString owner).toOption) name
      (← (Signature.parse descriptor).toOption)
  | loadable, .integer value => some (.loadable (.integer value))
  | loadable, .float bits => some (.loadable (.float bits))
  | loadable, .long value => some (.loadable (.long value))
  | loadable, .double bits => some (.loadable (.double bits))
  | loadable, .string text => some (.loadable (.string text))
  | loadable, .classRef name => return .loadable (.classRef (← (RefType.ofClassName name).toOption))
  | _, _ => none

theorem request?_item {r : Request} {g : Getter} (kind : r.getter? = some g) :
    g.request? r.item = some r := by
  cases r with
  | classRef r =>
    cases kind
    simp [Request.item, Getter.request?, RefType.ofClassName_className, Except.toOption]
  | fieldRef owner name t =>
    cases kind
    simp [Request.item, Getter.request?, RefType.className, BinaryName.ofString_text,
      FieldType.parse_descriptor, Except.toOption]
  | methodRef owner name s =>
    cases kind
    simp [Request.item, Getter.request?, RefType.ofClassName_className,
      Signature.parse_descriptor, Except.toOption]
  | interfaceMethodRef owner name s =>
    cases kind
    simp [Request.item, Getter.request?, RefType.className, BinaryName.ofString_text,
      Signature.parse_descriptor, Except.toOption]
  | loadable value =>
    cases kind
    cases value with
    | classRef r =>
      simp [Request.item, Getter.request?, RefType.ofClassName_className, Except.toOption]
    | _ => rfl
  | named => cases kind
  | _ =>
    cases kind
    rfl

theorem item_injective {r s : Request} {g : Getter} (first : r.getter? = some g)
    (second : s.getter? = some g) (same : r.item = s.item) : r = s := by
  have back := request?_item second
  rw [← same, request?_item first] at back
  exact Option.some.inj back

variable {p : Pool} {requests : List Request} {r s : Request} {i n : UInt16} {j k m : Nat}

theorem Sound.item_unique (h : p.Sound) {x : Item} (first : p.item? i = some x)
    (second : p.item? n = some x) : i = n := by
  obtain ⟨c, here, stands⟩ := Option.bind_eq_some_iff.mp first
  obtain ⟨d, there, stands'⟩ := Option.bind_eq_some_iff.mp second
  rw [h.read_injective stands stands'] at here
  exact h.index_unique here there

theorem after_append (earlier later : List Request) :
    after (earlier ++ later) = later.foldl (fun p r => left (r.ask p)) (after earlier) :=
  List.foldl_append

theorem retains_after (earlier later : List Request) :
    (after earlier).Retains (after (earlier ++ later)) := by
  induction later generalizing earlier with
  | nil =>
    rw [List.append_nil]
    exact .refl _
  | cons r rest ih =>
    have step : (after earlier).Retains (after (earlier ++ [r])) := by
      rw [after_append]
      exact (served (sound_after earlier) r).retains
    rw [List.append_cons]
    exact step.trans (ih (earlier ++ [r]))

theorem retains_take (before : k ≤ m) :
    (after (requests.take k)).Retains (after (requests.take m)) := by
  obtain ⟨later, rfl⟩ := Nat.exists_eq_add_of_le before
  rw [List.take_add]
  exact retains_after _ _

def Granted (requests : List Request) (k : Nat) (r : Request) (i : UInt16) : Prop :=
  requests[k]? = some r ∧ ∃ q, r.ask (after (requests.take k)) = .ok i q

theorem Granted.item? (granted : Granted requests k r i) (later : k < m) :
    (after (requests.take m)).item? i = some r.item := by
  obtain ⟨here, q, asked⟩ := granted
  have found := (served (sound_after (requests.take k)) r).granted i q asked
  have next : after (requests.take (k + 1)) = q := by
    rw [List.take_add_one, here, after_append]
    simp [asked, left]
  rw [← next] at found
  exact (retains_take later).item? found

/-- Two requests of one kind, granted at whatever moments of a run, get the same index exactly when
they are the same request; and an index stands ever after for the request that got it, which is read
back from the texts found there. -/
theorem index_eq_iff {g : Getter} (first : Granted requests j r i)
    (second : Granted requests k s n) (one : r.getter? = some g) (two : s.getter? = some g) :
    (i = n ↔ r = s) ∧
      ∀ m, j < m → (after (requests.take m)).item? i = some r.item ∧
        g.request? r.item = some r := by
  refine ⟨?_, fun m later => ⟨first.item? later, request?_item one⟩⟩
  have here : (after (requests.take (j + k + 1))).item? i = some r.item := first.item? (by omega)
  have there : (after (requests.take (j + k + 1))).item? n = some s.item := second.item? (by omega)
  constructor
  · rintro rfl
    rw [here] at there
    exact item_injective one two (Option.some.inj there)
  · rintro rfl
    exact (sound_after _).item_unique here there

theorem items_after (requests : List Request) :
    (after requests).items =
      requests.foldl (fun items r => (enlist items r.item.trail).1) [] := by
  induction requests using List.reverseRecOn with
  | nil => rfl
  | append_singleton earlier r ih =>
    rw [after_append, List.foldl_append, ← ih]
    exact (meets_ask (sound_after earlier) r).items

theorem exists_granted (here : requests[k]? = some r)
    (fits : (enlist (after (requests.take k)).items r.item.trail).2 = none) :
    ∃ i, Granted requests k r i := by
  have answer := (meets_ask (sound_after (requests.take k)) r).answer
  rw [fits] at answer
  cases asked : r.ask (after (requests.take k)) with
  | ok i q => exact ⟨i, here, q, asked⟩
  | error e q =>
    rw [asked] at answer
    exact answer.elim

def Request.length (owner : RefType) : Request :=
  .methodRef owner "length" ⟨[], .value (.prim .int)⟩

def lengths : List Request :=
  [.length (.objects 0 .string), .length (.object .string), .length (.object .string)]

theorem index_eq_iff_lengths :
    ∃ i n, Granted lengths 0 (.length (.objects 0 .string)) i ∧
      Granted lengths 1 (.length (.object .string)) n ∧
      Granted lengths 2 (.length (.object .string)) n ∧
      i ≠ n ∧ (after lengths).item? i = some (.methodRef "[Ljava/lang/String;" "length" "()I") := by
  have fits : ∀ k < 3, ∀ r ∈ lengths[k]?,
      (enlist (after (lengths.take k)).items r.item.trail).2 = none := by
    simp only [items_after]
    decide
  obtain ⟨i, first⟩ := exists_granted (show lengths[0]? = _ from rfl) (fits 0 (by decide) _ rfl)
  obtain ⟨n, second⟩ := exists_granted (show lengths[1]? = _ from rfl) (fits 1 (by decide) _ rfl)
  obtain ⟨n', third⟩ := exists_granted (show lengths[2]? = _ from rfl) (fits 2 (by decide) _ rfl)
  obtain ⟨apart, later⟩ := index_eq_iff first second rfl rfl
  obtain ⟨same, _⟩ := index_eq_iff second third rfl rfl
  rw [← same.mpr rfl] at third
  refine ⟨i, n, first, second, third, fun equal => ?_, (later 3 (by decide)).1⟩
  cases apart.mp equal

end Bytecode.Pool
