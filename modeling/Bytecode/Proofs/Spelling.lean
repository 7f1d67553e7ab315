import Bytecode.Proofs.Descriptors
import Mathlib

/-! Descriptors and what they are read as. A reader that succeeds has taken just the descriptor of
what it gives, so that a text is read as a type exactly when it is the descriptor of that type. This
holds also for types whose classes are named by any text: such a type is read from its descriptor
exactly when all these names are well formed. -/
namespace Bytecode

theorem Reading.whole_eq_ok {α : Type} {read : List Char → Reading α} {source : String} {a : α} :
    whole read source = .ok a ↔ read source.toList = .ok (a, []) := by
  unfold whole
  split
  · rename_i b found
    simp [found]
  · rename_i b c rest found
    simp [found]
  · rename_i e found
    simp [found]

/-- A reader that takes off just what is written is inverse to writing. -/
theorem Reading.whole_iff {α : Type} {read : List Char → Reading α} {chars : α → List Char}
    (takes : ∀ {cs rest a}, read cs = .ok (a, rest) → cs = chars a ++ rest)
    (reads : ∀ a, read (chars a) = .ok (a, [])) (source : String) (a : α) :
    whole read source = .ok a ↔ String.ofList (chars a) = source := by
  rw [whole_eq_ok]
  constructor
  · intro found
    rw [← String.ofList_toList (s := source), takes found, List.append_nil]
  · rintro rfl
    rw [String.toList_ofList, reads]

theorem Prim.letter_of_ofLetter? {c : Char} {p : Prim} (h : ofLetter? c = some p) :
    p.letter = c := by
  unfold ofLetter? at h
  split at h <;> cases h <;> rfl

theorem Prim.eq_of_read {cs rest : List Char} {p : Prim} (h : read cs = .ok (p, rest)) :
    cs = p.chars ++ rest := by
  cases cs with
  | nil => cases h
  | cons c tail =>
    simp only [read] at h
    split at h
    · rename_i q letter
      cases h
      rw [chars, letter_of_ofLetter? letter]
      rfl
    · cases h

namespace BinaryName

theorem text_of_ofString {text : String} {name : BinaryName} (h : ofString text = .ok name) :
    name.text = text := by
  unfold ofString at h
  split at h <;> cases h
  rfl

theorem eq_of_read {cs rest : List Char} {name : BinaryName} (h : read cs = .ok (name, rest)) :
    cs = name.chars ++ rest := by
  unfold read at h
  split at h
  · rename_i tail
    split at h
    · rename_i c left cut
      split at h
      · rename_i found valid
        cases h
        have stop : c = ';' := by
          have first := List.head?_dropWhile_not (· ≠ ';') tail
          rw [cut] at first
          simpa using first
        have whole := List.takeWhile_append_dropWhile (p := (· ≠ ';')) (l := tail)
        rw [cut, stop] at whole
        rw [chars_append, text_of_ofString valid, String.toList_ofList, whole]
      · cases h
    · cases h
  · exact absurd h (Reading.refuse_ne_ok _ _ _)

end BinaryName

namespace RefType

theorem eq_of_readElement {more : Nat} {cs rest : List Char} {r : RefType}
    (h : readElement more cs = .ok (r, rest)) :
    List.replicate (more + 1) '[' ++ cs = r.chars ++ rest := by
  unfold readElement at h
  split at h
  · obtain ⟨name, found, rfl⟩ := Reading.map_eq_ok h
    rw [BinaryName.eq_of_read found, chars, List.append_assoc]
  · obtain ⟨p, found, rfl⟩ := Reading.map_eq_ok h
    rw [Prim.eq_of_read found, chars, List.append_assoc]

theorem eq_of_read {cs rest : List Char} {r : RefType} (h : read cs = .ok (r, rest)) :
    cs = r.chars ++ rest := by
  unfold read at h
  split at h
  · obtain ⟨name, found, rfl⟩ := Reading.map_eq_ok h
    exact BinaryName.eq_of_read found
  · rename_i tail
    -- The brackets after the first are the dimensions, and what follows them is the element.
    have brackets : tail.takeWhile (· = '[') =
        List.replicate (tail.takeWhile (· = '[')).length '[' :=
      List.eq_replicate_iff.mpr ⟨rfl, fun c member => by simpa using List.mem_takeWhile_imp member⟩
    have whole := List.takeWhile_append_dropWhile (p := (· = '[')) (l := tail)
    rw [← eq_of_readElement h, List.replicate_succ, List.cons_append, ← brackets, whole]
  · exact absurd h (Reading.refuse_ne_ok _ _ _)

theorem parse_eq_ok (source : String) (r : RefType) : parse source = .ok r ↔ r.descriptor = source :=
  Reading.whole_iff eq_of_read (fun r => by simpa using r.read_chars []) source r

end RefType

namespace FieldType

theorem eq_of_read {cs rest : List Char} {t : FieldType} (h : read cs = .ok (t, rest)) :
    cs = t.chars ++ rest := by
  cases cs with
  | nil => cases h
  | cons c tail =>
    simp only [read] at h
    split at h
    · obtain ⟨r, found, rfl⟩ := Reading.map_eq_ok h
      exact RefType.eq_of_read found
    · split at h
      · rename_i p letter
        cases h
        rw [chars, Prim.chars, Prim.letter_of_ofLetter? letter]
        rfl
      · cases h

theorem parse_eq_ok (source : String) (t : FieldType) :
    parse source = .ok t ↔ t.descriptor = source :=
  Reading.whole_iff eq_of_read (fun t => by simpa using t.read_chars []) source t

end FieldType

namespace ResultType

theorem eq_of_read {cs rest : List Char} {t : ResultType} (h : read cs = .ok (t, rest)) :
    cs = t.chars ++ rest := by
  unfold read at h
  split at h
  · cases h
    rfl
  · obtain ⟨f, found, rfl⟩ := Reading.map_eq_ok h
    exact FieldType.eq_of_read found

/-- The descriptor of a value is read as that of a field: void has none of these. -/
theorem parse_eq_value (source : String) (f : FieldType) :
    parse source = .ok (value f) ↔ FieldType.parse source = .ok f := by
  unfold parse
  split
  · rename_i void
    rw [void]
    exact ⟨nofun, nofun⟩
  · cases FieldType.parse source <;> simp

theorem parse_eq_ok (source : String) (t : ResultType) :
    parse source = .ok t ↔ t.descriptor = source := by
  cases t with
  | void =>
    unfold parse
    split
    · rename_i void
      exact ⟨fun _ => void.symm, fun _ => rfl⟩
    · rename_i other
      refine ⟨fun read => ?_, fun void => absurd void.symm other⟩
      split at read <;> cases read
  | value f => exact (parse_eq_value source f).trans (FieldType.parse_eq_ok source f)

end ResultType

namespace Signature

theorem eq_of_readParameters {seen ts : List FieldType} {cs rest : List Char}
    (h : readParameters seen cs = .ok (ts, rest)) :
    ∃ more, ts = seen.reverse ++ more ∧ cs = more.flatMap FieldType.chars ++ ')' :: rest := by
  fun_induction readParameters seen cs with
  | case1 => cases h
  | case2 seen tail =>
    cases h
    exact ⟨[], by simp, rfl⟩
  | case3 => cases h
  | case4 seen c tail other t left found shorter ih =>
    obtain ⟨more, rfl, rfl⟩ := ih h
    exact ⟨t :: more, by simp, by simpa using FieldType.eq_of_read found⟩

theorem eq_of_read {cs rest : List Char} {s : Signature} (h : read cs = .ok (s, rest)) :
    cs = s.chars ++ rest := by
  unfold read at h
  split at h
  · split at h
    · rename_i parameters left found
      obtain ⟨result, last, rfl⟩ := Reading.map_eq_ok h
      obtain ⟨more, rfl, rfl⟩ := eq_of_readParameters found
      simp [chars, ResultType.eq_of_read last]
    · cases h
  · exact absurd h (Reading.refuse_ne_ok _ _ _)

theorem parse_eq_ok (source : String) (s : Signature) :
    parse source = .ok s ↔ s.descriptor = source :=
  Reading.whole_iff eq_of_read read_chars source s

end Signature

/-! Types whose classes are named by any text. -/

inductive LooseRef where
  | object (name : String)
  | objects (more : Nat) (name : String)
  | prims (more : Nat) (prim : Prim)

inductive LooseField where
  | prim (p : Prim)
  | ref (r : LooseRef)

inductive LooseResult where
  | void
  | value (t : LooseField)

structure LooseSignature where
  parameters : List LooseField
  result : LooseResult

namespace LooseRef

def named (name : String) : List Char := 'L' :: name.toList ++ [';']

def chars : LooseRef → List Char
  | object name => named name
  | objects more name => List.replicate (more + 1) '[' ++ named name
  | prims more p => List.replicate (more + 1) '[' ++ p.chars

def Valid : LooseRef → Prop
  | object name | objects _ name => BinaryName.fault? name = none
  | prims _ _ => True

end LooseRef

namespace LooseField

def chars : LooseField → List Char
  | prim p => p.chars
  | ref r => r.chars

def Valid : LooseField → Prop
  | prim _ => True
  | ref r => r.Valid

end LooseField

namespace LooseResult

def chars : LooseResult → List Char
  | void => ['V']
  | value t => t.chars

def Valid : LooseResult → Prop
  | void => True
  | value t => t.Valid

end LooseResult

namespace LooseSignature

def chars (s : LooseSignature) : List Char :=
  '(' :: s.parameters.flatMap LooseField.chars ++ ')' :: s.result.chars

def Valid (s : LooseSignature) : Prop := (∀ t ∈ s.parameters, t.Valid) ∧ s.result.Valid

end LooseSignature

namespace RefType

def loose : RefType → LooseRef
  | object name => .object name.text
  | objects more name => .objects more name.text
  | prims more p => .prims more p

theorem chars_loose (r : RefType) : r.loose.chars = r.chars := by
  cases r <;> rfl

theorem valid_iff (d : LooseRef) : d.Valid ↔ d ∈ Set.range loose := by
  constructor
  · intro valid
    cases d with
    | object name => exact ⟨.object ⟨name, valid⟩, rfl⟩
    | objects more name => exact ⟨.objects more ⟨name, valid⟩, rfl⟩
    | prims more p => exact ⟨.prims more p, rfl⟩
  · rintro ⟨r, rfl⟩
    cases r with
    | object name | objects _ name => exact name.valid
    | prims => trivial

end RefType

namespace FieldType

def loose : FieldType → LooseField
  | prim p => .prim p
  | ref r => .ref r.loose

theorem chars_loose (t : FieldType) : t.loose.chars = t.chars := by
  cases t with
  | prim p => rfl
  | ref r => exact r.chars_loose

theorem valid_iff (d : LooseField) : d.Valid ↔ d ∈ Set.range loose := by
  cases d with
  | prim p => exact ⟨fun _ => ⟨.prim p, rfl⟩, fun _ => trivial⟩
  | ref r =>
    refine (RefType.valid_iff r).trans ⟨?_, ?_⟩
    · rintro ⟨s, rfl⟩
      exact ⟨.ref s, rfl⟩
    · rintro ⟨t, same⟩
      cases t with
      | prim => cases same
      | ref s => exact ⟨s, LooseField.ref.inj same⟩

end FieldType

namespace ResultType

def loose : ResultType → LooseResult
  | void => .void
  | value t => .value t.loose

theorem chars_loose (t : ResultType) : t.loose.chars = t.chars := by
  cases t with
  | void => rfl
  | value f => exact f.chars_loose

theorem valid_iff (d : LooseResult) : d.Valid ↔ d ∈ Set.range loose := by
  cases d with
  | void => exact ⟨fun _ => ⟨.void, rfl⟩, fun _ => trivial⟩
  | value f =>
    refine (FieldType.valid_iff f).trans ⟨?_, ?_⟩
    · rintro ⟨t, rfl⟩
      exact ⟨.value t, rfl⟩
    · rintro ⟨t, same⟩
      cases t with
      | void => cases same
      | value g => exact ⟨g, LooseResult.value.inj same⟩

end ResultType

namespace Signature

def loose (s : Signature) : LooseSignature := ⟨s.parameters.map FieldType.loose, s.result.loose⟩

theorem chars_loose (s : Signature) : s.loose.chars = s.chars := by
  have each : s.loose.parameters.flatMap LooseField.chars = s.parameters.flatMap FieldType.chars := by
    simp only [loose, List.flatMap_map, FieldType.chars_loose]
  have result : s.loose.result.chars = s.result.chars := s.result.chars_loose
  rw [LooseSignature.chars, each, result]
  rfl

theorem valid_iff (d : LooseSignature) : d.Valid ↔ d ∈ Set.range loose := by
  have list : (∀ t ∈ d.parameters, t.Valid) ↔ d.parameters ∈ Set.range (List.map FieldType.loose) := by
    simp only [Set.range_list_map, FieldType.valid_iff, Set.mem_ofPred_eq]
  rw [LooseSignature.Valid, list, ResultType.valid_iff]
  constructor
  · rintro ⟨⟨parameters, hp⟩, result, hr⟩
    exact ⟨⟨parameters, result⟩, by rw [loose, hp, hr]⟩
  · rintro ⟨s, rfl⟩
    exact ⟨⟨s.parameters, rfl⟩, s.result, rfl⟩

end Signature

structure Inverse {α β : Type} (parse : String → Except Error α) (descriptor : α → String)
    (loose : α → β) (Valid : β → Prop) (chars : β → List Char) : Prop where
  typed : ∀ source t, parse source = .ok t ↔ descriptor t = source
  /-- Among the types with any names, a text is read as the one it is the descriptor of, if the names
  are well formed, and as no other. -/
  named : ∀ source d, (∃ t, parse source = .ok t ∧ loose t = d) ↔
    Valid d ∧ String.ofList (chars d) = source
  accepts : ∀ source, (∃ t, parse source = .ok t) ↔
    ∃ d, Valid d ∧ String.ofList (chars d) = source
  injective : Set.InjOn chars {d | Valid d}

theorem Inverse.of_typed {α β : Type} {parse : String → Except Error α} {written : α → List Char}
    {loose : α → β} {Valid : β → Prop} {chars : β → List Char}
    (typed : ∀ source t, parse source = .ok t ↔ String.ofList (written t) = source)
    (same : ∀ t, chars (loose t) = written t) (valid : ∀ d, Valid d ↔ d ∈ Set.range loose) :
    Inverse parse (fun t => String.ofList (written t)) loose Valid chars := by
  have named : ∀ source d, (∃ t, parse source = .ok t ∧ loose t = d) ↔
      Valid d ∧ String.ofList (chars d) = source := by
    intro source d
    constructor
    · rintro ⟨t, read, rfl⟩
      exact ⟨(valid _).mpr ⟨t, rfl⟩, by rw [same, (typed source t).mp read]⟩
    · rintro ⟨well, spelled⟩
      obtain ⟨t, rfl⟩ := (valid d).mp well
      exact ⟨t, (typed source t).mpr (by rw [← same, spelled]), rfl⟩
  refine ⟨typed, named, fun source => ?_, fun d first e second equal => ?_⟩
  · simp only [← named]
    constructor
    · rintro ⟨t, read⟩
      exact ⟨loose t, t, read, rfl⟩
    · rintro ⟨d, t, read, _⟩
      exact ⟨t, read⟩
  · obtain ⟨t, read, rfl⟩ := (named _ d).mpr ⟨first, rfl⟩
    obtain ⟨u, again, rfl⟩ := (named _ e).mpr ⟨second, rfl⟩
    rw [equal, again] at read
    rw [Except.ok.inj read]

/-- Descriptors of reference types, of fields, of methods and of results are read as what they were
written for, and nothing else is read at all. -/
theorem descriptors_inverse :
    Inverse RefType.parse RefType.descriptor RefType.loose LooseRef.Valid LooseRef.chars ∧
    Inverse FieldType.parse FieldType.descriptor FieldType.loose LooseField.Valid
      LooseField.chars ∧
    Inverse Signature.parse Signature.descriptor Signature.loose LooseSignature.Valid
      LooseSignature.chars ∧
    Inverse ResultType.parse ResultType.descriptor ResultType.loose LooseResult.Valid
      LooseResult.chars :=
  ⟨.of_typed RefType.parse_eq_ok RefType.chars_loose RefType.valid_iff,
    .of_typed FieldType.parse_eq_ok FieldType.chars_loose FieldType.valid_iff,
    .of_typed Signature.parse_eq_ok Signature.chars_loose Signature.valid_iff,
    .of_typed ResultType.parse_eq_ok ResultType.chars_loose ResultType.valid_iff⟩

end Bytecode
