import Bytecode.Descriptor.Reader

/-! Descriptors read back. A name has none of the characters that end it or that begin an array, so
that each descriptor is read off the front of any text that starts with it. -/
namespace Bytecode

theorem mem_intercalate {x c : Char} {parts : List (List Char)} (h : c ∈ [x].intercalate parts) :
    c = x ∨ ∃ s ∈ parts, c ∈ s := by
  induction parts with
  | nil => simp at h
  | cons s rest ih =>
    cases rest with
    | nil => exact .inr ⟨s, by simp, by simpa using h⟩
    | cons t rest =>
      rw [List.intercalate_cons_cons, List.mem_append, List.mem_append, List.mem_singleton] at h
      rcases h with (here | between) | later
      · exact .inr ⟨s, by simp, here⟩
      · exact .inl between
      · rcases ih later with same | ⟨u, member, inside⟩
        · exact .inl same
        · exact .inr ⟨u, List.mem_cons_of_mem s member, inside⟩

namespace MemberName

theorem ofString_text (name : MemberName) : ofString name.text = .ok name := by
  unfold ofString
  split
  · rfl
  · rename_i fault wrong
    rw [name.valid] at wrong
    cases wrong

end MemberName

namespace BinaryName

theorem ofString_text (name : BinaryName) : ofString name.text = .ok name := by
  unfold ofString
  split
  · rfl
  · rename_i fault wrong
    rw [name.valid] at wrong
    cases wrong

theorem not_illegal_of_mem (name : BinaryName) {c : Char} (member : c ∈ name.text.toList) :
    isIllegal c = false := by
  have valid := name.valid
  unfold fault? at valid
  split at valid
  · cases valid
  · have each : ∀ s ∈ segments name.text, isBadSegment s = false := by
      simpa [List.find?_eq_none] using valid
    have whole : ['/'].intercalate (segments name.text) = name.text.toList :=
      List.intercalate_splitOn '/'
    rw [← whole] at member
    rcases mem_intercalate member with rfl | ⟨s, part, inside⟩
    · rfl
    · have good := each s part
      simp only [isBadSegment, Bool.or_eq_false_iff, List.any_eq_false] at good
      simpa using good.2 c inside

theorem chars_append (name : BinaryName) (rest : List Char) :
    name.chars ++ rest = 'L' :: (name.text.toList ++ ';' :: rest) := by
  simp [chars]

theorem read_chars (name : BinaryName) (rest : List Char) :
    read (name.chars ++ rest) = .ok (name, rest) := by
  have plain : ∀ c ∈ name.text.toList, (decide (c ≠ ';')) = true := by
    intro c member
    have legal := name.not_illegal_of_mem member
    simp only [isIllegal, Bool.or_eq_false_iff, decide_eq_false_iff_not] at legal
    simp [legal]
  have cut : (name.text.toList ++ ';' :: rest).takeWhile (· ≠ ';') = name.text.toList := by
    rw [List.takeWhile_append_of_pos plain]
    simp
  have left : (name.text.toList ++ ';' :: rest).dropWhile (· ≠ ';') = ';' :: rest := by
    rw [List.dropWhile_append_of_pos plain]
    simp
  simp only [chars_append, read, left, cut, String.ofList_toList, ofString_text]

end BinaryName

namespace RefType

theorem read_brackets (more : Nat) {c : Char} (other : c ≠ '[') (rest : List Char) :
    read (List.replicate (more + 1) '[' ++ c :: rest) = readElement more (c :: rest) := by
  have all : ∀ d ∈ List.replicate more '[', decide (d = '[') = true := by simp
  simp only [List.replicate_succ, List.cons_append, read]
  rw [List.takeWhile_append_of_pos all, List.dropWhile_append_of_pos all]
  simp [other]

theorem read_chars (r : RefType) (rest : List Char) : read (r.chars ++ rest) = .ok (r, rest) := by
  cases r with
  | object name =>
    have found := name.read_chars rest
    rw [BinaryName.chars_append] at found
    rw [chars, BinaryName.chars_append, read, found]
    rfl
  | objects more name =>
    have found := name.read_chars rest
    rw [BinaryName.chars_append] at found
    rw [chars, List.append_assoc, BinaryName.chars_append, read_brackets more (by decide),
      readElement, found]
    rfl
  | prims more p =>
    have other : p.letter ≠ '[' := by cases p <;> decide
    simp only [chars, Prim.chars, List.append_assoc, List.cons_append, List.nil_append]
    rw [read_brackets more other]
    cases p <;> rfl

def ofClassName (text : String) : Except Error RefType :=
  match text.toList with
  | '[' :: _ => parse text
  | _ => RefType.object <$> BinaryName.ofString text

end RefType

theorem Reading.whole_ofList {α : Type} {read : List Char → Reading α} {a : α} {cs : List Char}
    (h : read cs = .ok (a, [])) : whole read (String.ofList cs) = .ok a := by
  simp [whole, h]

theorem RefType.parse_descriptor (r : RefType) : parse r.descriptor = .ok r :=
  Reading.whole_ofList (by simpa using r.read_chars [])

theorem RefType.ofClassName_className (r : RefType) : ofClassName r.className = .ok r := by
  cases r with
  | object name =>
    unfold ofClassName
    split
    · rename_i tail starts
      have legal := name.not_illegal_of_mem (c := '[') (by
        have : name.text.toList = '[' :: tail := starts
        simp [this])
      cases legal
    · rw [className, BinaryName.ofString_text]
      rfl
  | objects more name =>
    have whole := (RefType.objects more name).parse_descriptor
    simpa [ofClassName, className, descriptor, chars, List.replicate_succ] using whole
  | prims more p =>
    have whole := (RefType.prims more p).parse_descriptor
    simpa [ofClassName, className, descriptor, chars, List.replicate_succ] using whole

namespace FieldType

theorem read_chars (t : FieldType) (rest : List Char) : read (t.chars ++ rest) = .ok (t, rest) := by
  cases t with
  | prim p => cases p <;> rfl
  | ref r =>
    have found := r.read_chars rest
    obtain ⟨c, tail, whole, opens⟩ : ∃ c tail, r.chars ++ rest = c :: tail ∧ (c = 'L' ∨ c = '[') := by
      cases r with
      | object name => exact ⟨_, _, name.chars_append rest, .inl rfl⟩
      | objects more name => exact ⟨'[', _, rfl, .inr rfl⟩
      | prims more p => exact ⟨'[', _, rfl, .inr rfl⟩
    rw [whole] at found
    rw [chars, whole, read, if_pos opens, found]
    rfl

theorem parse_descriptor (t : FieldType) : parse t.descriptor = .ok t :=
  Reading.whole_ofList (by simpa using t.read_chars [])

theorem exists_head (t : FieldType) : ∃ c tail, t.chars = c :: tail ∧ c ≠ ')' := by
  cases t with
  | prim p => cases p <;> exact ⟨_, _, rfl, by decide⟩
  | ref r =>
    cases r with
    | object name => exact ⟨'L', _, rfl, by decide⟩
    | objects more name => exact ⟨'[', _, rfl, by decide⟩
    | prims more p => exact ⟨'[', _, rfl, by decide⟩

end FieldType

namespace Signature

theorem readParameters_chars (parameters seen : List FieldType) (rest : List Char) :
    readParameters seen (parameters.flatMap FieldType.chars ++ ')' :: rest) =
      .ok (seen.reverse ++ parameters, rest) := by
  induction parameters generalizing seen with
  | nil =>
    rw [List.flatMap_nil, List.nil_append, readParameters]
    simp
  | cons t others ih =>
    obtain ⟨c, tail, starts, other⟩ := t.exists_head
    have found := t.read_chars (others.flatMap FieldType.chars ++ ')' :: rest)
    rw [List.flatMap_cons, List.append_assoc]
    rw [starts, List.cons_append] at found ⊢
    rw [readParameters]
    · split
      · rename_i wrong
        rw [found] at wrong
        cases wrong
      · rename_i t' rest' same
        rw [found] at same
        cases same
        rw [ih]
        simp
    · exact other

theorem read_chars (s : Signature) : read s.chars = .ok (s, []) := by
  have result : ResultType.read s.result.chars = .ok (s.result, []) := by
    cases s.result with
    | void => rfl
    | value t =>
      have found := t.read_chars []
      rw [List.append_nil] at found
      unfold ResultType.read
      split
      · rename_i tail starts
        have starts : t.chars = 'V' :: tail := starts
        simp [starts, FieldType.read, Prim.ofLetter?, Reading.refuse] at found
      · rw [ResultType.chars, found]
        rfl
  simp [chars, read, readParameters_chars, result, Reading.map]

theorem parse_descriptor (s : Signature) : parse s.descriptor = .ok s :=
  Reading.whole_ofList s.read_chars

end Signature

end Bytecode
