import Bytecode.Descriptor

/-! Reading descriptors. Each reader takes one descriptor off the front and gives back what
is left; a whole text is read when nothing is left. A reader that succeeds has taken at least
one character, which is why the list of parameters comes to an end. -/
namespace Bytecode

/-- What was read and what is left. -/
abbrev Reading (α : Type) := Except Error (α × List Char)

namespace Reading

def refuse {α : Type} (what : Expected) : List Char → Reading α
  | [] => .error (.badDescriptor (.missing what))
  | c :: _ => .error (.badDescriptor (.unexpected what c))

def map {α β : Type} (f : α → β) : Reading α → Reading β
  | .ok (a, rest) => .ok (f a, rest)
  | .error e => .error e

/-- Read all of a text. -/
def whole {α : Type} (read : List Char → Reading α) (source : String) : Except Error α :=
  match read source.toList with
  | .ok (a, []) => .ok a
  | .ok (_, c :: _) => .error (.badDescriptor (.leftover c source))
  | .error e => .error e

theorem refuse_ne_ok {α : Type} (what : Expected) (cs : List Char) (r : α × List Char) :
    refuse what cs ≠ .ok r := by
  cases cs <;> simp [refuse]

theorem map_eq_ok {α β : Type} {f : α → β} {x : Reading α} {b : β} {rest : List Char}
    (h : map f x = .ok (b, rest)) : ∃ a, x = .ok (a, rest) ∧ f a = b := by
  cases x with
  | error e => simp [map] at h
  | ok r =>
    simp only [map, Except.ok.injEq, Prod.mk.injEq] at h
    exact ⟨r.1, by rw [← h.2], h.1⟩

end Reading

def Prim.read : List Char → Reading Prim
  | [] => Reading.refuse .baseType []
  | c :: rest =>
    match Prim.ofLetter? c with
    | some p => .ok (p, rest)
    | none => Reading.refuse .baseType (c :: rest)

/-- A class between `L` and `;`. -/
def BinaryName.read : List Char → Reading BinaryName
  | 'L' :: rest =>
    match rest.dropWhile (· ≠ ';') with
    | _ :: left =>
      match BinaryName.ofString (String.ofList (rest.takeWhile (· ≠ ';'))) with
      | .ok name => .ok (name, left)
      | .error e => .error e
    | [] => .error (.badDescriptor (.unterminated (String.ofList rest)))
  | cs => Reading.refuse .objectType cs

/-- What the brackets of an array stand before. -/
def RefType.readElement (more : Nat) : List Char → Reading RefType
  | 'L' :: rest => Reading.map (RefType.objects more) (BinaryName.read ('L' :: rest))
  | cs => Reading.map (RefType.prims more) (Prim.read cs)

def RefType.read : List Char → Reading RefType
  | 'L' :: rest => Reading.map RefType.object (BinaryName.read ('L' :: rest))
  | '[' :: rest =>
    RefType.readElement (rest.takeWhile (· = '[')).length (rest.dropWhile (· = '['))
  | cs => Reading.refuse .referenceType cs

def FieldType.read : List Char → Reading FieldType
  | [] => Reading.refuse .fieldType []
  | c :: rest =>
    if c = 'L' ∨ c = '[' then Reading.map FieldType.ref (RefType.read (c :: rest))
    else
      match Prim.ofLetter? c with
      | some p => .ok (.prim p, rest)
      | none => Reading.refuse .fieldType (c :: rest)

theorem Prim.read_length {cs rest : List Char} {p : Prim}
    (h : Prim.read cs = .ok (p, rest)) : rest.length < cs.length := by
  cases cs with
  | nil => simp [Prim.read, Reading.refuse] at h
  | cons c tail =>
    simp only [Prim.read] at h
    split at h
    · simp only [Except.ok.injEq, Prod.mk.injEq] at h
      simp [← h.2]
    · exact absurd h (Reading.refuse_ne_ok _ _ _)

theorem BinaryName.read_length {cs rest : List Char} {name : BinaryName}
    (h : BinaryName.read cs = .ok (name, rest)) : rest.length < cs.length := by
  unfold BinaryName.read at h
  split at h
  · rename_i tail
    split at h
    · rename_i c left cut
      have shorter := (List.dropWhile_sublist (l := tail) (decide <| · ≠ ';')).length_le
      rw [cut, List.length_cons] at shorter
      split at h
      · simp only [Except.ok.injEq, Prod.mk.injEq] at h
        simp only [← h.2, List.length_cons]
        omega
      · simp at h
    · simp at h
  · exact absurd h (Reading.refuse_ne_ok _ _ _)

theorem RefType.readElement_length {more : Nat} {cs rest : List Char} {r : RefType}
    (h : RefType.readElement more cs = .ok (r, rest)) : rest.length < cs.length := by
  unfold RefType.readElement at h
  split at h
  · obtain ⟨name, hn, _⟩ := Reading.map_eq_ok h
    exact BinaryName.read_length hn
  · obtain ⟨p, hp, _⟩ := Reading.map_eq_ok h
    exact Prim.read_length hp

theorem RefType.read_length {cs rest : List Char} {r : RefType}
    (h : RefType.read cs = .ok (r, rest)) : rest.length < cs.length := by
  unfold RefType.read at h
  split at h
  · obtain ⟨name, hn, _⟩ := Reading.map_eq_ok h
    exact BinaryName.read_length hn
  · rename_i tail
    have taken := RefType.readElement_length h
    have shorter := (List.dropWhile_sublist (l := tail) (decide <| · = '[')).length_le
    simp only [List.length_cons]
    omega
  · exact absurd h (Reading.refuse_ne_ok _ _ _)

theorem FieldType.read_length {cs rest : List Char} {t : FieldType}
    (h : FieldType.read cs = .ok (t, rest)) : rest.length < cs.length := by
  cases cs with
  | nil => simp [FieldType.read, Reading.refuse] at h
  | cons c tail =>
    simp only [FieldType.read] at h
    split at h
    · obtain ⟨r, hr, _⟩ := Reading.map_eq_ok h
      exact RefType.read_length hr
    · split at h
      · simp only [Except.ok.injEq, Prod.mk.injEq] at h
        simp [← h.2]
      · exact absurd h (Reading.refuse_ne_ok _ _ _)

/-- Parameters up to the closing bracket, after those already read (latest first). -/
def Signature.readParameters (seen : List FieldType) (cs : List Char) :
    Reading (List FieldType) :=
  match cs with
  | [] => .error (.badDescriptor .unclosed)
  | ')' :: rest => .ok (seen.reverse, rest)
  | c :: tail =>
    match h : FieldType.read (c :: tail) with
    | .error e => .error e
    | .ok (t, rest) =>
      have := FieldType.read_length h
      Signature.readParameters (t :: seen) rest
termination_by cs.length
decreasing_by assumption

def ResultType.read : List Char → Reading ResultType
  | 'V' :: rest => .ok (.void, rest)
  | cs => Reading.map ResultType.value (FieldType.read cs)

def Signature.read : List Char → Reading Signature
  | '(' :: rest =>
    match Signature.readParameters [] rest with
    | .ok (parameters, rest) => Reading.map (Signature.mk parameters) (ResultType.read rest)
    | .error e => .error e
  | cs => Reading.refuse .methodStart cs

def Prim.parse : String → Except Error Prim := Reading.whole Prim.read

def BinaryName.parse : String → Except Error BinaryName := Reading.whole BinaryName.read

def RefType.parse : String → Except Error RefType := Reading.whole RefType.read

def FieldType.parse : String → Except Error FieldType := Reading.whole FieldType.read

def Signature.parse : String → Except Error Signature := Reading.whole Signature.read

/-- A field descriptor, or `V`. -/
def ResultType.parse (source : String) : Except Error ResultType :=
  if source = "V" then .ok .void
  else
    match FieldType.parse source with
    | .ok t => .ok (.value t)
    | .error e => .error e

end Bytecode
