import Bytecode.Proofs.Retries
import Bytecode.Proofs.Upkeep

/-! The numbers of members in the bytes of a class. They are written in two bytes and nothing keeps
the lists that short, so that the bytes do not say what the class is when a list is longer. Interfaces
cannot be too many, since each has a constant of its own. -/
namespace Bytecode

namespace Reader

variable {α β : Type}

def Yields (r : Reader α) (P : α → Prop) : Prop :=
  ∀ input a rest, r input = some (a, rest) → P a

namespace Yields

variable {r : Reader α} {f : α → Reader β} {P : α → Prop} {Q : β → Prop} {a : α}

theorem any (r : Reader α) : Yields r fun _ => True := fun _ _ _ _ => trivial

protected theorem pure (h : P a) : Yields (pure a) P := by
  intro input b rest read
  cases read
  exact h

protected theorem bind (first : Yields r P) (second : ∀ a, P a → Yields (f a) Q) :
    Yields (r >>= f) Q := by
  intro input b rest read
  obtain ⟨⟨a, mid⟩, here, later⟩ := Option.bind_eq_some_iff.mp read
  exact second a (first input a mid here) mid b rest later

end Yields

theorem yields_bytes (n : Nat) : Yields (bytes n) fun octets => octets.length = n := by
  intro input octets rest read
  unfold bytes at read
  split at read
  · cases read
    rw [List.length_take]
    omega
  · cases read

theorem yields_block : Yields block fun octets => octets.length < 2 ^ 32 := by
  refine (Yields.any u32).bind fun n _ input octets rest read => ?_
  rw [yields_bytes n.toNat input octets rest read]
  exact n.toNat_lt

variable {item : Reader α} {P : α → Prop}

theorem yields_repeated (each : Yields item P) (n : Nat) :
    Yields (repeated item n) fun values => values.length = n ∧ ∀ v ∈ values, P v := by
  induction n with
  | zero => exact .pure ⟨rfl, by simp⟩
  | succ n ih =>
    refine each.bind fun first here => ih.bind fun rest later => ?_
    exact .pure ⟨congrArg (· + 1) later.1, List.forall_mem_cons.mpr ⟨here, later.2⟩⟩

theorem yields_counted (each : Yields item P) :
    Yields (counted item) fun values => values.length < 65536 ∧ ∀ v ∈ values, P v := by
  refine (Yields.any u16).bind fun n _ input values rest read => ?_
  obtain ⟨length, all⟩ := yields_repeated each n.toNat input values rest read
  exact ⟨length ▸ n.toNat_lt, all⟩

end Reader

open Reader

theorem Attribute.yields_reader : Yields Attribute.reader fun a => a.info.length < 2 ^ 32 :=
  (Yields.any u16).bind fun _ _ => yields_block.bind fun _ small => .pure small

theorem Member.yields_reader : Yields Member.reader fun m => AttributesFit m.attributes :=
  (Yields.any u16).bind fun _ _ => (Yields.any u16).bind fun _ _ => (Yields.any u16).bind fun _ _ =>
    (yields_counted Attribute.yields_reader).bind fun _ fits => .pure fits

structure Image.Fits (i : Image) : Prop where
  interfaces : i.interfaces.length < 65536
  fields : i.fields.length < 65536 ∧ ∀ m ∈ i.fields, AttributesFit m.attributes
  methods : i.methods.length < 65536 ∧ ∀ m ∈ i.methods, AttributesFit m.attributes
  attributes : AttributesFit i.attributes

theorem Image.yields_reader : Yields Image.reader Image.Fits := by
  refine (Yields.any u32).bind fun magic _ => ?_
  split
  · intro input a rest read
    cases read
  · refine (Yields.any (pair Version.mk)).bind fun _ _ => ?_
    refine (Yields.any Pool.reader).bind fun _ _ => ?_
    refine (Yields.any u16).bind fun _ _ => ?_
    refine (Yields.any u16).bind fun _ _ => ?_
    refine (Yields.any u16).bind fun _ _ => ?_
    refine (yields_counted (Yields.any u16)).bind fun _ interfaces => ?_
    refine (yields_counted Member.yields_reader).bind fun _ fields => ?_
    refine (yields_counted Member.yields_reader).bind fun _ methods => ?_
    refine (yields_counted Attribute.yields_reader).bind fun _ attributes => ?_
    exact .pure ⟨interfaces.1, fields, methods, attributes⟩

namespace ClassFile

def CountedAs (c : ClassFile) (octets : Octets) (interfaces fields methods : UInt16) : Prop :=
  ∃ pool, c.pool.encode = .ok pool ∧
    octets = magic ++ c.version.encode ++ pool ++ Octets.u16 c.flags ++ Octets.u16 c.this ++
      Octets.u16 c.super ++ (Octets.u16 interfaces ++ c.interfaces.flatMap Octets.u16) ++
      (Octets.u16 fields ++ c.fields.flatMap Member.encode) ++
      (Octets.u16 methods ++ c.methods.flatMap Member.encode) ++
      Octets.counted Attribute.encode c.attributes

theorem countedAs_of_encode {c : ClassFile} {octets : Octets} (written : c.encode = .ok octets) :
    c.CountedAs octets c.interfaces.length.toUInt16 c.fields.length.toUInt16
      c.methods.length.toUInt16 := by
  unfold encode at written
  cases pool : c.pool.encode with
  | error fault =>
    rw [pool] at written
    cases written
  | ok bytes =>
    rw [pool] at written
    cases written
    exact ⟨bytes, pool, rfl⟩

/-- No bytes are read as a class file whose lists are too long to be counted, and all others are
read back from their bytes. -/
theorem whole_iff_fits {c : ClassFile} {octets : Octets} (sound : c.pool.Sound)
    (written : c.encode = .ok octets) : Image.reader.whole octets = some c.image ↔ c.Fits := by
  constructor
  · intro read
    unfold Reader.whole at read
    split at read
    · rename_i a found
      cases read
      have fits := Image.yields_reader octets _ _ found
      exact ⟨fits.interfaces, fits.fields.1, fits.methods.1,
        List.forall_mem_append.mpr ⟨fits.fields.2, fits.methods.2⟩, fits.attributes⟩
    · cases read
  · intro fits
    obtain ⟨octets', same, read⟩ := exists_encode sound fits
    rw [written] at same
    cases same
    exact read.whole

end ClassFile

namespace ClassDraft

variable {d e : ClassDraft}

theorem encode_of_bytes {octets : Octets} (done : bytes d = .ok octets e) :
    e.classFile.encode = .ok octets := by
  unfold bytes at done
  obtain ⟨_, _, got, done⟩ := exists_of_bind done
  cases got
  -- The class is finished first if it is not yet, and then written either way.
  split at done
  case' isTrue => obtain ⟨_, _, _, done⟩ := exists_of_bind done
  all_goals
    obtain ⟨f, _, got, done⟩ := exists_of_bind done
    cases encoded : f.classFile.encode with
    | ok bytes =>
      rw [encoded] at done
      cases done
      cases got
      exact encoded
    | error fault =>
      rw [encoded] at done
      cases done

namespace Upheld

variable {past : List Event}

/-- Each interface has an index of its own, so that there are not too many. -/
theorem interfaces_few (h : Upheld past d) : d.classFile.interfaces.length < 65536 := by
  have room := h.built.sound.room
  have apart : (d.classFile.interfaces.map UInt16.toNat).Nodup :=
    h.interfaces_nodup.map fun _ _ => UInt16.toNat_inj.mp
  have below : ∀ n ∈ d.classFile.interfaces.map UInt16.toNat,
      n ∈ List.range d.pool.entries.next := by
    intro n member
    obtain ⟨i, listed, rfl⟩ := List.mem_map.mp member
    obtain ⟨x, there, rfl⟩ := List.mem_map.mp listed
    obtain ⟨k, found, _⟩ := Pool.class?_eq_some.mp (h.classes x there)
    exact List.mem_range.mpr (d.pool.entries.lt_next_of_mem (Pool.get?_iff.mp found)).2
  have few := (apart.subperm below).length_le
  rw [List.length_map, List.length_range] at few
  omega

theorem attributes_few (h : Upheld past d) {m : Pending} (member : m ∈ d.methods.toList) :
    m.member.attributes.length ≤ 1 := by
  obtain ⟨x, _, bears⟩ := exists_mem_of_forall₂ h.methods member
  have carries := bears.carries
  cases body : x.body with
  | none =>
    rw [body] at carries
    rw [carries.2]
    exact Nat.zero_le 1
  | some b =>
    rw [body] at carries
    rcases carries with ⟨_, bare⟩ | ⟨_, code, a, _, whole, _⟩
    · rw [bare]
      exact Nat.zero_le 1
    · rw [whole]
      exact Nat.le_refl 1

theorem fits_iff (h : Upheld past d) : d.classFile.Fits ↔
    d.fields.size < 65536 ∧ d.methods.size < 65536 ∧
      ∀ m ∈ d.methods, ∀ a ∈ m.member.attributes, a.info.length < 2 ^ 32 := by
  have fields : d.classFile.fields.length = d.fields.size := Array.length_toList
  have methods : d.classFile.methods.length = d.methods.size := List.length_map ..
  constructor
  · intro fits
    refine ⟨fields ▸ fits.fields, methods ▸ fits.methods, fun m member => ?_⟩
    have listed := List.mem_map_of_mem (f := Pending.member) (Array.mem_toList_iff.mpr member)
    exact (fits.members m.member (List.mem_append_right _ listed)).2
  · rintro ⟨few, few', small⟩
    refine ⟨h.interfaces_few, fields ▸ few, methods ▸ few', ?_, ?_⟩
    · rw [List.forall_mem_append]
      constructor
      · intro f member
        obtain ⟨_, _, _, bare⟩ := exists_mem_of_forall₂ h.fields member
        rw [bare]
        exact ⟨by decide, by simp⟩
      · intro m member
        obtain ⟨pending, listed, rfl⟩ := List.mem_map.mp member
        have few := h.attributes_few listed
        exact ⟨by omega, small pending (Array.mem_toList_iff.mp listed)⟩
    · have sourced := h.sourced
      unfold Sourced at sourced
      split at sourced
      · obtain ⟨a, index, whole, _, info, _⟩ := sourced
        rw [classFile, whole]
        exact ⟨by simp, by simp [info]⟩
      · rw [classFile, sourced]
        exact ⟨by simp, by simp⟩

end Upheld

/-- The numbers of fields and methods are written modulo 65536. So the bytes of a class are read
back just if there are fewer of both, apart from code that is itself too long for its length. -/
theorem whole_bytes_iff (config : Config) (this : BinaryName) (super : Option BinaryName)
    (interface : Bool) (start d : ClassDraft) (operations : List Operation) (octets : Octets)
    (begun : make config this super interface = .ok start)
    (written : bytes (start.after operations) = .ok octets d) :
    (∃ interfaces fields methods, d.classFile.CountedAs octets interfaces fields methods ∧
      interfaces.toNat = d.interfaces.size ∧ fields.toNat = d.fields.size % 65536 ∧
      methods.toNat = d.methods.size % 65536) ∧
    (Image.reader.whole octets = some d.classFile.image ↔
      d.fields.size < 65536 ∧ d.methods.size < 65536 ∧
        ∀ m ∈ d.methods, ∀ a ∈ m.member.attributes, a.info.length < 2 ^ 32) := by
  have encoded := encode_of_bytes written
  have reached : start.after (operations ++ [.bytes]) = d := by
    rw [after_append]
    apply (left_run_unit bytes (start.after operations)).trans
    rw [written]
    rfl
  have upheld := upheld_after (upheld_of_make begun) (operations ++ [.bytes])
  rw [reached] at upheld
  constructor
  · have few := upheld.interfaces_few
    refine ⟨_, _, _, ClassFile.countedAs_of_encode encoded, ?_, ?_, ?_⟩
    · rw [toNat_toUInt16 (by omega), classFile, List.length_map, Array.length_toList]
    · simp [classFile]
    · simp [classFile]
  · rw [ClassFile.whole_iff_fits upheld.built.sound encoded]
    exact upheld.fits_iff

theorem whole_bytes_iff_building : ∃ start d octets,
    make {} ⟨"C", by decide⟩ (some ⟨"B", by decide⟩) false = .ok start ∧
    bytes (start.after building) = .ok octets d ∧
    (∃ interfaces fields methods, d.classFile.CountedAs octets interfaces fields methods ∧
      interfaces.toNat = d.interfaces.size ∧ fields.toNat = d.fields.size % 65536 ∧
      methods.toNat = d.methods.size % 65536) ∧
    (Image.reader.whole octets = some d.classFile.image ↔
      d.fields.size < 65536 ∧ d.methods.size < 65536 ∧
        ∀ m ∈ d.methods, ∀ a ∈ m.member.attributes, a.info.length < 2 ^ 32) := by
  obtain ⟨start, d, begun, finished⟩ := exists_building
  have built := built_of_finish (built_after begun building) finished
  obtain ⟨octets, _, written⟩ :=
    bytes_of_finish (isOpen_of_finish finished) finished built.sound
  exact ⟨start, d, octets, begun, written,
    whole_bytes_iff _ _ _ _ start d building octets begun written⟩

def padding (n : Nat) : List Operation :=
  List.replicate n (.addField 1 ⟨letters 1, fault?_letters 0⟩ (.prim .int))

structure Padded (n : Nat) (given : UInt16 × UInt16) (d : ClassDraft) : Prop where
  isOpen : d.finished = false
  empty : d.initializer = .unit
  interfaces : d.interfaces = #[]
  methods : d.methods = #[]
  source : d.sourceFile = "I.java"
  built : d.pool.Built
  room : d.pool.entries.next ≤ 7
  size : d.fields.size = n
  named : Pool.names (letters 1) (FieldType.prim .int).descriptor d.pool = .ok given d.pool

theorem Padded.addField {n : Nat} {given : UInt16 × UInt16} (h : Padded n given d) :
    Padded (n + 1) given (left (addField 1 ⟨letters 1, fault?_letters 0⟩ (.prim .int) d)) := by
  rw [addField_open h.isOpen, enter_ok h.named]
  exact ⟨h.isOpen, h.empty, h.interfaces, h.methods, h.source, h.built, h.room,
    (Array.size_push _).trans (congrArg (· + 1) h.size), h.named⟩

theorem exists_padded : ∃ start given, make {} ⟨"I", by decide⟩ none false = .ok start ∧
    ∀ n, Padded (n + 1) given (start.after (padding (n + 1))) := by
  obtain ⟨start, begun, _, next, source, _⟩ := exists_start
  have fresh := fresh_of_make begun
  have built := (pool_of_make begun).1
  obtain ⟨given, q, named, grown⟩ := Pool.exists_names (p := start.pool) (letters 1)
    (FieldType.prim .int).descriptor (by rw [length_letters]; omega) (by cbv) (by omega)
  have asks := Pool.asks_names (letters 1) (FieldType.prim .int).descriptor
  refine ⟨start, given, begun, fun n => ?_⟩
  induction n with
  | zero =>
    have again := asks.interns.again _ _ _ _ named (.refl q)
    have added : start.after (padding 1) =
        left (addField 1 ⟨letters 1, fault?_letters 0⟩ (.prim .int) start) := rfl
    have room : q.entries.next ≤ 7 := by omega
    rw [added, addField_open fresh.isOpen, enter_ok named]
    exact ⟨fresh.isOpen, fresh.initializer, fresh.interfaces, fresh.methods, source,
      (built.of_ok asks named).1,
      room, by simp [left, fresh.fields], again⟩
  | succ n ih =>
    rw [padding, List.replicate_succ', after_append]
    exact ih.addField

/-- A class with 65536 fields has bytes that say it has none. -/
theorem whole_bytes_padding : ∃ start d octets,
    make {} ⟨"I", by decide⟩ none false = .ok start ∧
    bytes (start.after (padding 65536)) = .ok octets d ∧ d.fields.size = 65536 ∧
    d.classFile.CountedAs octets 0 0 0 ∧ Image.reader.whole octets ≠ some d.classFile.image := by
  obtain ⟨start, given, begun, padded⟩ := exists_padded
  obtain ⟨e, reached⟩ : ∃ e, start.after (padding 65536) = e := ⟨_, rfl⟩
  have padded : Padded 65536 given e := reached ▸ padded 65535
  have room := padded.room
  obtain ⟨d, sourced⟩ := exists_addSourceAttribute (d := e) (by rw [padded.source]; cbv) (by omega)
  have finished : finish e = .ok () d := by
    rw [finish_flushed padded.isOpen (by rw [padded.empty]; rfl),
      bind_of_ok (assembleMethods_bare (by simp [padded.methods]))]
    exact sourced
  have built := (changes_finish padded.isOpen padded.built).built padded.built
  rw [finished] at built
  obtain ⟨octets, encoded, written⟩ := bytes_of_finish padded.isOpen finished built.sound
  obtain ⟨a, q, _, same⟩ := addSourceAttribute_ok sourced
  have interfaces : d.classFile.interfaces.length = 0 := by
    simp [classFile, same, padded.interfaces]
  have fields : d.classFile.fields.length = 65536 := by simp [classFile, same, padded.size]
  have methods : d.classFile.methods.length = 0 := by simp [classFile, same, padded.methods]
  have counted := ClassFile.countedAs_of_encode encoded
  rw [interfaces, fields, methods] at counted
  refine ⟨start, d, octets, begun, by rw [reached]; exact written, ?_, counted, fun read => ?_⟩
  · rw [same]
    exact padded.size
  · have fits := (ClassFile.whole_iff_fits built.sound encoded).mp read
    exact absurd fits.fields (by omega)

end ClassDraft

end Bytecode
