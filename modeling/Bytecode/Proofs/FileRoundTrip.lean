import Bytecode.Proofs.Asking
import Bytecode.Proofs.FileReader

/-! Class files are read back as they were written. What a reader makes of the bytes of a value does
not depend on what comes after them, so that the fields of a file are read one after the other and
nothing is left over. -/
namespace Bytecode

/-- The reader takes the bytes for the value, whatever comes after them. -/
def Reads {α : Type} (r : Reader α) (octets : Octets) (a : α) : Prop :=
  ∀ rest, r (octets ++ rest) = some (a, rest)

namespace Reads

variable {α β : Type} {r : Reader α} {f : α → Reader β} {xs ys : Octets} {a : α} {b : β}

protected theorem pure (a : α) : Reads (pure a) [] a := fun _ => rfl

protected theorem bind (first : Reads r xs a) (second : Reads (f a) ys b) :
    Reads (r >>= f) (xs ++ ys) b := by
  intro rest
  show (r (xs ++ ys ++ rest)).bind (fun p => f p.1 p.2) = _
  rw [List.append_assoc, first, Option.bind_some]
  exact second rest

protected theorem map (h : Reads r xs a) (g : α → β) : Reads (g <$> r) xs (g a) := by
  intro rest
  show (r (xs ++ rest)).bind (fun p => some (g p.1, p.2)) = _
  rw [h, Option.bind_some]

theorem finish (h : Reads r xs a) (g : α → β) : Reads (r >>= fun a => pure (g a)) xs (g a) := h.map g

theorem of_eq (h : Reads r xs a) (same : ys = xs) : Reads r ys a := same ▸ h

theorem whole (h : Reads r xs a) : r.whole xs = some a := by
  have all := h []
  rw [List.append_nil] at all
  simp only [Reader.whole, all]

end Reads

namespace Reader

variable {α β : Type}

theorem reads_bytes {n : Nat} {octets : Octets} (length : octets.length = n) :
    Reads (bytes n) octets octets := by
  intro rest
  subst length
  simp [bytes]

theorem joined (n i : Nat) : n >>> (i + 8) * 256 + n >>> i % 256 = n >>> i := by
  rw [Nat.shiftRight_add, Nat.shiftRight_eq_div_pow (n >>> i), Nat.mul_comm]
  exact Nat.div_add_mod (n >>> i) 256

theorem number_u16 (n : UInt16) : number (Octets.u16 n) = n.toNat := by
  have bound := n.toNat_lt
  rw [Octets.u16, number]
  simp only [List.foldl_cons, List.foldl_nil]
  simp only [UInt16.toNat_toUInt8, UInt16.toNat_shiftRight]
  simp [Nat.shiftRight_eq_div_pow]
  omega

theorem number_u32 (n : UInt32) : number (Octets.u32 n) = n.toNat := by
  have bound := n.toNat_lt
  rw [Octets.u32, number]
  simp only [List.foldl_cons, List.foldl_nil]
  simp only [UInt32.toNat_toUInt8, UInt32.toNat_shiftRight]
  generalize n.toNat = m at bound ⊢
  have top : m >>> 24 % 256 = m >>> 24 :=
    Nat.mod_eq_of_lt (by rw [Nat.shiftRight_eq_div_pow]; omega)
  simp [top]
  rw [joined m 16, joined m 8]
  exact joined m 0

theorem number_u64 (n : UInt64) : number (Octets.u64 n) = n.toNat := by
  have bound := n.toNat_lt
  rw [Octets.u64, number]
  simp only [List.foldl_cons, List.foldl_nil]
  simp only [UInt64.toNat_toUInt8, UInt64.toNat_shiftRight]
  generalize n.toNat = m at bound ⊢
  have top : m >>> 56 % 256 = m >>> 56 :=
    Nat.mod_eq_of_lt (by rw [Nat.shiftRight_eq_div_pow]; omega)
  simp [top]
  rw [joined m 48, joined m 40, joined m 32, joined m 24, joined m 16, joined m 8]
  exact joined m 0

theorem reads_u8 (n : UInt8) : Reads u8 [n] n := by
  have read := (reads_bytes (show [n].length = 1 from rfl)).finish fun octets =>
    UInt8.ofNat (number octets)
  rwa [show UInt8.ofNat (number [n]) = n by simp [number]] at read

theorem reads_u16 (n : UInt16) : Reads u16 (Octets.u16 n) n := by
  have read := (reads_bytes (show (Octets.u16 n).length = 2 from rfl)).finish fun octets =>
    UInt16.ofNat (number octets)
  rwa [number_u16, UInt16.ofNat_toNat] at read

theorem reads_u32 (n : UInt32) : Reads u32 (Octets.u32 n) n := by
  have read := (reads_bytes (show (Octets.u32 n).length = 4 from rfl)).finish fun octets =>
    UInt32.ofNat (number octets)
  rwa [number_u32, UInt32.ofNat_toNat] at read

theorem reads_u64 (n : UInt64) : Reads u64 (Octets.u64 n) n := by
  have read := (reads_bytes (show (Octets.u64 n).length = 8 from rfl)).finish fun octets =>
    UInt64.ofNat (number octets)
  rwa [number_u64, UInt64.ofNat_toNat] at read

theorem reads_repeated {item : Reader β} {write : α → Octets} {view : α → β} {values : List α}
    (each : ∀ v ∈ values, Reads item (write v) (view v)) :
    Reads (repeated item values.length) (values.flatMap write) (values.map view) := by
  induction values with
  | nil => exact .pure []
  | cons v rest ih =>
    have first := each v (by simp)
    have later := ih fun w member => each w (by simp [member])
    exact first.bind (later.finish (view v :: ·))

theorem reads_views {item : Reader β} {write : α → Octets} {view : α → β} {values : List α}
    (small : values.length < 65536) (each : ∀ v ∈ values, Reads item (write v) (view v)) :
    Reads (counted item) (Octets.counted write values) (values.map view) := by
  refine (reads_u16 values.length.toUInt16).bind ?_
  rw [toNat_toUInt16 (by omega)]
  exact reads_repeated each

theorem reads_counted {item : Reader α} {write : α → Octets} {values : List α}
    (small : values.length < 65536) (each : ∀ v ∈ values, Reads item (write v) v) :
    Reads (counted item) (Octets.counted write values) values := by
  have read : Reads (counted item) _ (values.map id) := reads_views small each
  rwa [List.map_id] at read

theorem reads_block {octets : Octets} (small : octets.length < 2 ^ 32) :
    Reads block (Octets.block octets) octets := by
  refine (reads_u32 octets.length.toUInt32).bind (reads_bytes ?_)
  simp only [Nat.toUInt32, UInt32.toNat_ofNat']
  omega

theorem reads_text {s : String} (short : Modified.length s ≤ 65535) :
    Reads text (Octets.u16 (Modified.length s).toUInt16 ++ Modified.encode s) s := by
  have length := Modified.length_encode s
  have decoded : Reads (Modified.decode (Modified.encode s) : Reader String) [] s := by
    intro rest
    rw [Modified.decode_encode]
    rfl
  have octets := reads_bytes (length.trans (toNat_toUInt16 short).symm)
  exact ((reads_u16 (Modified.length s).toUInt16).bind (octets.bind decoded)).of_eq (by simp)

theorem reads_pair (make : UInt16 → UInt16 → α) (first second : UInt16) :
    Reads (pair make) (Octets.u16 first ++ Octets.u16 second) (make first second) :=
  (reads_u16 first).bind ((reads_u16 second).finish (make first))

end Reader

open Reader

namespace Constant

def isShort : Constant → Prop
  | utf8 s => Modified.length s ≤ 65535
  | _ => True

theorem reads_reader {c : Constant} (short : c.isShort) :
    Reads Constant.reader (c.tag :: c.content) c := by
  have tag := reads_u8 c.tag
  cases c with
  | utf8 s => exact tag.bind ((reads_text short).map Constant.utf8)
  | integer value =>
    have read := (reads_u32 value.toUInt32).map fun n => Constant.integer n.toInt32
    rw [Int32.toInt32_toUInt32] at read
    exact tag.bind read
  | float bits => exact tag.bind ((reads_u32 bits).map Constant.float)
  | long value =>
    have read := (reads_u64 value.toUInt64).map fun n => Constant.long n.toInt64
    rw [Int64.toInt64_toUInt64] at read
    exact tag.bind read
  | double bits => exact tag.bind ((reads_u64 bits).map Constant.double)
  | classRef name => exact tag.bind ((reads_u16 name).map Constant.classRef)
  | string text => exact tag.bind ((reads_u16 text).map Constant.string)
  | fieldRef owner member => exact tag.bind (reads_pair Constant.fieldRef owner member)
  | methodRef owner member => exact tag.bind (reads_pair Constant.methodRef owner member)
  | interfaceMethodRef owner member =>
    exact tag.bind (reads_pair Constant.interfaceMethodRef owner member)
  | nameAndType name descriptor => exact tag.bind (reads_pair Constant.nameAndType name descriptor)

theorem reads_readers {values : List Constant} (short : ∀ c ∈ values, c.isShort) (index : Nat) :
    Reads (readers (index + slots values) index) (values.flatMap fun c => c.tag :: c.content)
      (Slotted.running index values) := by
  induction values generalizing index with
  | nil =>
    rw [readers, if_pos (by simp [slots])]
    exact .pure []
  | cons c rest ih =>
    have positive := Pool.width_constant_pos c
    have first := reads_reader (short c (by simp))
    have later := ih (fun d member => short d (by simp [member])) (index + width c)
    rw [Nat.add_assoc] at later
    simp only [slots]
    rw [readers, if_neg (by omega), if_neg (by omega)]
    exact first.bind (later.finish ((index, c) :: ·))

end Constant

namespace Pool

variable {p : Pool}

theorem Sound.isShort (h : p.Sound) : ∀ c ∈ p.entries.values, c.isShort := by
  intro c member
  cases c with
  | utf8 s =>
    have short := h.short s member
    rwa [Modified.length_encode] at short
  | _ => trivial

theorem mapM_encode {values : List Constant} (short : ∀ c ∈ values, c.isShort) :
    values.mapM Constant.encode = .ok (values.map fun c => c.tag :: c.content) := by
  induction values with
  | nil => rfl
  | cons c rest ih =>
    have first : c.encode = .ok (c.tag :: c.content) := by
      cases c with
      | utf8 s => exact if_neg (Nat.not_lt.mpr (short (.utf8 s) (by simp)))
      | _ => rfl
    rw [List.mapM_cons, first, ih fun d member => short d (by simp [member])]
    rfl

/-- A pool can be written, and its entries are read back with their indices. -/
theorem Sound.exists_encode (h : p.Sound) :
    ∃ octets, p.encode = .ok octets ∧ Reads Pool.reader octets p.entries.toList := by
  refine ⟨_, by rw [Pool.encode, mapM_encode h.isShort]; rfl, ?_⟩
  have entries := Constant.reads_readers h.isShort 1
  rw [← h.offsets, ← h.next, ← h.count] at entries
  exact ((reads_u16 p.next).bind entries).of_eq (by simp [List.flatMap_def])

end Pool

theorem VType.reads_reader (v : VType UInt16) : Reads VType.reader v.encode v := by
  cases v with
  | top => exact (reads_u8 0).bind (.pure _)
  | int => exact (reads_u8 1).bind (.pure _)
  | float => exact (reads_u8 2).bind (.pure _)
  | double => exact (reads_u8 3).bind (.pure _)
  | long => exact (reads_u8 4).bind (.pure _)
  | null => exact (reads_u8 5).bind (.pure _)
  | uninitThis => exact (reads_u8 6).bind (.pure _)
  | object c => exact (reads_u8 7).bind ((reads_u16 c).map VType.object)
  | uninit offset => exact (reads_u8 8).bind ((reads_u16 offset).map VType.uninit)

def AttributesFit (attributes : List Attribute) : Prop :=
  attributes.length < 65536 ∧ ∀ a ∈ attributes, a.info.length < 2 ^ 32

theorem Attribute.reads_reader {a : Attribute} (small : a.info.length < 2 ^ 32) :
    Reads Attribute.reader a.encode a :=
  (reads_u16 a.name).bind ((reads_block small).finish (Attribute.mk a.name))

theorem AttributesFit.reads {attributes : List Attribute} (h : AttributesFit attributes) :
    Reads (counted Attribute.reader) (Octets.counted Attribute.encode attributes) attributes :=
  reads_counted h.1 fun a member => Attribute.reads_reader (h.2 a member)

/-- An entry for the class with index 0 is one for anything thrown. -/
def Handler.plain (h : Handler) : Handler := { h with caught := h.caught.filter (· ≠ 0) }

theorem Handler.plain_eq_iff (h : Handler) : h.plain = h ↔ h.caught ≠ some 0 := by
  obtain ⟨start, stop, goal, caught⟩ := h
  cases caught with
  | none => simp [plain]
  | some index => by_cases zero : index = 0 <;> simp [plain, zero]

theorem Handler.reads_reader (h : Handler) : Reads Handler.reader h.encode h.plain := by
  have same : h.caught.filter (· ≠ 0) =
      if h.caught.getD 0 = 0 then none else some (h.caught.getD 0) := by
    cases h.caught with
    | none => rfl
    | some index => by_cases zero : index = 0 <;> simp [zero]
  rw [plain, same]
  exact ((reads_u16 h.start).bind ((reads_u16 h.stop).bind ((reads_u16 h.handler).bind
    ((reads_u16 (h.caught.getD 0)).finish _)))).of_eq (by simp [Handler.encode])

namespace Code

structure Fits (c : Code) : Prop where
  code : c.code.length < 2 ^ 32
  handlers : c.handlers.length < 65536
  attributes : AttributesFit c.attributes

def plain (c : Code) : Code := { c with handlers := c.handlers.map Handler.plain }

theorem plain_eq_iff (c : Code) : c.plain = c ↔ ∀ h ∈ c.handlers, h.caught ≠ some 0 := by
  have handlers : c.plain = c ↔ c.handlers.map Handler.plain = c.handlers.map id := by
    obtain ⟨maxStack, maxLocals, code, handlers, attributes⟩ := c
    simp [plain]
  rw [handlers, List.map_inj_left]
  exact forall₂_congr fun h _ => h.plain_eq_iff

theorem reads_reader {c : Code} (fits : c.Fits) : Reads Code.reader c.encode c.plain := by
  have handlers := reads_views fits.handlers fun h _ => h.reads_reader
  exact ((reads_u16 c.maxStack).bind ((reads_u16 c.maxLocals).bind ((reads_block fits.code).bind
    (handlers.bind (fits.attributes.reads.finish _))))).of_eq (by simp [Code.encode])

end Code

structure MapFrame.Fits (f : MapFrame) : Prop where
  locals : f.locals.length < 65536
  stack : f.stack.length < 65536

theorem MapFrame.reads_reader {f : MapFrame} (fits : f.Fits) : Reads MapFrame.reader f.encode f := by
  have locals := reads_counted fits.locals fun v _ => v.reads_reader
  have stack := reads_counted fits.stack fun v _ => v.reads_reader
  exact ((reads_u8 255).bind ((reads_u16 f.delta).bind (locals.bind (stack.finish _)))).of_eq
    (by simp [MapFrame.encode])

theorem LineEntry.reads_reader (l : LineEntry) : Reads LineEntry.reader l.encode l :=
  reads_pair LineEntry.mk l.start l.line

theorem Member.reads_reader {m : Member} (fits : AttributesFit m.attributes) :
    Reads Member.reader m.encode m :=
  ((reads_u16 m.flags).bind ((reads_u16 m.name).bind ((reads_u16 m.descriptor).bind
    (fits.reads.finish _)))).of_eq (by simp [Member.encode])

namespace ClassFile

structure Fits (c : ClassFile) : Prop where
  interfaces : c.interfaces.length < 65536
  fields : c.fields.length < 65536
  methods : c.methods.length < 65536
  members : ∀ m ∈ c.fields ++ c.methods, AttributesFit m.attributes
  attributes : AttributesFit c.attributes

theorem exists_encode {c : ClassFile} (sound : c.pool.Sound) (fits : c.Fits) :
    ∃ octets, c.encode = .ok octets ∧ Reads Image.reader octets c.image := by
  obtain ⟨pool, written, read⟩ := sound.exists_encode
  refine ⟨_, by rw [encode, written]; rfl, ?_⟩
  have start : magic = Octets.u32 0xcafebabe := by decide
  have interfaces := reads_counted fits.interfaces fun i _ => reads_u16 i
  have fields := reads_counted fits.fields fun m member =>
    Member.reads_reader (fits.members m (by simp [member]))
  have methods := reads_counted fits.methods fun m member =>
    Member.reads_reader (fits.members m (by simp [member]))
  exact ((reads_u32 0xcafebabe).bind ((reads_pair Version.mk c.version.minor c.version.major).bind
    (read.bind ((reads_u16 c.flags).bind ((reads_u16 c.this).bind ((reads_u16 c.super).bind
    (interfaces.bind (fields.bind (methods.bind (fits.attributes.reads.finish _)))))))))).of_eq
    (by simp [start, Version.encode])

end ClassFile

def Attribute.Holds {α : Type} (a : Attribute) (q : Pool) (name : String) (r : Reader α)
    (value : α) : Prop :=
  q.text? a.name = some name ∧ r.whole a.info = some value

theorem Pool.Sound.holds {α : Type} {p q : Pool} {a : Attribute} {name : String} {info : Octets}
    {r : Reader α} {value : α} (h : p.Sound) (read : Reads r info value)
    (made : Pool.named name info p = .ok a q) : a.Holds q name r value := by
  obtain ⟨found, rfl⟩ := h.named_of_ok made
  exact ⟨found, read.whole⟩

/-- A class file is written, and read back as it was with no byte left over. So are the parts of a
method that stand in bodies of attributes, except that an entry for the class with index 0, which no
pool gives out, is one for anything thrown. -/
theorem ClassFile.reader_recovers (requests : List Pool.Request) (c : ClassFile)
    (built : c.pool = Pool.after requests) (fits : c.Fits) :
    (∃ octets, c.encode = .ok octets ∧ Image.reader.whole octets = some c.image) ∧
    (∀ (code : Code) a q, code.Fits → Pool.codeAttribute code c.pool = .ok a q →
      a.Holds q "Code" Code.reader code.plain ∧
        (code.plain = code ↔ ∀ h ∈ code.handlers, h.caught ≠ some 0)) ∧
    (∀ (frames : List MapFrame) a q, frames.length < 65536 → (∀ f ∈ frames, f.Fits) →
      Pool.stackMapTable frames c.pool = .ok a q →
        a.Holds q "StackMapTable" (counted MapFrame.reader) frames) ∧
    ∀ (lines : List LineEntry) a q, lines.length < 65536 →
      Pool.lineNumberTable lines c.pool = .ok a q →
        a.Holds q "LineNumberTable" (counted LineEntry.reader) lines := by
  have sound : c.pool.Sound := built ▸ Pool.sound_after requests
  refine ⟨?_, ?_, ?_, ?_⟩
  · obtain ⟨octets, written, read⟩ := exists_encode sound fits
    exact ⟨octets, written, read.whole⟩
  · intro code a q small made
    exact ⟨sound.holds (Code.reads_reader small) made, code.plain_eq_iff⟩
  · intro frames a q few small made
    have read := reads_counted few fun f member => MapFrame.reads_reader (small f member)
    exact sound.holds read made
  · intro lines a q few made
    exact sound.holds (reads_counted few fun l _ => l.reads_reader) made

def sampler : ClassFile where
  version := .standard
  pool := .after [.utf8 "\x00aé€😀", .long (-1), .utf8 "Code",
    .classRef (.object ⟨"S", by decide⟩), .double 0]
  flags := 33
  this := 6
  super := 6
  interfaces := [6, 6]
  fields := [⟨1, 1, 5, []⟩]
  methods := [⟨9, 1, 5, [⟨4, body.encode⟩]⟩]
  attributes := [⟨5, [0, 1]⟩]
where
  body : Code := ⟨2, 1, [0xb1], [⟨0, 1, 0, some 6⟩, ⟨0, 1, 0, none⟩], [⟨1, [7]⟩]⟩

theorem reader_recovers_sampler :
    sampler.Fits ∧ (∃ octets, sampler.encode = .ok octets ∧
      Image.reader.whole octets = some sampler.image) ∧
    ∃ a q, sampler.body.Fits ∧ Pool.codeAttribute sampler.body sampler.pool = .ok a q ∧
      a.Holds q "Code" Code.reader sampler.body := by
  have fits : sampler.Fits :=
    ⟨by decide, by decide, by decide, by unfold AttributesFit; decide,
      by unfold AttributesFit; decide⟩
  have small : sampler.body.Fits := ⟨by decide, by decide, by unfold AttributesFit; decide⟩
  obtain ⟨file, code, _⟩ := ClassFile.reader_recovers _ sampler rfl fits
  obtain ⟨a, q, made⟩ : ∃ a q, Pool.codeAttribute sampler.body sampler.pool = .ok a q :=
    ⟨_, _, by cbv⟩
  obtain ⟨holds, same⟩ := code sampler.body a q small made
  rw [same.mpr (by decide)] at holds
  exact ⟨fits, file, a, q, small, made, holds⟩

/-- One entry of the table of handlers names the class with index 0. -/
def Code.namingNone : Code := ⟨1, 0, [0xb1], [⟨0, 1, 0, some 0⟩], []⟩

/-- What is read back catches anything. -/
theorem not_holds_namingNone : ∃ a q, Code.namingNone.Fits ∧
    Pool.codeAttribute .namingNone (.after []) = .ok a q ∧
    ¬ a.Holds q "Code" Code.reader .namingNone := by
  have small : Code.namingNone.Fits := ⟨by decide, by decide, by unfold AttributesFit; decide⟩
  obtain ⟨a, q, made⟩ : ∃ a q, Pool.codeAttribute .namingNone (.after []) = .ok a q :=
    ⟨_, _, by cbv⟩
  refine ⟨a, q, small, made, fun holds => ?_⟩
  have plain := (Pool.sound_after []).holds (Code.reads_reader small) made
  have same := Option.some.inj (plain.2.symm.trans holds.2)
  exact absurd ((Code.plain_eq_iff _).mp same) (by decide)

end Bytecode
