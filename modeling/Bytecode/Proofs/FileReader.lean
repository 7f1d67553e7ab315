import Bytecode.ClassFile
import Bytecode.Proofs.Interning
import Bytecode.Proofs.ModifiedText

/-! Reading class files. Each reader takes a value off the front of some bytes and leaves the rest. The
readers follow the format of class files, and know nothing of how the fields are written. -/
namespace Bytecode

abbrev Reader := StateT Octets Option

namespace Reader

variable {α : Type}

def bytes (n : Nat) : Reader Octets := fun input =>
  if n ≤ input.length then some (input.take n, input.drop n) else none

def number (octets : Octets) : Nat := octets.foldl (fun n b => n * 256 + b.toNat) 0

def u8 : Reader UInt8 := do
  let octets ← bytes 1
  return .ofNat (number octets)

def u16 : Reader UInt16 := do
  let octets ← bytes 2
  return .ofNat (number octets)

def u32 : Reader UInt32 := do
  let octets ← bytes 4
  return .ofNat (number octets)

def u64 : Reader UInt64 := do
  let octets ← bytes 8
  return .ofNat (number octets)

def repeated (item : Reader α) : Nat → Reader (List α)
  | 0 => return []
  | n + 1 => do
    let first ← item
    let rest ← repeated item n
    return first :: rest

def counted (item : Reader α) : Reader (List α) := do
  let n ← u16
  repeated item n.toNat

def block : Reader Octets := do
  let n ← u32
  bytes n.toNat

def whole (r : Reader α) (input : Octets) : Option α :=
  match r input with
  | some (a, []) => some a
  | _ => none

def text : Reader String := do
  let n ← u16
  let octets ← bytes n.toNat
  Modified.decode octets

def pair (make : UInt16 → UInt16 → α) : Reader α := do
  let first ← u16
  let second ← u16
  return make first second

end Reader

open Reader

def Constant.reader : Reader Constant := do
  let tag ← u8
  match tag.toNat with
  | 1 => Constant.utf8 <$> text
  | 3 => (fun n => Constant.integer n.toInt32) <$> u32
  | 4 => Constant.float <$> u32
  | 5 => (fun n => Constant.long n.toInt64) <$> u64
  | 6 => Constant.double <$> u64
  | 7 => Constant.classRef <$> u16
  | 8 => Constant.string <$> u16
  | 9 => pair Constant.fieldRef
  | 10 => pair Constant.methodRef
  | 11 => pair Constant.interfaceMethodRef
  | 12 => pair Constant.nameAndType
  | _ => failure

/-- Constants from an index up to a count, each with its own index. A constant of eight bytes uses up
two, and the count is that of the indices. -/
def Constant.readers (count index : Nat) : Reader (List (Nat × Constant)) :=
  if index = count then return []
  else if count < index then failure
  else do
    let c ← Constant.reader
    let rest ← readers count (index + width c)
    return (index, c) :: rest
termination_by count - index
decreasing_by
  have := Pool.width_constant_pos c
  omega

def Pool.reader : Reader (List (Nat × Constant)) := do
  let count ← u16
  Constant.readers count.toNat 1

def VType.reader : Reader (VType UInt16) := do
  let tag ← u8
  match tag.toNat with
  | 0 => return .top
  | 1 => return .int
  | 2 => return .float
  | 3 => return .double
  | 4 => return .long
  | 5 => return .null
  | 6 => return .uninitThis
  | 7 => VType.object <$> u16
  | 8 => VType.uninit <$> u16
  | _ => failure

def Attribute.reader : Reader Attribute := do
  let name ← u16
  let info ← block
  return ⟨name, info⟩

/-- An entry that names no class, by the index 0, is for anything thrown. -/
def Handler.reader : Reader Handler := do
  let start ← u16
  let stop ← u16
  let goal ← u16
  let caught ← u16
  return ⟨start, stop, goal, if caught = 0 then none else some caught⟩

def Code.reader : Reader Code := do
  let maxStack ← u16
  let maxLocals ← u16
  let octets ← block
  let handlers ← counted Handler.reader
  let attributes ← counted Attribute.reader
  return ⟨maxStack, maxLocals, octets, handlers, attributes⟩

/-- Frames are told apart by their first byte; a full one begins with 255. -/
def MapFrame.reader : Reader MapFrame := do
  let kind ← u8
  if kind ≠ 255 then failure
  let delta ← u16
  let locals ← counted VType.reader
  let stack ← counted VType.reader
  return ⟨delta, locals, stack⟩

def LineEntry.reader : Reader LineEntry := pair LineEntry.mk

def Member.reader : Reader Member := do
  let flags ← u16
  let name ← u16
  let descriptor ← u16
  let attributes ← counted Attribute.reader
  return ⟨flags, name, descriptor, attributes⟩

structure Image where
  version : Version
  constants : List (Nat × Constant)
  flags : UInt16
  this : UInt16
  super : UInt16
  interfaces : List UInt16
  fields : List Member
  methods : List Member
  attributes : List Attribute
deriving DecidableEq

def ClassFile.image (c : ClassFile) : Image :=
  ⟨c.version, c.pool.entries.toList, c.flags, c.this, c.super, c.interfaces, c.fields, c.methods,
    c.attributes⟩

def Image.reader : Reader Image := do
  let magic ← u32
  if magic ≠ 0xcafebabe then failure
  let version ← pair Version.mk
  let constants ← Pool.reader
  let flags ← u16
  let this ← u16
  let super ← u16
  let interfaces ← counted u16
  let fields ← counted Member.reader
  let methods ← counted Member.reader
  let attributes ← counted Attribute.reader
  return ⟨version, constants, flags, this, super, interfaces, fields, methods, attributes⟩

end Bytecode
