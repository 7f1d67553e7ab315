/-! Big-endian fields of a class file. A sequence is written after its length in two
bytes, so a length of 65536 or more is written modulo 65536. -/
namespace Bytecode

abbrev Octets := List UInt8

namespace Octets

def u8 (n : UInt8) : Octets := [n]

def u16 (n : UInt16) : Octets := [(n >>> 8).toUInt8, n.toUInt8]

def u32 (n : UInt32) : Octets :=
  [(n >>> 24).toUInt8, (n >>> 16).toUInt8, (n >>> 8).toUInt8, n.toUInt8]

def u64 (n : UInt64) : Octets :=
  [(n >>> 56).toUInt8, (n >>> 48).toUInt8, (n >>> 40).toUInt8, (n >>> 32).toUInt8,
   (n >>> 24).toUInt8, (n >>> 16).toUInt8, (n >>> 8).toUInt8, n.toUInt8]

def i16 (n : Int16) : Octets := u16 n.toUInt16

def i32 (n : Int32) : Octets := u32 n.toUInt32

def i64 (n : Int64) : Octets := u64 n.toUInt64

/-- The items of a list after their number. -/
def counted {α : Type} (write : α → Octets) (items : List α) : Octets :=
  u16 items.length.toUInt16 ++ items.flatMap write

/-- A block of bytes after its length in four bytes. -/
def block (bytes : Octets) : Octets := u32 bytes.length.toUInt32 ++ bytes

@[simp] theorem length_u16 (n : UInt16) : (u16 n).length = 2 := rfl

@[simp] theorem length_u32 (n : UInt32) : (u32 n).length = 4 := rfl

@[simp] theorem length_u64 (n : UInt64) : (u64 n).length = 8 := rfl

end Octets

end Bytecode
