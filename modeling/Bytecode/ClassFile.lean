import Bytecode.Attribute
import Bytecode.Version

/-! Class files and their bytes. -/
namespace Bytecode

/-- A field or a method. -/
structure Member where
  flags : UInt16
  name : UInt16
  descriptor : UInt16
  attributes : List Attribute
deriving DecidableEq

def Member.encode (m : Member) : Octets :=
  Octets.u16 m.flags ++ Octets.u16 m.name ++ Octets.u16 m.descriptor ++
    Octets.counted Attribute.encode m.attributes

structure ClassFile where
  version : Version
  pool : Pool
  flags : UInt16
  this : UInt16
  super : UInt16
  interfaces : List UInt16
  fields : List Member
  methods : List Member
  attributes : List Attribute

namespace ClassFile

def magic : Octets := [0xca, 0xfe, 0xba, 0xbe]

def encode (c : ClassFile) : Except Error Octets := do
  let pool ← c.pool.encode
  return magic ++ c.version.encode ++ pool ++ Octets.u16 c.flags ++ Octets.u16 c.this ++
    Octets.u16 c.super ++ Octets.counted Octets.u16 c.interfaces ++
    Octets.counted Member.encode c.fields ++ Octets.counted Member.encode c.methods ++
    Octets.counted Attribute.encode c.attributes

end ClassFile

end Bytecode
