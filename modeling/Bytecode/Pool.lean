import Std.Data.HashMap
import Bytecode.Descriptor

/-! The constant pool. Asking for a constant gives the index at which it already stands, or
puts it at the next free one; the parts of a constant are asked for before the constant
itself. What was put in stays, also when the request fails later on. -/
namespace Bytecode

structure Pool where
  entries : Slotted Constant
  indices : Std.HashMap Constant UInt16

abbrev PoolM := EStateM Error Pool

/-- Constants that an instruction can push. -/
inductive Loadable where
  | integer (value : Int32)
  | float (bits : UInt32)
  | long (value : Int64)
  | double (bits : UInt64)
  | string (text : String)
  | classRef (r : RefType)
deriving DecidableEq

namespace Loadable

def isWide : Loadable → Bool
  | long _ => true
  | double _ => true
  | _ => false

end Loadable

namespace Pool

def empty : Pool := ⟨.startingAt 1, ∅⟩

instance : Inhabited Pool := ⟨empty⟩

/-- The next free index, which is also the count written before the entries. -/
def next (p : Pool) : UInt16 := p.entries.next.toUInt16

def get? (p : Pool) (index : UInt16) : Option Constant := p.entries.get? index.toNat

/-- Indices end at 65534, and a wide constant needs two of them. -/
def intern (c : Constant) : PoolM UInt16 := fun p =>
  match p.indices[c]? with
  | some index => .ok index p
  | none =>
    if p.entries.next + width c > 65535 then .error (.poolFull c p.entries.next) p
    else
      let index := p.entries.next.toUInt16
      .ok index ⟨p.entries.push c, p.indices.insert c index⟩

def utf8 (text : String) : PoolM UInt16 :=
  let length := Modified.length text
  if length > 65535 then throw (.textTooLong length) else intern (.utf8 text)

def integer (value : Int32) : PoolM UInt16 := intern (.integer value)

def float (bits : UInt32) : PoolM UInt16 := intern (.float bits)

def long (value : Int64) : PoolM UInt16 := intern (.long value)

def double (bits : UInt64) : PoolM UInt16 := intern (.double bits)

def string (text : String) : PoolM UInt16 := do
  let text ← utf8 text
  intern (.string text)

def classRef (r : RefType) : PoolM UInt16 := do
  let name ← utf8 r.className
  intern (.classRef name)

def nameAndType (name descriptor : String) : PoolM UInt16 := do
  let name ← utf8 name
  let descriptor ← utf8 descriptor
  intern (.nameAndType name descriptor)

def fieldRef (owner : BinaryName) (name : String) (t : FieldType) : PoolM UInt16 := do
  let owner ← classRef (.object owner)
  let member ← nameAndType name t.descriptor
  intern (.fieldRef owner member)

/-- The owner may be an array, whose methods can be called too. -/
def methodRef (owner : RefType) (name : String) (s : Signature) : PoolM UInt16 := do
  let owner ← classRef owner
  let member ← nameAndType name s.descriptor
  intern (.methodRef owner member)

def interfaceMethodRef (owner : BinaryName) (name : String) (s : Signature) : PoolM UInt16 := do
  let owner ← classRef (.object owner)
  let member ← nameAndType name s.descriptor
  intern (.interfaceMethodRef owner member)

def loadable : Loadable → PoolM UInt16
  | .integer value => integer value
  | .float bits => float bits
  | .long value => long value
  | .double bits => double bits
  | .string text => string text
  | .classRef r => classRef r

end Pool

/-- The constant as it is written. A text whose length does not fit is refused. -/
def Constant.encode (c : Constant) : Except Error Octets :=
  match c with
  | .utf8 text =>
    if Modified.length text > 65535 then .error (.unwritableText (Modified.length text))
    else .ok (c.tag :: c.content)
  | _ => .ok (c.tag :: c.content)

/-- The pool as it is written: the next free index, then the constants. -/
def Pool.encode (p : Pool) : Except Error Octets := do
  let constants ← p.entries.values.mapM Constant.encode
  return Octets.u16 p.next ++ constants.flatten

end Bytecode
