import Bytecode.Octets

/-! Modified UTF-8, the text encoding of class files. Characters are cut into UTF-16 units,
and each unit is written by itself in one to three bytes. The unit 0 takes two bytes, so no
byte of the encoding is zero. -/
namespace Bytecode.Modified

/-- UTF-16 units of a character: one, or a surrogate pair from 0x10000 on. -/
def units (c : Char) : List UInt16 :=
  if c.val < 0x10000 then [c.val.toUInt16]
  else
    let rest := c.val - 0x10000
    [(rest >>> 10).toUInt16 ||| 0xD800, (rest &&& 0x3FF).toUInt16 ||| 0xDC00]

def unitLength (u : UInt16) : Nat :=
  if u = 0 then 2 else if u < 0x80 then 1 else if u < 0x800 then 2 else 3

def unitOctets (u : UInt16) : Octets :=
  if u ≠ 0 ∧ u < 0x80 then [u.toUInt8]
  else if u < 0x800 then [(u >>> 6).toUInt8 ||| 0xC0, (u &&& 0x3F).toUInt8 ||| 0x80]
  else [(u >>> 12).toUInt8 ||| 0xE0, ((u >>> 6) &&& 0x3F).toUInt8 ||| 0x80,
    (u &&& 0x3F).toUInt8 ||| 0x80]

/-- Number of bytes of the encoding. -/
def length (s : String) : Nat :=
  (s.toList.flatMap units).foldr (fun u rest => unitLength u + rest) 0

def encode (s : String) : Octets := (s.toList.flatMap units).flatMap unitOctets

end Bytecode.Modified
