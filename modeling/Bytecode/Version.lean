import Bytecode.Octets

/-! Versions of the class file format. -/
namespace Bytecode

structure Version where
  minor : UInt16
  major : UInt16
deriving DecidableEq

namespace Version

/-- The first version has a minor number of its own. -/
def java1_1 : Version := ⟨3, 45⟩

/-- The other releases are numbered on from there: release 2 is 46. -/
def release (n : Nat) : Version := ⟨0, (44 + n).toUInt16⟩

def standard : Version := release 7

instance : Inhabited Version := ⟨standard⟩

/-- Versions are ordered by the minor number first. -/
instance : Ord Version where
  compare a b := (compare a.minor b.minor).then (compare a.major b.major)

def encode (v : Version) : Octets := Octets.u16 v.minor ++ Octets.u16 v.major

end Version

end Bytecode
