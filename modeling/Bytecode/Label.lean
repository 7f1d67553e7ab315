/-! Labels name positions in a method body. They are numbered by machine words, so that a supply
comes round to its first label again after 2^32 of them. -/
namespace Bytecode

structure Label where
  id : UInt32
deriving DecidableEq, Hashable

namespace Label

instance : Inhabited Label := ⟨⟨0⟩⟩

def render (l : Label) : String := s!"l{l.id}"

end Label

/-- A supply of labels; the number is that of the next one. -/
abbrev LabelM := StateM UInt32

def fresh : LabelM Label := fun n => (⟨n⟩, n + 1)

end Bytecode
