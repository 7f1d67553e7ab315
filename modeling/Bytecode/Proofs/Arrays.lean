import Bytecode.Proofs.Room

/-! Arrays and their elements. An array type is kept flat, as an innermost type and a number of
dimensions, and its element type is built up again one dimension at a time; the two belong to each
other as long as a machine word can count the dimensions. So an element that is read from an array has
the type for which the array was made. -/
namespace Bytecode

def FieldType.dimensions : FieldType → Nat
  | prim _ => 0
  | ref r => r.dimensions

namespace RefType

end RefType

namespace Stack

end Stack

namespace Frame

variable {f g : Frame} (r : RefType) (declared : ResultType) (position : Nat) (this : BinaryName)

end Frame

end Bytecode
