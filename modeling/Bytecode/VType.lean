import Bytecode.Pool

/-! Types of values as the check of the code sees them. Classes are named by `κ`: by a type
while code is simulated, by an index of the pool when written. -/
namespace Bytecode

inductive VType (κ : Type) where
  /-- Nothing usable: an unset variable, the second half of a wide one, or values that
  differ. -/
  | top
  | int
  | float
  | double
  | long
  | null
  /-- The object under construction, before another constructor has been called on it. -/
  | uninitThis
  | object (c : κ)
  /-- An object made by the instruction at the offset, before its constructor is called. -/
  | uninit (offset : UInt16)
deriving DecidableEq

/-- The type of a value held while code is simulated. -/
abbrev Held := VType RefType

namespace VType

variable {κ ι : Type}

instance : Inhabited (VType κ) := ⟨top⟩

instance : Width (VType κ) where
  width
    | double => 2
    | long => 2
    | _ => 1

def isReference : VType κ → Bool
  | null | uninitThis | object _ | uninit _ => true
  | _ => false

def map (f : κ → ι) (g : UInt16 → UInt16) : VType κ → VType ι
  | top => top
  | int => int
  | float => float
  | double => double
  | long => long
  | null => null
  | uninitThis => uninitThis
  | object c => object (f c)
  | uninit offset => uninit (g offset)

/-- What two values have in common: the type they share, or nothing usable. -/
def union [DecidableEq κ] (a b : VType κ) : VType κ := if a = b then a else top

/-- Slot by slot; where only one side has a slot there is nothing in common. -/
def unionAll [DecidableEq κ] (a b : Array (VType κ)) : Array (VType κ) :=
  Array.ofFn fun (i : Fin (max a.size b.size)) =>
    match a[i.val]?, b[i.val]? with
    | some x, some y => x.union y
    | _, _ => top

def ofField : FieldType → Held
  | .prim .long => long
  | .prim .float => float
  | .prim .double => double
  | .prim _ => int
  | .ref r => object r

def ofResult? : ResultType → Option Held
  | .void => none
  | .value t => some (ofField t)

/-- The type as it is written, after its class has been put into the pool. -/
def resolve : Held → PoolM (VType UInt16)
  | top => return top
  | int => return int
  | float => return float
  | double => return double
  | long => return long
  | null => return null
  | uninitThis => return uninitThis
  | object r => do
    let index ← Pool.classRef r
    return object index
  | uninit offset => return uninit offset

end VType

end Bytecode
