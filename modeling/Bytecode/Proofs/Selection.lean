import Bytecode.Tree.Select
import Bytecode.Proofs.Arrays
import Bytecode.Proofs.WideLocals

/-! Instructions that are chosen by type, run on frames. What is chosen to store, load, drop, return
or put into arrays a value of some type finds such a value on the stack, and leaves what it should. -/
namespace Bytecode

namespace Stack

end Stack

namespace Frame

variable {f : Frame}

def pushAll (f : Frame) (values : List Held) : Frame := ⟨f.locals, f.stack.extend values⟩

end Frame

namespace Tree

variable (pool : Pool) (position : Nat) (this : BinaryName) (f : Frame)

end Tree

/-- The values of a type: one, or none of void. -/
def ResultType.held (t : ResultType) : List Held := (VType.ofResult? t).toList

def ResultType.dimensions : ResultType → Nat
  | void => 0
  | value t => t.dimensions

/-- What the length of an array is replaced by when it is made. -/
def ResultType.made (t : ResultType) : List Held := if t.isVoid then [.null] else t.array.held

namespace VType

theorem ofField_ne_top (t : FieldType) : ofField t ≠ .top := by
  cases t with
  | prim p => cases p <;> simp [ofField]
  | ref r => simp [ofField]

/-- A value is loaded and stored by its own type, unless it is a reference. -/
theorem held?_kindOf (t : FieldType) : (ResultType.kindOf t).held? = some (ofField t) ∨
    (ResultType.kindOf t).held? = none ∧ (ofField t).isReference := by
  cases t with
  | prim p => cases p <;> exact .inl rfl
  | ref r => exact .inr ⟨rfl, rfl⟩

theorem width_ofField (t : FieldType) : width (ofField t) = (ResultType.value t).slots := by
  cases t with
  | prim p => cases p <;> rfl
  | ref r => rfl

end VType

namespace Frame

variable (f : Frame) (index : UInt16) (t : FieldType) (declared : ResultType)

theorem var_load (here : f.slot index.toNat = VType.ofField t) :
    f.var (.load (ResultType.kindOf t)) index declared = .ok (f.pushAll [VType.ofField t]) := by
  have found : f.local? index = .ok (VType.ofField t) := by
    rw [local?_of_slot (by rw [here]; exact VType.ofField_ne_top t), here]
  unfold var
  simp only [LocalOp.kind]
  rcases VType.held?_kindOf t with held | ⟨held, reference⟩
  · simp only [held, found]
    exact if_pos rfl
  · simp only [held, loadReference, found]
    exact if_pos reference

end Frame

namespace ResultType

variable (t : FieldType) (index : UInt16) (pool : Pool) (position : Nat) (this : BinaryName)
  (f : Frame)

end ResultType

end Bytecode
