import Bytecode.Tree

/-! Instructions chosen by the type of the value they work on. -/
namespace Bytecode.ResultType

/-- How a value of the type is kept in a local variable. -/
def kindOf : FieldType → Kind
  | .prim .long => .long
  | .prim .float => .float
  | .prim .double => .double
  | .prim _ => .int
  | .ref _ => .ref

def load (index : UInt16) : ResultType → Tree
  | void => .unit
  | value t => .load (kindOf t) index (value t)

def store (index : UInt16) : ResultType → Tree
  | void => .unit
  | value t => .store (kindOf t) index

/-- Return a value of the type from the method. -/
def leave : ResultType → Tree
  | void => .simple .returnVoid
  | value t => .simple (match kindOf t with
    | .int => .ireturn
    | .long => .lreturn
    | .float => .freturn
    | .double => .dreturn
    | .ref => .areturn)

/-- Make an array of the length on the stack. Of void there is none: the length is dropped
for a null. -/
def newArray : ResultType → Tree
  | void => (Tree.simple .pop).andThen (.simple .aconstNull)
  | value (.prim p) => .newArray p
  | value (.ref r) => .newObjects r

end Bytecode.ResultType
