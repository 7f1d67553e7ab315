import Bytecode.Name

/-! Types of values and signatures of methods, and the descriptors that stand for them. -/
namespace Bytecode

inductive Prim where
  | byte
  | char
  | double
  | float
  | int
  | long
  | short
  | boolean
deriving DecidableEq, Hashable

namespace Prim

def letter : Prim → Char
  | byte => 'B'
  | char => 'C'
  | double => 'D'
  | float => 'F'
  | int => 'I'
  | long => 'J'
  | short => 'S'
  | boolean => 'Z'

def ofLetter? : Char → Option Prim
  | 'B' => some byte
  | 'C' => some char
  | 'D' => some double
  | 'F' => some float
  | 'I' => some int
  | 'J' => some long
  | 'S' => some short
  | 'Z' => some boolean
  | _ => none

instance : Width Prim where
  width
    | double => 2
    | long => 2
    | _ => 1

def chars (p : Prim) : List Char := [p.letter]

/-- The operand by which an array of this type is made. -/
def arrayCode : Prim → UInt8
  | boolean => 4
  | char => 5
  | float => 6
  | double => 7
  | byte => 8
  | short => 9
  | int => 10
  | long => 11

end Prim

/-- Classes and arrays. An array has one dimension more than the number it carries. -/
inductive RefType where
  | object (name : BinaryName)
  | objects (more : Nat) (name : BinaryName)
  | prims (more : Nat) (prim : Prim)
deriving DecidableEq, Hashable

inductive FieldType where
  | prim (p : Prim)
  | ref (r : RefType)
deriving DecidableEq, Hashable

def BinaryName.chars (name : BinaryName) : List Char := 'L' :: name.text.toList ++ [';']

def BinaryName.descriptor (name : BinaryName) : String := String.ofList name.chars

namespace RefType

def chars : RefType → List Char
  | object name => name.chars
  | objects more name => List.replicate (more + 1) '[' ++ name.chars
  | prims more p => List.replicate (more + 1) '[' ++ p.chars

def descriptor (r : RefType) : String := String.ofList r.chars

/-- The text of a class constant: a class by its name, an array by its descriptor. -/
def className : RefType → String
  | object name => name.text
  | r => r.descriptor

/-- One dimension more. Dimensions are counted by a machine word, which starts over at 2^64; no text
is long enough to name a type with so many of them. -/
def deeper (more : Nat) : Nat := (more + 1) % UInt64.size

/-- The array of which the given type is the element type. -/
def array : FieldType → RefType
  | .prim p => prims 0 p
  | .ref (object name) => objects 0 name
  | .ref (objects more name) => objects (deeper more) name
  | .ref (prims more p) => prims (deeper more) p

/-- A type inside a number of arrays. -/
def nested : Nat → FieldType → FieldType
  | 0, t => t
  | count + 1, t => nested count (.ref (array t))

/-- What the elements are, for arrays: all dimensions but one around the innermost type. -/
def element? : RefType → Option FieldType
  | object _ => none
  | objects more name => some (nested more (.ref (object name)))
  | prims more p => some (nested more (.prim p))

def isArray : RefType → Bool
  | object _ => false
  | _ => true

def dimensions : RefType → Nat
  | object _ => 0
  | objects more _ => more + 1
  | prims more _ => more + 1

def map (f : BinaryName → BinaryName) : RefType → RefType
  | object name => object (f name)
  | objects more name => objects more (f name)
  | prims more p => prims more p

end RefType

namespace FieldType

instance : Width FieldType where
  width
    | prim p => width p
    | ref _ => 1

def object (name : BinaryName) : FieldType := ref (.object name)

def chars : FieldType → List Char
  | prim p => p.chars
  | ref r => r.chars

def descriptor (t : FieldType) : String := String.ofList t.chars

end FieldType

/-- What is left behind: nothing, or a value. -/
inductive ResultType where
  | void
  | value (t : FieldType)
deriving DecidableEq, Hashable

namespace ResultType

def prim (p : Prim) : ResultType := value (.prim p)

def ref (r : RefType) : ResultType := value (.ref r)

def object (name : BinaryName) : ResultType := ref (.object name)

def int : ResultType := prim .int
def long : ResultType := prim .long
def float : ResultType := prim .float
def double : ResultType := prim .double
def anyObject : ResultType := object .object

def isVoid : ResultType → Bool
  | void => true
  | value _ => false

def isReference : ResultType → Bool
  | value (.ref _) => true
  | _ => false

def field? : ResultType → Option FieldType
  | void => none
  | value t => some t

def slots : ResultType → Nat
  | void => 0
  | value t => width t

def chars : ResultType → List Char
  | void => ['V']
  | value t => t.chars

def descriptor (t : ResultType) : String := String.ofList t.chars

/-- The descriptor in a list of arguments, where void is left out. -/
def argument : ResultType → String
  | void => ""
  | value t => t.descriptor

/-- Arrays of the type. There are none of void, which gives a plain object. -/
def array : ResultType → ResultType
  | void => anyObject
  | value t => ref (RefType.array t)

end ResultType

structure Signature where
  parameters : List FieldType
  result : ResultType
deriving DecidableEq, Hashable

namespace Signature

def nullary : Signature := ⟨[], .void⟩

def chars (s : Signature) : List Char :=
  '(' :: s.parameters.flatMap FieldType.chars ++ ')' :: s.result.chars

def descriptor (s : Signature) : String := String.ofList s.chars

/-- Local slots of the parameters, after the receiver if there is one. -/
def parameterSlots (receiver : Bool) (s : Signature) : Nat :=
  (if receiver then 1 else 0) + slots s.parameters

end Signature

end Bytecode
