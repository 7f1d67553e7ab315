import Bytecode.Octets
import Bytecode.Slotted
import Bytecode.Text.Modified
import Bytecode.Text.Quoted

/-! Constants of a class file. A constant that has parts holds their indices in the pool.
Floating point values are kept as bits, so that any two are told apart. -/
namespace Bytecode

inductive Constant where
  | utf8 (text : String)
  | integer (value : Int32)
  | float (bits : UInt32)
  | long (value : Int64)
  | double (bits : UInt64)
  | classRef (name : UInt16)
  | string (text : UInt16)
  | fieldRef (owner member : UInt16)
  | methodRef (owner member : UInt16)
  | interfaceMethodRef (owner member : UInt16)
  | nameAndType (name descriptor : UInt16)
deriving DecidableEq, Hashable

namespace Constant

def tag : Constant → UInt8
  | utf8 _ => 1
  | integer _ => 3
  | float _ => 4
  | long _ => 5
  | double _ => 6
  | classRef _ => 7
  | string _ => 8
  | fieldRef _ _ => 9
  | methodRef _ _ => 10
  | interfaceMethodRef _ _ => 11
  | nameAndType _ _ => 12

/-- Constants of eight bytes use up two indices. -/
instance : Width Constant where
  width
    | long _ => 2
    | double _ => 2
    | _ => 1

def compareContent : Constant → Constant → Ordering
  | utf8 a, utf8 b => compare a b
  | integer a, integer b => compare a b
  | float a, float b => compare a b
  | long a, long b => compare a b
  | double a, double b => compare a b
  | classRef a, classRef b => compare a b
  | string a, string b => compare a b
  | fieldRef a b, fieldRef c d => (compare a c).then (compare b d)
  | methodRef a b, methodRef c d => (compare a c).then (compare b d)
  | interfaceMethodRef a b, interfaceMethodRef c d => (compare a c).then (compare b d)
  | nameAndType a b, nameAndType c d => (compare a c).then (compare b d)
  | _, _ => .eq

/-- Constants are ordered by their tags, then by what they hold. -/
instance : Ord Constant where
  compare a b := (compare a.tag b.tag).then (compareContent a b)

def sort (constants : List Constant) : List Constant :=
  constants.mergeSort fun a b => (compare a b).isLE

/-- The fields after the tag. -/
def content : Constant → Octets
  | utf8 text => Octets.u16 (Modified.length text).toUInt16 ++ Modified.encode text
  | integer value => Octets.i32 value
  | float bits => Octets.u32 bits
  | long value => Octets.i64 value
  | double bits => Octets.u64 bits
  | classRef name => Octets.u16 name
  | string text => Octets.u16 text
  | fieldRef owner member => Octets.u16 owner ++ Octets.u16 member
  | methodRef owner member => Octets.u16 owner ++ Octets.u16 member
  | interfaceMethodRef owner member => Octets.u16 owner ++ Octets.u16 member
  | nameAndType name descriptor => Octets.u16 name ++ Octets.u16 descriptor

def indexText (kind : String) (i : UInt16) : String :=
  kind ++ "ConstantIndex(ConstantIndex(" ++ toString i.toNat ++ "))"

def memberText (kind : String) (owner member : UInt16) : String :=
  kind ++ " \x7b class: " ++ indexText "Class" owner ++ ", name_and_type: " ++
    indexText "NameAndType" member ++ " \x7d"

/-- The constant as it stands in messages. -/
def render : Constant → String
  | utf8 text => "Utf8(" ++ Quoted.render text ++ ")"
  | integer value => "Integer(" ++ toString value.toInt ++ ")"
  | float bits => "Float(" ++ toString bits.toNat ++ ")"
  | long value => "Long(" ++ toString value.toInt ++ ")"
  | double bits => "Double(" ++ toString bits.toNat ++ ")"
  | classRef name => "Class(" ++ indexText "Utf8" name ++ ")"
  | string text => "String(" ++ indexText "Utf8" text ++ ")"
  | fieldRef owner member => memberText "FieldRef" owner member
  | methodRef owner member => memberText "MethodRef" owner member
  | interfaceMethodRef owner member => memberText "InterfaceMethodRef" owner member
  | nameAndType name descriptor =>
    "NameAndType \x7b name: " ++ indexText "Utf8" name ++ ", descriptor: " ++
      indexText "Utf8" descriptor ++ " \x7d"

end Constant

end Bytecode
