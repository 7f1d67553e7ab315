import Bytecode.Opcode
import Bytecode.Pool

/-! Single instructions other than jumps, and their bytes. Operands that name a class, a
member or a constant are written as indices into the pool. -/
namespace Bytecode

inductive Leaf where
  | simple (i : Simple)
  | push (c : Loadable)
  | var (op : LocalOp) (index : UInt16)
  | field (op : FieldOp) (owner : BinaryName) (name : MemberName) (t : FieldType)
  | invoke (kind : InvokeKind) (owner : RefType) (name : MemberName) (s : Signature)
  | new (name : BinaryName)
  | newArray (p : Prim)
  | newObjects (element : RefType)
  | cast (r : RefType)
  | instanceOf (r : RefType)
deriving DecidableEq

namespace Leaf

/-- Index 0 to 3 is part of the opcode, up to 255 it takes one byte, else two after a
prefix. -/
def varOctets (op : LocalOp) (index : UInt16) : Octets :=
  if index < 4 then [op.shortOpcode + index.toUInt8]
  else if index < 256 then [op.opcode, index.toUInt8]
  else 0xc4 :: op.opcode :: Octets.u16 index

def pushOctets (index : UInt16) (wide : Bool) : Octets :=
  if wide then 0x14 :: Octets.u16 index
  else if index < 256 then [0x12, index.toUInt8]
  else 0x13 :: Octets.u16 index

/-- An instruction with an index into the pool. -/
def indexed (opcode : UInt8) (index : UInt16) : Octets := opcode :: Octets.u16 index

/-- The count is that of the argument slots, the receiver included. -/
def interfaceOctets (index : UInt16) (count : UInt8) : Octets :=
  indexed InvokeKind.interface.opcode index ++ [count, 0]

/-- A method as it stands in messages. -/
def callee (owner : RefType) (name : MemberName) (s : Signature) : String :=
  owner.className ++ "." ++ name.text ++ s.descriptor

/-- The bytes of an instruction, after its operands have been put into the pool. -/
def encode : Leaf → PoolM Octets
  | simple i => return [i.opcode]
  | push c => do
    let index ← Pool.loadable c
    return pushOctets index c.isWide
  | var op index => return varOctets op index
  | field op owner name t => do
    let index ← Pool.fieldRef owner name.text t
    return indexed op.opcode index
  | invoke .interface owner name s => do
    let count := s.parameterSlots true
    if count > 255 then
      throw (.tooManyArguments (callee owner name s) count)
    match owner with
    | .object owner =>
      let index ← Pool.interfaceMethodRef owner name.text s
      return interfaceOctets index count.toUInt8
    | _ => throw (.badDescriptor (.arrayInterface (callee owner name s)))
  | invoke kind owner name s => do
    let index ← Pool.methodRef owner name.text s
    return indexed kind.opcode index
  | new name => do
    let index ← Pool.classRef (.object name)
    return indexed Opcode.new index
  | newArray p => return [Opcode.newArray, p.arrayCode]
  | newObjects element => do
    let index ← Pool.classRef element
    return indexed Opcode.newObjects index
  | cast r => do
    let index ← Pool.classRef r
    return indexed Opcode.cast index
  | instanceOf r => do
    let index ← Pool.classRef r
    return indexed Opcode.instanceOf index

end Leaf

end Bytecode
