import Bytecode.Descriptor

/-! Instructions and their opcodes. -/
namespace Bytecode

/-- Instructions that stand alone, without an operand. -/
inductive Simple where
  | nop
  | aconstNull
  | iconstM1
  | iconst0
  | iconst1
  | iconst2
  | iconst3
  | iconst4
  | iconst5
  | lconst0
  | lconst1
  | fconst0
  | fconst1
  | fconst2
  | dconst0
  | dconst1
  | iaload
  | laload
  | faload
  | daload
  | aaload
  | baload
  | caload
  | saload
  | iastore
  | lastore
  | fastore
  | dastore
  | aastore
  | bastore
  | castore
  | sastore
  | pop
  | pop2
  | dup
  | dupX1
  | dupX2
  | dup2
  | dup2X1
  | dup2X2
  | swap
  | iadd
  | ladd
  | fadd
  | dadd
  | isub
  | lsub
  | fsub
  | dsub
  | imul
  | lmul
  | fmul
  | dmul
  | idiv
  | ldiv
  | fdiv
  | ddiv
  | irem
  | lrem
  | frem
  | drem
  | ineg
  | lneg
  | fneg
  | dneg
  | ishl
  | lshl
  | ishr
  | lshr
  | iushr
  | lushr
  | iand
  | land
  | ior
  | lor
  | ixor
  | lxor
  | i2l
  | i2f
  | i2d
  | l2i
  | l2f
  | l2d
  | f2i
  | f2l
  | f2d
  | d2i
  | d2l
  | d2f
  | i2b
  | i2c
  | i2s
  | lcmp
  | fcmpL
  | fcmpG
  | dcmpL
  | dcmpG
  | ireturn
  | lreturn
  | freturn
  | dreturn
  | areturn
  | returnVoid
  | arrayLength
  | athrow
  | monitorEnter
  | monitorExit
deriving DecidableEq, Hashable

namespace Simple

def opcode : Simple → UInt8
  | nop => 0x00
  | aconstNull => 0x01
  | iconstM1 => 0x02
  | iconst0 => 0x03
  | iconst1 => 0x04
  | iconst2 => 0x05
  | iconst3 => 0x06
  | iconst4 => 0x07
  | iconst5 => 0x08
  | lconst0 => 0x09
  | lconst1 => 0x0a
  | fconst0 => 0x0b
  | fconst1 => 0x0c
  | fconst2 => 0x0d
  | dconst0 => 0x0e
  | dconst1 => 0x0f
  | iaload => 0x2e
  | laload => 0x2f
  | faload => 0x30
  | daload => 0x31
  | aaload => 0x32
  | baload => 0x33
  | caload => 0x34
  | saload => 0x35
  | iastore => 0x4f
  | lastore => 0x50
  | fastore => 0x51
  | dastore => 0x52
  | aastore => 0x53
  | bastore => 0x54
  | castore => 0x55
  | sastore => 0x56
  | pop => 0x57
  | pop2 => 0x58
  | dup => 0x59
  | dupX1 => 0x5a
  | dupX2 => 0x5b
  | dup2 => 0x5c
  | dup2X1 => 0x5d
  | dup2X2 => 0x5e
  | swap => 0x5f
  | iadd => 0x60
  | ladd => 0x61
  | fadd => 0x62
  | dadd => 0x63
  | isub => 0x64
  | lsub => 0x65
  | fsub => 0x66
  | dsub => 0x67
  | imul => 0x68
  | lmul => 0x69
  | fmul => 0x6a
  | dmul => 0x6b
  | idiv => 0x6c
  | ldiv => 0x6d
  | fdiv => 0x6e
  | ddiv => 0x6f
  | irem => 0x70
  | lrem => 0x71
  | frem => 0x72
  | drem => 0x73
  | ineg => 0x74
  | lneg => 0x75
  | fneg => 0x76
  | dneg => 0x77
  | ishl => 0x78
  | lshl => 0x79
  | ishr => 0x7a
  | lshr => 0x7b
  | iushr => 0x7c
  | lushr => 0x7d
  | iand => 0x7e
  | land => 0x7f
  | ior => 0x80
  | lor => 0x81
  | ixor => 0x82
  | lxor => 0x83
  | i2l => 0x85
  | i2f => 0x86
  | i2d => 0x87
  | l2i => 0x88
  | l2f => 0x89
  | l2d => 0x8a
  | f2i => 0x8b
  | f2l => 0x8c
  | f2d => 0x8d
  | d2i => 0x8e
  | d2l => 0x8f
  | d2f => 0x90
  | i2b => 0x91
  | i2c => 0x92
  | i2s => 0x93
  | lcmp => 0x94
  | fcmpL => 0x95
  | fcmpG => 0x96
  | dcmpL => 0x97
  | dcmpG => 0x98
  | ireturn => 0xac
  | lreturn => 0xad
  | freturn => 0xae
  | dreturn => 0xaf
  | areturn => 0xb0
  | returnVoid => 0xb1
  | arrayLength => 0xbe
  | athrow => 0xbf
  | monitorEnter => 0xc2
  | monitorExit => 0xc3

/-- The type of what is left on the stack. Where it depends on what lies there already,
it is void, and the code around the instruction declares what it makes. -/
def result : Simple → ResultType
  | aconstNull | aaload => .anyObject
  | iconstM1 | iconst0 | iconst1 | iconst2 | iconst3 | iconst4 | iconst5 => .int
  | lconst0 | lconst1 => .long
  | fconst0 | fconst1 | fconst2 => .float
  | dconst0 | dconst1 => .double
  | iaload => .int
  | laload => .long
  | faload => .float
  | daload => .double
  | baload => .prim .byte
  | caload => .prim .char
  | saload => .prim .short
  | iadd | isub | imul | idiv | irem | ineg | ishl | ishr | iushr | iand | ior | ixor => .int
  | ladd | lsub | lmul | ldiv | lrem | lneg | lshl | lshr | lushr | land | lor | lxor => .long
  | fadd | fsub | fmul | fdiv | frem | fneg => .float
  | dadd | dsub | dmul | ddiv | drem | dneg => .double
  | l2i | f2i | d2i => .int
  | i2l | f2l | d2l => .long
  | i2f | l2f | d2f => .float
  | i2d | l2d | f2d => .double
  | i2b => .prim .byte
  | i2c => .prim .char
  | i2s => .prim .short
  | lcmp | fcmpL | fcmpG | dcmpL | dcmpG | arrayLength => .int
  | _ => .void

/-- Control does not go on to the next instruction. -/
def ends : Simple → Bool
  | ireturn | lreturn | freturn | dreturn | areturn | returnVoid | athrow => true
  | _ => false

end Simple

inductive OrdTest where
  | eq
  | ne
  | lt
  | ge
  | gt
  | le
deriving DecidableEq, Hashable

namespace OrdTest

def negate : OrdTest → OrdTest
  | eq => ne
  | ne => eq
  | lt => ge
  | ge => lt
  | gt => le
  | le => gt

def code : OrdTest → UInt8
  | eq => 0
  | ne => 1
  | lt => 2
  | ge => 3
  | gt => 4
  | le => 5

end OrdTest

inductive EqTest where
  | eq
  | ne
deriving DecidableEq, Hashable

namespace EqTest

def negate : EqTest → EqTest
  | eq => ne
  | ne => eq

def code : EqTest → UInt8
  | eq => 0
  | ne => 1

end EqTest

/-- Conditional jumps, by what they compare: an int with zero, two ints, two references, or
a reference with null. -/
inductive Test where
  | zero (t : OrdTest)
  | ints (t : OrdTest)
  | refs (t : EqTest)
  | null (t : EqTest)
deriving DecidableEq, Hashable

namespace Test

def opcode : Test → UInt8
  | zero t => 0x99 + t.code
  | ints t => 0x9f + t.code
  | refs t => 0xa5 + t.code
  | null t => 0xc6 + t.code

/-- The test that holds exactly when this one does not. -/
def negate : Test → Test
  | zero t => zero t.negate
  | ints t => ints t.negate
  | refs t => refs t.negate
  | null t => null t.negate

/-- Number of values taken off the stack. -/
def operands : Test → Nat
  | zero _ | null _ => 1
  | ints _ | refs _ => 2

end Test

/-- What a local variable holds, as the instructions tell it apart. -/
inductive Kind where
  | int
  | long
  | float
  | double
  | ref
deriving DecidableEq, Hashable

namespace Kind

def code : Kind → UInt8
  | int => 0
  | long => 1
  | float => 2
  | double => 3
  | ref => 4

def slots : Kind → Nat
  | long | double => 2
  | _ => 1

end Kind

inductive LocalOp where
  | load (k : Kind)
  | store (k : Kind)
deriving DecidableEq, Hashable

namespace LocalOp

def kind : LocalOp → Kind
  | load k => k
  | store k => k

def isLoad : LocalOp → Bool
  | load _ => true
  | store _ => false

/-- The form with an index operand. -/
def opcode : LocalOp → UInt8
  | load k => 0x15 + k.code
  | store k => 0x36 + k.code

/-- The form for index 0; those for 1, 2 and 3 follow it. -/
def shortOpcode : LocalOp → UInt8
  | load k => 0x1a + 4 * k.code
  | store k => 0x3b + 4 * k.code

end LocalOp

inductive FieldOp where
  | getStatic
  | putStatic
  | getField
  | putField
deriving DecidableEq, Hashable

namespace FieldOp

def opcode : FieldOp → UInt8
  | getStatic => 0xb2
  | putStatic => 0xb3
  | getField => 0xb4
  | putField => 0xb5

def hasReceiver : FieldOp → Bool
  | getField | putField => true
  | _ => false

end FieldOp

inductive InvokeKind where
  | virtual
  | special
  | static
  | interface
deriving DecidableEq, Hashable

namespace InvokeKind

def opcode : InvokeKind → UInt8
  | virtual => 0xb6
  | special => 0xb7
  | static => 0xb8
  | interface => 0xb9

def hasReceiver : InvokeKind → Bool
  | static => false
  | _ => true

end InvokeKind

namespace Opcode

def nop : UInt8 := 0x00
def goto : UInt8 := 0xa7
def new : UInt8 := 0xbb
def newArray : UInt8 := 0xbc
def newObjects : UInt8 := 0xbd
def cast : UInt8 := 0xc0
def instanceOf : UInt8 := 0xc1

end Opcode

end Bytecode
