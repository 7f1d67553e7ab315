import Bytecode.VType

/-! Attributes of classes, members and code, and their bytes. -/
namespace Bytecode

/-- A guarded range of code, and where control goes when something is thrown in it. -/
structure Handler where
  start : UInt16
  stop : UInt16
  handler : UInt16
  caught : Option UInt16
deriving DecidableEq

structure Attribute where
  name : UInt16
  info : Octets
deriving DecidableEq

structure Code where
  maxStack : UInt16
  maxLocals : UInt16
  code : Octets
  handlers : List Handler
  attributes : List Attribute
deriving DecidableEq

/-- Locals and stack at a position, given by its distance from the frame before. -/
structure MapFrame where
  delta : UInt16
  locals : List (VType UInt16)
  stack : List (VType UInt16)
deriving DecidableEq

structure LineEntry where
  start : UInt16
  line : UInt16
deriving DecidableEq

def VType.encode : VType UInt16 → Octets
  | top => [0]
  | int => [1]
  | float => [2]
  | double => [3]
  | long => [4]
  | null => [5]
  | uninitThis => [6]
  | object c => 7 :: Octets.u16 c
  | uninit offset => 8 :: Octets.u16 offset

def Handler.encode (h : Handler) : Octets :=
  Octets.u16 h.start ++ Octets.u16 h.stop ++ Octets.u16 h.handler ++ Octets.u16 (h.caught.getD 0)

def Attribute.encode (a : Attribute) : Octets := Octets.u16 a.name ++ Octets.block a.info

def Code.encode (c : Code) : Octets :=
  Octets.u16 c.maxStack ++ Octets.u16 c.maxLocals ++ Octets.block c.code ++
    Octets.counted Handler.encode c.handlers ++ Octets.counted Attribute.encode c.attributes

def MapFrame.encode (f : MapFrame) : Octets :=
  255 :: Octets.u16 f.delta ++ Octets.counted VType.encode f.locals ++
    Octets.counted VType.encode f.stack

def LineEntry.encode (l : LineEntry) : Octets := Octets.u16 l.start ++ Octets.u16 l.line

namespace Pool

/-- An attribute, after its name has been put into the pool. -/
def named (name : String) (info : Octets) : PoolM Attribute := do
  let name ← utf8 name
  return ⟨name, info⟩

def codeAttribute (c : Code) : PoolM Attribute := named "Code" c.encode

def stackMapTable (frames : List MapFrame) : PoolM Attribute :=
  named "StackMapTable" (Octets.counted MapFrame.encode frames)

def lineNumberTable (lines : List LineEntry) : PoolM Attribute :=
  named "LineNumberTable" (Octets.counted LineEntry.encode lines)

def sourceFile (name : UInt16) : PoolM Attribute := named "SourceFile" (Octets.u16 name)

end Pool

end Bytecode
