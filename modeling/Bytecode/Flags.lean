/-! Access flags. Each kind of thing has its own set of bits; others are dropped. -/
namespace Bytecode.Flags

def isPublic : UInt16 := 0x0001
def isStatic : UInt16 := 0x0008
def isSuper : UInt16 := 0x0020
def isInterface : UInt16 := 0x0200
def isAbstract : UInt16 := 0x0400

def ofClass (bits : UInt16) : UInt16 := bits &&& 0x7631

def ofMethod (bits : UInt16) : UInt16 := bits &&& 0x1dff

def ofField (bits : UInt16) : UInt16 := bits &&& 0x50df

/-- The flags of a class or an interface that stands for itself. -/
def forClass (interface : Bool) : UInt16 :=
  if interface then isPublic ||| isInterface ||| isAbstract else isPublic ||| isSuper

end Bytecode.Flags
