import Bytecode.Error

/-! Names of members and of classes. Only well-formed text makes a name: a member name has
none of `. ; [ /`, and angle brackets only in the two special names; a class name is a list
of non-empty segments between slashes, none with `. ; [ < >`. -/
namespace Bytecode

namespace MemberName

def isIllegal (c : Char) : Bool := c = '.' || c = ';' || c = '[' || c = '/'

def isBracket (c : Char) : Bool := c = '<' || c = '>'

def isSpecial (text : String) : Bool := text = "<init>" || text = "<clinit>"

/-- What is wrong with a text as a member name. -/
def fault? (text : String) : Option NameFault :=
  if text.toList.isEmpty then some .emptyMember
  else if text.toList.any isIllegal then some (.illegalMember text)
  else if text.toList.any isBracket && !isSpecial text then some (.angleBrackets text)
  else none

end MemberName

structure MemberName where
  text : String
  valid : MemberName.fault? text = none
deriving DecidableEq

namespace MemberName

instance : Hashable MemberName := ⟨fun name => hash name.text⟩

def init : MemberName := ⟨"<init>", by decide⟩

def clinit : MemberName := ⟨"<clinit>", by decide⟩

def ofString (text : String) : Except Error MemberName :=
  match h : fault? text with
  | none => .ok ⟨text, h⟩
  | some fault => .error (.badName fault)

end MemberName

namespace BinaryName

def isIllegal (c : Char) : Bool := c = '.' || c = ';' || c = '[' || c = '<' || c = '>'

def isBadSegment (segment : List Char) : Bool := segment.isEmpty || segment.any isIllegal

def segments (text : String) : List (List Char) := text.toList.splitOn '/'

/-- What is wrong with a text as a class name: the first bad segment, if any. -/
def fault? (text : String) : Option NameFault :=
  if text.toList.isEmpty then some .emptyClass
  else ((segments text).find? isBadSegment).map fun s => .badSegment text (String.ofList s)

end BinaryName

structure BinaryName where
  text : String
  valid : BinaryName.fault? text = none
deriving DecidableEq

namespace BinaryName

instance : Hashable BinaryName := ⟨fun name => hash name.text⟩

def object : BinaryName := ⟨"java/lang/Object", by decide⟩

def string : BinaryName := ⟨"java/lang/String", by decide⟩

def classes : BinaryName := ⟨"java/lang/Class", by decide⟩

def throwable : BinaryName := ⟨"java/lang/Throwable", by decide⟩

def ofString (text : String) : Except Error BinaryName :=
  match h : fault? text with
  | none => .ok ⟨text, h⟩
  | some fault => .error (.badName fault)

/-- The last segment. -/
def simpleName (name : BinaryName) : String := String.ofList ((segments name.text).getLastD [])

def fileName (name : BinaryName) : String := name.text ++ ".class"

end BinaryName

end Bytecode
