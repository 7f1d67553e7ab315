import Bytecode.Constant
import Bytecode.Label

/-! Why something was refused, and how it is said. -/
namespace Bytecode

inductive NameFault where
  | emptyMember
  | illegalMember (name : String)
  | angleBrackets (name : String)
  | emptyClass
  | badSegment (name segment : String)
deriving DecidableEq

namespace NameFault

def message : NameFault → String
  | emptyMember => "unqualified name is empty"
  | illegalMember name => s!"unqualified name '{name}' contains an illegal character"
  | angleBrackets name =>
    s!"only '<init>' and '<clinit>' may contain angle brackets, not '{name}'"
  | emptyClass => "binary name is empty"
  | badSegment name segment => s!"binary name '{name}' has a malformed segment '{segment}'"

end NameFault

/-- What a descriptor was expected to go on with. -/
inductive Expected where
  | baseType
  | objectType
  | referenceType
  | fieldType
  | methodStart
deriving DecidableEq

def Expected.render : Expected → String
  | baseType => "base type"
  | objectType => "object type"
  | referenceType => "reference type"
  | fieldType => "field type"
  | methodStart => "method descriptor start"

inductive DescriptorFault where
  | leftover (found : Char) (source : String)
  | unexpected (what : Expected) (found : Char)
  | missing (what : Expected)
  | unterminated (name : String)
  | unclosed
  | arrayInterface (callee : String)
deriving DecidableEq

namespace DescriptorFault

def message : DescriptorFault → String
  | leftover found source => s!"unexpected leftover input '{found}' in '{source}'"
  | unexpected what found => s!"invalid {what.render} character '{found}'"
  | missing what => s!"missing {what.render}"
  | unterminated name => s!"missing terminator for 'L{name}'"
  | unclosed => "missing ')' in method descriptor"
  | arrayInterface callee => callee

end DescriptorFault

/-- Why an instruction cannot run on a frame. -/
inductive Fault where
  | emptyStack
  | badWidth (found : Nat)
  | badType
  | badIndex
  | unequalStacks
deriving DecidableEq

namespace Fault

def message : Fault → String
  | emptyStack => "the operand stack is empty"
  | badWidth found => s!"expected a value of width {found}"
  | badType => "unexpected value type"
  | badIndex => "local variable index is out of range"
  | unequalStacks => "incompatible stack heights at a merge point"

end Fault

inductive Error where
  | codeTooLarge (method : String) (size : Nat)
  | branchTooFar (method : String) (offset : Int)
  | tooManyArguments (callee : String) (count : Nat)
  | poolFull (constant : Constant) (offset : Nat)
  | textTooLong (length : Nat)
  | unwritableText (length : Nat)
  | notPlaced (label : Label)
  | placedTwice (label : Label)
  | moved (label : Label) (expected actual : Nat)
  | badFrame (position : Nat) (fault : Fault)
  | badDescriptor (fault : DescriptorFault)
  | badName (fault : NameFault)
  | finished (name : String)
deriving DecidableEq

namespace Error

def advice : String :=
  "To solve this, you might simplify the code or split it up into several smaller methods."

def message : Error → String
  | codeTooLarge method size =>
    s!"Code of method `{method}` is too large ({size} bytes). " ++ advice
  | branchTooFar method offset =>
    s!"Branch offset {offset} in method `{method}` is out of range. " ++ advice
  | tooManyArguments callee count =>
    s!"Call to interface method `{callee}` passes {count} argument slots (at most 255). " ++ advice
  | poolFull constant offset =>
    "Constant pool is full: cannot add " ++ constant.render ++ s!" at offset {offset}"
  | textTooLong length =>
    s!"Constant string is {length} bytes in modified UTF-8, at most 65535 are allowed"
  | unwritableText length => s!"I/O error: utf8 constant of {length} bytes"
  | notPlaced label => s!"Label {label.render} has not been placed"
  | placedTwice label => s!"Label {label.render} is placed more than once"
  | moved label expected actual => s!"Label {label.render} moved from {expected} to {actual}"
  | badFrame position fault => s!"Verifier error at bytecode offset {position}: " ++ fault.message
  | badDescriptor fault => "Bad descriptor: " ++ fault.message
  | badName fault => "Bad name: " ++ fault.message
  | finished name => s!"Class `{name}` is already finished"

end Error

end Bytecode
