import Bytecode.Version

/-! Settings, for trees and for classes. -/
namespace Bytecode

structure Config where
  /-- Keep comments in the code. -/
  comments : Bool := false
  version : Version := .standard
  /-- Write nothing for casts of values that have the wanted type already. -/
  elide : Bool := true

end Bytecode
