import Bytecode.Layout

/-! The line table of a method body. Where several lines start at one position, the last to
start is kept, which is the innermost. -/
namespace Bytecode.Lines

def see (lines : Std.TreeMap Nat UInt16) : Sight → Std.TreeMap Nat UInt16
  | .line number position => lines.insert position number
  | _ => lines

/-- The table of code of a length; lines that start at its end have nothing to cover. -/
def table (sights : List Sight) (length : Nat) : List LineEntry :=
  ((sights.foldl see ∅).toList.filter fun (position, _) => position < length).map
    fun (position, number) => ⟨position.toUInt16, number⟩

end Bytecode.Lines
