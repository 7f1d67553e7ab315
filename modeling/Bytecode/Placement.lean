import Std.Data.TreeMap
import Bytecode.Error

/-! Where the labels of a method body stand. A label is first given an estimate, then settled
at a position not after it, and is last only checked. It may be placed several times, but
only at one position. -/
namespace Bytecode

structure Placement where
  estimate : Option Nat
  settled : Option Nat
deriving DecidableEq

abbrev Labels := Std.TreeMap UInt32 Placement

namespace Labels

def empty : Labels := ∅

def get? (ls : Labels) (l : Label) : Option Placement := Std.TreeMap.get? ls l.id

/-- All labels by number. -/
def entries (ls : Labels) : List (Label × Placement) :=
  (Std.TreeMap.toList ls).map fun (id, p) => (⟨id⟩, p)

def estimateOf (ls : Labels) (l : Label) : Except Error Nat :=
  match (ls.get? l).bind Placement.estimate with
  | some position => .ok position
  | none => .error (.notPlaced l)

def positionOf (ls : Labels) (l : Label) : Except Error Nat :=
  match (ls.get? l).bind Placement.settled with
  | some position => .ok position
  | none => .error (.notPlaced l)

def estimate (ls : Labels) (l : Label) (position : Nat) : Except Error Labels :=
  match ls.get? l with
  | none => .ok (Std.TreeMap.insert ls l.id ⟨some position, none⟩)
  | some ⟨none, settled⟩ => .ok (Std.TreeMap.insert ls l.id ⟨some position, settled⟩)
  | some ⟨some earlier, _⟩ => if earlier = position then .ok ls else .error (.placedTwice l)

def settle (ls : Labels) (l : Label) (position : Nat) : Except Error Labels :=
  match ls.get? l with
  | some ⟨some estimate, settled⟩ =>
    if settled.any (· ≠ position) then .error (.placedTwice l)
    else if estimate < position then .error (.moved l estimate position)
    else .ok (Std.TreeMap.insert ls l.id ⟨some estimate, some position⟩)
  | _ => .error (.notPlaced l)

def check (ls : Labels) (l : Label) (position : Nat) : Except Error Unit :=
  match ls.positionOf l with
  | .ok expected => if expected = position then .ok () else .error (.moved l expected position)
  | .error e => .error e

end Labels

end Bytecode
