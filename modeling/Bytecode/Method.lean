import Bytecode.Config
import Bytecode.Lines
import Bytecode.StackMap

/-! Method bodies: from a tree to the code of a class file. As in layouts, a body has less than 2^32
bytes. -/
namespace Bytecode

structure Body where
  /-- The method as it stands in messages. -/
  method : String
  /-- Local slots that the body asks for. -/
  locals : UInt16
  tree : Tree
  /-- What the locals hold on entry. -/
  entry : List Held

namespace Body

/-- The receiver on entry. A constructor, other than that of the root class, has still to
call another one. -/
def receiver (owner : BinaryName) (name : MemberName) : Held :=
  if name = .init ∧ owner ≠ .object then .uninitThis else .object (.object owner)

def entryTypes (owner : BinaryName) (name : MemberName) (s : Signature) (static : Bool) :
    List Held :=
  (if static then [] else [receiver owner name]) ++ s.parameters.map VType.ofField

def make (owner : BinaryName) (name : MemberName) (s : Signature) (static : Bool)
    (locals : UInt16) (tree : Tree) : Body :=
  ⟨owner.text ++ "." ++ name.text ++ s.descriptor, locals, tree,
    entryTypes owner name s static⟩

def maxCodeSize : Nat := 65535

/-- Where labels stand and what was written, after all three passes. -/
def layOut (b : Body) : PoolM Layout := do
  let estimated ← Layout.run .estimate .empty b.tree
  let settled ← Layout.run (.settle b.method) estimated.labels b.tree
  if settled.position > maxCodeSize then
    throw (.codeTooLarge b.method settled.position)
  Layout.run .emit settled.labels b.tree

/-- Write nothing over the three bytes at a position. -/
def blank (code : Array UInt8) (position : Nat) : Array UInt8 :=
  if position + 3 ≤ code.size then
    ((code.setIfInBounds position Opcode.nop).setIfInBounds (position + 1)
      Opcode.nop).setIfInBounds (position + 2) Opcode.nop
  else code

def simulate (b : Body) (this : BinaryName) (layout : Layout) : Except Error Simulation :=
  Simulation.run ⟨this, layout.labels, layout.wanted⟩ (Frame.ofArguments b.entry)
    layout.sights.toList

def assemble (config : Config) (this : BinaryName) (b : Body) : PoolM Code := do
  let layout ← b.layOut
  match b.simulate this layout with
  | .error e => throw e
  | .ok simulation =>
    let map ← simulation.finish
    let code := if config.elide then map.redundant.foldl blank layout.code else layout.code
    let frames ← Pool.stackMapTable map.frames
    let lines ← Pool.lineNumberTable (Lines.table layout.sights.toList code.size)
    return ⟨map.maxStack, max map.maxLocals b.locals, code.toList, layout.handlers.toList,
      [frames, lines]⟩

end Body

end Bytecode
