import Bytecode.Tree

/-! Trees with jumps. Their labels are taken from a supply, those of a tree after those of
its parts. -/
namespace Bytecode.Tree

/-- All trees one after the other. -/
def concat (trees : List Tree) : Tree := trees.foldl andThen unit

/-- A tree with labels from a supply of its own. -/
def build (make : LabelM Tree) : Tree := (make 0).1

/-- Jump forward to a label. -/
def jump (target : Label) : LabelM Tree := do
  let source ← fresh
  return goto ⟨.void, false, true⟩ source target

/-- Jump back to a label placed earlier. -/
def jumpBack (target : Label) : LabelM Tree := do
  let source ← fresh
  return goto ⟨.void, true, true⟩ source target

/-- A loop around nothing. -/
def forever : LabelM Tree := do
  let top ← fresh
  let back ← jumpBack top
  return (place top).andThen back

def joined (test : Test) (start target stop : Label) (first second : Tree) : Tree :=
  branch ⟨.void, false, first.ends && second.ends⟩ test start target stop first second

/-- Run `yes` if the test holds and `no` if not. With one arm, the branch jumps over it.
With two, `no` comes first and is left by a jump over `yes`, unless it never ends. -/
def ifElse (test : Test) (yes no : Tree) : LabelM Tree := do
  let start ← fresh
  let stop ← fresh
  if yes.isUnit then
    return joined test start stop stop no unit
  else if no.isUnit then
    return joined test.negate start stop stop yes unit
  else
    let target ← fresh
    let first ← if no.ends then pure no else do
      let skip ← jump stop
      pure (no.andThen skip)
    return joined test start target stop first ((place target).andThen yes)

def ifOnly (test : Test) (yes : Tree) : LabelM Tree := ifElse test yes unit

/-- Run the body; if it throws something of the caught class (or anything at all, if none is
named), go on with the handler, which starts with what was thrown on the stack. -/
def tryCatch (body : Tree) (caught : Option BinaryName) (handler : Tree) : LabelM Tree := do
  let start ← fresh
  let stop ← fresh
  let exit ← if body.ends then pure none else some <$> fresh
  let entry ← fresh
  let after ← fresh
  return guarded ⟨body.type, false, body.ends && handler.ends⟩ ⟨start, stop, exit, entry, after⟩
    caught body handler

end Bytecode.Tree
