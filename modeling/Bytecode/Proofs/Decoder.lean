import Bytecode.Proofs.Interning

/-! Reading instructions back from bytes. The table below gives, opcode by opcode, what follows
an opcode; it knows nothing of how instructions are written. Every instruction that is written
is read back, whatever comes after it, and its operands lead to what they were written for. -/
namespace Bytecode

inductive Insn where
  | simple (i : Simple)
  | push (wide : Bool) (index : UInt16)
  | var (op : LocalOp) (index : UInt16)
  | field (op : FieldOp) (index : UInt16)
  | invoke (kind : InvokeKind) (index : UInt16)
  | invokeInterface (index : UInt16) (count : UInt8)
  | new (index : UInt16)
  | newArray (p : Prim)
  | newObjects (index : UInt16)
  | cast (index : UInt16)
  | instanceOf (index : UInt16)
  | jump (test : Option Test) (offset : Int16)
deriving DecidableEq

inductive Form where
  | whole (i : Insn)
  | byte (make : UInt8 → Option Insn)
  | pair (make : UInt16 → Insn)
  /-- The index of a local variable, in one byte, or in two after the prefix. -/
  | slot (op : LocalOp)
  | interface
  | wide

namespace Form

def numbered {α : Type} (first : Nat) (items : List α) (n : Nat) : Option α :=
  if first ≤ n then items[n - first]? else none

def kinds : List Kind := [.int, .long, .float, .double, .ref]

def shorts (op : Kind → LocalOp) : List Form :=
  kinds.flatMap fun k => [0, 1, 2, 3].map fun index => whole (.var (op k) index)

def prims : List Prim := [.boolean, .char, .float, .double, .byte, .short, .int, .long]

def orders : List OrdTest := [.eq, .ne, .lt, .ge, .gt, .le]

def jump (test : Option Test) : Form := pair fun offset => .jump test offset.toInt16

/-- Opcodes in order, in runs that each start from the number given. -/
def table : List (Nat × List Form) :=
  [(0x00, [.nop, .aconstNull, .iconstM1, .iconst0, .iconst1, .iconst2, .iconst3, .iconst4, .iconst5,
      .lconst0, .lconst1, .fconst0, .fconst1, .fconst2, .dconst0, .dconst1].map (whole ∘ .simple)),
   (0x12, [byte fun index => some (.push false index.toUInt16), pair (.push false),
      pair (.push true)]),
   (0x15, kinds.map (slot ∘ .load)),
   (0x1a, shorts .load),
   (0x2e, [.iaload, .laload, .faload, .daload, .aaload, .baload, .caload,
      .saload].map (whole ∘ .simple)),
   (0x36, kinds.map (slot ∘ .store)),
   (0x3b, shorts .store),
   (0x4f, [.iastore, .lastore, .fastore, .dastore, .aastore, .bastore, .castore, .sastore,
      .pop, .pop2, .dup, .dupX1, .dupX2, .dup2, .dup2X1, .dup2X2, .swap,
      .iadd, .ladd, .fadd, .dadd, .isub, .lsub, .fsub, .dsub, .imul, .lmul, .fmul, .dmul,
      .idiv, .ldiv, .fdiv, .ddiv, .irem, .lrem, .frem, .drem, .ineg, .lneg, .fneg, .dneg,
      .ishl, .lshl, .ishr, .lshr, .iushr, .lushr, .iand, .land, .ior, .lor, .ixor,
      .lxor].map (whole ∘ .simple)),
   (0x85, [.i2l, .i2f, .i2d, .l2i, .l2f, .l2d, .f2i, .f2l, .f2d, .d2i, .d2l, .d2f, .i2b, .i2c, .i2s,
      .lcmp, .fcmpL, .fcmpG, .dcmpL, .dcmpG].map (whole ∘ .simple)),
   (0x99, orders.map fun t => jump (some (.zero t))),
   (0x9f, orders.map fun t => jump (some (.ints t))),
   (0xa5, [jump (some (.refs .eq)), jump (some (.refs .ne)), jump none]),
   (0xac, [.ireturn, .lreturn, .freturn, .dreturn, .areturn, .returnVoid].map (whole ∘ .simple)),
   (0xb2, [.getStatic, .putStatic, .getField, .putField].map fun op => pair (.field op)),
   (0xb6, [.virtual, .special, .static].map fun kind => pair (.invoke kind)),
   (0xb9, [interface]),
   (0xbb, [pair .new, byte fun code => (numbered 4 prims code.toNat).map .newArray,
      pair .newObjects, whole (.simple .arrayLength), whole (.simple .athrow), pair .cast,
      pair .instanceOf, whole (.simple .monitorEnter), whole (.simple .monitorExit), wide]),
   (0xc6, [jump (some (.null .eq)), jump (some (.null .ne))])]

def find (opcode : UInt8) : Option Form :=
  table.findSome? fun (first, run) => numbered first run opcode.toNat

end Form

def Octets.join (high low : UInt8) : UInt16 := UInt16.ofNat (high.toNat * 256 + low.toNat)

def Insn.read : Octets → Option (Insn × Octets)
  | [] => none
  | opcode :: rest =>
    match Form.find opcode, rest with
    | some (.whole i), _ => some (i, rest)
    | some (.byte make), n :: rest => (make n).map (·, rest)
    | some (.pair make), high :: low :: rest => some (make (Octets.join high low), rest)
    | some (.slot op), n :: rest => some (.var op n.toUInt16, rest)
    | some .interface, high :: low :: count :: 0 :: rest =>
      some (.invokeInterface (Octets.join high low) count, rest)
    | some .wide, opcode :: high :: low :: rest =>
      match Form.find opcode with
      | some (.slot op) => some (.var op (Octets.join high low), rest)
      | _ => none
    | _, _ => none

def decode (position : Nat) (bytes : Octets) : Option (List (Nat × Insn)) :=
  if bytes.isEmpty then some []
  else
    match Insn.read bytes with
    | none => none
    | some (i, rest) =>
      if rest.length < bytes.length then
        (decode (position + (bytes.length - rest.length)) rest).map ((position, i) :: ·)
      else none
termination_by bytes.length

namespace Form

theorem find_simple (i : Simple) : find i.opcode = some (whole (.simple i)) := by
  cases i <;> rfl

theorem find_test (t : Test) : find t.opcode = some (jump (some t)) := by
  cases t with
  | zero t => cases t <;> rfl
  | ints t => cases t <;> rfl
  | refs t => cases t <;> rfl
  | null t => cases t <;> rfl

theorem find_slot (op : LocalOp) : find op.opcode = some (slot op) := by
  cases op with
  | load k => cases k <;> rfl
  | store k => cases k <;> rfl

theorem find_field (op : FieldOp) : find op.opcode = some (pair (.field op)) := by
  cases op <;> rfl

theorem find_invoke {kind : InvokeKind} (h : kind ≠ .interface) :
    find kind.opcode = some (pair (.invoke kind)) := by
  cases kind with
  | interface => exact absurd rfl h
  | _ => rfl

theorem find_jump (test : Option Test) :
    find ((test.map Test.opcode).getD Opcode.goto) = some (jump test) := by
  cases test with
  | none => rfl
  | some t => exact find_test t

theorem numbered_prims (p : Prim) : numbered 4 prims p.arrayCode.toNat = some p := by
  cases p <;> rfl

end Form

theorem Octets.join_u16 (n : UInt16) : join (n >>> 8).toUInt8 n.toUInt8 = n := by
  apply UInt16.toNat_inj.mp
  have bound := n.toNat_lt
  simp only [join, UInt16.toNat_ofNat', UInt16.toNat_toUInt8, UInt16.toNat_shiftRight]
  simp [Nat.shiftRight_eq_div_pow]
  omega

theorem Octets.widen_narrow {n : UInt16} (h : n < 256) : n.toUInt8.toUInt16 = n := by
  apply UInt16.toNat_inj.mp
  have bound : n.toNat < 256 := UInt16.lt_iff_toNat_lt.mp h
  simp
  omega

namespace Insn

theorem read_pair {opcode : UInt8} {make : UInt16 → Insn} (h : Form.find opcode = some (.pair make))
    (n : UInt16) (rest : Octets) : read (opcode :: Octets.u16 n ++ rest) = some (make n, rest) := by
  simp [read, h, Octets.u16, Octets.join_u16]

theorem read_varOctets (op : LocalOp) (index : UInt16) (rest : Octets) :
    read (Leaf.varOctets op index ++ rest) = some (.var op index, rest) := by
  unfold Leaf.varOctets
  split
  · rename_i small
    have cases : index = 0 ∨ index = 1 ∨ index = 2 ∨ index = 3 := by
      have bound : index.toNat < 4 := UInt16.lt_iff_toNat_lt.mp small
      simp only [← UInt16.toNat_inj]
      simp
      omega
    have found : Form.find (op.shortOpcode + index.toUInt8) = some (.whole (.var op index)) := by
      rcases cases with rfl | rfl | rfl | rfl <;> cases op with
      | load k => cases k <;> rfl
      | store k => cases k <;> rfl
    simp [read, found]
  · split
    · rename_i _ narrow
      simp [read, Form.find_slot, Octets.widen_narrow narrow]
    · have prefixed : Form.find 0xc4 = some .wide := rfl
      simp [read, prefixed, Form.find_slot, Octets.u16, Octets.join_u16]

theorem read_pushOctets (index : UInt16) (wide : Bool) (rest : Octets) :
    read (Leaf.pushOctets index wide ++ rest) = some (.push wide index, rest) := by
  unfold Leaf.pushOctets
  split
  · rename_i h
    subst h
    exact read_pair (by rfl) index rest
  · rename_i h
    have narrow : wide = false := by simpa using h
    subst narrow
    split
    · rename_i small
      have found : Form.find 0x12 =
          some (.byte fun index => some (.push false index.toUInt16)) := rfl
      simp [read, found, Octets.widen_narrow small]
    · exact read_pair (by rfl) index rest

theorem read_interfaceOctets (index : UInt16) (count : UInt8) (rest : Octets) :
    read (Leaf.interfaceOctets index count ++ rest) =
      some (.invokeInterface index count, rest) := by
  have found : Form.find InvokeKind.interface.opcode = some .interface := rfl
  simp [read, Leaf.interfaceOctets, Leaf.indexed, found, Octets.u16, Octets.join_u16]

theorem read_newArray (p : Prim) (rest : Octets) :
    read (Opcode.newArray :: p.arrayCode :: rest) = some (.newArray p, rest) := by
  have found : Form.find Opcode.newArray =
      some (.byte fun code => (Form.numbered 4 Form.prims code.toNat).map .newArray) := rfl
  simp [read, found, Form.numbered_prims]

theorem read_jump (test : Option Test) (offset : Int16) (rest : Octets) :
    read ((test.map Test.opcode).getD Opcode.goto :: Octets.i16 offset ++ rest) =
      some (.jump test offset, rest) := by
  rw [Octets.i16, read_pair (Form.find_jump test)]
  simp

end Insn

end Bytecode
