import Bytecode.Opcode

/-! The names under which a listing shows instructions. -/
namespace Bytecode

/-- Types whose values are each listed under one name. -/
class Listed (α : Type) where
  names : List (α × String)

namespace Listed

def name {α : Type} [Listed α] [BEq α] (a : α) : String := (names.lookup a).getD ""

def find? {α : Type} [Listed α] (name : String) : Option α :=
  (names.find? (·.2 = name)).map (·.1)

end Listed

instance : Listed Simple where
  names := [
    (.nop, "Nop"), (.aconstNull, "AConstNull"), (.iconstM1, "IConstM1"), (.iconst0, "IConst0"),
    (.iconst1, "IConst1"), (.iconst2, "IConst2"), (.iconst3, "IConst3"), (.iconst4, "IConst4"),
    (.iconst5, "IConst5"), (.lconst0, "LConst0"), (.lconst1, "LConst1"), (.fconst0, "FConst0"),
    (.fconst1, "FConst1"), (.fconst2, "FConst2"), (.dconst0, "DConst0"), (.dconst1, "DConst1"),
    (.iaload, "IALoad"), (.laload, "LALoad"), (.faload, "FALoad"), (.daload, "DALoad"),
    (.aaload, "AALoad"), (.baload, "BALoad"), (.caload, "CALoad"), (.saload, "SALoad"),
    (.iastore, "IAStore"), (.lastore, "LAStore"), (.fastore, "FAStore"), (.dastore, "DAStore"),
    (.aastore, "AAStore"), (.bastore, "BAStore"), (.castore, "CAStore"), (.sastore, "SAStore"),
    (.pop, "Pop"), (.pop2, "Pop2"), (.dup, "Dup"), (.dupX1, "DupX1"), (.dupX2, "DupX2"),
    (.dup2, "Dup2"), (.dup2X1, "Dup2X1"), (.dup2X2, "Dup2X2"), (.swap, "Swap"), (.iadd, "IAdd"),
    (.ladd, "LAdd"), (.fadd, "FAdd"), (.dadd, "DAdd"), (.isub, "ISub"), (.lsub, "LSub"),
    (.fsub, "FSub"), (.dsub, "DSub"), (.imul, "IMul"), (.lmul, "LMul"), (.fmul, "FMul"),
    (.dmul, "DMul"), (.idiv, "IDiv"), (.ldiv, "LDiv"), (.fdiv, "FDiv"), (.ddiv, "DDiv"),
    (.irem, "IRem"), (.lrem, "LRem"), (.frem, "FRem"), (.drem, "DRem"), (.ineg, "INeg"),
    (.lneg, "LNeg"), (.fneg, "FNeg"), (.dneg, "DNeg"), (.ishl, "IShl"), (.lshl, "LShl"),
    (.ishr, "IShr"), (.lshr, "LShr"), (.iushr, "IUShr"), (.lushr, "LUShr"), (.iand, "IAnd"),
    (.land, "LAnd"), (.ior, "IOr"), (.lor, "LOr"), (.ixor, "IXor"), (.lxor, "LXor"),
    (.i2l, "I2L"), (.i2f, "I2F"), (.i2d, "I2D"), (.l2i, "L2I"), (.l2f, "L2F"), (.l2d, "L2D"),
    (.f2i, "F2I"), (.f2l, "F2L"), (.f2d, "F2D"), (.d2i, "D2I"), (.d2l, "D2L"), (.d2f, "D2F"),
    (.i2b, "I2B"), (.i2c, "I2C"), (.i2s, "I2S"), (.lcmp, "LCmp"), (.fcmpL, "FCmpL"),
    (.fcmpG, "FCmpG"), (.dcmpL, "DCmpL"), (.dcmpG, "DCmpG"), (.ireturn, "IReturn"),
    (.lreturn, "LReturn"), (.freturn, "FReturn"), (.dreturn, "DReturn"), (.areturn, "AReturn"),
    (.returnVoid, "Return"), (.arrayLength, "ArrayLength"), (.athrow, "AThrow"),
    (.monitorEnter, "MonitorEnter"), (.monitorExit, "MonitorExit")]

instance : Listed Test where
  names := [
    (.zero .eq, "ifeq"), (.zero .ne, "ifne"), (.zero .lt, "iflt"), (.zero .ge, "ifge"),
    (.zero .gt, "ifgt"), (.zero .le, "ifle"), (.ints .eq, "if_icmpeq"), (.ints .ne, "if_icmpne"),
    (.ints .lt, "if_icmplt"), (.ints .ge, "if_icmpge"), (.ints .gt, "if_icmpgt"),
    (.ints .le, "if_icmple"), (.refs .eq, "if_acmpeq"), (.refs .ne, "if_acmpne"),
    (.null .eq, "ifnull"), (.null .ne, "ifnonnull")]

instance : Listed LocalOp where
  names := [
    (.load .int, "ILoad"), (.load .long, "LLoad"), (.load .float, "FLoad"),
    (.load .double, "DLoad"), (.load .ref, "ALoad"), (.store .int, "IStore"),
    (.store .long, "LStore"), (.store .float, "FStore"), (.store .double, "DStore"),
    (.store .ref, "AStore")]

instance : Listed FieldOp where
  names := [
    (.getStatic, "GetStatic"), (.putStatic, "PutStatic"), (.getField, "GetField"),
    (.putField, "PutField")]

instance : Listed InvokeKind where
  names := [
    (.virtual, "Virtual"), (.special, "Special"), (.static, "Static"), (.interface, "Interface")]

instance : Listed Prim where
  names := [
    (.boolean, "Boolean"), (.char, "Char"), (.float, "Float"), (.double, "Double"),
    (.byte, "Byte"), (.short, "Short"), (.int, "Int"), (.long, "Long")]

end Bytecode
