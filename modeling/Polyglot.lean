import Polyglot.Data.Decimal
import Polyglot.Main
import Polyglot.Proofs.Chain.Blanking
import Polyglot.Proofs.Chain.Containment
import Polyglot.Proofs.Chain.Fidelity
import Polyglot.Proofs.Chain.Lookup
import Polyglot.Proofs.Chain.Outermost
import Polyglot.Proofs.Chain.Slices
import Polyglot.Proofs.Chain.Unedited
import Polyglot.Proofs.Chain.Wrapper
import Polyglot.Proofs.Config.Building
import Polyglot.Proofs.Config.Captures
import Polyglot.Proofs.Config.Extensions
import Polyglot.Proofs.Config.Siblings
import Polyglot.Proofs.Engine.Outcomes
import Polyglot.Proofs.OffsetMap.Cover
import Polyglot.Proofs.Query.Calls
import Polyglot.Proofs.Query.Results
import Polyglot.Proofs.Rule.Handles
import Polyglot.Proofs.Syntax.Bounds
import Polyglot.Proofs.Syntax.Mirror
import Polyglot.Proofs.Syntax.Text
