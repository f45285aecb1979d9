import Clientele.Main
import Clientele.Proofs.Query.Refinement
import Clientele.Proofs.Filter.Wire
import Clientele.Proofs.Filter.Leniency
import Clientele.Proofs.Store.OrderedMap
import Clientele.Proofs.Audit.Durability
import Clientele.Proofs.Audit.Interchange
import Clientele.Proofs.Crm.Mirror
import Clientele.Proofs.Crm.Growth
import Clientele.Proofs.Crm.ChangeSet
import Clientele.Proofs.Crm.Bulk
import Clientele.Proofs.Crm.Independence
import Clientele.Proofs.Audit.Race
import Clientele.Proofs.Command.Restart
import Clientele.Proofs.Store.RoundTrip
import Clientele.Proofs.Query.Pages
import Clientele.Proofs.Audit.Visibility
import Clientele.Proofs.Crm.Visibility
import Clientele.Proofs.Crm.Stamps
import Clientele.Proofs.Audit.Privacy
import Clientele.Proofs.Crm.Privacy
import Clientele.Proofs.Crm.Pricing
import Clientele.Proofs.Crm.Reading
import Clientele.Proofs.Crm.Balance
import Clientele.Proofs.Filter.Negation
import Clientele.Proofs.Filter.Range
import Clientele.Proofs.Filter.Related
import Clientele.Proofs.Crm.Sorting
import Clientele.Proofs.Query.SortRequest
import Clientele.Proofs.Query.Sum
import Clientele.Proofs.Query.Dates
import Clientele.Proofs.Query.Lookup
import Clientele.Proofs.Decimal.Rounding
import Clientele.Proofs.Query.Integers
import Clientele.Proofs.Audit.Acceptance
import Clientele.Proofs.Store.Refusal
import Clientele.Proofs.Filter.Reordering
import Clientele.Proofs.Crm.Feeds
import Clientele.Proofs.Crm.Chronology
import Clientele.Proofs.Telemetry.Line
import Clientele.Proofs.Query.Lens
import Clientele.Proofs.Filter.NormalForm
import Clientele.Proofs.Crm.Repricing
