import Semanticore.Context.AllOrNothing
import Semanticore.Context.AutoPromotion
import Semanticore.Context.Backends
import Semanticore.Context.Batch
import Semanticore.Context.Bounds
import Semanticore.Context.Citations
import Semanticore.Context.Coherence
import Semanticore.Context.Conservation
import Semanticore.Context.Counters
import Semanticore.Context.Enforcement
import Semanticore.Context.FreshIds
import Semanticore.Context.Pressure
import Semanticore.Context.Promotion
import Semanticore.Context.QueryScan
import Semanticore.Context.ReadBack
import Semanticore.Context.Recovery
import Semanticore.Context.Refusals
import Semanticore.Context.Removal
import Semanticore.Context.Snapshot
import Semanticore.Context.Thrashing
import Semanticore.Context.Victims
import Semanticore.Core.Client
import Semanticore.Core.Datalog
import Semanticore.Core.NaiveStore
import Semanticore.Core.Shacl
import Semanticore.Core.Subsumption
import Semanticore.Core.Symmetric
import Semanticore.Lib.Guarded
import Semanticore.Lib.Linearization
import Semanticore.Lib.Progress
import Semanticore.Lib.Worklist
import Semanticore.Oxigraph.Backend
import Semanticore.Oxigraph.PlainSet
import Semanticore.Python.Items
import Semanticore.Python.Json
import Semanticore.Python.Queries
import Semanticore.Python.Terms
import Semanticore.Python.Threads
import Semanticore.Testkit.Backend
import Semanticore.Testkit.Serialisable
