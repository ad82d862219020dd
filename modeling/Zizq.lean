import Zizq.Batch.Fold
import Zizq.Client.Builder
import Zizq.Client.CommaSet
import Zizq.Client.Enqueue
import Zizq.Client.LastValues
import Zizq.Client.Listing
import Zizq.Client.Page
import Zizq.Client.Range
import Zizq.Client.Url
import Zizq.Derive.Grammar
import Zizq.Derive.Kind
import Zizq.Derive.Rearranged
import Zizq.Derive.Spelled
import Zizq.Filter.JqExpr
import Zizq.Filter.Selection
import Zizq.Json.Except
import Zizq.Json.Pick
import Zizq.Json.Remove
import Zizq.Key.Batch
import Zizq.Patch.Budget
import Zizq.Patch.Job
import Zizq.Patch.Listing
import Zizq.Patch.Merge
import Zizq.Patch.Strategy
import Zizq.Resources.Cron
import Zizq.Resources.Job
import Zizq.Resources.Request
import Zizq.Take.Polls
import Zizq.Take.Roundtrip
import Zizq.Take.Stream
import Zizq.Take.Target
import Zizq.Worker.Builder
import Zizq.Worker.Capacity
import Zizq.Worker.Deadline
import Zizq.Worker.Delivery
import Zizq.Worker.Drain
import Zizq.Worker.Orphan
import Zizq.Worker.Reconnect
import Zizq.Worker.Routed
import Zizq.Worker.Router
import Zizq.Worker.Session
import Zizq.Worker.Shutdown
import Zizq.Worker.Waits
