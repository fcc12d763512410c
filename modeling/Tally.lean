import Tally.Store.UniqueCounts
import Tally.Txn.Tables
import Tally.Txn.Deadlock
import Tally.Metrics.Agreement
import Tally.Queue.CrashSafety
import Tally.RateLimit.Isolation
import Tally.RateLimit.Eviction
import Tally.RateLimit.Redis
import Tally.Hll.Codec
import Tally.Hll.Finalizer
import Tally.Hll.Growth
import Tally.Dashboard.Headline
import Tally.Dashboard.Chart
import Tally.Ingest.Publish
import Tally.Deployment.Validity
import Tally.Queue.Producer
import Tally.Loadgen.Sent
import Tally.Ingest.Body
import Tally.Pipeline.Shutdown
import Tally.Txn.Completion
import Tally.RateLimit.FailOpen
import Tally.RateLimit.Concurrent
import Tally.Store.UniqueBounds
import Tally.Dashboard.Table
import Tally.Deployment.Chaos
import Tally.Deployment.Config
import Tally.Deployment.Ledger
import Tally.Queue.Shutdown
import Tally.Queue.CatchUp
