import Cronstable.Dag.Soundness
import Cronstable.Dag.CompletionsSafety
import Cronstable.Pool.Capacity
import Cronstable.Pool.Cancellation
import Cronstable.Store.DeriveMax
import Cronstable.Election.KubernetesSafety
import Cronstable.Election.EtcdRan
import Cronstable.Cluster.Mesh
import Cronstable.Retry.LadderSafety
import Cronstable.Retry.Pooled
import Cronstable.Writes.Tail
import Cronstable.Store.SlotSafety
import Cronstable.Dag.RetentionSafety
import Cronstable.Store.FileLock
import Cronstable.Store.NameKeyedLookup
import Cronstable.Election.RanGate
import Cronstable.Cluster.RebootGossip
import Cronstable.Cluster.Available
import Cronstable.Fingerprint.Secrecy
import Cronstable.Store.Idempotency
import Cronstable.Dag.Fixpoint
import Cronstable.Dag.RunOnce
import Cronstable.Dag.Retried
import Cronstable.Dag.Finality
import Cronstable.Schedule.Advance
import Cronstable.Schedule.FireHeap
import Cronstable.Schedule.Missed
import Cronstable.Schedule.CellJobs
import Cronstable.Config.Interpolate
import Cronstable.TaskXml.Argv
import Cronstable.TaskXml.Decode
import Cronstable.TaskXml.Names
