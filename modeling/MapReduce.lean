import MapReduce.Library.Machine
import MapReduce.Library.WorkPool
import MapReduce.Library.Tiling
import MapReduce.Master.Helpers
import MapReduce.Master.Sharding
import MapReduce.Master.ShardPartition
import MapReduce.Master.ShardCount
import MapReduce.Master.MapDispatch
import MapReduce.Master.Checkpoint
import MapReduce.Master.MapLoop
import MapReduce.Master.MapPhase
import MapReduce.Library.Decimal
import MapReduce.Library.Fields
import MapReduce.Master.ReduceDispatch
import MapReduce.Library.Dict
import MapReduce.Library.PyText
import MapReduce.Worker.Scripts
import MapReduce.Worker.Streams
import MapReduce.Worker.Boundary
import MapReduce.Worker.MapTask
import MapReduce.Shuffle
import MapReduce.Library.Words
import MapReduce.Worker.MapWords
import MapReduce.Worker.Pieces
import MapReduce.Worker.Cuts
import MapReduce.Master.Failover
import MapReduce.Master.Replication
import MapReduce.Wire
import MapReduce.Worker.Rpcs
import MapReduce.Master.Leader
import MapReduce.Master.LeaderCheckpoints
import MapReduce.Master.Children
import MapReduce.Library.History
import MapReduce.Master.Election
import MapReduce.Master.Wedge
import MapReduce.Worker.Chunks
import MapReduce.Master.Requests
import MapReduce.Counts
import MapReduce.Master.ReduceOutputs
import MapReduce.Master.Registry
import MapReduce.Worker.CallObjects
import MapReduce.Worker.Keys
import MapReduce.Master.LeastLoaded
import MapReduce.Master.CompletionThread
import MapReduce.Master.ShardIds
import MapReduce.Job.Blobs
import MapReduce.Job.Invariant
import MapReduce.Job.Outcome
import MapReduce.Job.WordCount
import MapReduce.Master.Ping
import MapReduce.Master.ReduceProgress
import MapReduce.Job.Frame
import MapReduce.Job.Progress
import MapReduce.Library.Rounding
import MapReduce.Master.FloatShards
import MapReduce.Job.FailSwitch
