import Cinder.Store.Compaction
import Cinder.Store.Resurrection
import Cinder.Store.LogResume
import Cinder.Store.GroupCommit
import Cinder.Store.SnapshotFile
import Cinder.Store.VersionClock
import Cinder.Store.WheelTiming
import Cinder.Store.Reaping
import Cinder.Store.LruRestart
import Cinder.Store.LfuBookkeeping
import Cinder.Store.KeyFrames
import Cinder.Store.Visibility
import Cinder.Hashing.ReplicaSets
import Cinder.Net.Drain
import Cinder.Cluster.Leave
import Cinder.Cluster.Incarnations
import Cinder.Cluster.FailureDetector
import Cinder.Client.CacheClient
import Cinder.Node.ExpiryPaths
import Cinder.Node.HintFifo
import Cinder.Node.HintRecovery
import Cinder.Node.WriteFanOut
import Cinder.Node.ReadFlights
import Cinder.Node.Addresses
import Cinder.Node.RebalanceTimers
import Cinder.Node.ReadRepair
import Cinder.Node.AntiEntropyPlacement
import Cinder.Node.AntiEntropyFrames
import Cinder.Node.TombstoneReap
