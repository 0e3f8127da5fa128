import Kiwi.Correctness.Resurrection
import Kiwi.Correctness.HashRefinement
import Kiwi.Correctness.SetRefinement
import Kiwi.Correctness.ScanGuarantee
import Kiwi.Correctness.LogDurability
import Kiwi.Correctness.Convergence
import Kiwi.Correctness.SnapshotPrefix
import Kiwi.Correctness.LostUpdate
import Kiwi.Correctness.AtMostOnce
import Kiwi.Correctness.KeyLocks
import Kiwi.Correctness.ShardedStore
import Kiwi.Correctness.InstallSafety
import Kiwi.Correctness.ReplicaCompaction
import Kiwi.Correctness.WireRoundTrip
import Kiwi.Correctness.AccessGate
import Kiwi.Correctness.Expiry
import Kiwi.Correctness.ReadAtomicity
import Kiwi.Correctness.Linearizability
import Kiwi.Correctness.ClusterWrites
import Kiwi.Correctness.Unauthenticated
import Kiwi.Correctness.VectorSets
import Kiwi.Correctness.ListEdits
import Kiwi.Correctness.ZsetMirror
import Kiwi.Correctness.ZsetIncrements
import Kiwi.Correctness.SetAlgebra
import Kiwi.Correctness.HashScans
import Kiwi.Correctness.BitOp
import Kiwi.Correctness.ExpiryCommands
import Kiwi.Correctness.GlobMatching
import Kiwi.Correctness.Comparators
import Kiwi.Correctness.SeekKeys
import Kiwi.Correctness.KeysCommand
import Kiwi.Correctness.ReplyWrites
import Kiwi.Correctness.Compaction.Lookups
import Kiwi.Correctness.InstallPause
import Kiwi.Correctness.LogIndexLookup
import Kiwi.Correctness.FlatSearch
import Kiwi.Correctness.VectorMemberRange
