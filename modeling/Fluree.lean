import Fluree.Proof.Ties
import Fluree.Proof.NameService.Lineage
import Fluree.Proof.NameService.Heads
import Fluree.Proof.NameService.Envelopes
import Fluree.Proof.BranchStreaming
import Fluree.Proof.Raft.LogCrash
import Fluree.Proof.Raft.KvSweep
import Fluree.Proof.Wal.Replay
import Fluree.Proof.Wal.Retire
import Fluree.Proof.Commit.Safety
import Fluree.Proof.GraphNumbers
import Fluree.Proof.TransferPages
import Fluree.Proof.NsImport
import Fluree.Proof.PushGraphs
import Fluree.Proof.MergeDeltas
import Fluree.Proof.Reverts
import Fluree.Proof.Updates
import Fluree.Proof.SelfContained
import Fluree.Proof.Hierarchy
import Fluree.Proof.NameService.Refusals
import Fluree.Proof.CommitFlakes
import Fluree.Proof.OrderedKeys
