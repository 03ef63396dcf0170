import ScreeDB.Bytes
import ScreeDB.Txn.Prog
import ScreeDB.Layout
import ScreeDB.Leaf
import ScreeDB.Index
import ScreeDB.Ops
import ScreeDB.Lifecycle
import ScreeDB.Order.Bound
import ScreeDB.Order.Rank
import ScreeDB.Order.Cells
import ScreeDB.Tree.Shape
import ScreeDB.Tree.WF
import ScreeDB.Tree.Partition
import ScreeDB.Tree.Walk
import ScreeDB.Tree.Split
import ScreeDB.Tree.Propagate
import ScreeDB.Tree.Balance
import ScreeDB.Proofs.Slots
import ScreeDB.Proofs.Runs
import ScreeDB.Proofs.Inv
import ScreeDB.Proofs.Update
import ScreeDB.Proofs.Split
import ScreeDB.Proofs.Client
import ScreeDB.Tree.Build
import ScreeDB.Tree.Count
import ScreeDB.Tree.Cells
import ScreeDB.Order.FoldMax
import ScreeDB.Proofs.Rebuild
import ScreeDB.Proofs.LeafNode
import ScreeDB.Sim.Run
import ScreeDB.Txn.Crash
import ScreeDB.Proofs.Crash
import ScreeDB.Proofs.Recover
import ScreeDB.Proofs.Session
import ScreeDB.Proofs.Growth
import ScreeDB.Proofs.Reopen
import ScreeDB.Proofs.Space
import ScreeDB.Proofs.Writes
import ScreeDB.Proofs.Partition
import ScreeDB.Proofs.Durable
import ScreeDB.Proofs.Nodes
