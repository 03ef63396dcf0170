import ScreeDB.Ops

/-!
# Sessions (`screedb.cc`: constructor, destructor, `Recover`, `RebuildNodes`, `Shutdown`)

A session begins with the constructor: it creates the pool when the file does not exist (a zeroed
root, `Pool.fresh`), opens it otherwise, and runs `Recover`. `Recover` initializes the counters
when the list of leaves is empty, else rebuilds the volatile index from the list
(`rebuildNodes`) and counts the opening. A session ends with the destructor (`Shutdown`, which
counts the clean close) or with a crash, which keeps the last published image of the pool. A crash
inside a call is a crash at one of its persistent steps (`crashAt`): only the end of a
transaction publishes an image, and every transaction of the code makes such a step first.

`rebuildNodes` walks the list from `root->head`, makes a leaf node for every leaf with a copy of
its hashes, keeps the non-empty ones with their largest key, sorts them by it, and links them left
to right with `leafUpdateParentsAfterSplit`, each at the previous one's largest key. The walk takes
at most `alloc` steps: the list of an image never has more leaves than were allocated.

`Cmd` and `runCmds` are the calls a client of `ScreeDB` makes, in order.
-/

namespace ScreeDB

/-! ## `RebuildNodes` -/

/-- The leaves reached from `a` through `next`, for at most `fuel` leaves. -/
def leafChain (p : Pool) : Nat → Option Nat → List Nat
  | 0, _ => []
  | _, none => []
  | fuel + 1, some a => a :: leafChain p fuel (p.leaves a).next

/-- The list of leaves from `root->head`. -/
def Pool.leafList (p : Pool) : List Nat := leafChain p p.alloc p.root.head

/-- The highest sorting key of the occupied slots (`max_key`), by the slot loop of
`RebuildNodes`. -/
def maxKey (l : ScreeDBLeaf) : Option CStr :=
  slotsDown.foldl (fun max_key s =>
    if l.hashes s = 0 then max_key
    else match max_key with
      | none => some (l.kv_keys s).data
      | some m => if strcmp m.bytes (l.kv_keys s).data.bytes < 0 then some (l.kv_keys s).data
        else max_key) none

/-- One turn of the first loop of `RebuildNodes`, at the leaf at address `a`: a new leaf node with
the leaf's hashes, kept (`push_back`) with its largest key when it has one. -/
def recoverLeaf (p : Pool) (acc : List (Nat × CStr) × Volatile) (a : Nat) :
    List (Nat × CStr) × Volatile :=
  let (leafnode, v) := acc.2.newLeafNode none
  let v := (v.setLeafPtr leafnode a).setHashes leafnode (p.leaves a).hashes
  match maxKey (p.leaves a) with
  | none => (acc.1, v)
  | some max_key => (acc.1 ++ [(leafnode, max_key)], v)

/-- `leaves.sort(...)` by `strcmp(lhs->max_key, rhs->max_key) < 0`: `std::list::sort` is stable. -/
def sortRecovered (leaves : List (Nat × CStr)) : List (Nat × CStr) :=
  leaves.mergeSort fun a b => decide (strcmp a.2.bytes b.2.bytes ≤ 0)

/-- The second loop of `RebuildNodes`: the first leaf becomes `top_`, and each next leaf is
linked right of the previous one at the previous one's largest key. -/
def rebuildLoop : List (Nat × CStr) → Volatile → Volatile
  | [], v => v
  | (leafnode, max_key) :: rest, v =>
    let v := if v.top_.isNone then v.setTop (some (.leaf leafnode)) else v
    match rest with
    | [] => v
    | (nextnode, _) :: _ =>
      let v := v.setParent nextnode (v.parent leafnode)
      rebuildLoop rest (leafUpdateParentsAfterSplit v.walkFuel v leafnode (.leaf nextnode) max_key)

/-- `RebuildNodes()`. -/
def rebuildNodes (p : Pool) (v : Volatile) : Volatile :=
  let (leaves, v) := p.leafList.foldl (recoverLeaf p) ([], v)
  rebuildLoop (sortRecovered leaves) (v.setTop none)

/-! ## `Recover`, `Shutdown`, sessions -/

/-- `Recover()`. -/
def recover : TreeM Unit := do
  let p ← Txn.readP
  match p.root.head with
  | none =>
    Txn.exec_tx do
      Txn.store (·.setOpened 1)
      Txn.store (·.setClosed 0)
  | some _ =>
    Txn.modifyV (rebuildNodes p)
    Txn.exec_tx (Txn.store fun p => p.setOpened (p.root.opened + 1))

/-- `Shutdown()`. -/
def shutdown : TreeM Unit := Txn.exec_tx (Txn.store fun p => p.setClosed (p.root.closed + 1))

/-- A program run to its end: its result, `none` when it threw. -/
def exec {α : Type} (x : TreeM α) (t : Tree) : Option α × Tree :=
  match x t with
  | .ok a t' => (some a, t')
  | .error _ t' => (none, t')

/-- The constructor `ScreeDBTree(name)` on the pool image `p` (`Pool.fresh` when the pool file
does not exist): a new volatile memory, and `Recover`. -/
def openTree (p : Pool) : Tree := (exec recover (Txn.Machine.start p .empty)).2

/-- The destructor: `Shutdown`, then the pool is closed with the image it holds. -/
def closeTree (t : Tree) : Pool := (exec shutdown t).2.pm

/-- A crash: the process is gone, the pool keeps its last published image. -/
def crashTree (t : Tree) : Pool := t.durable

/-- A crash that strikes the call `x` on `t` at its `k`-th persistent step (a snapshot or an
allocation), or after `x` returns when it has fewer: the image the pool keeps. -/
def crashAt {α : Type} (x : TreeM α) (t : Tree) (k : Nat) : Pool :=
  (Txn.Result.state (x { t with budget := some k })).durable

/-! ## Client runs -/

/-- A call of the `ScreeDB` API. `Merge` forwards to `Put` (no merge operator). `reopen` deletes
the database and opens it again on the same file. -/
inductive Cmd where
  | put (key value : Slice)
  | merge (key value : Slice)
  | delete (key : Slice)
  | get (key : Slice) (value : List UInt8)
  | reopen

/-- What a call returns: its status (`none` when it threw), and for `get` the string `*value`. -/
structure Reply where
  status : Option Status
  value : List UInt8

/-- One call on a running tree. -/
def Cmd.step (rodata : Int → UInt8) (t : Tree) : Cmd → Reply × Tree
  | .put key value | .merge key value =>
    let (s, t') := exec (ScreeDB.put rodata key value) t
    (⟨s, []⟩, t')
  | .delete key =>
    let (s, t') := exec (ScreeDB.delete rodata key) t
    (⟨s, []⟩, t')
  | .get key value =>
    let (s, v) := ScreeDB.get rodata t key value
    (⟨some s, v⟩, t)
  | .reopen => (⟨some .ok, []⟩, openTree (closeTree t))

/-- The image a crash leaves when it strikes a call at its `k`-th persistent step: inside `Put`,
`Merge` or `Delete`, inside the destructor that `reopen` runs first, or anywhere in `Get`, which
writes nothing. -/
def Cmd.crash (rodata : Int → UInt8) (t : Tree) : Cmd → Nat → Pool
  | .put key value, k | .merge key value, k => crashAt (ScreeDB.put rodata key value) t k
  | .delete key, k => crashAt (ScreeDB.delete rodata key) t k
  | .get _ _, _ => crashTree t
  | .reopen, k => crashAt shutdown t k

/-- The replies to a sequence of calls. -/
def runCmds (rodata : Int → UInt8) : Tree → List Cmd → List Reply
  | _, [] => []
  | t, c :: cs => (c.step rodata t).1 :: runCmds rodata (c.step rodata t).2 cs

end ScreeDB
