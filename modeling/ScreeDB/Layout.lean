import ScreeDB.Bytes
import ScreeDB.Txn.Prog

/-!
# The persistent and volatile structures (`screedb.h`)

The persistent side is the pool image: the root object (`ScreeDBRoot`) and the leaves
(`ScreeDBLeaf`) by address, with the next address an allocation hands out. A leaf keeps for each
of its `NODE_KEYS` slots a hash, a key and a value; hash `0` marks a free slot.

The volatile side is the index. Its shape is the tree `ScreeDBNode` under `top_`: inner nodes
with their separator keys and children, leaves by node id. The mutable fields of the node
objects are kept as maps from node ids, as the pointers reach them: `parent` (every node),
`hashes` and `leaf` (leaf nodes: the hash cache and the pointer to the persistent leaf).
`next_id` is the id the next `new` hands out. A node's `keycount` is the length of its key list:
the arrays' slots past it are never read.

Each update of a field comes with its simp lemmas, so that no proof unfolds a structure.
-/

namespace ScreeDB

/-- `INNER_KEYS`: the most keys an inner node keeps. -/
def INNER_KEYS : Nat := 4

/-- `INNER_KEYS_MIDPOINT`: the key a splitting inner node hands up. -/
def INNER_KEYS_MIDPOINT : Nat := INNER_KEYS / 2

/-- `INNER_KEYS_UPPER`: where the keys that move to the new inner node begin. -/
def INNER_KEYS_UPPER : Nat := INNER_KEYS / 2 + 1

/-- `NODE_KEYS_MIDPOINT`: the rank of the split key among the keys of a splitting leaf. -/
def NODE_KEYS_MIDPOINT : Nat := 24

/-- `SSO_CHARS`: the longest string kept in place. -/
def SSO_CHARS : Nat := 15

/-- A slot of a leaf. -/
abbrev Slot := Fin NODE_KEYS

/-- The order in which every slot loop (`for (int slot = NODE_KEYS; slot--;)`) visits the
slots: from the last to the first. -/
def slotsDown : List Slot := (List.finRange NODE_KEYS).reverse

/-! ## Persistent structures -/

/-- `ScreeDBString`: a short string in place (`sso`), a longer one behind a pointer (`str`). -/
structure ScreeDBString where
  sso : CStr
  str : Option CStr
  deriving DecidableEq

namespace ScreeDBString

/-- A zeroed string: no pointer, an empty buffer. -/
def empty : ScreeDBString := ⟨CStr.empty, none⟩

/-- `data()`: the pointed-to string if there is one, else the buffer. -/
def data (s : ScreeDBString) : CStr := s.str.getD s.sso

/-- `is_short()`. -/
def is_short (s : ScreeDBString) : Bool := s.str.isNone

/-- `set(slice)`: a slice of at most `SSO_CHARS` bytes is copied into the buffer and the pointer
is dropped; a longer one is copied to a new array. The copy is `strcpy` of `data_`. -/
def set (s : ScreeDBString) (slice : Slice) : ScreeDBString :=
  if slice.size_ ≤ SSO_CHARS then ⟨slice.cstr, none⟩ else { s with str := some slice.cstr }

@[simp] theorem data_empty : empty.data = CStr.empty := rfl

@[simp] theorem data_set (s : ScreeDBString) (slice : Slice) : (s.set slice).data = slice.cstr := by
  unfold set data
  split <;> simp

end ScreeDBString

/-- `ScreeDBLeaf`: per slot a hash, a key and a value, and the link to the next leaf. -/
structure ScreeDBLeaf where
  hashes : Slot → UInt8
  next : Option Nat
  kv_keys : Slot → ScreeDBString
  kv_values : Slot → ScreeDBString

namespace ScreeDBLeaf

/-- The leaf `make_persistent<ScreeDBLeaf>()` returns: every byte zero. -/
def zero : ScreeDBLeaf := ⟨fun _ => 0, none, fun _ => .empty, fun _ => .empty⟩

def setHash (l : ScreeDBLeaf) (s : Slot) (h : UInt8) : ScreeDBLeaf :=
  { l with hashes := Function.update l.hashes s h }

def setKey (l : ScreeDBLeaf) (s : Slot) (k : ScreeDBString) : ScreeDBLeaf :=
  { l with kv_keys := Function.update l.kv_keys s k }

def setValue (l : ScreeDBLeaf) (s : Slot) (v : ScreeDBString) : ScreeDBLeaf :=
  { l with kv_values := Function.update l.kv_values s v }

def setNext (l : ScreeDBLeaf) (n : Option Nat) : ScreeDBLeaf := { l with next := n }

variable (l : ScreeDBLeaf) (s t : Slot)

@[simp] theorem setHash_hashes (h : UInt8) :
    (l.setHash s h).hashes t = if t = s then h else l.hashes t := by
  simp [setHash, Function.update_apply]

@[simp] theorem setHash_kv_keys (h : UInt8) : (l.setHash s h).kv_keys = l.kv_keys := rfl
@[simp] theorem setHash_kv_values (h : UInt8) : (l.setHash s h).kv_values = l.kv_values := rfl
@[simp] theorem setHash_next (h : UInt8) : (l.setHash s h).next = l.next := rfl

/-- Writing the hash a slot already has changes nothing. -/
theorem setHash_same : l.setHash s (l.hashes s) = l := by
  simp [setHash]

@[simp] theorem setKey_kv_keys (k : ScreeDBString) :
    (l.setKey s k).kv_keys t = if t = s then k else l.kv_keys t := by
  simp [setKey, Function.update_apply]

@[simp] theorem setKey_hashes (k : ScreeDBString) : (l.setKey s k).hashes = l.hashes := rfl
@[simp] theorem setKey_kv_values (k : ScreeDBString) : (l.setKey s k).kv_values = l.kv_values := rfl
@[simp] theorem setKey_next (k : ScreeDBString) : (l.setKey s k).next = l.next := rfl

@[simp] theorem setValue_kv_values (v : ScreeDBString) :
    (l.setValue s v).kv_values t = if t = s then v else l.kv_values t := by
  simp [setValue, Function.update_apply]

@[simp] theorem setValue_hashes (v : ScreeDBString) : (l.setValue s v).hashes = l.hashes := rfl
@[simp] theorem setValue_kv_keys (v : ScreeDBString) : (l.setValue s v).kv_keys = l.kv_keys := rfl
@[simp] theorem setValue_next (v : ScreeDBString) : (l.setValue s v).next = l.next := rfl

@[simp] theorem setNext_next (n : Option Nat) : (l.setNext n).next = n := rfl
@[simp] theorem setNext_hashes (n : Option Nat) : (l.setNext n).hashes = l.hashes := rfl
@[simp] theorem setNext_kv_keys (n : Option Nat) : (l.setNext n).kv_keys = l.kv_keys := rfl
@[simp] theorem setNext_kv_values (n : Option Nat) : (l.setNext n).kv_values = l.kv_values := rfl

@[simp] theorem zero_hashes : zero.hashes s = 0 := rfl
@[simp] theorem zero_next : zero.next = none := rfl
@[simp] theorem zero_kv_keys : zero.kv_keys s = .empty := rfl
@[simp] theorem zero_kv_values : zero.kv_values s = .empty := rfl

end ScreeDBLeaf

/-- `ScreeDBRoot`: the session counters and the head of the list of leaves. -/
structure ScreeDBRoot where
  opened : UInt64
  closed : UInt64
  head : Option Nat
  deriving DecidableEq

/-- The image of the pool: the root object and the leaves by address. Every address below
`alloc` has been handed out by `make_persistent<ScreeDBLeaf>`. -/
structure Pool where
  root : ScreeDBRoot
  leaves : Nat → ScreeDBLeaf
  alloc : Nat

namespace Pool

/-- `pool<ScreeDBRoot>::create`: a zeroed root and no leaves. -/
def fresh : Pool := ⟨⟨0, 0, none⟩, fun _ => .zero, 0⟩

/-- Apply `f` to the leaf at address `a`. -/
def modifyLeaf (p : Pool) (a : Nat) (f : ScreeDBLeaf → ScreeDBLeaf) : Pool :=
  { p with leaves := Function.update p.leaves a (f (p.leaves a)) }

/-- `make_persistent<ScreeDBLeaf>()`: a zeroed leaf at the next address. -/
def allocLeaf (p : Pool) : Nat × Pool :=
  (p.alloc, { p with leaves := Function.update p.leaves p.alloc .zero, alloc := p.alloc + 1 })

def setHead (p : Pool) (h : Option Nat) : Pool := { p with root := { p.root with head := h } }

def setOpened (p : Pool) (n : UInt64) : Pool := { p with root := { p.root with opened := n } }

def setClosed (p : Pool) (n : UInt64) : Pool := { p with root := { p.root with closed := n } }

variable (p : Pool) (a b : Nat) (f : ScreeDBLeaf → ScreeDBLeaf)

@[simp] theorem modifyLeaf_leaves :
    (p.modifyLeaf a f).leaves b = if b = a then f (p.leaves a) else p.leaves b := by
  simp [modifyLeaf, Function.update_apply]

theorem modifyLeaf_modifyLeaf (g : ScreeDBLeaf → ScreeDBLeaf) :
    (p.modifyLeaf a f).modifyLeaf a g = p.modifyLeaf a (fun l => g (f l)) := by
  simp [modifyLeaf, Function.update_idem]

/-- Only what `f` does to the leaf at `a` matters. -/
theorem modifyLeaf_congr {g : ScreeDBLeaf → ScreeDBLeaf} (h : f (p.leaves a) = g (p.leaves a)) :
    p.modifyLeaf a f = p.modifyLeaf a g := by
  simp [modifyLeaf, h]

/-- A write that leaves the leaf as it is leaves the pool as it is. -/
theorem modifyLeaf_of_eq (h : f (p.leaves a) = p.leaves a) : p.modifyLeaf a f = p := by
  simp [modifyLeaf, h]

@[simp] theorem modifyLeaf_root : (p.modifyLeaf a f).root = p.root := rfl
@[simp] theorem modifyLeaf_alloc : (p.modifyLeaf a f).alloc = p.alloc := rfl

@[simp] theorem allocLeaf_fst : p.allocLeaf.1 = p.alloc := rfl

@[simp] theorem allocLeaf_leaves :
    p.allocLeaf.2.leaves b = if b = p.alloc then .zero else p.leaves b := by
  simp [allocLeaf, Function.update_apply]

@[simp] theorem allocLeaf_root : p.allocLeaf.2.root = p.root := rfl
@[simp] theorem allocLeaf_alloc : p.allocLeaf.2.alloc = p.alloc + 1 := rfl

@[simp] theorem setHead_root_head (h : Option Nat) : (p.setHead h).root.head = h := rfl
@[simp] theorem setHead_root_opened (h : Option Nat) : (p.setHead h).root.opened = p.root.opened :=
  rfl
@[simp] theorem setHead_root_closed (h : Option Nat) : (p.setHead h).root.closed = p.root.closed :=
  rfl
@[simp] theorem setHead_leaves (h : Option Nat) : (p.setHead h).leaves = p.leaves := rfl
@[simp] theorem setHead_alloc (h : Option Nat) : (p.setHead h).alloc = p.alloc := rfl

@[simp] theorem setOpened_root (n : UInt64) : (p.setOpened n).root = { p.root with opened := n } :=
  rfl
@[simp] theorem setOpened_leaves (n : UInt64) : (p.setOpened n).leaves = p.leaves := rfl
@[simp] theorem setOpened_alloc (n : UInt64) : (p.setOpened n).alloc = p.alloc := rfl

@[simp] theorem setClosed_root (n : UInt64) : (p.setClosed n).root = { p.root with closed := n } :=
  rfl
@[simp] theorem setClosed_leaves (n : UInt64) : (p.setClosed n).leaves = p.leaves := rfl
@[simp] theorem setClosed_alloc (n : UInt64) : (p.setClosed n).alloc = p.alloc := rfl

end Pool

/-! ## Volatile structures -/

/-- The shape of the volatile tree: `ScreeDBInnerNode`s with their keys and children, and
`ScreeDBLeafNode`s by id. -/
inductive ScreeDBNode where
  | inner (id : Nat) (keys : List CStr) (children : List ScreeDBNode)
  | leaf (id : Nat)

namespace ScreeDBNode

/-- Induction over the tree, with the hypothesis for every child of an inner node. -/
@[elab_as_elim, induction_eliminator]
theorem rec' {motive : ScreeDBNode → Prop} (leaf : ∀ id, motive (.leaf id))
    (inner : ∀ id keys children, (∀ c ∈ children, motive c) → motive (.inner id keys children)) :
    ∀ n, motive n
  | .leaf id => leaf id
  | .inner id keys children => inner id keys children fun c _ => rec' leaf inner c

/-- The node's address. -/
def id : ScreeDBNode → Nat
  | .inner id _ _ => id
  | .leaf id => id

@[simp] theorem id_inner (i : Nat) (ks : List CStr) (cs : List ScreeDBNode) :
    (inner i ks cs).id = i := rfl

@[simp] theorem id_leaf (i : Nat) : (leaf i).id = i := rfl

end ScreeDBNode

/-- Volatile memory: the tree under `top_` and the node fields by node id. -/
structure Volatile where
  top_ : Option ScreeDBNode
  parent : Nat → Option Nat
  hashes : Nat → Slot → UInt8
  leaf : Nat → Nat
  next_id : Nat

namespace Volatile

/-- The volatile memory of a new `ScreeDBTree`: `top_ = nullptr`, no nodes. -/
def empty : Volatile := ⟨none, fun _ => none, fun _ _ => 0, fun _ => 0, 0⟩

def setParent (v : Volatile) (n : Nat) (p : Option Nat) : Volatile :=
  { v with parent := Function.update v.parent n p }

/-- `leafnode->hashes[slot] = h`. -/
def setHash (v : Volatile) (n : Nat) (s : Slot) (h : UInt8) : Volatile :=
  { v with hashes := Function.update v.hashes n (Function.update (v.hashes n) s h) }

/-- `leafnode->hashes[slot] = hs[slot]` for every slot. -/
def setHashes (v : Volatile) (n : Nat) (hs : Slot → UInt8) : Volatile :=
  { v with hashes := Function.update v.hashes n hs }

/-- `leafnode->leaf = a`. -/
def setLeafPtr (v : Volatile) (n a : Nat) : Volatile :=
  { v with leaf := Function.update v.leaf n a }

/-- `new ScreeDBLeafNode()` with `parent` set: value-initialized, so every cached hash is `0`. -/
def newLeafNode (v : Volatile) (p : Option Nat) : Nat × Volatile :=
  (v.next_id,
    { v with
      parent := Function.update v.parent v.next_id p
      hashes := Function.update v.hashes v.next_id fun _ => 0
      next_id := v.next_id + 1 })

/-- `new ScreeDBInnerNode()` with `parent` set. -/
def newInnerNode (v : Volatile) (p : Option Nat) : Nat × Volatile :=
  (v.next_id, { v with parent := Function.update v.parent v.next_id p, next_id := v.next_id + 1 })

def setTop (v : Volatile) (t : Option ScreeDBNode) : Volatile := { v with top_ := t }

variable (v : Volatile) (n m : Nat) (s t : Slot)

@[simp] theorem setParent_parent (p : Option Nat) :
    (v.setParent n p).parent m = if m = n then p else v.parent m := by
  simp [setParent, Function.update_apply]

@[simp] theorem setParent_top_ (p : Option Nat) : (v.setParent n p).top_ = v.top_ := rfl
@[simp] theorem setParent_hashes (p : Option Nat) : (v.setParent n p).hashes = v.hashes := rfl
@[simp] theorem setParent_leaf (p : Option Nat) : (v.setParent n p).leaf = v.leaf := rfl
@[simp] theorem setParent_next_id (p : Option Nat) : (v.setParent n p).next_id = v.next_id := rfl

@[simp] theorem setHash_hashes (h : UInt8) :
    (v.setHash n s h).hashes m t = if m = n ∧ t = s then h else v.hashes m t := by
  by_cases hm : m = n
  · subst hm; by_cases ht : t = s <;> simp [setHash, ht]
  · simp [setHash, hm]

@[simp] theorem setHash_top_ (h : UInt8) : (v.setHash n s h).top_ = v.top_ := rfl
@[simp] theorem setHash_parent (h : UInt8) : (v.setHash n s h).parent = v.parent := rfl
@[simp] theorem setHash_leaf (h : UInt8) : (v.setHash n s h).leaf = v.leaf := rfl
@[simp] theorem setHash_next_id (h : UInt8) : (v.setHash n s h).next_id = v.next_id := rfl

/-- Caching the hash a slot already has changes nothing. -/
theorem setHash_same : v.setHash n s (v.hashes n s) = v := by
  simp [setHash]

@[simp] theorem setHashes_hashes (hs : Slot → UInt8) :
    (v.setHashes n hs).hashes m = if m = n then hs else v.hashes m := by
  simp [setHashes, Function.update_apply]

@[simp] theorem setHashes_top_ (hs : Slot → UInt8) : (v.setHashes n hs).top_ = v.top_ := rfl
@[simp] theorem setHashes_parent (hs : Slot → UInt8) : (v.setHashes n hs).parent = v.parent := rfl
@[simp] theorem setHashes_leaf (hs : Slot → UInt8) : (v.setHashes n hs).leaf = v.leaf := rfl
@[simp] theorem setHashes_next_id (hs : Slot → UInt8) :
    (v.setHashes n hs).next_id = v.next_id := rfl

@[simp] theorem setLeafPtr_leaf (a : Nat) :
    (v.setLeafPtr n a).leaf m = if m = n then a else v.leaf m := by
  simp [setLeafPtr, Function.update_apply]

@[simp] theorem setLeafPtr_top_ (a : Nat) : (v.setLeafPtr n a).top_ = v.top_ := rfl
@[simp] theorem setLeafPtr_parent (a : Nat) : (v.setLeafPtr n a).parent = v.parent := rfl
@[simp] theorem setLeafPtr_hashes (a : Nat) : (v.setLeafPtr n a).hashes = v.hashes := rfl
@[simp] theorem setLeafPtr_next_id (a : Nat) : (v.setLeafPtr n a).next_id = v.next_id := rfl

@[simp] theorem newLeafNode_fst (p : Option Nat) : (v.newLeafNode p).1 = v.next_id := rfl

@[simp] theorem newLeafNode_parent (p : Option Nat) :
    (v.newLeafNode p).2.parent m = if m = v.next_id then p else v.parent m := by
  simp [newLeafNode, Function.update_apply]

@[simp] theorem newLeafNode_hashes (p : Option Nat) :
    (v.newLeafNode p).2.hashes m = if m = v.next_id then fun _ => 0 else v.hashes m := by
  simp [newLeafNode, Function.update_apply]

@[simp] theorem newLeafNode_top_ (p : Option Nat) : (v.newLeafNode p).2.top_ = v.top_ := rfl
@[simp] theorem newLeafNode_leaf (p : Option Nat) : (v.newLeafNode p).2.leaf = v.leaf := rfl
@[simp] theorem newLeafNode_next_id (p : Option Nat) :
    (v.newLeafNode p).2.next_id = v.next_id + 1 := rfl

@[simp] theorem newInnerNode_fst (p : Option Nat) : (v.newInnerNode p).1 = v.next_id := rfl

@[simp] theorem newInnerNode_parent (p : Option Nat) :
    (v.newInnerNode p).2.parent m = if m = v.next_id then p else v.parent m := by
  simp [newInnerNode, Function.update_apply]

@[simp] theorem newInnerNode_top_ (p : Option Nat) : (v.newInnerNode p).2.top_ = v.top_ := rfl
@[simp] theorem newInnerNode_hashes (p : Option Nat) :
    (v.newInnerNode p).2.hashes = v.hashes := rfl
@[simp] theorem newInnerNode_leaf (p : Option Nat) : (v.newInnerNode p).2.leaf = v.leaf := rfl
@[simp] theorem newInnerNode_next_id (p : Option Nat) :
    (v.newInnerNode p).2.next_id = v.next_id + 1 := rfl

@[simp] theorem setTop_top_ (o : Option ScreeDBNode) : (v.setTop o).top_ = o := rfl
@[simp] theorem setTop_parent (o : Option ScreeDBNode) : (v.setTop o).parent = v.parent := rfl
@[simp] theorem setTop_hashes (o : Option ScreeDBNode) : (v.setTop o).hashes = v.hashes := rfl
@[simp] theorem setTop_leaf (o : Option ScreeDBNode) : (v.setTop o).leaf = v.leaf := rfl
@[simp] theorem setTop_next_id (o : Option ScreeDBNode) : (v.setTop o).next_id = v.next_id := rfl

end Volatile

/-- A running tree: the pool image and the volatile index, on the transaction machine. -/
abbrev Tree := Txn.Machine Pool Volatile

/-- A program of `ScreeDBTree`. -/
abbrev TreeM (α : Type) := Txn.Prog Pool Volatile α

/-- RocksDB statuses that ScreeDB returns. -/
inductive Status where
  | ok
  | notFound
  deriving DecidableEq, Repr

end ScreeDB
