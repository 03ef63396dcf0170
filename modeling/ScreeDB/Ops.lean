import ScreeDB.Leaf
import ScreeDB.Index

/-!
# Key/value methods of `ScreeDBTree` (`screedb.cc`: `Put`, `Delete`, `Get`, `MultiGet`, `LeafSplit`)

* `put`: the first `Put` on an empty index links a new head leaf holding the pair in slot 0;
  otherwise the pair goes into the leaf `LeafSearch` finds (`leafFillSlotForKey`), and a full
  leaf is split (`leafSplit`).
* `leafSplit`: sorts the leaf's 48 keys and the new one, splits at the 25th, moves every slot
  above it to the same slot of a new persistent leaf, puts the new pair on its side, prepends the
  new leaf to the list, all in one transaction; then hands the split key up the volatile index.
* `delete`: clears the cached hash of the matching slot, then the persistent hash in a
  transaction.
* `get`, `multiGet`: read-only; `get` appends the stored value to `*value`.

The hash of a key is `PearsonHash(key.data_, key.size_)` (`Slice.hash`), which reads the process
image `rodata` where its table index leaves the table.
-/

namespace ScreeDB

/-- A `new` volatile node: `f` allocates it and returns its id. -/
def newNode (f : Volatile → Nat × Volatile) : TreeM Nat := do
  let v ← Txn.readV
  Txn.modifyV fun _ => (f v).2
  return (f v).1

/-! ## `LeafSplit` -/

/-- The keys `LeafSplit` sorts: `keys[slot]` for every slot, then `keys[NODE_KEYS] = key`. -/
def splitKeys (leaf : ScreeDBLeaf) (key : CStr) : List CStr :=
  (List.finRange NODE_KEYS).map (fun s => (leaf.kv_keys s).data) ++ [key]

/-- `std::sort` of the key pointers by `strcmp(lhs, rhs) < 0`: on C strings the sorted sequence of
strings is the same for every sorting algorithm, stable or not. -/
def sortKeys (keys : List CStr) : List CStr :=
  keys.mergeSort fun a b => decide (strcmp a.bytes b.bytes ≤ 0)

/-- `split_key = keys[NODE_KEYS_MIDPOINT]` after the sort. -/
def splitKey (leaf : ScreeDBLeaf) (key : CStr) : CStr :=
  (sortKeys (splitKeys leaf key)).getD NODE_KEYS_MIDPOINT default

/-- The slot loop of `LeafSplit`'s transaction over `ss`: a slot whose key sorts above
`split_key` moves to the same slot of the new leaf (a short string is copied, a long one
swapped), with its hash in both copies, and both hashes of the old slot become `0`. -/
def moveSlots (leafnode new_leafnode leaf new_leaf : Nat) (split_key : CStr) :
    List Slot → TreeM Unit
  | [] => pure ()
  | slot :: ss => do
    let p ← Txn.readP
    let slot_key := (p.leaves leaf).kv_keys slot
    if 0 < strcmp slot_key.data.bytes split_key.bytes then do
      if slot_key.is_short then setString .kv_keys new_leaf slot (Slice.ofCStr slot_key.data)
      else swapString .kv_keys new_leaf leaf slot
      let p ← Txn.readP
      let slot_value := (p.leaves leaf).kv_values slot
      if slot_value.is_short then setString .kv_values new_leaf slot (Slice.ofCStr slot_value.data)
      else swapString .kv_values new_leaf leaf slot
      let v ← Txn.readV
      Txn.modifyV (·.setHash new_leafnode slot (v.hashes leafnode slot))
      Txn.store (·.modifyLeaf new_leaf (·.setHash slot (v.hashes leafnode slot)))
      Txn.modifyV (·.setHash leafnode slot 0)
      Txn.store (·.modifyLeaf leaf (·.setHash slot 0))
    moveSlots leafnode new_leafnode leaf new_leaf split_key ss

/-- `LeafSplit(leafnode, hash, key, value)`. -/
def leafSplit (leafnode : Nat) (hash : UInt8) (key value : Slice) : TreeM Unit := do
  let v ← Txn.readV
  let p ← Txn.readP
  let leaf := v.leaf leafnode
  let split_key := splitKey (p.leaves leaf) key.cstr
  let new_leafnode ← newNode (·.newLeafNode (v.parent leafnode))
  let old_head := p.root.head
  Txn.exec_tx do
    let new_leaf ← Txn.alloc Pool.allocLeaf
    Txn.store (·.modifyLeaf new_leaf (·.setNext old_head))
    Txn.modifyV (·.setLeafPtr new_leafnode new_leaf)
    moveSlots leafnode new_leafnode leaf new_leaf split_key slotsDown
    let target := if 0 < strcmp key.cstr.bytes split_key.bytes then new_leafnode else leafnode
    leafFillFirstEmptySlot target hash key value
    Txn.store (·.setHead (some new_leaf))
  -- the volatile parents are updated outside the transaction
  Txn.modifyV fun v => leafUpdateParentsAfterSplit v.walkFuel v leafnode (.leaf new_leafnode) split_key

/-! ## `Put`, `Delete`, `Get`, `MultiGet` -/

section Methods

variable (rodata : Int → UInt8)

/-- `Put(key, value)`. -/
def put (key value : Slice) : TreeM Status := do
  let hash := key.hash rodata
  let v ← Txn.readV
  match leafSearch v key with
  | none =>
    -- add a head leaf
    let leafnode ← newNode (·.newLeafNode none)
    let p ← Txn.readP
    let old_head := p.root.head
    Txn.exec_tx do
      let new_leaf ← Txn.alloc Pool.allocLeaf
      Txn.store (·.modifyLeaf new_leaf (·.setNext old_head))
      Txn.modifyV (·.setLeafPtr leafnode new_leaf)
      leafFillSpecificSlot leafnode hash key value ⟨0, by decide⟩
      Txn.store (·.setHead (some new_leaf))
    Txn.modifyV (·.setTop (some (.leaf leafnode)))
    return .ok
  | some leafnode =>
    if ← leafFillSlotForKey leafnode hash key value then return .ok
    else
      leafSplit leafnode hash key value
      return .ok

/-- `Delete(key)`. -/
def delete (key : Slice) : TreeM Status := do
  let v ← Txn.readV
  match leafSearch v key with
  | none => return .ok
  | some leafnode =>
    let hash := key.hash rodata
    let p ← Txn.readP
    let leaf := v.leaf leafnode
    match matchSlot (v.hashes leafnode) (p.leaves leaf) hash key.cstr with
    | some slot =>
      Txn.modifyV (·.setHash leafnode slot 0)
      Txn.exec_tx (Txn.store (·.modifyLeaf leaf (·.setHash slot 0)))
      return .ok
    | none => return .ok

/-- `Get(key, value)`: the status, and the string `*value` ends with. -/
def get (t : Tree) (key : Slice) (value : List UInt8) : Status × List UInt8 :=
  match leafSearch t.vm key with
  | none => (.notFound, value)
  | some leafnode =>
    let leaf := t.pm.leaves (t.vm.leaf leafnode)
    match matchSlot (t.vm.hashes leafnode) leaf (key.hash rodata) key.cstr with
    | some slot => (.ok, value ++ (leaf.kv_values slot).data.bytes)
    | none => (.notFound, value)

/-- `MultiGet(keys, values)`: one `Get(key.data_, &value)` per key, into an empty string; the
statuses, and `*values` with one string pushed back per key. -/
def multiGet (t : Tree) (keys : List Slice) (values : List (List UInt8)) :
    List Status × List (List UInt8) :=
  let rs := keys.map fun key => get rodata t (Slice.ofCharPtr key.data_) []
  (rs.map (·.1), values ++ rs.map fun r => if r.1 = .ok then r.2 else [])

end Methods

end ScreeDB
