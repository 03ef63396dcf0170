import ScreeDB.Layout

/-!
# Slot operations of a leaf (`screedb.cc`: `Get`, `Delete`, `LeafFill*`)

Every loop over the slots of a leaf node runs from the last slot down (`slotsDown`) and reads
the hash cache of the volatile node before it reads the key of the persistent leaf:

* `matchSlot`: the loop of `Get` and `Delete`, which stops at the first slot whose cached hash is
  the key's hash and whose key `strcmp`s equal;
* `slotScan`: the loop of `LeafFillSlotForKey`, which remembers the last free slot it passed and
  stops at a matching key;
* `firstEmptySlot`: the loop of `LeafFillFirstEmptySlot`.

`leafFillSpecificSlot` writes one slot in the order of the source: the key (only into a free
slot), the cached hash, the persistent hash, the value. Each persistent write is a store of the
transaction machine (`ScreeDB.Txn`), so a failing snapshot or allocation can stop it anywhere.
-/

namespace ScreeDB

/-! ## The slot loops -/

section Scans

variable (cache : Slot → UInt8) (leaf : ScreeDBLeaf) (hash : UInt8) (key : CStr)

/-- Slot `s` holds `key` as the loops test it: cached hash `hash`, key `strcmp`-equal. -/
def slotMatches (s : Slot) : Bool :=
  cache s == hash && strcmp (leaf.kv_keys s).data.bytes key.bytes == 0

/-- The loop of `Get` and `Delete`: the first matching slot from the last down. -/
def matchSlot : Option Slot := slotsDown.find? (slotMatches cache leaf hash key)

/-- The loop of `LeafFillSlotForKey` over the slots `ss`, given the last free slot seen so far:
the last free slot it passes, and the matching slot it breaks at. -/
def slotScan : List Slot → Option Slot → Option Slot × Option Slot
  | [], last_empty_slot => (last_empty_slot, none)
  | s :: ss, last_empty_slot =>
    if cache s = 0 then slotScan ss (some s)
    else if slotMatches cache leaf hash key s then (last_empty_slot, some s)
    else slotScan ss last_empty_slot

/-- The loop of `LeafFillFirstEmptySlot`: the first free slot from the last down. -/
def firstEmptySlot : Option Slot := slotsDown.find? (cache · = 0)

end Scans

/-! ## Writing strings -/

/-- The two string arrays of a leaf. -/
inductive Column where
  | kv_keys
  | kv_values

namespace ScreeDBLeaf

def column (l : ScreeDBLeaf) : Column → Slot → ScreeDBString
  | .kv_keys => l.kv_keys
  | .kv_values => l.kv_values

def setColumn (l : ScreeDBLeaf) : Column → Slot → ScreeDBString → ScreeDBLeaf
  | .kv_keys => l.setKey
  | .kv_values => l.setValue

@[simp] theorem column_kv_keys (l : ScreeDBLeaf) : l.column .kv_keys = l.kv_keys := rfl
@[simp] theorem column_kv_values (l : ScreeDBLeaf) : l.column .kv_values = l.kv_values := rfl
@[simp] theorem setColumn_kv_keys (l : ScreeDBLeaf) : l.setColumn .kv_keys = l.setKey := rfl
@[simp] theorem setColumn_kv_values (l : ScreeDBLeaf) : l.setColumn .kv_values = l.setValue := rfl

theorem setColumn_column (l : ScreeDBLeaf) (c : Column) (s : Slot) :
    l.setColumn c s (l.column c s) = l := by
  cases c <;> simp [setColumn, column, setKey, setValue]

end ScreeDBLeaf

/-- `leaf->c[slot].get_rw().set(slice)` at the leaf at address `a`: the snapshot of `get_rw`, then
`set`, which frees the long string it replaces and allocates for a long one; each of these
steps can fail, and a failed one writes nothing. The snapshot of the buffer inside `set`
(`pmemobj_tx_add_range_direct`) is not a step here: `set` ignores its result and copies into the
buffer even when it failed, a write outside the aborted transaction that this model leaves out. -/
def setString (c : Column) (a : Nat) (slot : Slot) (slice : Slice) : TreeM Unit := do
  Txn.fallible
  let p ← Txn.readP
  let s := (p.leaves a).column c slot
  if s.str.isSome then Txn.fallible
  if SSO_CHARS < slice.size_ then Txn.fallible
  Txn.modifyP (·.modifyLeaf a (·.setColumn c slot (s.set slice)))

/-- `new_leaf->c[slot].swap(leaf->c[slot])` for the leaves at `a` and `b`: both strings are
snapshotted, then exchanged. -/
def swapString (c : Column) (a b : Nat) (slot : Slot) : TreeM Unit := do
  Txn.fallible
  Txn.fallible
  let p ← Txn.readP
  let sa := (p.leaves a).column c slot
  let sb := (p.leaves b).column c slot
  Txn.modifyP fun p => (p.modifyLeaf a (·.setColumn c slot sb)).modifyLeaf b (·.setColumn c slot sa)

/-! ## Filling slots -/

/-- `LeafFillSpecificSlot(leafnode, hash, key, value, slot)`. -/
def leafFillSpecificSlot (leafnode : Nat) (hash : UInt8) (key value : Slice) (slot : Slot) :
    TreeM Unit := do
  let v ← Txn.readV
  let leaf := v.leaf leafnode
  if v.hashes leafnode slot = 0 then setString .kv_keys leaf slot (Slice.ofCharPtr key.data_)
  Txn.modifyV (·.setHash leafnode slot hash)
  Txn.store (·.modifyLeaf leaf (·.setHash slot hash))
  setString .kv_values leaf slot (Slice.ofCharPtr value.data_)

/-- `LeafFillFirstEmptySlot(leafnode, hash, key, value)`: nothing when no slot is free. -/
def leafFillFirstEmptySlot (leafnode : Nat) (hash : UInt8) (key value : Slice) : TreeM Unit := do
  let v ← Txn.readV
  match firstEmptySlot (v.hashes leafnode) with
  | some slot => leafFillSpecificSlot leafnode hash key value slot
  | none => pure ()

/-- `LeafFillSlotForKey(leafnode, hash, key, value)`: the slot holding `key` if there is one,
else the last free slot the scan passed, filled in a transaction; `false` when there is
neither. -/
def leafFillSlotForKey (leafnode : Nat) (hash : UInt8) (key value : Slice) : TreeM Bool := do
  let v ← Txn.readV
  let p ← Txn.readP
  let (last_empty_slot, key_match_slot) :=
    slotScan (v.hashes leafnode) (p.leaves (v.leaf leafnode)) hash key.cstr slotsDown none
  match key_match_slot.or last_empty_slot with
  | some slot => do
    Txn.exec_tx (leafFillSpecificSlot leafnode hash key value slot)
    return true
  | none => return false

end ScreeDB
