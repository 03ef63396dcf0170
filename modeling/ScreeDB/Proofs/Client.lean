import ScreeDB.Lifecycle
import ScreeDB.Proofs.Slots

/-!
# What a client of `ScreeDB` sees beyond the map

Four behaviours of the code that a client meets outside the map contract of C string keys and
values:

* `MultiGet` pushes one string per key onto `*values` and never clears it first, so `*values`
  ends with its old strings followed by one per key (`multiGet_values_length`); for C string keys
  and an empty `*values` it is `Get` key by key (`multiGet_get`);
* stored strings are C strings: `ScreeDBString::set` copies `data_` up to its first `0x00` and
  `Get` appends `data()` as a C string, so a value with an inner `0x00` comes back cut there
  (`get_truncates_value`);
* an aborted transaction restores the image but not the volatile memory written before or inside
  it: `Delete` clears the cached hash before its transaction, so after an abort the session no
  longer finds a key that is still stored (`delete_abort_hides_key`);
* `Recover` takes a pool whose list of leaves is empty for a new one and sets `opened = 1`,
  `closed = 0` again (`recover_resets_counters`).

The runs on fixed inputs use the process image `fun _ => 0`; the hash of a one-byte key never
reads outside the table, so any other image gives the same runs.
-/

namespace ScreeDB

/-! ## `MultiGet` -/

section MultiGet

variable (rodata : Int → UInt8) (t : Tree)

/-- `MultiGet` returns one status per key, -/
theorem multiGet_statuses_length (keys : List Slice) (values : List (List UInt8)) :
    (multiGet rodata t keys values).1.length = keys.length := by
  simp [multiGet]

/-- and leaves `*values` with its old strings followed by one per key. -/
theorem multiGet_values_eq (keys : List Slice) (values : List (List UInt8)) :
    (multiGet rodata t keys values).2 = values ++ (multiGet rodata t keys []).2 := by
  simp [multiGet]

/-- `*values` is not resized to the number of keys: it grows by one string per key. -/
theorem multiGet_values_length (keys : List Slice) (values : List (List UInt8)) :
    (multiGet rodata t keys values).2.length = values.length + keys.length := by
  simp [multiGet]

/-- `Slice(key.data_)` is the key itself for a C string key. -/
theorem Slice.IsCStr.ofCharPtr_eq {key : Slice} (hk : key.IsCStr) :
    Slice.ofCharPtr key.data_ = key := by
  cases key
  simp only [Slice.IsCStr] at hk
  simp [Slice.ofCharPtr, hk]

/-- For C string keys, `MultiGet` into an empty `*values` is `Get` key by key: its status, and
its value when found, else the empty string. -/
theorem multiGet_get {keys : List Slice} (hk : ∀ key ∈ keys, key.IsCStr) :
    multiGet rodata t keys [] =
      (keys.map fun key => (get rodata t key []).1,
        keys.map fun key => if (get rodata t key []).1 = .ok then (get rodata t key []).2 else []) := by
  have hmap : (keys.map fun key => get rodata t (Slice.ofCharPtr key.data_) []) =
      keys.map fun key => get rodata t key [] :=
    List.map_congr_left fun key hkey => by rw [(hk key hkey).ofCharPtr_eq]
  simp only [multiGet, hmap, List.nil_append, List.map_map]
  rfl

end MultiGet

/-! ## Runs on fixed inputs -/

/-- The key `"a"`, and the values `"b"` and `"b\0c"` (three bytes). -/
def keyA : Slice := ⟨[97, 0], 1, by decide⟩

def valueB : Slice := ⟨[98, 0], 1, by decide⟩

def valueBNulC : Slice := ⟨[98, 0, 99, 0], 3, by decide⟩

/-- A three-byte value stored under `"a"` on a new pool comes back as its first byte. -/
theorem get_truncates_value :
    (runCmds (fun _ => 0) (openTree Pool.fresh) [.put keyA valueBNulC, .get keyA []]).map
      (·.status) = [some .ok, some .ok] ∧
    (runCmds (fun _ => 0) (openTree Pool.fresh) [.put keyA valueBNulC, .get keyA []]).map
      (·.value) = [[], [98]] ∧
    valueBNulC.view = [98, 0, 99] := by
  decide

/-- The tree after `Put("a", "b")` on a new pool. -/
def storedA : Tree := (Cmd.step (fun _ => 0) (openTree Pool.fresh) (.put keyA valueB)).2

/-- A `Delete("a")` whose snapshot fails throws with the image restored, but the cached hash it
cleared before the transaction stays cleared: `Get("a")` finds `"b"` before, nothing after in the
same session, and `"b"` again after a reopen. -/
theorem delete_abort_hides_key :
    get (fun _ => 0) storedA keyA [] = (.ok, [98]) ∧
    (exec (delete (fun _ => 0) keyA) { storedA with budget := some 0 }).1 = none ∧
    get (fun _ => 0) (exec (delete (fun _ => 0) keyA) { storedA with budget := some 0 }).2 keyA [] =
      (.notFound, []) ∧
    get (fun _ => 0) (openTree (closeTree
      (exec (delete (fun _ => 0) keyA) { storedA with budget := some 0 }).2)) keyA [] =
      (.ok, [98]) := by
  decide +kernel

/-- Two sessions on a new pool, the first closed by `Shutdown` with nothing stored: the second
`Recover` sees no leaf and counts one opening and no close. -/
theorem recover_resets_counters :
    (openTree (closeTree (openTree Pool.fresh))).pm.root.opened = 1 ∧
    (openTree (closeTree (openTree Pool.fresh))).pm.root.closed = 0 := by
  decide

end ScreeDB
