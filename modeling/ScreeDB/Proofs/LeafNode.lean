import ScreeDB.Lifecycle
import ScreeDB.Proofs.Update
import ScreeDB.Proofs.Client

/-!
# The slot operations of a leaf node

The slot loops of `Get`, `Delete` and `LeafFillSlotForKey` read a leaf node's hash cache and the
keys of its persistent leaf: a slot is occupied when its cached hash is not `0`. The leaf they see
is the persistent leaf with the cache for hashes (`ScreeDBLeaf.withHashes`), and the leaf part of
the invariant is `LeafOK` of that view. For a key given as a C string (`Slice.IsCStr`):

* `cachedScan_eq_some`: the scan of `Get` and `Delete` finds exactly the slot that holds the key,
  never a free slot, though a freed slot keeps its key string;
* `delete_frees_slot`: `Delete` frees that slot in both hash copies and leaves the key string,
  which the scan then passes by;
* `leafFillSlotForKey_false_iff`, `leafFillSlotForKey_writes`: `LeafFillSlotForKey` returns `false`
  exactly when every slot holds another key; otherwise it writes the slot holding the key, or a
  free one when none does, in both hash copies, and leaves every other slot and the invariant as
  they were (`SlotWrite`).

A key with a `0x00` inside is stored cut there, tagged with the hash of all its bytes
(`fill_nul_key_breaks_leaf`).
-/

namespace ScreeDB

open Txn ScreeDBLeaf

/-! ## The leaf as a leaf node sees it -/

namespace ScreeDBLeaf

/-- The leaf with the hash cache `hs` for hashes: what the slot loops of a leaf node read. -/
def withHashes (l : ScreeDBLeaf) (hs : Slot → UInt8) : ScreeDBLeaf := { l with hashes := hs }

variable (l : ScreeDBLeaf) (hs : Slot → UInt8)

@[simp] theorem withHashes_hashes : (l.withHashes hs).hashes = hs := rfl
@[simp] theorem withHashes_kv_keys : (l.withHashes hs).kv_keys = l.kv_keys := rfl
@[simp] theorem withHashes_kv_values : (l.withHashes hs).kv_values = l.kv_values := rfl

variable {l hs} {slot : Slot}

/-- A write of one slot in both copies is the write of the slot in the view. -/
theorem fillSlot_withHashes (free : Bool) (hash : UInt8) (key value : Slice) :
    (l.fillSlot free slot hash key value).withHashes (Function.update hs slot hash) =
      (l.withHashes hs).fillSlot free slot hash key value := by
  unfold fillSlot withHashes
  cases free <;> simp [setHash, setKey, setValue]

theorem setHash_withHashes (hash : UInt8) :
    (l.setHash slot hash).withHashes (Function.update hs slot hash) =
      (l.withHashes hs).setHash slot hash := rfl

/-- A leaf with one occupied slot, tagged with its key's hash, is well-formed. -/
theorem leafOK_of_single {rodata : Int → UInt8} (slot : Slot) (hone : ∀ t, l.hashes t ≠ 0 → t = slot)
    (hh : l.hashes slot ≠ 0 → l.hashes slot = keyHash rodata (l.kv_keys slot).data) :
    LeafOK rodata l := by
  refine ⟨fun t t' k ht ht' => (hone t ht.1).trans (hone t' ht'.1).symm, fun t ht => ?_⟩
  obtain rfl := hone t ht
  exact hh ht

end ScreeDBLeaf

theorem Volatile.setHash_hashes_self (v : Volatile) (n : Nat) (s : Slot) (h : UInt8) :
    (v.setHash n s h).hashes n = Function.update (v.hashes n) s h := by
  simp [Volatile.setHash]

/-! ## The scans -/

section Scans

variable {rodata : Int → UInt8} {c : Slot → UInt8} {l : ScreeDBLeaf} {hash : UInt8} {k : CStr}

/-- The scans read the persistent leaf for its keys only. -/
theorem matchSlot_withHashes : matchSlot (l.withHashes c).hashes (l.withHashes c) hash k =
    matchSlot c l hash k := rfl

theorem slotScan_withHashes :
    ∀ (ss : List Slot) (e : Option Slot),
      slotScan (l.withHashes c).hashes (l.withHashes c) hash k ss e = slotScan c l hash k ss e
  | [], _ => rfl
  | s :: ss, e => by
    simp only [slotScan]
    rw [slotScan_withHashes ss, slotScan_withHashes ss]
    rfl

variable {key : Slice}

/-- **The scan of `Get` and `Delete`** finds the slot that holds the key: an occupied slot, so
never a freed slot that still keeps the key string. -/
theorem cachedScan_eq_some (hl : LeafOK rodata (l.withHashes c)) (hk : key.IsCStr) {s : Slot} :
    matchSlot c l (key.hash rodata) key.cstr = some s ↔ (l.withHashes c).HoldsAt s key.cstr := by
  rw [hk.hash_eq, ← matchSlot_withHashes]
  exact matchSlot_eq_some hl

theorem cachedScan_eq_none (hl : LeafOK rodata (l.withHashes c)) (hk : key.IsCStr) :
    matchSlot c l (key.hash rodata) key.cstr = none ↔ ¬ (l.withHashes c).Holds key.cstr := by
  rw [hk.hash_eq, ← matchSlot_withHashes]
  exact matchSlot_eq_none hl

/-- The choice of `LeafFillSlotForKey`'s scan, as `slotScan_choice_some` makes it on the view. -/
theorem cachedScan_choice (hk : key.IsCStr) :
    (slotScan c l (key.hash rodata) key.cstr slotsDown none).2.or
        (slotScan c l (key.hash rodata) key.cstr slotsDown none).1 =
      (slotScan (l.withHashes c).hashes (l.withHashes c) (keyHash rodata key.cstr) key.cstr
        slotsDown none).2.or
        (slotScan (l.withHashes c).hashes (l.withHashes c) (keyHash rodata key.cstr) key.cstr
          slotsDown none).1 := by
  rw [hk.hash_eq, slotScan_withHashes]

end Scans

/-! ## `Delete` on a leaf node -/

section Delete

variable {rodata : Int → UInt8} {p : Pool} {v : Volatile} {cs : List Pool} {n : Nat}
  {key : Slice}

/-- **`Delete`** of a key that the leaf node holds at `s`: both hash copies of `s` become `0` in
one transaction; the key string stays, and the scan no longer finds it. -/
theorem delete_frees_slot (hn : leafSearch v key = some n)
    (hl : LeafOK rodata ((p.leaves (v.leaf n)).withHashes (v.hashes n))) (hk : key.IsCStr)
    {s : Slot} (hs : ((p.leaves (v.leaf n)).withHashes (v.hashes n)).HoldsAt s key.cstr) :
    delete rodata key ⟨p, v, none, cs⟩ = .ok .ok
      ⟨p.modifyLeaf (v.leaf n) (·.setHash s 0), v.setHash n s 0, none,
        p.modifyLeaf (v.leaf n) (·.setHash s 0) :: cs⟩ ∧
      ((p.modifyLeaf (v.leaf n) (·.setHash s 0)).leaves (v.leaf n)).kv_keys s =
        (p.leaves (v.leaf n)).kv_keys s ∧
      matchSlot ((v.setHash n s 0).hashes n) ((p.modifyLeaf (v.leaf n) (·.setHash s 0)).leaves
        (v.leaf n)) (key.hash rodata) key.cstr = none := by
  refine ⟨delete_run_found rodata key hn ((cachedScan_eq_some hl hk).2 hs), by simp, ?_⟩
  -- after the write, the view is the old view with the slot cleared
  have hview : ((p.modifyLeaf (v.leaf n) (·.setHash s 0)).leaves (v.leaf n)).withHashes
      ((v.setHash n s 0).hashes n) = ((p.leaves (v.leaf n)).withHashes (v.hashes n)).setHash s 0 := by
    rw [Volatile.setHash_hashes_self, Pool.modifyLeaf_leaves, if_pos rfl, setHash_withHashes]
  have hl' := hl.clearSlot s
  rw [← hview] at hl'
  rw [cachedScan_eq_none hl' hk, hview]
  rintro ⟨t, ht⟩
  exact (clearSlot_maps hl hs key.cstr _).1 ⟨t, ht, rfl⟩ |>.1 rfl

/-- `Delete` of a key the leaf node does not hold changes nothing. -/
theorem delete_keeps_leaf (hn : leafSearch v key = some n)
    (hl : LeafOK rodata ((p.leaves (v.leaf n)).withHashes (v.hashes n))) (hk : key.IsCStr)
    (hno : ¬ ((p.leaves (v.leaf n)).withHashes (v.hashes n)).Holds key.cstr) :
    delete rodata key ⟨p, v, none, cs⟩ = .ok .ok ⟨p, v, none, cs⟩ :=
  delete_run_absent rodata key hn ((cachedScan_eq_none hl hk).2 hno)

end Delete

/-! ## `LeafFillSlotForKey` -/

/-- What writing `key` and `value` into slot `s` does, for the cache `c` and the leaf `l` before,
`c'` and `l'` after: `s` is the slot for the key (`SlotFor`), both hash copies take the key's
hash, `s` holds the key with the value's text, every other slot is as it was in both copies, and
the leaf as the node sees it stays well-formed. -/
structure SlotWrite (rodata : Int → UInt8) (c : Slot → UInt8) (l : ScreeDBLeaf)
    (c' : Slot → UInt8) (l' : ScreeDBLeaf) (s : Slot) (key value : Slice) : Prop where
  slot : SlotFor (l.withHashes c) s key.cstr
  hash : c' s = key.hash rodata ∧ l'.hashes s = key.hash rodata
  holds : (l'.withHashes c').HoldsAt s key.cstr
  value : (l'.kv_values s).data = value.cstr
  other : ∀ t, t ≠ s → l'.slotAt t = l.slotAt t ∧ c' t = c t
  ok : LeafOK rodata (l'.withHashes c')

section Fill

variable {rodata : Int → UInt8} {p : Pool} {v : Volatile} {cs : List Pool} {n : Nat}
  {key : Slice} (value : Slice)

/-- **`LeafFillSlotForKey` returns `false`** exactly when every slot holds another key; it then
changes nothing. -/
theorem leafFillSlotForKey_false_iff
    (hl : LeafOK rodata ((p.leaves (v.leaf n)).withHashes (v.hashes n))) (hk : key.IsCStr) :
    leafFillSlotForKey n (key.hash rodata) key value ⟨p, v, none, cs⟩ = .ok false ⟨p, v, none, cs⟩ ↔
      ∀ s, v.hashes n s ≠ 0 ∧ ¬ ((p.leaves (v.leaf n)).withHashes (v.hashes n)).HoldsAt s key.cstr := by
  constructor
  · intro h s
    cases hch : (slotScan (v.hashes n) (p.leaves (v.leaf n)) (key.hash rodata) key.cstr slotsDown
      none).2.or (slotScan (v.hashes n) (p.leaves (v.leaf n)) (key.hash rodata) key.cstr slotsDown
      none).1 with
    | some s' =>
      -- a slot to write makes the call return `true`
      rw [leafFillSlotForKey_run_some hch] at h
      cases h
    | none =>
      rw [cachedScan_choice hk] at hch
      obtain ⟨hno, hocc⟩ := slotScan_choice_none hl hch
      exact ⟨by simpa using hocc s, fun hs => hno ⟨s, hs⟩⟩
  · intro hall
    refine leafFillSlotForKey_run_none ?_
    rw [cachedScan_choice hk]
    -- no slot matches and none is free
    have h2 : (slotScan ((p.leaves (v.leaf n)).withHashes (v.hashes n)).hashes
        ((p.leaves (v.leaf n)).withHashes (v.hashes n)) (keyHash rodata key.cstr) key.cstr slotsDown
        none).2 = none := by
      rw [slotScan_snd hl, List.find?_eq_none]
      simpa using fun s _ => (hall s).2
    rw [h2, Option.none_or, slotScan_fst _ _ _ _ _ _ h2, Option.or_none, List.find?_eq_none]
    intro s _ h0
    exact (hall s).1 (of_decide_eq_true h0)

/-- **`LeafFillSlotForKey` with room** writes the slot for the key in one transaction. -/
theorem leafFillSlotForKey_writes
    (hl : LeafOK rodata ((p.leaves (v.leaf n)).withHashes (v.hashes n))) (hk : key.IsCStr)
    (hroom : ∃ s, v.hashes n s = 0 ∨
      ((p.leaves (v.leaf n)).withHashes (v.hashes n)).HoldsAt s key.cstr) :
    ∃ s, leafFillSlotForKey n (key.hash rodata) key value ⟨p, v, none, cs⟩ = .ok true
      ⟨p.modifyLeaf (v.leaf n) (·.fillSlot (v.hashes n s = 0) s (key.hash rodata) key value),
        v.setHash n s (key.hash rodata), none,
        p.modifyLeaf (v.leaf n) (·.fillSlot (v.hashes n s = 0) s (key.hash rodata) key value) ::
          cs⟩ ∧
      SlotWrite rodata (v.hashes n) (p.leaves (v.leaf n)) ((v.setHash n s (key.hash rodata)).hashes n)
        ((p.modifyLeaf (v.leaf n) (·.fillSlot (v.hashes n s = 0) s (key.hash rodata) key
          value)).leaves (v.leaf n)) s key value := by
  set L := (p.leaves (v.leaf n)).withHashes (v.hashes n)
  cases hch : (slotScan (v.hashes n) (p.leaves (v.leaf n)) (key.hash rodata) key.cstr slotsDown
    none).2.or (slotScan (v.hashes n) (p.leaves (v.leaf n)) (key.hash rodata) key.cstr slotsDown
    none).1 with
  | none =>
    -- a free slot or the key's slot is there, so the scan picks one
    have hfalse := (leafFillSlotForKey_false_iff value hl hk).1
      (@leafFillSlotForKey_run_none p v cs n _ key value hch)
    obtain ⟨s, hs⟩ := hroom
    rcases hs with hs | hs
    · exact absurd hs (hfalse s).1
    · exact absurd hs (hfalse s).2
  | some s =>
    have hfor : SlotFor L s key.cstr := by
      rw [cachedScan_choice hk] at hch
      exact slotScan_choice_some hl hch
    -- the view after the write is the view with the slot written
    have hview : ((p.modifyLeaf (v.leaf n) (·.fillSlot (v.hashes n s = 0) s (key.hash rodata) key
        value)).leaves (v.leaf n)).withHashes ((v.setHash n s (key.hash rodata)).hashes n) =
        L.fillSlot (L.hashes s = 0) s (keyHash rodata key.cstr) key value := by
      rw [Volatile.setHash_hashes_self, Pool.modifyLeaf_leaves, if_pos rfl, fillSlot_withHashes,
        hk.hash_eq]
      rfl
    refine ⟨s, leafFillSlotForKey_run_some hch, hfor, ⟨by simp, by simp⟩, ?_, ?_, fun t ht => ?_,
      ?_⟩
    · rw [hview]
      exact hfor.holdsAt_fill _ (keyHash_ne_zero rodata _)
    · simp [fillSlot_value_data]
    · refine ⟨by simpa using fillSlot_slotAt_of_ne _ _ _ _ _ _ _ ht, by simp [ht]⟩
    · rw [hview]
      exact hl.fillSlot hfor

end Fill

/-! ## The three slot loops together, and a leaf node of one key -/

/-- The keys `"a"` and `"a\0b"` (three bytes), and the value `"b"`: the slices of the client's
runs. -/
def slotKeyA : Slice := keyA

def slotKeyANulB : Slice := ⟨[97, 0, 98, 0], 3, by decide⟩

def slotValueB : Slice := valueB

/-- A new pool after `Put("a", "b")`: its only leaf node, `0`, holds `"a"` in slot `0`. -/
def treeA : Tree := (Cmd.step (fun _ => 0) (openTree Pool.fresh) (.put slotKeyA slotValueB)).2

/-- The leaf node of `treeA` is well-formed: slot `0` alone is occupied, by `"a"` with its hash. -/
theorem treeA_leafOK :
    LeafOK (fun _ => 0) ((treeA.pm.leaves (treeA.vm.leaf 0)).withHashes (treeA.vm.hashes 0)) :=
  leafOK_of_single ⟨0, by decide⟩ (by decide) (by decide)

/-- **The slot operations of a leaf node**, for a C string key, on a leaf node whose leaf as it
sees it is well-formed: the scan of `Get` and `Delete` finds exactly the slot holding the key;
`Delete` frees it in both hash copies, and the scan passes the key string it leaves; and
`LeafFillSlotForKey` returns `false` exactly when every slot holds another key, and otherwise
writes the slot holding the key or a free one, leaving the other slots and the invariant. -/
theorem leafSlots_spec {rodata : Int → UInt8} {p : Pool} {v : Volatile} {cs : List Pool}
    {n : Nat} {key : Slice} (value : Slice)
    (hl : LeafOK rodata ((p.leaves (v.leaf n)).withHashes (v.hashes n))) (hk : key.IsCStr) :
    (∀ s, matchSlot (v.hashes n) (p.leaves (v.leaf n)) (key.hash rodata) key.cstr = some s ↔
      ((p.leaves (v.leaf n)).withHashes (v.hashes n)).HoldsAt s key.cstr) ∧
    (leafSearch v key = some n →
      (∀ s, ((p.leaves (v.leaf n)).withHashes (v.hashes n)).HoldsAt s key.cstr →
        delete rodata key ⟨p, v, none, cs⟩ = .ok .ok
          ⟨p.modifyLeaf (v.leaf n) (·.setHash s 0), v.setHash n s 0, none,
            p.modifyLeaf (v.leaf n) (·.setHash s 0) :: cs⟩ ∧
        ((p.modifyLeaf (v.leaf n) (·.setHash s 0)).leaves (v.leaf n)).kv_keys s =
          (p.leaves (v.leaf n)).kv_keys s ∧
        matchSlot ((v.setHash n s 0).hashes n) ((p.modifyLeaf (v.leaf n) (·.setHash s 0)).leaves
          (v.leaf n)) (key.hash rodata) key.cstr = none) ∧
      (¬ ((p.leaves (v.leaf n)).withHashes (v.hashes n)).Holds key.cstr →
        delete rodata key ⟨p, v, none, cs⟩ = .ok .ok ⟨p, v, none, cs⟩)) ∧
    (leafFillSlotForKey n (key.hash rodata) key value ⟨p, v, none, cs⟩ =
        .ok false ⟨p, v, none, cs⟩ ↔
      ∀ s, v.hashes n s ≠ 0 ∧ ¬ ((p.leaves (v.leaf n)).withHashes (v.hashes n)).HoldsAt s key.cstr) ∧
    ((∃ s, v.hashes n s = 0 ∨ ((p.leaves (v.leaf n)).withHashes (v.hashes n)).HoldsAt s key.cstr) →
      ∃ s, leafFillSlotForKey n (key.hash rodata) key value ⟨p, v, none, cs⟩ = .ok true
        ⟨p.modifyLeaf (v.leaf n) (·.fillSlot (v.hashes n s = 0) s (key.hash rodata) key value),
          v.setHash n s (key.hash rodata), none,
          p.modifyLeaf (v.leaf n) (·.fillSlot (v.hashes n s = 0) s (key.hash rodata) key value) ::
            cs⟩ ∧
        SlotWrite rodata (v.hashes n) (p.leaves (v.leaf n))
          ((v.setHash n s (key.hash rodata)).hashes n)
          ((p.modifyLeaf (v.leaf n) (·.fillSlot (v.hashes n s = 0) s (key.hash rodata) key
            value)).leaves (v.leaf n)) s key value) :=
  ⟨fun _ => cachedScan_eq_some hl hk,
    fun hn => ⟨fun _ hs => delete_frees_slot hn hl hk hs, delete_keeps_leaf hn hl hk⟩,
    leafFillSlotForKey_false_iff value hl hk, leafFillSlotForKey_writes value hl hk⟩

/-! ## A key with a `0x00` inside -/

/-- `LeafFillSlotForKey` of `"a\0b"` into the leaf node of `"a"`: the scan, with the hash of the
three bytes, passes the slot of `"a"`, and the free slot it fills takes the key cut at `0x00`.
The leaf node then holds `"a"` twice. -/
theorem fill_nul_key_breaks_leaf :
    -- the leaf node is well-formed before,
    LeafOK (fun _ => 0) ((treeA.pm.leaves (treeA.vm.leaf 0)).withHashes (treeA.vm.hashes 0)) ∧
    -- the call finds a slot to write,
    (exec (leafFillSlotForKey 0 (slotKeyANulB.hash (fun _ => 0)) slotKeyANulB slotValueB)
      treeA).1 = some true ∧
    -- and after it slots `0` and `1` both hold `"a"`
    ¬ LeafOK (fun _ => 0)
      (((exec (leafFillSlotForKey 0 (slotKeyANulB.hash (fun _ => 0)) slotKeyANulB slotValueB)
        treeA).2.pm.leaves (treeA.vm.leaf 0)).withHashes
        ((exec (leafFillSlotForKey 0 (slotKeyANulB.hash (fun _ => 0)) slotKeyANulB slotValueB)
          treeA).2.vm.hashes 0)) := by
  refine ⟨treeA_leafOK, by decide, fun h => ?_⟩
  have h01 := h.distinct ⟨0, by decide⟩ ⟨1, by decide⟩ slotKeyA.cstr (by decide) (by decide)
  exact absurd h01 (by decide)

end ScreeDB
