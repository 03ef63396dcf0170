import ScreeDB.Proofs.Inv
import ScreeDB.Proofs.Runs

/-!
# `Put` without a split, and `Delete`

Each method runs from a tree with the invariant and leaves one with the invariant, whose leaves
store the map updated as the method says; every change of the image is published by one
transaction.

* `put_head_spec`: the first `Put` on an empty index links a new leaf in front of the list and
  makes its leaf node the index;
* `put_fill_spec`: a `Put` whose leaf has the key or a free slot writes that slot;
* `delete_spec`: `Delete` frees the key's slot, in both hash copies, and publishes one image
  exactly when the key was stored.
-/

namespace ScreeDB

open Txn ScreeDBLeaf ScreeDBNode

variable {p : Pool} {v : Volatile} {cs : List Pool}

theorem newNode_bind {β : Type} (f : Volatile → Nat × Volatile) (k : Nat → TreeM β) :
    EStateM.bind (newNode f) k ⟨p, v, none, cs⟩ = k (f v).1 ⟨p, (f v).2, none, cs⟩ := rfl

/-- A map with the key `k` set to `x`. -/
theorem update_apply_eq {m : CStr → Option CStr} {k k' : CStr} {x : Option CStr} :
    Function.update m k x k' = if k' = k then x else m k' := by
  simp [Function.update_apply]

/-! ## The first `Put` -/

section Head

variable (rodata : Int → UInt8) (key value : Slice)

/-- The image after the first `Put` on an empty index: a new leaf at the next address, linked in
front of the list, with the pair in slot `0`. -/
theorem put_run_head (h : leafSearch v key = none) :
    put rodata key value ⟨p, v, none, cs⟩ = .ok .ok
      ⟨((p.allocLeaf.2.modifyLeaf p.alloc (·.setNext p.root.head)).modifyLeaf p.alloc
          (·.fillSlot true ⟨0, by decide⟩ (key.hash rodata) key value)).setHead (some p.alloc),
        (((v.newLeafNode none).2.setLeafPtr v.next_id p.alloc).setHash v.next_id ⟨0, by decide⟩
          (key.hash rodata)).setTop (some (.leaf v.next_id)), none,
        ((p.allocLeaf.2.modifyLeaf p.alloc (·.setNext p.root.head)).modifyLeaf p.alloc
          (·.fillSlot true ⟨0, by decide⟩ (key.hash rodata) key value)).setHead (some p.alloc) ::
          cs⟩ := by
  simp only [put, bind, readV_bind, h, newNode_bind, readP_bind]
  rw [exec_tx_bind _ ?body]
  case body =>
    simp only [alloc_bind, store_bind, modifyV_bind]
    rw [bind_of_run _ (leafFillSpecificSlot_run _ _ _ _ _)]
    rfl
  simp
  rfl

/-- The leaf the first `Put` links: the pair in slot `0`, the old head as its next leaf. -/
theorem headLeaf_spec (rodata : Int → UInt8) {key : Slice} (hk : key.IsCStr) (value : Slice)
    (head : Option Nat) :
    let L := (ScreeDBLeaf.zero.setNext head).fillSlot true ⟨0, by decide⟩ (key.hash rodata) key value
    LeafOK rodata L ∧ ∀ k x, L.Maps k x ↔ k = key.cstr ∧ x = value.cstr := by
  intro L
  have hfree : decide ((ScreeDBLeaf.zero.setNext head).hashes ⟨0, by decide⟩ = 0) = true := by simp
  have hslot : SlotFor (ScreeDBLeaf.zero.setNext head) ⟨0, by decide⟩ key.cstr :=
    .inr ⟨rfl, fun ⟨s, hs⟩ => zero_empty.not_holdsAt s _ hs⟩
  have hok : LeafOK rodata (ScreeDBLeaf.zero.setNext head) := zero_leafOK.setNext head
  have hL : L = (ScreeDBLeaf.zero.setNext head).fillSlot
      ((ScreeDBLeaf.zero.setNext head).hashes ⟨0, by decide⟩ = 0) ⟨0, by decide⟩
      (keyHash rodata key.cstr) key value := by
    rw [hfree, ← hk.hash_eq]
  refine ⟨hL ▸ hok.fillSlot hslot, fun k x => ?_⟩
  rw [hL, fillSlot_maps hslot hok _ (keyHash_ne_zero rodata _)]
  by_cases hkk : k = key.cstr
  · simp [hkk]
  · simp [hkk, zero_empty.not_maps]

variable {m : CStr → Option CStr}

/-- The first `Put` on an empty index keeps the invariant and stores the pair. -/
theorem put_head_spec {rodata : Int → UInt8} (hI : Inv rodata ⟨p, v, none, cs⟩)
    (htop : v.top_ = none) (hm : Stores p m) {key : Slice} (hk : key.IsCStr) (value : Slice) :
    ∃ t', put rodata key value ⟨p, v, none, cs⟩ = .ok .ok t' ∧ Inv rodata t' ∧
      Stores t'.pm (Function.update m key.cstr (some value.cstr)) ∧ t'.commits = t'.pm :: cs := by
  have hsearch : leafSearch v key = none := by simp [leafSearch, htop]
  refine ⟨_, put_run_head rodata key value hsearch, ?_, ?_, rfl⟩
  all_goals
    obtain ⟨hLok, hLmaps⟩ := headLeaf_spec rodata hk value p.root.head
    have hp := hI.pool
    have hempty : ∀ a < p.alloc, (p.leaves a).Empty := (indexInv_none htop).1 hI.index
  · refine ⟨rfl, rfl, ⟨by simp, fun a ha => ?_, fun a ha => ?_⟩, ?_⟩
    · -- the new leaf links to the old head
      simp only [Pool.setHead_leaves, Pool.modifyLeaf_leaves, Pool.allocLeaf_leaves]
      by_cases hap : a = p.alloc
      · subst hap; simpa using hp.head
      · have ha' : a < p.alloc := by simp at ha; omega
        simpa [hap] using hp.next a ha'
    · simp only [Pool.setHead_leaves, Pool.modifyLeaf_leaves, Pool.allocLeaf_leaves]
      by_cases hap : a = p.alloc
      · subst hap; simpa using hLok
      · have ha' : a < p.alloc := by simp at ha; omega
        simpa [hap] using hp.leaves a ha'
    · rw [indexInv_some (by rfl)]
      refine ⟨⟨⟨0, by simp⟩, by simp, by simp, parentsOK_leaf _, by simp⟩, by simp,
        by simp, fun n hn => ?_, fun a ha hna => ?_⟩
      · obtain rfl : n = v.next_id := by simpa using hn
        funext t
        simp
      · have hap : a ≠ p.alloc := fun h => hna v.next_id (by simp) (by simp [h])
        have ha' : a < p.alloc := by simp at ha; omega
        simpa [hap] using hempty a ha'
  · -- every old leaf is empty: the new leaf is the only one storing anything
    have hmn : ∀ k, m k = none := hm.eq_none_of_empty hempty
    intro k x
    simp only [Pool.setHead_leaves, Pool.modifyLeaf_leaves, Pool.allocLeaf_leaves,
      Pool.setHead_alloc, Pool.modifyLeaf_alloc, Pool.allocLeaf_alloc, update_apply_eq]
    constructor
    · intro h
      by_cases hkk : k = key.cstr
      · simp only [hkk, if_true, Option.some.injEq] at h
        exact ⟨p.alloc, by omega, by simpa using (hLmaps k x).2 ⟨hkk, h.symm⟩⟩
      · simp [hkk, hmn] at h
    · rintro ⟨a, ha, hmaps⟩
      by_cases hap : a = p.alloc
      · simp only [hap, if_true, hLmaps] at hmaps
        simp [hmaps.1, hmaps.2]
      · have ha' : a < p.alloc := by omega
        simp only [hap, if_false] at hmaps
        exact absurd hmaps ((hempty a ha').not_maps _ _)

end Head

/-! ## Writing one indexed leaf -/

section Write

variable {rodata : Int → UInt8} {T : ScreeDBNode} {m m' : CStr → Option CStr}

/-- A write to one leaf that keeps it well-formed and keeps its link keeps the pool well-formed. -/
theorem PoolOK.modifyLeaf (hp : PoolOK rodata p) {a : Nat} (f : ScreeDBLeaf → ScreeDBLeaf)
    (hok : LeafOK rodata (f (p.leaves a))) (hnext : (f (p.leaves a)).next = (p.leaves a).next) :
    PoolOK rodata (p.modifyLeaf a f) := by
  refine ⟨by rw [Pool.modifyLeaf_root, Pool.modifyLeaf_alloc]; exact hp.head, fun b hb => ?_,
    fun b hb => ?_⟩
  · by_cases hba : b = a
    · subst hba; simpa [hnext] using hp.next b hb
    · simpa [hba] using hp.next b hb
  · by_cases hba : b = a
    · subst hba; simpa using hok
    · simpa [hba] using hp.leaves b hb

/-- A write to the leaf of the leaf node `n` and to the same slot of its cache keeps the index,
when the tree stays well-formed over the new keys. -/
theorem IndexOK.write (hI : IndexOK rodata p v T) {n : Nat} (hn : n ∈ leafIds T)
    (f : ScreeDBLeaf → ScreeDBLeaf) (s : Slot) (h : UInt8)
    (hcache : (f (p.leaves (v.leaf n))).hashes = Function.update (v.hashes n) s h)
    (hwf : ∃ d, WF (nodeKeys (p.modifyLeaf (v.leaf n) f) (v.setHash n s h)) true none none d T) :
    IndexOK rodata (p.modifyLeaf (v.leaf n) f) (v.setHash n s h) T := by
  have hne : ∀ n' ∈ leafIds T, n' ≠ n → v.leaf n' ≠ v.leaf n := fun n' hn' h' e =>
    h' (hI.ptr_inj n' hn' n hn e)
  refine ⟨⟨hwf, hI.tree.nodup, hI.tree.fresh, hI.tree.parents, hI.tree.root⟩, by simpa using hI.ptr_lt,
    by simpa using hI.ptr_inj, fun n' hn' => ?_, fun a ha hna => ?_⟩
  · funext t
    by_cases h' : n' = n
    · subst h'; simp [hcache, Function.update_apply]
    · simp [h', hne n' hn' h', hI.cache n' hn']
  · have hna' : a ≠ v.leaf n := fun e => hna n hn (by simp [e])
    simpa [hna'] using hI.orphan a (by simpa using ha) (by simpa using hna)

/-- The map of the leaves after a write to the leaf of the leaf node `n` that `LeafSearch` finds
for `key`: `key` is stored as the new leaf maps it, every other key as before. -/
theorem IndexOK.write_stores (hI : IndexOK rodata p v T) (hm : Stores p m) {n : Nat} {key : CStr}
    (hsearch : leafSearchFrom key T = some n) (f : ScreeDBLeaf → ScreeDBLeaf)
    (hkey : ∀ x, (f (p.leaves (v.leaf n))).Maps key x ↔ m' key = some x)
    (hrest : ∀ k, k ≠ key → m' k = m k ∧
      ∀ x, ((f (p.leaves (v.leaf n))).Maps k x ↔ (p.leaves (v.leaf n)).Maps k x)) :
    Stores (p.modifyLeaf (v.leaf n) f) m' := by
  have hn := leafSearchFrom_mem T hsearch
  have ha₀ := hI.ptr_lt n hn
  intro k x
  simp only [Pool.modifyLeaf_alloc, Pool.modifyLeaf_leaves]
  by_cases hk : k = key
  · subst hk
    rw [← hkey]
    constructor
    · intro h
      exact ⟨v.leaf n, ha₀, by simpa using h⟩
    · rintro ⟨a, ha, h⟩
      by_cases hab : a = v.leaf n
      · subst hab; simpa using h
      · -- another leaf holding `key` would be the one the search finds
        simp only [hab, if_false] at h
        obtain ⟨n', -, rfl, hn'⟩ := hI.holder_search ha h.holds
        rw [hsearch, Option.some.injEq] at hn'
        exact absurd (congrArg v.leaf hn') (Ne.symm hab)
  · obtain ⟨hmk, hx⟩ := hrest k hk
    rw [hmk, hm k x]
    constructor
    · rintro ⟨a, ha, h⟩
      refine ⟨a, ha, ?_⟩
      by_cases hab : a = v.leaf n
      · subst hab; simpa [hx] using h
      · simpa [hab] using h
    · rintro ⟨a, ha, h⟩
      refine ⟨a, ha, ?_⟩
      by_cases hab : a = v.leaf n
      · subst hab; simpa [hx] using h
      · simpa [hab] using h

end Write

/-! ## `Put` into a slot of the leaf -/

section Fill

variable {rodata : Int → UInt8} {T : ScreeDBNode} {m : CStr → Option CStr} {key : Slice}

theorem put_run_fill (rodata : Int → UInt8) (key value : Slice) {n : Nat} {s : Slot}
    (hn : leafSearch v key = some n)
    (hslot : ((slotScan (v.hashes n) (p.leaves (v.leaf n)) (key.hash rodata) key.cstr slotsDown
      none).2.or (slotScan (v.hashes n) (p.leaves (v.leaf n)) (key.hash rodata) key.cstr slotsDown
      none).1) = some s) :
    put rodata key value ⟨p, v, none, cs⟩ = .ok .ok
      ⟨p.modifyLeaf (v.leaf n) (·.fillSlot (v.hashes n s = 0) s (key.hash rodata) key value),
        v.setHash n s (key.hash rodata), none,
        p.modifyLeaf (v.leaf n) (·.fillSlot (v.hashes n s = 0) s (key.hash rodata) key value) ::
          cs⟩ := by
  simp only [put, bind, readV_bind, hn]
  rw [bind_of_run _ (leafFillSlotForKey_run_some hslot)]
  rfl

/-- A leaf that took `key` in the slot for it holds the keys it held and `key`. -/
theorem SlotFor.holds_fill {l : ScreeDBLeaf} {s : Slot} (h : SlotFor l s key.cstr) (hash : UInt8)
    (value : Slice) {k : CStr} (hk : (l.fillSlot (l.hashes s = 0) s hash key value).Holds k) :
    l.Holds k ∨ k = key.cstr := by
  obtain ⟨t, ht⟩ := hk
  by_cases hts : t = s
  · subst hts
    exact .inr (ht.2.symm.trans (h.key_data hash))
  · exact .inl ⟨t, (fillSlot_holdsAt_of_ne _ hash hts k).1 ht⟩

/-- `Put` into the leaf `LeafSearch` finds, when it has the key or a free slot: the pair is
stored in one transaction. -/
theorem put_fill_spec (hI : Inv rodata ⟨p, v, none, cs⟩) (htop : v.top_ = some T)
    (hm : Stores p m) (hk : key.IsCStr) (value : Slice) {n : Nat}
    (hn : leafSearchFrom key.cstr T = some n) {s : Slot}
    (hslot : ((slotScan (v.hashes n) (p.leaves (v.leaf n)) (key.hash rodata) key.cstr slotsDown
      none).2.or (slotScan (v.hashes n) (p.leaves (v.leaf n)) (key.hash rodata) key.cstr slotsDown
      none).1) = some s) :
    ∃ t', put rodata key value ⟨p, v, none, cs⟩ = .ok .ok t' ∧ Inv rodata t' ∧
      Stores t'.pm (Function.update m key.cstr (some value.cstr)) ∧ t'.commits = t'.pm :: cs := by
  have hp : PoolOK rodata p := hI.pool
  have hT : IndexOK rodata p v T := (indexInv_some htop).1 hI.index
  have hnT := leafSearchFrom_mem T hn
  have hl : LeafOK rodata (p.leaves (v.leaf n)) := hT.leafOK hp hnT
  have hcache := hT.cache n hnT
  refine ⟨_, put_run_fill rodata key value (by simp [leafSearch, htop, hn]) hslot, ?_, ?_, rfl⟩
  all_goals
    rw [hcache, hk.hash_eq] at hslot ⊢
    have hfor := slotScan_choice_some hl hslot
  · refine ⟨rfl, rfl, ?_, ?_⟩
    · dsimp only
      apply hp.modifyLeaf
      · exact hl.fillSlot hfor
      · simp
    dsimp only
    rw [indexInv_some (by simpa using htop)]
    refine hT.write hnT _ s _ (funext fun t => ?_) ?_
    · by_cases ht : t = s <;> simp [ht, hcache]
    · -- the leaf the search reaches may take the key
      obtain ⟨d, hwf⟩ := hT.tree.wf
      refine ⟨d, WF.add_found T hwf hT.nodup_leafIds (Bound.mem_none_none _) hn ?_⟩
      intro n' hn' k' hk'
      simp only [nodeKeys, Volatile.setHash_leaf, Pool.modifyLeaf_leaves] at hk' ⊢
      by_cases h' : n' = n
      · subst h'
        simp only [if_true] at hk'
        exact (hfor.holds_fill _ value hk').imp id (fun e => ⟨rfl, e⟩)
      · have hne : v.leaf n' ≠ v.leaf n := fun e => h' (hT.ptr_inj n' hn' n hnT e)
        exact .inl (by simpa [hne] using hk')
  · refine hT.write_stores hm hn _ (fun x => ?_) (fun k hkk => ⟨?_, fun x => ?_⟩)
    · rw [fillSlot_maps hfor hl _ (keyHash_ne_zero rodata _)]
      simp [eq_comm]
    · simp [hkk]
    · rw [fillSlot_maps hfor hl _ (keyHash_ne_zero rodata _)]
      simp [hkk]

end Fill

/-! ## `Delete` -/

section Delete

variable (rodata : Int → UInt8) (key : Slice)

theorem delete_run_found {n : Nat} {s : Slot} (hn : leafSearch v key = some n)
    (hs : matchSlot (v.hashes n) (p.leaves (v.leaf n)) (key.hash rodata) key.cstr = some s) :
    delete rodata key ⟨p, v, none, cs⟩ = .ok .ok
      ⟨p.modifyLeaf (v.leaf n) (·.setHash s 0), v.setHash n s 0, none,
        p.modifyLeaf (v.leaf n) (·.setHash s 0) :: cs⟩ := by
  simp only [delete, bind, readV_bind, hn, readP_bind, hs, modifyV_bind]
  rw [exec_tx_bind _ (store_none _)]
  rfl

theorem delete_run_absent {n : Nat} (hn : leafSearch v key = some n)
    (hs : matchSlot (v.hashes n) (p.leaves (v.leaf n)) (key.hash rodata) key.cstr = none) :
    delete rodata key ⟨p, v, none, cs⟩ = .ok .ok ⟨p, v, none, cs⟩ := by
  simp only [delete, bind, readV_bind, hn, readP_bind, hs]
  rfl

theorem delete_run_empty (hn : leafSearch v key = none) :
    delete rodata key ⟨p, v, none, cs⟩ = .ok .ok ⟨p, v, none, cs⟩ := by
  simp only [delete, bind, readV_bind, hn]
  rfl

variable {rodata key} {m : CStr → Option CStr}

/-- A map that has no value for `k` is not changed by removing `k`. -/
theorem update_none_of_eq_none {k : CStr} (h : m k = none) : Function.update m k none = m := by
  rw [← h, Function.update_eq_self]

/-- `Delete` removes the key from the map. It frees the key's slot in one transaction when the key
is stored, and otherwise changes nothing and publishes nothing. -/
theorem delete_spec (hI : Inv rodata ⟨p, v, none, cs⟩) (hm : Stores p m) (hk : key.IsCStr) :
    ∃ t', delete rodata key ⟨p, v, none, cs⟩ = .ok .ok t' ∧ Inv rodata t' ∧
      Stores t'.pm (Function.update m key.cstr none) ∧
      (m key.cstr = none → t' = ⟨p, v, none, cs⟩) ∧
      (m key.cstr ≠ none → t'.commits = t'.pm :: cs) := by
  have hp : PoolOK rodata p := hI.pool
  cases htop : v.top_ with
  | none =>
    -- no index: every leaf is empty and the key is not stored
    have hnone : m key.cstr = none := hm.eq_none_of_empty ((indexInv_none htop).1 hI.index) _
    refine ⟨_, delete_run_empty rodata key (by simp [leafSearch, htop]), hI, ?_,
      fun _ => rfl, fun h => absurd hnone h⟩
    rwa [update_none_of_eq_none hnone]
  | some T =>
    have hT : IndexOK rodata p v T := (indexInv_some htop).1 hI.index
    obtain ⟨d, hwf⟩ := hT.tree.wf
    obtain ⟨n, hn⟩ := leafSearchFrom_isSome key.cstr T hwf
    have hnT := leafSearchFrom_mem T hn
    have hl : LeafOK rodata (p.leaves (v.leaf n)) := hT.leafOK hp hnT
    have hcache := hT.cache n hnT
    have hsearch : leafSearch v key = some n := by simp [leafSearch, htop, hn]
    cases hs : matchSlot (v.hashes n) (p.leaves (v.leaf n)) (key.hash rodata) key.cstr with
    | none =>
      have hs' := hs
      rw [hcache, hk.hash_eq, matchSlot_eq_none hl] at hs'
      -- the leaf the search reaches does not hold the key, so no leaf does
      have hnone : m key.cstr = none := by
        refine hm.eq_none fun a ha hholds => ?_
        obtain ⟨n', -, rfl, hn'⟩ := hT.holder_search ha hholds
        obtain rfl : n' = n := Option.some.inj (hn'.symm.trans hn)
        exact hs' hholds
      refine ⟨_, delete_run_absent rodata key hsearch hs, hI, ?_, fun _ => rfl,
        fun h => absurd hnone h⟩
      rwa [update_none_of_eq_none hnone]
    | some s =>
      have hs' := hs
      rw [hcache, hk.hash_eq, matchSlot_eq_some hl] at hs'
      refine ⟨_, delete_run_found rodata key hsearch hs, ⟨rfl, rfl, ?_, ?_⟩, ?_, fun h => ?_,
        fun _ => rfl⟩
      · dsimp only
        apply hp.modifyLeaf
        · exact hl.clearSlot s
        · simp
      · dsimp only
        rw [indexInv_some (by simpa using htop)]
        refine hT.write hnT _ s _ (funext fun t => ?_) ⟨d, WF.congr T (fun n' hn' k' hk' => ?_) hwf⟩
        · by_cases ht : t = s <;> simp [ht, hcache]
        · -- clearing a slot only drops a key
          simp only [nodeKeys, Volatile.setHash_leaf, Pool.modifyLeaf_leaves] at hk' ⊢
          split at hk'
          · rename_i he
            obtain ⟨t, ht⟩ := hk'
            rw [he]
            exact ⟨t, holdsAt_of_clear ht⟩
          · exact hk'
      · refine hT.write_stores hm hn _ (fun x => ?_) (fun k hkk => ⟨?_, fun x => ?_⟩)
        · rw [clearSlot_maps hl hs']
          simp
        · simp [hkk]
        · rw [clearSlot_maps hl hs']
          simp [hkk]
      · exact absurd (Stores.some_of_maps (t := ⟨p, v, none, cs⟩) hm (hT.ptr_lt n hnT)
          ⟨s, hs', rfl⟩) (by simp [h])

end Delete

end ScreeDB
