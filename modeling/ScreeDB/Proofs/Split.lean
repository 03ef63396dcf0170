import ScreeDB.Order.Rank
import ScreeDB.Tree.Split
import ScreeDB.Proofs.Update

/-!
# `LeafSplit`

`Put` splits the leaf `LeafSearch` finds for its key when all `NODE_KEYS` slots hold other keys.
-/

namespace ScreeDB

open Txn ScreeDBLeaf ScreeDBNode

variable {p : Pool} {v : Volatile} {cs : List Pool}

/-! ## The 49 keys -/

section Keys

variable {rodata : Int → UInt8} {l : ScreeDBLeaf} {key : CStr}

theorem splitKeys_length : (splitKeys l key).length = 49 := by
  rw [splitKeys, List.length_append, List.length_map, List.length_finRange]
  rfl

theorem mem_splitKeys {k : CStr} :
    k ∈ splitKeys l key ↔ (∃ s, (l.kv_keys s).data = k) ∨ k = key := by
  simp [splitKeys]

/-- In a full leaf each slot holds its key. -/
theorem holdsAt_of_full (hfull : ∀ s, l.hashes s ≠ 0) (s : Slot) :
    l.HoldsAt s (l.kv_keys s).data :=
  ⟨hfull s, rfl⟩

/-- The keys of a full leaf and a key it does not hold are 49 distinct keys. -/
theorem splitKeys_nodup (hl : LeafOK rodata l) (hfull : ∀ s, l.hashes s ≠ 0)
    (hkey : ¬ l.Holds key) : (splitKeys l key).Nodup := by
  rw [splitKeys, List.nodup_append]
  refine ⟨(List.nodup_finRange NODE_KEYS).map_on fun s _ t _ h => ?_, List.nodup_singleton key, ?_⟩
  · exact hl.distinct s t _ (holdsAt_of_full hfull s) ⟨hfull t, h.symm⟩
  · intro k hk k' hk' hkk
    obtain ⟨s, -, rfl⟩ := List.mem_map.1 hk
    rw [List.mem_singleton] at hk'
    subst hk'
    exact hkey ⟨s, hfull s, hkk⟩

/-- `strcmp(a, b) <= 0`, the comparison the keys are sorted by, decides `≤`. -/
theorem strcmp_nonpos_decide (a b : CStr) :
    decide (strcmp a.bytes b.bytes ≤ 0) = true ↔ a ≤ b := by
  rw [decide_eq_true_iff, strcmp_nonpos_iff]

/-- `std::sort` of the keys gives their sorted order, which insertion sort computes as well. -/
theorem sortKeys_eq_insertionSort (keys : List CStr) :
    sortKeys keys = keys.insertionSort (· ≤ ·) := by
  have hle : (fun a b : CStr => decide (strcmp a.bytes b.bytes ≤ 0)) = fun a b => decide (a ≤ b) := by
    funext a b
    exact Bool.eq_iff_iff.2 (by rw [strcmp_nonpos_decide, decide_eq_true_iff])
  rw [sortKeys, hle]
  exact List.mergeSort_eq_insertionSort (· ≤ ·) keys

theorem splitKey_mem : splitKey l key ∈ splitKeys l key :=
  Rank.mergeSort_getD_mem (by rw [splitKeys_length]; decide) default

/-- A leaf that keeps only the slots above the split key has the split key's slot free, when the
split key is not the new key. -/
theorem splitKey_free_above {l' : ScreeDBLeaf}
    (hnew : Restrict l l' fun s => splitKey l key < (l.kv_keys s).data)
    (hside : splitKey l key < key) : ∃ s, l'.hashes s = 0 := by
  obtain ⟨s, hs⟩ : ∃ s, (l.kv_keys s).data = splitKey l key := by
    rcases mem_splitKeys.1 splitKey_mem with h | h
    · exact h
    · exact absurd h (ne_of_lt hside)
  exact ⟨s, hnew.free s (by rw [hs]; exact lt_irrefl _)⟩

variable (hK : (splitKeys l key).Nodup)
include hK

/-- `split_key` is the 25th smallest of the 49 keys, -/
theorem splitKey_rank_le : (splitKeys l key).countP (fun k => decide (k ≤ splitKey l key)) = 25 :=
  Rank.countP_le_mergeSort strcmp_nonpos_decide hK (by rw [splitKeys_length]; decide) default

/-- with 24 above it. -/
theorem splitKey_rank_gt : (splitKeys l key).countP (fun k => decide (splitKey l key < k)) = 24 := by
  have h := Rank.countP_gt_mergeSort strcmp_nonpos_decide hK (i := NODE_KEYS_MIDPOINT)
    (by rw [splitKeys_length]; decide) default
  rwa [splitKeys_length] at h

theorem exists_above_splitKey : ∃ k ∈ splitKeys l key, splitKey l key < k := by
  obtain ⟨k, hk, hlt⟩ := List.countP_pos_iff.1 (by rw [splitKey_rank_gt hK]; decide)
  exact ⟨k, hk, by simpa using hlt⟩

/-- A leaf that keeps only the slots at or below the split key has a free slot, when the new key
is at or below it too: one of the 24 keys above it is a slot's. -/
theorem splitKey_free_below {l' : ScreeDBLeaf}
    (hold : Restrict l l' fun s => (l.kv_keys s).data ≤ splitKey l key)
    (hside : ¬ splitKey l key < key) : ∃ s, l'.hashes s = 0 := by
  obtain ⟨k, hkK, hlt⟩ := exists_above_splitKey hK
  obtain ⟨s, hs⟩ : ∃ s, (l.kv_keys s).data = k := by
    rcases mem_splitKeys.1 hkK with h | h
    · exact h
    · exact absurd (h ▸ hlt) hside
  exact ⟨s, hold.free s (by rw [hs]; exact not_le.2 hlt)⟩

end Keys

/-! ## The run -/

/-- `LeafSplit` without faults: the transaction allocates the new leaf, links it to the old head,
runs the slot loop, writes the pair into the first free slot of its side, and publishes the image
with the new leaf at the head; then the walk hands the split key up. -/
theorem leafSplit_run (ln : Nat) (hash : UInt8) (key value : Slice) {p₃ : Pool} {v₃ : Volatile}
    {slot : Slot} :
    let split := splitKey (p.leaves (v.leaf ln)) key.cstr
    let target := if split < key.cstr then v.next_id else ln
    let v₄ := v₃.setHash target slot hash
    let p₄ := (p₃.modifyLeaf (v₃.leaf target) (·.fillSlot true slot hash key value)).setHead
      (some p.alloc)
    moveSlots ln v.next_id (v.leaf ln) p.alloc split slotsDown
        ⟨p.allocLeaf.2.modifyLeaf p.alloc (·.setNext p.root.head),
          (v.newLeafNode (v.parent ln)).2.setLeafPtr v.next_id p.alloc, none, cs⟩ =
      .ok () ⟨p₃, v₃, none, cs⟩ →
    firstEmptySlot (v₃.hashes target) = some slot →
    leafSplit ln hash key value ⟨p, v, none, cs⟩ =
      .ok () ⟨p₄, leafUpdateParentsAfterSplit v₄.walkFuel v₄ ln (.leaf v.next_id) split, none,
        p₄ :: cs⟩ := by
  intro split target v₄ p₄ hmove hslot
  simp only [leafSplit, bind, readV_bind, readP_bind, newNode_bind]
  rw [exec_tx_bind _ ?body]
  case body =>
    simp only [alloc_bind, store_bind, modifyV_bind, Volatile.newLeafNode_fst, Pool.allocLeaf_fst]
    rw [bind_of_run _ hmove]
    simp only [strcmp_pos_iff]
    rw [bind_of_run _ (leafFillFirstEmptySlot_run hslot)]
    rfl
  rfl

/-! ## What the transaction commits -/

/-- What `LeafSplit` of the leaf node `ln` for the pair `key`, `value` commits from the image `p`
and volatile memory `v`: the image `p'`, and the volatile memory `vw` the walk starts from. The
old leaf `v.leaf ln` keeps its slots whose keys are at or below the split key, the new leaf
`p.alloc` of the new leaf node `v.next_id` has the others in the same slots, the pair goes into a
free slot of its side, and the new leaf is linked in front of the list. -/
structure SplitCommit (rodata : Int → UInt8) (p : Pool) (v : Volatile) (ln : Nat)
    (key value : Slice) (p' : Pool) (vw : Volatile) : Prop where
  start : SplitStart v vw ln
  leaf_ptr : ∀ m, vw.leaf m = if m = v.next_id then p.alloc else v.leaf m
  alloc : p'.alloc = p.alloc + 1
  root : p'.root = { p.root with head := some p.alloc }
  other : ∀ b, b ≠ v.leaf ln → b ≠ p.alloc → p'.leaves b = p.leaves b
  next_old : (p'.leaves (v.leaf ln)).next = (p.leaves (v.leaf ln)).next
  next_new : (p'.leaves p.alloc).next = p.root.head
  ok_old : LeafOK rodata (p'.leaves (v.leaf ln))
  ok_new : LeafOK rodata (p'.leaves p.alloc)
  maps_old : ∀ k x, (p'.leaves (v.leaf ln)).Maps k x ↔
    k ≤ splitKey (p.leaves (v.leaf ln)) key.cstr ∧
      ((k = key.cstr ∧ x = value.cstr) ∨ (p.leaves (v.leaf ln)).Maps k x)
  maps_new : ∀ k x, (p'.leaves p.alloc).Maps k x ↔
    splitKey (p.leaves (v.leaf ln)) key.cstr < k ∧
      ((k = key.cstr ∧ x = value.cstr) ∨ (p.leaves (v.leaf ln)).Maps k x)
  stay : ∀ s, ((p.leaves (v.leaf ln)).kv_keys s).data ≤ splitKey (p.leaves (v.leaf ln)) key.cstr →
    (p'.leaves (v.leaf ln)).slotAt s = (p.leaves (v.leaf ln)).slotAt s
  moved : ∀ s, splitKey (p.leaves (v.leaf ln)) key.cstr < ((p.leaves (v.leaf ln)).kv_keys s).data →
    (p'.leaves p.alloc).hashes s = (p.leaves (v.leaf ln)).hashes s ∧
      ((p'.leaves p.alloc).kv_keys s).data = ((p.leaves (v.leaf ln)).kv_keys s).data ∧
      ((p'.leaves p.alloc).kv_values s).data = ((p.leaves (v.leaf ln)).kv_values s).data
  cache_old : vw.hashes ln = (p'.leaves (v.leaf ln)).hashes
  cache_new : vw.hashes v.next_id = (p'.leaves p.alloc).hashes
  cache_other : ∀ m, m ≠ ln → m ≠ v.next_id → vw.hashes m = v.hashes m

section Commit

variable {rodata : Int → UInt8} {T : ScreeDBNode} {ln : Nat} {key : Slice}

/-- **What `LeafSplit` commits**, for a full leaf of the index and a key it does not hold. -/
theorem leafSplit_commit (hI : Inv rodata ⟨p, v, none, cs⟩) (htop : v.top_ = some T)
    (hln : ln ∈ leafIds T) (hfull : ∀ s, (p.leaves (v.leaf ln)).hashes s ≠ 0)
    (hkey : ¬ (p.leaves (v.leaf ln)).Holds key.cstr) (hk : key.IsCStr) (value : Slice) :
    ∃ p' vw, leafSplit ln (key.hash rodata) key value ⟨p, v, none, cs⟩ =
        .ok () ⟨p', leafUpdateParentsAfterSplit vw.walkFuel vw ln (.leaf v.next_id)
          (splitKey (p.leaves (v.leaf ln)) key.cstr), none, p' :: cs⟩ ∧
      SplitCommit rodata p v ln key value p' vw := by
  have hp : PoolOK rodata p := hI.pool
  have hT : IndexOK rodata p v T := (indexInv_some htop).1 hI.index
  have hab : v.leaf ln ≠ p.alloc := Nat.ne_of_lt (hT.ptr_lt ln hln)
  have hnn : ln ≠ v.next_id := fun h => hT.tree.next_id_not_mem (h ▸ hln)
  have hl : LeafOK rodata (p.leaves (v.leaf ln)) := hT.leafOK hp hln
  have hK := splitKeys_nodup hl hfull hkey
  set l := p.leaves (v.leaf ln) with hl_def
  set split := splitKey l key.cstr with hsplit_def
  set p₁ := p.allocLeaf.2.modifyLeaf p.alloc (·.setNext p.root.head) with hp₁_def
  set v₂ := (v.newLeafNode (v.parent ln)).2.setLeafPtr v.next_id p.alloc with hv₂_def
  -- the slot loop, from the new leaf linked to the old head
  have hp₁ : p₁.leaves (v.leaf ln) = l := by simp [p₁, hab, l]
  have hc₂ : v₂.hashes ln = (p₁.leaves (v.leaf ln)).hashes := by
    rw [hp₁, ← hT.cache ln hln]
    simp [v₂, hnn]
  obtain ⟨p₃, v₃, hrun, hmove⟩ :=
    @moveSlots_run cs ln v.next_id (v.leaf ln) p.alloc hab hnn split slotsDown nodup_slotsDown p₁ v₂
  have hM : MoveOut ln v.next_id (v.leaf ln) p.alloc (fun s => split < (l.kv_keys s).data)
      p₁ v₂ p₃ v₃ :=
    hmove.of_iff fun s => by simp [hp₁, mem_slotsDown, strcmp_pos_iff]
  have hold₃ : Restrict l (p₃.leaves (v.leaf ln)) fun s => (l.kv_keys s).data ≤ split := by
    simpa only [hp₁, not_lt] using hM.restrict_leaf
  have hnew₃ : Restrict l (p₃.leaves p.alloc) fun s => split < (l.kv_keys s).data := by
    simpa only [hp₁] using hM.restrict_new_leaf hc₂ (by simp [p₁])
  have hcold₃ : v₃.hashes ln = (p₃.leaves (v.leaf ln)).hashes := hM.cache_leaf hc₂
  have hcnew₃ : v₃.hashes v.next_id = (p₃.leaves p.alloc).hashes :=
    hM.cache_new_leaf hc₂ (funext fun s => by simp [v₂, p₁])
  -- the side of `key` has a free slot: the split key stays, and a key above it moves
  set target := if split < key.cstr then v.next_id else ln with htarget
  have hfree : ∃ s, v₃.hashes target s = 0 := by
    by_cases hside : split < key.cstr
    · rw [htarget, if_pos hside, hcnew₃]
      exact splitKey_free_above hnew₃ hside
    · rw [htarget, if_neg hside, hcold₃]
      exact splitKey_free_below hK hold₃ hside
  obtain ⟨s₀, hs₀⟩ := hfree
  obtain ⟨slot, hslot⟩ := firstEmptySlot_isSome hs₀
  have h0 := firstEmptySlot_free hslot
  have hleaf : ∀ m, v₃.leaf m = if m = v.next_id then p.alloc else v.leaf m := by
    intro m
    rw [hM.leaf_ptr]
    by_cases hm : m = v.next_id <;> simp [v₂, hm]
  refine ⟨_, _, leafSplit_run ln _ key value hrun hslot, ?_⟩
  rw [hk.hash_eq]
  -- the two leaves after the write of the pair
  set f := fun x : ScreeDBLeaf => x.fillSlot true slot (keyHash rodata key.cstr) key value
    with hf
  have hta : v₃.leaf target = if split < key.cstr then p.alloc else v.leaf ln := by
    rw [hleaf, htarget]
    by_cases hside : split < key.cstr <;> simp [hside, hnn]
  show SplitCommit rodata p v ln key value ((p₃.modifyLeaf (v₃.leaf target) f).setHead
    (some p.alloc)) (v₃.setHash target slot (keyHash rodata key.cstr))
  set p' := (p₃.modifyLeaf (v₃.leaf target) f).setHead (some p.alloc) with hp'
  have hold : p'.leaves (v.leaf ln) =
      if split < key.cstr then p₃.leaves (v.leaf ln) else f (p₃.leaves (v.leaf ln)) := by
    rw [hp', Pool.setHead_leaves, Pool.modifyLeaf_leaves, hta]
    by_cases hside : split < key.cstr <;> simp [hside, hab]
  have hnew : p'.leaves p.alloc =
      if split < key.cstr then f (p₃.leaves p.alloc) else p₃.leaves p.alloc := by
    rw [hp', Pool.setHead_leaves, Pool.modifyLeaf_leaves, hta]
    by_cases hside : split < key.cstr <;> simp [hside, Ne.symm hab]
  -- each side takes the pair into the free slot exactly when the pair's key belongs there
  have hfill_old : key.cstr ≤ split → (p₃.leaves (v.leaf ln)).hashes slot = 0 ∧
      p'.leaves (v.leaf ln) = f (p₃.leaves (v.leaf ln)) := fun hside => by
    have hside' : ¬ split < key.cstr := not_lt.2 hside
    refine ⟨?_, by rw [hold, if_neg hside']⟩
    rw [← hcold₃]
    simpa [htarget, hside'] using h0
  have hkeep_old : ¬ key.cstr ≤ split → p'.leaves (v.leaf ln) = p₃.leaves (v.leaf ln) :=
    fun hside => by rw [hold, if_pos (lt_of_not_ge hside)]
  have hfill_new : split < key.cstr → (p₃.leaves p.alloc).hashes slot = 0 ∧
      p'.leaves p.alloc = f (p₃.leaves p.alloc) := fun hside => by
    refine ⟨?_, by rw [hnew, if_pos hside]⟩
    rw [← hcnew₃]
    simpa [htarget, hside] using h0
  have hkeep_new : ¬ split < key.cstr → p'.leaves p.alloc = p₃.leaves p.alloc :=
    fun hside => by rw [hnew, if_neg hside]
  refine ⟨⟨?top, fun m => ?parent, ?next_id⟩, fun m => ?leaf_ptr, ?alloc, ?root,
    fun b hb hb' => ?other, ?next_old, ?next_new, ?ok_old, ?ok_new, ?maps_old, ?maps_new,
    fun s hs => ?stay, fun s hs => ?moved, ?cache_old, ?cache_new, fun m hm hm' => ?cache_other⟩
  case top => simp [hM.top_, v₂]
  case parent => simp [hM.parent, v₂]
  case next_id => simp [hM.next_id, v₂]
  case leaf_ptr => simpa using hleaf m
  case alloc => simp [hp', hM.alloc, p₁]
  case root => simp [hp', Pool.setHead, hM.root, p₁]
  case other =>
    have hbt : b ≠ v₃.leaf target := by
      rw [hta]
      split_ifs <;> assumption
    rw [hp', Pool.setHead_leaves, Pool.modifyLeaf_leaves, if_neg hbt, hM.other b hb hb']
    simp [p₁, hb']
  case next_old =>
    rw [hold]
    split_ifs <;> simp [f, hM.next, hp₁, l]
  case next_new =>
    rw [hnew]
    split_ifs <;> simp [f, hM.next, p₁]
  case ok_old => exact hold₃.side_leafOK (Q := fun k => k ≤ split) value hl hkey hfill_old hkeep_old
  case ok_new => exact hnew₃.side_leafOK (Q := fun k => split < k) value hl hkey hfill_new hkeep_new
  case maps_old =>
    exact hold₃.side_maps (Q := fun k => k ≤ split) value hl hkey hfill_old hkeep_old
  case maps_new =>
    exact hnew₃.side_maps (Q := fun k => split < k) value hl hkey hfill_new hkeep_new
  case stay =>
    have hstay : (p₃.leaves (v.leaf ln)).slotAt s = l.slotAt s := by
      rw [hM.stay _ s (not_lt.2 hs), hp₁]
    rw [hold]
    split_ifs with hside
    · exact hstay
    · -- the pair went into a free slot, and slot `s` is occupied
      have hss : s ≠ slot := by
        rintro rfl
        exact hfull s (by rw [← hold₃.hash s hs]; exact (hfill_old (not_lt.1 hside)).1)
      rw [fillSlot_slotAt_of_ne _ _ _ _ _ _ _ hss, hstay]
  case moved =>
    have hmoved := And.intro (hnew₃.hash s hs) (And.intro (hnew₃.key s hs) (hnew₃.value s hs))
    rw [hnew]
    split_ifs with hside
    · have hss : s ≠ slot := by
        rintro rfl
        exact hfull s (by rw [← hnew₃.hash s hs]; exact (hfill_new hside).1)
      simpa [f, fillSlot_key_data, fillSlot_value_data, hss] using hmoved
    · exact hmoved
  case cache_old =>
    funext t
    rw [hold]
    by_cases hside : split < key.cstr
    · simp [hside, htarget, hnn, hcold₃]
    · by_cases ht : t = slot <;> simp [hside, htarget, hcold₃, f, ht]
  case cache_new =>
    funext t
    rw [hnew]
    by_cases hside : split < key.cstr
    · by_cases ht : t = slot <;> simp [hside, htarget, hcnew₃, f, ht]
    · simp [hside, htarget, Ne.symm hnn, hcnew₃]
  case cache_other =>
    have hmt : m ≠ target := by
      rw [htarget]
      split_ifs <;> assumption
    funext t
    rw [Volatile.setHash_hashes, if_neg fun h => hmt h.1, hM.cache_stay m t fun _ => ⟨hm, hm'⟩]
    simp [v₂, hm']

end Commit

/-! ## The invariant after the split -/

section Keep

variable {rodata : Int → UInt8} {T : ScreeDBNode} {ln : Nat} {key value : Slice} {p' : Pool}
  {vw : Volatile}

/-- The pool stays well-formed: the new leaf is the new head, linked to the old one. -/
theorem SplitCommit.poolOK (hc : SplitCommit rodata p v ln key value p' vw)
    (hp : PoolOK rodata p) (ha₀ : v.leaf ln < p.alloc) : PoolOK rodata p' := by
  have hab : v.leaf ln ≠ p.alloc := Nat.ne_of_lt ha₀
  refine ⟨by simp [hc.root, hc.alloc], fun a ha => ?_, fun a ha => ?_⟩
  all_goals rw [hc.alloc] at ha
  · by_cases hna : a = p.alloc
    · subst hna
      rw [hc.next_new, hp.head]
    · by_cases ha₀' : a = v.leaf ln
      · subst ha₀'
        rw [hc.next_old, hp.next _ ha₀]
      · rw [hc.other a ha₀' hna, hp.next a (by omega)]
  · by_cases hna : a = p.alloc
    · subst hna
      exact hc.ok_new
    · by_cases ha₀' : a = v.leaf ln
      · subst ha₀'
        exact hc.ok_old
      · rw [hc.other a ha₀' hna]
        exact hp.leaves a (by omega)

/-- The keys of the two leaves after the split are keys of the old leaf, or `key`. -/
theorem SplitCommit.holds_old (hc : SplitCommit rodata p v ln key value p' vw) {k : CStr}
    (h : (p'.leaves (v.leaf ln)).Holds k) :
    k ≤ splitKey (p.leaves (v.leaf ln)) key.cstr ∧ (k = key.cstr ∨ (p.leaves (v.leaf ln)).Holds k) := by
  obtain ⟨x, hx⟩ := holds_iff_exists_maps.1 h
  obtain ⟨hle, ⟨rfl, -⟩ | hm⟩ := (hc.maps_old k x).1 hx
  · exact ⟨hle, .inl rfl⟩
  · exact ⟨hle, .inr hm.holds⟩

theorem SplitCommit.holds_new (hc : SplitCommit rodata p v ln key value p' vw) {k : CStr}
    (h : (p'.leaves p.alloc).Holds k) :
    splitKey (p.leaves (v.leaf ln)) key.cstr < k ∧ (k = key.cstr ∨ (p.leaves (v.leaf ln)).Holds k) := by
  obtain ⟨x, hx⟩ := holds_iff_exists_maps.1 h
  obtain ⟨hlt, ⟨rfl, -⟩ | hm⟩ := (hc.maps_new k x).1 hx
  · exact ⟨hlt, .inl rfl⟩
  · exact ⟨hlt, .inr hm.holds⟩

end Keep

section Index

variable {rodata : Int → UInt8} {T : ScreeDBNode} {ln : Nat} {key value : Slice} {p' : Pool}
  {vw : Volatile}

/-- `LeafSearch` takes the keys of a leaf of the index and the key it is asked for to the leaf
node it finds. -/
theorem reached_of_holds (hT : IndexOK rodata p v T) (hn : leafSearchFrom key.cstr T = some ln)
    {k : CStr} (hk : k = key.cstr ∨ (p.leaves (v.leaf ln)).Holds k) :
    leafSearchFrom k T = some ln := by
  rcases hk with rfl | hk
  · exact hn
  · obtain ⟨d, hwf⟩ := hT.tree.wf
    exact leafSearchFrom_of_mem T hwf (leafSearchFrom_mem T hn) hk

/-- The keys of the leaf nodes after the split, seen from the index before it. -/
theorem SplitCommit.keys (hc : SplitCommit rodata p v ln key value p' vw)
    (hT : IndexOK rodata p v T) (hn : leafSearchFrom key.cstr T = some ln)
    (hfull : ∀ s, (p.leaves (v.leaf ln)).hashes s ≠ 0)
    (hK : (splitKeys (p.leaves (v.leaf ln)) key.cstr).Nodup) :
    SplitKeys (nodeKeys p v) (nodeKeys p' vw) T ln v.next_id
      (splitKey (p.leaves (v.leaf ln)) key.cstr) := by
  have hln := leafSearchFrom_mem T hn
  have hnew := hT.tree.next_id_not_mem
  have hnn : ln ≠ v.next_id := fun h => hnew (h ▸ hln)
  -- each of the 49 keys is a key of the leaf or `key`
  have hK49 : ∀ k ∈ splitKeys (p.leaves (v.leaf ln)) key.cstr,
      k = key.cstr ∨ (p.leaves (v.leaf ln)).Holds k := by
    intro k hk
    rcases mem_splitKeys.1 hk with ⟨s, rfl⟩ | rfl
    · exact .inr ⟨s, holdsAt_of_full hfull s⟩
    · exact .inl rfl
  refine ⟨fun m hm hne k hk => ?_, fun k hk => ?_, fun k hk => ?_,
    reached_of_holds hT hn (hK49 _ splitKey_mem), ?_⟩
  · -- another leaf node points to another leaf, which the split left alone
    have hmn : m ≠ v.next_id := fun h => hnew (h ▸ hm)
    have ha₀ : v.leaf m ≠ v.leaf ln := fun h => hne (hT.ptr_inj m hm ln hln h)
    have hna : v.leaf m ≠ p.alloc := Nat.ne_of_lt (hT.ptr_lt m hm)
    simpa [nodeKeys, hc.leaf_ptr, hmn, hc.other _ ha₀ hna] using hk
  · have hk' : (p'.leaves (v.leaf ln)).Holds k := by simpa [nodeKeys, hc.leaf_ptr, hnn] using hk
    obtain ⟨hle, h⟩ := hc.holds_old hk'
    exact ⟨hle, reached_of_holds hT hn h⟩
  · have hk' : (p'.leaves p.alloc).Holds k := by simpa [nodeKeys, hc.leaf_ptr] using hk
    obtain ⟨hlt, h⟩ := hc.holds_new hk'
    exact ⟨hlt, reached_of_holds hT hn h⟩
  · obtain ⟨k, hk, hlt⟩ := exists_above_splitKey hK
    exact ⟨k, hlt, reached_of_holds hT hn (hK49 k hk)⟩

/-- The index after the walk: the tree it leaves over the leaves after the split. -/
theorem SplitCommit.indexOK (hc : SplitCommit rodata p v ln key value p' vw)
    (hT : IndexOK rodata p v T) (hln : ln ∈ leafIds T) {v' : Volatile} {T' : ScreeDBNode}
    (htree : TreeOK (nodeKeys p' vw) v' T')
    (hmem : ∀ n, n ∈ leafIds T' ↔ n = v.next_id ∨ n ∈ leafIds T)
    (hhash : v'.hashes = vw.hashes) (hleaf : v'.leaf = vw.leaf) : IndexOK rodata p' v' T' := by
  have hnew := hT.tree.next_id_not_mem
  -- the old leaf nodes keep their leaves, the new one points to the new leaf
  have hptr : ∀ n ∈ leafIds T, v'.leaf n = v.leaf n := fun n hn => by
    have hnn : n ≠ v.next_id := fun h => hnew (h ▸ hn)
    rw [hleaf, hc.leaf_ptr, if_neg hnn]
  have hptr_new : v'.leaf v.next_id = p.alloc := by rw [hleaf, hc.leaf_ptr, if_pos rfl]
  have hkeys : nodeKeys p' v' = nodeKeys p' vw := by
    funext n k
    simp [nodeKeys, hleaf]
  refine ⟨hkeys ▸ htree, fun n hn => ?ptr_lt, fun n hn n' hn' h => ?ptr_inj, fun n hn => ?cache,
    fun a ha hno => ?orphan⟩
  case ptr_lt =>
    rw [hc.alloc]
    rcases (hmem n).1 hn with rfl | hn
    · rw [hptr_new]
      omega
    · rw [hptr n hn]
      exact Nat.lt_succ_of_lt (hT.ptr_lt n hn)
  case ptr_inj =>
    rcases (hmem n).1 hn with rfl | hn <;> rcases (hmem n').1 hn' with rfl | hn'
    · rfl
    · rw [hptr_new, hptr n' hn'] at h
      exact absurd h.symm (Nat.ne_of_lt (hT.ptr_lt n' hn'))
    · rw [hptr_new, hptr n hn] at h
      exact absurd h (Nat.ne_of_lt (hT.ptr_lt n hn))
    · rw [hptr n hn, hptr n' hn'] at h
      exact hT.ptr_inj n hn n' hn' h
  case cache =>
    rw [hhash]
    rcases (hmem n).1 hn with rfl | hn
    · rw [hc.cache_new, hleaf, hc.leaf_ptr, if_pos rfl]
    · have hnn : n ≠ v.next_id := fun h => hnew (h ▸ hn)
      by_cases hnl : n = ln
      · subst hnl
        rw [hc.cache_old, hleaf, hc.leaf_ptr, if_neg hnn]
      · have ha₀ : v.leaf n ≠ v.leaf ln := fun h => hnl (hT.ptr_inj n hn ln hln h)
        rw [hc.cache_other n hnl hnn, hT.cache n hn, hleaf, hc.leaf_ptr, if_neg hnn,
          hc.other _ ha₀ (Nat.ne_of_lt (hT.ptr_lt n hn))]
  case orphan =>
    -- a leaf no leaf node points to is neither of the two split leaves
    have hna : a ≠ p.alloc := fun h => hno v.next_id ((hmem _).2 (.inl rfl)) (by rw [hptr_new, h])
    have ha₀ : a ≠ v.leaf ln := fun h => hno ln ((hmem _).2 (.inr hln)) (by rw [hptr ln hln, h])
    rw [hc.other a ha₀ hna]
    refine hT.orphan a (by rw [hc.alloc] at ha; omega) fun n hn h => hno n ((hmem n).2 (.inr hn)) ?_
    rw [hptr n hn, h]

/-- The map of the leaves after the split: `key` is stored with `value`, every other key as
before. -/
theorem SplitCommit.stores {m : CStr → Option CStr} (hc : SplitCommit rodata p v ln key value p' vw)
    (hT : IndexOK rodata p v T) (hn : leafSearchFrom key.cstr T = some ln)
    (hkey : ¬ (p.leaves (v.leaf ln)).Holds key.cstr) (hm : Stores p m) :
    Stores p' (Function.update m key.cstr (some value.cstr)) := by
  have ha₀ := hT.ptr_lt ln (leafSearchFrom_mem T hn)
  have hab : v.leaf ln ≠ p.alloc := Nat.ne_of_lt ha₀
  -- the old leaf's pairs and the new pair are the pairs of the two leaves after the split
  have hsplit : ∀ k x, ((k = key.cstr ∧ x = value.cstr) ∨ (p.leaves (v.leaf ln)).Maps k x) ↔
      (p'.leaves (v.leaf ln)).Maps k x ∨ (p'.leaves p.alloc).Maps k x := by
    intro k x
    rw [hc.maps_old, hc.maps_new]
    by_cases hk : k ≤ splitKey (p.leaves (v.leaf ln)) key.cstr
    · simp [hk, not_lt.2 hk]
    · simp [hk, lt_of_not_ge hk]
  -- the leaves before and after, the two split leaves apart
  have hbefore : ∀ k x, (∃ a < p.alloc, (p.leaves a).Maps k x) ↔
      (p.leaves (v.leaf ln)).Maps k x ∨ ∃ a < p.alloc, a ≠ v.leaf ln ∧ (p.leaves a).Maps k x := by
    intro k x
    constructor
    · rintro ⟨a, ha, h⟩
      by_cases ha' : a = v.leaf ln
      · exact .inl (ha' ▸ h)
      · exact .inr ⟨a, ha, ha', h⟩
    · rintro (h | ⟨a, ha, -, h⟩)
      · exact ⟨_, ha₀, h⟩
      · exact ⟨a, ha, h⟩
  have hafter : ∀ k x, (∃ a < p'.alloc, (p'.leaves a).Maps k x) ↔
      ((p'.leaves (v.leaf ln)).Maps k x ∨ (p'.leaves p.alloc).Maps k x) ∨
        ∃ a < p.alloc, a ≠ v.leaf ln ∧ (p.leaves a).Maps k x := by
    intro k x
    rw [hc.alloc]
    constructor
    · rintro ⟨a, ha, h⟩
      by_cases ha' : a = v.leaf ln
      · exact .inl (.inl (ha' ▸ h))
      · by_cases hna : a = p.alloc
        · exact .inl (.inr (hna ▸ h))
        · exact .inr ⟨a, by omega, ha', by rwa [hc.other a ha' hna] at h⟩
    · rintro ((h | h) | ⟨a, ha, ha', h⟩)
      · exact ⟨_, by omega, h⟩
      · exact ⟨_, by omega, h⟩
      · exact ⟨a, by omega, by rwa [hc.other a ha' (Nat.ne_of_lt ha)]⟩
  intro k x
  rw [hafter, ← hsplit, update_apply_eq]
  by_cases hk : k = key.cstr
  · -- no other leaf holds `key`: the search for it finds `ln`
    subst hk
    have hother : ¬ ∃ a < p.alloc, a ≠ v.leaf ln ∧ (p.leaves a).Maps key.cstr x := by
      rintro ⟨a, ha, hne, hx⟩
      obtain ⟨n, -, rfl, hn'⟩ := hT.holder_search ha hx.holds
      rw [hn, Option.some.injEq] at hn'
      exact hne (by rw [hn'])
    have hno : ¬ (p.leaves (v.leaf ln)).Maps key.cstr x := fun h => hkey h.holds
    simp [hother, hno, eq_comm]
  · rw [if_neg hk, hm, hbefore]
    simp [hk]

end Index

/-! ## `Put` -/

section Put

variable {rodata : Int → UInt8} {T : ScreeDBNode} {key : Slice} {m : CStr → Option CStr}

/-- **The invariant after a split**: the image the split commits, with the index the walk
leaves. -/
theorem SplitCommit.keep {ln : Nat} {value : Slice} {p' : Pool} {vw : Volatile}
    (hc : SplitCommit rodata p v ln key value p' vw) (hI : Inv rodata ⟨p, v, none, cs⟩)
    (htop : v.top_ = some T) (hn : leafSearchFrom key.cstr T = some ln)
    (hfull : ∀ s, (p.leaves (v.leaf ln)).hashes s ≠ 0)
    (hK : (splitKeys (p.leaves (v.leaf ln)) key.cstr).Nodup) :
    Inv rodata ⟨p', leafUpdateParentsAfterSplit vw.walkFuel vw ln (.leaf v.next_id)
      (splitKey (p.leaves (v.leaf ln)) key.cstr), none, p' :: cs⟩ := by
  have hT : IndexOK rodata p v T := (indexInv_some htop).1 hI.index
  have hln := leafSearchFrom_mem T hn
  obtain ⟨ps, rfl, ⟨T', htop', hok, hleaves⟩, hhash, hleaf, -, -⟩ :=
    split_walk hc.start hT.tree htop hln (hc.keys hT hn hfull hK)
  refine ⟨rfl, rfl, hc.poolOK hI.pool (hT.ptr_lt _ hln), ?_⟩
  rw [indexInv_some htop']
  refine hc.indexOK hT hln hok (fun n => ?_) hhash hleaf
  -- the walk put the new leaf node right after `ln`
  rw [hleaves, leafIds_plugAll, leafIds_leaf]
  simp only [List.mem_append, List.mem_cons, List.not_mem_nil]
  tauto

/-- `Put` when the leaf `LeafSearch` finds has no slot for the key runs `LeafSplit`. -/
theorem put_run_split (value : Slice) {ln : Nat} (hn : leafSearch v key = some ln)
    (hslot : ((slotScan (v.hashes ln) (p.leaves (v.leaf ln)) (key.hash rodata) key.cstr slotsDown
      none).2.or (slotScan (v.hashes ln) (p.leaves (v.leaf ln)) (key.hash rodata) key.cstr
      slotsDown none).1) = none) {t' : Tree}
    (hrun : leafSplit ln (key.hash rodata) key value ⟨p, v, none, cs⟩ = .ok () t') :
    put rodata key value ⟨p, v, none, cs⟩ = .ok .ok t' := by
  simp only [put, bind, readV_bind, hn]
  rw [bind_of_run _ (leafFillSlotForKey_run_none hslot)]
  show EStateM.bind (leafSplit ln (key.hash rodata) key value) (fun _ => pure Status.ok)
    ⟨p, v, none, cs⟩ = _
  rw [bind_of_run _ hrun]
  rfl

/-- `Put` into a full leaf that does not hold the key: the split publishes one image, keeps the
invariant, and the leaves store the pair. -/
theorem put_split_spec (hI : Inv rodata ⟨p, v, none, cs⟩) (htop : v.top_ = some T)
    (hm : Stores p m) (hk : key.IsCStr) (value : Slice) {ln : Nat}
    (hn : leafSearchFrom key.cstr T = some ln)
    (hslot : ((slotScan (v.hashes ln) (p.leaves (v.leaf ln)) (key.hash rodata) key.cstr slotsDown
      none).2.or (slotScan (v.hashes ln) (p.leaves (v.leaf ln)) (key.hash rodata) key.cstr
      slotsDown none).1) = none) :
    ∃ t', put rodata key value ⟨p, v, none, cs⟩ = .ok .ok t' ∧ Inv rodata t' ∧
      Stores t'.pm (Function.update m key.cstr (some value.cstr)) ∧ t'.commits = t'.pm :: cs := by
  have hT : IndexOK rodata p v T := (indexInv_some htop).1 hI.index
  have hln := leafSearchFrom_mem T hn
  have hl := hT.leafOK hI.pool hln
  -- no slot for the key: the leaf is full of other keys
  have hslot' := hslot
  rw [hT.cache ln hln, hk.hash_eq] at hslot'
  obtain ⟨hkey, hfull⟩ := slotScan_choice_none hl hslot'
  obtain ⟨p', vw, hrun, hc⟩ := leafSplit_commit hI htop hln hfull hkey hk value
  exact ⟨_, put_run_split value (by simp [leafSearch, htop, hn]) hslot hrun,
    hc.keep hI htop hn hfull (splitKeys_nodup hl hfull hkey), hc.stores hT hn hkey hm, rfl⟩

/-- **`Put`.** From a tree with the invariant, `Put` of a C string key returns `OK`, publishes
one image, keeps the invariant, and the leaves store the map with the pair set. -/
theorem put_spec (hI : Inv rodata ⟨p, v, none, cs⟩) (hm : Stores p m) (hk : key.IsCStr)
    (value : Slice) :
    ∃ t', put rodata key value ⟨p, v, none, cs⟩ = .ok .ok t' ∧ Inv rodata t' ∧
      Stores t'.pm (Function.update m key.cstr (some value.cstr)) ∧ t'.commits = t'.pm :: cs := by
  cases htop : v.top_ with
  | none => exact put_head_spec hI htop hm hk value
  | some T =>
    have hT : IndexOK rodata p v T := (indexInv_some htop).1 hI.index
    obtain ⟨d, hwf⟩ := hT.tree.wf
    obtain ⟨ln, hn⟩ := leafSearchFrom_isSome key.cstr T hwf
    -- the key's slot or a free one, else the split
    cases hslot : ((slotScan (v.hashes ln) (p.leaves (v.leaf ln)) (key.hash rodata) key.cstr
        slotsDown none).2.or (slotScan (v.hashes ln) (p.leaves (v.leaf ln)) (key.hash rodata)
        key.cstr slotsDown none).1) with
    | some s => exact put_fill_spec hI htop hm hk value hn hslot
    | none => exact put_split_spec hI htop hm hk value hn hslot

end Put

/-! ## The split end to end -/

section Spec

variable {rodata : Int → UInt8} {T : ScreeDBNode} {ln : Nat} {key value : Slice}

/-- What `LeafSplit` of the leaf node `ln` of the index `T` for `key` and `value` leaves, from the
image `p` and volatile memory `v`, in the image `p'` and volatile memory `v'`. -/
structure SplitResult (rodata : Int → UInt8) (p : Pool) (v : Volatile) (T : ScreeDBNode)
    (ln : Nat) (key value : Slice) (p' : Pool) (v' : Volatile) : Prop where
  /-- `split_key` is the 25th smallest of the 49 keys, with 24 above it. -/
  rank_le : (splitKeys (p.leaves (v.leaf ln)) key.cstr).countP
    (fun k => decide (k ≤ splitKey (p.leaves (v.leaf ln)) key.cstr)) = 25
  rank_gt : (splitKeys (p.leaves (v.leaf ln)) key.cstr).countP
    (fun k => decide (splitKey (p.leaves (v.leaf ln)) key.cstr < k)) = 24
  /-- The new leaf node `v.next_id` has the new leaf, linked in front of the list. -/
  new_ptr : v'.leaf v.next_id = p.alloc
  old_ptr : v'.leaf ln = v.leaf ln
  head : p'.root.head = some p.alloc
  next_new : (p'.leaves p.alloc).next = p.root.head
  /-- The old leaf has the pairs at or below the split key, the new leaf those above it, of the
  old pairs and the new one; each leaf has no key twice and its hashes are its keys' hashes. -/
  maps_old : ∀ k x, (p'.leaves (v.leaf ln)).Maps k x ↔
    k ≤ splitKey (p.leaves (v.leaf ln)) key.cstr ∧
      ((k = key.cstr ∧ x = value.cstr) ∨ (p.leaves (v.leaf ln)).Maps k x)
  maps_new : ∀ k x, (p'.leaves p.alloc).Maps k x ↔
    splitKey (p.leaves (v.leaf ln)) key.cstr < k ∧
      ((k = key.cstr ∧ x = value.cstr) ∨ (p.leaves (v.leaf ln)).Maps k x)
  ok_old : LeafOK rodata (p'.leaves (v.leaf ln))
  ok_new : LeafOK rodata (p'.leaves p.alloc)
  /-- Slot by slot: a pair at or below the split key stays where it was, one above it is in the
  same slot of the new leaf, with its hash in both copies. -/
  stay : ∀ s, ((p.leaves (v.leaf ln)).kv_keys s).data ≤ splitKey (p.leaves (v.leaf ln)) key.cstr →
    (p'.leaves (v.leaf ln)).slotAt s = (p.leaves (v.leaf ln)).slotAt s ∧
      v'.hashes ln s = (p.leaves (v.leaf ln)).hashes s
  moved : ∀ s, splitKey (p.leaves (v.leaf ln)) key.cstr < ((p.leaves (v.leaf ln)).kv_keys s).data →
    (p'.leaves p.alloc).hashes s = (p.leaves (v.leaf ln)).hashes s ∧
      v'.hashes v.next_id s = (p.leaves (v.leaf ln)).hashes s ∧
      ((p'.leaves p.alloc).kv_keys s).data = ((p.leaves (v.leaf ln)).kv_keys s).data ∧
      ((p'.leaves p.alloc).kv_values s).data = ((p.leaves (v.leaf ln)).kv_values s).data
  /-- The hash caches of both leaf nodes are their leaves' hashes. -/
  cache_old : v'.hashes ln = (p'.leaves (v.leaf ln)).hashes
  cache_new : v'.hashes v.next_id = (p'.leaves p.alloc).hashes
  /-- A key that `LeafSearch` took to `ln` now goes to `ln` when it is at or below the split key,
  and to the new leaf node when it is above. -/
  routes : ∀ k, leafSearchFrom k T = some ln →
    v'.top_.bind (leafSearchFrom k) =
      some (if k ≤ splitKey (p.leaves (v.leaf ln)) key.cstr then ln else v.next_id)

/-- **`LeafSplit` end to end.** On a tree with the invariant, for a leaf node whose slots all hold
keys and a key it does not hold that `LeafSearch` takes to it, `LeafSplit` commits one image and
leaves the split the `SplitResult` describes. -/
theorem leafSplit_spec (hI : Inv rodata ⟨p, v, none, cs⟩) (htop : v.top_ = some T)
    (hn : leafSearchFrom key.cstr T = some ln) (hfull : ∀ s, (p.leaves (v.leaf ln)).hashes s ≠ 0)
    (hkey : ¬ (p.leaves (v.leaf ln)).Holds key.cstr) (hk : key.IsCStr) :
    ∃ p' v', leafSplit ln (key.hash rodata) key value ⟨p, v, none, cs⟩ =
        .ok () ⟨p', v', none, p' :: cs⟩ ∧ SplitResult rodata p v T ln key value p' v' := by
  have hT : IndexOK rodata p v T := (indexInv_some htop).1 hI.index
  have hln := leafSearchFrom_mem T hn
  have hl := hT.leafOK hI.pool hln
  have hK := splitKeys_nodup hl hfull hkey
  have hnn : ln ≠ v.next_id := fun h => hT.tree.next_id_not_mem (h ▸ hln)
  obtain ⟨p', vw, hrun, hc⟩ := leafSplit_commit hI htop hln hfull hkey hk value
  have hkeys := hc.keys hT hn hfull hK
  -- the walk changes neither the hash caches nor the leaf pointers
  obtain ⟨-, -, -, hhash, hleaf, -, -⟩ := split_walk hc.start hT.tree htop hln hkeys
  refine ⟨p', _, hrun, ⟨splitKey_rank_le hK, splitKey_rank_gt hK, ?_, ?_, by rw [hc.root],
    hc.next_new, hc.maps_old, hc.maps_new, hc.ok_old, hc.ok_new, fun s hs => ?_, fun s hs => ?_,
    by rw [hhash, hc.cache_old], by rw [hhash, hc.cache_new], fun k hk' => ?_⟩⟩
  · rw [hleaf, hc.leaf_ptr, if_pos rfl]
  · rw [hleaf, hc.leaf_ptr, if_neg hnn]
  · refine ⟨hc.stay s hs, ?_⟩
    rw [hhash, hc.cache_old]
    exact (slotAt_eq_iff.1 (hc.stay s hs)).1
  · obtain ⟨hh, hkd, hvd⟩ := hc.moved s hs
    exact ⟨hh, by rw [hhash, hc.cache_new, hh], hkd, hvd⟩
  · obtain ⟨T', htop', hroute⟩ :=
      split_routes hc.start hT.tree htop hln hkeys.split_reached hkeys.above hk'
    rw [htop', Option.bind_some, hroute]

/-- The byte `s + 1` of the slot `s`: never `0`. -/
theorem slotByte_ne_zero : ∀ s : Slot, UInt8.ofNat (s.val + 1) ≠ 0 := by decide

/-- The one-byte key `s + 1`. -/
def slotKey (s : Slot) : CStr :=
  ⟨[UInt8.ofNat (s.val + 1)], by simpa using slotByte_ne_zero s⟩

theorem slotKey_injective : Function.Injective slotKey := by
  intro s t h
  have hst : (s.val + 1) % 256 = (t.val + 1) % 256 := by
    simpa [slotKey] using congrArg (fun c => (c.bytes.headD 0).toNat) h
  have hs : s.val < 48 := s.isLt
  have ht : t.val < 48 := t.isLt
  exact Fin.ext (by omega)

/-- A full leaf: slot `s` holds the key `s + 1`, with an empty value. -/
def fullLeaf (rodata : Int → UInt8) : ScreeDBLeaf :=
  ⟨fun s => keyHash rodata (slotKey s), none, fun s => ⟨slotKey s, none⟩, fun _ => .empty⟩

/-- The pool of one full leaf, and the index of one leaf node over it. -/
def fullPool (rodata : Int → UInt8) : Pool := ⟨⟨1, 0, some 0⟩, fun _ => fullLeaf rodata, 1⟩

def fullIndex (rodata : Int → UInt8) : Volatile :=
  ⟨some (.leaf 0), fun _ => none, fun _ => (fullLeaf rodata).hashes, fun _ => 0, 1⟩

/-- The key `49`, which no slot of the full leaf holds. -/
def key49 : Slice := ⟨[49, 0], 1, by decide⟩

theorem fullLeaf_leafOK (rodata : Int → UInt8) : LeafOK rodata (fullLeaf rodata) := by
  refine ⟨fun s t k hs ht => slotKey_injective ?_, fun s _ => rfl⟩
  exact hs.2.trans ht.2.symm

/-- The full leaf under its one leaf node, between two calls. -/
def fullTree : Tree := ⟨fullPool (fun _ => 0), fullIndex (fun _ => 0), none, [fullPool (fun _ => 0)]⟩

theorem fullTree_inv : Inv (fun _ => 0) fullTree := by
  have hleaf := fullLeaf_leafOK (fun _ => 0)
  refine ⟨rfl, rfl, ⟨rfl, fun a ha => ?_, fun a _ => hleaf⟩, ?_⟩
  · obtain rfl : a = 0 := by simpa [fullTree, fullPool] using ha
    rfl
  · rw [indexInv_some rfl]
    refine ⟨⟨⟨0, by simp⟩, by simp, by simp [fullTree, fullIndex], parentsOK_leaf _, rfl⟩,
      by simp [fullTree, fullIndex, fullPool], by simp, by simp [fullTree, fullIndex, fullPool],
      fun a ha hna => ?_⟩
    obtain rfl : a = 0 := by simpa [fullTree, fullPool] using ha
    exact absurd rfl (hna 0 (by simp))

/-- The key `"\x05\0x"` of three bytes, whose C string `"\x05"` slot `4` of the full leaf holds,
and the value `"w"`. -/
def key5Nul : Slice := ⟨[5, 0, 120, 0], 3, by decide⟩

def value5 : Slice := ⟨[119, 0], 1, by decide⟩

/-- **A split stores a key twice.** `Put("\x05\0x", "w")` into the full leaf: the hash of the
three bytes matches no slot, so `LeafFillSlotForKey` finds none and `Put` calls `LeafSplit`. The
sort compares C strings, where the new key is `"\x05"` like slot `4`'s; the split key is
`"\x18"`, slots `24` to `47` move to the new leaf, and the pair goes into the first free slot of the
old leaf, slot `47`. The old leaf then holds `"\x05"` in slots `4` and `47`. -/
theorem split_nul_key_duplicates :
    Inv (fun _ => 0) fullTree ∧ (∀ s, (fullTree.pm.leaves 0).hashes s ≠ 0) ∧
      ∃ t', put (fun _ => 0) key5Nul value5 fullTree = .ok .ok t' ∧ t'.pm.alloc = 2 ∧
        (t'.pm.leaves 0).HoldsAt ⟨4, by decide⟩ key5Nul.cstr ∧
        (t'.pm.leaves 0).HoldsAt ⟨47, by decide⟩ key5Nul.cstr := by
  refine ⟨fullTree_inv, fun s => keyHash_ne_zero _ _, ?_⟩
  -- the scan with the hash of the three bytes finds neither the key nor a free slot
  have hslot : ((slotScan ((fullIndex fun _ => 0).hashes 0) ((fullPool fun _ => 0).leaves
      ((fullIndex fun _ => 0).leaf 0)) (key5Nul.hash fun _ => 0) key5Nul.cstr slotsDown none).2.or
      (slotScan ((fullIndex fun _ => 0).hashes 0) ((fullPool fun _ => 0).leaves
      ((fullIndex fun _ => 0).leaf 0)) (key5Nul.hash fun _ => 0) key5Nul.cstr slotsDown
      none).1) = none := by
    decide
  -- the 25th of the 49 keys in `strcmp` order
  have hsplit : splitKey ((fullPool fun _ => 0).leaves ((fullIndex fun _ => 0).leaf 0))
      key5Nul.cstr = slotKey ⟨23, by decide⟩ := by
    rw [splitKey, sortKeys_eq_insertionSort]
    decide
  -- the slot loop moves the slots whose keys sort above it, `24` to `47`
  obtain ⟨p₃, v₃, hmove, hM⟩ := @moveSlots_run [fullPool fun _ => 0] 0 1 0 1 (by decide)
    (by decide) (slotKey ⟨23, by decide⟩) slotsDown nodup_slotsDown
    (((fullPool fun _ => 0).allocLeaf.2.modifyLeaf 1 (·.setNext (fullPool fun _ => 0).root.head)))
    (((fullIndex fun _ => 0).newLeafNode ((fullIndex fun _ => 0).parent 0)).2.setLeafPtr 1 1)
  have hmoved : ∀ s : Slot, (s ∈ slotsDown ∧ 0 < strcmp ((((fullPool fun _ => 0).allocLeaf.2.modifyLeaf
      1 (·.setNext (fullPool fun _ => 0).root.head)).leaves 0).kv_keys s).data.bytes
      (slotKey ⟨23, by decide⟩).bytes) ↔ 24 ≤ s.val := by
    decide
  -- so the old leaf node's cache is free from slot `24` on, and the pair goes into slot `47`
  have hcache : v₃.hashes 0 = fun s => if 24 ≤ s.val then 0 else keyHash (fun _ => 0) (slotKey s) := by
    funext s
    by_cases hs : 24 ≤ s.val
    · rw [if_pos hs]
      exact hM.cache_cleared s ((hmoved s).2 hs)
    · rw [if_neg hs, hM.cache_stay 0 s fun h => absurd ((hmoved s).1 h) hs]
      rfl
  have hfirst : firstEmptySlot (v₃.hashes 0) = some ⟨47, by decide⟩ := by
    rw [hcache]
    decide
  have hside : ¬ slotKey ⟨23, by decide⟩ < key5Nul.cstr := by decide
  have hrun := @leafSplit_run (fullPool fun _ => 0) (fullIndex fun _ => 0) [fullPool fun _ => 0] 0
    (key5Nul.hash fun _ => 0) key5Nul value5 p₃ v₃ ⟨47, by decide⟩
    (by rw [hsplit]; exact hmove) (by rw [hsplit, if_neg hside]; exact hfirst)
  rw [hsplit, if_neg hside] at hrun
  have hleaf : v₃.leaf 0 = 0 := by rw [hM.leaf_ptr]; rfl
  refine ⟨_, put_run_split value5 rfl hslot hrun, ?_, ?_, ?_⟩
  · simp [hM.alloc, fullPool]
  · -- slot `4` kept `"\x05"` through the loop and the fill
    have h4 := hM.stay 0 ⟨4, by decide⟩ fun h => absurd ((hmoved _).1 h) (by decide)
    simp only [Pool.setHead_leaves, Pool.modifyLeaf_leaves, hleaf, if_true]
    refine ⟨?_, ?_⟩
    · rw [(slotAt_eq_iff.1 (fillSlot_slotAt_of_ne _ _ _ _ _ _ _ (by decide))).1,
        (slotAt_eq_iff.1 h4).1]
      decide
    · rw [(slotAt_eq_iff.1 (fillSlot_slotAt_of_ne _ _ _ _ _ _ _ (by decide))).2.1,
        (slotAt_eq_iff.1 h4).2.1]
      decide
  · -- slot `47` takes the key cut at `0x00`
    simp only [Pool.setHead_leaves, Pool.modifyLeaf_leaves, hleaf, if_true]
    exact ⟨by simp [Slice.hash, pearsonHash_ne_zero], by simp [fillSlot_key_data]⟩

end Spec

end ScreeDB
