import ScreeDB.Ops
import ScreeDB.Proofs.Slots

/-!
# Runs without faults

With no fault budget every `fallible` step passes, and the slot methods of `ScreeDBTree` run to
results that the lemmas below compute. A machine without faults is written `⟨p, v, none, cs⟩`:
the image, volatile memory, no budget, the published images.

* `setString_run`, `swapString_run`, `moveString_bind`: a string of a leaf is set, exchanged
  between two leaves, or moved as `LeafSplit` moves it (copied when short, swapped when long);
* `leafFillSpecificSlot_run`: the slot is written (`ScreeDBLeaf.fillSlot`) and its cached hash
  set; `leafFillFirstEmptySlot_run` and `leafFillSlotForKey_run_some`/`_none` pick the slot;
* `moveSlots_run`: `LeafSplit`'s slot loop moves every slot whose key sorts above the split key
  to the same slot of the new leaf, hash and strings, and frees it in the old leaf, in both hash
  copies (`MoveOut`); each of the two leaves is then part of the old one (`Restrict`), and each
  cache stays its leaf's hashes.
-/

namespace ScreeDB

open Txn ScreeDBLeaf

variable {p : Pool} {v : Volatile} {cs : List Pool}

/-! ## Strings -/

theorem setString_run (c : Column) (a : Nat) (slot : Slot) (slice : Slice) :
    setString c a slot slice ⟨p, v, none, cs⟩ =
      .ok () ⟨p.modifyLeaf a (·.setColumn c slot (((p.leaves a).column c slot).set slice)), v,
        none, cs⟩ := by
  unfold setString
  -- the snapshot for a long string and the allocation for a long slice both pass
  by_cases h2 : SSO_CHARS < slice.size_ <;> cases h1 : ((p.leaves a).column c slot).str <;>
    simp [h1, h2, bind, EStateM.bind, Txn.fallible, Txn.readP, Txn.modifyP]

theorem swapString_run (c : Column) (a b : Nat) (slot : Slot) :
    swapString c a b slot ⟨p, v, none, cs⟩ =
      .ok () ⟨(p.modifyLeaf a (·.setColumn c slot ((p.leaves b).column c slot))).modifyLeaf b
        (·.setColumn c slot ((p.leaves a).column c slot)), v, none, cs⟩ := rfl

/-- A string of `LeafSplit`'s loop moves from leaf `a` to leaf `b`: a short one is copied, a
long one swapped. Both cases are one write to each leaf; the copy's write to `a` writes back
what is there. -/
theorem moveString_run (c : Column) {a b : Nat} (hab : a ≠ b) (slot : Slot) {s : ScreeDBString}
    (hs : (p.leaves a).column c slot = s) :
    (if s.is_short = true then setString c b slot (Slice.ofCStr s.data) else swapString c b a slot)
      ⟨p, v, none, cs⟩ =
      .ok () ⟨(p.modifyLeaf b (·.setColumn c slot (if s.is_short then
          ((p.leaves b).column c slot).set (Slice.ofCStr s.data) else s))).modifyLeaf a
          (·.setColumn c slot (if s.is_short then s else (p.leaves b).column c slot)), v, none,
          cs⟩ := by
  by_cases hsh : s.is_short = true
  · rw [if_pos hsh, setString_run]
    simp only [hsh, if_true]
    rw [Pool.modifyLeaf_of_eq _ a]
    simp [hab, ← hs, ScreeDBLeaf.setColumn_column]
  · rw [if_neg hsh, swapString_run]
    simp [hsh, hs]

/-- `moveString_run` in front of the rest of the loop, in the shape the loop's `if` takes. -/
theorem moveString_bind {β : Type} (c : Column) {a b : Nat} (hab : a ≠ b) (slot : Slot)
    (s : ScreeDBString) (hs : (p.leaves a).column c slot = s) (f : Unit → TreeM β) :
    (if s.is_short = true then EStateM.bind (setString c b slot (Slice.ofCStr s.data)) f
      else EStateM.bind (swapString c b a slot) f) ⟨p, v, none, cs⟩ =
      f () ⟨(p.modifyLeaf b (·.setColumn c slot (if s.is_short then
          ((p.leaves b).column c slot).set (Slice.ofCStr s.data) else s))).modifyLeaf a
          (·.setColumn c slot (if s.is_short then s else (p.leaves b).column c slot)), v, none,
          cs⟩ := by
  have h := @moveString_run p v cs c a b hab slot s hs
  by_cases hsh : s.is_short = true
  · rw [if_pos hsh] at h
    simp only [if_pos hsh, EStateM.bind, h]
  · rw [if_neg hsh] at h
    simp only [if_neg hsh, EStateM.bind, h]

/-- Whichever way a string moved, the target holds its text. -/
theorem moved_data (s t : ScreeDBString) :
    (if s.is_short = true then t.set (Slice.ofCStr s.data) else s).data = s.data := by
  split <;> simp

/-! ## Filling a slot -/

theorem leafFillSpecificSlot_run (n : Nat) (hash : UInt8) (key value : Slice) (slot : Slot) :
    leafFillSpecificSlot n hash key value slot ⟨p, v, none, cs⟩ =
      .ok () ⟨p.modifyLeaf (v.leaf n) (·.fillSlot (v.hashes n slot = 0) slot hash key value),
        v.setHash n slot hash, none, cs⟩ := by
  unfold leafFillSpecificSlot
  by_cases h0 : v.hashes n slot = 0
  · simp only [bind, readV_bind, h0, if_true]
    rw [bind_of_run _ (setString_run _ _ _ _)]
    simp only [modifyV_bind, store_bind]
    rw [setString_run]
    simp only [Pool.modifyLeaf_modifyLeaf]
    congr 2
    apply Pool.modifyLeaf_congr
    simp [ScreeDBLeaf.fillSlot]
  · simp only [bind, readV_bind, h0, if_false, modifyV_bind, store_bind]
    rw [setString_run]
    simp only [Pool.modifyLeaf_modifyLeaf]
    congr 2
    apply Pool.modifyLeaf_congr
    simp [ScreeDBLeaf.fillSlot]

/-- `LeafFillFirstEmptySlot` writes the first free slot, whose key it writes too. -/
theorem leafFillFirstEmptySlot_run {n : Nat} {hash : UInt8} {key value : Slice} {slot : Slot}
    (h : firstEmptySlot (v.hashes n) = some slot) :
    leafFillFirstEmptySlot n hash key value ⟨p, v, none, cs⟩ =
      .ok () ⟨p.modifyLeaf (v.leaf n) (·.fillSlot true slot hash key value),
        v.setHash n slot hash, none, cs⟩ := by
  have h0 : v.hashes n slot = 0 := by simpa using List.find?_some h
  simp only [leafFillFirstEmptySlot, bind, readV_bind, h]
  rw [leafFillSpecificSlot_run]
  simp [h0]

section FillForKey

variable {n : Nat} {hash : UInt8} {key value : Slice}

/-- `LeafFillSlotForKey` with a slot to write: one transaction, published. -/
theorem leafFillSlotForKey_run_some {slot : Slot}
    (h : ((slotScan (v.hashes n) (p.leaves (v.leaf n)) hash key.cstr slotsDown none).2.or
      (slotScan (v.hashes n) (p.leaves (v.leaf n)) hash key.cstr slotsDown none).1) = some slot) :
    leafFillSlotForKey n hash key value ⟨p, v, none, cs⟩ =
      .ok true ⟨p.modifyLeaf (v.leaf n) (·.fillSlot (v.hashes n slot = 0) slot hash key value),
        v.setHash n slot hash, none,
        p.modifyLeaf (v.leaf n) (·.fillSlot (v.hashes n slot = 0) slot hash key value) :: cs⟩ := by
  simp only [leafFillSlotForKey, bind, readV_bind, readP_bind, h]
  rw [bind_of_run _ (exec_tx_run (leafFillSpecificSlot_run _ _ _ _ _))]
  rfl

/-- Without a slot, `LeafFillSlotForKey` returns `false` and changes nothing. -/
theorem leafFillSlotForKey_run_none
    (h : ((slotScan (v.hashes n) (p.leaves (v.leaf n)) hash key.cstr slotsDown none).2.or
      (slotScan (v.hashes n) (p.leaves (v.leaf n)) hash key.cstr slotsDown none).1) = none) :
    leafFillSlotForKey n hash key value ⟨p, v, none, cs⟩ = .ok false ⟨p, v, none, cs⟩ := by
  simp only [leafFillSlotForKey, bind, readV_bind, readP_bind, h]
  rfl

end FillForKey

/-! ## `LeafSplit`'s slot loop -/

section Move

/-- What the loop has done once it moved the slots `M` of the leaf `leaf` (of the leaf node
`leafnode`) to the leaf `new_leaf` (of `new_leafnode`), from the image `p` and volatile memory
`v`: a moved slot has its hash (from the cache) and its strings' text in `new_leaf` and is free
in `leaf`, in both hash copies; every other slot and every other leaf is as it was. -/
structure MoveOut (leafnode new_leafnode leaf new_leaf : Nat) (M : Slot → Prop) (p : Pool)
    (v : Volatile) (p' : Pool) (v' : Volatile) : Prop where
  root : p'.root = p.root
  alloc : p'.alloc = p.alloc
  other : ∀ b, b ≠ leaf → b ≠ new_leaf → p'.leaves b = p.leaves b
  next : ∀ b, (p'.leaves b).next = (p.leaves b).next
  stay : ∀ b s, ¬ M s → (p'.leaves b).slotAt s = (p.leaves b).slotAt s
  moved_hash : ∀ s, M s → (p'.leaves new_leaf).hashes s = v.hashes leafnode s
  moved_key : ∀ s, M s → ((p'.leaves new_leaf).kv_keys s).data = ((p.leaves leaf).kv_keys s).data
  moved_value : ∀ s, M s →
    ((p'.leaves new_leaf).kv_values s).data = ((p.leaves leaf).kv_values s).data
  cleared : ∀ s, M s → (p'.leaves leaf).hashes s = 0
  cache_new : ∀ s, M s → v'.hashes new_leafnode s = v.hashes leafnode s
  cache_cleared : ∀ s, M s → v'.hashes leafnode s = 0
  cache_stay : ∀ m s, (M s → m ≠ leafnode ∧ m ≠ new_leafnode) → v'.hashes m s = v.hashes m s
  top_ : v'.top_ = v.top_
  parent : v'.parent = v.parent
  leaf_ptr : v'.leaf = v.leaf
  next_id : v'.next_id = v.next_id

variable {leafnode new_leafnode leaf new_leaf : Nat}

theorem MoveOut.refl (p : Pool) (v : Volatile) :
    MoveOut leafnode new_leafnode leaf new_leaf (fun _ => False) p v p v :=
  ⟨rfl, rfl, fun _ _ _ => rfl, fun _ => rfl, fun _ _ _ => rfl, fun _ h => h.elim,
    fun _ h => h.elim, fun _ h => h.elim, fun _ h => h.elim, fun _ h => h.elim, fun _ h => h.elim,
    fun _ _ _ => rfl, rfl, rfl, rfl, rfl⟩

/-- Two runs of the loop over disjoint slots make one. -/
theorem MoveOut.trans {M₁ M₂ : Slot → Prop} {p₁ p₂ p₃ : Pool} {v₁ v₂ v₃ : Volatile}
    (h₁ : MoveOut leafnode new_leafnode leaf new_leaf M₁ p₁ v₁ p₂ v₂)
    (h₂ : MoveOut leafnode new_leafnode leaf new_leaf M₂ p₂ v₂ p₃ v₃)
    (hdis : ∀ s, M₁ s → ¬ M₂ s) :
    MoveOut leafnode new_leafnode leaf new_leaf (fun s => M₁ s ∨ M₂ s) p₁ v₁ p₃ v₃ := by
  -- a slot the second run moves was left alone by the first, and the other way round
  have hcache : ∀ s, ¬ M₁ s → v₂.hashes leafnode s = v₁.hashes leafnode s := fun s hs =>
    h₁.cache_stay _ _ (fun h => absurd h hs)
  have hleaf₁ : ∀ s, ¬ M₁ s → ((p₂.leaves leaf).kv_keys s) = (p₁.leaves leaf).kv_keys s ∧
      (p₂.leaves leaf).kv_values s = (p₁.leaves leaf).kv_values s := fun s hs =>
    (slotAt_eq_iff.1 (h₁.stay leaf s hs)).2
  have hnew₂ : ∀ b s, M₁ s → (p₃.leaves b).slotAt s = (p₂.leaves b).slotAt s := fun b s hs =>
    h₂.stay b s (hdis s hs)
  refine ⟨h₂.root.trans h₁.root, h₂.alloc.trans h₁.alloc, fun b hb hb' => ?_, fun b => ?_,
    fun b s hs => ?_, fun s hs => ?_, fun s hs => ?_, fun s hs => ?_, fun s hs => ?_,
    fun s hs => ?_, fun s hs => ?_, fun m s hs => ?_, h₂.top_.trans h₁.top_,
    h₂.parent.trans h₁.parent, h₂.leaf_ptr.trans h₁.leaf_ptr, h₂.next_id.trans h₁.next_id⟩
  · rw [h₂.other b hb hb', h₁.other b hb hb']
  · rw [h₂.next, h₁.next]
  · rw [h₂.stay b s (fun h => hs (.inr h)), h₁.stay b s (fun h => hs (.inl h))]
  · rcases hs with hs | hs
    · rw [(slotAt_eq_iff.1 (hnew₂ new_leaf s hs)).1, h₁.moved_hash s hs]
    · rw [h₂.moved_hash s hs, hcache s (fun h => hdis s h hs)]
  · rcases hs with hs | hs
    · rw [(slotAt_eq_iff.1 (hnew₂ new_leaf s hs)).2.1, h₁.moved_key s hs]
    · rw [h₂.moved_key s hs, (hleaf₁ s (fun h => hdis s h hs)).1]
  · rcases hs with hs | hs
    · rw [(slotAt_eq_iff.1 (hnew₂ new_leaf s hs)).2.2, h₁.moved_value s hs]
    · rw [h₂.moved_value s hs, (hleaf₁ s (fun h => hdis s h hs)).2]
  · rcases hs with hs | hs
    · rw [(slotAt_eq_iff.1 (hnew₂ leaf s hs)).1, h₁.cleared s hs]
    · exact h₂.cleared s hs
  · rcases hs with hs | hs
    · rw [h₂.cache_stay _ _ (fun h => absurd h (hdis s hs)), h₁.cache_new s hs]
    · rw [h₂.cache_new s hs, hcache s (fun h => hdis s h hs)]
  · rcases hs with hs | hs
    · rw [h₂.cache_stay _ _ (fun h => absurd h (hdis s hs)), h₁.cache_cleared s hs]
    · exact h₂.cache_cleared s hs
  · rw [h₂.cache_stay m s (fun h => hs (.inr h)), h₁.cache_stay m s (fun h => hs (.inl h))]

/-- One turn of the loop at a slot whose key sorts above the split key. -/
theorem moveSlots_cons_moved (hab : leaf ≠ new_leaf) (hn : leafnode ≠ new_leafnode) (split_key : CStr) (slot : Slot)
    (ss : List Slot) (hm : 0 < strcmp ((p.leaves leaf).kv_keys slot).data.bytes split_key.bytes) :
    ∃ p' v', MoveOut leafnode new_leafnode leaf new_leaf (· = slot) p v p' v' ∧
      moveSlots leafnode new_leafnode leaf new_leaf split_key (slot :: ss) ⟨p, v, none, cs⟩ =
        moveSlots leafnode new_leafnode leaf new_leaf split_key ss ⟨p', v', none, cs⟩ := by
  refine ⟨?p₁, ?v₁, ?out, ?run⟩
  case run =>
    simp only [moveSlots, bind, EStateM.bind, readP, hm, if_true]
    rw [moveString_bind .kv_keys hab slot ((p.leaves leaf).kv_keys slot) rfl, readP_bind,
      moveString_bind .kv_values hab slot _ ?hs]
    case hs => rfl
    simp only [readV_bind, modifyV_bind, store_bind]
    rfl
  case out =>
    -- the turn writes slot `slot` of the two leaves and of the two hash caches only
    refine ⟨rfl, rfl, fun b hb hb' => by simp [hb, hb'], fun b => ?_, fun b s hs => ?_,
      fun s hs => ?_, fun s hs => ?_, fun s hs => ?_, fun s hs => ?_, fun s hs => ?_,
      fun s hs => ?_, fun m s hs => ?_, rfl, rfl, rfl, rfl⟩
    · by_cases hb : b = leaf
      · subst hb; simp [hab]
      · by_cases hb' : b = new_leaf
        · subst hb'; simp [hb]
        · simp [hb, hb']
    · by_cases hb : b = leaf
      · subst hb; simp [slotAt, hab, hs]
      · by_cases hb' : b = new_leaf
        · subst hb'; simp [slotAt, hb, hs]
        · simp [hb, hb']
    · subst hs; simp [Ne.symm hab]
    · subst hs; simp [Ne.symm hab, moved_data]
    · subst hs; simp [hab, Ne.symm hab, moved_data]
    · subst hs; simp [hab]
    · subst hs; simp [Ne.symm hn]
    · subst hs; simp
    · by_cases hs' : s = slot
      · obtain ⟨h₁, h₂⟩ := hs hs'
        simp [h₁, h₂]
      · simp [hs']

/-- The loop moved the same slots under another description of them. -/
theorem MoveOut.of_iff {M M' : Slot → Prop} {p p' : Pool} {v v' : Volatile}
    (h : MoveOut leafnode new_leafnode leaf new_leaf M p v p' v') (hM : ∀ s, M s ↔ M' s) :
    MoveOut leafnode new_leafnode leaf new_leaf M' p v p' v' := by
  have e : M = M' := funext fun s => propext (hM s)
  exact e ▸ h

/-- One turn of the loop at a slot whose key does not sort above the split key. -/
theorem moveSlots_cons_stay (split_key : CStr) (slot : Slot) (ss : List Slot)
    (hm : ¬ 0 < strcmp ((p.leaves leaf).kv_keys slot).data.bytes split_key.bytes) :
    moveSlots leafnode new_leafnode leaf new_leaf split_key (slot :: ss) ⟨p, v, none, cs⟩ =
      moveSlots leafnode new_leafnode leaf new_leaf split_key ss ⟨p, v, none, cs⟩ := by
  simp only [moveSlots, bind, readP_bind, hm, if_false]

/-- `LeafSplit`'s slot loop over distinct slots moves exactly those whose key sorts above the
split key. -/
theorem moveSlots_run (hab : leaf ≠ new_leaf) (hn : leafnode ≠ new_leafnode) (split_key : CStr) :
    ∀ (ss : List Slot), ss.Nodup → ∀ (p : Pool) (v : Volatile), ∃ p' v',
      moveSlots leafnode new_leafnode leaf new_leaf split_key ss ⟨p, v, none, cs⟩ =
        .ok () ⟨p', v', none, cs⟩ ∧
      MoveOut leafnode new_leafnode leaf new_leaf
        (fun s => s ∈ ss ∧ 0 < strcmp ((p.leaves leaf).kv_keys s).data.bytes split_key.bytes)
        p v p' v'
  | [], _, p, v => ⟨p, v, rfl, (MoveOut.refl p v).of_iff (by simp)⟩
  | slot :: ss, hnd, p, v => by
    obtain ⟨hslot, hnd⟩ := List.nodup_cons.1 hnd
    by_cases hm : 0 < strcmp ((p.leaves leaf).kv_keys slot).data.bytes split_key.bytes
    · obtain ⟨p₁, v₁, h₁, hrun₁⟩ := @moveSlots_cons_moved p v cs leafnode new_leafnode leaf new_leaf hab hn
        split_key slot ss hm
      obtain ⟨p', v', hrun, h'⟩ := moveSlots_run hab hn split_key ss hnd p₁ v₁
      refine ⟨p', v', hrun₁.trans hrun, (h₁.trans h' ?_).of_iff fun s => ?_⟩
      · rintro s rfl ⟨hs, -⟩
        exact hslot hs
      · -- the first turn changed no key of the later slots
        by_cases hs : s = slot
        · subst hs; simp [hm]
        · have e := (slotAt_eq_iff.1 (h₁.stay leaf s hs)).2.1
          simp [hs, e]
    · obtain ⟨p', v', hrun, h'⟩ := moveSlots_run hab hn split_key ss hnd p v
      refine ⟨p', v', (moveSlots_cons_stay split_key slot ss hm).trans hrun, h'.of_iff fun s => ?_⟩
      by_cases hs : s = slot
      · subst hs; simp [hm]
      · simp [hs]

variable {M : Slot → Prop} {p' : Pool} {v' : Volatile}

/-- After the loop, `leaf` keeps the slots it did not move and has the others free. -/
theorem MoveOut.restrict_leaf (h : MoveOut leafnode new_leafnode leaf new_leaf M p v p' v') :
    Restrict (p.leaves leaf) (p'.leaves leaf) fun s => ¬ M s where
  hash s hs := (slotAt_eq_iff.1 (h.stay leaf s hs)).1
  key s hs := by rw [(slotAt_eq_iff.1 (h.stay leaf s hs)).2.1]
  value s hs := by rw [(slotAt_eq_iff.1 (h.stay leaf s hs)).2.2]
  free s hs := h.cleared s (not_not.1 hs)

/-- and `new_leaf`, empty before, has the moved slots, when the cache of `leafnode` held the hashes
of `leaf`. -/
theorem MoveOut.restrict_new_leaf (h : MoveOut leafnode new_leafnode leaf new_leaf M p v p' v')
    (hcache : v.hashes leafnode = (p.leaves leaf).hashes) (hempty : (p.leaves new_leaf).Empty) :
    Restrict (p.leaves leaf) (p'.leaves new_leaf) M where
  hash s hs := by rw [h.moved_hash s hs, hcache]
  key s hs := h.moved_key s hs
  value s hs := h.moved_value s hs
  free s hs := by rw [(slotAt_eq_iff.1 (h.stay new_leaf s hs)).1]; exact hempty s

/-- The loop keeps each of the two caches equal to the hashes of its leaf. -/
theorem MoveOut.cache_leaf (h : MoveOut leafnode new_leafnode leaf new_leaf M p v p' v')
    (hcache : v.hashes leafnode = (p.leaves leaf).hashes) :
    v'.hashes leafnode = (p'.leaves leaf).hashes := funext fun s => by
  by_cases hs : M s
  · rw [h.cache_cleared s hs, h.cleared s hs]
  · rw [h.cache_stay _ s (fun h' => absurd h' hs), hcache, (slotAt_eq_iff.1 (h.stay leaf s hs)).1]

theorem MoveOut.cache_new_leaf (h : MoveOut leafnode new_leafnode leaf new_leaf M p v p' v')
    (hcache : v.hashes leafnode = (p.leaves leaf).hashes)
    (hnew : v.hashes new_leafnode = (p.leaves new_leaf).hashes) :
    v'.hashes new_leafnode = (p'.leaves new_leaf).hashes := funext fun s => by
  by_cases hs : M s
  · rw [h.cache_new s hs, h.moved_hash s hs, hcache]
  · rw [h.cache_stay _ s (fun h' => absurd h' hs), hnew,
      (slotAt_eq_iff.1 (h.stay new_leaf s hs)).1]

end Move

end ScreeDB
