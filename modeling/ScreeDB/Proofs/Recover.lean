import ScreeDB.Proofs.Rebuild

/-!
# Opening a pool

A pool holds an image between two sessions. The images a running tree publishes satisfy `ImageOK`:
the persistent half of the invariant (`PoolOK`), and leaves whose key sets lie one below the other.
That is all the constructor reads:

* `PoolOK.leafList_eq`: the list from `root->head` is every allocated leaf, newest first;
* `rebuildNodes_indexInv`: `RebuildNodes` over that list builds an index with `IndexInv`;
* `openTree_inv`: the constructor on an `ImageOK` image leaves a running tree with `Inv`.

`Pool.read` is the map the leaves hold, read along the list from `root->head`; on an `ImageOK` image
it is the map `Stores` speaks of (`ImageOK.stores_read`), and the only one (`Stores.unique`).
-/

namespace ScreeDB

open ScreeDBNode ScreeDBLeaf

/-- An image `Recover` can open: a well-formed pool whose leaves hold separated key sets. -/
structure ImageOK (rodata : Int → UInt8) (p : Pool) : Prop where
  pool : PoolOK rodata p
  separated : Separated p (List.range p.alloc)

/-! ## The map the leaves hold -/

/-- The value the leaf holds for `k`: that of the first slot from the last down holding `k`. -/
def ScreeDBLeaf.lookup (l : ScreeDBLeaf) (k : CStr) : Option CStr :=
  (slotsDown.find? fun s => decide (l.HoldsAt s k)).map fun s => (l.kv_values s).data

/-- The map the persistent leaves hold, read along the list from `root->head`: the value of the
first leaf holding `k`. -/
def Pool.read (p : Pool) (k : CStr) : Option CStr :=
  p.leafList.findSome? fun a => (p.leaves a).lookup k

section Lookup

variable {rodata : Int → UInt8} {l : ScreeDBLeaf} {k v : CStr}

theorem maps_of_lookup (h : l.lookup k = some v) : l.Maps k v := by
  obtain ⟨s, hs, rfl⟩ := Option.map_eq_some_iff.1 h
  have hk := List.find?_some hs
  exact ⟨s, of_decide_eq_true hk, rfl⟩

theorem LeafOK.lookup_eq_some (hl : LeafOK rodata l) : l.lookup k = some v ↔ l.Maps k v := by
  refine ⟨maps_of_lookup, ?_⟩
  rintro ⟨s, hs, rfl⟩
  cases hf : slotsDown.find? fun s => decide (l.HoldsAt s k) with
  | none =>
    exact absurd (List.find?_eq_none.1 hf s (mem_slotsDown s)) (by simpa using hs)
  | some t =>
    -- the slot the loop stops at holds `k`, so it is `s`
    have ht := List.find?_some hf
    simp [lookup, hf, hl.distinct t s k (of_decide_eq_true ht) hs]

end Lookup

/-! ## The list of leaves -/

section List

variable {rodata : Int → UInt8} {p : Pool}

/-- The leaves were linked in front of each other, so the list from `root->head` counts the
addresses down from the last one allocated. -/
theorem PoolOK.isLeafList (hp : PoolOK rodata p) :
    IsLeafList p p.root.head (List.range p.alloc).reverse := by
  -- the list below leaf `n - 1`, by induction on `n`
  have hbelow : ∀ n ≤ p.alloc,
      IsLeafList p (if n = 0 then none else some (n - 1)) (List.range n).reverse := by
    intro n hn
    induction n with
    | zero => rfl
    | succ n ih =>
      rw [List.range_succ, List.reverse_append]
      refine ⟨by simp, ?_⟩
      rw [hp.next n (by omega)]
      exact ih (by omega)
  rw [hp.head]
  exact hbelow p.alloc le_rfl

theorem PoolOK.leafList_eq (hp : PoolOK rodata p) : p.leafList = (List.range p.alloc).reverse :=
  ScreeDB.leafList_eq hp.isLeafList (List.nodup_reverse.2 List.nodup_range) (by simp)

theorem PoolOK.mem_leafList (hp : PoolOK rodata p) {a : Nat} : a ∈ p.leafList ↔ a < p.alloc := by
  simp [hp.leafList_eq]

end List

/-! ## Images -/

section Image

variable {rodata : Int → UInt8} {p p' : Pool}

/-- An image is judged by the head of its list, its leaves and its allocation count only. -/
theorem ImageOK.congr (h : ImageOK rodata p) (hh : p'.root.head = p.root.head)
    (hl : p'.leaves = p.leaves) (ha : p'.alloc = p.alloc) : ImageOK rodata p' := by
  obtain ⟨⟨hhead, hnext, hleaves⟩, hsep⟩ := h
  refine ⟨⟨?_, ?_, ?_⟩, ?_⟩
  · rw [hh, ha]; exact hhead
  · rw [hl, ha]; exact hnext
  · rw [hl, ha]; exact hleaves
  · unfold Separated
    rw [hl, ha]
    exact hsep

theorem leafChain_congr (hl : p'.leaves = p.leaves) : ∀ fuel h, leafChain p' fuel h = leafChain p fuel h
  | 0, _ => rfl
  | _ + 1, none => rfl
  | fuel + 1, some a => by rw [leafChain, leafChain, hl, leafChain_congr hl fuel]

theorem Pool.read_congr (hh : p'.root.head = p.root.head) (hl : p'.leaves = p.leaves)
    (ha : p'.alloc = p.alloc) : p'.read = p.read := by
  funext k
  simp only [Pool.read, Pool.leafList, hh, hl, ha, leafChain_congr hl]

/-- The index is judged by the leaves and the allocation count only. -/
theorem IndexInv.congr {v : Volatile} (hl : p'.leaves = p.leaves) (ha : p'.alloc = p.alloc)
    (h : IndexInv rodata p v) : IndexInv rodata p' v := by
  obtain ⟨r, l, n⟩ := p
  obtain ⟨r', l', n'⟩ := p'
  simp only at hl ha
  subst hl ha
  cases htop : v.top_ with
  | none =>
    rw [indexInv_none htop] at h ⊢
    exact h
  | some T =>
    obtain ⟨htree, hlt, hinj, hcache, horphan⟩ := (indexInv_some htop).1 h
    exact (indexInv_some htop).2 ⟨htree, hlt, hinj, hcache, horphan⟩

/-- Two allocated leaves of an image never hold one key. -/
theorem ImageOK.holder_unique (h : ImageOK rodata p) {a b : Nat} (ha : a < p.alloc)
    (hb : b < p.alloc) {k : CStr} (hka : (p.leaves a).Holds k) (hkb : (p.leaves b).Holds k) :
    a = b := by
  by_contra hab
  rcases h.separated a (List.mem_range.2 ha) b (List.mem_range.2 hb) hab with hlt | hlt
  · exact lt_irrefl k (hlt k k hka hkb)
  · exact lt_irrefl k (hlt k k hka hkb)

theorem ImageOK.read_eq_some (h : ImageOK rodata p) {k v : CStr} :
    p.read k = some v ↔ ∃ a < p.alloc, (p.leaves a).Maps k v := by
  constructor
  · intro hr
    obtain ⟨a, ha, hav⟩ := List.exists_of_findSome?_eq_some hr
    exact ⟨a, h.pool.mem_leafList.1 ha, maps_of_lookup hav⟩
  · rintro ⟨a, ha, hmaps⟩
    cases hr : p.read k with
    | none =>
      have := List.findSome?_eq_none_iff.1 hr a (h.pool.mem_leafList.2 ha)
      rw [(h.pool.leaves a ha).lookup_eq_some.2 hmaps] at this
      cases this
    | some w =>
      -- the leaf the read stops at holds `k` too, so it is `a`
      obtain ⟨b, hb, hbw⟩ := List.exists_of_findSome?_eq_some hr
      have hb' := h.pool.mem_leafList.1 hb
      have hbmaps := maps_of_lookup hbw
      obtain rfl := h.holder_unique hb' ha hbmaps.holds hmaps.holds
      rw [(h.pool.leaves b hb').maps_unique hbmaps hmaps]

theorem ImageOK.stores_read (h : ImageOK rodata p) : Stores p p.read :=
  fun _ _ => h.read_eq_some

/-- The leaves store one map only. -/
theorem Stores.unique {m m' : CStr → Option CStr} (hm : Stores p m) (hm' : Stores p m') :
    m = m' := by
  funext k
  exact Option.ext fun v => (hm k v).trans (hm' k v).symm

end Image

/-- The image of a running tree can be opened. -/
theorem Inv.imageOK {rodata : Int → UInt8} {t : Tree} (hI : Inv rodata t) :
    ImageOK rodata t.pm := by
  refine ⟨hI.pool, fun a ha b hb hab => ?_⟩
  rw [List.mem_range] at ha hb
  -- a leaf holding nothing lies below and above every other leaf
  by_cases hka : ∃ k, (t.pm.leaves a).Holds k
  · by_cases hkb : ∃ k, (t.pm.leaves b).Holds k
    · obtain ⟨k, hk⟩ := hka
      obtain ⟨k', hk'⟩ := hkb
      cases htop : t.vm.top_ with
      | none =>
        exact absurd hk (empty_iff_forall_not_holds.1 ((indexInv_none htop).1 hI.index a ha) k)
      | some T => exact ((indexInv_some htop).1 hI.index).separated ha hb hab hk hk'
    · exact .inl fun _ l' _ hl' => absurd ⟨l', hl'⟩ hkb
  · exact .inl fun l _ hl _ => absurd ⟨l, hl⟩ hka

/-! ## `RebuildNodes` on an image -/

section Rebuild

variable {rodata : Int → UInt8} {p : Pool} {v : Volatile} {T : ScreeDBNode}

/-- An index `Rebuilt` over every allocated leaf is an index of the pool. -/
theorem Rebuilt.indexOK (hR : Rebuilt p (List.range p.alloc).reverse v T) :
    IndexOK rodata p v T := by
  have hnd : ((leafIds T).map v.leaf).Nodup :=
    hR.leaves_perm.nodup_iff.2 ((List.nodup_reverse.2 List.nodup_range).filter _)
  refine ⟨hR.tree, fun n hn => ?_, fun n hn n' hn' h => List.inj_on_of_nodup_map hnd hn hn' h,
    hR.cache, fun a ha hna => ?_⟩
  · have hmem := hR.leaves_perm.subset (List.mem_map_of_mem hn)
    simpa using (List.mem_filter.1 hmem).1
  · -- a non-empty leaf is indexed, so a leaf nothing points to is empty
    by_contra hne
    have hmem : a ∈ (List.range p.alloc).reverse.filter fun a => !decide (p.leaves a).Empty :=
      List.mem_filter.2 ⟨by simpa using ha, by simpa using hne⟩
    obtain ⟨n, hn, rfl⟩ := List.mem_map.1 (hR.leaves_perm.symm.subset hmem)
    exact hna n hn rfl

/-- What `RebuildNodes` needs of the list of an image that opens: every allocated leaf, newest
first, once each, with separated key sets. -/
theorem ImageOK.leafList (h : ImageOK rodata p) :
    IsLeafList p p.root.head (List.range p.alloc).reverse ∧ (List.range p.alloc).reverse.Nodup ∧
      (∀ a ∈ (List.range p.alloc).reverse, a < p.alloc) ∧
      Separated p (List.range p.alloc).reverse :=
  ⟨h.pool.isLeafList, List.nodup_reverse.2 List.nodup_range, by simp,
    fun a ha b hb => h.separated a (by simpa using ha) b (by simpa using hb)⟩

/-- `RebuildNodes` on an image that opens: the index of its non-empty leaves. -/
theorem ImageOK.rebuilt (h : ImageOK rodata p) (v : Volatile) :
    ((rebuildNodes p v).top_ = none ↔ ∀ a ∈ (List.range p.alloc).reverse, (p.leaves a).Empty) ∧
      ∀ T, (rebuildNodes p v).top_ = some T →
        Rebuilt p (List.range p.alloc).reverse (rebuildNodes p v) T := by
  obtain ⟨hL, hnd, hlt, hsep⟩ := h.leafList
  exact ⟨rebuildNodes_top_none hL hnd hlt hsep v, rebuildNodes_rebuilt hL hnd hlt hsep v⟩

theorem rebuildNodes_indexInv (h : ImageOK rodata p) (v : Volatile) :
    IndexInv rodata p (rebuildNodes p v) := by
  obtain ⟨hnone, hsome⟩ := h.rebuilt v
  cases htop : (rebuildNodes p v).top_ with
  | none =>
    rw [indexInv_none htop]
    exact fun a ha => hnone.1 htop a (by simpa using ha)
  | some T =>
    rw [indexInv_some htop]
    exact (hsome T htop).indexOK

end Rebuild

/-! ## The constructor -/

section Open

variable {rodata : Int → UInt8} {p : Pool}

/-- `Recover` on a pool whose list is empty counts a first opening; -/
theorem recover_run_none (h : p.root.head = none) :
    recover (Txn.Machine.start p .empty) = .ok ()
      ⟨(p.setOpened 1).setClosed 0, .empty, none, [(p.setOpened 1).setClosed 0, p]⟩ := by
  simp only [recover, bind, Txn.Machine.start, Txn.readP_bind, h]
  rfl

/-- on another pool it rebuilds the index and counts the opening. -/
theorem recover_run_some {a : Nat} (h : p.root.head = some a) :
    recover (Txn.Machine.start p .empty) = .ok ()
      ⟨p.setOpened (p.root.opened + 1), rebuildNodes p .empty, none,
        [p.setOpened (p.root.opened + 1), p]⟩ := by
  simp only [recover, bind, Txn.Machine.start, Txn.readP_bind, h]
  rfl

theorem openTree_of_head_none (h : p.root.head = none) :
    openTree p = ⟨(p.setOpened 1).setClosed 0, .empty, none, [(p.setOpened 1).setClosed 0, p]⟩ := by
  simp only [openTree, exec, recover_run_none h]

theorem openTree_of_head_some {a : Nat} (h : p.root.head = some a) :
    openTree p = ⟨p.setOpened (p.root.opened + 1), rebuildNodes p .empty, none,
      [p.setOpened (p.root.opened + 1), p]⟩ := by
  simp only [openTree, exec, recover_run_some h]

theorem openTree_inv (h : ImageOK rodata p) : Inv rodata (openTree p) := by
  cases hh : p.root.head with
  | none =>
    rw [openTree_of_head_none hh]
    -- an empty list means no leaf was ever allocated
    have halloc : p.alloc = 0 := by
      have := h.pool.head
      rw [hh] at this
      by_contra h0
      simp [h0] at this
    have himg := @ImageOK.congr rodata p ((p.setOpened 1).setClosed 0) h rfl rfl rfl
    exact ⟨rfl, rfl, himg.pool, (indexInv_none rfl).2 fun a ha => absurd ha (by simp [halloc])⟩
  | some a =>
    rw [openTree_of_head_some hh]
    have himg := @ImageOK.congr rodata p (p.setOpened (p.root.opened + 1)) h rfl rfl rfl
    exact ⟨rfl, rfl, himg.pool,
      @IndexInv.congr rodata p _ _ rfl rfl (rebuildNodes_indexInv h .empty)⟩

end Open

end ScreeDB
