import ScreeDB.Ops
import ScreeDB.Proofs.Slots
import ScreeDB.Tree.Walk

/-!
# The invariant of a running tree

A running tree keeps its data twice: persistently in the list of leaves, and volatile in the
index over them. The invariant `Inv` ties the two:

* `PoolOK`: the leaves were allocated one after another, each new one linked in front of the
  list, so the list from `root->head` is every allocated leaf, newest first; each leaf is
  `LeafOK`;
* `IndexOK`: the index is a well-formed tree (`TreeOK`) over the keys of the leaves its leaf
  nodes point to; the pointers are distinct allocated leaves, each hash cache is its leaf's
  hashes, and a leaf no leaf node points to is empty. With `top_` null, every leaf is empty.

`Stores p m` says that the leaves of `p` map the keys as `m` does. The main results:

* `IndexOK.holder_search`: a leaf that holds a key is the leaf `LeafSearch` finds for it, so two
  leaves never hold one key (`IndexOK.holder_unique`) and the leaves' key sets are separated
  (`IndexOK.separated`);
* `get_of_stores`: `Get` answers by the map of the leaves.
-/

namespace ScreeDB

open ScreeDBNode ScreeDBLeaf

/-- The keys a leaf node holds: those of the persistent leaf it points to. -/
def nodeKeys (p : Pool) (v : Volatile) (n : Nat) (k : CStr) : Prop := (p.leaves (v.leaf n)).Holds k

/-- The persistent side: the leaves were allocated one after another and each was linked in
front of the previous one; each leaf is well-formed. -/
structure PoolOK (rodata : Int → UInt8) (p : Pool) : Prop where
  head : p.root.head = if p.alloc = 0 then none else some (p.alloc - 1)
  next : ∀ a < p.alloc, (p.leaves a).next = if a = 0 then none else some (a - 1)
  leaves : ∀ a < p.alloc, LeafOK rodata (p.leaves a)

/-- The index `T` over the pool `p`. -/
structure IndexOK (rodata : Int → UInt8) (p : Pool) (v : Volatile) (T : ScreeDBNode) :
    Prop where
  tree : TreeOK (nodeKeys p v) v T
  /-- Each leaf node points to an allocated leaf, -/
  ptr_lt : ∀ n ∈ leafIds T, v.leaf n < p.alloc
  /-- no two to the same one, -/
  ptr_inj : ∀ n ∈ leafIds T, ∀ n' ∈ leafIds T, v.leaf n = v.leaf n' → n = n'
  /-- and caches its hashes. -/
  cache : ∀ n ∈ leafIds T, v.hashes n = (p.leaves (v.leaf n)).hashes
  /-- A leaf no leaf node points to is empty. -/
  orphan : ∀ a < p.alloc, (∀ n ∈ leafIds T, v.leaf n ≠ a) → (p.leaves a).Empty

/-- The index of a running tree: a null `top_` indexes empty leaves only. -/
def IndexInv (rodata : Int → UInt8) (p : Pool) (v : Volatile) : Prop :=
  match v.top_ with
  | none => ∀ a < p.alloc, (p.leaves a).Empty
  | some T => IndexOK rodata p v T

/-- The invariant of a running tree between two calls: no fault is pending, the last published
image is the current one, and the pool and the index are well-formed. -/
structure Inv (rodata : Int → UInt8) (t : Tree) : Prop where
  budget : t.budget = none
  durable : t.durable = t.pm
  pool : PoolOK rodata t.pm
  index : IndexInv rodata t.pm t.vm

/-- The leaves of `p` map the keys as `m` does. -/
def Stores (p : Pool) (m : CStr → Option CStr) : Prop :=
  ∀ k v, m k = some v ↔ ∃ a < p.alloc, (p.leaves a).Maps k v

theorem indexInv_none {rodata : Int → UInt8} {p : Pool} {v : Volatile} (h : v.top_ = none) :
    IndexInv rodata p v ↔ ∀ a < p.alloc, (p.leaves a).Empty := by
  simp [IndexInv, h]

theorem indexInv_some {rodata : Int → UInt8} {p : Pool} {v : Volatile} {T : ScreeDBNode}
    (h : v.top_ = some T) : IndexInv rodata p v ↔ IndexOK rodata p v T := by
  simp [IndexInv, h]

/-! ## Where a key lives -/

section Holder

variable {rodata : Int → UInt8} {p : Pool} {v : Volatile} {T : ScreeDBNode}

theorem IndexOK.leafOK (hp : PoolOK rodata p) (hI : IndexOK rodata p v T) {n : Nat}
    (hn : n ∈ leafIds T) : LeafOK rodata (p.leaves (v.leaf n)) :=
  hp.leaves _ (hI.ptr_lt n hn)

theorem IndexOK.nodup_leafIds (hI : IndexOK rodata p v T) : (leafIds T).Nodup :=
  hI.tree.nodup.sublist (leafIds_sublist_ids T)

/-- The leaf nodes point to distinct leaves. -/
theorem IndexOK.nodup_ptrs (hI : IndexOK rodata p v T) : ((leafIds T).map v.leaf).Nodup :=
  hI.nodup_leafIds.map_on fun x hx y hy hxy => hI.ptr_inj x hx y hy hxy

/-- An allocated leaf that holds a key has a leaf node. -/
theorem IndexOK.holder (hI : IndexOK rodata p v T) {a : Nat} (ha : a < p.alloc) {k : CStr}
    (hk : (p.leaves a).Holds k) : ∃ n ∈ leafIds T, v.leaf n = a := by
  by_contra hn
  simp only [not_exists, not_and] at hn
  exact (empty_iff_forall_not_holds.1 (hI.orphan a ha hn)) k hk

/-- The leaf that holds a key is the one `LeafSearch` finds for it. -/
theorem IndexOK.holder_search (hI : IndexOK rodata p v T) {a : Nat} (ha : a < p.alloc) {k : CStr}
    (hk : (p.leaves a).Holds k) : ∃ n ∈ leafIds T, v.leaf n = a ∧ leafSearchFrom k T = some n := by
  obtain ⟨n, hn, rfl⟩ := hI.holder ha hk
  obtain ⟨d, hwf⟩ := hI.tree.wf
  exact ⟨n, hn, rfl, leafSearchFrom_of_mem T hwf hn hk⟩

/-- Two allocated leaves never hold one key. -/
theorem IndexOK.holder_unique (hI : IndexOK rodata p v T) {a b : Nat} (ha : a < p.alloc)
    (hb : b < p.alloc) {k : CStr} (hka : (p.leaves a).Holds k) (hkb : (p.leaves b).Holds k) :
    a = b := by
  obtain ⟨n, -, rfl, hn⟩ := hI.holder_search ha hka
  obtain ⟨n', -, rfl, hn'⟩ := hI.holder_search hb hkb
  rw [Option.some.inj (hn.symm.trans hn')]

/-- The key sets of two leaves lie one below the other. -/
theorem IndexOK.separated (hI : IndexOK rodata p v T) {a b : Nat} (ha : a < p.alloc)
    (hb : b < p.alloc) (hab : a ≠ b) {k k' : CStr} (hk : (p.leaves a).Holds k)
    (hk' : (p.leaves b).Holds k') :
    (∀ l l', (p.leaves a).Holds l → (p.leaves b).Holds l' → l < l') ∨
      (∀ l l', (p.leaves a).Holds l → (p.leaves b).Holds l' → l' < l) := by
  obtain ⟨n, hn, rfl⟩ := hI.holder ha hk
  obtain ⟨n', hn', rfl⟩ := hI.holder hb hk'
  have hne : n ≠ n' := fun h => hab (h ▸ rfl)
  obtain ⟨d, hwf⟩ := hI.tree.wf
  -- the leaves of the tree hold ascending keys from left to right
  have hpw := WF.pairwise_leafIds T hwf
  obtain ⟨i, hi, rfl⟩ := List.mem_iff_getElem.1 hn
  obtain ⟨j, hj, rfl⟩ := List.mem_iff_getElem.1 hn'
  have hij : i ≠ j := fun h => hne (by subst h; rfl)
  rcases Nat.lt_or_gt_of_ne hij with hlt | hlt
  · exact .inl fun l l' hl hl' => List.pairwise_iff_getElem.1 hpw i j hi hj hlt l l' hl hl'
  · exact .inr fun l l' hl hl' => List.pairwise_iff_getElem.1 hpw j i hj hi hlt l' l hl' hl

end Holder

/-! ## `Get` -/

section Get

variable {rodata : Int → UInt8} {t : Tree} {m : CStr → Option CStr}

/-- A key that no allocated leaf holds is not in the map of the leaves. -/
theorem Stores.eq_none {p : Pool} (hm : Stores p m) {k : CStr}
    (h : ∀ a < p.alloc, ¬ (p.leaves a).Holds k) : m k = none := by
  by_contra hne
  obtain ⟨v, hv⟩ := Option.ne_none_iff_exists'.1 hne
  obtain ⟨a, ha, hmaps⟩ := (hm _ _).1 hv
  exact h a ha hmaps.holds

/-- Leaves that are all empty store nothing. -/
theorem Stores.eq_none_of_empty {p : Pool} (hm : Stores p m)
    (h : ∀ a < p.alloc, (p.leaves a).Empty) (k : CStr) : m k = none :=
  hm.eq_none fun a ha => empty_iff_forall_not_holds.1 (h a ha) k

/-- Under the invariant, a leaf holds a key exactly when the map of the leaves has it. -/
theorem Stores.some_of_maps (hm : Stores t.pm m) {a : Nat} (ha : a < t.pm.alloc) {k v : CStr}
    (h : (t.pm.leaves a).Maps k v) : m k = some v :=
  (hm k v).2 ⟨a, ha, h⟩

/-- `Get` of a C string key answers by the map of the leaves: the value is appended when the key
is stored, and nothing happens otherwise. -/
theorem get_of_stores (hI : Inv rodata t) (hm : Stores t.pm m) {key : Slice} (hk : key.IsCStr)
    (value : List UInt8) :
    get rodata t key value = match m key.cstr with
      | some v => (.ok, value ++ v.bytes)
      | none => (.notFound, value) := by
  have hidx := hI.index
  unfold get leafSearch
  rw [hk.hash_eq]
  cases htop : t.vm.top_ with
  | none =>
    -- no index: every leaf is empty, so no key is stored
    simp [hm.eq_none_of_empty ((indexInv_none htop).1 hidx) key.cstr]
  | some T =>
    have hT := (indexInv_some htop).1 hidx
    obtain ⟨d, hwf⟩ := hT.tree.wf
    obtain ⟨n, hn⟩ := leafSearchFrom_isSome key.cstr T hwf
    have hnT := leafSearchFrom_mem T hn
    have hl := hT.leafOK hI.pool hnT
    simp only [Option.bind_some, hn, hT.cache n hnT]
    cases hmk : m key.cstr with
    | some val =>
      -- the leaf holding the key is the one the search found
      obtain ⟨a, ha, hmaps⟩ := (hm _ _).1 hmk
      obtain ⟨n', -, rfl, hn'⟩ := hT.holder_search ha hmaps.holds
      obtain rfl : n' = n := Option.some.inj (hn'.symm.trans hn)
      obtain ⟨s, hs, hsv⟩ := hmaps
      simp [(matchSlot_eq_some hl).2 hs, hsv]
    | none =>
      have hno : ¬ (t.pm.leaves (t.vm.leaf n)).Holds key.cstr := by
        rintro ⟨s, hs⟩
        have := Stores.some_of_maps hm (hT.ptr_lt n hnT) ⟨s, hs, rfl⟩
        simp [hmk] at this
      simp [(matchSlot_eq_none hl).2 hno]

end Get

end ScreeDB
