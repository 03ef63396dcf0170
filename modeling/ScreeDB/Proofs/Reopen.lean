import ScreeDB.Tree.Propagate
import ScreeDB.Proofs.Growth

/-!
# Reopening keeps the order of the leaves

The index of a running tree and the one `RebuildNodes` builds when the tree is opened again are
built differently: the first by splits, the second by sorting the non-empty leaves of the list by
their largest key. Both order the leaves by their keys, which are separated, so they agree.

* `IndexOK.nonEmpty_sorted`, `IndexOK.nonEmpty_perm`: the non-empty leaves the index points to,
  left to right, ascend by their largest keys and are all the non-empty leaves of the pool;
* `reopen_keeps_leaf_order`: after a clean reopening the leaf nodes point, left to right, to the
  leaves the old index pointed to, with the empty ones left out;
* `leafSearch_monotone`: `LeafSearch` finds for a larger key the same leaf node or one to its right.
-/

namespace ScreeDB

open ScreeDBNode ScreeDBLeaf

variable {rodata : Int → UInt8} {p : Pool} {v : Volatile} {T : ScreeDBNode}

/-- The order `RebuildNodes` sorts by: the largest key of one leaf below that of the other. -/
theorem IndexOK.nonEmpty_sorted (hI : IndexOK rodata p v T) :
    (((leafIds T).map v.leaf).filter fun a => !decide (p.leaves a).Empty).Pairwise
      fun a b => ∀ m m', maxKey (p.leaves a) = some m → maxKey (p.leaves b) = some m' → m < m' := by
  obtain ⟨d, hwf⟩ := hI.tree.wf
  -- the leaves of a well-formed tree hold ascending keys from left to right
  refine (List.pairwise_map.2 ((WF.pairwise_leafIds T hwf).imp fun h m m' hm hm' => ?_)).filter _
  exact h m m' (maxKey_some hm).1 (maxKey_some hm').1

/-- The non-empty leaves the index points to are the non-empty leaves of the pool. -/
theorem IndexOK.nonEmpty_perm (hI : IndexOK rodata p v T) :
    (((leafIds T).map v.leaf).filter fun a => !decide (p.leaves a).Empty).Perm
      ((List.range p.alloc).reverse.filter fun a => !decide (p.leaves a).Empty) := by
  rw [List.perm_ext_iff_of_nodup (hI.nodup_ptrs.filter _)
    ((List.nodup_reverse.2 List.nodup_range).filter _)]
  intro a
  simp only [List.mem_filter, List.mem_map, List.mem_reverse, List.mem_range]
  constructor
  · rintro ⟨⟨n, hn, rfl⟩, hne⟩
    exact ⟨hI.ptr_lt n hn, hne⟩
  · rintro ⟨ha, hne⟩
    refine ⟨?_, hne⟩
    -- a leaf that no leaf node points to is empty
    by_contra hno
    simp only [not_exists, not_and] at hno
    exact (by simpa using hne : ¬ (p.leaves a).Empty) (hI.orphan a ha hno)

/-- The same for an index that may be empty: with no index, every leaf is empty. -/
theorem IndexInv.nonEmpty (hI : IndexInv rodata p v) :
    ((v.leafNodes.map v.leaf).filter fun a => !decide (p.leaves a).Empty).Perm
        ((List.range p.alloc).reverse.filter fun a => !decide (p.leaves a).Empty) ∧
      ((v.leafNodes.map v.leaf).filter fun a => !decide (p.leaves a).Empty).Pairwise
        fun a b => ∀ m m', maxKey (p.leaves a) = some m → maxKey (p.leaves b) = some m' →
          m < m' := by
  cases htop : v.top_ with
  | none =>
    have hall := (indexInv_none htop).1 hI
    have hnil : ((List.range p.alloc).reverse.filter fun a => !decide (p.leaves a).Empty) = [] :=
      List.filter_eq_nil_iff.2 fun a ha => by simpa using hall a (by simpa using ha)
    simp [Volatile.leafNodes, htop, hnil]
  | some T =>
    have hT := (indexInv_some htop).1 hI
    simp only [Volatile.leafNodes, htop]
    exact ⟨hT.nonEmpty_perm, hT.nonEmpty_sorted⟩

/-- **Reopening keeps the order of the leaves.** On every reachable tree, a clean reopening (the
destructor, then the constructor's `RebuildNodes`) leaves an index whose leaf nodes point, left
to right, to the leaves the old index pointed to, in the same order, with the empty ones left
out. -/
theorem reopen_keeps_leaf_order {t : Tree} (h : Reachable rodata t) :
    (Cmd.reopen.step rodata t).2.vm.leafNodes.map (Cmd.reopen.step rodata t).2.vm.leaf =
      (t.vm.leafNodes.map t.vm.leaf).filter fun a => !decide (t.pm.leaves a).Empty := by
  obtain ⟨hI, -⟩ := h.inv
  obtain ⟨p, v, b, cs⟩ := t
  obtain rfl : b = none := hI.budget
  obtain ⟨hstep, himg, -⟩ := reopen_step hI
  obtain ⟨hperm, hsorted⟩ := hI.index.nonEmpty
  rw [hstep]
  cases hh : p.root.head with
  | none =>
    -- an empty list: no leaf was ever allocated, and the new index is empty
    have halloc : p.alloc = 0 := by
      have := hI.pool.head
      rw [hh] at this
      by_contra h0
      simp [h0] at this
    rw [openTree_of_head_none (p := p.setClosed (p.root.closed + 1)) hh]
    simp only [halloc, List.range_zero, List.reverse_nil, List.filter_nil] at hperm
    exact hperm.eq_nil.symm
  | some a =>
    rw [openTree_of_head_some (p := p.setClosed (p.root.closed + 1)) hh]
    obtain ⟨hnone, hsome⟩ := himg.rebuilt .empty
    cases htop : (rebuildNodes (p.setClosed (p.root.closed + 1)) .empty).top_ with
    | none =>
      -- every leaf is empty, so no leaf node pointed to a non-empty one
      have hnil : ((List.range p.alloc).reverse.filter fun a => !decide (p.leaves a).Empty) = [] :=
        List.filter_eq_nil_iff.2 fun a ha => by simpa using hnone.1 htop a ha
      rw [hnil] at hperm
      simp only [Volatile.leafNodes, htop, List.map_nil]
      exact hperm.eq_nil.symm
    | some T' =>
      have hR := hsome T' htop
      simp only [Volatile.leafNodes, htop]
      -- both lists are the non-empty leaves, sorted by their largest keys
      refine List.Perm.eq_of_pairwise (fun a b ha hb hab hba => ?_) hR.leaves_sorted hsorted
        (hR.leaves_perm.trans hperm.symm)
      have hne : ¬ (p.leaves a).Empty := fun he => by
        have := (List.mem_filter.1 (hR.leaves_perm.subset ha)).2
        simp [he] at this
      obtain ⟨m, hm⟩ := Option.ne_none_iff_exists'.1 fun h => hne (maxKey_eq_none.1 h)
      have hne' : ¬ (p.leaves b).Empty := fun he => by
        have := (List.mem_filter.1 hb).2
        simp [he] at this
      obtain ⟨m', hm'⟩ := Option.ne_none_iff_exists'.1 fun h => hne' (maxKey_eq_none.1 h)
      exact absurd (hab m m' hm hm') (lt_asymm (hba m' m hm' hm))

/-- The clean reopening of `treeS`, whose index has the two leaf nodes of the split. -/
theorem reopen_keeps_leaf_order_treeS :
    treeS.vm.leafNodes = [0, 1] ∧
      (Cmd.reopen.step (fun _ => 0) treeS).2.vm.leafNodes.map
          (Cmd.reopen.step (fun _ => 0) treeS).2.vm.leaf =
        ([0, 1].map treeS.vm.leaf).filter fun a => !decide (treeS.pm.leaves a).Empty := by
  obtain ⟨T, hT, hleaves⟩ := treeS_split
  have hnodes : treeS.vm.leafNodes = [0, 1] := by simp [Volatile.leafNodes, hT, hleaves]
  refine ⟨hnodes, ?_⟩
  rw [← hnodes]
  exact reopen_keeps_leaf_order treeS_reachable

/-- **`LeafSearch` is monotone.** In every index, the leaf node `LeafSearch` finds for a key is
the one it finds for a key at least as large, or lies left of it among the leaf nodes. -/
theorem leafSearch_monotone (v : Volatile) {key key' : Slice} (hle : key.cstr ≤ key'.cstr)
    {n n' : Nat} (hn : leafSearch v key = some n) (hn' : leafSearch v key' = some n') :
    n = n' ∨ List.Sublist [n, n'] v.leafNodes := by
  cases htop : v.top_ with
  | none => simp [leafSearch, htop] at hn
  | some T =>
    simp only [leafSearch, htop, Option.bind_some] at hn hn'
    simpa [Volatile.leafNodes, htop] using leafSearchFrom_ordered hle T hn hn'

/-- On the five leaf nodes of `rowVol`, `"aa"` reaches the second and `"da"` the fifth. -/
theorem leafSearch_monotone_rowVol :
    (keyOf 0).cstr ≤ (keyOf 48).cstr ∧ leafSearch rowVol (keyOf 0) = some 2 ∧
      leafSearch rowVol (keyOf 48) = some 5 ∧ (2 = 5 ∨ List.Sublist [2, 5] rowVol.leafNodes) :=
  ⟨by decide, by decide, by decide,
    @leafSearch_monotone rowVol (keyOf 0) (keyOf 48) (by decide) 2 5 (by decide) (by decide)⟩

/-! ## What the destructor and the constructor keep -/

/-- The constructor keeps the leaves. -/
theorem openTree_leaves (q : Pool) : (openTree q).pm.leaves = q.leaves := by
  cases hh : q.root.head with
  | none => rw [openTree_of_head_none hh]; rfl
  | some a => rw [openTree_of_head_some hh]; rfl

/-- The destructor changes the closing counter only. -/
theorem closeTree_same {t : Tree} (hb : t.budget = none) :
    (closeTree t).root.head = t.pm.root.head ∧ (closeTree t).leaves = t.pm.leaves ∧
      (closeTree t).alloc = t.pm.alloc := by
  obtain ⟨p, v, b, cs⟩ := t
  obtain rfl : b = none := hb
  rw [closeTree_eq]
  exact ⟨rfl, rfl, rfl⟩

end ScreeDB
