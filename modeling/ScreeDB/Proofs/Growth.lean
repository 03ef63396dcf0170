import ScreeDB.Tree.Balance
import ScreeDB.Proofs.Session

/-!
# How the structures grow

ScreeDB never frees a persistent leaf and never takes one out of the list: the only allocation is
the new leaf of a first `Put` or of a split, which `Put` links in front of the list. The index
grows by splits only, stays balanced, and its height is logarithmic in the number of its leaves.

* `put_cases`: the three branches of `Put` on a tree with the invariant: a new head leaf, a write
  to the key's slot or a free one, or a split of a full leaf;
* `put_allocates`: `Put` allocates one leaf exactly when the index is empty or the leaf
  `LeafSearch` finds is full and does not hold the key, and none otherwise;
* `put_overwrites_in_place`: `Put` of a stored key writes its value string and nothing else;
* `delete_put_keeps_index`: `Delete` of a stored key and `Put` of it again never split;
* `session_leafList_grows`: along every session, and into the image a crash leaves, the list of
  leaves only grows at its head and always holds every leaf ever allocated;
* `reachable_height_le`: in every reachable tree the height `h` of the index over `n` leaf nodes
  has `2 * 3 ^ h ≤ 3 * n`, `n ≤ 5 ^ h` and `n ≤ alloc`;
* `reachable_nodes_le`: the index has fewer than `2 * n` nodes, so fewer than `2 * alloc`.
-/

namespace ScreeDB

open Txn ScreeDBLeaf ScreeDBNode

variable {rodata : Int → UInt8} {p : Pool} {v : Volatile} {cs : List Pool}

/-! ## `Put`, branch by branch -/

section Put

variable {key : Slice}

/-- A leaf that holds a key is the one `LeafSearch` finds for it, and its leaf node caches its
hashes. -/
theorem Inv.search_holder (hI : Inv rodata ⟨p, v, none, cs⟩) {a : Nat} (ha : a < p.alloc)
    (hh : (p.leaves a).Holds key.cstr) :
    ∃ n, leafSearch v key = some n ∧ v.leaf n = a ∧ v.hashes n = (p.leaves a).hashes ∧
      LeafOK rodata (p.leaves a) := by
  cases htop : v.top_ with
  | none => exact absurd hh (empty_iff_forall_not_holds.1 ((indexInv_none htop).1 hI.index a ha) _)
  | some T =>
    have hT := (indexInv_some htop).1 hI.index
    obtain ⟨n, hnT, rfl, hn⟩ := hT.holder_search ha hh
    exact ⟨n, by simp [leafSearch, htop, hn], rfl, hT.cache n hnT, hT.leafOK hI.pool hnT⟩

/-- **The branches of `Put`.** With no index, a new head leaf; else, in the leaf node `n` that
`LeafSearch` finds, the key's slot or a free one when there is one, and a split otherwise. -/
theorem put_cases (hI : Inv rodata ⟨p, v, none, cs⟩) (hk : key.IsCStr) (value : Slice) :
    (v.top_ = none ∧
      ∃ t', put rodata key value ⟨p, v, none, cs⟩ = .ok .ok t' ∧ t'.pm.alloc = p.alloc + 1) ∨
    (∃ n s, leafSearch v key = some n ∧ SlotFor (p.leaves (v.leaf n)) s key.cstr ∧
      v.hashes n = (p.leaves (v.leaf n)).hashes ∧ LeafOK rodata (p.leaves (v.leaf n)) ∧
      put rodata key value ⟨p, v, none, cs⟩ = .ok .ok
        ⟨p.modifyLeaf (v.leaf n) (·.fillSlot (v.hashes n s = 0) s (key.hash rodata) key value),
          v.setHash n s (key.hash rodata), none,
          p.modifyLeaf (v.leaf n) (·.fillSlot (v.hashes n s = 0) s (key.hash rodata) key value) ::
            cs⟩) ∨
    (∃ n, leafSearch v key = some n ∧ ¬ (p.leaves (v.leaf n)).Holds key.cstr ∧
      (∀ s, (p.leaves (v.leaf n)).hashes s ≠ 0) ∧
      ∃ p' vw, put rodata key value ⟨p, v, none, cs⟩ = .ok .ok
        ⟨p', leafUpdateParentsAfterSplit vw.walkFuel vw n (.leaf v.next_id)
          (splitKey (p.leaves (v.leaf n)) key.cstr), none, p' :: cs⟩ ∧
        SplitCommit rodata p v n key value p' vw) := by
  cases htop : v.top_ with
  | none =>
    have hsearch : leafSearch v key = none := by simp [leafSearch, htop]
    exact .inl ⟨rfl, _, put_run_head rodata key value hsearch, by simp⟩
  | some T =>
    have hT : IndexOK rodata p v T := (indexInv_some htop).1 hI.index
    obtain ⟨d, hwf⟩ := hT.tree.wf
    obtain ⟨n, hn⟩ := leafSearchFrom_isSome key.cstr T hwf
    have hnT := leafSearchFrom_mem T hn
    have hl := hT.leafOK hI.pool hnT
    have hsearch : leafSearch v key = some n := by simp [leafSearch, htop, hn]
    -- the scan of `LeafFillSlotForKey` reads the cache, which is the leaf's hashes
    cases hslot : ((slotScan (v.hashes n) (p.leaves (v.leaf n)) (key.hash rodata) key.cstr
        slotsDown none).2.or (slotScan (v.hashes n) (p.leaves (v.leaf n)) (key.hash rodata)
        key.cstr slotsDown none).1) with
    | some s =>
      have hslot' := hslot
      rw [hT.cache n hnT, hk.hash_eq] at hslot'
      exact .inr (.inl ⟨n, s, hsearch, slotScan_choice_some hl hslot', hT.cache n hnT, hl,
        put_run_fill rodata key value hsearch hslot⟩)
    | none =>
      have hslot' := hslot
      rw [hT.cache n hnT, hk.hash_eq] at hslot'
      obtain ⟨hkey, hfull⟩ := slotScan_choice_none hl hslot'
      obtain ⟨p', vw, hrun, hc⟩ := leafSplit_commit hI htop hnT hfull hkey hk value
      exact .inr (.inr ⟨n, hsearch, hkey, hfull, p', vw, put_run_split value hsearch hslot hrun,
        hc⟩)

theorem step_put_of_run {t t' : Tree} {value : Slice} (h : put rodata key value t = .ok .ok t') :
    ((Cmd.put key value).step rodata t).2 = t' := by
  simp [Cmd.step, exec, h]

/-- A slot found for a key in a full leaf is the key's own. -/
theorem SlotFor.not_full {l : ScreeDBLeaf} {s : Slot} {k : CStr} (hs : SlotFor l s k) :
    ¬ (¬ l.Holds k ∧ ∀ t, l.hashes t ≠ 0) := by
  rintro ⟨hkey, hfull⟩
  rcases hs with hs | ⟨h0, -⟩
  · exact hkey ⟨s, hs⟩
  · exact hfull s h0

/-- `Put` allocates one leaf when the index is empty or the leaf it finds is full and does not
hold the key, and none otherwise. -/
theorem put_alloc (hI : Inv rodata ⟨p, v, none, cs⟩) (hk : key.IsCStr) (value : Slice) :
    (((Cmd.put key value).step rodata ⟨p, v, none, cs⟩).2.pm.alloc = p.alloc + 1 ∧
      (leafSearch v key = none ∨ ∃ n, leafSearch v key = some n ∧
        ¬ (p.leaves (v.leaf n)).Holds key.cstr ∧ ∀ s, (p.leaves (v.leaf n)).hashes s ≠ 0)) ∨
    (((Cmd.put key value).step rodata ⟨p, v, none, cs⟩).2.pm.alloc = p.alloc ∧
      ¬ (leafSearch v key = none ∨ ∃ n, leafSearch v key = some n ∧
        ¬ (p.leaves (v.leaf n)).Holds key.cstr ∧ ∀ s, (p.leaves (v.leaf n)).hashes s ≠ 0)) := by
  rcases put_cases hI hk value with ⟨htop, t', hrun, halloc⟩ | ⟨n, s, hsearch, hs, -, -, hrun⟩ |
    ⟨n, hsearch, hkey, hfull, p', vw, hrun, hc⟩
  · rw [step_put_of_run hrun, halloc]
    exact .inl ⟨rfl, .inl (by simp [leafSearch, htop])⟩
  · -- a write into a slot: the pool keeps its size, and the leaf had room or the key
    rw [step_put_of_run hrun, Pool.modifyLeaf_alloc]
    refine .inr ⟨rfl, ?_⟩
    rintro (hnone | ⟨n', hn', hfree⟩)
    · simp [hsearch] at hnone
    · obtain rfl : n = n' := Option.some.inj (hsearch.symm.trans hn')
      exact hs.not_full hfree
  · rw [step_put_of_run hrun, hc.alloc]
    exact .inl ⟨rfl, .inr ⟨n, hsearch, hkey, hfull⟩⟩

/-- **What `Put` allocates.** On every reachable tree, `Put` of a C string key allocates one
persistent leaf when the index is empty or the leaf `LeafSearch` finds is full and does not hold
the key, and allocates nothing otherwise. -/
theorem put_allocates {t : Tree} (h : Reachable rodata t) (hk : key.IsCStr) (value : Slice) :
    t.pm.alloc ≤ ((Cmd.put key value).step rodata t).2.pm.alloc ∧
      ((Cmd.put key value).step rodata t).2.pm.alloc ≤ t.pm.alloc + 1 ∧
      (((Cmd.put key value).step rodata t).2.pm.alloc = t.pm.alloc + 1 ↔
        leafSearch t.vm key = none ∨ ∃ n, leafSearch t.vm key = some n ∧
          ¬ (t.pm.leaves (t.vm.leaf n)).Holds key.cstr ∧
          ∀ s, (t.pm.leaves (t.vm.leaf n)).hashes s ≠ 0) := by
  obtain ⟨hI, -⟩ := h.inv
  obtain ⟨p, v, b, cs⟩ := t
  obtain rfl : b = none := hI.budget
  rcases put_alloc hI hk value with ⟨halloc, hsplit⟩ | ⟨halloc, hsplit⟩
  · rw [halloc]
    exact ⟨Nat.le_succ _, le_rfl, iff_of_true rfl hsplit⟩
  · rw [halloc]
    exact ⟨le_rfl, Nat.le_succ _, iff_of_false (Nat.succ_ne_self _).symm hsplit⟩

/-- The forty-ninth `Put` of `cmdsS 49` finds the one leaf full and allocates the second. -/
theorem put_allocates_treeS48 :
    Reachable (fun _ => 0) treeS48 ∧ (keyOf 48).IsCStr ∧ treeS48.pm.alloc = 1 ∧
      ((Cmd.put (keyOf 48) valueV).step (fun _ => 0) treeS48).2.pm.alloc = 2 := by
  obtain ⟨-, hn, hleaf, -, hfull, hkey, -⟩ := treeS48_full
  have h1 : treeS48.pm.alloc = 1 := by decide +kernel
  obtain ⟨-, -, hiff⟩ :=
    put_allocates treeS48_reachable (show (keyOf 48).IsCStr by decide) valueV
  refine ⟨treeS48_reachable, by decide, h1, ?_⟩
  rw [hiff.2 (.inr ⟨0, hn, by rw [hleaf]; exact hkey, by rw [hleaf]; exact hfull⟩), h1]

/-- **`Put` of a stored key writes in place.** On every reachable tree, `Put` of a C string key
that is stored changes no volatile state, allocates nothing, keeps the root, and in the leaf
that holds the key rewrites only the value string of the key's slot. -/
theorem put_overwrites_in_place {t : Tree} (h : Reachable rodata t) (hk : key.IsCStr)
    (value : Slice) (hstored : t.pm.read key.cstr ≠ none) :
    ((Cmd.put key value).step rodata t).2.vm = t.vm ∧
      ((Cmd.put key value).step rodata t).2.pm.alloc = t.pm.alloc ∧
      ((Cmd.put key value).step rodata t).2.pm.root = t.pm.root ∧
      ∃ a < t.pm.alloc, ∃ s, (t.pm.leaves a).HoldsAt s key.cstr ∧
        ((Cmd.put key value).step rodata t).2.pm.leaves = Function.update t.pm.leaves a
          ((t.pm.leaves a).setValue s (((t.pm.leaves a).kv_values s).set
            (Slice.ofCharPtr value.data_))) := by
  obtain ⟨hI, -⟩ := h.inv
  obtain ⟨p, v, b, cs⟩ := t
  obtain rfl : b = none := hI.budget
  -- the allocated leaf `a` holds the key, and `LeafSearch` finds its leaf node
  obtain ⟨x, hx⟩ := Option.ne_none_iff_exists'.1 hstored
  obtain ⟨a, ha, hmaps⟩ := (hI.imageOK.stores_read _ _).1 hx
  obtain ⟨n₀, hsearch₀, hleaf₀, -, -⟩ := hI.search_holder ha hmaps.holds
  rcases put_cases hI hk value with
    ⟨htop, -⟩ | ⟨n, s, hsearch, hs, hcache, hl, hrun⟩ | ⟨n, hsearch, hkey, -⟩
  · simp [leafSearch, htop] at hsearch₀
  · obtain rfl : n₀ = n := Option.some.inj (hsearch₀.symm.trans hsearch)
    subst hleaf₀
    -- the slot found is the key's own, whose hash is the key's hash
    have hsk : (p.leaves (v.leaf n₀)).HoldsAt s key.cstr := by
      rcases hs with hs | ⟨-, hno⟩
      · exact hs
      · exact absurd hmaps.holds hno
    have hhash : v.hashes n₀ s = key.hash rodata := by
      rw [hcache, hl.hash s hsk.1, hsk.2, hk.hash_eq]
    have hfree : decide (v.hashes n₀ s = 0) = false := by simpa [hcache] using hsk.1
    rw [step_put_of_run hrun, ← hhash, Volatile.setHash_same, hfree]
    refine ⟨rfl, rfl, rfl, v.leaf n₀, ha, s, hsk, ?_⟩
    simp [Pool.modifyLeaf, fillSlot, hcache, setHash_same]
  · obtain rfl : n₀ = n := Option.some.inj (hsearch₀.symm.trans hsearch)
    exact absurd (hleaf₀ ▸ hmaps.holds) hkey

/-- A second `Put` of `keyOf 0` after the split of `cmdsS 49`. -/
theorem put_overwrites_in_place_treeS :
    Reachable (fun _ => 0) treeS ∧ (keyOf 0).IsCStr ∧ treeS.pm.read (keyOf 0).cstr ≠ none ∧
      ((Cmd.put (keyOf 0) keyJ).step (fun _ => 0) treeS).2.vm = treeS.vm ∧
      ((Cmd.put (keyOf 0) keyJ).step (fun _ => 0) treeS).2.pm.alloc = treeS.pm.alloc ∧
      ((Cmd.put (keyOf 0) keyJ).step (fun _ => 0) treeS).2.pm.root = treeS.pm.root ∧
      ∃ a < treeS.pm.alloc, ∃ s, (treeS.pm.leaves a).HoldsAt s (keyOf 0).cstr ∧
        ((Cmd.put (keyOf 0) keyJ).step (fun _ => 0) treeS).2.pm.leaves =
          Function.update treeS.pm.leaves a ((treeS.pm.leaves a).setValue s
            (((treeS.pm.leaves a).kv_values s).set (Slice.ofCharPtr keyJ.data_))) := by
  have hstored : treeS.pm.read (keyOf 0).cstr ≠ none := by simp [treeS_read_keyOf_zero]
  exact ⟨treeS_reachable, by decide, hstored,
    put_overwrites_in_place treeS_reachable (by decide) keyJ hstored⟩

/-- **`Delete` then `Put` of a stored key never splits.** On every reachable tree, `Delete` of a
stored C string key frees its slot in the leaf `LeafSearch` finds, and `Put` of the key then
fills a slot of that leaf: no leaf is allocated, and the index, its parent pointers and its leaf
pointers stay as they were. -/
theorem delete_put_keeps_index {t : Tree} (h : Reachable rodata t) (hk : key.IsCStr)
    (value : Slice) (hstored : t.pm.read key.cstr ≠ none) :
    ((Cmd.put key value).step rodata ((Cmd.delete key).step rodata t).2).2.pm.alloc =
        t.pm.alloc ∧
      ((Cmd.put key value).step rodata ((Cmd.delete key).step rodata t).2).2.vm.top_ =
        t.vm.top_ ∧
      ((Cmd.put key value).step rodata ((Cmd.delete key).step rodata t).2).2.vm.parent =
        t.vm.parent ∧
      ((Cmd.put key value).step rodata ((Cmd.delete key).step rodata t).2).2.vm.leaf =
        t.vm.leaf := by
  obtain ⟨hI, hpub⟩ := h.inv
  obtain ⟨p, v, b, cs⟩ := t
  obtain rfl : b = none := hI.budget
  obtain ⟨x, hx⟩ := Option.ne_none_iff_exists'.1 hstored
  obtain ⟨a, ha, hmaps⟩ := (hI.imageOK.stores_read _ _).1 hx
  obtain ⟨n, hsearch, rfl, hcache, hl⟩ := hI.search_holder ha hmaps.holds
  obtain ⟨s, hsk, -⟩ := hmaps
  -- `Delete` finds the key in slot `s` of leaf node `n` and clears both its hashes
  have hmatch : matchSlot (v.hashes n) (p.leaves (v.leaf n)) (key.hash rodata) key.cstr = some s := by
    rw [hcache, hk.hash_eq]
    exact (matchSlot_eq_some hl).2 hsk
  have hdel : (Cmd.delete key).step rodata ⟨p, v, none, cs⟩ =
      (⟨some .ok, []⟩, ⟨p.modifyLeaf (v.leaf n) (·.setHash s 0), v.setHash n s 0, none,
        p.modifyLeaf (v.leaf n) (·.setHash s 0) :: cs⟩) := by
    simp [Cmd.step, exec, delete_run_found rodata key hsearch hmatch]
  have hI₁ := (delete_step hI hpub hk).2.1
  rw [hdel] at hI₁ ⊢
  have hsearch₁ : leafSearch (v.setHash n s 0) key = some n := hsearch
  rcases put_cases hI₁ hk value with ⟨htop, -⟩ | ⟨n', s', hn', -, -, -, hrun⟩ | ⟨n', hn', -, hfull, -⟩
  · rw [Volatile.setHash_top_] at htop
    simp [leafSearch, htop] at hsearch₁
  · -- the freed slot leaves room: `Put` writes into the leaf
    rw [step_put_of_run hrun]
    exact ⟨rfl, rfl, rfl, rfl⟩
  · -- not full: slot `s` is free now
    obtain rfl : n = n' := Option.some.inj (hsearch₁.symm.trans hn')
    exact absurd (by simp) (hfull s)

/-- `Delete` and `Put` of `keyOf 0` after the split of `cmdsS 49`. -/
theorem delete_put_keeps_index_treeS :
    Reachable (fun _ => 0) treeS ∧ (keyOf 0).IsCStr ∧ treeS.pm.read (keyOf 0).cstr ≠ none ∧
      ((Cmd.put (keyOf 0) keyJ).step (fun _ => 0)
        ((Cmd.delete (keyOf 0)).step (fun _ => 0) treeS).2).2.pm.alloc = treeS.pm.alloc ∧
      ((Cmd.put (keyOf 0) keyJ).step (fun _ => 0)
        ((Cmd.delete (keyOf 0)).step (fun _ => 0) treeS).2).2.vm.top_ = treeS.vm.top_ ∧
      ((Cmd.put (keyOf 0) keyJ).step (fun _ => 0)
        ((Cmd.delete (keyOf 0)).step (fun _ => 0) treeS).2).2.vm.parent = treeS.vm.parent ∧
      ((Cmd.put (keyOf 0) keyJ).step (fun _ => 0)
        ((Cmd.delete (keyOf 0)).step (fun _ => 0) treeS).2).2.vm.leaf = treeS.vm.leaf := by
  have hstored : treeS.pm.read (keyOf 0).cstr ≠ none := by simp [treeS_read_keyOf_zero]
  exact ⟨treeS_reachable, by decide, hstored,
    delete_put_keeps_index treeS_reachable (by decide) keyJ hstored⟩

end Put

/-! ## The list of leaves -/

section List

/-- The lists of two pools whose leaves are linked newest first, one no larger than the other. -/
theorem PoolOK.leafList_suffix {q : Pool} (hp : PoolOK rodata p) (hq : PoolOK rodata q)
    (h : p.alloc ≤ q.alloc) : p.leafList <:+ q.leafList := by
  rw [hp.leafList_eq, hq.leafList_eq, List.reverse_suffix]
  obtain ⟨k, hk⟩ := Nat.exists_eq_add_of_le h
  rw [hk, List.range_add]
  exact List.prefix_append _ _

/-- **The branches of `Delete`.** Nothing changes, or the slot `s` of the leaf node `n` that
`LeafSearch` finds, where the hash scan matched the key, is freed in both copies. -/
theorem delete_cases (key : Slice) :
    (Cmd.delete key).step rodata ⟨p, v, none, cs⟩ = (⟨some .ok, []⟩, ⟨p, v, none, cs⟩) ∨
      ∃ n s, leafSearch v key = some n ∧
        matchSlot (v.hashes n) (p.leaves (v.leaf n)) (key.hash rodata) key.cstr = some s ∧
        (Cmd.delete key).step rodata ⟨p, v, none, cs⟩ =
          (⟨some .ok, []⟩, ⟨p.modifyLeaf (v.leaf n) (·.setHash s 0), v.setHash n s 0, none,
            p.modifyLeaf (v.leaf n) (·.setHash s 0) :: cs⟩) := by
  cases hn : leafSearch v key with
  | none => exact .inl (by simp [Cmd.step, exec, delete_run_empty rodata key hn])
  | some n =>
    cases hs : matchSlot (v.hashes n) (p.leaves (v.leaf n)) (key.hash rodata) key.cstr with
    | none => exact .inl (by simp [Cmd.step, exec, delete_run_absent rodata key hn hs])
    | some s => exact .inr ⟨n, s, rfl, hs, by simp [Cmd.step, exec, delete_run_found rodata key hn hs]⟩

theorem step_delete_alloc (key : Slice) :
    ((Cmd.delete key).step rodata ⟨p, v, none, cs⟩).2.pm.alloc = p.alloc := by
  rcases delete_cases key with hstep | ⟨n, s, -, -, hstep⟩
  · rw [hstep]
  · rw [hstep]
    rfl

theorem openTree_alloc (p : Pool) : (openTree p).pm.alloc = p.alloc := by
  cases hh : p.root.head with
  | none => rw [openTree_of_head_none hh]; rfl
  | some a => rw [openTree_of_head_some hh]; rfl

/-- A call never shrinks the pool. -/
theorem Cmd.step_alloc {t : Tree} {c : Cmd} (hI : Inv rodata t) (hc : c.KeysCStr) :
    t.pm.alloc ≤ (c.step rodata t).2.pm.alloc := by
  obtain ⟨p, v, b, cs⟩ := t
  obtain rfl : b = none := hI.budget
  cases c with
  | put key value | merge key value =>
    show p.alloc ≤ ((Cmd.put key value).step rodata ⟨p, v, none, cs⟩).2.pm.alloc
    rcases put_alloc hI hc value with ⟨halloc, -⟩ | ⟨halloc, -⟩
    · exact halloc ▸ Nat.le_succ _
    · exact halloc.ge
  | delete key => exact (step_delete_alloc key).ge
  | get key value => exact le_rfl
  | reopen => rw [(reopen_step hI).1, openTree_alloc]; rfl

/-- A crash inside a call leaves a pool no smaller than before the call and no larger than after
it. -/
theorem Cmd.crash_alloc {t : Tree} {c : Cmd} (hI : Inv rodata t) (hne : t.commits ≠ [])
    (hc : c.KeysCStr) (k : Nat) :
    t.pm.alloc ≤ (c.crash rodata t k).alloc ∧ (c.crash rodata t k).alloc ≤
      (c.step rodata t).2.pm.alloc := by
  have hstep := Cmd.step_alloc hI hc
  obtain ⟨p, v, b, cs⟩ := t
  obtain rfl : b = none := hI.budget
  by_cases hu : c.IsUpdate
  · rcases Cmd.crash_of_update hI hne hu hc k with h | h
    · rw [h]
      exact ⟨le_rfl, hstep⟩
    · rw [h]
      exact ⟨hstep, le_rfl⟩
  cases c with
  | put key value | merge key value | delete key => exact absurd trivial hu
  | get key value =>
    -- `Get` writes nothing: the image is the one last published
    rw [Cmd.crash, crashTree, hI.durable]
    exact ⟨le_rfl, le_rfl⟩
  | reopen =>
    -- a crash inside the destructor leaves the image from before or the closed one
    rcases shutdown_crash hne k with h | h
    · rw [Cmd.crash, h, hI.durable]
      exact ⟨le_rfl, hstep⟩
    · rw [Cmd.crash, h, closeTree_eq, (reopen_step hI).1, openTree_alloc]
      exact ⟨le_rfl, le_rfl⟩

/-- A session never shrinks the pool it opened. -/
theorem session_alloc {p : Pool} (hp : ImageOK rodata p) {cmds : List Cmd}
    (hc : ∀ c ∈ cmds, c.KeysCStr) : p.alloc ≤ (session rodata p cmds).pm.alloc := by
  unfold session
  refine (Sim.last_inv (I := fun t => (Inv rodata t ∧ t.commits ≠ []) ∧ p.alloc ≤ t.pm.alloc)
    ?_ hc ⟨⟨openTree_inv hp, by simp [openTree_commits]⟩, (openTree_alloc p).ge⟩).2
  intro t c hc' hI
  exact ⟨Cmd.step_inv hI.1.1 hI.1.2 hc', hI.2.trans (Cmd.step_alloc hI.1.1 hc')⟩

/-- **No leaf is ever unlinked.** In every session on a stored image, with calls whose keys are
C strings, the list of leaves from `root->head` is every leaf ever allocated, newest first; the
list of the image the session opened is a suffix of it; and a crash inside the next call leaves
an image whose list lies between the lists before and after that call. -/
theorem session_leafList_grows {p : Pool} (hp : Stored rodata p) {cmds : List Cmd}
    (hc : ∀ c ∈ cmds, c.KeysCStr) :
    (session rodata p cmds).pm.leafList = (List.range (session rodata p cmds).pm.alloc).reverse ∧
      p.leafList <:+ (session rodata p cmds).pm.leafList ∧
      ∀ c : Cmd, c.KeysCStr → ∀ k,
        (session rodata p cmds).pm.leafList <:+ (c.crash rodata (session rodata p cmds) k).leafList ∧
        (c.crash rodata (session rodata p cmds) k).leafList <:+
          (c.step rodata (session rodata p cmds)).2.pm.leafList := by
  have himg := hp.imageOK
  obtain ⟨hI, hne⟩ := session_inv himg hc
  refine ⟨hI.pool.leafList_eq, himg.pool.leafList_suffix hI.pool (session_alloc himg hc),
    fun c hc' k => ?_⟩
  have hcrash := (Cmd.crash_image hI hne hc' k).1.pool
  have hstep := (Cmd.step_inv hI hne hc').1.pool
  obtain ⟨h₁, h₂⟩ := Cmd.crash_alloc hI hne hc' k
  exact ⟨hI.pool.leafList_suffix hcrash h₁, hcrash.leafList_suffix hstep h₂⟩

/-- The session of `cmdsS 49` on a new pool, whose last `Put` allocates the second leaf. -/
theorem session_leafList_grows_splitS :
    (∀ c ∈ cmdsS 49, c.KeysCStr) ∧
      treeS.pm.leafList = (List.range treeS.pm.alloc).reverse ∧ Pool.fresh.leafList <:+ treeS.pm.leafList ∧
      ∀ c : Cmd, c.KeysCStr → ∀ k,
        treeS.pm.leafList <:+ (c.crash (fun _ => 0) treeS k).leafList ∧
        (c.crash (fun _ => 0) treeS k).leafList <:+ (c.step (fun _ => 0) treeS).2.pm.leafList := by
  have hc : ∀ c ∈ cmdsS 49, c.KeysCStr := by decide
  have h := session_leafList_grows (@Stored.fresh (fun _ => 0)) hc
  rw [show session (fun _ => 0) Pool.fresh (cmdsS 49) = treeS from rfl] at h
  exact ⟨hc, h⟩

end List

/-! ## The size and height of the index -/

/-- The leaf nodes point to distinct allocated leaves: there are no more of them than leaves. -/
theorem IndexOK.leafIds_length_le {T : ScreeDBNode} (hidx : IndexOK rodata p v T) :
    (leafIds T).length ≤ p.alloc := by
  have hsub : ((leafIds T).map v.leaf).Subperm (List.range p.alloc) :=
    List.subperm_of_subset hidx.nodup_ptrs fun a ha => by
      obtain ⟨n, hnT, rfl⟩ := List.mem_map.1 ha
      exact List.mem_range.2 (hidx.ptr_lt n hnT)
  simpa using hsub.length_le

/-- **The index is balanced.** In every reachable tree, the height `h` of the index and the number
`n` of its leaf nodes have `2 * 3 ^ h ≤ 3 * n` and `n ≤ 5 ^ h`; the leaf nodes point to distinct
allocated leaves, so `n ≤ alloc`, and `LeafSearch` descends at most `log₃ alloc + 1` levels. -/
theorem reachable_height_le {t : Tree} (h : Reachable rodata t) {T : ScreeDBNode}
    (hT : t.vm.top_ = some T) :
    2 * 3 ^ height T ≤ 3 * (leafIds T).length ∧ (leafIds T).length ≤ 5 ^ height T ∧
      (leafIds T).length ≤ t.pm.alloc ∧ height T ≤ Nat.log 3 t.pm.alloc + 1 := by
  have hidx := h.indexOK hT
  obtain ⟨d, hwf⟩ := hidx.tree.wf
  have hn := hidx.leafIds_length_le
  rw [WF.height_eq T hwf]
  refine ⟨WF.top_leaves hwf, WF.leaves_le_pow T hwf, hn, ?_⟩
  calc d = height T := (WF.height_eq T hwf).symm
    _ ≤ Nat.log 3 (leafIds T).length + 1 := WF.height_le_log hwf
    _ ≤ Nat.log 3 t.pm.alloc + 1 := Nat.succ_le_succ (Nat.log_mono_right hn)

/-- After the split of `cmdsS 49` the bounds leave the index one level of inner nodes. -/
theorem reachable_height_le_treeS :
    ∃ T, treeS.vm.top_ = some T ∧ leafIds T = [0, 1] ∧ height T = 1 ∧
      height T ≤ Nat.log 3 treeS.pm.alloc + 1 := by
  obtain ⟨T, hT, hleaves⟩ := treeS_split
  obtain ⟨h3, h5, -, hlog⟩ := reachable_height_le treeS_reachable hT
  rw [hleaves] at h3 h5
  simp only [List.length_cons, List.length_nil] at h3 h5
  -- `2 * 3 ^ h ≤ 6` leaves `h ≤ 1`, and `2 ≤ 5 ^ h` leaves `h ≠ 0`
  have hpos : height T ≠ 0 := fun h0 => by simp [h0] at h5
  have hle : height T ≤ 1 := by
    by_contra hlt
    have h9 : 3 ^ 2 ≤ 3 ^ height T := Nat.pow_le_pow_right (by norm_num) (by omega)
    omega
  exact ⟨T, hT, hleaves, by omega, hlog⟩

/-- **The index takes space linear in the pool.** In every reachable tree the index has fewer
than twice as many nodes as leaf nodes, and so fewer than twice as many as allocated leaves. -/
theorem reachable_nodes_le {t : Tree} (h : Reachable rodata t) {T : ScreeDBNode}
    (hT : t.vm.top_ = some T) :
    (ids T).length + 1 ≤ 2 * (leafIds T).length ∧ (ids T).length < 2 * t.pm.alloc := by
  have hidx := h.indexOK hT
  obtain ⟨d, hwf⟩ := hidx.tree.wf
  have hnodes := WF.ids_lt_leaves T hwf
  have hn := hidx.leafIds_length_le
  exact ⟨hnodes, by omega⟩

theorem reachable_nodes_le_treeS :
    ∃ T, treeS.vm.top_ = some T ∧ leafIds T = [0, 1] ∧ (ids T).length ≤ 3 ∧
      (ids T).length < 2 * treeS.pm.alloc := by
  obtain ⟨T, hT, hleaves⟩ := treeS_split
  obtain ⟨hnodes, halloc⟩ := reachable_nodes_le treeS_reachable hT
  rw [hleaves] at hnodes
  simp only [List.length_cons, List.length_nil] at hnodes
  exact ⟨T, hT, hleaves, by omega, halloc⟩

end ScreeDB
