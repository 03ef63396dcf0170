import Mathlib.Data.List.Nodup
import ScreeDB.Tree.Walk

/-!
# A leaf split in the index

`LeafSplit` gives a full leaf node `ln` a new right neighbour: a new leaf node `v.next_id` with
`ln`'s parent (`SplitStart`), and `LeafUpdateParentsAfterSplit` hands the split key up from `ln`.
Which keys the two leaf nodes hold afterwards is up to the caller: it may be any key predicate
`S''` that keeps the other leaves within their keys, gives `ln` keys at or below the split key
and the new node keys above it, all of them keys that `LeafSearch` took to `ln` before
(`SplitKeys`).

* `reached_mem_interval`: the keys `LeafSearch` takes to a leaf lie in the interval of its place;
* `SplitStart.walkInv`: the walk starts from a `WalkInv` state;
* `split_walk`: the walk leaves a well-formed tree (`TreeOK S''`) with the new leaf right after
  `ln`, for every such `S''`;
* `split_routes`: after the walk, a key `LeafSearch` took to `ln` goes to `ln` when it is at or
  below the split key and to the new leaf when it is above; `split_routes_other`: a key it took to
  another leaf goes there still.
-/

namespace ScreeDB

open ScreeDBNode

/-- The volatile state of `LeafSplit` before the walk: a new leaf node `v.next_id` with the
split leaf node's parent; the index is unchanged. -/
structure SplitStart (v v₁ : Volatile) (ln : Nat) : Prop where
  top : v₁.top_ = v.top_
  parent : ∀ m, v₁.parent m = if m = v.next_id then v.parent ln else v.parent m
  next_id : v₁.next_id = v.next_id + 1

/-- The keys of the leaves after a split of `ln` at `split`, seen from the index `T` before it:
`S''` keeps the leaves other than `ln` and the new one within their keys `S`, and gives `ln` and
the new leaf keys that the search took to `ln`, at or below the split key and above it. The split
key and one key above it were taken to `ln`. -/
structure SplitKeys (S S'' : Nat → CStr → Prop) (T : ScreeDBNode) (ln new : Nat) (split : CStr) :
    Prop where
  other : ∀ m ∈ leafIds T, m ≠ ln → ∀ k, S'' m k → S m k
  old : ∀ k, S'' ln k → k ≤ split ∧ leafSearchFrom k T = some ln
  new : ∀ k, S'' new k → split < k ∧ leafSearchFrom k T = some ln
  split_reached : leafSearchFrom split T = some ln
  above : ∃ k, split < k ∧ leafSearchFrom k T = some ln

section Split

variable {S S'' : Nat → CStr → Prop} {v v₁ : Volatile} {T : ScreeDBNode} {ln : Nat}
  {split : CStr}

/-- The other leaves of the path are leaves of the tree other than `ln`. -/
theorem mem_ctx_ne {ps : List Frame} {m : Nat} (hnd : (leafIds (plugAll ps (.leaf ln))).Nodup)
    (hm : m ∈ ctxLeft ps ++ ctxRight ps) : m ∈ leafIds (plugAll ps (.leaf ln)) ∧ m ≠ ln := by
  rw [leafIds_plugAll, leafIds_leaf] at hnd ⊢
  have hnd' : (ln :: (ctxLeft ps ++ ctxRight ps)).Nodup :=
    List.nodup_middle.1 (by simpa using hnd)
  refine ⟨by simp only [List.mem_append] at hm ⊢; tauto, ?_⟩
  rintro rfl
  exact (List.nodup_cons.1 hnd').1 hm

/-- The keys `LeafSearch` takes to a leaf lie in the interval of its place: seen from the path
to the leaf, the tree stays well-formed when the leaf takes all of them (`WF.add_reached`). -/
theorem reached_mem_interval {d : Nat} {ps : List Frame}
    (hwf : WF S true none none d (plugAll ps (.leaf ln)))
    (hnd : (leafIds (plugAll ps (.leaf ln))).Nodup) :
    ∃ lo hi, CtxWF S ps lo hi 0 ∧
      ∀ k, leafSearchFrom k (plugAll ps (.leaf ln)) = some ln → Bound.Mem lo hi k := by
  -- the leaf `ln` with every key the search takes to it
  let R : Nat → CStr → Prop := fun m k =>
    S m k ∨ (m = ln ∧ leafSearchFrom k (plugAll ps (.leaf ln)) = some ln)
  have hwfR : WF R true none none d (plugAll ps (.leaf ln)) := by
    refine WF.add_reached (n := ln) _ hwf hnd fun m _ k hk => ?_
    rcases hk with hk | ⟨rfl, hs⟩
    · exact .inl hk
    · exact .inr ⟨rfl, Bound.mem_none_none k, hs⟩
  obtain ⟨lo, hi, d', -, hctx, hleaf⟩ := wf_plugAll_iff.1 hwfR
  obtain ⟨rfl, hkeys⟩ := wf_leaf.1 hleaf
  exact ⟨lo, hi, hctx.congr fun _ _ _ hk => .inl hk, fun k hk => hkeys k (.inr ⟨rfl, hk⟩)⟩

/-- Making the new leaf node keeps the index a `TreeOK` tree: its id is above the tree's. -/
theorem SplitStart.treeOK (hs : SplitStart v v₁ ln) (hT : TreeOK S v T) : TreeOK S v₁ T := by
  have hne : ∀ i ∈ ids T, i ≠ v.next_id := fun i hi => Nat.ne_of_lt (hT.fresh i hi)
  refine ⟨hT.wf, hT.nodup, fun i hi => ?_, hT.parents.congr_ids hT.nodup fun j hj _ => ?_, ?_⟩
  · rw [hs.next_id]
    exact Nat.lt_succ_of_lt (hT.fresh i hi)
  · rw [hs.parent, if_neg (hne j hj)]
  · rw [hs.parent, if_neg (hne _ (id_mem_ids T))]
    exact hT.root

/-- **The start of the walk.** After the new leaf node is made, the index is the path to `ln`,
with the new leaf waiting right of `ln` at the split key, and the walk has a level of fuel for
every ancestor of `ln`, and one more. -/
theorem SplitStart.walkInv (hs : SplitStart v v₁ ln) (hT : TreeOK S v T)
    (htop : v.top_ = some T) (hln : ln ∈ leafIds T) (hK : SplitKeys S S'' T ln v.next_id split) :
    ∃ ps, T = plugAll ps (.leaf ln) ∧ WalkInv S'' v₁ ps (.leaf ln) (.leaf v.next_id) split ∧
      ps.length < v₁.walkFuel := by
  obtain ⟨ps, rfl⟩ := exists_path (mem_leafIds.1 hln)
  obtain ⟨d, hwf⟩ := hT.wf
  have hndl := hT.nodup.sublist (leafIds_sublist_ids _)
  obtain ⟨lo, hi, hctx, hreach⟩ := reached_mem_interval hwf hndl
  have hnew : v.next_id ∉ ids (plugAll ps (.leaf ln)) := fun h => Nat.lt_irrefl _ (hT.fresh _ h)
  have hln_ne : ln ≠ v.next_id := fun h => hnew (h ▸ (leafIds_sublist_ids _).subset hln)
  -- `ln` keeps the lower part of its interval, the new leaf takes the upper part
  obtain ⟨k, hk, hkr⟩ := hK.above
  refine ⟨ps, rfl, (hs.treeOK hT).walkInv (by rw [hs.top, htop]) rfl (by simp) (fun i hi => ?_)
    (parentsOK_leaf _) ?_ (hctx.congr fun m hm k' hk' => ?_) (hreach split hK.split_reached).1
    (Bound.Lt.trans_le (b := k) hk (hreach k hkr).2) ?_ ?_,
    walkFuel_gt (x := .leaf ln) (by rw [hs.top, htop])⟩
  · obtain rfl : i = v.next_id := by simpa using hi
    exact ⟨by rw [hs.next_id]; exact Nat.lt_succ_self _, hnew⟩
  · rw [id_leaf, id_leaf, hs.parent, if_pos rfl, hs.parent, if_neg hln_ne]
  · obtain ⟨hmT, hne⟩ := mem_ctx_ne hndl hm
    exact hK.other m hmT hne k' hk'
  · refine wf_leaf.2 ⟨rfl, fun k' hk' => ?_⟩
    obtain ⟨hle, hr⟩ := hK.old k' hk'
    exact ⟨(hreach k' hr).1, hle⟩
  · refine wf_leaf.2 ⟨rfl, fun k' hk' => ?_⟩
    obtain ⟨hlt, hr⟩ := hK.new k' hk'
    exact ⟨hlt, (hreach k' hr).2⟩

/-- **The walk after a split.** `LeafUpdateParentsAfterSplit` from `ln` leaves a well-formed tree
over the keys `S''`, whose leaves are the old ones with the new leaf right after `ln`. -/
theorem split_walk (hs : SplitStart v v₁ ln) (hT : TreeOK S v T) (htop : v.top_ = some T)
    (hln : ln ∈ leafIds T) (hK : SplitKeys S S'' T ln v.next_id split) :
    ∃ ps, T = plugAll ps (.leaf ln) ∧
      WalkOut S'' v₁ (leafUpdateParentsAfterSplit v₁.walkFuel v₁ ln (.leaf v.next_id) split)
        (ctxIds ps ++ [ln, v.next_id]) (ctxLeft ps ++ [ln, v.next_id] ++ ctxRight ps) := by
  obtain ⟨ps, rfl, hw, hfuel⟩ := hs.walkInv hT htop hln hK
  refine ⟨ps, rfl, ?_⟩
  simpa using walk_spec hw hfuel

/-- The new leaf node is not in the tree. -/
theorem TreeOK.next_id_not_mem (hT : TreeOK S v T) : v.next_id ∉ leafIds T :=
  fun h => Nat.lt_irrefl _ (hT.fresh _ ((leafIds_sublist_ids T).subset h))

/-- **Routing after a split.** A key that `LeafSearch` took to `ln` goes, after the walk, to `ln`
when it is at or below the split key and to the new leaf when it is above. -/
theorem split_routes (hs : SplitStart v v₁ ln) (hT : TreeOK S v T) (htop : v.top_ = some T)
    (hln : ln ∈ leafIds T) (hsplit : leafSearchFrom split T = some ln)
    (habove : ∃ k, split < k ∧ leafSearchFrom k T = some ln) {k : CStr}
    (hk : leafSearchFrom k T = some ln) :
    ∃ T', (leafUpdateParentsAfterSplit v₁.walkFuel v₁ ln (.leaf v.next_id) split).top_ = some T' ∧
      leafSearchFrom k T' = some (if k ≤ split then ln else v.next_id) := by
  -- the tree after the walk is well-formed over the keys where only `k` is held, by its side
  let target := if k ≤ split then ln else v.next_id
  have hnew := hT.next_id_not_mem
  have hK : SplitKeys S (fun m k' => k' = k ∧ m = target) T ln v.next_id split := by
    refine ⟨fun m hm hne k' hk' => ?_, fun k' hk' => ?_, fun k' hk' => ?_, hsplit, habove⟩
    · obtain ⟨-, rfl⟩ := hk'
      by_cases hks : k ≤ split
      · exact absurd (if_pos hks) hne
      · exact absurd (by rwa [show target = v.next_id from if_neg hks] at hm) hnew
    · obtain ⟨rfl, ht⟩ := hk'
      by_cases hks : k' ≤ split
      · exact ⟨hks, hk⟩
      · have ht' : ln = v.next_id := ht.trans (if_neg hks)
        exact absurd (ht' ▸ hln) hnew
    · obtain ⟨rfl, ht⟩ := hk'
      by_cases hks : k' ≤ split
      · have ht' : v.next_id = ln := ht.trans (if_pos hks)
        exact absurd (ht'.symm ▸ hln) hnew
      · exact ⟨lt_of_not_ge hks, hk⟩
  obtain ⟨ps, rfl, ⟨T', htop', hok, hleaves⟩, -, -, -, -⟩ := split_walk hs hT htop hln hK
  obtain ⟨d, hwf⟩ := hok.wf
  have hmem : target ∈ leafIds T' := by
    rw [hleaves]
    by_cases hks : k ≤ split <;> simp [target, hks]
  exact ⟨T', htop', leafSearchFrom_of_mem T' hwf hmem ⟨rfl, rfl⟩⟩

/-- **Routing after a split, elsewhere.** A key that `LeafSearch` took to a leaf other than `ln`
goes to the same leaf after the walk. -/
theorem split_routes_other (hs : SplitStart v v₁ ln) (hT : TreeOK S v T) (htop : v.top_ = some T)
    (hln : ln ∈ leafIds T) (hsplit : leafSearchFrom split T = some ln)
    (habove : ∃ k, split < k ∧ leafSearchFrom k T = some ln) {k : CStr} {m : Nat}
    (hk : leafSearchFrom k T = some m) (hm : m ≠ ln) :
    ∃ T', (leafUpdateParentsAfterSplit v₁.walkFuel v₁ ln (.leaf v.next_id) split).top_ = some T' ∧
      leafSearchFrom k T' = some m := by
  obtain ⟨d, hwf⟩ := hT.wf
  have hnd := hT.nodup.sublist (leafIds_sublist_ids T)
  have hmT := leafSearchFrom_mem T hk
  -- the index is well-formed over the keys where `m` holds `k` and no leaf holds anything else
  have hwf₀ : WF (fun m' k' => k' = k ∧ m' = m) true none none d T :=
    WF.add_found T (WF.congr T (fun _ _ _ h => h.elim) hwf : WF (fun _ _ => False) true none none d T) hnd
      (Bound.mem_none_none k) hk fun _ _ _ hk' => .inr ⟨hk'.2, hk'.1⟩
  have hK : SplitKeys (fun m' k' => k' = k ∧ m' = m) (fun m' k' => k' = k ∧ m' = m) T ln
      v.next_id split := by
    refine ⟨fun _ _ _ _ h => h, fun k' hk' => absurd hk'.2.symm hm, fun k' hk' => ?_, hsplit, habove⟩
    exact absurd (by rw [hk'.2]; exact hmT) hT.next_id_not_mem
  obtain ⟨ps, rfl, ⟨T', htop', hok, hleaves⟩, -, -, -, -⟩ :=
    split_walk hs ⟨⟨d, hwf₀⟩, hT.nodup, hT.fresh, hT.parents, hT.root⟩ htop hln hK
  -- `m` is a leaf of the path's sides, which the walk keeps
  have hm' : m ∈ leafIds T' := by
    rw [leafIds_plugAll, leafIds_leaf] at hmT
    rw [hleaves]
    simp only [List.mem_append, List.mem_cons, List.not_mem_nil, or_false] at hmT ⊢
    rcases hmT with (h | h) | h
    · exact .inl (.inl h)
    · exact absurd h hm
    · exact .inr h
  obtain ⟨d', hwf'⟩ := hok.wf
  exact ⟨T', htop', leafSearchFrom_of_mem T' hwf' hm' ⟨rfl, rfl⟩⟩

end Split

end ScreeDB
