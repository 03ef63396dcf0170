import ScreeDB.Lifecycle
import ScreeDB.Tree.Split

/-!
# Building the index from the left (`RebuildNodes`)

The second loop of `RebuildNodes` makes the first recovered leaf node the index, then hands each
next one up from the one before, at that one's largest key (`LeafUpdateParentsAfterSplit`): the
index grows at its right end, where the place of the last leaf is unbounded above.

* `CtxWF.hi_none`: the place of the last leaf is unbounded above;
* `walkInv_leaf`: the walk from a leaf of the tree with a leaf node outside it waiting on its
  right;
* `build_step`: one turn of the loop appends the next leaf node (`BuildInv`);
* `rebuildLoop_built`: the loop over leaf nodes whose keys ascend (`Ascending`) builds a
  well-formed index over them, in their order (`Built`).
-/

namespace ScreeDB

open ScreeDBNode

variable {S : Nat → CStr → Prop}

/-! ## The last leaf -/

/-- The place of a node with no leaf right of it is unbounded above. -/
theorem CtxWF.hi_none : ∀ {ps : List Frame} {lo hi : Option CStr} {d : Nat},
    CtxWF S ps lo hi d → ctxRight ps = [] → hi = none
  | [], _, _, _, h, _ => h.2
  | f :: fs, _, _, _, h, hR => by
    obtain ⟨_, _, _, _, -, -, -, -, -, hr, hctx⟩ := h
    simp only [ctxRight, List.append_eq_nil_iff] at hR
    rcases hr with ⟨-, -, rfl⟩ | ⟨k, kr', -, -, hc⟩
    · exact CtxWF.hi_none hctx hR.2
    · -- a child right of the place would have a leaf
      exact absurd hR.1 (WFChain.leafIdsIn_ne_nil _ _ hc)

/-- In a list without duplicates, what ends with `a` ends there. -/
theorem eq_of_append_singleton {L R D : List Nat} {a : Nat} (hnd : (L ++ [a] ++ R).Nodup)
    (h : L ++ [a] ++ R = D ++ [a]) : L = D ∧ R = [] := by
  rcases List.eq_nil_or_concat R with rfl | ⟨R', b, hR⟩
  · have h' : L ++ [a] = D ++ [a] := by simpa using h
    exact ⟨List.append_cancel_right h', rfl⟩
  · -- the last element would be `a` a second time
    rw [List.concat_eq_append] at hR
    subst hR
    rw [← List.append_assoc] at h
    obtain ⟨-, hb⟩ := List.append_inj' h rfl
    obtain rfl : b = a := by simpa using hb
    have hnd' := List.nodup_append.1 hnd
    exact absurd rfl (hnd'.2.2 b (by simp) b (by simp))

/-! ## One turn of the loop -/

/-- The walk from the leaf `ln` of the index, with the leaf node `nn`, outside the tree and with
`ln`'s parent, waiting right of it at `s`, when `ln` and `nn` split the interval of `ln`'s place
at `s`. -/
theorem walkInv_leaf {S' : Nat → CStr → Prop} {v : Volatile} {ps : List Frame} {ln nn : Nat}
    {s : CStr} (hT : TreeOK S' v (plugAll ps (.leaf ln)))
    (htop : v.top_ = some (plugAll ps (.leaf ln))) (hnn : nn ∉ ids (plugAll ps (.leaf ln)))
    (hlt : nn < v.next_id) (hpar : v.parent nn = v.parent ln)
    (hwf : ∃ lo hi, CtxWF S ps lo hi 0 ∧ Bound.Lt lo (some s) ∧ Bound.Lt (some s) hi ∧
      WF S false lo (some s) 0 (.leaf ln) ∧ WF S false (some s) hi 0 (.leaf nn)) :
    WalkInv S v ps (.leaf ln) (.leaf nn) s := by
  obtain ⟨lo, hi, hctx, hlo, hhi, hx, hn⟩ := hwf
  refine hT.walkInv htop rfl (by simp) (fun i hi => ?_) (parentsOK_leaf _) hpar hctx hlo hhi hx hn
  obtain rfl : i = nn := by simpa using hi
  exact ⟨hlt, hnn⟩

/-- The index while the loop links the leaf nodes after `done ++ [ln]`: a well-formed tree with
those leaves, in order, whose other ids are those of inner nodes, from `M` on. -/
structure BuildInv (S : Nat → CStr → Prop) (M : Nat) (v : Volatile) (done : List Nat) (ln : Nat) :
    Prop where
  tree : ∃ T, v.top_ = some T ∧ TreeOK S v T ∧ leafIds T = done ++ [ln] ∧
    ∀ i ∈ ids T, i ∈ done ++ [ln] ∨ M ≤ i
  next_id : M ≤ v.next_id

/-- The parent fields of a tree's nodes are all `TreeOK` reads of them. -/
theorem TreeOK.setParent {v : Volatile} {T : ScreeDBNode} (hT : TreeOK S v T) {n : Nat}
    (hn : n ∉ ids T) (p : Option Nat) : TreeOK S (v.setParent n p) T := by
  have hne : ∀ i ∈ ids T, i ≠ n := fun i hi he => hn (he ▸ hi)
  refine ⟨hT.wf, hT.nodup, by simpa using hT.fresh, ?_, ?_⟩
  · exact hT.parents.congr_ids hT.nodup fun j hj _ => by simp [hne j hj]
  · simpa [hne _ (id_mem_ids T)] using hT.root

/-- The walk of one turn starts from a `WalkInv` state: the index is the path to its last leaf
`ln`, with nothing on its right, and the next leaf node `nn`, whose keys lie above the largest key
`mk` of `ln`, waits right of `ln` at `mk`; the walk has fuel for every ancestor of `ln`. -/
theorem build_walkInv {M : Nat} {v : Volatile} {done : List Nat} {ln nn : Nat} {mk : CStr}
    (h : BuildInv S M v done ln) (hmax : S ln mk ∧ ∀ k, S ln k → k ≤ mk)
    (habove : ∀ k, S nn k → mk < k) (hnn : nn ∉ done ++ [ln]) (hlt : nn < M) :
    ∃ ps, v.top_ = some (plugAll ps (.leaf ln)) ∧ ctxLeft ps = done ∧ ctxRight ps = [] ∧
      WalkInv S (v.setParent nn (v.parent ln)) ps (.leaf ln) (.leaf nn) mk ∧
      ps.length < (v.setParent nn (v.parent ln)).walkFuel := by
  obtain ⟨T, htop, hT, hleaves, hids⟩ := h.tree
  have hnT : nn ∉ ids T := fun hm => by
    rcases hids nn hm with hm | hm
    · exact hnn hm
    · omega
  -- `ln` is the last leaf: its path has nothing on its right
  obtain ⟨ps, rfl⟩ := exists_path (mem_leafIds.1 (hleaves ▸ List.mem_append_right _ (by simp) :
    ln ∈ leafIds T))
  have hndl := hT.nodup.sublist (leafIds_sublist_ids _)
  rw [leafIds_plugAll, leafIds_leaf] at hleaves hndl
  obtain ⟨hleft, hright⟩ := eq_of_append_singleton hndl hleaves
  obtain ⟨D, hwf⟩ := hT.wf
  obtain ⟨lo, hi, d, -, hctx, hleaf⟩ := wf_plugAll_iff.1 hwf
  obtain ⟨rfl, hkeys⟩ := wf_leaf.1 hleaf
  obtain rfl := hctx.hi_none hright
  refine ⟨ps, htop, hleft, hright, walkInv_leaf (hT.setParent hnT _) (by simpa using htop) hnT
    (by simpa using lt_of_lt_of_le hlt h.next_id) (by simp) ⟨lo, none, hctx,
      (hkeys mk hmax.1).1, by simp, wf_leaf.2 ⟨rfl, fun k hk => ⟨(hkeys k hk).1, hmax.2 k hk⟩⟩,
      wf_leaf.2 ⟨rfl, fun k hk => ⟨habove k hk, by simp⟩⟩⟩,
    walkFuel_gt (x := .leaf ln) (by simpa using htop)⟩

/-- **One turn.** The next leaf node `nn`, whose keys lie above the largest key `mk` of the last
leaf node `ln`, is handed up from `ln` at `mk` and becomes the last leaf of the index. -/
theorem build_step {M : Nat} {v : Volatile} {done : List Nat} {ln nn : Nat} {mk : CStr}
    (h : BuildInv S M v done ln) (hmax : S ln mk ∧ ∀ k, S ln k → k ≤ mk)
    (habove : ∀ k, S nn k → mk < k) (hnn : nn ∉ done ++ [ln]) (hlt : nn < M) :
    BuildInv S M (leafUpdateParentsAfterSplit (v.setParent nn (v.parent ln)).walkFuel
        (v.setParent nn (v.parent ln)) ln (.leaf nn) mk) (done ++ [ln]) nn ∧
      (leafUpdateParentsAfterSplit (v.setParent nn (v.parent ln)).walkFuel
        (v.setParent nn (v.parent ln)) ln (.leaf nn) mk).hashes = v.hashes ∧
      (leafUpdateParentsAfterSplit (v.setParent nn (v.parent ln)).walkFuel
        (v.setParent nn (v.parent ln)) ln (.leaf nn) mk).leaf = v.leaf := by
  obtain ⟨T, htop, -, -, hids⟩ := h.tree
  obtain ⟨ps, htop₀, hleft, hright, hw, hfuel⟩ := build_walkInv h hmax habove hnn hlt
  obtain rfl : T = plugAll ps (.leaf ln) := Option.some.inj (htop.symm.trans htop₀)
  obtain ⟨⟨T', htop', hT', hleaves'⟩, hhash, hleaf', hnext, hids'⟩ := walk_spec hw hfuel
  refine ⟨⟨⟨T', htop', hT', ?_, fun i hi => ?_⟩, ?_⟩, by simpa using hhash, by simpa using hleaf'⟩
  · rw [hleaves', hleft, hright]
    simp
  · -- the walk's ids are the old tree's, `nn`, or new inner nodes
    have hperm := ids_plugAll_perm ps (.leaf ln)
    rcases hids' T' htop' i hi with hi | hi
    · simp only [ids_leaf, List.mem_append, List.mem_singleton] at hi
      rcases hi with (hi | rfl) | rfl
      · rcases hids i (hperm.mem_iff.2 (List.mem_append_left _ hi)) with h' | h'
        · exact .inl (List.mem_append_left _ h')
        · exact .inr h'
      · exact .inl (by simp)
      · exact .inl (by simp)
    · exact .inr (le_trans h.next_id (by simpa using hi))
  · exact le_trans h.next_id (by simpa using hnext)

/-! ## The loop -/

/-- Leaf nodes with their largest keys, in the order the loop links them: each holds its largest
key and no key above it, and only keys above the largest keys of the nodes before it; the ids are
distinct and below `M`. -/
structure Ascending (S : Nat → CStr → Prop) (M : Nat) (R : List (Nat × CStr)) : Prop where
  max : ∀ e ∈ R, S e.1 e.2 ∧ ∀ k, S e.1 k → k ≤ e.2
  above : R.Pairwise fun e e' => ∀ k, S e'.1 k → e.2 < k
  nodup : (R.map Prod.fst).Nodup
  lt : ∀ e ∈ R, e.1 < M

theorem Ascending.tail {M : Nat} {e : Nat × CStr} {R : List (Nat × CStr)}
    (h : Ascending S M (e :: R)) : Ascending S M R :=
  ⟨fun e' he' => h.max e' (List.mem_cons_of_mem _ he'), (List.pairwise_cons.1 h.above).2,
    (List.nodup_cons.1 h.nodup).2, fun e' he' => h.lt e' (List.mem_cons_of_mem _ he')⟩

/-- What a turn of the loop needs of the nodes still to link: the next node lies above `ln` and,
as every later one, is not linked yet. -/
theorem Ascending.next {M : Nat} {ln nn : Nat} {mk mk' : CStr} {rest : List (Nat × CStr)}
    {done : List Nat} (hA : Ascending S M ((ln, mk) :: (nn, mk') :: rest))
    (hdone : ∀ e ∈ (nn, mk') :: rest, e.1 ∉ done) :
    (S ln mk ∧ ∀ k, S ln k → k ≤ mk) ∧ (∀ k, S nn k → mk < k) ∧ nn ∉ done ++ [ln] ∧ nn < M ∧
      ∀ e ∈ rest, e.1 ∉ done ++ [ln] := by
  have hnd := hA.nodup
  simp only [List.map_cons, List.nodup_cons, List.mem_cons, List.mem_map, not_or] at hnd
  refine ⟨hA.max (ln, mk) List.mem_cons_self,
    (List.pairwise_cons.1 hA.above).1 (nn, mk') List.mem_cons_self, ?_,
    hA.lt (nn, mk') (List.mem_cons_of_mem _ List.mem_cons_self), fun e he => ?_⟩
  · simp only [List.mem_append, List.mem_singleton, not_or]
    exact ⟨hdone (nn, mk') List.mem_cons_self, fun he => hnd.1.1 he.symm⟩
  · simp only [List.mem_append, List.mem_singleton, not_or]
    exact ⟨hdone e (List.mem_cons_of_mem _ he), fun he' => hnd.1.2 ⟨e, he, he'⟩⟩

/-- What the loop leaves: a well-formed index over the leaves `leaves`, in order, with the hash
caches and leaf pointers it started with. -/
structure Built (S : Nat → CStr → Prop) (v v' : Volatile) (leaves : List Nat) : Prop where
  tree : ∃ T, v'.top_ = some T ∧ TreeOK S v' T ∧ leafIds T = leaves
  hashes : v'.hashes = v.hashes
  leaf : v'.leaf = v.leaf

theorem rebuildLoop_cons_cons {v : Volatile} {ln nn : Nat} {mk mk' : CStr}
    {rest : List (Nat × CStr)} {T : ScreeDBNode} (htop : v.top_ = some T) :
    rebuildLoop ((ln, mk) :: (nn, mk') :: rest) v =
      rebuildLoop ((nn, mk') :: rest) (leafUpdateParentsAfterSplit
        (v.setParent nn (v.parent ln)).walkFuel (v.setParent nn (v.parent ln)) ln (.leaf nn) mk) := by
  simp only [rebuildLoop, htop, Option.isNone_some]
  rfl

theorem rebuildLoop_single {v : Volatile} {ln : Nat} {mk : CStr} {T : ScreeDBNode}
    (htop : v.top_ = some T) : rebuildLoop [(ln, mk)] v = v := by
  simp [rebuildLoop, htop]

/-- The first turn makes the first leaf node the index. -/
theorem rebuildLoop_cons_none {v : Volatile} {ln : Nat} {mk : CStr} {rest : List (Nat × CStr)}
    (htop : v.top_ = none) :
    rebuildLoop ((ln, mk) :: rest) v = rebuildLoop ((ln, mk) :: rest) (v.setTop (some (.leaf ln))) := by
  conv_lhs => rw [rebuildLoop.eq_def]
  conv_rhs => rw [rebuildLoop.eq_def]
  simp [htop]

/-- **The loop.** From an index whose last leaf is `ln`, the loop links the leaf nodes of `rest`
after it, each at the largest key of the one before. -/
theorem rebuildLoop_built {M : Nat} : ∀ (rest : List (Nat × CStr)) {v : Volatile}
    {done : List Nat} {ln : Nat} {mk : CStr}, BuildInv S M v done ln →
    Ascending S M ((ln, mk) :: rest) → (∀ e ∈ rest, e.1 ∉ done) →
    Built S v (rebuildLoop ((ln, mk) :: rest) v) (done ++ ln :: rest.map Prod.fst)
  | [], v, done, ln, mk, h, _, _ => by
    obtain ⟨T, htop, hT, hleaves, -⟩ := h.tree
    rw [rebuildLoop_single htop]
    exact ⟨⟨T, htop, hT, by simpa using hleaves⟩, rfl, rfl⟩
  | (nn, mk') :: rest, v, done, ln, mk, h, hA, hdone => by
    obtain ⟨T, htop, -⟩ := h.tree
    obtain ⟨hmax, habove, hnn, hlt, hrest⟩ := hA.next hdone
    obtain ⟨h', hhash, hleaf⟩ := build_step h hmax habove hnn hlt
    obtain ⟨htree, hhash', hleaf'⟩ := rebuildLoop_built rest h' hA.tail hrest
    rw [rebuildLoop_cons_cons htop]
    refine ⟨?_, hhash'.trans hhash, hleaf'.trans hleaf⟩
    simpa using htree

end ScreeDB
