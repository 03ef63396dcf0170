import ScreeDB.Tree.Walk

/-!
# Parent propagation

`LeafUpdateParentsAfterSplit(node, new_node, &split_key)` works on the fixed arrays of an inner
node, `keys[INNER_KEYS + 1]` and `children[INNER_KEYS + 2]`, and it finds the place of `new_node`
by comparing keys, not by looking for `node`. `walkInBounds` says, level by level, what keeps
those accesses inside the arrays and the scan at `node`'s place; its own recursion bounds the
levels the walk takes.

* `leafUpdateParentsAfterSplit_fuel`: a walk in bounds for `n` levels returns within them, so more
  fuel leaves the same state;
* `WalkInv.inBounds`: from a node at depth `ps.length`, the walk is in bounds for
  `ps.length + 1` levels;
* `leafUpdateParentsAfterSplit_spec`: from a node `x` of a well-formed tree and a new node that
  splits the interval of `x`'s place with it, the walk stays in bounds, returns within
  `height + 1` levels, and leaves a well-formed tree whose leaves are the old ones with the new
  node's right after `x`'s, where `LeafSearch` takes the keys of `x`'s lower part of the interval
  into `x` and the rest into the new node.

The conditions on the new node are those of the walk's own calls: a new leaf beside a leaf, and
the upper half of a split inner node beside its lower half. Keys alone do not make them:
`uneven_new_node_breaks_tree` hands a leaf up beside an inner node.
-/

namespace ScreeDB

open ScreeDBNode

/-! ## Array bounds of the walk -/

/-- The accesses of `LeafUpdateParentsAfterSplit` from `node` stay in the arrays for `fuel`
levels, and the walk returns within them. At each level with a parent, the parent is an inner
node with at most `INNER_KEYS` keys and one more child, so the shifts read only its children and
write at most `keys[keycount]` and `children[keycount + 1]`, the overflow slots; and the key scan
stops at `node`'s place among the children, so `new_node` goes right after `node`. A parent that
then holds five keys and six children splits, with the copies reading them in full. -/
def walkInBounds : Nat → Volatile → Nat → ScreeDBNode → CStr → Bool
  | 0, _, _, _, _ => false
  | fuel + 1, v, node, new_node, split_key =>
    match v.parent node with
    | none => true
    | some p =>
      match v.top_.bind (·.findNode p) with
      | some (.inner _ keys children) =>
        let idx := insertPos split_key keys
        decide (keys.length ≤ INNER_KEYS) && children.length == keys.length + 1 &&
          children.findIdx (·.id == node) == idx &&
          (decide ((keys.insertIdx idx split_key).length ≤ INNER_KEYS) ||
            walkInBounds fuel (splitUp v p keys children new_node split_key).1 p
              (splitUp v p keys children new_node split_key).2.1
              (splitUp v p keys children new_node split_key).2.2)
      | _ => false

section Bounds

variable {fuel : Nat} {v : Volatile} {node p : Nat} {new : ScreeDBNode} {s : CStr}

theorem walkInBounds_top (hpar : v.parent node = none) :
    walkInBounds (fuel + 1) v node new s = true := by
  simp [walkInBounds, hpar]

/-- One level of the walk below a parent `p`: `p` is an inner node whose arrays take `s` and
`new_node` at `node`'s place, and the walk stops there or goes on in bounds. -/
theorem walkInBounds_parent (hpar : v.parent node = some p) :
    walkInBounds (fuel + 1) v node new s = true ↔
      ∃ i keys children, v.top_.bind (·.findNode p) = some (.inner i keys children) ∧
        keys.length ≤ INNER_KEYS ∧ children.length = keys.length + 1 ∧
        children.findIdx (·.id == node) = insertPos s keys ∧
        ((keys.insertIdx (insertPos s keys) s).length ≤ INNER_KEYS ∨
          walkInBounds fuel (splitUp v p keys children new s).1 p (splitUp v p keys children new s).2.1
            (splitUp v p keys children new s).2.2 = true) := by
  simp only [walkInBounds, hpar]
  -- the monitor reads the parent as the walk does; anything but an inner node fails it
  cases hfind : v.top_.bind (·.findNode p) with
  | none => simp
  | some t =>
    cases t with
    | leaf _ => simp
    | inner i keys children =>
      simp only [Bool.and_eq_true, Bool.or_eq_true, decide_eq_true_eq, beq_iff_eq,
        Option.some.injEq, ScreeDBNode.inner.injEq]
      constructor
      · rintro ⟨⟨⟨h₁, h₂⟩, h₃⟩, h₄⟩
        exact ⟨i, keys, children, ⟨rfl, rfl, rfl⟩, h₁, h₂, h₃, h₄⟩
      · rintro ⟨_, _, _, ⟨rfl, rfl, rfl⟩, h₁, h₂, h₃, h₄⟩
        exact ⟨⟨⟨h₁, h₂⟩, h₃⟩, h₄⟩

/-- **Termination.** A walk in bounds for `n` levels returns within them: with more fuel it
leaves the same state. -/
theorem leafUpdateParentsAfterSplit_fuel : ∀ {n m : Nat} {v : Volatile} {node : Nat}
    {new : ScreeDBNode} {s : CStr}, walkInBounds n v node new s = true → n ≤ m →
      leafUpdateParentsAfterSplit m v node new s = leafUpdateParentsAfterSplit n v node new s
  | 0, _, _, _, _, _, h, _ => by simp [walkInBounds] at h
  | _ + 1, 0, _, _, _, _, _, hnm => absurd hnm (Nat.not_succ_le_zero _)
  | n + 1, m + 1, v, node, new, s, h, hnm => by
    cases hpar : v.parent node with
    | none => rw [leafUpdateParentsAfterSplit_top hpar, leafUpdateParentsAfterSplit_top hpar]
    | some p =>
      obtain ⟨i, keys, children, hfind, -, -, -, hnext⟩ := (walkInBounds_parent hpar).1 h
      by_cases hlen : (keys.insertIdx (insertPos s keys) s).length ≤ INNER_KEYS
      · rw [leafUpdateParentsAfterSplit_insert hpar hfind hlen,
          leafUpdateParentsAfterSplit_insert hpar hfind hlen]
      · -- the parent splits on both sides, and the level above is in bounds for `n` levels
        have hlen' := Nat.lt_of_not_le hlen
        rw [leafUpdateParentsAfterSplit_split hpar hfind hlen',
          leafUpdateParentsAfterSplit_split hpar hfind hlen']
        exact leafUpdateParentsAfterSplit_fuel (hnext.resolve_left hlen) (Nat.le_of_succ_le_succ hnm)

end Bounds

/-! ## Bounds along the path -/

section Path

variable {S : Nat → CStr → Prop}

/-- The first child with a given id, in children of distinct ids, is at its own place. -/
theorem findIdx_id_eq {l r : List ScreeDBNode} {x : ScreeDBNode} (hl : ∀ c ∈ l, c.id ≠ x.id) :
    (l ++ x :: r).findIdx (·.id == x.id) = l.length := by
  have hnot : ¬ l.findIdx (·.id == x.id) < l.length := by
    rw [List.findIdx_lt_length]
    rintro ⟨c, hc, hcx⟩
    exact hl c hc (beq_iff_eq.1 hcx)
  rw [List.findIdx_append, if_neg hnot, List.findIdx_cons]
  simp

/-- The children of `x`'s parent left of `x` have other ids than `x`. -/
theorem WalkInv.left_ne {v : Volatile} {f : Frame} {fs : List Frame} {x new : ScreeDBNode}
    {s : CStr} (h : WalkInv S v (f :: fs) x new s) : ∀ c ∈ f.left, c.id ≠ x.id := by
  intro c hc hcx
  have hnd := List.nodup_append.1 (List.nodup_append.1 h.nodup).1
  have hc' : c.id ∈ ctxIds (f :: fs) := by
    simp only [ctxIds, List.mem_cons, List.mem_append]
    exact .inr (.inl (.inl (mem_idsIn.2 ⟨c, hc, id_mem_ids c⟩)))
  exact hnd.2.2 _ hc' _ (id_mem_ids x) hcx

/-- **Bounds along the path.** From a node at depth `ps.length`, the walk is in bounds for
`ps.length + 1` levels: each parent on the path is a well-formed inner node, and the scan finds
`x`'s place by the keys around it. -/
theorem WalkInv.inBounds : ∀ {ps : List Frame} {v : Volatile} {x new : ScreeDBNode} {s : CStr},
    WalkInv S v ps x new s → walkInBounds (ps.length + 1) v x.id new s = true
  | [], _, _, _, _, h => walkInBounds_top h.root
  | f :: fs, v, x, new, s, h => by
    obtain ⟨hpar, hfind⟩ := h.frame
    rw [Frame.plug] at hfind
    obtain ⟨kl, kr, lo, hi, d, hk, hkeys, -, -, h₂, hchain, -⟩ := h.insert_lists
    refine (walkInBounds_parent hpar).2 ⟨f.id, f.keys, f.left ++ x :: f.right, hfind, h₂, ?_, ?_, ?_⟩
    · -- with `new`, the parent has one child more than keys
      have hlen := hchain.length
      simp only [hk, List.length_append, List.length_cons] at hlen ⊢
      omega
    · rw [h.insertPos_eq]
      exact findIdx_id_eq h.left_ne
    · by_cases hroom : f.keys.length < INNER_KEYS
      · left
        rw [hkeys]
        simp only [hk, List.length_append, List.length_cons] at hroom ⊢
        omega
      · exact .inr (h.splitUp (Nat.le_of_not_lt hroom)).inBounds

end Path

/-! ## The walk from a node of a well-formed tree -/

section Spec

variable {S : Nat → CStr → Prop} {v : Volatile} {T x new : ScreeDBNode} {ps : List Frame}
  {lo hi : Option CStr} {d : Nat} {s : CStr}

/-- After the walk, `LeafSearch` takes a key held by a leaf of `x` or of `new` to that leaf. -/
theorem WalkInv.reaches {fuel : Nat} (h : WalkInv S v ps x new s) (hf : ps.length < fuel)
    {T' : ScreeDBNode} (htop : (leafUpdateParentsAfterSplit fuel v x.id new s).top_ = some T')
    {n : Nat} {k : CStr} (hn : n ∈ leafIds x ++ leafIds new) (hk : S n k) :
    leafSearchFrom k T' = some n := by
  obtain ⟨⟨t, ht, hok, hleaves⟩, -⟩ := walk_spec h hf
  obtain rfl : T' = t := Option.some.inj (htop.symm.trans ht)
  obtain ⟨D, hwf⟩ := hok.wf
  refine leafSearchFrom_of_mem T' hwf ?_ hk
  rw [hleaves]
  simp only [List.mem_append] at hn ⊢
  tauto

/-- The leaves of the path, of `x` and of `new` are distinct. -/
theorem WalkInv.leaves_nodup (h : WalkInv S v ps x new s) :
    (ctxLeft ps ++ leafIds x ++ ctxRight ps ++ leafIds new).Nodup := by
  have hids : (ids (plugAll ps x) ++ ids new).Nodup :=
    ((ids_plugAll_perm ps x).append_right _).nodup_iff.2 h.nodup
  rw [← leafIds_plugAll]
  exact hids.sublist ((leafIds_sublist_ids _).append (leafIds_sublist_ids _))

/-- A leaf of `x` is no leaf of the path and none of `new`, and a leaf of `new` none of the path
and none of `x`. -/
theorem WalkInv.leaf_sides (h : WalkInv S v ps x new s) :
    (∀ n ∈ leafIds x, n ∉ ctxLeft ps ++ ctxRight ps ∧ n ∉ leafIds new) ∧
      ∀ n ∈ leafIds new, n ∉ ctxLeft ps ++ ctxRight ps ∧ n ∉ leafIds x := by
  obtain ⟨hlxr, -, hnew⟩ := List.nodup_append.1 h.leaves_nodup
  obtain ⟨hlx, -, hright⟩ := List.nodup_append.1 hlxr
  have hleft := (List.nodup_append.1 hlx).2.2
  refine ⟨fun n hn => ⟨fun hm => ?_, fun hm => hnew n (by simp [hn]) n hm rfl⟩,
    fun n hn => ⟨fun hm => ?_, fun hm => hnew n (by simp [hm]) n hn rfl⟩⟩
  · rcases List.mem_append.1 hm with hm | hm
    · exact hleft n hm n hn rfl
    · exact hright n (List.mem_append_right _ hn) n hm rfl
  · rcases List.mem_append.1 hm with hm | hm
    · exact hnew n (by simp [hm]) n hn rfl
    · exact hnew n (by simp [hm]) n hn rfl

/-- The key predicate `S` with the key `k` given to the leaf `n` besides. -/
def withKey (S : Nat → CStr → Prop) (n : Nat) (k : CStr) (m : Nat) (k' : CStr) : Prop :=
  S m k' ∨ (m = n ∧ k' = k)

theorem WF.withKey_other {r : Bool} {n : Nat} {k : CStr} {t : ScreeDBNode}
    (h : WF S r lo hi d t) (hn : n ∉ leafIds t) : WF (withKey S n k) r lo hi d t :=
  WF.congr t (fun _ hm _ hk' => hk'.resolve_right fun he => hn (he.1 ▸ hm)) h

theorem CtxWF.withKey_other {n : Nat} {k : CStr} (h : CtxWF S ps lo hi d)
    (hn : n ∉ ctxLeft ps ++ ctxRight ps) : CtxWF (withKey S n k) ps lo hi d :=
  h.congr fun _ hm _ hk' => hk'.resolve_right fun he => hn (he.1 ▸ hm)

/-- `LeafSearch` inside a well-formed subtree takes a key of its interval to a leaf that may hold
it besides its keys. -/
theorem WF.withKey_reached {r : Bool} {k : CStr} {t : ScreeDBNode} (h : WF S r lo hi d t)
    (hnd : (leafIds t).Nodup) (hk : Bound.Mem lo hi k) :
    ∃ n ∈ leafIds t, WF (withKey S n k) r lo hi d t := by
  obtain ⟨n, hn⟩ := leafSearchFrom_isSome k t h
  exact ⟨n, leafSearchFrom_mem t hn, WF.add_found t h hnd hk hn fun _ _ _ hk' => hk'⟩

/-- **Parent propagation.** Let `x` be a node of a well-formed tree at the end of the path `ps`,
in the interval `(lo, hi]`, and `new` a node outside the tree with `x`'s parent and right
`parent` fields, with `x` well-formed over `(lo, s]` and `new` over `(s, hi]` at the same height.
`LeafUpdateParentsAfterSplit` from `x` then

* takes at most `ps.length + 1 ≤ height + 1` levels: in bounds for them, it leaves with more fuel
  the same state as with `walkFuel`;
* stays in the arrays of every parent it changes and inserts at `x`'s place;
* leaves a well-formed tree whose leaves are the old ones with those of `new` right after those
  of `x`;
* in which `LeafSearch` takes every key of `(lo, s]` to a leaf of `x` and every key of `(s, hi]`
  to a leaf of `new`. -/
theorem leafUpdateParentsAfterSplit_spec (hT : TreeOK S v T) (htop : v.top_ = some T)
    (hx : T = plugAll ps x) (hctx : CtxWF S ps lo hi d) (hlo : Bound.Lt lo (some s))
    (hhi : Bound.Lt (some s) hi) (hxs : WF S false lo (some s) d x)
    (hns : WF S false (some s) hi d new) (hnd : (ids new).Nodup)
    (hfresh : ∀ i ∈ ids new, i < v.next_id ∧ i ∉ ids T) (hpn : ParentsOK v.parent new)
    (hpar : v.parent new.id = v.parent x.id) :
    ps.length + 1 ≤ v.walkFuel ∧ walkInBounds (ps.length + 1) v x.id new s = true ∧
      (∀ fuel, ps.length + 1 ≤ fuel → leafUpdateParentsAfterSplit fuel v x.id new s =
        leafUpdateParentsAfterSplit v.walkFuel v x.id new s) ∧
      ∃ T', (leafUpdateParentsAfterSplit v.walkFuel v x.id new s).top_ = some T' ∧
        TreeOK S (leafUpdateParentsAfterSplit v.walkFuel v x.id new s) T' ∧
        leafIds T' = ctxLeft ps ++ leafIds x ++ leafIds new ++ ctxRight ps ∧
        ∀ k, (Bound.Mem lo (some s) k → ∃ n ∈ leafIds x, leafSearchFrom k T' = some n) ∧
          (Bound.Mem (some s) hi k → ∃ n ∈ leafIds new, leafSearchFrom k T' = some n) := by
  have hw := hT.walkInv htop hx hnd hfresh hpn hpar hctx hlo hhi hxs hns
  have hfuel : ps.length + 1 ≤ v.walkFuel := by
    have hh := height_plugAll ps x
    simp only [Volatile.walkFuel, htop, hx, Option.map_some, Option.getD_some]
    omega
  have hb := hw.inBounds
  obtain ⟨⟨T', htop', hok, hleaves⟩, -⟩ := walk_spec hw hfuel
  refine ⟨hfuel, hb, fun fuel hf => ?_, T', htop', hok, hleaves, fun k => ⟨fun hk => ?_, fun hk => ?_⟩⟩
  · rw [leafUpdateParentsAfterSplit_fuel hb hf, leafUpdateParentsAfterSplit_fuel hb hfuel]
  -- `k` goes where the search inside `x` (or `new`) takes it: the walk keeps that leaf reached
  -- when it holds `k` besides its keys
  · have hndx : (leafIds x).Nodup := hw.leaves_nodup.sublist
      (((List.sublist_append_right _ _).trans (List.sublist_append_left _ _)).trans
        (List.sublist_append_left _ _))
    obtain ⟨n, hnx, hx'⟩ := hxs.withKey_reached hndx hk
    obtain ⟨hctxn, hnewn⟩ := hw.leaf_sides.1 n hnx
    have hw' := hT.walkInv htop hx hnd hfresh hpn hpar (hctx.withKey_other hctxn) hlo hhi hx'
      (hns.withKey_other hnewn)
    exact ⟨n, hnx, hw'.reaches hfuel htop' (List.mem_append_left _ hnx) (.inr ⟨rfl, rfl⟩)⟩
  · obtain ⟨n, hnn, hn'⟩ := hns.withKey_reached (hnd.sublist (leafIds_sublist_ids new)) hk
    obtain ⟨hctxn, hxn⟩ := hw.leaf_sides.2 n hnn
    have hw' := hT.walkInv htop hx hnd hfresh hpn hpar (hctx.withKey_other hctxn) hlo hhi
      (hxs.withKey_other hxn) hn'
    exact ⟨n, hnn, hw'.reaches hfuel htop' (List.mem_append_right _ hnn) (.inr ⟨rfl, rfl⟩)⟩

end Spec

/-! ## Three walks, and a new node of another height -/

/-- The one-letter C strings `a` to `f`. -/
def strA : CStr := ⟨[97], by simp⟩
def strB : CStr := ⟨[98], by simp⟩
def strC : CStr := ⟨[99], by simp⟩
def strD : CStr := ⟨[100], by simp⟩
def strE : CStr := ⟨[101], by simp⟩
def strF : CStr := ⟨[102], by simp⟩

/-- A leaf node whose keys, listed in `L`, lie in `(lo, hi]` is well-formed there. -/
theorem wf_leaf_of_keys {L : List (Nat × CStr)} {lo hi : Option CStr} {n : Nat}
    (h : ∀ e ∈ L, e.1 = n → Bound.Mem lo hi e.2) :
    WF (fun m k => (m, k) ∈ L) false lo hi 0 (.leaf n) :=
  wf_leaf.2 ⟨rfl, fun _ hk => h _ hk rfl⟩

/-- An index of one leaf node `0`, and a new leaf node `1` made by its split. -/
def oneLeaf : Volatile := ⟨some (.leaf 0), fun _ => none, fun _ _ => 0, fun _ => 0, 2⟩

/-- `a` stays in leaf `0`, `e` went to the new leaf `1`. -/
def oneLeafKeys (m : Nat) (k : CStr) : Prop := (m = 0 ∧ k = strA) ∨ (m = 1 ∧ k = strE)

theorem oneLeaf_treeOK : TreeOK oneLeafKeys oneLeaf (.leaf 0) :=
  ⟨⟨0, by simp⟩, by simp, by simp [oneLeaf], parentsOK_leaf _, rfl⟩

/-- An index of height one: the top `0` with the key `b` over the leaf nodes `1` and `2`. -/
def tallTop : ScreeDBNode := .inner 0 [strB] [.leaf 1, .leaf 2]

/-- `a` in leaf `1`, `c` in leaf `2`, `e` in the new leaf `3`. -/
def tallKeys (m : Nat) (k : CStr) : Prop :=
  (m = 1 ∧ k = strA) ∨ (m = 2 ∧ k = strC) ∨ (m = 3 ∧ k = strE)

/-- `tallTop`, and a new leaf node `3` split off leaf `2`, with the top for its parent. -/
def pairVol : Volatile :=
  ⟨some tallTop, fun m => if m = 1 ∨ m = 2 ∨ m = 3 then some 0 else none, fun _ _ => 0,
    fun _ => 0, 4⟩

theorem pairVol_treeOK : TreeOK tallKeys pairVol tallTop := by
  refine ⟨⟨1, ?_⟩, by decide, by decide, ?_, rfl⟩
  · simp only [tallTop, wf_inner, wfChain_cons, wfChain_single, wf_leaf]
    refine ⟨0, rfl, by decide, by decide, trivial, ⟨rfl, ?_⟩, trivial, rfl, ?_⟩
    · rintro k (⟨-, rfl⟩ | ⟨h, -⟩ | ⟨h, -⟩)
      · exact ⟨trivial, by decide⟩
      all_goals exact absurd h (by decide)
    · rintro k (⟨h, -⟩ | ⟨-, rfl⟩ | ⟨h, -⟩)
      · exact absurd h (by decide)
      · exact ⟨by decide, trivial⟩
      · exact absurd h (by decide)
  · unfold ParentsOK
    decide

/-- A full top: `0` with the keys `a` to `d` over the leaf nodes `1` to `5`, and a new leaf node
`6` split off leaf `5`, with the top for its parent. -/
def rowTop : ScreeDBNode :=
  .inner 0 [strA, strB, strC, strD] [.leaf 1, .leaf 2, .leaf 3, .leaf 4, .leaf 5]

def rowVol : Volatile :=
  ⟨some rowTop, fun m => if 1 ≤ m ∧ m ≤ 6 then some 0 else none, fun _ _ => 0, fun _ => 0, 7⟩

/-- Leaf `m` holds the `m`-th letter: `f` is the new leaf `6`'s. -/
def rowKeys (m : Nat) (k : CStr) : Prop :=
  (m, k) ∈ [(1, strA), (2, strB), (3, strC), (4, strD), (5, strE), (6, strF)]

theorem rowVol_treeOK : TreeOK rowKeys rowVol rowTop := by
  refine ⟨⟨1, ?_⟩, by decide, by decide, ?_, rfl⟩
  · simp only [rowTop, wf_inner, wfChain_cons, wfChain_single]
    exact ⟨0, rfl, by decide, by decide, trivial, wf_leaf_of_keys (by decide), by decide,
      wf_leaf_of_keys (by decide), by decide, wf_leaf_of_keys (by decide), by decide,
      wf_leaf_of_keys (by decide), trivial, wf_leaf_of_keys (by decide)⟩
  · unfold ParentsOK
    decide

/-- The full top after the split of leaf `5`: its lower half `0` and upper half `7` under a new
top `8` with the middle key `c`. -/
def rowSplit : ScreeDBNode :=
  .inner 8 [strC] [.inner 0 [strA, strB] [.leaf 1, .leaf 2, .leaf 3],
    .inner 7 [strD, strE] [.leaf 4, .leaf 5, .leaf 6]]

/-- The walk on three indexes: from the only leaf node `0` it makes a new top; from leaf `2` of
`tallTop` it inserts into the top, which has room; from leaf `5` of the full `rowTop` it splits
the top and makes a new one over the halves. Each walk stays in bounds and leaves a well-formed
index that takes the keys of each side of the split key to its node. -/
theorem leafUpdateParentsAfterSplit_spec_walks :
    (walkInBounds 1 oneLeaf 0 (.leaf 1) strD = true ∧
      (leafUpdateParentsAfterSplit oneLeaf.walkFuel oneLeaf 0 (.leaf 1) strD).top_ =
        some (.inner 2 [strD] [.leaf 0, .leaf 1]) ∧
      TreeOK oneLeafKeys (leafUpdateParentsAfterSplit oneLeaf.walkFuel oneLeaf 0 (.leaf 1) strD)
        (.inner 2 [strD] [.leaf 0, .leaf 1]) ∧
      ∀ k, (Bound.Mem none (some strD) k → leafSearchFrom k (.inner 2 [strD] [.leaf 0, .leaf 1]) = some 0) ∧
        (Bound.Mem (some strD) none k → leafSearchFrom k (.inner 2 [strD] [.leaf 0, .leaf 1]) = some 1)) ∧
    (walkInBounds 2 pairVol 2 (.leaf 3) strD = true ∧
      (leafUpdateParentsAfterSplit pairVol.walkFuel pairVol 2 (.leaf 3) strD).top_ =
        some (.inner 0 [strB, strD] [.leaf 1, .leaf 2, .leaf 3]) ∧
      TreeOK tallKeys (leafUpdateParentsAfterSplit pairVol.walkFuel pairVol 2 (.leaf 3) strD)
        (.inner 0 [strB, strD] [.leaf 1, .leaf 2, .leaf 3]) ∧
      ∀ k, (Bound.Mem (some strB) (some strD) k →
          leafSearchFrom k (.inner 0 [strB, strD] [.leaf 1, .leaf 2, .leaf 3]) = some 2) ∧
        (Bound.Mem (some strD) none k →
          leafSearchFrom k (.inner 0 [strB, strD] [.leaf 1, .leaf 2, .leaf 3]) = some 3)) ∧
    (walkInBounds 2 rowVol 5 (.leaf 6) strE = true ∧
      (leafUpdateParentsAfterSplit rowVol.walkFuel rowVol 5 (.leaf 6) strE).top_ = some rowSplit ∧
      TreeOK rowKeys (leafUpdateParentsAfterSplit rowVol.walkFuel rowVol 5 (.leaf 6) strE) rowSplit ∧
      ∀ k, (Bound.Mem (some strD) (some strE) k → leafSearchFrom k rowSplit = some 5) ∧
        (Bound.Mem (some strE) none k → leafSearchFrom k rowSplit = some 6)) := by
  refine ⟨?_, ?_, ?_⟩
  · -- the only leaf: no parent, a new top node
    have hxs : WF oneLeafKeys false none (some strD) 0 (.leaf 0) := by
      refine wf_leaf.2 ⟨rfl, ?_⟩
      rintro k (⟨-, rfl⟩ | ⟨h, -⟩)
      · exact ⟨trivial, by decide⟩
      · exact absurd h (by decide)
    have hns : WF oneLeafKeys false (some strD) none 0 (.leaf 1) := by
      refine wf_leaf.2 ⟨rfl, ?_⟩
      rintro k (⟨h, -⟩ | ⟨-, rfl⟩)
      · exact absurd h (by decide)
      · exact ⟨by decide, trivial⟩
    obtain ⟨-, hb, -, T', hT', hok, -, hroute⟩ := leafUpdateParentsAfterSplit_spec oneLeaf_treeOK
      rfl (show ScreeDBNode.leaf 0 = plugAll [] (.leaf 0) from rfl) ⟨rfl, rfl⟩ trivial trivial hxs
      hns (by simp) (by simp [oneLeaf]) (parentsOK_leaf _) rfl
    obtain rfl : T' = .inner 2 [strD] [.leaf 0, .leaf 1] := Option.some.inj (hT'.symm.trans rfl)
    refine ⟨hb, hT', hok, fun k => ⟨fun hk => ?_, fun hk => ?_⟩⟩
    · obtain ⟨n, hn, h⟩ := (hroute k).1 hk
      rwa [show n = 0 by simpa using hn] at h
    · obtain ⟨n, hn, h⟩ := (hroute k).2 hk
      rwa [show n = 1 by simpa using hn] at h
  · -- leaf `2` of `tallTop`: the top has room for the key `d` right of `b`
    have hctx : CtxWF tallKeys [⟨0, [strB], [.leaf 1], []⟩] (some strB) none 0 := by
      refine ⟨none, none, [strB], [], rfl, by decide, by decide, .inr ⟨[], strB, rfl, rfl, ?_⟩,
        trivial, .inl ⟨rfl, rfl, rfl⟩, rfl, rfl⟩
      refine wfChain_single.2 ⟨trivial, wf_leaf.2 ⟨rfl, ?_⟩⟩
      rintro k (⟨-, rfl⟩ | ⟨h, -⟩ | ⟨h, -⟩)
      · exact ⟨trivial, by decide⟩
      all_goals exact absurd h (by decide)
    have hxs : WF tallKeys false (some strB) (some strD) 0 (.leaf 2) := by
      refine wf_leaf.2 ⟨rfl, ?_⟩
      rintro k (⟨h, -⟩ | ⟨-, rfl⟩ | ⟨h, -⟩)
      · exact absurd h (by decide)
      · exact ⟨by decide, by decide⟩
      · exact absurd h (by decide)
    have hns : WF tallKeys false (some strD) none 0 (.leaf 3) := by
      refine wf_leaf.2 ⟨rfl, ?_⟩
      rintro k (⟨h, -⟩ | ⟨h, -⟩ | ⟨-, rfl⟩)
      · exact absurd h (by decide)
      · exact absurd h (by decide)
      · exact ⟨by decide, trivial⟩
    obtain ⟨-, hb, -, T', hT', hok, -, hroute⟩ := leafUpdateParentsAfterSplit_spec pairVol_treeOK
      rfl (show tallTop = plugAll [⟨0, [strB], [.leaf 1], []⟩] (.leaf 2) from rfl) hctx
      (show strB < strD by decide) trivial hxs hns (by simp) (by decide) (parentsOK_leaf _) rfl
    obtain rfl : T' = .inner 0 [strB, strD] [.leaf 1, .leaf 2, .leaf 3] :=
      Option.some.inj (hT'.symm.trans rfl)
    refine ⟨hb, hT', hok, fun k => ⟨fun hk => ?_, fun hk => ?_⟩⟩
    · obtain ⟨n, hn, h⟩ := (hroute k).1 hk
      rwa [show n = 2 by simpa using hn] at h
    · obtain ⟨n, hn, h⟩ := (hroute k).2 hk
      rwa [show n = 3 by simpa using hn] at h
  · -- leaf `5` of the full `rowTop`: the top splits, and a new top takes the halves
    have hctx : CtxWF rowKeys [⟨0, [strA, strB, strC, strD], [.leaf 1, .leaf 2, .leaf 3, .leaf 4],
        []⟩] (some strD) none 0 := by
      refine ⟨none, none, [strA, strB, strC, strD], [], rfl, by decide, by decide,
        .inr ⟨[strA, strB, strC], strD, rfl, rfl, ?_⟩, trivial, .inl ⟨rfl, rfl, rfl⟩, rfl, rfl⟩
      simp only [wfChain_cons, wfChain_single]
      exact ⟨trivial, wf_leaf_of_keys (by decide), by decide, wf_leaf_of_keys (by decide),
        by decide, wf_leaf_of_keys (by decide), by decide, wf_leaf_of_keys (by decide)⟩
    have hxs : WF rowKeys false (some strD) (some strE) 0 (.leaf 5) := wf_leaf_of_keys (by decide)
    have hns : WF rowKeys false (some strE) none 0 (.leaf 6) := wf_leaf_of_keys (by decide)
    obtain ⟨-, hb, -, T', hT', hok, -, hroute⟩ := leafUpdateParentsAfterSplit_spec rowVol_treeOK
      rfl (show rowTop = plugAll [⟨0, [strA, strB, strC, strD],
        [.leaf 1, .leaf 2, .leaf 3, .leaf 4], []⟩] (.leaf 5) from rfl) hctx
      (show strD < strE by decide) trivial hxs hns (by simp) (by decide) (parentsOK_leaf _) rfl
    obtain rfl : T' = rowSplit := Option.some.inj (hT'.symm.trans rfl)
    refine ⟨hb, hT', hok, fun k => ⟨fun hk => ?_, fun hk => ?_⟩⟩
    · obtain ⟨n, hn, h⟩ := (hroute k).1 hk
      rwa [show n = 5 by simpa using hn] at h
    · obtain ⟨n, hn, h⟩ := (hroute k).2 hk
      rwa [show n = 6 by simpa using hn] at h

/-- The index `tallTop` with a new leaf node `3` that has no parent, the top's parent. -/
def tallVol : Volatile :=
  ⟨some tallTop, fun m => if m = 1 ∨ m = 2 then some 0 else none, fun _ _ => 0, fun _ => 0, 4⟩

/-- The walk from the top `0` with the split key `d` and the new leaf `3`. -/
theorem tallVol_walk :
    (leafUpdateParentsAfterSplit tallVol.walkFuel tallVol tallTop.id (.leaf 3) strD).top_ =
      some (.inner 4 [strD] [tallTop, .leaf 3]) := rfl

/-- The keys of the top's leaves lie at or below `d` and that of the new leaf above it; the new
leaf has the top's parent and an id outside the tree; yet the walk from the top hangs the leaf
beside an inner node, and no keys make that tree well-formed. -/
theorem uneven_new_node_breaks_tree :
    TreeOK tallKeys tallVol tallTop ∧ tallVol.top_ = some tallTop ∧
      (∀ m ∈ leafIds tallTop, ∀ k, tallKeys m k → k ≤ strD) ∧ (∀ k, tallKeys 3 k → strD < k) ∧
      3 ∉ ids tallTop ∧ 3 < tallVol.next_id ∧ tallVol.parent 3 = tallVol.parent tallTop.id ∧
      ∀ (S : Nat → CStr → Prop) (T' : ScreeDBNode),
        (leafUpdateParentsAfterSplit tallVol.walkFuel tallVol tallTop.id (.leaf 3) strD).top_ =
          some T' →
        ¬ TreeOK S (leafUpdateParentsAfterSplit tallVol.walkFuel tallVol tallTop.id (.leaf 3) strD)
          T' := by
  refine ⟨⟨⟨1, ?_⟩, by decide, by simp [tallTop, tallVol], ?_, rfl⟩, rfl, ?_, ?_, by decide, by decide,
    rfl, fun S T' hT' hok => ?_⟩
  · simp only [tallTop, wf_inner, wfChain_cons, wfChain_single, wf_leaf]
    refine ⟨0, rfl, by decide, by decide, trivial, ⟨rfl, ?_⟩, by decide, rfl, ?_⟩
    · rintro k (⟨-, rfl⟩ | ⟨h, -⟩ | ⟨h, -⟩)
      · exact ⟨trivial, by decide⟩
      all_goals exact absurd h (by decide)
    · rintro k (⟨h, -⟩ | ⟨-, rfl⟩ | ⟨h, -⟩)
      · exact absurd h (by decide)
      · exact ⟨by decide, trivial⟩
      · exact absurd h (by decide)
  · refine parentsOK_inner.2 fun c hc => ?_
    simp only [List.mem_cons, List.not_mem_nil, or_false] at hc
    rcases hc with rfl | rfl
    · exact ⟨rfl, parentsOK_leaf _⟩
    · exact ⟨rfl, parentsOK_leaf _⟩
  · rw [show leafIds tallTop = [1, 2] from rfl]
    rintro m hm k (⟨rfl, rfl⟩ | ⟨rfl, rfl⟩ | ⟨rfl, -⟩)
    · decide
    · decide
    · exact absurd hm (by decide)
  · rintro k (⟨h, -⟩ | ⟨h, -⟩ | ⟨-, rfl⟩)
    · exact absurd h (by decide)
    · exact absurd h (by decide)
    · decide
  · -- the new top holds the old top, of height one, beside a leaf
    rw [tallVol_walk, Option.some.injEq] at hT'
    subst hT'
    obtain ⟨D, hwf⟩ := hok.wf
    simp [tallTop] at hwf

end ScreeDB
