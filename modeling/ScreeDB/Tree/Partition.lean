import ScreeDB.Tree.WF
import ScreeDB.Order.Cells

/-!
# The index as a partition of the keys

What the volatile tree is for: its leaf nodes, read from left to right, cut the key space into
consecutive intervals, and `LeafSearch` finds the one that holds a key. `leafBounds hi t` lists
the leaf nodes of `t` with the upper bounds of their intervals: the key right of each in its
parent, or further up for the rightmost child, and `hi` for the rightmost leaf.

* `WF.cuts`: the leaf nodes of a well-formed tree over `(lo, hi]` cut it into intervals;
* `WF.leafBounds_fst`: one cell for each leaf node, in order;
* `WF.inCell`: every key of a leaf lies in that leaf's interval;
* `WF.leafSearchFrom_eq_cellOf`: `LeafSearch` is the search in the partition (`Bound.cellOf`),
  whatever the tree's shape;
* `leafBounds_plugAll`: seen from a place, the cells of a tree are those left of the place
  (`ctxCells`), the cells of the subtree in it, bounded by the place's bound, and those right of
  it; `CtxWF.cells` gives the place's bound and the leaves right of it.
-/

namespace ScreeDB

open ScreeDBNode Bound

mutual

/-- The leaf nodes of `t` from left to right, each with the upper bound of its interval. -/
def leafBounds (hi : Option CStr) : ScreeDBNode → List (Nat × Option CStr)
  | .leaf n => [(n, hi)]
  | .inner _ keys children => leafBoundsIn hi keys children

/-- The same for the children of an inner node from its key list on: the child left of a key is
bounded by it, the last child by `hi`. -/
def leafBoundsIn (hi : Option CStr) : List CStr → List ScreeDBNode → List (Nat × Option CStr)
  | k :: ks, c :: cs => leafBounds (some k) c ++ leafBoundsIn hi ks cs
  | [], c :: _ => leafBounds hi c
  | _, [] => []

end

@[simp] theorem leafBounds_leaf (hi : Option CStr) (n : Nat) : leafBounds hi (.leaf n) = [(n, hi)] :=
  rfl

@[simp] theorem leafBounds_inner (hi : Option CStr) (i : Nat) (ks : List CStr) (cs : List ScreeDBNode) :
    leafBounds hi (.inner i ks cs) = leafBoundsIn hi ks cs := rfl

@[simp] theorem leafBoundsIn_single (hi : Option CStr) (c : ScreeDBNode) :
    leafBoundsIn hi [] [c] = leafBounds hi c := rfl

@[simp] theorem leafBoundsIn_nil_cons (hi : Option CStr) (c : ScreeDBNode) (cs : List ScreeDBNode) :
    leafBoundsIn hi [] (c :: cs) = leafBounds hi c := rfl

@[simp] theorem leafBoundsIn_cons (hi : Option CStr) (k : CStr) (ks : List CStr) (c : ScreeDBNode)
    (cs : List ScreeDBNode) :
    leafBoundsIn hi (k :: ks) (c :: cs) = leafBounds (some k) c ++ leafBoundsIn hi ks cs := rfl

variable {S : Nat → CStr → Prop}

mutual

/-- The leaf nodes of a well-formed tree over a non-empty `(lo, hi]` cut it into intervals. -/
theorem WF.cuts : ∀ {r : Bool} {lo hi : Option CStr} {d : Nat} (t : ScreeDBNode),
    WF S r lo hi d t → Lt lo hi → Cuts lo (leafBounds hi t) hi
  | _, _, _, _, .leaf n, _, hlt => by simpa using hlt
  | _, _, _, _, .inner _ ks cs, h, _ => by
    obtain ⟨d', -, -, -, hc⟩ := wf_inner.1 h
    exact WFChain.cuts ks cs hc

theorem WFChain.cuts : ∀ {lo hi : Option CStr} {d : Nat} (ks : List CStr) (cs : List ScreeDBNode),
    WFChain S lo d ks cs hi → Cuts lo (leafBoundsIn hi ks cs) hi
  | _, _, _, [], [c], h => by
    obtain ⟨hlt, hc⟩ := wfChain_single.1 h
    exact WF.cuts c hc hlt
  | _, _, _, [], [], h | _, _, _, _ :: _, [], h => absurd h wfChain_nil_right
  | _, _, _, [], _ :: _ :: _, h => absurd h wfChain_nil_two
  | _, _, _, k :: ks, c :: cs, h => by
    -- the child left of `k` cuts `(lo, k]`, the rest of the chain `(k, hi]`
    obtain ⟨hlt, hc, hrest⟩ := wfChain_cons.1 h
    exact (WF.cuts c hc hlt).append (WFChain.cuts ks cs hrest)

end

mutual

/-- One cell for each leaf node, from left to right. -/
theorem WF.leafBounds_fst : ∀ {r : Bool} {lo hi : Option CStr} {d : Nat} (t : ScreeDBNode),
    WF S r lo hi d t → (leafBounds hi t).map Prod.fst = leafIds t
  | _, _, _, _, .leaf n, _ => rfl
  | _, _, _, _, .inner _ ks cs, h => by
    obtain ⟨d', -, -, -, hc⟩ := wf_inner.1 h
    simpa using WFChain.leafBounds_fst ks cs hc

theorem WFChain.leafBounds_fst : ∀ {lo hi : Option CStr} {d : Nat} (ks : List CStr)
    (cs : List ScreeDBNode), WFChain S lo d ks cs hi → (leafBoundsIn hi ks cs).map Prod.fst = leafIdsIn cs
  | _, _, _, [], [c], h => by simpa using WF.leafBounds_fst c (wfChain_single.1 h).2
  | _, _, _, [], [], h | _, _, _, _ :: _, [], h => absurd h wfChain_nil_right
  | _, _, _, [], _ :: _ :: _, h => absurd h wfChain_nil_two
  | _, _, _, k :: ks, c :: cs, h => by
    obtain ⟨-, hc, hrest⟩ := wfChain_cons.1 h
    rw [leafBoundsIn_cons, List.map_append, WF.leafBounds_fst c hc,
      WFChain.leafBounds_fst ks cs hrest, leafIdsIn_cons]

end

mutual

/-- Every key of a leaf lies in that leaf's interval. -/
theorem WF.inCell {k : CStr} : ∀ {r : Bool} {lo hi : Option CStr} {d : Nat} (t : ScreeDBNode)
    {n : Nat}, WF S r lo hi d t → Lt lo hi → n ∈ leafIds t → S n k → InCell lo (leafBounds hi t) n k
  | _, _, _, _, .leaf m, n, h, _, hn, hk => by
    obtain rfl : n = m := by simpa using hn
    exact .inl ⟨rfl, (wf_leaf.1 h).2 k hk⟩
  | _, _, _, _, .inner _ ks cs, n, h, _, hn, hk => by
    obtain ⟨d', -, -, -, hc⟩ := wf_inner.1 h
    exact WFChain.inCell ks cs hc (by simpa using hn) hk

theorem WFChain.inCell {k : CStr} : ∀ {lo hi : Option CStr} {d : Nat} (ks : List CStr)
    (cs : List ScreeDBNode) {n : Nat}, WFChain S lo d ks cs hi → n ∈ leafIdsIn cs → S n k →
      InCell lo (leafBoundsIn hi ks cs) n k
  | _, _, _, [], [c], n, h, hn, hk => by
    obtain ⟨hlt, hc⟩ := wfChain_single.1 h
    exact WF.inCell c hc hlt (by simpa using hn) hk
  | _, _, _, [], [], _, h, _, _ | _, _, _, _ :: _, [], _, h, _, _ => absurd h wfChain_nil_right
  | _, _, _, [], _ :: _ :: _, _, h, _, _ => absurd h wfChain_nil_two
  | _, _, _, k' :: ks, c :: cs, n, h, hn, hk => by
    obtain ⟨hlt, hc, hrest⟩ := wfChain_cons.1 h
    rw [leafBoundsIn_cons, (WF.cuts c hc hlt).inCell_append]
    -- the leaf is below the first child or in the rest of the chain
    rcases List.mem_append.1 (by simpa using hn) with hn | hn
    · exact .inl (WF.inCell c hc hlt hn hk)
    · exact .inr (WFChain.inCell ks cs hrest hn hk)

end

mutual

/-- **`LeafSearch` searches the partition.** In a well-formed tree over `(lo, hi]`, the leaf
`LeafSearch` reaches for a key at or below `hi` is the first whose upper bound is at or above
it. -/
theorem WF.leafSearchFrom_eq_cellOf {a : CStr} : ∀ {r : Bool} {lo hi : Option CStr} {d : Nat}
    (t : ScreeDBNode), WF S r lo hi d t → Le (some a) hi →
      leafSearchFrom a t = cellOf a (leafBounds hi t)
  | _, _, _, _, .leaf n, _, ha => by simp [leafSearchFrom, cellOf_cons, ha]
  | _, _, _, _, .inner _ ks cs, h, ha => by
    obtain ⟨d', -, -, -, hc⟩ := wf_inner.1 h
    exact WFChain.leafSearchIn_eq_cellOf ks cs hc ha

theorem WFChain.leafSearchIn_eq_cellOf {a : CStr} : ∀ {lo hi : Option CStr} {d : Nat}
    (ks : List CStr) (cs : List ScreeDBNode), WFChain S lo d ks cs hi → Le (some a) hi →
      leafSearchIn a ks cs = cellOf a (leafBoundsIn hi ks cs)
  | _, _, _, [], [c], h, ha => WF.leafSearchFrom_eq_cellOf c (wfChain_single.1 h).2 ha
  | _, _, _, [], [], h, _ | _, _, _, _ :: _, [], h, _ => absurd h wfChain_nil_right
  | _, _, _, [], _ :: _ :: _, h, _ => absurd h wfChain_nil_two
  | _, _, _, k :: ks, c :: cs, h, ha => by
    obtain ⟨hlt, hc, hrest⟩ := wfChain_cons.1 h
    have hcuts := WF.cuts c hc hlt
    rw [leafSearchIn, leafBoundsIn_cons, cellOf_append]
    by_cases hak : a ≤ k
    · -- the search descends into the first child, whose cells reach up to `k`
      rw [if_pos (strcmp_nonpos_iff.2 hak), WF.leafSearchFrom_eq_cellOf c hc (by simpa using hak)]
      obtain ⟨i, hi⟩ := Option.isSome_iff_exists.1 (hcuts.cellOf_isSome (by simpa using hak))
      rw [hi, Option.some_or]
    · -- it passes the first child, whose cells all lie below `a`
      rw [if_neg (mt strcmp_nonpos_iff.1 hak), hcuts.cellOf_eq_none (lt_of_not_ge hak),
        Option.none_or]
      exact WFChain.leafSearchIn_eq_cellOf ks cs hrest ha

end

/-! ## The cells around a place -/

/-- The cells of the children `cs`, each bounded by the key right of it in `ks`. -/
def leafBoundsPre : List CStr → List ScreeDBNode → List (Nat × Option CStr)
  | k :: ks, c :: cs => leafBounds (some k) c ++ leafBoundsPre ks cs
  | _, _ => []

/-- A chain cut left of a child, with as many keys as children before the cut. -/
theorem leafBoundsIn_append (hi : Option CStr) : ∀ {ks : List CStr} {cs : List ScreeDBNode},
    ks.length = cs.length → ∀ (ks' : List CStr) (cs' : List ScreeDBNode),
      leafBoundsIn hi (ks ++ ks') (cs ++ cs') = leafBoundsPre ks cs ++ leafBoundsIn hi ks' cs'
  | [], [], _, _, _ => by simp [leafBoundsPre]
  | k :: ks, c :: cs, h, ks', cs' => by
    rw [List.cons_append, List.cons_append, leafBoundsIn_cons,
      leafBoundsIn_append hi (by simpa using h) ks' cs', leafBoundsPre, List.append_assoc]
  | [], _ :: _, h, _, _ | _ :: _, [], h, _, _ => absurd h (by simp)

/-- A chain cut at a key: the children left of the key are bounded by it. -/
theorem leafBoundsIn_split (hi : Option CStr) (k : CStr) : ∀ {ks : List CStr}
    {cs : List ScreeDBNode}, cs.length = ks.length + 1 → ∀ (ks' : List CStr) (cs' : List ScreeDBNode),
      leafBoundsIn hi (ks ++ k :: ks') (cs ++ cs') =
        leafBoundsIn (some k) ks cs ++ leafBoundsIn hi ks' cs'
  | [], [_], _, _, _ => by simp
  | k' :: ks, c :: cs, h, ks', cs' => by
    rw [List.cons_append, List.cons_append, leafBoundsIn_cons, leafBoundsIn_cons,
      leafBoundsIn_split hi k (by simpa using h) ks' cs', List.append_assoc]
  | [], [], h, _, _ | [], _ :: _ :: _, h, _, _ | _ :: _, [], h, _, _ => absurd h (by simp)

namespace ScreeDBNode.Frame

/-- The cells of the children left of the place, each bounded by the key right of it. -/
def leftCells (f : Frame) : List (Nat × Option CStr) :=
  leafBoundsPre (f.keys.take f.left.length) f.left

/-- The upper bound of the place in the node, when the node is bounded above by `b`: the key
right of the place, or `b` for the last child. -/
def holeBound (f : Frame) (b : Option CStr) : Option CStr :=
  match f.keys.drop f.left.length with
  | [] => b
  | k :: _ => some k

/-- The cells of the children right of the place, when the node is bounded above by `b`. -/
def rightCells (f : Frame) (b : Option CStr) : List (Nat × Option CStr) :=
  match f.keys.drop f.left.length with
  | [] => []
  | _ :: kr => leafBoundsIn b kr f.right

/-- The chain from the place on: the cells of the child in the place, then those right of it. -/
theorem leafBoundsIn_hole (f : Frame) (b : Option CStr) (y : ScreeDBNode) :
    leafBoundsIn b (f.keys.drop f.left.length) (y :: f.right) =
      leafBounds (f.holeBound b) y ++ f.rightCells b := by
  rcases hd : f.keys.drop f.left.length with _ | ⟨k, kr⟩ <;> simp [holeBound, rightCells, hd]

/-- The cells of an inner node seen from a place of it. -/
theorem leafBounds_plug (f : Frame) (h : f.left.length ≤ f.keys.length) (b : Option CStr)
    (y : ScreeDBNode) :
    leafBounds b (f.plug y) = f.leftCells ++ leafBounds (f.holeBound b) y ++ f.rightCells b := by
  have hlen : (f.keys.take f.left.length).length = f.left.length := by simp [h]
  rw [plug, leafBounds_inner, ← List.take_append_drop f.left.length f.keys,
    leafBoundsIn_append b hlen, leafBoundsIn_hole, leftCells,
    List.append_assoc]

end ScreeDBNode.Frame

/-- The cells left of the place of the path `ps`, the upper bound of the place, and the cells
right of it, in a tree bounded above by `hi`. -/
def ctxCells : List Frame → Option CStr →
    List (Nat × Option CStr) × Option CStr × List (Nat × Option CStr)
  | [], hi => ([], hi, [])
  | f :: fs, hi =>
    ((ctxCells fs hi).1 ++ f.leftCells, f.holeBound (ctxCells fs hi).2.1,
      f.rightCells (ctxCells fs hi).2.1 ++ (ctxCells fs hi).2.2)

/-- **The cells of a tree seen from a place**: those of the subtree in the place, bounded by the
place's bound, between those left and right of it. -/
theorem leafBounds_plugAll (hi : Option CStr) : ∀ {ps : List Frame},
    (∀ f ∈ ps, f.left.length ≤ f.keys.length) → ∀ y, leafBounds hi (plugAll ps y) =
      (ctxCells ps hi).1 ++ leafBounds (ctxCells ps hi).2.1 y ++ (ctxCells ps hi).2.2
  | [], _, y => by simp [ctxCells]
  | f :: fs, h, y => by
    rw [plugAll_cons, leafBounds_plugAll hi (fun g hg => h g (List.mem_cons_of_mem f hg)),
      f.leafBounds_plug (h f List.mem_cons_self)]
    simp [ctxCells, List.append_assoc]

/-- A well-formed path has as many keys left of each place as children, its place has the bound
`CtxWF` gives it, and the cells right of the place are those of the leaves right of it. -/
theorem CtxWF.cells : ∀ {ps : List Frame} {lo hi : Option CStr} {d : Nat}, CtxWF S ps lo hi d →
    (∀ f ∈ ps, f.left.length ≤ f.keys.length) ∧ (ctxCells ps none).2.1 = hi ∧
      (ctxCells ps none).2.2.map Prod.fst = ctxRight ps
  | [], _, _, _, h => ⟨by simp, by simp [ctxCells, h.2], rfl⟩
  | f :: fs, _, _, _, h => by
    obtain ⟨lo, hi, kl, kr, hk, -, -, hl, -, hr, hctx⟩ := h
    obtain ⟨hle, hhole, hright⟩ := CtxWF.cells hctx
    have hdrop : f.keys.drop f.left.length = kr := by rw [hk, hl.length, List.drop_left]
    refine ⟨fun g hg => ?_, ?_, ?_⟩
    · rcases List.mem_cons.1 hg with rfl | hg
      · simp [hk, hl.length]
      · exact hle g hg
    · -- the place's bound is the key right of it, or the node's own
      simp only [ctxCells, Frame.holeBound, hhole, hdrop]
      rcases hr with ⟨rfl, -, rfl⟩ | ⟨k, kr', rfl, rfl, -⟩ <;> rfl
    · simp only [ctxCells, List.map_append, hright, ctxRight, Frame.rightCells, hhole, hdrop]
      rcases hr with ⟨rfl, hnil, -⟩ | ⟨k, kr', rfl, -, hc⟩
      · simp [hnil]
      · rw [WFChain.leafBounds_fst kr' f.right hc]

end ScreeDB
