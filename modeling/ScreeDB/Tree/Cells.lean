import ScreeDB.Tree.Build

/-!
# The partition after a walk

What `LeafUpdateParentsAfterSplit` does to the cells of the index (`leafBounds`): the cells of the
node `x` that hands up `s` and `new` end at `s`, and `new`'s take the bound `x`'s place had; every
other cell stays, in its place. A split parent and its new sibling together have the parent's
cells (`walk_split`), so this holds whether the walk stops at a parent with room or at the top.

The second loop of `RebuildNodes` hands each next leaf node up from the last one at that one's
largest key: the index it builds cuts the key space exactly at the largest keys of its leaves,
the last cell unbounded (`Bound.cutAt`).

* `walk_cells`: the cells after the walk;
* `build_cells`, `rebuildLoop_cells`: the cells the loop builds.
-/

namespace ScreeDB

open ScreeDBNode

variable {S : Nat → CStr → Prop}

/-- **The walk cuts one cell.** From a `WalkInv` state, the tree the walk leaves has the cells of
the path around `x`'s place, with `x`'s cells bounded by `s`, then `new`'s bounded by the place's
bound. -/
theorem walk_cells : ∀ {ps : List Frame} {fuel : Nat} {v : Volatile} {x new : ScreeDBNode}
    {s : CStr}, WalkInv S v ps x new s → ps.length < fuel →
    ∀ t, (leafUpdateParentsAfterSplit fuel v x.id new s).top_ = some t →
      leafBounds none t = (ctxCells ps none).1 ++ leafBounds (some s) x ++
        leafBounds (ctxCells ps none).2.1 new ++ (ctxCells ps none).2.2
  | _, 0, _, _, _, _, _, hf => absurd hf (Nat.not_lt_zero _)
  | [], _ + 1, v, x, new, s, h, _ => by
    -- the new top node has the two cells of `x` and `new`, cut at `s`
    intro t ht
    rw [h.top_eq] at ht
    simp only [Volatile.setTop_top_, Option.some.injEq] at ht
    subst ht
    simp [ctxCells]
  | f :: fs, fuel + 1, v, x, new, s, h, hf => by
    intro t ht
    obtain ⟨_, _, _, _, _, -, -, -, -, -, -, hctx⟩ := h.insert_lists
    by_cases hroom : f.keys.length < INNER_KEYS
    · -- the parent takes `new` right of `x`, in place
      rw [h.insert_eq hroom] at ht
      simp only [Volatile.setTop_top_, Option.some.injEq] at ht
      subst ht
      rw [leafBounds_plugAll none hctx.cells.1, leafBounds_inner, h.insert_cells]
      simp [ctxCells, List.append_assoc]
    · -- the parent splits, and its halves go on up with the parent's cells
      obtain ⟨v', x', new', s', heq, h', -, -, -, -, -, hcut, -⟩ :=
        @walk_split S fuel v f fs x new s h (Nat.le_of_not_lt hroom)
      rw [heq] at ht
      rw [walk_cells h' (Nat.lt_of_succ_lt_succ hf) t ht, List.append_assoc (ctxCells fs none).1,
        hcut]
      simp [ctxCells, List.append_assoc]

section Build

variable {M : Nat} {v : Volatile} {done : List Nat} {ln nn : Nat} {mk : CStr}

/-- **One turn of the loop** cuts the last cell, unbounded, at the largest key `mk` of its leaf
node `ln`; the next leaf node `nn` takes the part above. -/
theorem build_cells (h : BuildInv S M v done ln) (hmax : S ln mk ∧ ∀ k, S ln k → k ≤ mk)
    (habove : ∀ k, S nn k → mk < k) (hnn : nn ∉ done ++ [ln]) (hlt : nn < M)
    {T T' : ScreeDBNode} {C : List (Nat × Option CStr)} (htop : v.top_ = some T)
    (hcells : leafBounds none T = C ++ [(ln, none)])
    (htop' : (leafUpdateParentsAfterSplit (v.setParent nn (v.parent ln)).walkFuel
      (v.setParent nn (v.parent ln)) ln (.leaf nn) mk).top_ = some T') :
    leafBounds none T' = C ++ [(ln, some mk), (nn, none)] := by
  obtain ⟨ps, htop₀, -, hright, hw, hfuel⟩ := build_walkInv h hmax habove hnn hlt
  obtain rfl : T = plugAll ps (.leaf ln) := Option.some.inj (htop.symm.trans htop₀)
  obtain ⟨_, _, _, hctx, -⟩ := hw.wf
  obtain ⟨hle, hhole, hR⟩ := hctx.cells
  -- `ln` is the last leaf: its place is unbounded and has nothing on its right
  have hnil : (ctxCells ps none).2.2 = [] := List.map_eq_nil_iff.1 (hR.trans hright)
  have hnone : (ctxCells ps none).2.1 = none := hhole.trans (hctx.hi_none hright)
  rw [leafBounds_plugAll none hle, hnil, hnone, leafBounds_leaf, List.append_nil] at hcells
  rw [walk_cells hw hfuel T' htop', hnil, hnone, List.append_cancel_right hcells]
  simp

/-- **The loop cuts at the largest keys.** From an index whose cells end with the unbounded cell
of its last leaf node `ln`, the loop leaves the cells before it, then a cell for `ln` and for each
leaf node of `rest`, each bounded by the largest key of its node but the last. -/
theorem rebuildLoop_cells : ∀ (rest : List (Nat × CStr)) {v : Volatile} {done : List Nat}
    {ln : Nat} {mk : CStr}, BuildInv S M v done ln → Ascending S M ((ln, mk) :: rest) →
    (∀ e ∈ rest, e.1 ∉ done) → ∀ {T T' : ScreeDBNode} {C : List (Nat × Option CStr)},
      v.top_ = some T → leafBounds none T = C ++ [(ln, none)] →
      (rebuildLoop ((ln, mk) :: rest) v).top_ = some T' →
      leafBounds none T' = C ++ Bound.cutAt ((ln, mk) :: rest)
  | [], v, done, ln, mk, _, _, _, T, T', C, htop, hcells, htop' => by
    rw [rebuildLoop_single htop] at htop'
    obtain rfl := Option.some.inj (htop.symm.trans htop')
    simpa using hcells
  | (nn, mk') :: rest, v, done, ln, mk, h, hA, hdone, T, T', C, htop, hcells, htop' => by
    obtain ⟨hmax, habove, hnn, hlt, hrest⟩ := hA.next hdone
    obtain ⟨h', -, -⟩ := build_step h hmax habove hnn hlt
    obtain ⟨T₁, htop₁, -⟩ := h'.tree
    rw [rebuildLoop_cons_cons htop] at htop'
    -- this turn cuts at `mk`, the rest of the loop at the largest keys of `rest`
    have hturn := build_cells h hmax habove hnn hlt htop hcells htop₁
    rw [rebuildLoop_cells rest h' hA.tail hrest htop₁ (C := C ++ [(ln, some mk)])
      (by simpa using hturn) htop']
    simp

end Build

end ScreeDB
