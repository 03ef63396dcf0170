import ScreeDB.Tree.Build

/-!
# Counting the nodes of the index

`next_id` counts the volatile nodes made so far: every `new ScreeDBLeafNode` and
`new ScreeDBInnerNode` of the code takes the next id. What `LeafSplit`,
`LeafUpdateParentsAfterSplit` and the second loop of `RebuildNodes` make is linked into the
index: the tree they leave has the nodes it had, those it was handed, and one more for every id
they hand out.

* `walk_count`: the walk links the node handed to it and every inner node it makes;
* `split_count`: so does a leaf split, with its new leaf node;
* `build_count`, `rebuildLoop_count`: and the loop, with every leaf node it is given.
-/

namespace ScreeDB

open ScreeDBNode

variable {S : Nat → CStr → Prop}

/-- **The walk links what it makes.** From a `WalkInv` state, the tree the walk leaves has the
nodes of the path, of `x` and of `new`, and one for every id the walk hands out. -/
theorem walk_count : ∀ {ps : List Frame} {fuel : Nat} {v : Volatile} {x new : ScreeDBNode}
    {s : CStr}, WalkInv S v ps x new s → ps.length < fuel →
    ∀ t, (leafUpdateParentsAfterSplit fuel v x.id new s).top_ = some t →
      (ids t).length + v.next_id = (ctxIds ps ++ ids x ++ ids new).length +
        (leafUpdateParentsAfterSplit fuel v x.id new s).next_id
  | _, 0, _, _, _, _, _, hf => absurd hf (Nat.not_lt_zero _)
  | [], _ + 1, v, x, new, s, h, _ => by
    -- a new top node over `x` and `new`, with the one id the walk hands out
    intro t ht
    rw [h.top_eq] at ht ⊢
    simp only [Volatile.setTop_top_, Option.some.injEq] at ht
    subst ht
    simp [ctxIds]
    omega
  | f :: fs, fuel + 1, v, x, new, s, h, hf => by
    intro t ht
    by_cases hroom : f.keys.length < INNER_KEYS
    · -- the parent takes `new` in place, and no id is handed out
      rw [h.insert_eq hroom] at ht ⊢
      simp only [Volatile.setTop_top_, Option.some.injEq] at ht
      subst ht
      rw [(ids_plugAll_perm _ _).length_eq, h.ids_perm.length_eq]
      simp
      omega
    · -- the parent splits: one new inner node, which the rest of the walk links
      obtain ⟨v', x', new', s', heq, h', -, -, -, hn, hlen, -⟩ :=
        @walk_split S fuel v f fs x new s h (Nat.le_of_not_lt hroom)
      rw [heq] at ht ⊢
      have ih := walk_count h' (Nat.lt_of_succ_lt_succ hf) t ht
      omega

section Split

variable {S'' : Nat → CStr → Prop} {v v₁ : Volatile} {T : ScreeDBNode} {ln : Nat}
  {split : CStr}

/-- **A split links what it makes**: the new leaf node and every inner node of the walk. -/
theorem split_count (hs : SplitStart v v₁ ln) (hT : TreeOK S v T) (htop : v.top_ = some T)
    (hln : ln ∈ leafIds T) (hK : SplitKeys S S'' T ln v.next_id split) {T' : ScreeDBNode}
    (htop' : (leafUpdateParentsAfterSplit v₁.walkFuel v₁ ln (.leaf v.next_id) split).top_ =
      some T') :
    (ids T').length + v.next_id = (ids T).length +
      (leafUpdateParentsAfterSplit v₁.walkFuel v₁ ln (.leaf v.next_id) split).next_id := by
  obtain ⟨ps, rfl, hw, hfuel⟩ := hs.walkInv hT htop hln hK
  have hc := walk_count hw hfuel T' htop'
  rw [hs.next_id] at hc
  rw [(ids_plugAll_perm ps _).length_eq]
  simp only [id_leaf, ids_leaf, List.length_append, List.length_singleton] at hc ⊢
  omega

end Split

section Build

variable {M : Nat} {v : Volatile} {done : List Nat} {ln nn : Nat} {mk : CStr}

/-- One turn of the loop links the next leaf node and the inner nodes it makes. -/
theorem build_count (h : BuildInv S M v done ln) (hmax : S ln mk ∧ ∀ k, S ln k → k ≤ mk)
    (habove : ∀ k, S nn k → mk < k) (hnn : nn ∉ done ++ [ln]) (hlt : nn < M)
    {T T' : ScreeDBNode} (htop : v.top_ = some T)
    (htop' : (leafUpdateParentsAfterSplit (v.setParent nn (v.parent ln)).walkFuel
      (v.setParent nn (v.parent ln)) ln (.leaf nn) mk).top_ = some T') :
    (ids T').length + v.next_id = (ids T).length + 1 +
      (leafUpdateParentsAfterSplit (v.setParent nn (v.parent ln)).walkFuel
        (v.setParent nn (v.parent ln)) ln (.leaf nn) mk).next_id := by
  obtain ⟨ps, htop₀, -, -, hw, hfuel⟩ := build_walkInv h hmax habove hnn hlt
  obtain rfl : T = plugAll ps (.leaf ln) := Option.some.inj (htop.symm.trans htop₀)
  have hc := walk_count hw hfuel T' htop'
  rw [(ids_plugAll_perm ps _).length_eq]
  simp only [id_leaf, ids_leaf, Volatile.setParent_next_id, List.length_append,
    List.length_singleton] at hc ⊢
  omega

/-- **The loop links every leaf node it is given.** From an index whose last leaf is `ln`, the
index the loop leaves has the nodes it had, the leaf nodes of `rest`, and one for every id the
loop hands out. -/
theorem rebuildLoop_count : ∀ (rest : List (Nat × CStr)) {v : Volatile} {done : List Nat}
    {ln : Nat} {mk : CStr}, BuildInv S M v done ln → Ascending S M ((ln, mk) :: rest) →
    (∀ e ∈ rest, e.1 ∉ done) → ∀ {T T' : ScreeDBNode}, v.top_ = some T →
      (rebuildLoop ((ln, mk) :: rest) v).top_ = some T' →
      (ids T').length + v.next_id = (ids T).length + rest.length +
        (rebuildLoop ((ln, mk) :: rest) v).next_id
  | [], v, done, ln, mk, _, _, _, T, T', htop, htop' => by
    rw [rebuildLoop_single htop] at htop' ⊢
    obtain rfl := Option.some.inj (htop.symm.trans htop')
    simp
  | (nn, mk') :: rest, v, done, ln, mk, h, hA, hdone, T, T', htop, htop' => by
    obtain ⟨hmax, habove, hnn, hlt, hrest⟩ := hA.next hdone
    obtain ⟨h', -, -⟩ := build_step h hmax habove hnn hlt
    obtain ⟨T₁, htop₁, -⟩ := h'.tree
    rw [rebuildLoop_cons_cons htop] at htop' ⊢
    -- this turn links `nn`, the rest of the loop the leaf nodes of `rest`
    have hturn := build_count h hmax habove hnn hlt htop htop₁
    have hloop := rebuildLoop_count rest h' hA.tail hrest htop₁ htop'
    simp only [List.length_cons]
    omega

end Build

end ScreeDB
