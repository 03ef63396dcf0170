import ScreeDB.Tree.Partition

/-!
# `LeafUpdateParentsAfterSplit`

The walk hands a split key and a new node up the `parent` pointers. We follow it on the path from
the split node to the top (`plugAll`): at each level the tree is a path around a node `x`, and a
node `new` outside the tree waits to go right of `x` at the key `s` (`WalkInv`). One level:

* `walk_top`: `x` has no parent; a new top node holds `x`, `s` and `new`;
* `walk_insert`: the parent takes `s` and `new` just right of `x`: the key scan stops at `x`'s
  place (`insertPos_hole`);
* `walk_split`: a parent that then holds five keys keeps the lower two and three children, its
  upper two keys and three children move to a new inner node with their `parent` fields, and the
  walk goes on one level up with the middle key; the two halves have the cells of the parent
  (`leafBounds_halves`).

`walk_spec` puts them together: from every state with `WalkInv`, in at most `height + 1` levels,
the walk leaves a well-formed tree (`TreeOK`) whose leaves are the old ones with `new`'s right
after `x`'s, and it writes neither hash caches nor leaf pointers.
-/

namespace ScreeDB

open ScreeDBNode

/-! ## Lists -/

private theorem insertIdx_append_length {α : Type} (l r : List α) (a : α) :
    (l ++ r).insertIdx l.length a = l ++ a :: r := by
  induction l with
  | nil => simp [List.insertIdx_zero]
  | cons b l ih => simp [List.insertIdx_succ_cons, ih]

/-- The key scan of `LeafUpdateParentsAfterSplit` passes the keys below the split key and stops
at the first one above it. -/
theorem insertPos_append {s : CStr} : ∀ {kl kr : List CStr}, (∀ k ∈ kl, k < s) →
    (∀ k ∈ kr.head?, s < k) → insertPos s (kl ++ kr) = kl.length
  | [], [], _, _ => rfl
  | [], k :: kr, _, hr => by
    have hk : s < k := hr k rfl
    simp [insertPos, Int.not_le.2 (strcmp_pos_iff.2 hk)]
  | k :: kl, kr, hl, hr => by
    have hk : k ≤ s := le_of_lt (hl k List.mem_cons_self)
    simp [insertPos, strcmp_nonpos_iff.2 hk,
      insertPos_append (fun k' hk' => hl k' (List.mem_cons_of_mem _ hk')) hr]

private theorem eq_take_getD_drop {α : Type} {l : List α} {n : Nat} (d : α) (h : n < l.length) :
    l = l.take n ++ l.getD n d :: l.drop (n + 1) := by
  conv_lhs => rw [← List.take_append_drop n l]
  rw [List.drop_eq_getElem_cons h, List.getD_eq_getElem _ _ h]

section Holes

variable {S : Nat → CStr → Prop}

theorem HoleL.keys_lt {lo a : Option CStr} {d : Nat} {kl : List CStr} {left : List ScreeDBNode}
    {s : CStr} (h : HoleL S lo d kl left a) (hs : Bound.Lt a (some s)) : ∀ k ∈ kl, k < s := by
  rcases h with ⟨rfl, -, -⟩ | ⟨kl', k, rfl, rfl, hc⟩
  · simp
  · intro k' hk'
    have hks : k < s := hs
    rcases List.mem_append.1 hk' with hk' | hk'
    · exact lt_trans (hc.keys_lt k' hk').2 hks
    · simp only [List.mem_singleton] at hk'
      exact hk' ▸ hks

theorem HoleR.head_gt {b hi : Option CStr} {d : Nat} {kr : List CStr} {right : List ScreeDBNode}
    {s : CStr} (h : HoleR S b d kr right hi) (hs : Bound.Lt (some s) b) : ∀ k ∈ kr.head?, s < k := by
  rcases h with ⟨rfl, -, -⟩ | ⟨k, kr', rfl, rfl, -⟩
  · simp
  · intro k' hk'
    simp only [List.head?_cons, Option.mem_def, Option.some.injEq] at hk'
    exact hk' ▸ hs

/-- In an inner node, the key scan for a key of a child's interval finds that child's place. -/
theorem insertPos_hole {lo hi a b : Option CStr} {d : Nat} {kl kr : List CStr}
    {left right : List ScreeDBNode} {s : CStr} (hl : HoleL S lo d kl left a)
    (has : Bound.Lt a (some s)) (hr : HoleR S b d kr right hi) (hsb : Bound.Lt (some s) b) :
    insertPos s (kl ++ kr) = kl.length :=
  insertPos_append (hl.keys_lt has) (hr.head_gt hsb)

end Holes

/-! ## Moving children to a new parent -/

section Moves

variable (p : Option Nat)

@[simp] theorem foldl_setParent_parent (j : Nat) :
    ∀ (cs : List ScreeDBNode) (v : Volatile),
      (cs.foldl (fun w c => w.setParent c.id p) v).parent j =
        if j ∈ cs.map ScreeDBNode.id then p else v.parent j
  | [], v => by simp
  | c :: cs, v => by
    rw [List.foldl_cons, foldl_setParent_parent j cs]
    by_cases h₁ : j ∈ cs.map ScreeDBNode.id
    · simp [h₁]
    · by_cases h₂ : j = c.id <;> simp [h₁, h₂]

@[simp] theorem foldl_setParent_top_ :
    ∀ (cs : List ScreeDBNode) (v : Volatile),
      (cs.foldl (fun w c => w.setParent c.id p) v).top_ = v.top_
  | [], _ => rfl
  | c :: cs, v => by rw [List.foldl_cons, foldl_setParent_top_ cs]; rfl

@[simp] theorem foldl_setParent_hashes :
    ∀ (cs : List ScreeDBNode) (v : Volatile),
      (cs.foldl (fun w c => w.setParent c.id p) v).hashes = v.hashes
  | [], _ => rfl
  | c :: cs, v => by rw [List.foldl_cons, foldl_setParent_hashes cs]; rfl

@[simp] theorem foldl_setParent_leaf :
    ∀ (cs : List ScreeDBNode) (v : Volatile),
      (cs.foldl (fun w c => w.setParent c.id p) v).leaf = v.leaf
  | [], _ => rfl
  | c :: cs, v => by rw [List.foldl_cons, foldl_setParent_leaf cs]; rfl

@[simp] theorem foldl_setParent_next_id :
    ∀ (cs : List ScreeDBNode) (v : Volatile),
      (cs.foldl (fun w c => w.setParent c.id p) v).next_id = v.next_id
  | [], _ => rfl
  | c :: cs, v => by rw [List.foldl_cons, foldl_setParent_next_id cs]; rfl

end Moves

/-! ## One level of the walk -/

/-- The branch of the walk at a node without parent. -/
theorem leafUpdateParentsAfterSplit_top {fuel : Nat} {v : Volatile} {node : Nat}
    {new : ScreeDBNode} {s : CStr} (hpar : v.parent node = none) :
    leafUpdateParentsAfterSplit (fuel + 1) v node new s =
      (((v.newInnerNode none).2.setParent node (some v.next_id)).setParent new.id
        (some v.next_id)).setTop
        (some (.inner v.next_id [s] [(v.top_.bind (·.findNode node)).getD (.leaf node), new])) := by
  simp only [leafUpdateParentsAfterSplit, hpar]
  rfl

/-- The branch of the walk at a parent with room for the key. -/
theorem leafUpdateParentsAfterSplit_insert {fuel : Nat} {v : Volatile} {node p i : Nat}
    {keys : List CStr} {children : List ScreeDBNode} {new : ScreeDBNode} {s : CStr}
    (hpar : v.parent node = some p)
    (hfind : v.top_.bind (·.findNode p) = some (.inner i keys children))
    (hlen : (keys.insertIdx (insertPos s keys) s).length ≤ INNER_KEYS) :
    leafUpdateParentsAfterSplit (fuel + 1) v node new s =
      v.setTop (v.top_.map (ScreeDBNode.replaceNode p (.inner p
        (keys.insertIdx (insertPos s keys) s)
        (children.insertIdx (insertPos s keys + 1) new)))) := by
  simp only [leafUpdateParentsAfterSplit, hpar, hfind, if_pos hlen]

/-- What the walk hands one level up when `node`'s parent `p`, holding `keys` and `children`,
splits: the state with `p` cut to its lower half, the new inner node with the upper half, and the
middle key. -/
def splitUp (v : Volatile) (p : Nat) (keys : List CStr) (children : List ScreeDBNode)
    (new_node : ScreeDBNode) (split_key : CStr) : Volatile × ScreeDBNode × CStr :=
  let keys' := keys.insertIdx (insertPos split_key keys) split_key
  let children' := children.insertIdx (insertPos split_key keys + 1) new_node
  let moved := children'.drop INNER_KEYS_UPPER
  let v₂ := moved.foldl (fun w c => w.setParent c.id (some v.next_id))
    (v.newInnerNode (v.parent p)).2
  (v₂.setTop (v₂.top_.map (ScreeDBNode.replaceNode p
      (.inner p (keys'.take INNER_KEYS_MIDPOINT) (children'.take INNER_KEYS_UPPER)))),
    .inner v.next_id (keys'.drop INNER_KEYS_UPPER) moved, keys'.getD INNER_KEYS_MIDPOINT default)

/-- The branch of the walk at a parent that splits. -/
theorem leafUpdateParentsAfterSplit_split {fuel : Nat} {v : Volatile} {node p i : Nat}
    {keys : List CStr} {children : List ScreeDBNode} {new : ScreeDBNode} {s : CStr}
    (hpar : v.parent node = some p)
    (hfind : v.top_.bind (·.findNode p) = some (.inner i keys children))
    (hlen : INNER_KEYS < (keys.insertIdx (insertPos s keys) s).length) :
    leafUpdateParentsAfterSplit (fuel + 1) v node new s =
      leafUpdateParentsAfterSplit fuel (splitUp v p keys children new s).1 p
        (splitUp v p keys children new s).2.1 (splitUp v p keys children new s).2.2 := by
  simp only [leafUpdateParentsAfterSplit, hpar, hfind, if_neg (Nat.not_le.2 hlen)]
  rfl

/-- `walkFuel` has a level for every ancestor of a node of the index, and one more. -/
theorem walkFuel_gt {v : Volatile} {ps : List Frame} {x : ScreeDBNode}
    (htop : v.top_ = some (plugAll ps x)) : ps.length < v.walkFuel := by
  have hh := height_plugAll ps x
  simp only [Volatile.walkFuel, htop, Option.map_some, Option.getD_some]
  omega

/-! ## The invariant of the walk -/

section Walk

variable {S : Nat → CStr → Prop}

/-- The state at each level of the walk: `top_` is the path `ps` around `x`; `new`, outside the
tree, is to go right of `x` at the key `s`. -/
structure WalkInv (S : Nat → CStr → Prop) (v : Volatile) (ps : List Frame) (x new : ScreeDBNode)
    (s : CStr) : Prop where
  /-- `top_` is the path around `x`. -/
  top : v.top_ = some (plugAll ps x)
  /-- The ids of the tree and of `new` are distinct. -/
  nodup : (ctxIds ps ++ ids x ++ ids new).Nodup
  /-- and below `next_id`. -/
  fresh : ∀ i ∈ ctxIds ps ++ ids x ++ ids new, i < v.next_id
  /-- The `parent` fields in `x`, on the path, and in `new` are right. -/
  parents_x : ParentsOK v.parent x
  parents_ctx : CtxParents v.parent ps x.id
  parents_new : ParentsOK v.parent new
  /-- The top has no parent. -/
  root : v.parent (plugAll ps x).id = none
  /-- `new` has `x`'s parent. -/
  new_parent : v.parent new.id = v.parent x.id
  /-- `x` and `new` split the interval of `x`'s place at `s`. -/
  wf : ∃ lo hi d, CtxWF S ps lo hi d ∧ Bound.Lt lo (some s) ∧ Bound.Lt (some s) hi ∧
    WF S false lo (some s) d x ∧ WF S false (some s) hi d new

/-- The key scan stops at the place of `x` among its parent's children. -/
theorem WalkInv.insertPos_eq {v : Volatile} {f : Frame} {fs : List Frame} {x new : ScreeDBNode}
    {s : CStr} (h : WalkInv S v (f :: fs) x new s) : insertPos s f.keys = f.left.length := by
  obtain ⟨a, b, d, ⟨lo, hi, kl, kr, hk, -, -, hl, -, hr, -⟩, has, hsb, -, -⟩ := h.wf
  rw [hk, insertPos_hole hl has hr hsb, hl.length]

/-- A well-formed tree of distinct ids below `next_id`, with right `parent` fields. -/
structure TreeOK (S : Nat → CStr → Prop) (v : Volatile) (t : ScreeDBNode) : Prop where
  wf : ∃ d, WF S true none none d t
  nodup : (ids t).Nodup
  fresh : ∀ i ∈ ids t, i < v.next_id
  parents : ParentsOK v.parent t
  root : v.parent t.id = none

/-- What the walk leaves: `top_` is a `TreeOK` tree with the leaves `leaves`; the hash caches and
leaf pointers are those of `v`, and ids are not handed out again. The tree's ids are among `olds`
or new ones. -/
structure WalkOut (S : Nat → CStr → Prop) (v v' : Volatile) (olds leaves : List Nat) : Prop where
  tree : ∃ t, v'.top_ = some t ∧ TreeOK S v' t ∧ leafIds t = leaves
  hashes : v'.hashes = v.hashes
  leaf : v'.leaf = v.leaf
  next_id : v.next_id ≤ v'.next_id
  ids : ∀ t, v'.top_ = some t → ∀ i ∈ ids t, i ∈ olds ∨ v.next_id ≤ i

/-- A node `x` of a `TreeOK` tree and a node `new` outside it, with ids below `next_id`, right
`parent` fields and `x`'s parent, make a walk state for every key predicate under which `x` and
`new` split the interval of `x`'s place at `s`. -/
theorem TreeOK.walkInv {S' : Nat → CStr → Prop} {v : Volatile} {T x new : ScreeDBNode}
    {ps : List Frame} {lo hi : Option CStr} {d : Nat} {s : CStr} (hT : TreeOK S v T)
    (htop : v.top_ = some T) (hx : T = plugAll ps x) (hnd : (ids new).Nodup)
    (hfresh : ∀ i ∈ ids new, i < v.next_id ∧ i ∉ ids T) (hpn : ParentsOK v.parent new)
    (hpar : v.parent new.id = v.parent x.id) (hctx : CtxWF S' ps lo hi d)
    (hlo : Bound.Lt lo (some s)) (hhi : Bound.Lt (some s) hi) (hxs : WF S' false lo (some s) d x)
    (hns : WF S' false (some s) hi d new) : WalkInv S' v ps x new s := by
  subst hx
  have hperm := ids_plugAll_perm ps x
  have hparents := parentsOK_plugAll.1 hT.parents
  refine ⟨htop, ?_, fun i hi => ?_, hparents.1, hparents.2, hpn, hT.root, hpar,
    lo, hi, d, hctx, hlo, hhi, hxs, hns⟩
  · refine List.nodup_append.2 ⟨hperm.nodup_iff.1 hT.nodup, hnd, fun i hi j hj hij => ?_⟩
    exact (hfresh j hj).2 (hij ▸ hperm.mem_iff.2 hi)
  · rcases List.mem_append.1 hi with hi | hi
    · exact hT.fresh i (hperm.mem_iff.2 hi)
    · exact (hfresh i hi).1

/-- The root of a tree below a path is the top of the path, or the node when the path is
empty. -/
theorem plugAll_id_mem : ∀ (ps : List Frame) (x : ScreeDBNode),
    (plugAll ps x).id = x.id ∨ (plugAll ps x).id ∈ ctxIds ps
  | [], _ => .inl rfl
  | f :: fs, x => by
    rcases plugAll_id_mem fs (f.plug x) with h | h
    · exact .inr (by simp [ctxIds, plugAll_cons, h])
    · exact .inr (by simp only [ctxIds, plugAll_cons, List.mem_cons, List.mem_append]; tauto)

theorem plugAll_id_congr {x y : ScreeDBNode} (h : x.id = y.id) :
    ∀ ps : List Frame, (plugAll ps x).id = (plugAll ps y).id
  | [] => h
  | f :: fs => plugAll_id_congr (by simp) fs

/-- The tree of a walk state has distinct ids. -/
theorem WalkInv.nodup_tree {v : Volatile} {ps : List Frame} {x new : ScreeDBNode} {s : CStr}
    (h : WalkInv S v ps x new s) : (ids (plugAll ps x)).Nodup :=
  (ids_plugAll_perm ps x).nodup_iff.2 (h.nodup.sublist (List.sublist_append_left _ _))

/-- Above `x`, the walk finds its parent node through the `parent` field. -/
theorem WalkInv.frame {v : Volatile} {f : Frame} {fs : List Frame} {x new : ScreeDBNode}
    {s : CStr} (h : WalkInv S v (f :: fs) x new s) :
    v.parent x.id = some f.id ∧ v.top_.bind (·.findNode f.id) = some (f.plug x) := by
  refine ⟨h.parents_ctx.parent_eq, ?_⟩
  have hmem : f.plug x ∈ subtrees (plugAll fs (f.plug x)) :=
    plugAll_mem_subtrees fs _ _ (self_mem_subtrees _)
  rw [h.top, Option.bind_some, plugAll_cons, ← Frame.id_plug f x]
  exact findNode_of_mem h.nodup_tree hmem

/-- At the top the walk makes a new top node over `x` and `new`. -/
theorem WalkInv.top_eq {fuel : Nat} {v : Volatile} {x new : ScreeDBNode} {s : CStr}
    (h : WalkInv S v [] x new s) :
    leafUpdateParentsAfterSplit (fuel + 1) v x.id new s =
      (((v.newInnerNode none).2.setParent x.id (some v.next_id)).setParent new.id
        (some v.next_id)).setTop (some (.inner v.next_id [s] [x, new])) := by
  have hfind : v.top_.bind (·.findNode x.id) = some x := by
    rw [h.top, plugAll_nil, Option.bind_some]
    exact findNode_of_mem h.nodup_tree (self_mem_subtrees x)
  have hroot : v.parent x.id = none := h.root
  rw [leafUpdateParentsAfterSplit_top hroot, hfind, Option.getD_some]

/-- At the top: a new top node over `x` and `new`. -/
theorem walk_top {fuel : Nat} {v : Volatile} {x new : ScreeDBNode} {s : CStr}
    (h : WalkInv S v [] x new s) :
    WalkOut S v (leafUpdateParentsAfterSplit (fuel + 1) v x.id new s) (ids x ++ ids new)
      (leafIds x ++ leafIds new) := by
  have hnd : (ids x ++ ids new).Nodup := by simpa [ctxIds] using h.nodup
  have hfr : ∀ i ∈ ids x ++ ids new, i < v.next_id := by simpa [ctxIds] using h.fresh
  obtain ⟨hndx, hndn, hdis⟩ := List.nodup_append.1 hnd
  rw [h.top_eq]
  obtain ⟨lo, hi, d, ⟨rfl, rfl⟩, -, -, hx, hn⟩ := h.wf
  -- the new top node takes the next id; `x` and `new` hang from it
  have hxn : x.id ≠ new.id := hdis _ (id_mem_ids x) _ (id_mem_ids new)
  have hxt : x.id ≠ v.next_id := Nat.ne_of_lt (hfr _ (List.mem_append_left _ (id_mem_ids x)))
  have hnt : new.id ≠ v.next_id := Nat.ne_of_lt (hfr _ (List.mem_append_right _ (id_mem_ids new)))
  have hkeep : ∀ j ∈ ids x ++ ids new, j ≠ x.id → j ≠ new.id →
      ((((v.newInnerNode none).2.setParent x.id (some v.next_id)).setParent new.id
        (some v.next_id)).setTop (some (.inner v.next_id [s] [x, new]))).parent j = v.parent j := by
    intro j hj hjx hjn
    simp [hjx, hjn, Nat.ne_of_lt (hfr j hj)]
  refine ⟨⟨_, rfl, ⟨⟨d + 1, ?_⟩, ?_, ?_, ?_, ?_⟩, by simp⟩, by simp, by simp, by simp, ?ids⟩
  · exact wf_inner.2 ⟨d, rfl, by simp, by simp [INNER_KEYS],
      wfChain_cons.2 ⟨by simp, hx, wfChain_single.2 ⟨by simp, hn⟩⟩⟩
  · simp only [ids_inner, idsIn_cons, idsIn_nil, List.append_nil]
    exact List.nodup_cons.2 ⟨fun hm => Nat.lt_irrefl _ (hfr _ hm), hnd⟩
  · intro i hi
    simp only [ids_inner, idsIn_cons, idsIn_nil, List.append_nil, List.mem_cons] at hi
    rcases hi with rfl | hi
    · simp
    · simpa using Nat.lt_succ_of_lt (hfr i hi)
  · refine parentsOK_inner.2 fun c hc => ?_
    simp only [List.mem_cons, List.not_mem_nil, or_false] at hc
    rcases hc with rfl | rfl
    · refine ⟨by simp [hxn], ParentsOK.congr_ids hndx h.parents_x fun j hj hjx => ?_⟩
      exact hkeep j (List.mem_append_left _ hj) hjx fun he => hdis _ hj _ (he ▸ id_mem_ids new) rfl
    · refine ⟨by simp, ParentsOK.congr_ids hndn h.parents_new fun j hj hjn => ?_⟩
      exact hkeep j (List.mem_append_right _ hj) (fun he => hdis _ (he ▸ id_mem_ids x) _ hj rfl) hjn
  · simp [hxt.symm, hnt.symm]
  case ids =>
    -- the new top node has the next id, the others are those of `x` and `new`
    intro t ht i hi
    simp only [Volatile.setTop_top_, Option.some.injEq] at ht
    subst ht
    simp only [ids_inner, idsIn_cons, idsIn_nil, List.append_nil, List.mem_cons] at hi
    rcases hi with rfl | hi
    · exact .inr le_rfl
    · exact .inl hi

/-- One level up from `x`: the parent's keys and children as the walk extends them with `s` and
`new`, which it inserts right of `x`; the parent so extended is well-formed over its interval. -/
theorem WalkInv.insert_lists {v : Volatile} {f : Frame} {fs : List Frame} {x new : ScreeDBNode}
    {s : CStr} (h : WalkInv S v (f :: fs) x new s) :
    ∃ kl kr lo hi d, f.keys = kl ++ kr ∧
      f.keys.insertIdx (insertPos s f.keys) s = kl ++ s :: kr ∧
      (f.left ++ x :: f.right).insertIdx (insertPos s f.keys + 1) new =
        f.left ++ x :: new :: f.right ∧
      (if fs.isEmpty then 1 else 2) ≤ f.keys.length ∧ f.keys.length ≤ INNER_KEYS ∧
      WFChain S lo d (kl ++ s :: kr) (f.left ++ x :: new :: f.right) hi ∧
      CtxWF S fs lo hi (d + 1) := by
  obtain ⟨a, b, d, ⟨lo, hi, kl, kr, hk, h₁, h₂, hl, -, hr, hctx⟩, has, hsb, hx, hn⟩ := h.wf
  have hpos : insertPos s f.keys = kl.length := h.insertPos_eq.trans hl.length
  refine ⟨kl, kr, lo, hi, d, hk, ?_, ?_, h₁, h₂, chain_insert hl has hx hsb hn hr, hctx⟩
  · rw [hpos, hk, insertIdx_append_length]
  · have hc : f.left ++ x :: f.right = (f.left ++ [x]) ++ f.right := by simp
    have hlen : kl.length + 1 = (f.left ++ [x]).length := by simp [hl.length]
    rw [hpos, hc, hlen, insertIdx_append_length]
    simp

/-- At `x`'s place there are as many keys left of it as children. -/
theorem WalkInv.left_le {v : Volatile} {f : Frame} {fs : List Frame} {x new : ScreeDBNode}
    {s : CStr} (h : WalkInv S v (f :: fs) x new s) : f.left.length ≤ f.keys.length := by
  obtain ⟨_, _, _, ⟨_, _, kl, kr, hk, -, -, hl, -⟩, -⟩ := h.wf
  rw [hk, hl.length, List.length_append]
  omega

/-- The parent of `x` with `s` and `new` inserted right of `x`: the cells of `x` are bounded by
`s`, and those of `new` as `x`'s place was. -/
theorem WalkInv.insert_cells {v : Volatile} {f : Frame} {fs : List Frame} {x new : ScreeDBNode}
    {s : CStr} (h : WalkInv S v (f :: fs) x new s) (b : Option CStr) :
    leafBoundsIn b (f.keys.insertIdx (insertPos s f.keys) s) (f.left ++ x :: new :: f.right) =
      f.leftCells ++ leafBounds (some s) x ++ leafBounds (f.holeBound b) new ++ f.rightCells b := by
  have hlen : (f.keys.take f.left.length).length = f.left.length := by simp [h.left_le]
  have hkeys : f.keys.insertIdx f.left.length s =
      f.keys.take f.left.length ++ s :: f.keys.drop f.left.length := by
    have := insertIdx_append_length (f.keys.take f.left.length) (f.keys.drop f.left.length) s
    rwa [List.take_append_drop, hlen] at this
  rw [h.insertPos_eq, hkeys, leafBoundsIn_append b hlen, leafBoundsIn_cons, f.leafBoundsIn_hole,
    Frame.leftCells]
  simp only [List.append_assoc]

/-- The ids of one level up: the parent, the path above it, and the children with `new`. -/
theorem WalkInv.ids_perm {v : Volatile} {f : Frame} {fs : List Frame} {x new : ScreeDBNode}
    {s : CStr} (_ : WalkInv S v (f :: fs) x new s) :
    (ctxIds (f :: fs) ++ ids x ++ ids new).Perm
      (f.id :: (ctxIds fs ++ idsIn (f.left ++ x :: new :: f.right))) := by
  simp only [ctxIds, idsIn_append, idsIn_cons, List.cons_append]
  refine List.Perm.cons _ (List.perm_iff_count.2 fun a => ?_)
  simp only [List.count_append]
  omega

/-- Every child of `x`'s parent, `new` counted, hangs from it. -/
theorem WalkInv.children_parents {v : Volatile} {f : Frame} {fs : List Frame}
    {x new : ScreeDBNode} {s : CStr} (h : WalkInv S v (f :: fs) x new s) :
    ∀ c ∈ f.left ++ x :: new :: f.right, v.parent c.id = some f.id ∧ ParentsOK v.parent c := by
  intro c hc
  simp only [List.mem_append, List.mem_cons] at hc
  rcases hc with hc | rfl | rfl | hc
  · exact h.parents_ctx.2.1 c (List.mem_append_left _ hc)
  · exact ⟨h.parents_ctx.parent_eq, h.parents_x⟩
  · exact ⟨h.new_parent.trans h.parents_ctx.parent_eq, h.parents_new⟩
  · exact h.parents_ctx.2.1 c (List.mem_append_right _ hc)

/-- The ids one level up are distinct and below `next_id`. -/
theorem WalkInv.up_ids {v : Volatile} {f : Frame} {fs : List Frame} {x new : ScreeDBNode}
    {s : CStr} (h : WalkInv S v (f :: fs) x new s) :
    (f.id :: (ctxIds fs ++ idsIn (f.left ++ x :: new :: f.right))).Nodup ∧
      ∀ i ∈ f.id :: (ctxIds fs ++ idsIn (f.left ++ x :: new :: f.right)), i < v.next_id :=
  ⟨h.ids_perm.nodup_iff.1 h.nodup, fun i hi => h.fresh i (h.ids_perm.mem_iff.2 hi)⟩

/-- Writing `x`'s parent node back replaces it in place. -/
theorem WalkInv.replace_parent {v : Volatile} {f : Frame} {fs : List Frame} {x new : ScreeDBNode}
    {s : CStr} (h : WalkInv S v (f :: fs) x new s) (r : ScreeDBNode) :
    v.top_.map (replaceNode f.id r) = some (plugAll fs r) := by
  have hnd := (List.nodup_cons.1 h.up_ids.1)
  have hctx : f.id ∉ ctxIds fs := fun hm => hnd.1 (List.mem_append_left _ hm)
  rw [h.top, Option.map_some, plugAll_cons, replaceNode_plugAll _ hctx, ← Frame.id_plug f x,
    replaceNode_self]

/-- A parent with room takes `s` and `new` right of `x`, in place. -/
theorem WalkInv.insert_eq {fuel : Nat} {v : Volatile} {f : Frame} {fs : List Frame}
    {x new : ScreeDBNode} {s : CStr} (h : WalkInv S v (f :: fs) x new s)
    (hroom : f.keys.length < INNER_KEYS) :
    leafUpdateParentsAfterSplit (fuel + 1) v x.id new s =
      v.setTop (some (plugAll fs (.inner f.id (f.keys.insertIdx (insertPos s f.keys) s)
        (f.left ++ x :: new :: f.right)))) := by
  obtain ⟨hpar, hfind⟩ := h.frame
  obtain ⟨kl, kr, -, -, -, hk, hkeys, hchildren, -⟩ := h.insert_lists
  have hlen : (f.keys.insertIdx (insertPos s f.keys) s).length ≤ INNER_KEYS := by
    rw [hk] at hroom
    rw [hkeys]
    simp only [List.length_append, List.length_cons] at hroom ⊢
    omega
  rw [Frame.plug] at hfind
  rw [leafUpdateParentsAfterSplit_insert hpar hfind hlen, hchildren, h.replace_parent _]

/-- A parent with room takes `s` and `new` right of `x`; the walk stops. -/
theorem walk_insert {fuel : Nat} {v : Volatile} {f : Frame} {fs : List Frame}
    {x new : ScreeDBNode} {s : CStr} (h : WalkInv S v (f :: fs) x new s)
    (hroom : f.keys.length < INNER_KEYS) :
    WalkOut S v (leafUpdateParentsAfterSplit (fuel + 1) v x.id new s)
      (ctxIds (f :: fs) ++ ids x ++ ids new)
      (ctxLeft (f :: fs) ++ leafIds x ++ leafIds new ++ ctxRight (f :: fs)) := by
  obtain ⟨kl, kr, lo, hi, d, hk, hkeys, -, h₁, -, hchain, hctx⟩ := h.insert_lists
  have hlen' : (kl ++ s :: kr).length = f.keys.length + 1 := by simp [hk]; omega
  rw [h.insert_eq hroom, hkeys]
  obtain ⟨hnd, hfr⟩ := h.up_ids
  have hperm : (ids (plugAll fs (.inner f.id (kl ++ s :: kr) (f.left ++ x :: new :: f.right)))).Perm
      (f.id :: (ctxIds fs ++ idsIn (f.left ++ x :: new :: f.right))) :=
    (ids_plugAll_perm _ _).trans (by simp)
  refine ⟨⟨_, rfl, ⟨?_, hperm.nodup_iff.2 hnd, fun i hi => ?_, ?_, ?_⟩, ?_⟩, rfl, rfl, le_refl _,
    fun t ht i hi => .inl ?ids⟩
  · refine ⟨d + 1 + fs.length, wf_plugAll_iff.2 ⟨lo, hi, d + 1, rfl, hctx, ?_⟩⟩
    refine wf_inner.2 ⟨d, rfl, le_trans h₁ (by omega), by omega, hchain⟩
  · exact hfr i (hperm.mem_iff.1 hi)
  · rw [Volatile.setTop_parent, parentsOK_plugAll]
    exact ⟨parentsOK_inner.2 h.children_parents, h.parents_ctx.2.2⟩
  · have hid : (ScreeDBNode.inner f.id (kl ++ s :: kr) (f.left ++ x :: new :: f.right)).id =
        (f.plug x).id := rfl
    rw [Volatile.setTop_parent, plugAll_id_congr hid fs]
    exact h.root
  · simp [leafIds_plugAll, ctxLeft, ctxRight]
  case ids =>
    -- the parent, with `s` and `new`, keeps the ids it had
    simp only [Volatile.setTop_top_, Option.some.injEq] at ht
    subst ht
    exact h.ids_perm.mem_iff.2 (hperm.mem_iff.1 hi)

/-- The state one level up after `x`'s parent splits: it keeps the lower two keys and three
children, and the upper two keys and three children go to a new inner node with the id
`next_id`, whose children's `parent` fields now name it; the middle key goes up. -/
theorem walk_split_inv {v v' : Volatile} {f : Frame} {fs : List Frame} {x new : ScreeDBNode}
    {s : CStr} (h : WalkInv S v (f :: fs) x new s) {K : List CStr} {C : List ScreeDBNode}
    {lo hi : Option CStr} {d : Nat} (hC : C = f.left ++ x :: new :: f.right) (hK : K.length = 5)
    (hchain : WFChain S lo d K C hi) (hctx : CtxWF S fs lo hi (d + 1))
    (htop : v'.top_ = some (plugAll fs (.inner f.id (K.take 2) (C.take 3))))
    (hnext : v'.next_id = v.next_id + 1)
    (hpar : ∀ j, v'.parent j = if j ∈ (C.drop 3).map ScreeDBNode.id then some v.next_id
      else if j = v.next_id then v.parent f.id else v.parent j) :
    WalkInv S v' fs (.inner f.id (K.take 2) (C.take 3)) (.inner v.next_id (K.drop 3) (C.drop 3))
      (K.getD 2 default) := by
  obtain ⟨hnd, hfr⟩ := h.up_ids
  have hchildren := h.children_parents
  rw [← hC] at hnd hfr hchildren
  -- distinct ids: the path, the parent, the children it keeps and those it hands over
  have hsplit : idsIn C = idsIn (C.take 3) ++ idsIn (C.drop 3) := by
    rw [← idsIn_append, List.take_append_drop]
  rw [hsplit] at hnd hfr
  obtain ⟨hf, hnd'⟩ := List.nodup_cons.1 hnd
  obtain ⟨-, hndC, hdisC⟩ := List.nodup_append.1 hnd'
  obtain ⟨-, hndm, hdiskm⟩ := List.nodup_append.1 hndC
  have hlt : ∀ j ∈ f.id :: (ctxIds fs ++ (idsIn (C.take 3) ++ idsIn (C.drop 3))), j ≠ v.next_id :=
    fun j hj => Nat.ne_of_lt (hfr j hj)
  have hmoved : ∀ j, j ∈ (C.drop 3).map ScreeDBNode.id → j ∈ idsIn (C.drop 3) := by
    intro j hj
    obtain ⟨c, hc, rfl⟩ := List.mem_map.1 hj
    exact mem_idsIn.2 ⟨c, hc, id_mem_ids c⟩
  have hkept : ∀ j ∈ idsIn (C.take 3), j ∉ (C.drop 3).map ScreeDBNode.id :=
    fun j hj hm => hdiskm j hj j (hmoved j hm) rfl
  have hctxm : ∀ j ∈ ctxIds fs, j ∉ (C.drop 3).map ScreeDBNode.id :=
    fun j hj hm => hdisC j hj j (List.mem_append_right _ (hmoved j hm)) rfl
  have hfm : f.id ∉ (C.drop 3).map ScreeDBNode.id :=
    fun hm => hf (List.mem_append_right _ (List.mem_append_right _ (hmoved _ hm)))
  have hft : f.id ≠ v.next_id := hlt f.id List.mem_cons_self
  -- the two halves of the parent node
  have hC6 : C.length = 6 := by rw [hchain.length, hK]
  have hKs : K = K.take 2 ++ K.getD 2 default :: K.drop 3 := eq_take_getD_drop default (by omega)
  have hhalves := hchain
  rw [hKs, ← List.take_append_drop 3 C, chain_append (by simp [hC6, hK])] at hhalves
  obtain ⟨hLc, hNc⟩ := hhalves
  refine ⟨htop, ?_, ?_, ?_, ?_, ?_, ?_, ?_, ?_⟩
  · -- the ids are those one level up, with the new inner node's
    have hperm : (ctxIds fs ++ ids (.inner f.id (K.take 2) (C.take 3)) ++
        ids (.inner v.next_id (K.drop 3) (C.drop 3))).Perm
        (v.next_id :: f.id :: (ctxIds fs ++ (idsIn (C.take 3) ++ idsIn (C.drop 3)))) := by
      simp only [ids_inner]
      refine List.perm_iff_count.2 fun a => ?_
      simp only [List.count_append, List.count_cons]
      omega
    exact hperm.nodup_iff.2 (List.nodup_cons.2 ⟨fun hm => Nat.lt_irrefl _ (hfr _ hm), hnd⟩)
  · intro i hi
    rw [hnext]
    simp only [ids_inner, List.mem_append, List.mem_cons] at hi
    rcases hi with (hi | rfl | hi) | rfl | hi
    · exact Nat.lt_succ_of_lt (hfr i (by simp [hi]))
    · exact Nat.lt_succ_of_lt (hfr _ List.mem_cons_self)
    · exact Nat.lt_succ_of_lt (hfr i (by simp [hi]))
    · exact Nat.lt_succ_self _
    · exact Nat.lt_succ_of_lt (hfr i (by simp [hi]))
  · -- the kept children still hang from the parent
    refine parentsOK_inner.2 fun c hc => ?_
    have hcC : c ∈ C := List.mem_of_mem_take hc
    have hsame : ∀ j ∈ ids c, v'.parent j = v.parent j := by
      intro j hj
      have hjk : j ∈ idsIn (C.take 3) := mem_idsIn.2 ⟨c, hc, hj⟩
      rw [hpar, if_neg (hkept j hjk), if_neg (hlt j (by simp [hjk]))]
    refine ⟨(hsame c.id (id_mem_ids c)).trans (hchildren c hcC).1, ?_⟩
    refine (hchildren c hcC).2.congr fun j hj => hsame j ?_
    rw [ids_eq_cons]
    exact List.mem_cons_of_mem _ hj
  · -- the path above
    refine (h.parents_ctx.2.2).congr ?_ fun j hj => ?_
    · rw [hpar, if_neg hfm, if_neg hft]
    · rw [hpar, if_neg (hctxm j hj), if_neg (hlt j (by simp [hj]))]
  · -- the moved children hang from the new inner node
    refine parentsOK_inner.2 fun c hc => ⟨?_, ?_⟩
    · rw [hpar, if_pos (List.mem_map_of_mem hc)]
    · refine (hchildren c (List.mem_of_mem_drop hc)).2.congr fun j hj => ?_
      have hjc : j ∈ ids c := by rw [ids_eq_cons]; exact List.mem_cons_of_mem _ hj
      have hjm : j ∈ idsIn (C.drop 3) := mem_idsIn.2 ⟨c, hc, hjc⟩
      -- a child's id is no root of the moved trees: only its own, and it is below it
      have hnotroot : j ∉ (C.drop 3).map ScreeDBNode.id := by
        intro hm
        obtain ⟨c', hc', rfl⟩ := List.mem_map.1 hm
        have hndc := nodup_ids_of_mem hndm hc
        rw [ids_eq_cons, List.nodup_cons] at hndc
        exact hndc.1 (id_eq_of_mem_ids hndm hc hc' hjc ▸ hj)
      rw [hpar, if_neg hnotroot, if_neg (hlt j (by simp [hjm]))]
  · -- the top keeps its id, which is neither moved nor new
    have hid : (ScreeDBNode.inner f.id (K.take 2) (C.take 3)).id = (f.plug x).id := rfl
    rw [hpar, plugAll_id_congr hid fs]
    rcases plugAll_id_mem fs (f.plug x) with hr | hr
    · rw [Frame.id_plug] at hr
      rw [hr, if_neg hfm, if_neg hft, ← hr]
      exact h.root
    · rw [if_neg (hctxm _ hr), if_neg (hlt _ (by simp [hr]))]
      exact h.root
  · -- the new inner node has the parent's parent
    have hnm : v.next_id ∉ (C.drop 3).map ScreeDBNode.id :=
      fun hm => hlt _ (by simp [hmoved _ hm]) rfl
    simp only [ScreeDBNode.id_inner]
    rw [hpar, hpar, if_neg hnm, if_pos rfl, if_neg hfm, if_neg hft]
  · -- the two halves split the parent's interval at the middle key
    refine ⟨lo, hi, d + 1, hctx, hLc.lt, hNc.lt, ?_, ?_⟩
    · exact wf_inner.2 ⟨d, rfl, by simp [hK], by simp [hK, INNER_KEYS], hLc⟩
    · exact wf_inner.2 ⟨d, rfl, by simp [hK], by simp [hK, INNER_KEYS], hNc⟩

/-- The ids of the two halves of a split parent, one level up: those of the path, the parent,
its children with `new`, and the new inner node's. -/
theorem split_halves_ids {f : Frame} {fs : List Frame} {x new : ScreeDBNode} {K : List CStr}
    {j i : Nat} (hi : i ∈ ctxIds fs ++ ids (.inner f.id (K.take 2)
      ((f.left ++ x :: new :: f.right).take 3)) ++
      ids (.inner j (K.drop 3) ((f.left ++ x :: new :: f.right).drop 3))) :
    i ∈ ctxIds (f :: fs) ++ ids x ++ ids new ∨ i = j := by
  -- a child of either half is a child of the parent
  have hchild : ∀ c ∈ f.left ++ x :: new :: f.right, i ∈ ids c →
      i ∈ ctxIds (f :: fs) ++ ids x ++ ids new := by
    intro c hc hic
    simp only [List.mem_append, List.mem_cons] at hc
    simp only [ctxIds, List.mem_append, List.mem_cons]
    rcases hc with hc | rfl | rfl | hc
    · exact .inl (.inl (.inr (.inl (.inl (mem_idsIn.2 ⟨c, hc, hic⟩)))))
    · exact .inl (.inr hic)
    · exact .inr hic
    · exact .inl (.inl (.inr (.inl (.inr (mem_idsIn.2 ⟨c, hc, hic⟩)))))
  simp only [List.mem_append, ids_inner, List.mem_cons] at hi
  rcases hi with (hi | rfl | hi) | rfl | hi
  · exact .inl (by simp [ctxIds, hi])
  · exact .inl (by simp [ctxIds])
  · obtain ⟨c, hc, hic⟩ := mem_idsIn.1 hi
    exact .inl (hchild c (List.mem_of_mem_take hc) hic)
  · exact .inr rfl
  · obtain ⟨c, hc, hic⟩ := mem_idsIn.1 hi
    exact .inl (hchild c (List.mem_of_mem_drop hc) hic)

/-- The two halves of a split node, cut at the middle key, have the node's cells. -/
theorem leafBounds_halves {K : List CStr} {C : List ScreeDBNode} (hK : K.length = 5)
    (hC : C.length = 6) (i j : Nat) (b : Option CStr) :
    leafBounds (some (K.getD 2 default)) (.inner i (K.take 2) (C.take 3)) ++
      leafBounds b (.inner j (K.drop 3) (C.drop 3)) = leafBoundsIn b K C := by
  have hK' : K.take 2 ++ K.getD 2 default :: K.drop 3 = K :=
    (eq_take_getD_drop default (by omega)).symm
  rw [leafBounds_inner, leafBounds_inner,
    ← leafBoundsIn_split b _ (by simp [hC, hK]) (K.drop 3) (C.drop 3), hK', List.take_append_drop]

/-- A full parent holds five keys once `s` is in: the keys around `x`'s place and `s`. -/
theorem WalkInv.full_keys {v : Volatile} {f : Frame} {fs : List Frame} {x new : ScreeDBNode}
    {s : CStr} (h : WalkInv S v (f :: fs) x new s) (hfull : INNER_KEYS ≤ f.keys.length) :
    (f.keys.insertIdx (insertPos s f.keys) s).length = 5 := by
  obtain ⟨kl, kr, -, -, -, hk, hkeys, -, -, h₂, -, -⟩ := h.insert_lists
  have h4 : (kl ++ kr).length = 4 := hk ▸ le_antisymm h₂ hfull
  rw [hkeys]
  simp only [List.length_append, List.length_cons] at h4 ⊢
  omega

/-- **One level up after a split.** What `splitUp` hands up from a full parent of `x` is a walk
state: the parent's lower half in its place, and the new inner node with the upper half waiting
right of it at the middle key. -/
theorem WalkInv.splitUp {v : Volatile} {f : Frame} {fs : List Frame} {x new : ScreeDBNode}
    {s : CStr} (h : WalkInv S v (f :: fs) x new s) (hfull : INNER_KEYS ≤ f.keys.length) :
    WalkInv S (splitUp v f.id f.keys (f.left ++ x :: f.right) new s).1 fs
      (.inner f.id ((f.keys.insertIdx (insertPos s f.keys) s).take INNER_KEYS_MIDPOINT)
        (((f.left ++ x :: f.right).insertIdx (insertPos s f.keys + 1) new).take INNER_KEYS_UPPER))
      (splitUp v f.id f.keys (f.left ++ x :: f.right) new s).2.1
      (splitUp v f.id f.keys (f.left ++ x :: f.right) new s).2.2 := by
  have hK := h.full_keys hfull
  obtain ⟨kl, kr, lo, hi, d, -, hkeys, hchildren, -, -, hchain, hctx⟩ := h.insert_lists
  rw [hkeys] at hK
  simp only [ScreeDB.splitUp, hkeys, hchildren, show INNER_KEYS_UPPER = 3 from rfl,
    show INNER_KEYS_MIDPOINT = 2 from rfl]
  exact walk_split_inv h rfl hK hchain hctx (by simp [h.replace_parent]) (by simp) fun j => by simp

/-- A parent that would hold five keys splits, and the walk goes on one level up. -/
theorem walk_split {fuel : Nat} {v : Volatile} {f : Frame} {fs : List Frame}
    {x new : ScreeDBNode} {s : CStr} (h : WalkInv S v (f :: fs) x new s)
    (hfull : INNER_KEYS ≤ f.keys.length) :
    ∃ v' x' new' s', leafUpdateParentsAfterSplit (fuel + 1) v x.id new s =
        leafUpdateParentsAfterSplit fuel v' x'.id new' s' ∧ WalkInv S v' fs x' new' s' ∧
      leafIds x' ++ leafIds new' =
        leafIdsIn f.left ++ leafIds x ++ leafIds new ++ leafIdsIn f.right ∧
      v'.hashes = v.hashes ∧ v'.leaf = v.leaf ∧ v'.next_id = v.next_id + 1 ∧
      (ctxIds fs ++ ids x' ++ ids new').length = (ctxIds (f :: fs) ++ ids x ++ ids new).length + 1 ∧
      (∀ b, leafBounds (some s') x' ++ leafBounds b new' =
        f.leftCells ++ leafBounds (some s) x ++ leafBounds (f.holeBound b) new ++ f.rightCells b) ∧
      ∀ i ∈ ctxIds fs ++ ids x' ++ ids new', i ∈ ctxIds (f :: fs) ++ ids x ++ ids new ∨
        v.next_id ≤ i := by
  obtain ⟨hpar, hfind⟩ := h.frame
  have hlen : INNER_KEYS < (f.keys.insertIdx (insertPos s f.keys) s).length := by
    rw [h.full_keys hfull]
    decide
  rw [Frame.plug] at hfind
  obtain ⟨_, _, _, _, _, -, hkeys, hchildren, -, -, hchain, -⟩ := h.insert_lists
  refine ⟨_, _, _, _, ?step, h.splitUp hfull, ?_,
    by simp [ScreeDB.splitUp], by simp [ScreeDB.splitUp], by simp [ScreeDB.splitUp], ?_,
    fun b => ?_, fun i hi => ?_⟩
  case step => exact leafUpdateParentsAfterSplit_split hpar hfind hlen
  · -- the two halves share out the children, `new` among them
    simp only [ScreeDB.splitUp, hchildren]
    rw [leafIds_inner, leafIds_inner, ← leafIdsIn_append, List.take_append_drop]
    simp
  · -- and their ids are the parent's, its children's and the new inner node's
    have hhalves : (idsIn ((f.left ++ x :: new :: f.right).take 3)).length +
        (idsIn ((f.left ++ x :: new :: f.right).drop 3)).length =
          (idsIn (f.left ++ x :: new :: f.right)).length := by
      rw [← List.length_append, ← idsIn_append, List.take_append_drop]
    rw [h.ids_perm.length_eq]
    simp only [ScreeDB.splitUp, hchildren, show INNER_KEYS_UPPER = 3 from rfl, ids_inner,
      List.length_append, List.length_cons]
    omega
  · -- and their cells are the parent's, cut at the middle key
    have hC : (f.left ++ x :: new :: f.right).length = 6 := by
      rw [hchain.length, ← hkeys, h.full_keys hfull]
    simp only [ScreeDB.splitUp, hchildren, show INNER_KEYS_UPPER = 3 from rfl,
      show INNER_KEYS_MIDPOINT = 2 from rfl]
    rw [leafBounds_halves (h.full_keys hfull) hC, h.insert_cells]
  · simp only [ScreeDB.splitUp, hchildren, show INNER_KEYS_UPPER = 3 from rfl,
      show INNER_KEYS_MIDPOINT = 2 from rfl] at hi
    exact (split_halves_ids hi).imp_right fun h => Nat.le_of_eq h.symm

/-- **The walk.** From a state with `WalkInv`, `LeafUpdateParentsAfterSplit` with more levels of
fuel than the path has ancestors leaves a well-formed tree whose leaves are the old ones with those
of `new` right after those of `x`. -/
theorem walk_spec : ∀ {ps : List Frame} {fuel : Nat} {v : Volatile} {x new : ScreeDBNode}
    {s : CStr}, WalkInv S v ps x new s → ps.length < fuel →
    WalkOut S v (leafUpdateParentsAfterSplit fuel v x.id new s) (ctxIds ps ++ ids x ++ ids new)
      (ctxLeft ps ++ leafIds x ++ leafIds new ++ ctxRight ps)
  | _, 0, _, _, _, _, _, hf => absurd hf (Nat.not_lt_zero _)
  | [], _ + 1, _, _, _, _, h, _ => by simpa [ctxLeft, ctxRight, ctxIds] using walk_top h
  | f :: fs, fuel + 1, v, x, new, s, h, hf => by
    by_cases hroom : f.keys.length < INNER_KEYS
    · exact walk_insert h hroom
    · obtain ⟨v', x', new', s', heq, h', hleaves, hh, hl, hn, -, -, hids⟩ :=
        @walk_split S fuel v f fs x new s h (Nat.le_of_not_lt hroom)
      obtain ⟨⟨t, htop, hok, ht⟩, hh', hl', hn', hids'⟩ :=
        walk_spec h' (Nat.lt_of_succ_lt_succ hf)
      rw [heq]
      refine ⟨⟨t, htop, hok, ?_⟩, hh'.trans hh, hl'.trans hl, by omega, fun t' ht' i hi => ?_⟩
      · rw [ht, List.append_assoc (ctxLeft fs), hleaves]
        simp [ctxLeft, ctxRight]
      · -- an id of the level above is one of this level's, or new
        rcases hids' t' ht' i hi with hi' | hi'
        · exact hids i hi'
        · exact .inr (by omega)

end Walk

end ScreeDB
