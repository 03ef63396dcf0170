import ScreeDB.Index

/-!
# The shape of the volatile tree

The index reaches its nodes through pointers, which the model represents by node ids: a pointer
is followed with `findNode` and a node is written back with `replaceNode`. Both are faithful only
while the ids of the tree are distinct, and this module says what they do then.

* `subtrees`: the nodes of a tree, the root first; `ids` and `leafIds` are their ids, and the ids
  of the leaves from left to right.
* `Frame`, `plugAll`: a node in its tree, as the list of its ancestors with the node left out of
  their children (a zipper); `exists_path` finds that list for every node of a tree.
* `findNode_eq_find?`: `findNode` is the first node of its id in `subtrees`, so in a tree whose ids
  are distinct it finds the node of the id (`findNode_of_mem`).
* `replaceNode_plugAll`: writing the node of an id that its ancestors and their other children do
  not have replaces the node in place.
* `ParentsOK`: every child's `parent` field names the node it hangs from.
-/

namespace ScreeDB

namespace ScreeDBNode

/-- The children of a node. -/
def children : ScreeDBNode → List ScreeDBNode
  | .leaf _ => []
  | .inner _ _ cs => cs

mutual

/-- The nodes of a tree, the root first. -/
def subtrees : ScreeDBNode → List ScreeDBNode
  | .leaf n => [.leaf n]
  | .inner i ks cs => .inner i ks cs :: subtreesIn cs

def subtreesIn : List ScreeDBNode → List ScreeDBNode
  | [] => []
  | c :: cs => subtrees c ++ subtreesIn cs

end

/-- The id of a leaf node. -/
def leafId? : ScreeDBNode → Option Nat
  | .leaf n => some n
  | .inner .. => none

/-- The ids of the nodes of a tree. -/
def ids (t : ScreeDBNode) : List Nat := (subtrees t).map id

/-- The ids of the nodes of a list of trees. -/
def idsIn (cs : List ScreeDBNode) : List Nat := (subtreesIn cs).map id

/-- The ids of the leaves of a tree, from left to right. -/
def leafIds (t : ScreeDBNode) : List Nat := (subtrees t).filterMap leafId?

/-- The ids of the leaves of a list of trees, from left to right. -/
def leafIdsIn (cs : List ScreeDBNode) : List Nat := (subtreesIn cs).filterMap leafId?

@[simp] theorem children_leaf (n : Nat) : (leaf n).children = [] := rfl
@[simp] theorem children_inner (i : Nat) (ks : List CStr) (cs : List ScreeDBNode) :
    (inner i ks cs).children = cs := rfl

@[simp] theorem subtrees_leaf (n : Nat) : subtrees (leaf n) = [leaf n] := by
  simp [subtrees]

@[simp] theorem subtrees_inner (i : Nat) (ks : List CStr) (cs : List ScreeDBNode) :
    subtrees (inner i ks cs) = inner i ks cs :: subtreesIn cs := by
  simp [subtrees]

@[simp] theorem subtreesIn_nil : subtreesIn [] = [] := by simp [subtreesIn]

@[simp] theorem subtreesIn_cons (c : ScreeDBNode) (cs : List ScreeDBNode) :
    subtreesIn (c :: cs) = subtrees c ++ subtreesIn cs := by
  simp [subtreesIn]

@[simp] theorem subtreesIn_append (l₁ l₂ : List ScreeDBNode) :
    subtreesIn (l₁ ++ l₂) = subtreesIn l₁ ++ subtreesIn l₂ := by
  induction l₁ with
  | nil => simp
  | cons c cs ih => simp [ih]

theorem mem_subtreesIn {n : ScreeDBNode} {cs : List ScreeDBNode} :
    n ∈ subtreesIn cs ↔ ∃ c ∈ cs, n ∈ subtrees c := by
  induction cs with
  | nil => simp
  | cons c cs ih => simp [ih]

theorem self_mem_subtrees (t : ScreeDBNode) : t ∈ subtrees t := by
  cases t <;> simp

@[simp] theorem ids_leaf (n : Nat) : ids (leaf n) = [n] := by simp [ids]

@[simp] theorem ids_inner (i : Nat) (ks : List CStr) (cs : List ScreeDBNode) :
    ids (inner i ks cs) = i :: idsIn cs := by
  simp [ids, idsIn]

@[simp] theorem idsIn_nil : idsIn [] = [] := by simp [idsIn]

@[simp] theorem idsIn_cons (c : ScreeDBNode) (cs : List ScreeDBNode) :
    idsIn (c :: cs) = ids c ++ idsIn cs := by
  simp [idsIn, ids]

@[simp] theorem idsIn_append (l₁ l₂ : List ScreeDBNode) :
    idsIn (l₁ ++ l₂) = idsIn l₁ ++ idsIn l₂ := by
  simp [idsIn]

theorem id_mem_ids (t : ScreeDBNode) : t.id ∈ ids t := by
  cases t <;> simp

theorem mem_idsIn {i : Nat} {cs : List ScreeDBNode} : i ∈ idsIn cs ↔ ∃ c ∈ cs, i ∈ ids c := by
  simp only [idsIn, ids, List.mem_map, mem_subtreesIn]
  constructor
  · rintro ⟨n, ⟨c, hc, hn⟩, rfl⟩
    exact ⟨c, hc, n, hn, rfl⟩
  · rintro ⟨c, hc, n, hn, rfl⟩
    exact ⟨n, ⟨c, hc, hn⟩, rfl⟩

@[simp] theorem leafIds_leaf (n : Nat) : leafIds (leaf n) = [n] := by simp [leafIds, leafId?]

@[simp] theorem leafIds_inner (i : Nat) (ks : List CStr) (cs : List ScreeDBNode) :
    leafIds (inner i ks cs) = leafIdsIn cs := by
  simp only [leafIds, leafIdsIn, subtrees_inner, List.filterMap_cons, leafId?]

@[simp] theorem leafIdsIn_nil : leafIdsIn [] = [] := by simp [leafIdsIn]

@[simp] theorem leafIdsIn_cons (c : ScreeDBNode) (cs : List ScreeDBNode) :
    leafIdsIn (c :: cs) = leafIds c ++ leafIdsIn cs := by
  simp [leafIdsIn, leafIds]

@[simp] theorem leafIdsIn_append (l₁ l₂ : List ScreeDBNode) :
    leafIdsIn (l₁ ++ l₂) = leafIdsIn l₁ ++ leafIdsIn l₂ := by
  simp [leafIdsIn]

/-- A leaf id is the id of a leaf node of the tree. -/
theorem mem_leafIds {n : Nat} {t : ScreeDBNode} : n ∈ leafIds t ↔ leaf n ∈ subtrees t := by
  simp only [leafIds, List.mem_filterMap]
  constructor
  · rintro ⟨m, hm, he⟩
    cases m with
    | leaf k => simp only [leafId?, Option.some.injEq] at he; exact he ▸ hm
    | inner => simp [leafId?] at he
  · intro h
    exact ⟨leaf n, h, rfl⟩

private theorem filterMap_leafId_sublist :
    ∀ l : List ScreeDBNode, (l.filterMap leafId?).Sublist (l.map ScreeDBNode.id)
  | [] => by simp
  | .leaf n :: l => by
    simpa [List.filterMap_cons, leafId?] using (filterMap_leafId_sublist l).cons_cons n
  | .inner i ks cs :: l => by
    simpa [List.filterMap_cons, leafId?] using (filterMap_leafId_sublist l).cons i

/-- The leaves are among the nodes. -/
theorem leafIds_sublist_ids (t : ScreeDBNode) : (leafIds t).Sublist (ids t) :=
  filterMap_leafId_sublist (subtrees t)

/-- A child of a node of a tree lies below the tree's root. -/
theorem child_mem_subtreesIn {n c : ScreeDBNode} :
    ∀ {t : ScreeDBNode}, n ∈ subtrees t → c ∈ n.children → c ∈ subtreesIn t.children := by
  intro t
  induction t with
  | leaf i =>
    intro hn hc
    simp only [subtrees_leaf, List.mem_singleton] at hn
    subst hn
    simp at hc
  | inner i ks cs ih =>
    intro hn hc
    simp only [subtrees_inner, List.mem_cons] at hn
    simp only [children_inner]
    rcases hn with rfl | hn
    · exact mem_subtreesIn.2 ⟨c, hc, self_mem_subtrees c⟩
    · obtain ⟨c', hc', hn'⟩ := mem_subtreesIn.1 hn
      have hbelow := ih c' hc' hn' hc
      refine mem_subtreesIn.2 ⟨c', hc', ?_⟩
      cases c' with
      | leaf _ => simp at hbelow
      | inner => simp only [children_inner] at hbelow; simp [hbelow]

/-! ## Paths -/

/-- An inner node with one of its children left out: `left` and `right` are the children before
and after it. -/
structure Frame where
  id : Nat
  keys : List CStr
  left : List ScreeDBNode
  right : List ScreeDBNode

/-- The inner node of the frame with `x` in the place left out. -/
def Frame.plug (f : Frame) (x : ScreeDBNode) : ScreeDBNode :=
  .inner f.id f.keys (f.left ++ x :: f.right)

/-- The tree built around `x` by its ancestors `ps`, listed from its parent up. -/
def plugAll : List Frame → ScreeDBNode → ScreeDBNode
  | [], x => x
  | f :: fs, x => plugAll fs (f.plug x)

/-- The ids of the ancestors and of their other children's subtrees. -/
def ctxIds : List Frame → List Nat
  | [] => []
  | f :: fs => f.id :: (idsIn f.left ++ idsIn f.right ++ ctxIds fs)

/-- The leaves left of the place left out, from left to right. -/
def ctxLeft : List Frame → List Nat
  | [] => []
  | f :: fs => ctxLeft fs ++ leafIdsIn f.left

/-- The leaves right of the place left out, from left to right. -/
def ctxRight : List Frame → List Nat
  | [] => []
  | f :: fs => leafIdsIn f.right ++ ctxRight fs

@[simp] theorem plugAll_nil (x : ScreeDBNode) : plugAll [] x = x := rfl
@[simp] theorem plugAll_cons (f : Frame) (fs : List Frame) (x : ScreeDBNode) :
    plugAll (f :: fs) x = plugAll fs (f.plug x) := rfl

@[simp] theorem Frame.id_plug (f : Frame) (x : ScreeDBNode) : (f.plug x).id = f.id := rfl

theorem plugAll_append (ps qs : List Frame) (x : ScreeDBNode) :
    plugAll (ps ++ qs) x = plugAll qs (plugAll ps x) := by
  induction ps generalizing x with
  | nil => rfl
  | cons f fs ih => exact ih (f.plug x)

/-- The ids of a tree are those of the path and those of the node it leads to. -/
theorem ids_plugAll_perm (ps : List Frame) (x : ScreeDBNode) :
    (ids (plugAll ps x)).Perm (ctxIds ps ++ ids x) := by
  induction ps generalizing x with
  | nil => simp [ctxIds]
  | cons f fs ih =>
    refine (ih (f.plug x)).trans ?_
    simp only [Frame.plug, ids_inner, idsIn_append, idsIn_cons, ctxIds]
    exact List.perm_iff_count.2 fun a => by simp only [List.count_append, List.count_cons]; omega

theorem plugAll_mem_subtrees (ps : List Frame) (x : ScreeDBNode) :
    ∀ n ∈ subtrees x, n ∈ subtrees (plugAll ps x) := by
  induction ps generalizing x with
  | nil => simp
  | cons f fs ih =>
    intro n hn
    refine ih (f.plug x) n ?_
    simp [Frame.plug, hn]

theorem leafIds_plugAll (ps : List Frame) (x : ScreeDBNode) :
    leafIds (plugAll ps x) = ctxLeft ps ++ leafIds x ++ ctxRight ps := by
  induction ps generalizing x with
  | nil => simp [ctxLeft, ctxRight]
  | cons f fs ih => simp [ih, Frame.plug, ctxLeft, ctxRight]

/-- Every node of a tree is at the end of a path from its root. -/
theorem exists_path {n : ScreeDBNode} :
    ∀ {t : ScreeDBNode}, n ∈ subtrees t → ∃ ps, t = plugAll ps n := by
  intro t
  induction t with
  | leaf i =>
    intro hn
    simp only [subtrees_leaf, List.mem_singleton] at hn
    exact ⟨[], hn ▸ rfl⟩
  | inner i ks cs ih =>
    intro hn
    simp only [subtrees_inner, List.mem_cons] at hn
    rcases hn with rfl | hn
    · exact ⟨[], rfl⟩
    · obtain ⟨c, hc, hnc⟩ := mem_subtreesIn.1 hn
      obtain ⟨ps, rfl⟩ := ih c hc hnc
      obtain ⟨l, r, rfl⟩ := List.append_of_mem hc
      exact ⟨ps ++ [⟨i, ks, l, r⟩], by rw [plugAll_append]; rfl⟩

theorem ids_eq_cons (t : ScreeDBNode) : ids t = t.id :: idsIn t.children := by
  cases t <;> simp

theorem nodup_ids_of_mem : ∀ {cs : List ScreeDBNode}, (idsIn cs).Nodup → ∀ {c : ScreeDBNode},
    c ∈ cs → (ids c).Nodup
  | [], _, _, hc => absurd hc List.not_mem_nil
  | d :: ds, hd, c, hc => by
    rw [idsIn_cons, List.nodup_append] at hd
    rcases List.mem_cons.1 hc with rfl | hc
    · exact hd.1
    · exact nodup_ids_of_mem hd.2.1 hc

/-- In a list of trees with distinct ids, the only root inside a tree of the list is its own. -/
theorem id_eq_of_mem_ids : ∀ {cs : List ScreeDBNode}, (idsIn cs).Nodup →
    ∀ {c c' : ScreeDBNode}, c ∈ cs → c' ∈ cs → c'.id ∈ ids c → c'.id = c.id
  | [], _, _, _, hc, _, _ => absurd hc List.not_mem_nil
  | d :: ds, hd, c, c', hc, hc', h => by
    rw [idsIn_cons, List.nodup_append] at hd
    obtain ⟨-, hds, hdis⟩ := hd
    rcases List.mem_cons.1 hc with rfl | hcs <;> rcases List.mem_cons.1 hc' with rfl | hcs'
    · rfl
    · exact (hdis _ h _ (mem_idsIn.2 ⟨c', hcs', id_mem_ids c'⟩) rfl).elim
    · exact (hdis _ (id_mem_ids c') _ (mem_idsIn.2 ⟨c, hcs, h⟩) rfl).elim
    · exact id_eq_of_mem_ids hds hcs hcs' h

/-! ## Following a pointer: `findNode` -/

mutual

theorem findNode_eq_find? (i : Nat) :
    ∀ t : ScreeDBNode, findNode i t = (subtrees t).find? (·.id == i)
  | .leaf n => by
    by_cases h : n = i <;> simp [findNode, h]
  | .inner n ks cs => by
    by_cases h : n = i
    · simp [findNode, h]
    · simp [findNode, h, findIn_eq_find? i cs]

theorem findIn_eq_find? (i : Nat) :
    ∀ cs : List ScreeDBNode, findIn i cs = (subtreesIn cs).find? (·.id == i)
  | [] => by simp [findIn]
  | c :: cs => by
    simp [findIn, List.find?_append, findNode_eq_find? i c, findIn_eq_find? i cs]

end

/-- In a list whose keys are distinct, `find?` by the key of a member finds the member. -/
private theorem find?_key_of_mem {α β : Type} [DecidableEq β] (f : α → β) :
    ∀ {l : List α} {a : α}, (l.map f).Nodup → a ∈ l → l.find? (f · == f a) = some a
  | [], _, _, h => absurd h List.not_mem_nil
  | b :: l, a, hd, h => by
    rw [List.map_cons, List.nodup_cons] at hd
    rcases List.mem_cons.1 h with rfl | h
    · simp
    · have hne : f b ≠ f a := fun he => hd.1 (he ▸ List.mem_map_of_mem h)
      simp [hne, find?_key_of_mem f hd.2 h]

/-- In a tree whose ids are distinct, following the id of a node reaches the node. -/
theorem findNode_of_mem {t n : ScreeDBNode} (hd : (ids t).Nodup) (hn : n ∈ subtrees t) :
    findNode n.id t = some n := by
  rw [findNode_eq_find?]
  exact find?_key_of_mem ScreeDBNode.id hd hn

/-! ## Writing a node back: `replaceNode` -/

theorem replaceIn_eq_map (i : Nat) (r : ScreeDBNode) (cs : List ScreeDBNode) :
    replaceIn i r cs = cs.map (replaceNode i r) := by
  induction cs with
  | nil => simp [replaceIn]
  | cons c cs ih => simp [replaceIn, ih]

@[simp] theorem replaceNode_self (t r : ScreeDBNode) : replaceNode t.id r t = r := by
  cases t <;> simp [replaceNode]

/-- Writing an id that the tree does not have changes nothing. -/
theorem replaceNode_of_not_mem {i : Nat} {r : ScreeDBNode} :
    ∀ {t : ScreeDBNode}, i ∉ ids t → replaceNode i r t = t := by
  intro t
  induction t with
  | leaf n =>
    intro h
    have hne : n ≠ i := fun he => h (by simp [he])
    simp [replaceNode, hne]
  | inner n ks cs ih =>
    intro h
    simp only [ids_inner, List.mem_cons, not_or] at h
    have hcs : replaceIn i r cs = cs := by
      rw [replaceIn_eq_map]
      conv_rhs => rw [← List.map_id cs]
      exact List.map_congr_left fun c hc => ih c hc fun hi => h.2 (mem_idsIn.2 ⟨c, hc, hi⟩)
    simp [replaceNode, Ne.symm h.1, hcs]

theorem replaceIn_of_not_mem {i : Nat} {r : ScreeDBNode} {cs : List ScreeDBNode}
    (h : i ∉ idsIn cs) : replaceIn i r cs = cs := by
  rw [replaceIn_eq_map]
  conv_rhs => rw [← List.map_id cs]
  exact List.map_congr_left fun c hc => replaceNode_of_not_mem fun hi => h (mem_idsIn.2 ⟨c, hc, hi⟩)

/-- Writing a node below the ancestors `ps` replaces it in place. -/
theorem replaceNode_plugAll {i : Nat} {r : ScreeDBNode} :
    ∀ {ps : List Frame} (x : ScreeDBNode), i ∉ ctxIds ps →
      replaceNode i r (plugAll ps x) = plugAll ps (replaceNode i r x)
  | [], _, _ => rfl
  | f :: fs, x, h => by
    simp only [ctxIds, List.mem_cons, List.mem_append, not_or] at h
    obtain ⟨hf, ⟨hl, hr⟩, hfs⟩ := h
    have hplug : replaceNode i r (f.plug x) = f.plug (replaceNode i r x) := by
      simp only [Frame.plug, replaceNode, Ne.symm hf, if_false, replaceIn_eq_map, List.map_append,
        List.map_cons]
      rw [← replaceIn_eq_map, ← replaceIn_eq_map, replaceIn_of_not_mem hl, replaceIn_of_not_mem hr]
    rw [plugAll_cons, replaceNode_plugAll (f.plug x) hfs, hplug, plugAll_cons]

/-! ## Height -/

@[simp] theorem height_leaf (n : Nat) : height (leaf n) = 0 := rfl

@[simp] theorem height_inner (i : Nat) (ks : List CStr) (cs : List ScreeDBNode) :
    height (inner i ks cs) = heightIn cs + 1 := rfl

@[simp] theorem heightIn_nil : heightIn [] = 0 := rfl

@[simp] theorem heightIn_cons (c : ScreeDBNode) (cs : List ScreeDBNode) :
    heightIn (c :: cs) = max (height c) (heightIn cs) := rfl

theorem height_le_heightIn {c : ScreeDBNode} :
    ∀ {cs : List ScreeDBNode}, c ∈ cs → height c ≤ heightIn cs
  | [], h => absurd h List.not_mem_nil
  | c' :: cs, h => by
    simp only [heightIn]
    rcases List.mem_cons.1 h with rfl | h
    · exact le_max_left _ _
    · exact le_trans (height_le_heightIn h) (le_max_right _ _)

/-- Each ancestor adds a level. -/
theorem height_plugAll (ps : List Frame) (x : ScreeDBNode) :
    ps.length + height x ≤ height (plugAll ps x) := by
  induction ps generalizing x with
  | nil => simp
  | cons f fs ih =>
    have hx : height x + 1 ≤ height (f.plug x) := by
      simp only [Frame.plug, height]
      exact Nat.succ_le_succ (height_le_heightIn (by simp))
    have := ih (f.plug x)
    simp only [List.length_cons, plugAll_cons]
    omega

/-! ## Parent pointers -/

/-- Every child's `parent` field names the node it hangs from. -/
def ParentsOK (parent : Nat → Option Nat) (t : ScreeDBNode) : Prop :=
  ∀ n ∈ subtrees t, ∀ c ∈ n.children, parent c.id = some n.id

/-- The `parent` fields of the hole `x` and of the nodes of the path `ps` around it. -/
def CtxParents (parent : Nat → Option Nat) : List Frame → Nat → Prop
  | [], _ => True
  | f :: fs, x =>
    parent x = some f.id ∧ (∀ c ∈ f.left ++ f.right, parent c.id = some f.id ∧ ParentsOK parent c) ∧
      CtxParents parent fs f.id

section Parents

variable {parent parent' : Nat → Option Nat}

@[simp] theorem parentsOK_leaf (n : Nat) : ParentsOK parent (leaf n) := by
  simp [ParentsOK]

theorem parentsOK_inner {i : Nat} {ks : List CStr} {cs : List ScreeDBNode} :
    ParentsOK parent (inner i ks cs) ↔ ∀ c ∈ cs, parent c.id = some i ∧ ParentsOK parent c := by
  constructor
  · intro h c hc
    refine ⟨h _ (self_mem_subtrees _) c hc, fun n hn c' hc' => h n ?_ c' hc'⟩
    simp only [subtrees_inner, List.mem_cons]
    exact .inr (mem_subtreesIn.2 ⟨c, hc, hn⟩)
  · intro h n hn c' hc'
    simp only [subtrees_inner, List.mem_cons] at hn
    rcases hn with rfl | hn
    · exact (h c' hc').1
    · obtain ⟨c, hc, hnc⟩ := mem_subtreesIn.1 hn
      exact (h c hc).2 n hnc c' hc'

/-- `ParentsOK` reads the `parent` fields of the nodes below the root only. -/
theorem ParentsOK.congr {t : ScreeDBNode} (h : ParentsOK parent t)
    (he : ∀ j ∈ idsIn t.children, parent' j = parent j) : ParentsOK parent' t := by
  intro n hn c hc
  have hc' : c ∈ subtreesIn t.children := child_mem_subtreesIn hn hc
  rw [he c.id (List.mem_map_of_mem hc')]
  exact h n hn c hc

/-- In a tree with distinct ids, `ParentsOK` reads the `parent` fields of the ids other than the
root's. -/
theorem ParentsOK.congr_ids {t : ScreeDBNode} (hd : (ids t).Nodup) (h : ParentsOK parent t)
    (he : ∀ j ∈ ids t, j ≠ t.id → parent' j = parent j) : ParentsOK parent' t := by
  rw [ids_eq_cons, List.nodup_cons] at hd
  refine h.congr fun j hj => he j ?_ ?_
  · rw [ids_eq_cons]; exact List.mem_cons_of_mem _ hj
  · rintro rfl; exact hd.1 hj

theorem parentsOK_plugAll {ps : List Frame} {x : ScreeDBNode} :
    ParentsOK parent (plugAll ps x) ↔ ParentsOK parent x ∧ CtxParents parent ps x.id := by
  induction ps generalizing x with
  | nil => simp [CtxParents]
  | cons f fs ih =>
    rw [plugAll_cons, ih, Frame.plug, parentsOK_inner]
    simp only [CtxParents, List.mem_append, List.mem_cons]
    constructor
    · rintro ⟨hc, hctx⟩
      exact ⟨(hc x (.inr (.inl rfl))).2, (hc x (.inr (.inl rfl))).1,
        fun c hc' => hc c (hc'.imp_right .inr), hctx⟩
    · rintro ⟨hx, hpx, hc, hctx⟩
      refine ⟨fun c hc' => ?_, hctx⟩
      rcases hc' with hc' | rfl | hc'
      · exact hc c (.inl hc')
      · exact ⟨hpx, hx⟩
      · exact hc c (.inr hc')

/-- The parent of a node below an ancestor is that ancestor. -/
theorem CtxParents.parent_eq {f : Frame} {fs : List Frame} {x : Nat}
    (h : CtxParents parent (f :: fs) x) : parent x = some f.id := h.1

/-- `CtxParents` reads the `parent` field of the hole and those of the path's nodes. -/
theorem CtxParents.congr {ps : List Frame} {x : Nat} (h : CtxParents parent ps x)
    (hx : parent' x = parent x) (he : ∀ j ∈ ctxIds ps, parent' j = parent j) :
    CtxParents parent' ps x := by
  induction ps generalizing x with
  | nil => trivial
  | cons f fs ih =>
    obtain ⟨h₁, h₂, h₃⟩ := h
    simp only [ctxIds, List.mem_cons, List.mem_append] at he
    refine ⟨hx.trans h₁, fun c hc => ?_, ih h₃ (he f.id (.inl rfl)) fun j hj => he j (.inr (.inr hj))⟩
    have hcids : ∀ j ∈ ids c, j ∈ idsIn f.left ∨ j ∈ idsIn f.right := by
      intro j hj
      rcases List.mem_append.1 hc with hc | hc
      · exact .inl (mem_idsIn.2 ⟨c, hc, hj⟩)
      · exact .inr (mem_idsIn.2 ⟨c, hc, hj⟩)
    refine ⟨(he c.id (.inr (.inl (hcids _ (id_mem_ids c))))).trans (h₂ c hc).1, ?_⟩
    refine (h₂ c hc).2.congr fun j hj => he j (.inr (.inl (hcids j ?_)))
    cases c with
    | leaf => simp at hj
    | inner => simp only [children_inner] at hj; simp [hj]

end Parents

end ScreeDBNode

end ScreeDB
