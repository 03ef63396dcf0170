import ScreeDB.Order.FoldMax
import ScreeDB.Order.Rank
import ScreeDB.Tree.Build
import ScreeDB.Proofs.Inv
import ScreeDB.Proofs.Client

/-!
# `RebuildNodes`

`RebuildNodes` reads the list of leaves from `root->head`, makes a leaf node with a copy of the
hashes for each leaf, keeps the non-empty ones with their largest key, sorts those by it and
links them from left to right. For every finite acyclic list whose non-empty leaves hold
separated key sets (`Separated`), it builds a well-formed index whose leaves are the non-empty
leaves in ascending order of their keys, and `LeafSearch` finds for every stored key the leaf that
holds it (`rebuildNodes_spec`).

* `leafList_eq`: the walk from `root->head` reads the whole list;
* `maxKey_eq_none`, `maxKey_some`: the slot loop finds the largest key of the occupied slots
  (`FoldMax`);
* `foldl_recoverLeaf`: the first loop, leaf by leaf (`recoveredFrom`, `Recovered`);
* `ascending_sortRecovered`: the sorted leaf nodes are what the second loop needs (`Ascending`);
* `rebuildNodes_spec`: the index left is empty exactly when every leaf is, and is otherwise the
  index `Rebuilt` describes.
-/

namespace ScreeDB

open ScreeDBNode ScreeDBLeaf

/-! ## The list of leaves -/

/-- `L` is the list of leaves from the link `h` on: each leaf links to the next, the last to
none. -/
def IsLeafList (p : Pool) : Option Nat → List Nat → Prop
  | h, [] => h = none
  | h, a :: L => h = some a ∧ IsLeafList p (p.leaves a).next L

/-- The walk reads the list when it has a step for each leaf. -/
theorem leafChain_of_isLeafList (p : Pool) : ∀ (L : List Nat) {h : Option Nat} {fuel : Nat},
    IsLeafList p h L → L.length ≤ fuel → leafChain p fuel h = L
  | [], h, fuel, hl, _ => by
    rw [show h = none from hl]
    cases fuel <;> rfl
  | _ :: _, _, 0, _, hf => absurd hf (by simp)
  | a :: L, _, fuel + 1, ⟨rfl, hl⟩, hf => by
    rw [leafChain, leafChain_of_isLeafList p L hl (by simpa using hf)]

/-- A list of distinct allocated leaves from `root->head` is what `RebuildNodes` walks. -/
theorem leafList_eq {p : Pool} {L : List Nat} (hL : IsLeafList p p.root.head L) (hnd : L.Nodup)
    (hlt : ∀ a ∈ L, a < p.alloc) : p.leafList = L := by
  have hsub : L.Subperm (List.range p.alloc) :=
    List.subperm_of_subset hnd fun a ha => List.mem_range.2 (hlt a ha)
  exact leafChain_of_isLeafList p L hL (by simpa using hsub.length_le)

/-- The key sets of two distinct leaves of the list lie one below the other. -/
def Separated (p : Pool) (L : List Nat) : Prop :=
  ∀ a ∈ L, ∀ b ∈ L, a ≠ b →
    (∀ k k', (p.leaves a).Holds k → (p.leaves b).Holds k' → k < k') ∨
      (∀ k k', (p.leaves a).Holds k → (p.leaves b).Holds k' → k' < k)

/-! ## The largest key of a leaf -/

section MaxKey

variable {l : ScreeDBLeaf}

/-- The slot loop of `RebuildNodes` is a running maximum of the keys of the occupied slots. -/
theorem maxKey_eq_foldl (l : ScreeDBLeaf) :
    maxKey l = slotsDown.foldl
      (FoldMax.step (fun s => l.hashes s ≠ 0) fun s => (l.kv_keys s).data) none := by
  unfold maxKey
  congr 1
  funext acc s
  by_cases h : l.hashes s = 0
  · simp [FoldMax.step, h]
  · cases acc <;> simp [FoldMax.step, h, strcmp_neg_iff]

theorem maxKey_eq_none : maxKey l = none ↔ l.Empty := by
  rw [maxKey_eq_foldl, FoldMax.foldl_step_eq_none]
  simp [ScreeDBLeaf.Empty, mem_slotsDown]

/-- The largest key is held, and no held key is larger. -/
theorem maxKey_some {m : CStr} (h : maxKey l = some m) : l.Holds m ∧ ∀ k, l.Holds k → k ≤ m := by
  rw [maxKey_eq_foldl] at h
  obtain ⟨hfrom, -, hall⟩ := FoldMax.foldl_step_some _ _ m h
  refine ⟨?_, fun k ⟨s, hs, hk⟩ => hk ▸ hall s (mem_slotsDown s) hs⟩
  rcases hfrom with h | ⟨s, -, hs, hk⟩
  · cases h
  · exact ⟨s, hs, hk⟩

end MaxKey

/-! ## The first loop -/

/-- The leaf nodes the first loop keeps, from the id `n` on: the `i`-th leaf of the list has the
node `n + i`, kept with its largest key when it is not empty. -/
def recoveredFrom (p : Pool) : Nat → List Nat → List (Nat × CStr)
  | _, [] => []
  | n, a :: L => ((maxKey (p.leaves a)).map (n, ·)).toList ++ recoveredFrom p (n + 1) L

theorem mem_recoveredFrom {p : Pool} {e : Nat × CStr} :
    ∀ {n : Nat} {L : List Nat}, e ∈ recoveredFrom p n L ↔
      ∃ i, ∃ h : i < L.length, e.1 = n + i ∧ maxKey (p.leaves L[i]) = some e.2
  | _, [] => by simp [recoveredFrom]
  | n, a :: L => by
    rw [recoveredFrom, List.mem_append, mem_recoveredFrom]
    constructor
    · rintro (he | ⟨i, hi, he, hm⟩)
      · obtain ⟨m, hm, rfl⟩ : ∃ m, maxKey (p.leaves a) = some m ∧ (n, m) = e := by
          simpa using he
        exact ⟨0, by simp, rfl, hm⟩
      · exact ⟨i + 1, by simpa using hi, by rw [he]; omega, hm⟩
    · rintro ⟨_ | i, hi, he, hm⟩
      · left
        obtain ⟨e₁, e₂⟩ := e
        simp only [List.getElem_cons_zero] at hm
        simp only [Nat.add_zero] at he
        simp [hm, he]
      · exact .inr ⟨i, by simpa using hi, by rw [he]; omega, hm⟩

/-- The kept nodes come in ascending order of ids. -/
theorem recoveredFrom_pairwise (p : Pool) : ∀ (n : Nat) (L : List Nat),
    (recoveredFrom p n L).Pairwise fun e e' => e.1 < e'.1
  | _, [] => by simp [recoveredFrom]
  | n, a :: L => by
    rw [recoveredFrom, List.pairwise_append]
    refine ⟨by cases maxKey (p.leaves a) <;> simp, recoveredFrom_pairwise p (n + 1) L, ?_⟩
    intro e he e' he'
    obtain ⟨m, -, rfl⟩ : ∃ m, maxKey (p.leaves a) = some m ∧ (n, m) = e := by simpa using he
    obtain ⟨i, -, hi, -⟩ := mem_recoveredFrom.1 he'
    simp only [hi]
    omega

theorem recoveredFrom_eq_nil {p : Pool} :
    ∀ {n : Nat} {L : List Nat}, recoveredFrom p n L = [] ↔ ∀ a ∈ L, (p.leaves a).Empty
  | _, [] => by simp [recoveredFrom]
  | n, a :: L => by
    rw [recoveredFrom, List.append_eq_nil_iff, recoveredFrom_eq_nil, List.forall_mem_cons,
      ← maxKey_eq_none]
    cases maxKey (p.leaves a) <;> simp

/-- What the first loop leaves in volatile memory, from `v`, over the leaves `L`: the leaf node
`v.next_id + i` points to the `i`-th leaf, with a copy of its hashes and no parent; older nodes
are as they were. -/
structure Recovered (p : Pool) (v : Volatile) (L : List Nat) (v' : Volatile) : Prop where
  next_id : v'.next_id = v.next_id + L.length
  top : v'.top_ = v.top_
  below : ∀ n < v.next_id, v'.leaf n = v.leaf n ∧ v'.hashes n = v.hashes n ∧
    v'.parent n = v.parent n
  node : ∀ i (h : i < L.length), v'.leaf (v.next_id + i) = L[i] ∧
    v'.hashes (v.next_id + i) = (p.leaves L[i]).hashes ∧ v'.parent (v.next_id + i) = none

theorem recoverLeaf_eq (p : Pool) (acc : List (Nat × CStr)) (v : Volatile) (a : Nat) :
    recoverLeaf p (acc, v) a = (acc ++ ((maxKey (p.leaves a)).map (v.next_id, ·)).toList,
      (((v.newLeafNode none).2.setLeafPtr v.next_id a).setHashes v.next_id (p.leaves a).hashes)) := by
  cases h : maxKey (p.leaves a) <;> simp [recoverLeaf, h]

/-- **The first loop**, leaf by leaf. -/
theorem foldl_recoverLeaf (p : Pool) : ∀ (L : List Nat) (acc : List (Nat × CStr)) (v : Volatile),
    (L.foldl (recoverLeaf p) (acc, v)).1 = acc ++ recoveredFrom p v.next_id L ∧
      Recovered p v L (L.foldl (recoverLeaf p) (acc, v)).2
  | [], acc, v => ⟨by simp [recoveredFrom], rfl, rfl, fun _ _ => ⟨rfl, rfl, rfl⟩,
      fun _ h => absurd h (by simp)⟩
  | a :: L, acc, v => by
    rw [List.foldl_cons, recoverLeaf_eq]
    obtain ⟨hacc, hnext, htop, hbelow, hnode⟩ := foldl_recoverLeaf p L
      (acc ++ ((maxKey (p.leaves a)).map (v.next_id, ·)).toList)
      (((v.newLeafNode none).2.setLeafPtr v.next_id a).setHashes v.next_id (p.leaves a).hashes)
    simp only [Volatile.setHashes_next_id, Volatile.setLeafPtr_next_id,
      Volatile.newLeafNode_next_id] at hacc hnext hbelow hnode
    refine ⟨by rw [hacc, recoveredFrom, List.append_assoc], ?_⟩
    refine ⟨by rw [hnext]; simp; omega, by simpa using htop, fun n hn => ?_, fun i hi => ?_⟩
    · -- the node made for `a` and the older ones stay as the later turns leave them
      have hne : n ≠ v.next_id := Nat.ne_of_lt hn
      simpa [hne] using hbelow n (by omega)
    · rcases i with _ | i
      · simpa using hbelow v.next_id (by omega)
      · have := hnode i (by simpa using hi)
        simpa [Nat.add_assoc, Nat.add_comm 1 i] using this

/-! ## The sort -/

/-- `leaves.sort` leaves the nodes in ascending order of their largest keys. -/
theorem sortRecovered_pairwise (R : List (Nat × CStr)) :
    (sortRecovered R).Pairwise fun e e' => e.2 ≤ e'.2 :=
  Rank.pairwise_key_le_mergeSort Prod.snd
    (fun a b => by rw [decide_eq_true_iff, strcmp_nonpos_iff]) R

theorem sortRecovered_perm (R : List (Nat × CStr)) : (sortRecovered R).Perm R :=
  List.mergeSort_perm R _

section Ascend

variable {p : Pool} {v v₁ : Volatile} {L : List Nat}

/-- A node the first loop keeps points to a leaf of the list and carries its largest key. -/
theorem Recovered.mem (hR : Recovered p v L v₁) {e : Nat × CStr}
    (he : e ∈ recoveredFrom p v.next_id L) :
    ∃ i, ∃ h : i < L.length, e.1 = v.next_id + i ∧ v₁.leaf e.1 = L[i] ∧
      maxKey (p.leaves L[i]) = some e.2 := by
  obtain ⟨i, hi, he1, hm⟩ := mem_recoveredFrom.1 he
  exact ⟨i, hi, he1, he1 ▸ (hR.node i hi).1, hm⟩

/-- **The sorted leaf nodes** are what the second loop needs: each holds its largest key, and the
keys of every later one lie above it. Sorted by largest key, two of them come in the order of their
key sets, which `Separated` puts one below the other. -/
theorem ascending_sortRecovered (hR : Recovered p v L v₁) (hnd : L.Nodup)
    (hsep : Separated p L) :
    Ascending (nodeKeys p v₁) (v.next_id + L.length)
      (sortRecovered (recoveredFrom p v.next_id L)) := by
  have hperm := sortRecovered_perm (recoveredFrom p v.next_id L)
  have hnode : ∀ e ∈ sortRecovered (recoveredFrom p v.next_id L), ∃ i, ∃ h : i < L.length,
      e.1 = v.next_id + i ∧ v₁.leaf e.1 = L[i] ∧ maxKey (p.leaves L[i]) = some e.2 :=
    fun e he => hR.mem (hperm.mem_iff.1 he)
  have hids : ((sortRecovered (recoveredFrom p v.next_id L)).map Prod.fst).Nodup :=
    (hperm.map Prod.fst).nodup_iff.2
      ((List.pairwise_map.2 (recoveredFrom_pairwise p v.next_id L)).imp Nat.ne_of_lt)
  refine ⟨fun e he => ?max, ?above, hids, fun e he => ?lt⟩
  case max =>
    obtain ⟨i, hi, -, hleaf, hm⟩ := hnode e he
    simpa only [nodeKeys, hleaf] using maxKey_some hm
  case lt =>
    obtain ⟨i, hi, he1, -⟩ := hnode e he
    omega
  case above =>
    have hne := List.pairwise_map.1 hids
    refine ((sortRecovered_pairwise _).and hne).imp_of_mem fun he he' ⟨hle, hne'⟩ k hk => ?_
    obtain ⟨i, hi, he1, -, hm⟩ := hnode _ he
    obtain ⟨j, hj, he1', hleaf', hm'⟩ := hnode _ he'
    have hij : L[i] ≠ L[j] := fun h => hne' (by rw [he1, he1', (hnd.getElem_inj_iff).1 h])
    have hk' : (p.leaves L[j]).Holds k := by simpa only [nodeKeys, hleaf'] using hk
    rcases hsep _ (List.getElem_mem hi) _ (List.getElem_mem hj) hij with h | h
    · exact h _ k (maxKey_some hm).1 hk'
    · -- the largest key of the later node would lie below that of the earlier one
      exact absurd hle (not_le.2 (h _ _ (maxKey_some hm).1 (maxKey_some hm').1))

end Ascend

/-- The kept nodes point, in their order, to the non-empty leaves of the list. -/
theorem map_recoveredFrom (p : Pool) {f : Nat → Nat} :
    ∀ {n : Nat} {L : List Nat}, (∀ i (h : i < L.length), f (n + i) = L[i]) →
      (recoveredFrom p n L).map (f ∘ Prod.fst) = L.filter fun a => !decide (p.leaves a).Empty
  | _, [], _ => rfl
  | n, a :: L, hf => by
    have ha : f n = a := hf 0 (by simp)
    have hL : ∀ i (h : i < L.length), f (n + 1 + i) = L[i] := fun i hi => by
      rw [show n + 1 + i = n + (i + 1) by omega]
      exact hf (i + 1) (by simpa using hi)
    rw [recoveredFrom, List.map_append, map_recoveredFrom p hL, List.filter_cons]
    cases hm : maxKey (p.leaves a) with
    | none => simp [maxKey_eq_none.1 hm]
    | some m =>
      have hne : ¬ (p.leaves a).Empty := fun h => by simp [maxKey_eq_none.2 h] at hm
      simp [hne, ha]

/-! ## `RebuildNodes` -/

/-- `RebuildNodes` on a list of distinct allocated leaves: the second loop over the sorted nodes
that the first loop kept, after it. -/
theorem rebuildNodes_eq {p : Pool} {L : List Nat} (hL : IsLeafList p p.root.head L)
    (hnd : L.Nodup) (hlt : ∀ a ∈ L, a < p.alloc) (v : Volatile) :
    rebuildNodes p v = rebuildLoop (sortRecovered (recoveredFrom p v.next_id L))
      ((L.foldl (recoverLeaf p) ([], v)).2.setTop none) ∧
      Recovered p v L (L.foldl (recoverLeaf p) ([], v)).2 := by
  obtain ⟨hacc, hR⟩ := foldl_recoverLeaf p L [] v
  refine ⟨?_, hR⟩
  rw [rebuildNodes, leafList_eq hL hnd hlt]
  generalize L.foldl (recoverLeaf p) ([], v) = r at hacc ⊢
  obtain ⟨acc, v₁⟩ := r
  rw [List.nil_append] at hacc
  subst hacc
  rfl

/-- The index `RebuildNodes` leaves over the list `L`: a well-formed tree over the keys of the
leaves its leaf nodes point to, whose leaves point to the non-empty leaves of `L` in ascending order
of their largest keys, each with a copy of its leaf's hashes, and in which `LeafSearch` finds the
leaf of every key a leaf of `L` holds. -/
structure Rebuilt (p : Pool) (L : List Nat) (v : Volatile) (T : ScreeDBNode) : Prop where
  tree : TreeOK (nodeKeys p v) v T
  leaves_perm : ((leafIds T).map v.leaf).Perm (L.filter fun a => !decide (p.leaves a).Empty)
  leaves_sorted : ((leafIds T).map v.leaf).Pairwise fun a b =>
    ∀ m m', maxKey (p.leaves a) = some m → maxKey (p.leaves b) = some m' → m < m'
  cache : ∀ n ∈ leafIds T, v.hashes n = (p.leaves (v.leaf n)).hashes
  search : ∀ a ∈ L, ∀ k, (p.leaves a).Holds k →
    ∃ n ∈ leafIds T, v.leaf n = a ∧ leafSearchFrom k T = some n

section Spec

variable {p : Pool} {v v₁ : Volatile} {L : List Nat}

/-- The first turn of the second loop: the first leaf node alone is the index. -/
theorem buildInv_first (hR : Recovered p v L v₁) {i : Nat} (hi : i < L.length) :
    BuildInv (nodeKeys p v₁) (v.next_id + L.length)
      ((v₁.setTop none).setTop (some (.leaf (v.next_id + i)))) [] (v.next_id + i) := by
  refine ⟨⟨.leaf (v.next_id + i), rfl, ⟨⟨0, wf_leaf.2 ⟨rfl, fun k _ => Bound.mem_none_none k⟩⟩,
    by simp, ?_, parentsOK_leaf _, ?_⟩, by simp, fun j hj => .inl (by simpa using hj)⟩,
    by simp [hR.next_id]⟩
  · simp [hR.next_id, hi]
  · -- the first loop made the node without a parent
    simpa using (hR.node i hi).2.2

/-- What the second loop built over the sorted kept nodes is the index `Rebuilt` describes. -/
theorem rebuilt_of_built (hR : Recovered p v L v₁) {R : List (Nat × CStr)}
    (hA : Ascending (nodeKeys p v₁) (v.next_id + L.length) R)
    (hperm : R.Perm (recoveredFrom p v.next_id L)) {v' : Volatile} {T : ScreeDBNode}
    (hleaves : leafIds T = R.map Prod.fst) (hT : TreeOK (nodeKeys p v₁) v' T)
    (hhash : v'.hashes = v₁.hashes) (hleaf : v'.leaf = v₁.leaf) : Rebuilt p L v' T := by
  have hS : nodeKeys p v' = nodeKeys p v₁ := by
    funext n k
    simp only [nodeKeys, hleaf]
  have hmap : (leafIds T).map v'.leaf = R.map (v₁.leaf ∘ Prod.fst) := by
    rw [hleaves, hleaf, List.map_map]
  refine ⟨hS ▸ hT, ?perm, ?sorted, ?cache, ?search⟩
  case perm =>
    rw [hmap, ← map_recoveredFrom p (f := v₁.leaf) fun i hi => (hR.node i hi).1]
    exact hperm.map _
  case sorted =>
    -- the largest key of each node lies below the keys of every later one
    rw [hmap, List.pairwise_map]
    refine hA.above.imp_of_mem fun he he' habove m m' hm hm' => ?_
    obtain ⟨i, hi, -, hleaf₁, hmi⟩ := hR.mem (hperm.mem_iff.1 he)
    obtain ⟨j, hj, -, hleaf₂, hmj⟩ := hR.mem (hperm.mem_iff.1 he')
    simp only [Function.comp_apply, hleaf₁, hleaf₂, hmi, hmj, Option.some.injEq] at hm hm'
    subst hm hm'
    exact habove _ (hA.max _ he').1
  case cache =>
    intro n hn
    rw [hleaves] at hn
    obtain ⟨e, he, rfl⟩ := List.mem_map.1 hn
    obtain ⟨i, hi, he1, hleaf₁, -⟩ := hR.mem (hperm.mem_iff.1 he)
    rw [hhash, hleaf, hleaf₁, he1]
    exact (hR.node i hi).2.1
  case search =>
    intro a ha k hk
    obtain ⟨i, hi, rfl⟩ := List.getElem_of_mem ha
    -- a leaf that holds a key is not empty, so the first loop kept its node
    obtain ⟨m, hm⟩ : ∃ m, maxKey (p.leaves L[i]) = some m :=
      Option.ne_none_iff_exists'.1 fun h => empty_iff_forall_not_holds.1 (maxKey_eq_none.1 h) k hk
    have he : (v.next_id + i, m) ∈ R := hperm.mem_iff.2 (mem_recoveredFrom.2 ⟨i, hi, rfl, hm⟩)
    have hn : v.next_id + i ∈ leafIds T := by
      rw [hleaves]
      exact List.mem_map.2 ⟨_, he, rfl⟩
    obtain ⟨d, hwf⟩ := hT.wf
    refine ⟨_, hn, by rw [hleaf]; exact (hR.node i hi).1, leafSearchFrom_of_mem T hwf hn ?_⟩
    simpa only [nodeKeys, (hR.node i hi).1] using hk

/-- **The two loops of `RebuildNodes`.** The first keeps the nodes of the non-empty leaves
(`Recovered`), sorted they ascend (`Ascending`); the second leaves no index when none was kept,
and otherwise runs from the first kept node alone as the index. -/
theorem rebuildNodes_cases (hL : IsLeafList p p.root.head L) (hnd : L.Nodup)
    (hlt : ∀ a ∈ L, a < p.alloc) (hsep : Separated p L) (v : Volatile) :
    ∃ v₁ R, Recovered p v L v₁ ∧ Ascending (nodeKeys p v₁) (v.next_id + L.length) R ∧
      R.Perm (recoveredFrom p v.next_id L) ∧
      (R = [] ∧ rebuildNodes p v = v₁.setTop none ∨
        ∃ i mk rest, i < L.length ∧ R = (v.next_id + i, mk) :: rest ∧
          rebuildNodes p v =
            rebuildLoop R ((v₁.setTop none).setTop (some (.leaf (v.next_id + i))))) := by
  obtain ⟨heq, hR⟩ := rebuildNodes_eq hL hnd hlt v
  have hperm := sortRecovered_perm (recoveredFrom p v.next_id L)
  refine ⟨_, _, hR, ascending_sortRecovered hR hnd hsep, hperm, ?_⟩
  rw [heq]
  generalize sortRecovered (recoveredFrom p v.next_id L) = R at hperm ⊢
  rcases R with _ | ⟨⟨ln, mk⟩, rest⟩
  · exact .inl ⟨rfl, rfl⟩
  · -- the first kept node is the node of the `i`-th leaf
    obtain ⟨i, hi, hln, -⟩ := hR.mem (hperm.mem_iff.1 List.mem_cons_self)
    simp only at hln
    subst hln
    exact .inr ⟨i, mk, rest, hi, rfl, rebuildLoop_cons_none (by simp)⟩

/-- `RebuildNodes` leaves no index exactly when every leaf of the list is empty. -/
theorem rebuildNodes_top_none (hL : IsLeafList p p.root.head L) (hnd : L.Nodup)
    (hlt : ∀ a ∈ L, a < p.alloc) (hsep : Separated p L) (v : Volatile) :
    (rebuildNodes p v).top_ = none ↔ ∀ a ∈ L, (p.leaves a).Empty := by
  obtain ⟨v₁, R, hR, hA, hperm, ⟨rfl, heq⟩ | ⟨i, mk, rest, hi, rfl, heq⟩⟩ :=
    rebuildNodes_cases hL hnd hlt hsep v
  · -- nothing was kept: every leaf is empty, and there is no index
    have hnil : recoveredFrom p v.next_id L = [] := (List.Perm.nil_eq hperm).symm
    rw [heq]
    simpa using recoveredFrom_eq_nil.1 hnil
  · -- the first kept node is the node of a non-empty leaf, and the loop leaves an index
    rw [heq]
    obtain ⟨⟨T, htop, -⟩, -⟩ := rebuildLoop_built rest (buildInv_first hR hi) hA (by simp)
    refine ⟨fun h => by simp [htop] at h, fun hall => ?_⟩
    obtain ⟨j, hj, -, -, hm⟩ := hR.mem (hperm.mem_iff.1 List.mem_cons_self)
    exact absurd (maxKey_eq_none.2 (hall _ (List.getElem_mem hj))) (by simp [hm])

/-- The index `RebuildNodes` leaves is the one `Rebuilt` describes. -/
theorem rebuildNodes_rebuilt (hL : IsLeafList p p.root.head L) (hnd : L.Nodup)
    (hlt : ∀ a ∈ L, a < p.alloc) (hsep : Separated p L) (v : Volatile) :
    ∀ T, (rebuildNodes p v).top_ = some T → Rebuilt p L (rebuildNodes p v) T := by
  obtain ⟨v₁, R, hR, hA, hperm, ⟨rfl, heq⟩ | ⟨i, mk, rest, hi, rfl, heq⟩⟩ :=
    rebuildNodes_cases hL hnd hlt hsep v
  · intro T hT
    rw [heq, Volatile.setTop_top_] at hT
    cases hT
  · rw [heq]
    obtain ⟨⟨T, htop, hT, hleaves⟩, hhash, hleaf⟩ :=
      rebuildLoop_built rest (buildInv_first hR hi) hA (by simp)
    intro T' hT'
    obtain rfl : T = T' := Option.some.inj (htop.symm.trans hT')
    exact rebuilt_of_built hR hA hperm (by simpa using hleaves) hT (by simpa using hhash)
      (by simpa using hleaf)

/-- **`RebuildNodes`.** On a list of distinct allocated leaves from `root->head` whose non-empty
leaves hold separated key sets, `RebuildNodes` leaves no index exactly when every leaf is empty,
and otherwise the index `Rebuilt` describes. -/
theorem rebuildNodes_spec (hL : IsLeafList p p.root.head L) (hnd : L.Nodup)
    (hlt : ∀ a ∈ L, a < p.alloc) (hsep : Separated p L) (v : Volatile) :
    ((rebuildNodes p v).top_ = none ↔ ∀ a ∈ L, (p.leaves a).Empty) ∧
      ∀ T, (rebuildNodes p v).top_ = some T → Rebuilt p L (rebuildNodes p v) T :=
  ⟨rebuildNodes_top_none hL hnd hlt hsep v, rebuildNodes_rebuilt hL hnd hlt hsep v⟩

/-- A leaf holding the one key `k` in slot `0`, linked to `next`. -/
def oneKeyLeaf (k : CStr) (next : Option Nat) : ScreeDBLeaf :=
  ⟨fun s => if s.val = 0 then keyHash (fun _ => 0) k else 0, next,
    fun s => if s.val = 0 then ⟨k, none⟩ else .empty, fun _ => .empty⟩

theorem oneKeyLeaf_holds {k k' : CStr} {next : Option Nat} :
    (oneKeyLeaf k next).Holds k' ↔ k' = k := by
  constructor
  · rintro ⟨s, hs, rfl⟩
    by_cases h0 : s.val = 0
    · simp [oneKeyLeaf, h0, ScreeDBString.data]
    · exact absurd (by simp [oneKeyLeaf, h0]) hs
  · rintro rfl
    exact ⟨⟨0, by decide⟩, by simpa [oneKeyLeaf] using keyHash_ne_zero _ _, by
      simp [oneKeyLeaf, ScreeDBString.data]⟩

theorem byte_succ_ne_zero (a : Nat) : UInt8.ofNat (a % 200 + 1) ≠ 0 := by
  rw [ne_eq, ← UInt8.toNat_inj, UInt8.toNat_ofNat', UInt8.toNat_zero]
  omega

/-- The one-byte key `a + 1`. -/
def byteKey (a : Nat) : CStr :=
  ⟨[UInt8.ofNat (a % 200 + 1)], fun _ hb => (List.mem_singleton.1 hb) ▸ byte_succ_ne_zero a⟩

/-- Six leaves `0` to `5`, each holding one key, listed from `root->head` as `5, 4, …, 0`: leaf
`a` holds the key `(5 * a + 3) % 6 + 1`, so the list is not in key order. -/
def sixLeaves : Pool :=
  ⟨⟨1, 0, some 5⟩, fun a => oneKeyLeaf (byteKey ((5 * a + 3) % 6))
    (if a = 0 then none else some (a - 1)), 6⟩

/-- `RebuildNodes` over six non-empty leaves out of key order: the loop links the six leaf nodes
through `LeafUpdateParentsAfterSplit`, inserting into the top node and then splitting it, and
leaves the index `Rebuilt` describes, with a leaf node for each leaf. -/
theorem rebuildNodes_spec_sixLeaves :
    IsLeafList sixLeaves sixLeaves.root.head [5, 4, 3, 2, 1, 0] ∧ [5, 4, 3, 2, 1, 0].Nodup ∧
      (∀ a ∈ [5, 4, 3, 2, 1, 0], a < sixLeaves.alloc) ∧ Separated sixLeaves [5, 4, 3, 2, 1, 0] ∧
      ∃ T, (rebuildNodes sixLeaves .empty).top_ = some T ∧
        Rebuilt sixLeaves [5, 4, 3, 2, 1, 0] (rebuildNodes sixLeaves .empty) T ∧
        (leafIds T).length = 6 := by
  have hL : IsLeafList sixLeaves sixLeaves.root.head [5, 4, 3, 2, 1, 0] := by
    simp only [IsLeafList]
    decide
  -- the keys of two leaves differ, and each leaf holds its key alone
  have hsep : Separated sixLeaves [5, 4, 3, 2, 1, 0] := by
    intro a ha b hb hab
    have hne : byteKey ((5 * a + 3) % 6) ≠ byteKey ((5 * b + 3) % 6) := by
      simp only [List.mem_cons, List.not_mem_nil, or_false] at ha hb
      rcases ha with rfl | rfl | rfl | rfl | rfl | rfl <;>
        rcases hb with rfl | rfl | rfl | rfl | rfl | rfl <;> first | exact absurd rfl hab | decide
    simp only [sixLeaves, oneKeyLeaf_holds]
    rcases lt_or_gt_of_ne hne with h | h
    · exact .inl fun k k' hk hk' => hk ▸ hk' ▸ h
    · exact .inr fun k k' hk hk' => hk ▸ hk' ▸ h
  have hspec := rebuildNodes_spec hL (by decide) (by decide) hsep .empty
  -- a leaf holds a key, so there is an index
  obtain ⟨T, hT⟩ : ∃ T, (rebuildNodes sixLeaves .empty).top_ = some T := by
    refine Option.ne_none_iff_exists'.1 fun h => ?_
    exact absurd (hspec.1.1 h 5 (by decide) ⟨0, by decide⟩)
      (by simpa [sixLeaves, oneKeyLeaf] using keyHash_ne_zero _ _)
  have hR := hspec.2 T hT
  refine ⟨hL, by decide, by decide, hsep, T, hT, hR, ?_⟩
  -- one leaf node for each of the six non-empty leaves
  have hlen := hR.leaves_perm.length_eq
  rw [List.length_map] at hlen
  rw [hlen]
  decide

end Spec

end ScreeDB
