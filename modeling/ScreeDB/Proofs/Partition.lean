import ScreeDB.Tree.Cells
import ScreeDB.Proofs.Space

/-!
# What the index stands for

On every reachable tree the volatile index is a partition of the key space (`Tree/Partition`):
its leaf nodes, from left to right, own consecutive intervals, the leaf each of them points to
holds keys of its interval only, and `LeafSearch` is the search in the partition. The shape of
the tree (its height, where its inner nodes were split) decides how many nodes `LeafSearch`
visits, never which leaf it reaches.

* `Volatile.cells`: the cells of the index, none when `top_` is null;
* `IndexOK.partition`: the index of a running tree is a partition;
* `put_step_cells`: what one `Put` does to the list of cells; `treeS_cells`: the two cells the
  split of `cmdsS 49` leaves;
* `reachable_partition`: the partition on every reachable tree.

Between two reopenings the partition only gets finer. Seen through `Volatile.route`, the map
from keys to the leaf nodes `LeafSearch` reaches:

* `put_route`: `Put` gives an empty index one cell, or keeps the partition, or cuts the cell of
  the leaf node it split at the split key (`Bound.CutAbove`), the upper part going to the new leaf
  node; `put_cuts_cell` on every reachable tree; `put_cells`: the same on the list of cells;
* `Cmd.step_route`: every call but a reopening keeps or refines the partition, and a cell of a
  leaf node that existed before only loses keys;
* `Follows`: what a run of such calls keeps relative to its start, and `session_cells_shrink`:
  the same over every run.

A reopening draws the partition anew: `RebuildNodes` cuts the key space at the largest keys of the
non-empty leaves, the last cell unbounded (`rebuildNodes_cells`, `openTree_cells`).
-/

namespace ScreeDB

open ScreeDBNode Bound

/-- The cells of the index: its leaf nodes from left to right, with the upper bounds of their
intervals. -/
def Volatile.cells (v : Volatile) : List (Nat × Option CStr) :=
  match v.top_ with
  | none => []
  | some T => leafBounds none T

theorem Volatile.cells_of_top {v : Volatile} {T : ScreeDBNode} (h : v.top_ = some T) :
    v.cells = leafBounds none T := by
  simp only [Volatile.cells, h]

variable {rodata : Int → UInt8} {p : Pool} {v : Volatile} {T : ScreeDBNode}

/-- The index of a running tree cuts the key space into one interval per leaf node, in order;
every key a leaf node's leaf holds lies in its interval, and `LeafSearch` searches the cells. -/
theorem IndexOK.partition (hI : IndexOK rodata p v T) :
    Cuts none (leafBounds none T) none ∧ (leafBounds none T).map Prod.fst = leafIds T ∧
      (∀ n ∈ leafIds T, ∀ k, (p.leaves (v.leaf n)).Holds k → InCell none (leafBounds none T) n k) ∧
      ∀ k, leafSearchFrom k T = cellOf k (leafBounds none T) := by
  obtain ⟨d, hwf⟩ := hI.tree.wf
  exact ⟨WF.cuts T hwf (lt_none_left none), WF.leafBounds_fst T hwf,
    fun n hn k hk => WF.inCell T hwf (lt_none_left none) hn hk,
    fun k => WF.leafSearchFrom_eq_cellOf T hwf (le_none_right _)⟩

/-! ## What `Put` does to the cells, and the split of `cmdsS 49` -/

section Cells

variable {key : Slice} {cs : List Pool}

/-- The cells of an index that is not empty change only with its tree. -/
theorem Volatile.cells_congr {v' : Volatile} (h : v'.top_ = v.top_) : v'.cells = v.cells := by
  simp only [Volatile.cells, h]

/-- **What `Put` does to the cells.** With no index, the new head leaf node is the one cell; a
key's own slot keeps the cells; a split of the leaf node `n` of the key cuts its cell at the split
key, the upper part becoming the new leaf node's cell, right after it. -/
theorem put_step_cells (hI : Inv rodata ⟨p, v, none, cs⟩) (hk : key.IsCStr) (value : Slice) :
    (v.top_ = none ∧
        ((Cmd.put key value).step rodata ⟨p, v, none, cs⟩).2.vm.cells = [(v.next_id, none)]) ∨
      ((Cmd.put key value).step rodata ⟨p, v, none, cs⟩).2.vm.cells = v.cells ∨
      ∃ n L b R, leafSearch v key = some n ∧ v.cells = L ++ (n, b) :: R ∧
        ((Cmd.put key value).step rodata ⟨p, v, none, cs⟩).2.vm.cells =
          L ++ (n, some (splitKey (p.leaves (v.leaf n)) key.cstr)) :: (v.next_id, b) :: R := by
  rcases put_cases hI hk value with ⟨htop, -⟩ | ⟨n, s, -, -, -, -, hrun⟩ |
    ⟨n, hn, hkey, hfull, p', vw, hrun, hc⟩
  · have hsearch : leafSearch v key = none := by simp [leafSearch, htop]
    rw [step_put_of_run (put_run_head rodata key value hsearch)]
    exact .inl ⟨htop, rfl⟩
  · rw [step_put_of_run hrun]
    exact .inr (.inl (Volatile.cells_congr (by simp)))
  · obtain ⟨T, htop, hT, hln, hkeys⟩ := hc.index hI hn hkey hfull
    obtain ⟨-, -, ⟨T', htop', -⟩, -, -, -, -⟩ := split_walk hc.start hT.tree htop hln hkeys
    -- the index is the path to `n`; the walk cuts `n`'s cell and puts the new one after it
    obtain ⟨ps, rfl, hw, hfuel⟩ := hc.start.walkInv hT.tree htop hln hkeys
    obtain ⟨_, _, _, hctx, -⟩ := hw.wf
    refine .inr (.inr ⟨n, (ctxCells ps none).1, (ctxCells ps none).2.1, (ctxCells ps none).2.2,
      hn, ?_, ?_⟩)
    · rw [Volatile.cells_of_top htop, leafBounds_plugAll none hctx.cells.1, leafBounds_leaf]
      simp
    · rw [step_put_of_run hrun, Volatile.cells_of_top htop', walk_cells hw hfuel T' htop']
      simp

end Cells

/-- The one cell of `treeS48`, before the split. -/
theorem treeS48_cells : treeS48.vm.cells = [(0, none)] := by
  decide +kernel

/-- The split of `cmdsS 49` cuts the one cell of `treeS48` at the split key `keyOf 24`. -/
theorem treeS_cells : treeS.vm.cells = [(0, some (keyOf 24).cstr), (1, none)] := by
  obtain ⟨T, hT, hleaves⟩ := treeS_split
  have hlen : treeS.vm.cells.length = 2 := by
    obtain ⟨-, hfst, -, -⟩ := (treeS_reachable.indexOK hT).partition
    rw [Volatile.cells_of_top hT, ← List.length_map, hfst, hleaves]
    rfl
  obtain ⟨-, -, hleaf, hnext, -⟩ := treeS48_full
  have h48 := treeS48_cells
  have hsplit := splitKey_treeS48
  have hI := treeS48_reachable.inv.1
  rw [treeS_eq_step] at hlen ⊢
  generalize treeS48 = t at hlen h48 hleaf hnext hsplit hI
  obtain ⟨p, v, b, cs⟩ := t
  obtain rfl : b = none := hI.budget
  dsimp only at hlen h48 hleaf hnext hsplit
  rcases put_step_cells hI (show (keyOf 48).IsCStr by decide) valueV with ⟨htop, -⟩ | hsame | ⟨n, L, b, R, -, hcs, hcs'⟩
  · simp [Volatile.cells, htop] at h48
  · rw [hsame, h48] at hlen
    simp at hlen
  · -- the one cell of `treeS48` is the cell the split cuts
    rw [h48] at hcs
    have hL : L = [] := by
      cases L with
      | nil => rfl
      | cons l L => simp at hcs
    subst hL
    simp only [List.nil_append, List.cons.injEq, Prod.mk.injEq] at hcs
    obtain ⟨⟨rfl, rfl⟩, rfl⟩ := hcs
    rw [hcs', hleaf, hsplit, hnext]
    rfl

/-! ## The partition of a reachable tree -/

/-- **The index is a partition of the keys.** On every reachable tree whose index is not empty,
the leaf nodes, from left to right with the upper bounds of their intervals, cut the whole key
space into consecutive non-empty intervals. On every reachable tree, every key that the leaf of a
leaf node holds lies in that node's interval, and `LeafSearch` of any key is the first leaf node
whose upper bound is at or above the key: the one whose interval holds it. -/
theorem reachable_partition {t : Tree} (h : Reachable rodata t) :
    (t.vm.top_.isSome → Cuts none t.vm.cells none) ∧ t.vm.cells.map Prod.fst = t.vm.leafNodes ∧
      (∀ n ∈ t.vm.leafNodes, ∀ k, (t.pm.leaves (t.vm.leaf n)).Holds k → InCell none t.vm.cells n k) ∧
      ∀ key : Slice, leafSearch t.vm key = cellOf key.cstr t.vm.cells ∧
        ∀ n, leafSearch t.vm key = some n ↔ InCell none t.vm.cells n key.cstr := by
  cases htop : t.vm.top_ with
  | none =>
    -- no index: no cells, and `LeafSearch` finds nothing
    simp [Volatile.cells, Volatile.leafNodes, leafSearch, htop, InCell]
  | some T =>
    obtain ⟨hcuts, hfst, hin, hsearch⟩ := (h.indexOK htop).partition
    simp only [Volatile.cells, Volatile.leafNodes, htop, leafSearch, Option.bind_some,
      Option.isSome_some, forall_const]
    refine ⟨hcuts, hfst, hin, fun key => ⟨hsearch key.cstr, fun n => ?_⟩⟩
    rw [hsearch, hcuts.cellOf_eq_some_iff (mem_none_none _)]

theorem reachable_partition_treeS :
    treeS.vm.cells = [(0, some (keyOf 24).cstr), (1, none)] ∧
      Cuts none [(0, some (keyOf 24).cstr), (1, none)] none ∧
      ∀ key : Slice, leafSearch treeS.vm key = cellOf key.cstr treeS.vm.cells ∧
        ∀ n, leafSearch treeS.vm key = some n ↔ InCell none treeS.vm.cells n key.cstr := by
  obtain ⟨T, hT, -⟩ := treeS_split
  obtain ⟨hcuts, -, -, hsearch⟩ := reachable_partition treeS_reachable
  have hsome : treeS.vm.top_.isSome := by rw [hT]; rfl
  rw [treeS_cells] at hcuts
  exact ⟨treeS_cells, hcuts hsome, hsearch⟩

/-! ## How calls move keys between leaf nodes -/

/-- Where the index takes each key: the leaf node `LeafSearch` reaches for it. -/
def Volatile.route (v : Volatile) (k : CStr) : Option Nat := v.top_.bind (leafSearchFrom k)

theorem leafSearch_eq_route (v : Volatile) (key : Slice) : leafSearch v key = v.route key.cstr :=
  rfl

/-- The routes depend on the tree under `top_` only. -/
theorem Volatile.route_congr {v' : Volatile} (h : v'.top_ = v.top_) : v'.route = v.route := by
  funext k
  simp only [Volatile.route, h]

theorem Volatile.route_mem {k : CStr} {n : Nat} (h : v.route k = some n) : n ∈ v.leafNodes := by
  cases htop : v.top_ with
  | none => simp [Volatile.route, htop] at h
  | some T =>
    simp only [Volatile.route, htop, Option.bind_some] at h
    simpa [Volatile.leafNodes, htop] using leafSearchFrom_mem T h

/-- The leaf nodes of a running tree have ids handed out already. -/
theorem Inv.leafNodes_lt {t : Tree} (hI : Inv rodata t) {n : Nat} (hn : n ∈ t.vm.leafNodes) :
    n < t.vm.next_id := by
  cases htop : t.vm.top_ with
  | none => simp [Volatile.leafNodes, htop] at hn
  | some T =>
    have hnT : n ∈ leafIds T := by simpa [Volatile.leafNodes, htop] using hn
    exact ((indexInv_some htop).1 hI.index).tree.fresh n ((leafIds_sublist_ids T).subset hnT)

section Route

variable {key : Slice} {cs : List Pool}

/-- **What `Put` does to the partition.** With no index, every key goes to the new head leaf node;
a key's own slot keeps the index as it was; a split of the leaf node `n` of the key sends the keys
of `n` above the split key to the new leaf node. -/
theorem put_route (hI : Inv rodata ⟨p, v, none, cs⟩) (hk : key.IsCStr) (value : Slice) :
    (v.top_ = none ∧
        ((Cmd.put key value).step rodata ⟨p, v, none, cs⟩).2.vm.next_id = v.next_id + 1 ∧
        ∀ k, ((Cmd.put key value).step rodata ⟨p, v, none, cs⟩).2.vm.route k = some v.next_id) ∨
      (((Cmd.put key value).step rodata ⟨p, v, none, cs⟩).2.vm.next_id = v.next_id ∧
        ((Cmd.put key value).step rodata ⟨p, v, none, cs⟩).2.vm.route = v.route) ∨
      ∃ n, leafSearch v key = some n ∧
        v.next_id < ((Cmd.put key value).step rodata ⟨p, v, none, cs⟩).2.vm.next_id ∧
        CutAbove v.route ((Cmd.put key value).step rodata ⟨p, v, none, cs⟩).2.vm.route n v.next_id
          (splitKey (p.leaves (v.leaf n)) key.cstr) := by
  rcases put_cases hI hk value with ⟨htop, -⟩ | ⟨n, s, -, -, -, -, hrun⟩ |
    ⟨n, hn, hkey, hfull, p', vw, hrun, hc⟩
  · -- the head leaf node is the whole index
    have hsearch : leafSearch v key = none := by simp [leafSearch, htop]
    rw [step_put_of_run (put_run_head rodata key value hsearch)]
    exact .inl ⟨htop, by simp, fun k => by simp [Volatile.route, leafSearchFrom]⟩
  · -- a slot of the leaf: the index keeps its shape
    rw [step_put_of_run hrun]
    exact .inr (.inl ⟨by simp, Volatile.route_congr (by simp)⟩)
  · obtain ⟨T, htop, hT, hln, hkeys⟩ := hc.index hI hn hkey hfull
    obtain ⟨d, hwf⟩ := hT.tree.wf
    obtain ⟨-, -, -, -, -, hnext, -⟩ := split_walk hc.start hT.tree htop hln hkeys
    rw [step_put_of_run hrun]
    refine .inr (.inr ⟨n, hn, by rw [hc.start.next_id] at hnext; exact Nat.lt_of_succ_le hnext, fun k => ?_⟩)
    -- every key reached some leaf node `m`; only those of `n` above the split key move
    obtain ⟨m, hm⟩ := leafSearchFrom_isSome k T hwf
    have hroute : v.route k = some m := by simp [Volatile.route, htop, hm]
    rw [hroute]
    by_cases hmn : m = n
    · subst hmn
      obtain ⟨T', htop', hr⟩ :=
        split_routes hc.start hT.tree htop hln hkeys.split_reached hkeys.above hm
      rw [Volatile.route, htop', Option.bind_some, hr]
      by_cases hks : k ≤ splitKey (p.leaves (v.leaf m)) key.cstr
      · simp [hks, not_lt.2 hks]
      · simp [hks, lt_of_not_ge hks]
    · obtain ⟨T', htop', hr⟩ :=
        split_routes_other hc.start hT.tree htop hln hkeys.split_reached hkeys.above hm hmn
      rw [Volatile.route, htop', Option.bind_some, hr]
      simp [hmn]

/-- `Put` only refines the partition, and moves no key into a cell that existed before. -/
theorem put_step_route (hI : Inv rodata ⟨p, v, none, cs⟩) (hk : key.IsCStr) (value : Slice) :
    v.next_id ≤ ((Cmd.put key value).step rodata ⟨p, v, none, cs⟩).2.vm.next_id ∧
      Finer ((Cmd.put key value).step rodata ⟨p, v, none, cs⟩).2.vm.route v.route ∧
      ∀ k n, n < v.next_id →
        ((Cmd.put key value).step rodata ⟨p, v, none, cs⟩).2.vm.route k = some n → v.route k = some n := by
  rcases put_route hI hk value with ⟨htop, hnext, hall⟩ | ⟨hnext, hsame⟩ | ⟨n, -, hlt, hcut⟩
  · -- before, no key reached a leaf node
    have hnone : v.route = fun _ => none := by
      funext k
      simp [Volatile.route, htop]
    refine ⟨by omega, hnone ▸ finer_none _, fun k m hm h => ?_⟩
    rw [hall k] at h
    exact absurd (Option.some.inj h) (Nat.ne_of_gt hm)
  · rw [hnext, hsame]
    exact ⟨le_rfl, Finer.refl _, fun _ _ _ h => h⟩
  · refine ⟨hlt.le, hcut.finer fun k hk' => ?_, fun k m hm h => hcut.eq_of_ne (Nat.ne_of_lt hm) h⟩
    -- the new leaf node did not exist
    exact Nat.lt_irrefl _ (hI.leafNodes_lt (Volatile.route_mem hk'))

/-- After the split of `cmdsS 49` the keys up to `keyOf 24` reach the leaf node `0`, the others the
new leaf node `1`. -/
theorem treeS_route (k : CStr) :
    treeS.vm.route k = if k ≤ (keyOf 24).cstr then some 0 else some 1 := by
  obtain ⟨T, hT, -⟩ := treeS_split
  obtain ⟨-, -, -, hsearch⟩ := (treeS_reachable.indexOK hT).partition
  rw [Volatile.route, hT, Option.bind_some, hsearch, ← Volatile.cells_of_top hT, treeS_cells]
  by_cases hk : k ≤ (keyOf 24).cstr <;> simp [cellOf, hk]

/-- On a reachable tree, a stored key lies in the leaf of the leaf node its route reaches. -/
theorem Reachable.holds_of_route {t : Tree} (h : Reachable rodata t) {k x : CStr} {n : Nat}
    (hx : t.pm.read k = some x) (hn : t.vm.route k = some n) :
    (t.pm.leaves (t.vm.leaf n)).Holds k := by
  obtain ⟨a, ha, hmaps⟩ := h.inv.1.imageOK.read_eq_some.1 hx
  cases htop : t.vm.top_ with
  | none => simp [Volatile.route, htop] at hn
  | some T =>
    obtain ⟨m, -, rfl, hm⟩ := (h.indexOK htop).holder_search ha hmaps.holds
    rw [Volatile.route, htop, Option.bind_some, hm] at hn
    rw [← Option.some.inj hn]
    exact hmaps.holds

/-- After the split of `cmdsS 49` the leaf nodes `0` and `1` point to two allocated leaves, the
first holding `keyOf 0` and the second `keyOf 48`: neither is empty. -/
theorem treeS_leaves_hold :
    treeS.vm.leaf 0 ≠ treeS.vm.leaf 1 ∧ treeS.vm.leaf 0 < treeS.pm.alloc ∧
      treeS.vm.leaf 1 < treeS.pm.alloc ∧ (treeS.pm.leaves (treeS.vm.leaf 0)).Holds (keyOf 0).cstr ∧
      (treeS.pm.leaves (treeS.vm.leaf 1)).Holds (keyOf 48).cstr := by
  obtain ⟨T, hT, hleaves⟩ := treeS_split
  have hidx := treeS_reachable.indexOK hT
  have hmem : ∀ n ∈ [0, 1], n ∈ leafIds T := fun n hn => hleaves ▸ hn
  have h₀ := treeS_reachable.holds_of_route (n := 0) treeS_read_keyOf_zero
    (by rw [treeS_route, if_pos (by decide)])
  have h₁ := treeS_reachable.holds_of_route (n := 1) (by rw [treeS_read, Function.update_self])
    (by rw [treeS_route, if_neg (by decide)])
  refine ⟨fun h => ?_, hidx.ptr_lt 0 (hmem 0 (by simp)), hidx.ptr_lt 1 (hmem 1 (by simp)), h₀, h₁⟩
  exact absurd (hidx.ptr_inj 0 (hmem 0 (by simp)) 1 (hmem 1 (by simp)) h) (by decide)

/-- **Put cuts at most one cell.** On every reachable tree, `Put` (and so `Merge`) of a C string
key gives an empty index a single cell, the new head leaf node's; or keeps the partition; or, when
it splits the full leaf node `n` that `LeafSearch` reaches for the key, sends the keys that reached
`n` and lie above the split key to the new leaf node and every other key where it went before. -/
theorem put_cuts_cell {t : Tree} (h : Reachable rodata t) (hk : key.IsCStr) (value : Slice) :
    (t.vm.top_ = none ∧ ∀ k, ((Cmd.put key value).step rodata t).2.vm.route k = some t.vm.next_id) ∨
      ((Cmd.put key value).step rodata t).2.vm.route = t.vm.route ∨
      ∃ n, leafSearch t.vm key = some n ∧
        CutAbove t.vm.route ((Cmd.put key value).step rodata t).2.vm.route n t.vm.next_id
          (splitKey (t.pm.leaves (t.vm.leaf n)) key.cstr) := by
  obtain ⟨hI, -⟩ := h.inv
  obtain ⟨p, v, b, cs⟩ := t
  obtain rfl : b = none := hI.budget
  rcases put_route hI hk value with ⟨htop, -, hall⟩ | ⟨-, hsame⟩ | ⟨n, hn, -, hcut⟩
  · exact .inl ⟨htop, hall⟩
  · exact .inr (.inl hsame)
  · exact .inr (.inr ⟨n, hn, hcut⟩)

/-- The forty-ninth `Put` of `cmdsS 49` splits: it cuts the cell of the leaf node `0`. -/
theorem put_cuts_cell_treeS48 :
    Reachable (fun _ => 0) treeS48 ∧ (keyOf 48).IsCStr ∧
      ∃ n, leafSearch treeS48.vm (keyOf 48) = some n ∧
        CutAbove treeS48.vm.route ((Cmd.put (keyOf 48) valueV).step (fun _ => 0) treeS48).2.vm.route
          n treeS48.vm.next_id (splitKey (treeS48.pm.leaves (treeS48.vm.leaf n)) (keyOf 48).cstr) := by
  obtain ⟨hT0, hn, -⟩ := treeS48_full
  refine ⟨treeS48_reachable, by decide, ?_⟩
  rcases put_cuts_cell treeS48_reachable (show (keyOf 48).IsCStr by decide) valueV with ⟨htop, -⟩ | hsame | hcut
  · simp [htop] at hT0
  · -- `keyOf 48` went to the leaf node `0`, and goes to the new leaf node `1` after the split
    have h := congrFun hsame (keyOf 48).cstr
    rw [← treeS_eq_step, treeS_route, ← leafSearch_eq_route, hn, if_neg (by decide)] at h
    simp at h
  · exact hcut

/-- **Put cuts one cell**, list by list. On every reachable tree, `Put` (and so `Merge`) of a C
string key gives an empty index the single cell of the new head leaf node; or keeps the cells; or,
when it splits the full leaf node `n` that `LeafSearch` reaches for the key, cuts the cell of `n`
at the split key, the part above it becoming the cell of the new leaf node, right after `n`'s; the
cells before and after stay as they were. -/
theorem put_cells {t : Tree} (h : Reachable rodata t) (hk : key.IsCStr) (value : Slice) :
    (t.vm.top_ = none ∧ ((Cmd.put key value).step rodata t).2.vm.cells = [(t.vm.next_id, none)]) ∨
      ((Cmd.put key value).step rodata t).2.vm.cells = t.vm.cells ∨
      ∃ n L b R, leafSearch t.vm key = some n ∧ t.vm.cells = L ++ (n, b) :: R ∧
        ((Cmd.put key value).step rodata t).2.vm.cells =
          L ++ (n, some (splitKey (t.pm.leaves (t.vm.leaf n)) key.cstr)) :: (t.vm.next_id, b) :: R := by
  obtain ⟨hI, -⟩ := h.inv
  obtain ⟨p, v, b, cs⟩ := t
  obtain rfl : b = none := hI.budget
  exact put_step_cells hI hk value

theorem put_cells_treeS48 :
    Reachable (fun _ => 0) treeS48 ∧ (keyOf 48).IsCStr ∧ treeS48.vm.cells = [(0, none)] ∧
      ∃ n L b R, leafSearch treeS48.vm (keyOf 48) = some n ∧ treeS48.vm.cells = L ++ (n, b) :: R ∧
        ((Cmd.put (keyOf 48) valueV).step (fun _ => 0) treeS48).2.vm.cells =
          L ++ (n, some (splitKey (treeS48.pm.leaves (treeS48.vm.leaf n)) (keyOf 48).cstr)) ::
            (treeS48.vm.next_id, b) :: R := by
  obtain ⟨hT0, -⟩ := treeS48_full
  refine ⟨treeS48_reachable, by decide, treeS48_cells, ?_⟩
  rcases put_cells treeS48_reachable (show (keyOf 48).IsCStr by decide) valueV with ⟨htop, -⟩ | hsame | hcut
  · simp [htop] at hT0
  · -- one cell before the split, two after it
    rw [← treeS_eq_step, treeS_cells, treeS48_cells] at hsame
    simp at hsame
  · exact hcut

/-- **One call.** Every call but a reopening keeps or refines the partition, hands out no node id
twice, and moves no key into the cell of a leaf node that existed before. -/
theorem Cmd.step_route {t : Tree} {c : Cmd} (hI : Inv rodata t) (hc : c.KeysCStr)
    (hr : c ≠ .reopen) :
    t.vm.next_id ≤ (c.step rodata t).2.vm.next_id ∧ Finer (c.step rodata t).2.vm.route t.vm.route ∧
      ∀ k n, n < t.vm.next_id → (c.step rodata t).2.vm.route k = some n → t.vm.route k = some n := by
  obtain ⟨p, v, b, cs⟩ := t
  obtain rfl : b = none := hI.budget
  cases c with
  | put key value | merge key value => exact put_step_route hI hc value
  | delete key =>
    -- `Delete` frees a slot of a leaf and leaves the index alone
    rcases delete_cases key with hstep | ⟨n, s, -, -, hstep⟩
    · rw [hstep]
      exact ⟨le_rfl, Finer.refl _, fun _ _ _ h => h⟩
    · rw [hstep]
      simp only [Volatile.setHash_next_id, Volatile.route_congr (Volatile.setHash_top_ v n s 0)]
      exact ⟨le_rfl, Finer.refl _, fun _ _ _ h => h⟩
  | get key value => exact ⟨le_rfl, Finer.refl _, fun _ _ _ h => h⟩
  | reopen => exact absurd rfl hr

/-- `s` follows `t` by calls of one session: it keeps the invariant, hands out no id of `t` again,
and its cells lie inside those of `t`, a leaf node of `t` reaching no key it did not reach. -/
structure Follows (rodata : Int → UInt8) (t s : Tree) : Prop where
  inv : Inv rodata s
  published : s.commits ≠ []
  next_id : t.vm.next_id ≤ s.vm.next_id
  finer : Finer s.vm.route t.vm.route
  shrink : ∀ k n, n < t.vm.next_id → s.vm.route k = some n → t.vm.route k = some n

theorem Follows.refl {t : Tree} (hI : Inv rodata t) (hne : t.commits ≠ []) : Follows rodata t t :=
  ⟨hI, hne, le_rfl, Finer.refl _, fun _ _ _ h => h⟩

/-- One more call other than a reopening. -/
theorem Follows.step {t s : Tree} {c : Cmd} (h : Follows rodata t s) (hc : c.KeysCStr)
    (hr : c ≠ .reopen) : Follows rodata t (c.step rodata s).2 := by
  obtain ⟨hle, hfin, hshr⟩ := Cmd.step_route h.inv hc hr
  obtain ⟨hI', hne'⟩ := Cmd.step_inv h.inv h.published hc
  exact ⟨hI', hne', le_trans h.next_id hle, hfin.trans h.finer,
    fun k n hn h' => h.shrink k n hn (hshr k n (lt_of_lt_of_le hn h.next_id) h')⟩

end Route

/-- **Within a session the cells only get cut.** Along every run of calls with C string keys other
than reopenings, from every reachable tree: keys that the index at the end takes to one leaf node
the index at the start took to one leaf node too, and a key that reaches, at the end, a leaf node
of the start reached that node at the start. Only a reopening joins cells: `RebuildNodes` cuts the
key space anew at the largest key of each leaf. -/
theorem session_cells_shrink {t : Tree} (h : Reachable rodata t) {cmds : List Cmd}
    (hc : ∀ c ∈ cmds, c.KeysCStr ∧ c ≠ .reopen) :
    Finer (Sim.last (Cmd.step rodata) t cmds).vm.route t.vm.route ∧
      ∀ n ∈ t.vm.leafNodes, ∀ k, (Sim.last (Cmd.step rodata) t cmds).vm.route k = some n →
        t.vm.route k = some n := by
  obtain ⟨hI, hne⟩ := h.inv
  have hrun : Follows rodata t (Sim.last (Cmd.step rodata) t cmds) :=
    Sim.last_inv (fun _ _ hcs hs => hs.step hcs.1 hcs.2) hc (Follows.refl hI hne)
  exact ⟨hrun.finer, fun n hn k h' => hrun.shrink k n (hI.leafNodes_lt hn) h'⟩

/-- The run of the forty-ninth `Put` of `cmdsS 49`, which splits. -/
theorem session_cells_shrink_treeS48 :
    Reachable (fun _ => 0) treeS48 ∧
      (∀ c ∈ [Cmd.put (keyOf 48) valueV], c.KeysCStr ∧ c ≠ .reopen) ∧
      Finer treeS.vm.route treeS48.vm.route ∧
      ∀ n ∈ treeS48.vm.leafNodes, ∀ k, treeS.vm.route k = some n → treeS48.vm.route k = some n := by
  have hc : ∀ c ∈ [Cmd.put (keyOf 48) valueV], c.KeysCStr ∧ c ≠ .reopen := by
    intro c hc
    obtain rfl := List.mem_singleton.1 hc
    exact ⟨by decide, fun h => Cmd.noConfusion h⟩
  have h := session_cells_shrink treeS48_reachable hc
  rw [show Sim.last (Cmd.step (fun _ => 0)) treeS48 [.put (keyOf 48) valueV] = treeS from
    treeS_eq_step.symm] at h
  exact ⟨treeS48_reachable, hc, h⟩

/-! ## The partition recovery builds -/

section Rebuild

variable {L : List Nat}

/-- **The cells `RebuildNodes` builds.** On a list of distinct allocated leaves from `root->head`
with separated key sets, the index `RebuildNodes` builds cuts the key space at the largest keys of
the leaves of its leaf nodes, ascending from left to right, the last cell unbounded; and its leaf
nodes point to the non-empty leaves of the list, each to one. -/
theorem rebuildNodes_cells (hL : IsLeafList p p.root.head L) (hnd : L.Nodup)
    (hlt : ∀ a ∈ L, a < p.alloc) (hsep : Separated p L) (v : Volatile) :
    ∃ R : List (Nat × CStr), (rebuildNodes p v).cells = cutAt R ∧
      R.Pairwise (fun e e' => e.2 < e'.2) ∧
      (∀ e ∈ R, maxKey (p.leaves ((rebuildNodes p v).leaf e.1)) = some e.2) ∧
      (R.map fun e => (rebuildNodes p v).leaf e.1).Perm
        (L.filter fun a => !decide (p.leaves a).Empty) := by
  obtain ⟨v₁, R, hR, hA, hperm, ⟨rfl, heq⟩ | ⟨i, mk, rest, hi, rfl, heq⟩⟩ :=
    rebuildNodes_cases hL hnd hlt hsep v
  · -- nothing was kept: no index, no cell, and every leaf is empty
    have hnil : recoveredFrom p v.next_id L = [] := (List.Perm.nil_eq hperm).symm
    have hempty := recoveredFrom_eq_nil.1 hnil
    rw [heq]
    refine ⟨[], rfl, List.Pairwise.nil, by simp, ?_⟩
    rw [List.filter_eq_nil_iff.2 fun a ha => by simpa using hempty a ha]
    exact List.Perm.nil
  · have h₀ := buildInv_first hR hi
    obtain ⟨⟨T', htop', -⟩, -, hleaf⟩ := rebuildLoop_built rest h₀ hA (by simp)
    have hRb := rebuildNodes_rebuilt hL hnd hlt hsep v T' (by rw [heq]; exact htop')
    rw [heq] at hRb ⊢
    -- the loop cuts at the largest key of each node, from the first node's unbounded cell
    have hcells : (rebuildLoop ((v.next_id + i, mk) :: rest)
        ((v₁.setTop none).setTop (some (.leaf (v.next_id + i))))).cells =
        cutAt ((v.next_id + i, mk) :: rest) := by
      rw [Volatile.cells_of_top htop',
        rebuildLoop_cells rest h₀ hA (by simp) rfl (C := []) (by simp) htop', List.nil_append]
    refine ⟨_, hcells, hA.above.imp_of_mem fun _ he' h => h _ (hA.max _ he').1, fun e he => ?_, ?_⟩
    · -- each kept node points to its leaf, whose largest key it carries
      obtain ⟨j, hj, -, hleafj, hm⟩ := hR.mem (hperm.mem_iff.1 he)
      rw [hleaf]
      simpa [hleafj] using hm
    · -- the nodes of the cells are the leaf nodes of the index, which point to the non-empty leaves
      obtain ⟨d, hwf⟩ := hRb.tree.wf
      have hfst := WF.leafBounds_fst T' hwf
      rw [← Volatile.cells_of_top htop', hcells, map_fst_cutAt] at hfst
      have hleaves := hRb.leaves_perm
      rwa [← hfst, List.map_map] at hleaves

end Rebuild

/-- **The constructor cuts at the largest keys.** On every image a pool can hold, the index the
constructor builds has a leaf node for each non-empty leaf of the list from `root->head` and for
no other leaf, and cuts the key space at the largest keys of their leaves, ascending from left to
right, with the last cell unbounded: a key goes to the first leaf node whose leaf's largest key is
at or above it, or to the last. -/
theorem openTree_cells (hp : Stored rodata p) :
    ∃ R : List (Nat × CStr), (openTree p).vm.cells = cutAt R ∧
      R.Pairwise (fun e e' => e.2 < e'.2) ∧
      (∀ e ∈ R, maxKey (p.leaves ((openTree p).vm.leaf e.1)) = some e.2) ∧
      (R.map fun e => (openTree p).vm.leaf e.1).Perm
        (p.leafList.filter fun a => !decide (p.leaves a).Empty) := by
  cases hh : p.root.head with
  | none =>
    -- no list, no leaf, no cell
    have hnil : p.leafList = [] := by
      rw [Pool.leafList, hh]
      cases p.alloc <;> rfl
    rw [openTree_of_head_none hh, hnil]
    exact ⟨[], rfl, List.Pairwise.nil, by simp, List.Perm.nil⟩
  | some a =>
    rw [openTree_of_head_some hh, hp.imageOK.pool.leafList_eq]
    obtain ⟨hL, hnd, hlt, hsep⟩ := hp.imageOK.leafList
    exact rebuildNodes_cells hL hnd hlt hsep .empty

/-- The image the destructor leaves after `cmdsS 49`, with the leaf the split allocated. -/
theorem openTree_cells_closedS :
    Stored (fun _ => 0) (closeTree treeS) ∧
      ∃ R : List (Nat × CStr), (openTree (closeTree treeS)).vm.cells = cutAt R ∧
        R.Pairwise (fun e e' => e.2 < e'.2) ∧
        (∀ e ∈ R, maxKey ((closeTree treeS).leaves ((openTree (closeTree treeS)).vm.leaf e.1)) =
          some e.2) ∧
        (R.map fun e => (openTree (closeTree treeS)).vm.leaf e.1).Perm
          ((closeTree treeS).leafList.filter fun a => !decide ((closeTree treeS).leaves a).Empty) ∧
        2 ≤ R.length := by
  have hp : Stored (fun _ => 0) (closeTree treeS) := .close .fresh (by decide)
  obtain ⟨R, hcells, hsorted, hmax, hperm⟩ := openTree_cells hp
  refine ⟨hp, R, hcells, hsorted, hmax, hperm, ?_⟩
  -- the destructor keeps the two leaves of the split, which hold keys: both get a leaf node
  obtain ⟨hne, hlt₀, hlt₁, h₀, h₁⟩ := treeS_leaves_hold
  obtain ⟨-, hl, ha⟩ := closeTree_same treeS_reachable.inv.1.budget
  have hkept : ∀ a k, a < treeS.pm.alloc → (treeS.pm.leaves a).Holds k →
      a ∈ R.map fun e => (openTree (closeTree treeS)).vm.leaf e.1 := by
    intro a k ha' hk
    refine hperm.mem_iff.2 (List.mem_filter.2 ⟨hp.imageOK.pool.mem_leafList.2 (by rw [ha]; exact ha'), ?_⟩)
    rw [hl]
    simpa using fun he => ScreeDBLeaf.empty_iff_forall_not_holds.1 he k hk
  have hsub : ({treeS.vm.leaf 0, treeS.vm.leaf 1} : Finset Nat) ⊆
      (R.map fun e => (openTree (closeTree treeS)).vm.leaf e.1).toFinset := by
    intro a ha'
    rcases Finset.mem_insert.1 ha' with ha' | ha'
    · rw [ha']
      exact List.mem_toFinset.2 (hkept _ _ hlt₀ h₀)
    · rw [Finset.mem_singleton.1 ha']
      exact List.mem_toFinset.2 (hkept _ _ hlt₁ h₁)
  calc 2 = ({treeS.vm.leaf 0, treeS.vm.leaf 1} : Finset Nat).card := (Finset.card_pair hne).symm
    _ ≤ (R.map fun e => (openTree (closeTree treeS)).vm.leaf e.1).toFinset.card :=
      Finset.card_le_card hsub
    _ ≤ (R.map fun e => (openTree (closeTree treeS)).vm.leaf e.1).length := List.toFinset_card_le _
    _ = R.length := List.length_map _

end ScreeDB
