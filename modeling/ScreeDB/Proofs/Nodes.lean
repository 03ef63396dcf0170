import ScreeDB.Tree.Count
import ScreeDB.Proofs.Space

/-!
# Volatile nodes outside the index

`RebuildNodes` makes a `ScreeDBLeafNode` for every leaf of the list, and keeps only those of the
leaves that hold a key ("todo squelch until decided on handling empty leaf node"): the leaf node
of an empty leaf is linked nowhere and never deleted. Every other node a session makes is linked
into the index (`ScreeDB.Tree.Count`). `next_id` counts the nodes made, so over a whole session the
nodes outside the index are one for each empty leaf of the image the constructor opened.

* `Volatile.nodes`: the nodes of the index;
* `rebuildNodes_count`: `RebuildNodes` links every node it makes but those of the empty leaves;
* `openTree_count`: so does the constructor;
* `Cmd.step_count`: every call but a reopening links every node it makes;
* `session_unlinked_nodes`: the count over a whole session.

The destructor deletes no volatile node either; the model drops the volatile memory with the
tree, so that is outside what this module counts.
-/

namespace ScreeDB

open ScreeDBNode

/-- The nodes of the index, from `top_` down. -/
def Volatile.nodes (v : Volatile) : List Nat :=
  match v.top_ with
  | none => []
  | some T => ids T

theorem Volatile.nodes_of_top_none {v : Volatile} (h : v.top_ = none) : v.nodes = [] := by
  simp [Volatile.nodes, h]

theorem Volatile.nodes_of_top_some {v : Volatile} {T : ScreeDBNode} (h : v.top_ = some T) :
    v.nodes = ids T := by
  simp [Volatile.nodes, h]

/-- Writes to a node's fields keep the nodes of the index. -/
theorem Volatile.nodes_congr {v v' : Volatile} (h : v'.top_ = v.top_) : v'.nodes = v.nodes := by
  simp [Volatile.nodes, h]

/-- The number of empty leaves of the list from `root->head`. -/
def Pool.emptyLeaves (p : Pool) : Nat :=
  (p.leafList.filter fun a => decide (p.leaves a).Empty).length

/-! ## The constructor -/

section Rebuild

variable {p : Pool} {L : List Nat}

/-- The first loop keeps one node for each non-empty leaf of the list. -/
theorem length_recoveredFrom_add {v v₁ : Volatile} (hR : Recovered p v L v₁) :
    (recoveredFrom p v.next_id L).length + (L.filter fun a => decide (p.leaves a).Empty).length =
      L.length := by
  have hkept := congrArg List.length
    (map_recoveredFrom p (f := v₁.leaf) fun i hi => (hR.node i hi).1)
  rw [List.length_map] at hkept
  rw [hkept, Nat.add_comm]
  exact (List.length_eq_length_filter_add _).symm

/-- **`RebuildNodes` leaves the leaf nodes of empty leaves out.** On a list of distinct
allocated leaves from `root->head` with separated key sets, every node `RebuildNodes` makes is in
the index it builds, but the leaf node of each empty leaf. -/
theorem rebuildNodes_count (hL : IsLeafList p p.root.head L) (hnd : L.Nodup)
    (hlt : ∀ a ∈ L, a < p.alloc) (hsep : Separated p L) (v : Volatile) :
    (rebuildNodes p v).next_id = v.next_id + (rebuildNodes p v).nodes.length +
      (L.filter fun a => decide (p.leaves a).Empty).length := by
  obtain ⟨v₁, R, hR, hA, hperm, ⟨rfl, heq⟩ | ⟨i, mk, rest, hi, rfl, heq⟩⟩ :=
    rebuildNodes_cases hL hnd hlt hsep v
  all_goals
    have hkept := length_recoveredFrom_add hR
    rw [← hperm.length_eq] at hkept
    rw [heq]
  · -- nothing was kept: every node the first loop made is outside the index
    simp only [Volatile.setTop_next_id, hR.next_id,
      Volatile.nodes_of_top_none (Volatile.setTop_top_ _ _), List.length_nil] at hkept ⊢
    omega
  · -- the second loop links the kept nodes and the inner nodes it makes
    have h₀ := buildInv_first hR hi
    obtain ⟨⟨T', htop', -⟩, -⟩ := rebuildLoop_built rest h₀ hA (by simp)
    have hc := rebuildLoop_count rest h₀ hA (by simp) rfl htop'
    rw [Volatile.nodes_of_top_some htop']
    simp only [Volatile.setTop_next_id, hR.next_id, ids_leaf, List.length_cons, List.length_nil]
      at hc hkept
    omega

end Rebuild

section Open

variable {rodata : Int → UInt8} {p : Pool}

/-- The constructor on an image that opens leaves outside its index exactly the leaf nodes of
the empty leaves. -/
theorem openTree_count (h : ImageOK rodata p) :
    (openTree p).vm.next_id = (openTree p).vm.nodes.length + p.emptyLeaves := by
  cases hh : p.root.head with
  | none =>
    -- no list, no leaf, no node
    have hnil : p.leafList = [] := by
      rw [Pool.leafList, hh]
      cases p.alloc <;> rfl
    rw [openTree_of_head_none hh, Pool.emptyLeaves, hnil]
    rfl
  | some a =>
    rw [openTree_of_head_some hh, Pool.emptyLeaves, h.pool.leafList_eq]
    obtain ⟨hL, hnd, hlt, hsep⟩ := h.leafList
    simpa [Volatile.empty] using rebuildNodes_count hL hnd hlt hsep .empty

end Open

/-! ## The calls -/

section Calls

variable {rodata : Int → UInt8} {key : Slice} {p : Pool} {v : Volatile} {cs : List Pool}

/-- `Put` links every node it makes: the head leaf node of an empty index, or the new leaf node
of a split and the inner nodes of the walk. -/
theorem put_count (hI : Inv rodata ⟨p, v, none, cs⟩) (hk : key.IsCStr) (value : Slice) :
    ((Cmd.put key value).step rodata ⟨p, v, none, cs⟩).2.vm.next_id + v.nodes.length =
      v.next_id + ((Cmd.put key value).step rodata ⟨p, v, none, cs⟩).2.vm.nodes.length := by
  rcases put_cases hI hk value with ⟨htop, -⟩ | ⟨n, s, -, -, -, -, hrun⟩ |
    ⟨n, hn, hkey, hfull, p', vw, hrun, hc⟩
  · -- the head leaf node is the whole index
    have hsearch : leafSearch v key = none := by simp [leafSearch, htop]
    rw [step_put_of_run (put_run_head rodata key value hsearch), Volatile.nodes_of_top_none htop,
      Volatile.nodes_of_top_some (Volatile.setTop_top_ _ _)]
    simp
  · -- a slot of the leaf: no node is made
    rw [step_put_of_run hrun, Volatile.nodes_congr (Volatile.setHash_top_ v n s _)]
    simp
  · obtain ⟨T, htop, hT, hln, hkeys⟩ := hc.index hI hn hkey hfull
    obtain ⟨-, -, ⟨T', htop', -⟩, -, -, -, -⟩ := split_walk hc.start hT.tree htop hln hkeys
    have hcount := split_count hc.start hT.tree htop hln hkeys htop'
    rw [step_put_of_run hrun, Volatile.nodes_of_top_some htop, Volatile.nodes_of_top_some htop']
    dsimp only
    omega

/-- **One call.** Every call but a reopening links every node it makes. -/
theorem Cmd.step_count {t : Tree} {c : Cmd} (hI : Inv rodata t) (hc : c.KeysCStr)
    (hr : c ≠ .reopen) :
    (c.step rodata t).2.vm.next_id + t.vm.nodes.length =
      t.vm.next_id + (c.step rodata t).2.vm.nodes.length := by
  obtain ⟨p, v, b, cs⟩ := t
  obtain rfl : b = none := hI.budget
  cases c with
  | put key value | merge key value => exact put_count hI hc value
  | delete key =>
    -- `Delete` frees a slot of a leaf and leaves the index alone
    rcases delete_cases key with hstep | ⟨n, s, -, -, hstep⟩
    · rw [hstep]
    · rw [hstep, Volatile.nodes_congr (Volatile.setHash_top_ v n s 0)]
      simp
  | get key value => rfl
  | reopen => exact absurd rfl hr

end Calls

/-- The nodes of the index of a running tree are distinct and made already. -/
theorem Inv.nodes_made {rodata : Int → UInt8} {t : Tree} (hI : Inv rodata t) :
    t.vm.nodes.Nodup ∧ ∀ i ∈ t.vm.nodes, i < t.vm.next_id := by
  cases htop : t.vm.top_ with
  | none => simp [Volatile.nodes_of_top_none htop]
  | some T =>
    have hT := ((indexInv_some htop).1 hI.index).tree
    rw [Volatile.nodes_of_top_some htop]
    exact ⟨hT.nodup, hT.fresh⟩

/-- **Only the constructor leaks.** In every session on an image a pool can hold, along every run
of calls with C string keys other than reopenings: the nodes of the index are distinct nodes made
in the session, and the nodes made and not in the index are as many as the empty leaves of the
image the constructor opened, whose leaf nodes `RebuildNodes` made and left out. -/
theorem session_unlinked_nodes {rodata : Int → UInt8} {p : Pool} (hp : Stored rodata p)
    {cmds : List Cmd} (hc : ∀ c ∈ cmds, c.KeysCStr ∧ c ≠ .reopen) :
    (session rodata p cmds).vm.nodes.Nodup ∧
      (∀ i ∈ (session rodata p cmds).vm.nodes, i < (session rodata p cmds).vm.next_id) ∧
      (session rodata p cmds).vm.next_id =
        (session rodata p cmds).vm.nodes.length + p.emptyLeaves := by
  have himg := hp.imageOK
  -- every call keeps the invariant and the count it starts with, the constructor's
  have hrun : Inv rodata (session rodata p cmds) ∧ (session rodata p cmds).commits ≠ [] ∧
      (session rodata p cmds).vm.next_id =
        (session rodata p cmds).vm.nodes.length + p.emptyLeaves := by
    unfold session
    refine Sim.last_inv (I := fun t => Inv rodata t ∧ t.commits ≠ [] ∧
      t.vm.next_id = t.vm.nodes.length + p.emptyLeaves) (fun t c hcs hs => ?_) hc
      ⟨openTree_inv himg, by simp [openTree_commits], openTree_count himg⟩
    obtain ⟨hI, hne, hcount⟩ := hs
    obtain ⟨hI', hne'⟩ := Cmd.step_inv hI hne hcs.1
    have hstep := Cmd.step_count hI hcs.1 hcs.2
    exact ⟨hI', hne', by omega⟩
  obtain ⟨hI, -, hcount⟩ := hrun
  exact ⟨hI.nodes_made.1, hI.nodes_made.2, hcount⟩

/-- The image after `Put("k", "v")`, `Delete("k")` and a clean close: one leaf, empty. -/
def imageDeletedK : Pool :=
  closeTree (session (fun _ => 0) Pool.fresh [.put keyK valueV, .delete keyK])

/-- The constructor on `imageDeletedK` makes a leaf node for the empty leaf and leaves it out of
the index. -/
theorem session_unlinked_nodes_deletedK :
    Stored (fun _ => 0) imageDeletedK ∧ (∀ c ∈ ([] : List Cmd), c.KeysCStr ∧ c ≠ .reopen) ∧
      (session (fun _ => 0) imageDeletedK []).vm.next_id =
        (session (fun _ => 0) imageDeletedK []).vm.nodes.length + 1 := by
  have hp : Stored (fun _ => 0) imageDeletedK := .close .fresh (by decide)
  have hc : ∀ c ∈ ([] : List Cmd), c.KeysCStr ∧ c ≠ .reopen := by simp
  have hempty : imageDeletedK.emptyLeaves = 1 := by decide
  refine ⟨hp, hc, ?_⟩
  rw [(session_unlinked_nodes hp hc).2.2, hempty]

end ScreeDB
