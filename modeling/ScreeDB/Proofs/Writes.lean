import ScreeDB.Proofs.Space

/-!
# What each update writes

`Put`, `Merge` and `Delete` write inside one libpmemobj transaction each, and only to the leaf
that `LeafSearch` finds for their key, besides the leaf a `Put` allocates for a new head or a
split. A `Delete` of a key that is not stored writes nothing at all.

* `put_frame`, `delete_frame`: an update keeps every allocated leaf but the one its search finds;
* `update_frame`: the same on every reachable tree;
* `Cmd.put_publishes`, `Cmd.delete_publishes`, `Cmd.delete_absent`: `Put` publishes one image,
  `Delete` one when its key is stored, and none otherwise, when it changes nothing;
* `update_publishes`: the same on every reachable tree, where a second `Delete` of a key changes
  nothing.
-/

namespace ScreeDB

open Txn ScreeDBLeaf ScreeDBNode

variable {rodata : Int → UInt8} {key : Slice}

/-! ## The leaves an update writes -/

section Frame

variable {p : Pool} {v : Volatile} {cs : List Pool}

/-- `Put` keeps every allocated leaf other than the one `LeafSearch` finds. -/
theorem put_frame (hI : Inv rodata ⟨p, v, none, cs⟩) (hk : key.IsCStr) (value : Slice) {a : Nat}
    (ha : a < p.alloc) (hfar : (leafSearch v key).map v.leaf ≠ some a) :
    ((Cmd.put key value).step rodata ⟨p, v, none, cs⟩).2.pm.leaves a = p.leaves a := by
  have hne : ∀ n, leafSearch v key = some n → a ≠ v.leaf n := fun n hn h =>
    hfar (by rw [hn, Option.map_some, h])
  rcases put_cases hI hk value with ⟨htop, _⟩ | ⟨n, s, hsearch, -, -, -, hrun⟩ |
    ⟨n, hsearch, -, -, p', vw, hrun, hc⟩
  · -- a new head leaf: the allocated ones are kept
    exact (put_head_step rodata cs (by simp [leafSearch, htop]) value).2.1 a ha
  · rw [step_put_of_run hrun]
    simp only [Pool.modifyLeaf_leaves, if_neg (hne n hsearch)]
  · -- a split writes the full leaf and the new one
    rw [step_put_of_run hrun]
    exact hc.other a (hne n hsearch) (Nat.ne_of_lt ha)

/-- `Delete` keeps every leaf other than the one `LeafSearch` finds. -/
theorem delete_frame (key : Slice) {a : Nat} (hfar : (leafSearch v key).map v.leaf ≠ some a) :
    ((Cmd.delete key).step rodata ⟨p, v, none, cs⟩).2.pm.leaves a = p.leaves a := by
  rcases delete_cases key with hstep | ⟨n, s, hn, -, hstep⟩
  · rw [hstep]
  · have hne : a ≠ v.leaf n := fun h => hfar (by rw [hn, Option.map_some, h])
    rw [hstep]
    simp only [Pool.modifyLeaf_leaves, if_neg hne]

end Frame

/-- **An update writes one leaf.** On every reachable tree, `Put` (and so `Merge`) and `Delete` of
a C string key change no allocated leaf other than the one `LeafSearch` finds for the key. -/
theorem update_frame {t : Tree} (h : Reachable rodata t) (hk : key.IsCStr) (value : Slice)
    {a : Nat} (ha : a < t.pm.alloc) (hfar : (leafSearch t.vm key).map t.vm.leaf ≠ some a) :
    ((Cmd.put key value).step rodata t).2.pm.leaves a = t.pm.leaves a ∧
      ((Cmd.delete key).step rodata t).2.pm.leaves a = t.pm.leaves a := by
  obtain ⟨hI, -⟩ := h.inv
  obtain ⟨p, v, b, cs⟩ := t
  obtain rfl : b = none := hI.budget
  exact ⟨put_frame hI hk value ha hfar, delete_frame key hfar⟩

/-- After `Put("k", "v")`, `Delete("k")` and a reopening, the index is empty and the leaf of the
key stays allocated. -/
theorem update_frame_reopenedK :
    Reachable (fun _ => 0) (session (fun _ => 0) Pool.fresh [.put keyK valueV, .delete keyK, .reopen]) ∧
      0 < (session (fun _ => 0) Pool.fresh [.put keyK valueV, .delete keyK, .reopen]).pm.alloc ∧
      (leafSearch (session (fun _ => 0) Pool.fresh [.put keyK valueV, .delete keyK, .reopen]).vm
          keyK).map (session (fun _ => 0) Pool.fresh
            [.put keyK valueV, .delete keyK, .reopen]).vm.leaf ≠ some 0 ∧
      ((Cmd.put keyK valueV).step (fun _ => 0) (session (fun _ => 0) Pool.fresh
          [.put keyK valueV, .delete keyK, .reopen])).2.pm.leaves 0 =
        (session (fun _ => 0) Pool.fresh [.put keyK valueV, .delete keyK, .reopen]).pm.leaves 0 := by
  have h₀ : Reachable (fun _ => 0) (session (fun _ => 0) Pool.fresh [.put keyK valueV, .delete keyK]) :=
    reachable_session .fresh (by decide)
  have hreach : Reachable (fun _ => 0)
      (session (fun _ => 0) Pool.fresh [.put keyK valueV, .delete keyK, .reopen]) :=
    reachable_session .fresh (by decide)
  -- the reopening is one step after the session of the first two calls, whose leaf is empty
  have hlast : session (fun _ => 0) Pool.fresh [.put keyK valueV, .delete keyK, .reopen] =
      (Cmd.reopen.step (fun _ => 0)
        (session (fun _ => 0) Pool.fresh [.put keyK valueV, .delete keyK])).2 := rfl
  obtain ⟨htop, halloc, -⟩ := reopen_empty h₀.inv.1 (by decide)
  rw [hlast] at hreach ⊢
  have hpos : 0 < (Cmd.reopen.step (fun _ => 0)
      (session (fun _ => 0) Pool.fresh [.put keyK valueV, .delete keyK])).2.pm.alloc := by
    rw [halloc]
    decide
  have hfar : (leafSearch (Cmd.reopen.step (fun _ => 0)
      (session (fun _ => 0) Pool.fresh [.put keyK valueV, .delete keyK])).2.vm keyK).map
        (Cmd.reopen.step (fun _ => 0)
          (session (fun _ => 0) Pool.fresh [.put keyK valueV, .delete keyK])).2.vm.leaf ≠ some 0 := by
    simp [leafSearch, htop]
  exact ⟨hreach, hpos, hfar, (update_frame hreach (by decide) valueV hpos hfar).1⟩

/-! ## The images an update publishes -/

section Publish

variable {t : Tree}

/-- `Put` publishes exactly one image, -/
theorem Cmd.put_publishes (hI : Inv rodata t) (hk : key.IsCStr) (value : Slice) :
    ((Cmd.put key value).step rodata t).2.commits =
      ((Cmd.put key value).step rodata t).2.pm :: t.commits := by
  obtain ⟨p, v, b, cs⟩ := t
  obtain rfl : b = none := hI.budget
  obtain ⟨t', hrun, -, -, hc⟩ := put_spec hI hI.imageOK.stores_read hk value
  rw [step_put_of_run hrun]
  exact hc

/-- `Delete` of a key the tree does not store returns `OK` and changes nothing, -/
theorem Cmd.delete_absent (hI : Inv rodata t) (hk : key.IsCStr) (hnone : t.pm.read key.cstr = none) :
    (Cmd.delete key).step rodata t = (⟨some .ok, []⟩, t) := by
  obtain ⟨p, v, b, cs⟩ := t
  obtain rfl : b = none := hI.budget
  obtain ⟨t', hrun, -, -, habsent, -⟩ := delete_spec hI hI.imageOK.stores_read hk
  have hstep : (Cmd.delete key).step rodata ⟨p, v, none, cs⟩ = (⟨some .ok, []⟩, t') := by
    simp [Cmd.step, exec, hrun]
  rw [hstep, habsent hnone]

/-- and `Delete` of a stored key publishes exactly one image. -/
theorem Cmd.delete_publishes (hI : Inv rodata t) (hk : key.IsCStr)
    (hstored : t.pm.read key.cstr ≠ none) :
    ((Cmd.delete key).step rodata t).2.commits = ((Cmd.delete key).step rodata t).2.pm :: t.commits := by
  obtain ⟨p, v, b, cs⟩ := t
  obtain rfl : b = none := hI.budget
  obtain ⟨t', hrun, -, -, -, hfound⟩ := delete_spec hI hI.imageOK.stores_read hk
  have hstep : (Cmd.delete key).step rodata ⟨p, v, none, cs⟩ = (⟨some .ok, []⟩, t') := by
    simp [Cmd.step, exec, hrun]
  rw [hstep]
  exact hfound hstored

end Publish

/-- **One transaction per update.** On every reachable tree, `Put` (and so `Merge`) of a C string
key publishes exactly one image; `Delete` publishes one exactly when the key is stored, and
otherwise returns `OK` and changes nothing, persistent or volatile; so a second `Delete` of a key
changes nothing. -/
theorem update_publishes {t : Tree} (h : Reachable rodata t) (hk : key.IsCStr) (value : Slice) :
    ((Cmd.put key value).step rodata t).2.commits =
        ((Cmd.put key value).step rodata t).2.pm :: t.commits ∧
      (t.pm.read key.cstr ≠ none → ((Cmd.delete key).step rodata t).2.commits =
        ((Cmd.delete key).step rodata t).2.pm :: t.commits) ∧
      (t.pm.read key.cstr = none → (Cmd.delete key).step rodata t = (⟨some .ok, []⟩, t)) ∧
      (Cmd.delete key).step rodata ((Cmd.delete key).step rodata t).2 =
        (⟨some .ok, []⟩, ((Cmd.delete key).step rodata t).2) := by
  obtain ⟨hI, hne⟩ := h.inv
  refine ⟨Cmd.put_publishes hI hk value, Cmd.delete_publishes hI hk, Cmd.delete_absent hI hk, ?_⟩
  -- after the first `Delete` the key is not stored
  obtain ⟨p, v, b, cs⟩ := t
  obtain rfl : b = none := hI.budget
  obtain ⟨-, hI₁, -, hread⟩ := delete_step hI hne hk
  exact Cmd.delete_absent hI₁ hk (by rw [hread, Function.update_self])

/-- The forty-ninth `Put` of `cmdsS 49`, which splits, and `Delete` of its key before it. -/
theorem update_publishes_treeS48 :
    Reachable (fun _ => 0) treeS48 ∧ (keyOf 48).IsCStr ∧ treeS48.pm.read (keyOf 48).cstr = none ∧
      ((Cmd.put (keyOf 48) valueV).step (fun _ => 0) treeS48).2.commits =
        ((Cmd.put (keyOf 48) valueV).step (fun _ => 0) treeS48).2.pm :: treeS48.commits ∧
      (Cmd.delete (keyOf 48)).step (fun _ => 0) treeS48 = (⟨some .ok, []⟩, treeS48) := by
  have hread : treeS48.pm.read (keyOf 48).cstr = none := by decide +kernel
  obtain ⟨hput, -, hdel, -⟩ :=
    update_publishes treeS48_reachable (show (keyOf 48).IsCStr by decide) valueV
  exact ⟨treeS48_reachable, by decide, hread, hput, hdel hread⟩

end ScreeDB
