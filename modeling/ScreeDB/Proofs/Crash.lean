import ScreeDB.Txn.Crash
import ScreeDB.Proofs.Split
import ScreeDB.Proofs.Recover

/-!
# Crashes inside a call

Every program of the code is built from the primitives of the transaction machine with `bind`,
`if` and `match`, so a run of it with faults follows its run without faults (`Txn.Follows`). Each
proof below takes the program apart along its own structure, with the rules of `Txn.Follows` and
the lemmas of the programs it calls.

A call then publishes at most one image, so a crash at any of its persistent steps leaves the image
from before the call or the one the call publishes (`put_crash`, `delete_crash`, `shutdown_crash`,
`recover_crash`).
-/

namespace ScreeDB

open Txn

/-! ## Every program follows -/

theorem newNode_follows (f : Volatile → Nat × Volatile) : Follows (newNode f) :=
  .bind .readV fun v => .bind (.modifyV _) fun _ => .pure (f v).1

theorem setString_follows (c : Column) (a : Nat) (slot : Slot) (slice : Slice) :
    Follows (setString c a slot slice) := by
  unfold setString
  dsimp only
  repeat' (first
    | exact Follows.fallible | exact Follows.readP | exact Follows.modifyP _
    | exact Follows.pure _
    | refine Follows.bind ?_ fun _ => ?_ | refine Follows.ite ?_ ?_)

theorem swapString_follows (c : Column) (a b : Nat) (slot : Slot) :
    Follows (swapString c a b slot) :=
  .bind .fallible fun _ => .bind .fallible fun _ => .bind .readP fun _ => .modifyP _

theorem leafFillSpecificSlot_follows (leafnode : Nat) (hash : UInt8) (key value : Slice)
    (slot : Slot) : Follows (leafFillSpecificSlot leafnode hash key value slot) := by
  unfold leafFillSpecificSlot
  dsimp only
  repeat' (first
    | exact Follows.readV | exact Follows.modifyV _ | exact Follows.store _
    | exact Follows.pure _ | exact setString_follows _ _ _ _
    | refine Follows.bind ?_ fun _ => ?_ | refine Follows.ite ?_ ?_)

theorem leafFillFirstEmptySlot_follows (leafnode : Nat) (hash : UInt8) (key value : Slice) :
    Follows (leafFillFirstEmptySlot leafnode hash key value) := by
  refine .bind .readV fun v => ?_
  split
  · exact leafFillSpecificSlot_follows _ _ _ _ _
  · exact .pure _

theorem leafFillSlotForKey_follows (leafnode : Nat) (hash : UInt8) (key value : Slice) :
    Follows (leafFillSlotForKey leafnode hash key value) := by
  refine .bind .readV fun v => .bind .readP fun p => ?_
  -- the pair the scan returns, then the slot it chose
  split
  split
  · exact .bind (.exec_tx (leafFillSpecificSlot_follows _ _ _ _ _)) fun _ => .pure _
  · exact .pure _

theorem moveSlots_follows (leafnode new_leafnode leaf new_leaf : Nat) (split_key : CStr) :
    ∀ ss, Follows (moveSlots leafnode new_leafnode leaf new_leaf split_key ss)
  | [] => .pure _
  | slot :: ss => by
    unfold moveSlots
    dsimp only
    -- the moved slot's strings and hashes, then the rest of the slots
    repeat' (first
      | exact Follows.readP | exact Follows.readV | exact Follows.modifyV _
      | exact Follows.store _ | exact Follows.pure _
      | exact setString_follows _ _ _ _ | exact swapString_follows _ _ _ _
      | exact moveSlots_follows leafnode new_leafnode leaf new_leaf split_key ss
      | refine Follows.bind ?_ fun _ => ?_ | refine Follows.ite ?_ ?_)

theorem leafSplit_follows (leafnode : Nat) (hash : UInt8) (key value : Slice) :
    Follows (leafSplit leafnode hash key value) := by
  unfold leafSplit
  dsimp only
  repeat' (first
    | exact Follows.readP | exact Follows.readV | exact Follows.modifyV _
    | exact Follows.store _ | exact Follows.alloc _ | exact Follows.pure _
    | exact newNode_follows _ | exact moveSlots_follows _ _ _ _ _ _
    | exact leafFillFirstEmptySlot_follows _ _ _ _
    | refine Follows.exec_tx ?_
    | refine Follows.bind ?_ fun _ => ?_)

section Calls

variable (rodata : Int → UInt8)

theorem put_follows (key value : Slice) : Follows (put rodata key value) := by
  unfold put
  dsimp only
  refine .bind .readV fun v => ?_
  split
  · -- a head leaf, in one transaction
    repeat' (first
      | exact Follows.readP | exact Follows.modifyV _ | exact Follows.store _
      | exact Follows.alloc _ | exact Follows.pure _
      | exact newNode_follows _ | exact leafFillSpecificSlot_follows _ _ _ _ _
      | refine Follows.exec_tx ?_
      | refine Follows.bind ?_ fun _ => ?_)
  · refine .bind (leafFillSlotForKey_follows _ _ _ _) fun b => ?_
    split
    · exact .pure _
    · exact .bind (leafSplit_follows _ _ _ _) fun _ => .pure _

theorem delete_follows (key : Slice) : Follows (delete rodata key) := by
  unfold delete
  refine .bind .readV fun v => ?_
  split
  · exact .pure _
  · refine .bind .readP fun p => ?_
    dsimp only
    split
    · exact .bind (.modifyV _) fun _ => .bind (.exec_tx (.store _)) fun _ => .pure _
    · exact .pure _

end Calls

theorem recover_follows : Follows recover := by
  refine .bind .readP fun p => ?_
  split
  · exact .exec_tx (.bind (.store _) fun _ => .store _)
  · exact .bind (.modifyV _) fun _ => .exec_tx (.store _)

theorem shutdown_follows : Follows shutdown := .exec_tx (.store _)

/-! ## What a crash inside a call leaves -/

section Crash

variable {rodata : Int → UInt8} {p : Pool} {v : Volatile} {cs : List Pool}

/-- A crash inside `Put` leaves the image from before or the one `Put` publishes. -/
theorem put_crash (hI : Inv rodata ⟨p, v, none, cs⟩) (hne : cs ≠ []) {key : Slice}
    (hk : key.IsCStr) (value : Slice) (k : Nat) :
    crashAt (put rodata key value) ⟨p, v, none, cs⟩ k = p ∨
      crashAt (put rodata key value) ⟨p, v, none, cs⟩ k =
        (exec (put rodata key value) ⟨p, v, none, cs⟩).2.pm := by
  obtain ⟨t', hrun, -, -, hc⟩ := put_spec hI hI.imageOK.stores_read hk value
  have hexec : (exec (put rodata key value) ⟨p, v, none, cs⟩).2 = t' := by simp [exec, hrun]
  have h := (put_follows rodata key value).durable_of_publish rfl hrun (c := t'.pm)
    (by rw [hc]) hne k
  rwa [hI.durable, ← hexec] at h

/-- A crash inside `Delete` leaves the image from before or the one `Delete` publishes when it
finds the key. -/
theorem delete_crash (hI : Inv rodata ⟨p, v, none, cs⟩) (hne : cs ≠ []) {key : Slice}
    (hk : key.IsCStr) (k : Nat) :
    crashAt (delete rodata key) ⟨p, v, none, cs⟩ k = p ∨
      crashAt (delete rodata key) ⟨p, v, none, cs⟩ k =
        (exec (delete rodata key) ⟨p, v, none, cs⟩).2.pm := by
  obtain ⟨t', hrun, -, -, habsent, hfound⟩ := delete_spec hI hI.imageOK.stores_read hk
  have hexec : (exec (delete rodata key) ⟨p, v, none, cs⟩).2 = t' := by simp [exec, hrun]
  -- the key absent, `Delete` publishes nothing
  have hc : t'.commits <:+ t'.pm :: cs := by
    by_cases hnone : p.read key.cstr = none
    · rw [habsent hnone]
      exact List.suffix_cons _ _
    · rw [hfound hnone]
  have h := (delete_follows rodata key).durable_of_publish rfl hrun hc hne k
  rwa [hI.durable, ← hexec] at h

theorem shutdown_run : shutdown ⟨p, v, none, cs⟩ =
    .ok () ⟨p.setClosed (p.root.closed + 1), v, none, p.setClosed (p.root.closed + 1) :: cs⟩ :=
  rfl

theorem closeTree_eq : closeTree ⟨p, v, none, cs⟩ = p.setClosed (p.root.closed + 1) := rfl

/-- A crash inside the destructor leaves the image from before or the closed one. -/
theorem shutdown_crash (hne : cs ≠ []) (k : Nat) :
    crashAt shutdown ⟨p, v, none, cs⟩ k = (⟨p, v, none, cs⟩ : Tree).durable ∨
      crashAt shutdown ⟨p, v, none, cs⟩ k = closeTree ⟨p, v, none, cs⟩ :=
  shutdown_follows.durable_of_publish rfl shutdown_run (List.suffix_refl _) hne k

theorem recover_run (p : Pool) : recover (Txn.Machine.start p .empty) = .ok () (openTree p) := by
  cases hh : p.root.head with
  | none => rw [recover_run_none hh, openTree_of_head_none hh]
  | some a => rw [recover_run_some hh, openTree_of_head_some hh]

theorem openTree_commits (p : Pool) : (openTree p).commits = [(openTree p).pm, p] := by
  cases hh : p.root.head with
  | none => rw [openTree_of_head_none hh]
  | some a => rw [openTree_of_head_some hh]

/-- A crash inside the constructor's `Recover` leaves the image it opened or the one it
publishes. -/
theorem recover_crash (p : Pool) (k : Nat) :
    crashAt recover (Txn.Machine.start p .empty) k = p ∨
      crashAt recover (Txn.Machine.start p .empty) k = (openTree p).pm :=
  recover_follows.durable_of_publish rfl (recover_run p) (c := (openTree p).pm)
    (by rw [openTree_commits]; exact List.suffix_refl _) (List.cons_ne_nil _ _) k

end Crash

end ScreeDB
