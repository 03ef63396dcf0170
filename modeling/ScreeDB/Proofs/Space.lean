import Mathlib.Algebra.BigOperators.Group.Finset.Basic
import ScreeDB.Proofs.Reopen

/-!
# How many leaves a run allocates

ScreeDB never frees a leaf. `LeafSplit` keeps the 25 smallest of the 49 keys in the full leaf and
moves the other 24 to the new one, so neither half can split again before it takes 23 more keys,
and only `Put` and `Merge` add a key, one each. Splits therefore allocate at most one leaf per 23
calls of `Put`. The other allocation is the head leaf `Put` makes when `top_` is null: on a pool
that already has leaves this happens only after a reopening, when `RebuildNodes` has left every
(empty) leaf out of the index. Those empty leaves are then never used again.

The bound is amortized by a potential (`potential`): 23 for every allocated leaf but one while
the index is not empty, and the keys each leaf holds beyond the 25 a split leaves (`excess`).

* `LeafOK.card_occupied_le`, `card_occupied_fillSlot_le`, `card_occupied_setHash_zero_le`: the
  occupied slots of a leaf, against its keys, a write and a delete;
* `SplitCommit.excess_add`: a split turns the 23 excess keys of the full leaf into a leaf;
* `Cmd.step_potential`: a call raises the potential by at most its credit (`Cmd.credit`): one for
  `Put` and `Merge`, 23 for a reopening, none for `Delete` and `Get`;
* `session_potential_le`: over every session on a stored image, and into the image a crash
  leaves;
* `fresh_session_alloc_le`: from a new pool, `23 * (alloc - 1)` is at most the number of `Put`s and
  `Merge`s plus 23 per reopening;
* `reopen_put_allocates`: once every leaf is empty, a reopening and a `Put` allocate a new leaf
  and leave the old ones empty.
-/

namespace ScreeDB

open Txn ScreeDBLeaf ScreeDBNode

/-- A sum over `s` of a function changed at one point `a ∈ s` only. -/
theorem sum_add_eq_of_eq_off {ι : Type} [DecidableEq ι] {s : Finset ι} {f g : ι → Nat} {a : ι}
    (ha : a ∈ s) (h : ∀ b ∈ s, b ≠ a → g b = f b) :
    ∑ b ∈ s, g b + f a = ∑ b ∈ s, f b + g a := by
  have hg := Finset.add_sum_erase s g ha
  have hf := Finset.add_sum_erase s f ha
  have he : ∑ b ∈ s.erase a, g b = ∑ b ∈ s.erase a, f b :=
    Finset.sum_congr rfl fun b hb => h b (Finset.mem_of_mem_erase hb) (Finset.ne_of_mem_erase hb)
  rw [← hg, ← hf, he]
  omega

/-! ## The occupied slots of a leaf -/

namespace ScreeDBLeaf

/-- The occupied slots: those whose hash is not `0`. -/
def occupied (l : ScreeDBLeaf) : Finset Slot := Finset.univ.filter fun s => l.hashes s ≠ 0

/-- The keys a leaf holds beyond the 25 that `LeafSplit` leaves in the old leaf. -/
def excess (l : ScreeDBLeaf) : Nat := l.occupied.card - 25

variable {l : ScreeDBLeaf}

theorem mem_occupied {s : Slot} : s ∈ l.occupied ↔ l.hashes s ≠ 0 := by
  simp [occupied]

/-- A write occupies at most its own slot. -/
theorem card_occupied_fillSlot_le (free : Bool) (slot : Slot) (hash : UInt8) (key value : Slice) :
    (l.fillSlot free slot hash key value).occupied.card ≤ l.occupied.card + 1 := by
  calc (l.fillSlot free slot hash key value).occupied.card ≤ (insert slot l.occupied).card := by
        refine Finset.card_le_card fun s hs => ?_
        rw [mem_occupied, fillSlot_hashes] at hs
        by_cases h : s = slot
        · simp [h]
        · rw [if_neg h] at hs
          exact Finset.mem_insert_of_mem (mem_occupied.2 hs)
    _ ≤ l.occupied.card + 1 := Finset.card_insert_le _ _

/-- Clearing a hash occupies nothing new. -/
theorem card_occupied_setHash_zero_le (slot : Slot) :
    (l.setHash slot 0).occupied.card ≤ l.occupied.card := by
  refine Finset.card_le_card fun s hs => ?_
  rw [mem_occupied, setHash_hashes] at hs
  by_cases h : s = slot
  · rw [if_pos h] at hs
    exact absurd rfl hs
  · rw [if_neg h] at hs
    exact mem_occupied.2 hs

/-- A full leaf occupies all its `NODE_KEYS` slots. -/
theorem card_occupied_of_full (h : ∀ s, l.hashes s ≠ 0) : l.occupied.card = NODE_KEYS := by
  have huniv : l.occupied = Finset.univ := Finset.filter_true_of_mem fun s _ => h s
  rw [huniv, Finset.card_univ, Fintype.card_fin]

theorem Empty.excess (h : l.Empty) : l.excess = 0 := by
  have hnone : l.occupied = ∅ := Finset.filter_false_of_mem fun s _ => not_not.2 (h s)
  simp [ScreeDBLeaf.excess, hnone]

end ScreeDBLeaf

/-- The occupied slots of a well-formed leaf hold distinct keys: no more than a list that has all
the keys the leaf holds. -/
theorem LeafOK.card_occupied_le {rodata : Int → UInt8} {l : ScreeDBLeaf} (hl : LeafOK rodata l)
    {L : List CStr} (h : ∀ k, l.Holds k → k ∈ L) : l.occupied.card ≤ L.length := by
  calc l.occupied.card ≤ L.toFinset.card := by
        refine Finset.card_le_card_of_injOn (fun s => (l.kv_keys s).data) ?_ ?_
        · intro s hs
          exact List.mem_toFinset.2 (h _ ⟨s, mem_occupied.1 (Finset.mem_coe.1 hs), rfl⟩)
        · intro s hs t ht hst
          exact hl.distinct s t _ ⟨mem_occupied.1 (Finset.mem_coe.1 hs), rfl⟩
            ⟨mem_occupied.1 (Finset.mem_coe.1 ht), hst.symm⟩
    _ ≤ L.length := List.toFinset_card_le L

/-! ## The excess keys of a pool -/

namespace Pool

/-- The excess keys of the allocated leaves. -/
def excess (p : Pool) : Nat := ∑ a ∈ Finset.range p.alloc, (p.leaves a).excess

/-- What the image accounts for: 23 for each leaf but the first, and the excess keys. -/
def charge (p : Pool) : Nat := 23 * (p.alloc - 1) + p.excess

variable {p q : Pool}

theorem excess_congr (hl : q.leaves = p.leaves) (ha : q.alloc = p.alloc) : q.excess = p.excess := by
  rw [excess, excess, hl, ha]

theorem excess_eq_zero (h : ∀ a < p.alloc, (p.leaves a).excess = 0) : p.excess = 0 :=
  Finset.sum_eq_zero fun a ha => h a (Finset.mem_range.1 ha)

/-- Changing one allocated leaf changes the excess by at most what it changes in that leaf. -/
theorem excess_modifyLeaf_le {a d : Nat} (ha : a < p.alloc) {f : ScreeDBLeaf → ScreeDBLeaf}
    (hf : (f (p.leaves a)).excess ≤ (p.leaves a).excess + d) :
    (p.modifyLeaf a f).excess ≤ p.excess + d := by
  have hsum := sum_add_eq_of_eq_off (f := fun b => (p.leaves b).excess)
    (g := fun b => ((p.modifyLeaf a f).leaves b).excess) (Finset.mem_range.2 ha)
    fun b _ hb => by simp [hb]
  simp only [modifyLeaf_leaves, if_true] at hsum
  rw [excess, modifyLeaf_alloc]
  simp only [modifyLeaf_leaves]
  rw [excess]
  omega

/-- The destructor's counter is not part of the charge. -/
@[simp] theorem charge_setClosed (n : UInt64) : (p.setClosed n).charge = p.charge := by
  rw [charge, charge, setClosed_alloc, excess_congr (setClosed_leaves _ _) (setClosed_alloc _ _)]

/-- A pool with one more leaf and the others kept. -/
theorem excess_push (halloc : q.alloc = p.alloc + 1) (h : ∀ a < p.alloc, q.leaves a = p.leaves a) :
    q.excess = p.excess + (q.leaves p.alloc).excess := by
  rw [excess, halloc, Finset.sum_range_succ, excess]
  congr 1
  exact Finset.sum_congr rfl fun a ha => by rw [h a (Finset.mem_range.1 ha)]

end Pool

/-- The potential of a running tree: 23 for each allocated leaf but one while the index is not
empty, and the excess keys. -/
def potential (t : Tree) : Nat :=
  23 * (t.pm.alloc - if t.vm.top_.isSome then 1 else 0) + t.pm.excess

theorem charge_le_potential (t : Tree) : t.pm.charge ≤ potential t := by
  unfold potential Pool.charge
  split <;> omega

/-- What a call may add to the potential: a key for `Put` and `Merge`, a head leaf for the
constructor a reopening runs. -/
def Cmd.credit : Cmd → Nat
  | .put _ _ | .merge _ _ => 1
  | .reopen => 23
  | .delete _ | .get _ _ => 0

/-! ## One call -/

section Step

variable {rodata : Int → UInt8} {p : Pool} {v : Volatile} {cs : List Pool} {key : Slice}

theorem leafSearch_top {n : Nat} (h : leafSearch v key = some n) : v.top_.isSome := by
  cases htop : v.top_ with
  | none => simp [leafSearch, htop] at h
  | some T => rfl

/-- The leaf node `LeafSearch` finds points to an allocated leaf. -/
theorem Inv.search_lt (hI : Inv rodata ⟨p, v, none, cs⟩) {n : Nat} (h : leafSearch v key = some n) :
    v.leaf n < p.alloc := by
  cases htop : v.top_ with
  | none => simp [leafSearch, htop] at h
  | some T =>
    have hn : leafSearchFrom key.cstr T = some n := by simpa [leafSearch, htop] using h
    exact ((indexInv_some htop).1 hI.index).ptr_lt n (leafSearchFrom_mem T hn)

/-- The split branch of `Put`, seen from the index: the leaf node `n` that `LeafSearch` finds is
a leaf of the tree under `top_`, and the split gives the walk the keys `SplitKeys` asks for. -/
theorem SplitCommit.index {n : Nat} {value : Slice} {p' : Pool} {vw : Volatile}
    (hc : SplitCommit rodata p v n key value p' vw) (hI : Inv rodata ⟨p, v, none, cs⟩)
    (hn : leafSearch v key = some n) (hkey : ¬ (p.leaves (v.leaf n)).Holds key.cstr)
    (hfull : ∀ s, (p.leaves (v.leaf n)).hashes s ≠ 0) :
    ∃ T, v.top_ = some T ∧ IndexOK rodata p v T ∧ n ∈ leafIds T ∧
      SplitKeys (nodeKeys p v) (nodeKeys p' vw) T n v.next_id
        (splitKey (p.leaves (v.leaf n)) key.cstr) := by
  obtain ⟨T, htop⟩ := Option.isSome_iff_exists.1 (leafSearch_top hn)
  have hT : IndexOK rodata p v T := (indexInv_some htop).1 hI.index
  have hnT : leafSearchFrom key.cstr T = some n := by simpa [leafSearch, htop] using hn
  have hln := leafSearchFrom_mem T hnT
  exact ⟨T, htop, hT, hln,
    hc.keys hT hnT hfull (splitKeys_nodup (hT.leafOK hI.pool hln) hfull hkey)⟩

/-- A tree that stores a key has an index. -/
theorem Inv.top_isSome {t : Tree} (hI : Inv rodata t) {k x : CStr} (h : t.pm.read k = some x) :
    t.vm.top_.isSome := by
  obtain ⟨a, ha, hm⟩ := (hI.imageOK.stores_read k x).1 h
  cases htop : t.vm.top_ with
  | none => exact absurd hm ((indexInv_none htop).1 hI.index a ha |>.not_maps k x)
  | some T => rfl

theorem put_top_isSome (hI : Inv rodata ⟨p, v, none, cs⟩) (hk : key.IsCStr) (value : Slice) :
    ((Cmd.put key value).step rodata ⟨p, v, none, cs⟩).2.vm.top_.isSome := by
  obtain ⟨-, hI', -, hread⟩ := put_step hI hk value
  exact hI'.top_isSome (k := key.cstr) (x := value.cstr) (by simp [hread])

/-- The head leaf branch of `Put`: one new leaf holding the key, the others kept, and an index of
one leaf node. -/
theorem put_head_step (rodata : Int → UInt8) (cs : List Pool) (h : leafSearch v key = none)
    (value : Slice) :
    ((Cmd.put key value).step rodata ⟨p, v, none, cs⟩).2.pm.alloc = p.alloc + 1 ∧
      (∀ a < p.alloc, ((Cmd.put key value).step rodata ⟨p, v, none, cs⟩).2.pm.leaves a = p.leaves a) ∧
      ((Cmd.put key value).step rodata ⟨p, v, none, cs⟩).2.pm.leaves p.alloc =
        (ScreeDBLeaf.zero.setNext p.root.head).fillSlot true ⟨0, by decide⟩ (key.hash rodata) key
          value := by
  rw [step_put_of_run (put_run_head rodata key value h)]
  exact ⟨by simp, fun a ha => by simp [Nat.ne_of_lt ha], by simp⟩

/-- A split turns the 23 excess keys of the full leaf into a leaf: the old leaf keeps 25 keys and
the new one takes 24. -/
theorem SplitCommit.excess_add {ln : Nat} {value : Slice} {p' : Pool} {vw : Volatile}
    (hc : SplitCommit rodata p v ln key value p' vw) (hl : LeafOK rodata (p.leaves (v.leaf ln)))
    (ha : v.leaf ln < p.alloc) (hfull : ∀ s, (p.leaves (v.leaf ln)).hashes s ≠ 0)
    (hkey : ¬ (p.leaves (v.leaf ln)).Holds key.cstr) : p'.excess + 23 = p.excess := by
  have hK := splitKeys_nodup hl hfull hkey
  -- every key of either half is one of the 49 keys, on its side of the split key
  have hmem : ∀ k, (k = key.cstr ∨ (p.leaves (v.leaf ln)).Holds k) →
      k ∈ splitKeys (p.leaves (v.leaf ln)) key.cstr := by
    rintro k (rfl | ⟨s, -, rfl⟩)
    · exact mem_splitKeys.2 (.inr rfl)
    · exact mem_splitKeys.2 (.inl ⟨s, rfl⟩)
  have hold : (p'.leaves (v.leaf ln)).excess = 0 := by
    have hle := hc.ok_old.card_occupied_le
      (L := (splitKeys (p.leaves (v.leaf ln)) key.cstr).filter
        fun k => decide (k ≤ splitKey (p.leaves (v.leaf ln)) key.cstr))
      fun k hk => by
        obtain ⟨hle, hk'⟩ := hc.holds_old hk
        exact List.mem_filter.2 ⟨hmem k hk', decide_eq_true hle⟩
    rw [← List.countP_eq_length_filter, splitKey_rank_le hK] at hle
    unfold ScreeDBLeaf.excess
    omega
  have hnew : (p'.leaves p.alloc).excess = 0 := by
    have hle := hc.ok_new.card_occupied_le
      (L := (splitKeys (p.leaves (v.leaf ln)) key.cstr).filter
        fun k => decide (splitKey (p.leaves (v.leaf ln)) key.cstr < k))
      fun k hk => by
        obtain ⟨hlt, hk'⟩ := hc.holds_new hk
        exact List.mem_filter.2 ⟨hmem k hk', decide_eq_true hlt⟩
    rw [← List.countP_eq_length_filter, splitKey_rank_gt hK] at hle
    unfold ScreeDBLeaf.excess
    omega
  have hfull' : (p.leaves (v.leaf ln)).excess = 23 := by
    rw [ScreeDBLeaf.excess, card_occupied_of_full hfull]
    rfl
  -- the leaves below `alloc` other than the split one are kept
  have hsum := sum_add_eq_of_eq_off (f := fun b => (p.leaves b).excess)
    (g := fun b => (p'.leaves b).excess) (Finset.mem_range.2 ha)
    fun b hb hne => by rw [hc.other b hne (Nat.ne_of_lt (Finset.mem_range.1 hb))]
  simp only [hold, hfull'] at hsum
  rw [Pool.excess, hc.alloc, Finset.sum_range_succ, hnew, Pool.excess]
  omega

/-- **`Put` adds at most one to the potential**: a write adds at most one excess key, a split
turns 23 excess keys into a leaf, and a head leaf is paid for by the empty index. -/
theorem put_potential (hI : Inv rodata ⟨p, v, none, cs⟩) (hk : key.IsCStr) (value : Slice) :
    potential ((Cmd.put key value).step rodata ⟨p, v, none, cs⟩).2 ≤
      potential ⟨p, v, none, cs⟩ + 1 := by
  have htop' := put_top_isSome hI hk value
  rcases put_cases hI hk value with hhead | ⟨n, s, hsearch, -, -, -, hrun⟩ |
    ⟨n, hsearch, hkey, hfull, p', vw, hrun, hc⟩
  · -- the index was empty, so were all leaves; the new one holds one key
    have htop := hhead.1
    have hsearch : leafSearch v key = none := by simp [leafSearch, htop]
    obtain ⟨halloc, hold, hnew⟩ := put_head_step rodata cs hsearch value
    have hzero : p.excess = 0 :=
      Pool.excess_eq_zero fun a ha => ((indexInv_none htop).1 hI.index a ha).excess
    have hzero' : ((Cmd.put key value).step rodata ⟨p, v, none, cs⟩).2.pm.excess = 0 := by
      rw [Pool.excess_push halloc hold, hzero, hnew]
      have hle := card_occupied_fillSlot_le (l := ScreeDBLeaf.zero.setNext p.root.head) true
        ⟨0, by decide⟩ (key.hash rodata) key value
      have h0 : (ScreeDBLeaf.zero.setNext p.root.head).occupied.card = 0 := by
        rw [Finset.card_eq_zero]
        exact Finset.filter_false_of_mem fun s _ => not_not.2 rfl
      unfold ScreeDBLeaf.excess
      omega
    simp only [potential, htop', htop, halloc, hzero, hzero', if_true, Option.isSome_none,
      Bool.false_eq_true, if_false]
    omega
  · -- a write into a slot of the leaf `LeafSearch` finds
    rw [step_put_of_run hrun] at htop' ⊢
    have hle := Pool.excess_modifyLeaf_le (p := p) (hI.search_lt hsearch) (d := 1)
      (f := (·.fillSlot (v.hashes n s = 0) s (key.hash rodata) key value)) (by
        have := card_occupied_fillSlot_le (l := p.leaves (v.leaf n)) (v.hashes n s = 0) s
          (key.hash rodata) key value
        unfold ScreeDBLeaf.excess
        omega)
    simp only [potential, Volatile.setHash_top_, Pool.modifyLeaf_alloc, leafSearch_top hsearch,
      if_true]
    omega
  · -- a split: one more leaf, paid for by the 23 excess keys of the full one
    have ha := hI.search_lt hsearch
    have hexcess := hc.excess_add (hI.pool.leaves _ ha) ha hfull hkey
    rw [step_put_of_run hrun] at htop' ⊢
    simp only [potential, htop', leafSearch_top hsearch, if_true, hc.alloc]
    omega

/-- `Delete` adds nothing: it frees a slot in both copies, or changes nothing. -/
theorem delete_potential (hI : Inv rodata ⟨p, v, none, cs⟩) (key : Slice) :
    potential ((Cmd.delete key).step rodata ⟨p, v, none, cs⟩).2 ≤ potential ⟨p, v, none, cs⟩ := by
  rcases delete_cases key with hstep | ⟨n, s, hn, -, hstep⟩
  · rw [hstep]
  · have hle := Pool.excess_modifyLeaf_le (p := p) (hI.search_lt hn) (d := 0)
      (f := (·.setHash s 0)) (by
        have := card_occupied_setHash_zero_le (l := p.leaves (v.leaf n)) s
        unfold ScreeDBLeaf.excess
        omega)
    rw [hstep]
    simp only [potential, Volatile.setHash_top_, Pool.modifyLeaf_alloc, leafSearch_top hn, if_true]
    omega

/-- The constructor keeps the leaves; the index it rebuilds may be empty, which the credit of a
head leaf pays for. -/
theorem openTree_potential (q : Pool) : potential (openTree q) ≤ q.charge + 23 := by
  have hexcess : (openTree q).pm.excess = q.excess :=
    Pool.excess_congr (openTree_leaves q) (openTree_alloc q)
  unfold potential Pool.charge
  rw [hexcess, openTree_alloc]
  split <;> omega

theorem reopen_potential (hI : Inv rodata ⟨p, v, none, cs⟩) :
    potential (Cmd.reopen.step rodata ⟨p, v, none, cs⟩).2 ≤ potential ⟨p, v, none, cs⟩ + 23 := by
  rw [(reopen_step hI).1]
  have hcharge := Pool.charge_setClosed (p := p) (p.root.closed + 1)
  have hbefore : p.charge ≤ potential ⟨p, v, none, cs⟩ := charge_le_potential ⟨p, v, none, cs⟩
  have hopen := openTree_potential (p.setClosed (p.root.closed + 1))
  omega

/-- **A call adds at most its credit to the potential.** -/
theorem Cmd.step_potential {t : Tree} {c : Cmd} (hI : Inv rodata t) (hc : c.KeysCStr) :
    potential (c.step rodata t).2 ≤ potential t + c.credit := by
  obtain ⟨p, v, b, cs⟩ := t
  obtain rfl : b = none := hI.budget
  cases c with
  | put key value | merge key value => exact put_potential hI hc value
  | delete key => exact delete_potential hI key
  | get key value => exact Nat.le_add_right _ _
  | reopen => exact reopen_potential hI

/-- A crash inside a call leaves the image from before it, or one the call publishes. -/
theorem Cmd.crash_charge {t : Tree} {c : Cmd} (hI : Inv rodata t) (hne : t.commits ≠ [])
    (hc : c.KeysCStr) (k : Nat) : (c.crash rodata t k).charge ≤ potential t + c.credit := by
  have hstep := Cmd.step_potential hI hc
  have hafter := charge_le_potential (c.step rodata t).2
  obtain ⟨p, v, b, cs⟩ := t
  obtain rfl : b = none := hI.budget
  have hbefore : p.charge ≤ potential ⟨p, v, none, cs⟩ := charge_le_potential ⟨p, v, none, cs⟩
  by_cases hu : c.IsUpdate
  · rcases Cmd.crash_of_update hI hne hu hc k with h | h
    · rw [h]
      exact Nat.le_add_right_of_le hbefore
    · rw [h]
      exact hafter.trans hstep
  cases c with
  | put key value | merge key value | delete key => exact absurd trivial hu
  | get key value =>
    -- `Get` writes nothing: the image is the one last published
    rw [Cmd.crash, crashTree, hI.durable]
    exact Nat.le_add_right_of_le hbefore
  | reopen =>
    rcases shutdown_crash hne k with h | h
    · rw [Cmd.crash, h, hI.durable]
      exact Nat.le_add_right_of_le hbefore
    · -- the closed image has the leaves of before
      rw [Cmd.crash, h, closeTree_eq, Pool.charge_setClosed]
      exact Nat.le_add_right_of_le hbefore

end Step

/-! ## Sessions -/

section Session

variable {rodata : Int → UInt8}

/-- Over a session, the potential rises by at most the credits of its calls. -/
theorem session_potential {p : Pool} (hp : ImageOK rodata p) {cmds : List Cmd}
    (hc : ∀ c ∈ cmds, c.KeysCStr) :
    potential (session rodata p cmds) ≤ potential (openTree p) + (cmds.map Cmd.credit).sum := by
  unfold session
  refine Sim.last_potential (I := fun t => Inv rodata t ∧ t.commits ≠ []) potential Cmd.credit
    ?_ ?_ hc ⟨openTree_inv hp, by simp [openTree_commits]⟩
  · intro t c hc' hI
    exact Cmd.step_inv hI.1 hI.2 hc'
  · intro t c hc' hI
    exact Cmd.step_potential hI.1 hc'

/-- **The potential bounds the leaves a session allocates.** On every stored image, the
constructor opens a tree whose potential is at most the image's charge and 23; every session of
calls whose keys are C strings then raises it by at most one per `Put` or `Merge` and 23 per
reopening; and a crash inside the next call leaves an image whose charge is at most the
potential with that call's credit. -/
theorem session_potential_le {p : Pool} (hp : Stored rodata p) {cmds : List Cmd}
    (hc : ∀ c ∈ cmds, c.KeysCStr) :
    potential (openTree p) ≤ p.charge + 23 ∧
      potential (session rodata p cmds) ≤ potential (openTree p) + (cmds.map Cmd.credit).sum ∧
      (∀ c : Cmd, c.KeysCStr →
        potential (c.step rodata (session rodata p cmds)).2 ≤
          potential (session rodata p cmds) + c.credit) ∧
      ∀ c : Cmd, c.KeysCStr → ∀ k,
        (c.crash rodata (session rodata p cmds) k).charge ≤
          potential (session rodata p cmds) + c.credit := by
  have himg := hp.imageOK
  obtain ⟨hI, hne⟩ := session_inv himg hc
  exact ⟨openTree_potential p, session_potential himg hc, fun c hc' => Cmd.step_potential hI hc',
    fun c hc' k => Cmd.crash_charge hI hne hc' k⟩

/-- Forty-eight `Put`s from a new pool, then the forty-ninth, which splits the full leaf and
allocates a second one. -/
theorem session_potential_le_splitS :
    (∀ c ∈ cmdsS 48, c.KeysCStr) ∧
      potential treeS48 ≤ potential (openTree Pool.fresh) + ((cmdsS 48).map Cmd.credit).sum ∧
      potential treeS ≤ potential treeS48 + 1 := by
  have hc : ∀ c ∈ cmdsS 48, c.KeysCStr := by decide
  obtain ⟨-, hrun, hstep, -⟩ := session_potential_le .fresh hc
  refine ⟨hc, hrun, ?_⟩
  have h := hstep (.put (keyOf 48) valueV) (by decide)
  rw [show session (fun _ => 0) Pool.fresh (cmdsS 48) = treeS48 from rfl, ← treeS_eq_step,
    Cmd.credit] at h
  exact h

theorem potential_openTree_fresh : potential (openTree Pool.fresh) = 0 := by
  rw [openTree_of_head_none rfl]
  rfl

/-- **A leaf per 23 `Put`s, or per reopening.** From a new pool, every session of calls whose
keys are C strings has allocated at most one leaf, and one more for each 23 credits of its calls:
a `Put` or `Merge` is one, a reopening 23. A crash inside the next call leaves an image with no
more leaves than that call's credit adds. -/
theorem fresh_session_alloc_le {cmds : List Cmd} (hc : ∀ c ∈ cmds, c.KeysCStr) :
    23 * ((session rodata Pool.fresh cmds).pm.alloc - 1) ≤ (cmds.map Cmd.credit).sum ∧
      ∀ c : Cmd, c.KeysCStr → ∀ k,
        23 * ((c.crash rodata (session rodata Pool.fresh cmds) k).alloc - 1) ≤
          ((cmds ++ [c]).map Cmd.credit).sum := by
  have himg := imageOK_fresh rodata
  obtain ⟨hI, hne⟩ := session_inv himg hc
  have hrun := session_potential himg hc
  rw [potential_openTree_fresh, Nat.zero_add] at hrun
  have hend := charge_le_potential (session rodata Pool.fresh cmds)
  refine ⟨?_, fun c hc' k => ?_⟩
  · unfold Pool.charge at hend
    omega
  · have hcrash := Cmd.crash_charge hI hne hc' k
    unfold Pool.charge at hcrash
    rw [List.map_append, List.sum_append, List.map_singleton, List.sum_singleton]
    omega

/-- The session of `cmdsS 49` on a new pool, which allocates two leaves. -/
theorem fresh_session_alloc_le_splitS :
    (∀ c ∈ cmdsS 49, c.KeysCStr) ∧
      23 * (treeS.pm.alloc - 1) ≤ ((cmdsS 49).map Cmd.credit).sum ∧
      ∀ c : Cmd, c.KeysCStr → ∀ k,
        23 * ((c.crash (fun _ => 0) treeS k).alloc - 1) ≤ ((cmdsS 49 ++ [c]).map Cmd.credit).sum := by
  have hc : ∀ c ∈ cmdsS 49, c.KeysCStr := by decide
  have h := @fresh_session_alloc_le (fun _ => 0) (cmdsS 49) hc
  rw [show session (fun _ => 0) Pool.fresh (cmdsS 49) = treeS from rfl] at h
  exact ⟨hc, h⟩

end Session

/-! ## Empty leaves are never reused -/

section Reuse

variable {rodata : Int → UInt8} {key : Slice}

/-- On an image whose leaves are all empty, the constructor leaves `top_` null. -/
theorem openTree_top_eq_none {q : Pool} (h : ImageOK rodata q)
    (hall : ∀ a < q.alloc, (q.leaves a).Empty) : (openTree q).vm.top_ = none := by
  cases hh : q.root.head with
  | none => rw [openTree_of_head_none hh]; rfl
  | some a =>
    rw [openTree_of_head_some hh]
    -- `RebuildNodes` leaves the empty leaves out of the index
    exact (h.rebuilt .empty).1.2 fun a ha => hall a (by simpa using ha)

/-- Reopening a tree whose leaves are all empty leaves an empty index over the same leaves. -/
theorem reopen_empty {t : Tree} (hI : Inv rodata t)
    (hempty : ∀ a < t.pm.alloc, (t.pm.leaves a).Empty) :
    (Cmd.reopen.step rodata t).2.vm.top_ = none ∧
      (Cmd.reopen.step rodata t).2.pm.alloc = t.pm.alloc ∧
      (Cmd.reopen.step rodata t).2.pm.leaves = t.pm.leaves := by
  obtain ⟨hh, hl, ha⟩ := closeTree_same hI.budget
  refine ⟨openTree_top_eq_none hI.closeTree.1 fun a h => ?_, (openTree_alloc _).trans ha,
    (openTree_leaves _).trans hl⟩
  rw [hl]
  exact hempty a (ha ▸ h)

/-- **An emptied tree never reuses its leaves.** On every reachable tree whose leaves are all
empty (every key was deleted), a reopening and a `Put` allocate a new leaf and leave every leaf of
before empty: `RebuildNodes` leaves empty leaves out of the index, and `Put` on an empty index
makes a new head leaf. -/
theorem reopen_put_allocates {t : Tree} (h : Reachable rodata t)
    (hempty : ∀ a < t.pm.alloc, (t.pm.leaves a).Empty) (value : Slice) :
    ((Cmd.put key value).step rodata (Cmd.reopen.step rodata t).2).2.pm.alloc = t.pm.alloc + 1 ∧
      ∀ a < t.pm.alloc,
        (((Cmd.put key value).step rodata (Cmd.reopen.step rodata t).2).2.pm.leaves a).Empty := by
  obtain ⟨hI, hne⟩ := h.inv
  obtain ⟨htop, halloc₁, hleaves₁⟩ := reopen_empty hI hempty
  have hI₁ := (Cmd.step_inv hI hne (c := .reopen) trivial).1
  generalize (Cmd.reopen.step rodata t).2 = t₁ at htop halloc₁ hleaves₁ hI₁ ⊢
  obtain ⟨p₁, v₁, b₁, cs₁⟩ := t₁
  obtain rfl : b₁ = none := hI₁.budget
  -- the index is empty, so `Put` makes a new head leaf
  have hsearch : leafSearch v₁ key = none := by
    have htop' : v₁.top_ = none := htop
    simp [leafSearch, htop']
  obtain ⟨halloc, hold, -⟩ := put_head_step rodata cs₁ hsearch value
  have halloc' : p₁.alloc = t.pm.alloc := halloc₁
  refine ⟨by rw [halloc, halloc'], fun a ha => ?_⟩
  rw [hold a (halloc' ▸ ha)]
  exact (congrFun hleaves₁ a).symm ▸ hempty a ha

theorem reopen_put_allocates_deletedK :
    Reachable (fun _ => 0) (session (fun _ => 0) Pool.fresh [.put keyK valueV, .delete keyK]) ∧
      (∀ a < (session (fun _ => 0) Pool.fresh [.put keyK valueV, .delete keyK]).pm.alloc,
        ((session (fun _ => 0) Pool.fresh [.put keyK valueV, .delete keyK]).pm.leaves a).Empty) ∧
      ((Cmd.put keyK valueV).step (fun _ => 0) (Cmd.reopen.step (fun _ => 0)
          (session (fun _ => 0) Pool.fresh [.put keyK valueV, .delete keyK])).2).2.pm.alloc =
        (session (fun _ => 0) Pool.fresh [.put keyK valueV, .delete keyK]).pm.alloc + 1 :=
  ⟨reachable_session .fresh (by decide), by decide,
    (reopen_put_allocates (reachable_session .fresh (by decide)) (by decide) valueV).1⟩

end Reuse

end ScreeDB
