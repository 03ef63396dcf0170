import ScreeDB.Proofs.Crash
import ScreeDB.Proofs.LeafNode
import ScreeDB.Sim.Run

/-!
# Sessions

A client of `ScreeDB` expects a map of byte strings (`Cmd.spec`): `Put` and `Merge` set a key,
`Delete` removes it, `Get` appends the value it finds to `*value`. A running tree `Models` such a
map when it has the invariant and its leaves hold the map on C strings.

* `Cmd.step_inv`, `Cmd.crash_image`: a call with a C string key keeps the invariant, and a crash
  inside it leaves an image that opens, holding the map from before the call or after it;
* `models_simulates`: on calls with C string keys and values, `Models` is a simulation of the map
  by the code: every call replies as the map does, across clean reopenings;
* `Stored`, `Reachable`: the images a pool holds between sessions and the trees a session reaches,
  from a new pool, through calls with C string keys, clean closes and crashes at any persistent
  step of a call or of the constructor; `Stored.imageOK`, `Reachable.inv`: all have the invariant.
* `reachable_agree`: the leaves and the index agree on every reachable tree, for C string keys;
  `nul_key_hides_stored_key`: a key with a `0x00` inside breaks the agreement.

`treeS` is the tree after forty-nine `Put`s on a new pool, the last of which splits the full
leaf. What holds before the split is computed (`treeS48_full`); the split itself is not, since the
sort of `LeafSplit` is a merge sort by well-founded recursion, so what holds after it comes from
the split lemmas (`treeS_split`, `treeS_read`).
-/

namespace ScreeDB

open ScreeDBNode ScreeDBLeaf

/-! ## The map a client expects -/

/-- What a call does to the map a client expects, and what it replies; the string of a slice is
its `size_` bytes. -/
def Cmd.spec (M : List UInt8 → Option (List UInt8)) :
    Cmd → Reply × (List UInt8 → Option (List UInt8))
  | .put key value | .merge key value =>
    (⟨some .ok, []⟩, Function.update M key.view (some value.view))
  | .delete key => (⟨some .ok, []⟩, Function.update M key.view none)
  | .get key value =>
    match M key.view with
    | some v => (⟨some .ok, value ++ v⟩, M)
    | none => (⟨some .notFound, value⟩, M)
  | .reopen => (⟨some .ok, []⟩, M)

/-- Calls whose key is a C string. -/
def Cmd.KeysCStr : Cmd → Prop
  | .put key _ | .merge key _ | .delete key | .get key _ => key.IsCStr
  | .reopen => True

/-- Calls whose key and value are C strings. -/
def Cmd.IsCStr : Cmd → Prop
  | .put key value | .merge key value => key.IsCStr ∧ value.IsCStr
  | .delete key | .get key _ => key.IsCStr
  | .reopen => True

/-- The calls that write: `Put`, `Merge`, `Delete`. -/
def Cmd.IsUpdate : Cmd → Prop
  | .put _ _ | .merge _ _ | .delete _ => True
  | .get _ _ | .reopen => False

instance (c : Cmd) : Decidable c.KeysCStr :=
  match c with
  | .put key _ | .merge key _ | .delete key | .get key _ => inferInstanceAs (Decidable key.IsCStr)
  | .reopen => inferInstanceAs (Decidable True)

instance (c : Cmd) : Decidable c.IsCStr :=
  match c with
  | .put key value | .merge key value => inferInstanceAs (Decidable (key.IsCStr ∧ value.IsCStr))
  | .delete key | .get key _ => inferInstanceAs (Decidable key.IsCStr)
  | .reopen => inferInstanceAs (Decidable True)

instance (c : Cmd) : Decidable c.IsUpdate :=
  match c with
  | .put _ _ | .merge _ _ | .delete _ => inferInstanceAs (Decidable True)
  | .get _ _ | .reopen => inferInstanceAs (Decidable False)

theorem Cmd.IsCStr.keys {c : Cmd} (h : c.IsCStr) : c.KeysCStr := by
  cases c with
  | put key value => exact h.1
  | merge key value => exact h.1
  | delete key => exact h
  | get key value => exact h
  | reopen => trivial

/-- A run of `runCmds` is a run of the system `Cmd.step`. -/
theorem runCmds_eq_replies (rodata : Int → UInt8) (t : Tree) (cmds : List Cmd) :
    runCmds rodata t cmds = Sim.replies (Cmd.step rodata) t cmds := by
  induction cmds generalizing t with
  | nil => rfl
  | cons c cmds ih => simp only [runCmds, Sim.replies_cons, ih]

/-! ## The tree and the map -/

/-- `t` answers as the map `M`: it has the invariant, and its leaves hold `M` on C strings. -/
structure Models (rodata : Int → UInt8) (t : Tree) (M : List UInt8 → Option (List UInt8)) :
    Prop where
  inv : Inv rodata t
  published : t.commits ≠ []
  read : ∀ k : CStr, M k.bytes = (t.pm.read k).map CStr.bytes

theorem CStr.bytes_inj {k k' : CStr} : k.bytes = k'.bytes ↔ k = k' := by
  cases k
  cases k'
  simp

/-- Setting a key in both maps keeps them related. -/
theorem update_bytes {M : List UInt8 → Option (List UInt8)} {m : CStr → Option CStr}
    (hM : ∀ k : CStr, M k.bytes = (m k).map CStr.bytes) (key : CStr) (o : Option CStr) :
    ∀ k : CStr, Function.update M key.bytes (o.map CStr.bytes) k.bytes =
      (Function.update m key o k).map CStr.bytes := by
  intro k
  by_cases hk : k = key
  · subst hk
    simp
  · have hb : k.bytes ≠ key.bytes := fun h => hk (CStr.bytes_inj.1 h)
    rw [Function.update_of_ne hb, Function.update_of_ne hk, hM]

theorem openTree_read (p : Pool) : (openTree p).pm.read = p.read := by
  cases hh : p.root.head with
  | none =>
    rw [openTree_of_head_none hh]
    exact Pool.read_congr rfl rfl rfl
  | some a =>
    rw [openTree_of_head_some hh]
    exact Pool.read_congr rfl rfl rfl

/-- The constructor on an image that holds `M` leaves a tree that answers as `M`. -/
theorem models_openTree {rodata : Int → UInt8} {p : Pool} {M : List UInt8 → Option (List UInt8)}
    (h : ImageOK rodata p) (hM : ∀ k : CStr, M k.bytes = (p.read k).map CStr.bytes) :
    Models rodata (openTree p) M :=
  ⟨openTree_inv h, by simp [openTree_commits], by rw [openTree_read]; exact hM⟩

theorem imageOK_fresh (rodata : Int → UInt8) : ImageOK rodata Pool.fresh :=
  ⟨⟨rfl, fun _ h => absurd h (Nat.not_lt_zero _), fun _ h => absurd h (Nat.not_lt_zero _)⟩,
    fun _ ha => absurd ha (by simp [Pool.fresh])⟩

theorem models_fresh (rodata : Int → UInt8) : Models rodata (openTree Pool.fresh) fun _ => none :=
  models_openTree (imageOK_fresh rodata) fun _ => rfl

/-! ## One call -/

section Step

variable {rodata : Int → UInt8} {p : Pool} {v : Volatile} {cs : List Pool}

/-- `Put` of a C string key keeps the invariant and sets the key in the leaves. -/
theorem put_step (hI : Inv rodata ⟨p, v, none, cs⟩) {key : Slice}
    (hk : key.IsCStr) (value : Slice) :
    ((Cmd.put key value).step rodata ⟨p, v, none, cs⟩).1 = ⟨some .ok, []⟩ ∧
      Inv rodata ((Cmd.put key value).step rodata ⟨p, v, none, cs⟩).2 ∧
      ((Cmd.put key value).step rodata ⟨p, v, none, cs⟩).2.commits ≠ [] ∧
      ((Cmd.put key value).step rodata ⟨p, v, none, cs⟩).2.pm.read =
        Function.update p.read key.cstr (some value.cstr) := by
  obtain ⟨t', hrun, hI', hm', hc⟩ := put_spec hI hI.imageOK.stores_read hk value
  have hstep : (Cmd.put key value).step rodata ⟨p, v, none, cs⟩ = (⟨some .ok, []⟩, t') := by
    simp [Cmd.step, exec, hrun]
  rw [hstep]
  exact ⟨rfl, hI', by simp [hc], hI'.imageOK.stores_read.unique hm'⟩

/-- `Delete` of a C string key keeps the invariant and removes the key from the leaves. -/
theorem delete_step (hI : Inv rodata ⟨p, v, none, cs⟩) (hne : cs ≠ []) {key : Slice}
    (hk : key.IsCStr) :
    ((Cmd.delete key).step rodata ⟨p, v, none, cs⟩).1 = ⟨some .ok, []⟩ ∧
      Inv rodata ((Cmd.delete key).step rodata ⟨p, v, none, cs⟩).2 ∧
      ((Cmd.delete key).step rodata ⟨p, v, none, cs⟩).2.commits ≠ [] ∧
      ((Cmd.delete key).step rodata ⟨p, v, none, cs⟩).2.pm.read =
        Function.update p.read key.cstr none := by
  obtain ⟨t', hrun, hI', hm', habsent, hfound⟩ := delete_spec hI hI.imageOK.stores_read hk
  have hstep : (Cmd.delete key).step rodata ⟨p, v, none, cs⟩ = (⟨some .ok, []⟩, t') := by
    simp [Cmd.step, exec, hrun]
  rw [hstep]
  -- `Delete` publishes an image exactly when it finds the key
  have hpub : t'.commits ≠ [] := by
    by_cases hnone : p.read key.cstr = none
    · rw [habsent hnone]
      exact hne
    · simp [hfound hnone]
  exact ⟨rfl, hI', hpub, hI'.imageOK.stores_read.unique hm'⟩

/-- A clean reopening opens the closed image, which holds what the tree held. -/
theorem reopen_step (hI : Inv rodata ⟨p, v, none, cs⟩) :
    (Cmd.reopen.step rodata ⟨p, v, none, cs⟩).2 = openTree (p.setClosed (p.root.closed + 1)) ∧
      ImageOK rodata (p.setClosed (p.root.closed + 1)) ∧
      (p.setClosed (p.root.closed + 1)).read = p.read :=
  ⟨rfl, hI.imageOK.congr rfl rfl rfl, Pool.read_congr rfl rfl rfl⟩

end Step

section Call

variable {rodata : Int → UInt8} {t : Tree} {c : Cmd}

/-- Every call with a C string key keeps the invariant. -/
theorem Cmd.step_inv (hI : Inv rodata t) (hne : t.commits ≠ []) (hc : c.KeysCStr) :
    Inv rodata (c.step rodata t).2 ∧ (c.step rodata t).2.commits ≠ [] := by
  obtain ⟨p, v, b, cs⟩ := t
  obtain rfl : b = none := hI.budget
  cases c with
  | put key value | merge key value =>
    exact ⟨(put_step hI hc value).2.1, (put_step hI hc value).2.2.1⟩
  | delete key => exact ⟨(delete_step hI hne hc).2.1, (delete_step hI hne hc).2.2.1⟩
  | get key value => exact ⟨hI, hne⟩
  | reopen =>
    rw [(reopen_step hI).1]
    exact ⟨openTree_inv (reopen_step hI).2.1, by simp [openTree_commits]⟩

/-- A crash inside `Put`, `Merge` or `Delete` leaves the image from before the call or the one
after it. -/
theorem Cmd.crash_of_update (hI : Inv rodata t) (hne : t.commits ≠ []) (hu : c.IsUpdate)
    (hc : c.KeysCStr) (k : Nat) :
    c.crash rodata t k = t.pm ∨ c.crash rodata t k = (c.step rodata t).2.pm := by
  obtain ⟨p, v, b, cs⟩ := t
  obtain rfl : b = none := hI.budget
  cases c with
  | put key value | merge key value => exact put_crash hI hne hc value k
  | delete key => exact delete_crash hI hne hc k
  | get key value | reopen => exact absurd hu id

/-- A crash inside a call with a C string key leaves an image that opens and holds what the tree
held before the call or after it. -/
theorem Cmd.crash_image (hI : Inv rodata t) (hne : t.commits ≠ []) (hc : c.KeysCStr) (k : Nat) :
    ImageOK rodata (c.crash rodata t k) ∧
      ((c.crash rodata t k).read = t.pm.read ∨ (c.crash rodata t k).read = (c.step rodata t).2.pm.read) := by
  have hstep := Cmd.step_inv hI hne hc
  obtain ⟨p, v, b, cs⟩ := t
  obtain rfl : b = none := hI.budget
  -- the image from before, or the one the call publishes
  have hafter : ∀ img, img = p ∨ img = (c.step rodata ⟨p, v, none, cs⟩).2.pm →
      ImageOK rodata img ∧ (img.read = p.read ∨ img.read = (c.step rodata ⟨p, v, none, cs⟩).2.pm.read) := by
    rintro img (rfl | rfl)
    · exact ⟨hI.imageOK, .inl rfl⟩
    · exact ⟨hstep.1.imageOK, .inr rfl⟩
  by_cases hu : c.IsUpdate
  · exact hafter _ (Cmd.crash_of_update hI hne hu hc k)
  cases c with
  | put key value | merge key value | delete key => exact absurd trivial hu
  | get key value => exact hafter _ (.inl hI.durable)
  | reopen =>
    -- a crash inside the destructor leaves the image from before or the closed one
    rcases shutdown_crash hne k with h | h
    · exact hafter _ (.inl (h.trans hI.durable))
    · refine ⟨?_, .inl ?_⟩
      · rw [Cmd.crash, h, closeTree_eq]
        exact (reopen_step hI).2.1
      · rw [Cmd.crash, h, closeTree_eq]
        exact (reopen_step hI).2.2

end Call

/-! ## The code simulates the map -/

section Simulation

variable {rodata : Int → UInt8} {p : Pool} {v : Volatile} {cs : List Pool}
  {M : List UInt8 → Option (List UInt8)}

theorem models_put (hM : Models rodata ⟨p, v, none, cs⟩ M) {key value : Slice} (hk : key.IsCStr)
    (hv : value.IsCStr) :
    ((Cmd.put key value).step rodata ⟨p, v, none, cs⟩).1 = (Cmd.spec M (.put key value)).1 ∧
      Models rodata ((Cmd.put key value).step rodata ⟨p, v, none, cs⟩).2
        (Cmd.spec M (.put key value)).2 := by
  obtain ⟨hreply, hI', hpub, hread⟩ := put_step hM.inv hk value
  refine ⟨hreply, hI', hpub, fun k => ?_⟩
  rw [hread]
  simpa [Cmd.spec, hk.view_eq, hv.view_eq] using update_bytes hM.read key.cstr (some value.cstr) k

theorem models_delete (hM : Models rodata ⟨p, v, none, cs⟩ M) {key : Slice} (hk : key.IsCStr) :
    ((Cmd.delete key).step rodata ⟨p, v, none, cs⟩).1 = (Cmd.spec M (.delete key)).1 ∧
      Models rodata ((Cmd.delete key).step rodata ⟨p, v, none, cs⟩).2
        (Cmd.spec M (.delete key)).2 := by
  obtain ⟨hreply, hI', hpub, hread⟩ := delete_step hM.inv hM.published hk
  refine ⟨hreply, hI', hpub, fun k => ?_⟩
  rw [hread]
  simpa [Cmd.spec, hk.view_eq] using update_bytes hM.read key.cstr none k

theorem models_get (hM : Models rodata ⟨p, v, none, cs⟩ M) {key : Slice} (hk : key.IsCStr)
    (value : List UInt8) :
    ((Cmd.get key value).step rodata ⟨p, v, none, cs⟩).1 = (Cmd.spec M (.get key value)).1 ∧
      Models rodata ((Cmd.get key value).step rodata ⟨p, v, none, cs⟩).2
        (Cmd.spec M (.get key value)).2 := by
  have hget := get_of_stores hM.inv hM.inv.imageOK.stores_read hk value
  have hM' := hM.read key.cstr
  rw [← hk.view_eq] at hM'
  simp only [Cmd.step, Cmd.spec, hget, hM']
  -- `Get` changes nothing, on either answer
  cases p.read key.cstr
  · exact ⟨rfl, hM⟩
  · exact ⟨rfl, hM⟩

theorem models_reopen (hM : Models rodata ⟨p, v, none, cs⟩ M) :
    Models rodata (Cmd.reopen.step rodata ⟨p, v, none, cs⟩).2 M := by
  obtain ⟨hnext, himg, hread⟩ := reopen_step hM.inv
  rw [hnext]
  exact models_openTree himg (by rw [hread]; exact hM.read)

/-- On calls with C string keys and values, the code replies as the map does and keeps
answering as the map after the call. -/
theorem models_simulates (rodata : Int → UInt8) :
    Sim.Simulates (Cmd.step rodata) Cmd.spec Cmd.IsCStr (Models rodata) := by
  intro t M c hc hM
  obtain ⟨p, v, b, cs⟩ := t
  obtain rfl : b = none := hM.inv.budget
  cases c with
  | put key value | merge key value => exact models_put hM hc.1 hc.2
  | delete key => exact models_delete hM hc
  | get key value => exact models_get hM hc value
  | reopen => exact ⟨rfl, models_reopen hM⟩

end Simulation

/-! ## Runs from a new pool -/

/-- Every run of calls with C string keys and values on a new pool replies as the map does. -/
theorem runCmds_spec (rodata : Int → UInt8) {cmds : List Cmd} (hc : ∀ c ∈ cmds, c.IsCStr) :
    runCmds rodata (openTree Pool.fresh) cmds = Sim.replies Cmd.spec (fun _ => none) cmds := by
  rw [runCmds_eq_replies]
  exact (models_simulates rodata).replies_eq hc (models_fresh rodata)

/-- The key `"k"`, the key `"j"` and the value `"v"`. -/
def keyK : Slice := ⟨[107, 0], 1, by decide⟩

def keyJ : Slice := ⟨[106, 0], 1, by decide⟩

def valueV : Slice := ⟨[118, 0], 1, by decide⟩

/-- A run that stores, reads, reopens, reads, deletes and reads `"k"`. -/
def cmdsK : List Cmd :=
  [.put keyK valueV, .get keyK [], .reopen, .get keyK [], .delete keyK, .get keyK []]

theorem runCmds_spec_cmdsK :
    (∀ c ∈ cmdsK, c.IsCStr) ∧
      runCmds (fun _ => 0) (openTree Pool.fresh) cmdsK = Sim.replies Cmd.spec (fun _ => none) cmdsK :=
  ⟨by decide, runCmds_spec (fun _ => 0) (by decide)⟩

/-! ## Crashes -/

/-- The tree a session reaches: the constructor on the image `p`, then the calls `cmds`. -/
def session (rodata : Int → UInt8) (p : Pool) (cmds : List Cmd) : Tree :=
  Sim.last (Cmd.step rodata) (openTree p) cmds

/-- The key `keyOf i`: the letters `i / 16` and `i % 16` after `a`, ascending with `i`. -/
def keyOf (i : Nat) : Slice :=
  ⟨[UInt8.ofNat (i / 16 + 97), UInt8.ofNat (i % 16 + 97), 0], 2, by simp⟩

/-- The `Put`s of `keyOf 0` to `keyOf (n - 1)`, in this order. -/
def cmdsS (n : Nat) : List Cmd := (List.range n).map fun i => .put (keyOf i) valueV

theorem cmdsS_succ (n : Nat) : cmdsS (n + 1) = cmdsS n ++ [.put (keyOf n) valueV] := by
  simp [cmdsS, List.range_succ]

/-- Forty-eight `Put`s on a new pool fill its one leaf; the forty-ninth finds it full and
splits it. -/
def treeS48 : Tree := session (fun _ => 0) Pool.fresh (cmdsS 48)

def treeS : Tree := session (fun _ => 0) Pool.fresh (cmdsS 49)

theorem treeS_eq_step : treeS = ((Cmd.put (keyOf 48) valueV).step (fun _ => 0) treeS48).2 := by
  rw [treeS, treeS48, session, session, cmdsS_succ, Sim.last_append]
  rfl

/-- A tree that answers as `M` publishes an image that opens to a tree answering as `M`. -/
theorem Models.openTree_pm {rodata : Int → UInt8} {t : Tree} {M : List UInt8 → Option (List UInt8)}
    (hM : Models rodata t M) : Models rodata (openTree t.pm) M :=
  models_openTree hM.inv.imageOK hM.read

/-- A run of `Put`, `Merge` and `Delete` with C string keys and values on a new pool, cut by a
crash at any persistent step `k` of its call `j`: the pool keeps the image from before that call
or the one after it, and the tree the constructor opens on it answers every later run of calls
as the map of the calls before `j`, or up to and with `j`, respectively. -/
theorem crash_recovers (rodata : Int → UInt8) {cmds : List Cmd}
    (hc : ∀ c ∈ cmds, c.IsUpdate ∧ c.IsCStr) {j : Nat} (hj : j < cmds.length) (k : Nat) :
    ∃ i, ((i = j ∧ cmds[j].crash rodata (session rodata Pool.fresh (cmds.take j)) k =
          (session rodata Pool.fresh (cmds.take j)).pm) ∨
        (i = j + 1 ∧ cmds[j].crash rodata (session rodata Pool.fresh (cmds.take j)) k =
          (session rodata Pool.fresh (cmds.take (j + 1))).pm)) ∧
      ∀ more : List Cmd, (∀ c ∈ more, c.IsCStr) →
        runCmds rodata (openTree (cmds[j].crash rodata (session rodata Pool.fresh (cmds.take j)) k))
          more = Sim.replies Cmd.spec (Sim.last Cmd.spec (fun _ => none) (cmds.take i)) more := by
  have hsim := models_simulates rodata
  -- the tree after any prefix answers as the map of the prefix
  have hM : ∀ i, Models rodata (session rodata Pool.fresh (cmds.take i))
      (Sim.last Cmd.spec (fun _ => none) (cmds.take i)) := fun i =>
    hsim.last_rel (fun c hc' => (hc c (List.mem_of_mem_take hc')).2) (models_fresh rodata)
  have hcj := hc cmds[j] (List.getElem_mem hj)
  have hnext : (cmds[j].step rodata (session rodata Pool.fresh (cmds.take j))).2 =
      session rodata Pool.fresh (cmds.take (j + 1)) := (Sim.last_take_succ _ hj).symm
  have hrun : ∀ i, ∀ more : List Cmd, (∀ c ∈ more, c.IsCStr) →
      runCmds rodata (openTree (session rodata Pool.fresh (cmds.take i)).pm) more =
        Sim.replies Cmd.spec (Sim.last Cmd.spec (fun _ => none) (cmds.take i)) more :=
    fun i more hmore => by
      rw [runCmds_eq_replies]
      exact hsim.replies_eq hmore (hM i).openTree_pm
  rcases Cmd.crash_of_update (hM j).inv (hM j).published hcj.1 hcj.2.keys k with h | h
  · exact ⟨j, .inl ⟨rfl, h⟩, by rw [h]; exact hrun j⟩
  · rw [hnext] at h
    exact ⟨j + 1, .inr ⟨rfl, h⟩, by rw [h]; exact hrun (j + 1)⟩

/-- A crash inside the `Put` of `cmdsS 49` that splits the full leaf. -/
theorem crash_recovers_splitS :
    (∀ c ∈ cmdsS 49, c.IsUpdate ∧ c.IsCStr) ∧
      ∃ i, ((i = 48 ∧ (Cmd.put (keyOf 48) valueV).crash (fun _ => 0) treeS48 3 = treeS48.pm) ∨
          (i = 49 ∧ (Cmd.put (keyOf 48) valueV).crash (fun _ => 0) treeS48 3 = treeS.pm)) ∧
        ∀ more : List Cmd, (∀ c ∈ more, c.IsCStr) →
          runCmds (fun _ => 0) (openTree ((Cmd.put (keyOf 48) valueV).crash (fun _ => 0) treeS48 3))
            more = Sim.replies Cmd.spec (Sim.last Cmd.spec (fun _ => none) ((cmdsS 49).take i)) more := by
  have hc : ∀ c ∈ cmdsS 49, c.IsUpdate ∧ c.IsCStr := by decide
  have hlen : (cmdsS 48).length = 48 := by simp [cmdsS]
  have h48 : (cmdsS 49).take 48 = cmdsS 48 := by rw [cmdsS_succ, List.take_left' hlen]
  have h49 : (cmdsS 49).take (48 + 1) = cmdsS 49 := List.take_of_length_le (by simp [cmdsS])
  have hj : 48 < (cmdsS 49).length := by simp [cmdsS]
  have hget : (cmdsS 49)[48] = .put (keyOf 48) valueV := by
    simp [cmdsS]
  obtain ⟨i, hi, hmore⟩ := crash_recovers (fun _ => 0) hc hj 3
  simp only [h48, h49, hget] at hi hmore
  exact ⟨hc, i, hi, hmore⟩

/-! ## Reachable trees -/

/-- The images a pool can hold while no session runs on it: a new pool, and what a session on such
an image leaves, with calls whose keys are C strings, when it ends by the destructor, or by a crash
at any persistent step of a call or of the constructor's `Recover`. -/
inductive Stored (rodata : Int → UInt8) : Pool → Prop
  | fresh : Stored rodata Pool.fresh
  | close {p : Pool} {cmds : List Cmd} : Stored rodata p → (∀ c ∈ cmds, c.KeysCStr) →
      Stored rodata (closeTree (session rodata p cmds))
  | crash {p : Pool} {cmds : List Cmd} (c : Cmd) (k : Nat) : Stored rodata p →
      (∀ c ∈ cmds, c.KeysCStr) → c.KeysCStr → Stored rodata (c.crash rodata (session rodata p cmds) k)
  | crashOpen {p : Pool} (k : Nat) : Stored rodata p →
      Stored rodata (crashAt recover (Txn.Machine.start p .empty) k)

/-- The trees a session on a stored image reaches with calls whose keys are C strings. -/
def Reachable (rodata : Int → UInt8) (t : Tree) : Prop :=
  ∃ p cmds, Stored rodata p ∧ (∀ c ∈ cmds, c.KeysCStr) ∧ session rodata p cmds = t

section Reach

variable {rodata : Int → UInt8} {p : Pool} {t : Tree}

theorem session_inv (h : ImageOK rodata p) {cmds : List Cmd} (hc : ∀ c ∈ cmds, c.KeysCStr) :
    Inv rodata (session rodata p cmds) ∧ (session rodata p cmds).commits ≠ [] := by
  unfold session
  refine Sim.last_inv (I := fun t => Inv rodata t ∧ t.commits ≠ []) ?_ hc
    ⟨openTree_inv h, by simp [openTree_commits]⟩
  intro t c hc' hI
  exact Cmd.step_inv hI.1 hI.2 hc'

/-- The destructor leaves an image that opens and holds what the tree held. -/
theorem Inv.closeTree (hI : Inv rodata t) :
    ImageOK rodata (closeTree t) ∧ (closeTree t).read = t.pm.read := by
  obtain ⟨p, v, b, cs⟩ := t
  obtain rfl : b = none := hI.budget
  rw [closeTree_eq]
  exact (reopen_step hI).2

/-- Every stored image opens. -/
theorem Stored.imageOK (h : Stored rodata p) : ImageOK rodata p := by
  induction h with
  | fresh => exact imageOK_fresh rodata
  | close _ hc ih => exact (session_inv ih hc).1.closeTree.1
  | crash c k _ hc hck ih =>
    exact (Cmd.crash_image (session_inv ih hc).1 (session_inv ih hc).2 hck k).1
  | @crashOpen q k _ ih =>
    -- `Recover` publishes one image, the one the session opened with
    rcases recover_crash q k with h | h
    · rw [h]
      exact ih
    · rw [h]
      exact (openTree_inv ih).imageOK

/-- Every reachable tree has the invariant. -/
theorem Reachable.inv (h : Reachable rodata t) : Inv rodata t ∧ t.commits ≠ [] := by
  obtain ⟨p, cmds, hp, hc, rfl⟩ := h
  exact session_inv hp.imageOK hc

/-- The index of a reachable tree, when it is not empty, is well-formed. -/
theorem Reachable.indexOK (h : Reachable rodata t) {T : ScreeDBNode} (hT : t.vm.top_ = some T) :
    IndexOK rodata t.pm t.vm T :=
  (indexInv_some hT).1 h.inv.1.index

theorem reachable_session (hp : Stored rodata p) {cmds : List Cmd} (hc : ∀ c ∈ cmds, c.KeysCStr) :
    Reachable rodata (session rodata p cmds) :=
  ⟨p, cmds, hp, hc, rfl⟩

end Reach

theorem treeS48_reachable : Reachable (fun _ => 0) treeS48 :=
  reachable_session .fresh (by decide)

theorem treeS_reachable : Reachable (fun _ => 0) treeS :=
  reachable_session .fresh (by decide)

/-- Before the last `Put` the index has the one leaf node `0`, over the leaf `0`, which is full
and does not hold `keyOf 48`; the scan of `LeafFillSlotForKey` finds no slot for it. -/
theorem treeS48_full :
    treeS48.vm.top_.map leafIds = some [0] ∧ leafSearch treeS48.vm (keyOf 48) = some 0 ∧
      treeS48.vm.leaf 0 = 0 ∧ treeS48.vm.next_id = 1 ∧
      (∀ s, (treeS48.pm.leaves 0).hashes s ≠ 0) ∧ ¬ (treeS48.pm.leaves 0).Holds (keyOf 48).cstr ∧
      ((slotScan (treeS48.vm.hashes 0) (treeS48.pm.leaves 0) ((keyOf 48).hash fun _ => 0)
        (keyOf 48).cstr slotsDown none).2.or (slotScan (treeS48.vm.hashes 0) (treeS48.pm.leaves 0)
        ((keyOf 48).hash fun _ => 0) (keyOf 48).cstr slotsDown none).1) = none := by
  decide +kernel

/-- `std::sort` leaves the forty-nine keys in the order of `keyOf`: the split key is `keyOf 24`. -/
theorem splitKey_treeS48 : splitKey (treeS48.pm.leaves 0) (keyOf 48).cstr = (keyOf 24).cstr := by
  rw [splitKey, sortKeys_eq_insertionSort]
  decide +kernel

/-- **The split of `cmdsS 49`.** The last `Put` splits the full leaf: the index of `treeS` is a
tree over the two leaf nodes `0` and `1`. -/
theorem treeS_split : ∃ T, treeS.vm.top_ = some T ∧ leafIds T = [0, 1] := by
  obtain ⟨hT0, hn, hleaf, hnext, hfull, hkey, hslot⟩ := treeS48_full
  obtain ⟨T, htop, hT0⟩ := Option.map_eq_some_iff.1 hT0
  have hI := treeS48_reachable.inv.1
  rw [treeS_eq_step]
  generalize treeS48 = t at htop hn hleaf hnext hfull hkey hslot hI
  obtain ⟨p, v, b, cs⟩ := t
  obtain rfl : b = none := hI.budget
  dsimp only at htop hn hleaf hnext hfull hkey hslot
  rw [show p.leaves 0 = p.leaves (v.leaf 0) by rw [hleaf]] at hfull hkey hslot
  -- the split of the leaf node `0`, and the walk from it
  have hT : IndexOK (fun _ => 0) p v T := (indexInv_some htop).1 hI.index
  have hln : (0 : Nat) ∈ leafIds T := by simp [hT0]
  obtain ⟨p', vw, hrun, hc⟩ := leafSplit_commit hI htop hln hfull hkey (by decide) valueV
  have hput := put_run_split valueV hn hslot hrun
  have hkeys := hc.keys hT (by simpa [leafSearch, htop] using hn) hfull
    (splitKeys_nodup (hT.leafOK hI.pool hln) hfull hkey)
  obtain ⟨ps, hps, hout⟩ := split_walk hc.start hT.tree htop hln hkeys
  obtain ⟨T', htop', -, hleaves⟩ := hout.tree
  -- the leaf node `0` was the whole index, so the path to it has nothing on either side
  have hctx : ctxLeft ps = [] ∧ ctxRight ps = [] := by
    have h := congrArg List.length (hT0.symm.trans (congrArg leafIds hps))
    simp only [leafIds_plugAll, leafIds_leaf, List.length_append, List.length_singleton] at h
    exact ⟨List.length_eq_zero_iff.1 (by omega), List.length_eq_zero_iff.1 (by omega)⟩
  refine ⟨T', ?_, ?_⟩
  · simpa [Cmd.step, exec, hput] using htop'
  · rw [hleaves, hctx.1, hctx.2, hnext]
    rfl

/-- The split keeps what the leaves hold: `treeS` maps the keys as `treeS48` does, and `keyOf 48`
to `"v"`. -/
theorem treeS_read :
    treeS.pm.read = Function.update treeS48.pm.read (keyOf 48).cstr (some valueV.cstr) := by
  have hI := treeS48_reachable.inv.1
  rw [treeS_eq_step]
  generalize treeS48 = t at hI
  obtain ⟨p, v, b, cs⟩ := t
  obtain rfl : b = none := hI.budget
  exact (put_step hI (show (keyOf 48).IsCStr by decide) valueV).2.2.2

theorem treeS_read_keyOf_zero : treeS.pm.read (keyOf 0).cstr = some valueV.cstr := by
  rw [treeS_read, Function.update_of_ne (by decide)]
  decide +kernel

/-! ## The index and the leaves of a reachable tree -/

/-- The index of every reachable tree is a well-formed B+-tree over the leaves its leaf nodes
point to, and each of these leaves is well-formed, with its hashes cached in the leaf node. -/
theorem reachable_tree {rodata : Int → UInt8} {t : Tree} (h : Reachable rodata t)
    {T : ScreeDBNode} (hT : t.vm.top_ = some T) :
    TreeOK (nodeKeys t.pm t.vm) t.vm T ∧
      ∀ n ∈ leafIds T, LeafOK rodata (t.pm.leaves (t.vm.leaf n)) ∧
        t.vm.hashes n = (t.pm.leaves (t.vm.leaf n)).hashes := by
  have hidx := h.indexOK hT
  exact ⟨hidx.tree, fun n hn => ⟨hidx.leafOK h.inv.1.pool hn, hidx.cache n hn⟩⟩

theorem reachable_tree_treeS :
    ∃ T, treeS.vm.top_ = some T ∧ leafIds T = [0, 1] ∧
      TreeOK (nodeKeys treeS.pm treeS.vm) treeS.vm T ∧
      ∀ n ∈ leafIds T, LeafOK (fun _ => 0) (treeS.pm.leaves (treeS.vm.leaf n)) ∧
        treeS.vm.hashes n = (treeS.pm.leaves (treeS.vm.leaf n)).hashes := by
  obtain ⟨T, hT, hleaves⟩ := treeS_split
  exact ⟨T, hT, hleaves, reachable_tree treeS_reachable hT⟩

/-- The leaf nodes of the index, left to right. -/
def Volatile.leafNodes (v : Volatile) : List Nat :=
  match v.top_ with
  | none => []
  | some T => leafIds T

section Agree

variable {rodata : Int → UInt8} {t : Tree}

/-- Each leaf node points to its own leaf of the list and caches its hashes. -/
theorem Inv.leafNodes_point (hI : Inv rodata t) :
    ∀ n ∈ t.vm.leafNodes, t.vm.leaf n ∈ t.pm.leafList ∧
      t.vm.hashes n = (t.pm.leaves (t.vm.leaf n)).hashes ∧
      ∀ n' ∈ t.vm.leafNodes, t.vm.leaf n = t.vm.leaf n' → n = n' := by
  intro n hn
  cases htop : t.vm.top_ with
  | none => simp [Volatile.leafNodes, htop] at hn
  | some T =>
    have hT := (indexInv_some htop).1 hI.index
    simp only [Volatile.leafNodes, htop] at hn ⊢
    exact ⟨hI.pool.mem_leafList.2 (hT.ptr_lt n hn), hT.cache n hn, hT.ptr_inj n hn⟩

/-- A leaf of the list that no leaf node points to is empty. -/
theorem Inv.orphan_empty (hI : Inv rodata t) :
    ∀ a ∈ t.pm.leafList, (∀ n ∈ t.vm.leafNodes, t.vm.leaf n ≠ a) → (t.pm.leaves a).Empty := by
  intro a ha hna
  have ha' := hI.pool.mem_leafList.1 ha
  cases htop : t.vm.top_ with
  | none => exact (indexInv_none htop).1 hI.index a ha'
  | some T =>
    simp only [Volatile.leafNodes, htop] at hna
    exact ((indexInv_some htop).1 hI.index).orphan a ha' hna

end Agree

/-- In every reachable tree the list of leaves from `root->head` ends and repeats no leaf, each
leaf node points to a leaf of the list of its own and caches its hashes, a leaf of the list no
leaf node points to is empty, and the key sets of the leaves lie one below the other; so `Get`
reads through the index the map the leaves hold. -/
theorem reachable_agree {rodata : Int → UInt8} {t : Tree} (h : Reachable rodata t) :
    (IsLeafList t.pm t.pm.root.head t.pm.leafList ∧ t.pm.leafList.Nodup) ∧
    (∀ n ∈ t.vm.leafNodes, t.vm.leaf n ∈ t.pm.leafList ∧
      t.vm.hashes n = (t.pm.leaves (t.vm.leaf n)).hashes ∧
      ∀ n' ∈ t.vm.leafNodes, t.vm.leaf n = t.vm.leaf n' → n = n') ∧
    (∀ a ∈ t.pm.leafList, (∀ n ∈ t.vm.leafNodes, t.vm.leaf n ≠ a) → (t.pm.leaves a).Empty) ∧
    Separated t.pm t.pm.leafList ∧
    ∀ (key : Slice) (value : List UInt8), key.IsCStr →
      get rodata t key value = match t.pm.read key.cstr with
        | some v => (.ok, value ++ v.bytes)
        | none => (.notFound, value) := by
  have hI := h.inv.1
  have himg := hI.imageOK
  have hL := himg.pool.leafList_eq
  refine ⟨⟨hL ▸ himg.pool.isLeafList, hL ▸ List.nodup_reverse.2 List.nodup_range⟩,
    hI.leafNodes_point, hI.orphan_empty, fun a ha b hb => ?_,
    fun key value hk => get_of_stores hI himg.stores_read hk value⟩
  rw [hL] at ha hb
  exact himg.separated a (by simpa using ha) b (by simpa using hb)

/-- The value `"c"`, and a run on a new pool that stores `"a"`, then the three-byte key `"a\0b"`,
then deletes `"a"`. -/
def valueC : Slice := ⟨[99, 0], 1, by decide⟩

def cmdsNul : List Cmd := [.put keyA valueB, .put slotKeyANulB valueC, .delete keyA]

/-- A key with a `0x00` inside, which `Put` takes as it takes any slice, breaks the agreement of
the leaves and the index. `Put("a\0b", "c")` hashes the three bytes, passes the slot of `"a"` and
stores the key cut at `0x00` in slot `1`, so slots `0` and `1` both hold `"a"`; `Delete("a")`
frees slot `0`, whose hash is that of `"a"`. The leaves then map `"a"` to `"c"`, while `Get("a")`
through the index answers `NotFound`. -/
theorem nul_key_hides_stored_key :
    ((session (fun _ => 0) Pool.fresh (cmdsNul.take 2)).pm.leaves 0).HoldsAt ⟨0, by decide⟩
        keyA.cstr ∧
      ((session (fun _ => 0) Pool.fresh (cmdsNul.take 2)).pm.leaves 0).HoldsAt ⟨1, by decide⟩
        keyA.cstr ∧
      (session (fun _ => 0) Pool.fresh cmdsNul).pm.read keyA.cstr = some valueC.cstr ∧
      get (fun _ => 0) (session (fun _ => 0) Pool.fresh cmdsNul) keyA [] = (.notFound, []) := by
  decide +kernel

/-! ## Keys and values that are C strings -/

/-- On every reachable tree, for C string keys and values: `Get` after `Put(key, value)` finds
exactly the bytes of `value`, and neither `Put(key, value)` nor `Delete(key)` changes what `Get`
answers for a key of other bytes. -/
theorem put_get_spec {rodata : Int → UInt8} {t : Tree} (h : Reachable rodata t)
    {key value key2 : Slice} (hk : key.IsCStr) (hv : value.IsCStr) (hk2 : key2.IsCStr)
    (hne : key2.view ≠ key.view) (out : List UInt8) :
    get rodata ((Cmd.put key value).step rodata t).2 key out = (.ok, out ++ value.view) ∧
      get rodata ((Cmd.put key value).step rodata t).2 key2 out = get rodata t key2 out ∧
      get rodata ((Cmd.delete key).step rodata t).2 key2 out = get rodata t key2 out := by
  obtain ⟨hI, hpub⟩ := h.inv
  obtain ⟨p, v, b, cs⟩ := t
  obtain rfl : b = none := hI.budget
  have hne' : key2.cstr ≠ key.cstr := fun h => hne (by rw [hk2.view_eq, hk.view_eq, h])
  obtain ⟨-, hIp, -, hreadp⟩ := put_step hI hk value
  obtain ⟨-, hId, -, hreadd⟩ := delete_step hI hpub hk
  have hget := get_of_stores hI hI.imageOK.stores_read hk2 out
  refine ⟨?_, ?_, ?_⟩
  · rw [get_of_stores hIp hIp.imageOK.stores_read hk out, hreadp, Function.update_self,
      hv.view_eq]
  · rw [get_of_stores hIp hIp.imageOK.stores_read hk2 out, hreadp, Function.update_of_ne hne',
      hget]
  · rw [get_of_stores hId hId.imageOK.stores_read hk2 out, hreadd, Function.update_of_ne hne',
      hget]

/-- `Put` overwrites the key the split of `cmdsS 49` stored, and keeps `keyOf 0`. -/
theorem put_get_spec_treeS :
    Reachable (fun _ => 0) treeS ∧ (keyOf 48).IsCStr ∧ keyJ.IsCStr ∧ (keyOf 0).IsCStr ∧
      (keyOf 0).view ≠ (keyOf 48).view ∧
      get (fun _ => 0) ((Cmd.put (keyOf 48) keyJ).step (fun _ => 0) treeS).2 (keyOf 48) [] =
        (.ok, [] ++ keyJ.view) ∧
      get (fun _ => 0) ((Cmd.put (keyOf 48) keyJ).step (fun _ => 0) treeS).2 (keyOf 0) [] =
        get (fun _ => 0) treeS (keyOf 0) [] ∧
      get (fun _ => 0) ((Cmd.delete (keyOf 48)).step (fun _ => 0) treeS).2 (keyOf 0) [] =
        get (fun _ => 0) treeS (keyOf 0) [] :=
  ⟨treeS_reachable, by decide, by decide, by decide, by decide,
    put_get_spec treeS_reachable (by decide) (by decide) (by decide) (by decide) []⟩

end ScreeDB
