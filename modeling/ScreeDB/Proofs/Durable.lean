import ScreeDB.Proofs.Session

/-!
# A crash is a clean stop

Every image a pool can hold (`Stored`: any history of sessions, each ended by the destructor or
cut by a crash inside a call or inside the constructor) opens to a tree that behaves as if the
last session had been stopped cleanly, right before the call the crash cut or right after it: no
later run of calls can tell the crash from a shutdown. A crash inside the constructor is as if it
had not run.

* `Pool.readBytes`: the map an image holds, on byte strings;
* `openTree_replies`: the tree the constructor builds answers every run as that map;
* `openTree_replies_congr`: images that hold one map open to trees that answer alike;
* `crash_equiv_shutdown`: the crash of any call in any session on any stored image;
* `reopen_invisible`: a clean reopening is not seen by any later run of calls.
-/

namespace ScreeDB

/-- The map the image `p` holds, on byte strings: what `Get` answers for a C string key after
the constructor. No string with a `0x00` byte is a key. -/
def Pool.readBytes (p : Pool) (b : List UInt8) : Option (List UInt8) :=
  if h : ∀ x ∈ b, x ≠ 0 then (p.read ⟨b, h⟩).map CStr.bytes else none

theorem Pool.readBytes_bytes (p : Pool) (k : CStr) : p.readBytes k.bytes = (p.read k).map CStr.bytes := by
  rw [Pool.readBytes, dif_pos k.nul_free]

theorem Pool.readBytes_congr {p q : Pool} (hr : p.read = q.read) : p.readBytes = q.readBytes := by
  funext b
  simp only [Pool.readBytes, hr]

variable {rodata : Int → UInt8} {p q : Pool}

/-- The constructor on a well-formed image builds a tree that answers every run of calls with C
string keys and values as the map the image holds. -/
theorem openTree_replies (hp : ImageOK rodata p) {more : List Cmd} (hm : ∀ c ∈ more, c.IsCStr) :
    runCmds rodata (openTree p) more = Sim.replies Cmd.spec p.readBytes more := by
  rw [runCmds_eq_replies]
  exact (models_simulates rodata).replies_eq hm (models_openTree hp (Pool.readBytes_bytes p))

/-- Well-formed images that hold one map open to trees that answer alike. -/
theorem openTree_replies_congr (hp : ImageOK rodata p) (hq : ImageOK rodata q)
    (hr : p.read = q.read) {more : List Cmd} (hm : ∀ c ∈ more, c.IsCStr) :
    runCmds rodata (openTree p) more = runCmds rodata (openTree q) more := by
  rw [openTree_replies hp hm, openTree_replies hq hm, Pool.readBytes_congr hr]

/-- **A crash is a clean stop.** In every session with C string keys on every image a pool can
hold, a crash at any persistent step of any next call leaves a well-formed image, and the tree the
constructor builds on it answers every later run of calls with C string keys and values as the
tree a shutdown right before that call would leave, or as the one a shutdown right after it would.
A crash at any step of the constructor leaves an image that opens as the one it started from. -/
theorem crash_equiv_shutdown (hp : Stored rodata p) {cmds : List Cmd}
    (hc : ∀ c ∈ cmds, c.KeysCStr) {c : Cmd} (hck : c.KeysCStr) (k : Nat) :
    ImageOK rodata (c.crash rodata (session rodata p cmds) k) ∧
      ((∀ more : List Cmd, (∀ c ∈ more, c.IsCStr) →
          runCmds rodata (openTree (c.crash rodata (session rodata p cmds) k)) more =
            runCmds rodata (openTree (closeTree (session rodata p cmds))) more) ∨
        (∀ more : List Cmd, (∀ c ∈ more, c.IsCStr) →
          runCmds rodata (openTree (c.crash rodata (session rodata p cmds) k)) more =
            runCmds rodata (openTree (closeTree (c.step rodata (session rodata p cmds)).2)) more)) ∧
      ∀ more : List Cmd, (∀ c ∈ more, c.IsCStr) →
        runCmds rodata (openTree (crashAt recover (Txn.Machine.start p .empty) k)) more =
          runCmds rodata (openTree p) more := by
  have himg₀ := hp.imageOK
  obtain ⟨hI, hne⟩ := session_inv himg₀ hc
  obtain ⟨himg, hread⟩ := Cmd.crash_image hI hne hck k
  refine ⟨himg, hread.imp (fun h more hm => ?_) (fun h more hm => ?_), fun more hm => ?_⟩
  · -- the image from before the call, which the destructor keeps
    obtain ⟨hclose, hcr⟩ := hI.closeTree
    exact openTree_replies_congr himg hclose (h.trans hcr.symm) hm
  · -- the image the call publishes
    obtain ⟨hclose, hcr⟩ := (Cmd.step_inv hI hne hck).1.closeTree
    exact openTree_replies_congr himg hclose (h.trans hcr.symm) hm
  · -- the constructor publishes one image, which holds what the one it opened holds
    rcases recover_crash p k with h | h
    · rw [h]
    · rw [h]
      exact openTree_replies_congr (openTree_inv himg₀).imageOK himg₀ (openTree_read p) hm

/-- A crash at the third persistent step of the forty-ninth `Put` of `cmdsS 49`, which splits. -/
theorem crash_equiv_shutdown_splitS :
    (∀ c ∈ cmdsS 48, c.KeysCStr) ∧ (Cmd.put (keyOf 48) valueV).KeysCStr ∧
      ImageOK (fun _ => 0) ((Cmd.put (keyOf 48) valueV).crash (fun _ => 0) treeS48 3) ∧
      ((∀ more : List Cmd, (∀ c ∈ more, c.IsCStr) →
          runCmds (fun _ => 0) (openTree ((Cmd.put (keyOf 48) valueV).crash (fun _ => 0) treeS48 3))
            more = runCmds (fun _ => 0) (openTree (closeTree treeS48)) more) ∨
        (∀ more : List Cmd, (∀ c ∈ more, c.IsCStr) →
          runCmds (fun _ => 0) (openTree ((Cmd.put (keyOf 48) valueV).crash (fun _ => 0) treeS48 3))
            more = runCmds (fun _ => 0) (openTree (closeTree treeS)) more)) ∧
      ∀ more : List Cmd, (∀ c ∈ more, c.IsCStr) →
        runCmds (fun _ => 0) (openTree (crashAt recover (Txn.Machine.start Pool.fresh .empty) 3))
          more = runCmds (fun _ => 0) (openTree Pool.fresh) more := by
  have hc : ∀ c ∈ cmdsS 48, c.KeysCStr := by decide
  obtain ⟨himg, hcrash, hrec⟩ :=
    crash_equiv_shutdown .fresh hc (c := .put (keyOf 48) valueV) (by decide) 3
  rw [show session (fun _ => 0) Pool.fresh (cmdsS 48) = treeS48 from rfl, ← treeS_eq_step] at hcrash
  exact ⟨hc, by decide, himg, hcrash, hrec⟩

/-- **A reopening is invisible.** On every reachable tree, the tree that the destructor and the
constructor leave answers every later run of calls with C string keys and values exactly as the
tree before did: the image holds the whole map, and the index the constructor rebuilds finds all
of it. -/
theorem reopen_invisible {t : Tree} (h : Reachable rodata t) {more : List Cmd}
    (hm : ∀ c ∈ more, c.IsCStr) :
    runCmds rodata (Cmd.reopen.step rodata t).2 more = runCmds rodata t more := by
  obtain ⟨hI, hne⟩ := h.inv
  -- both trees answer as the map the image holds
  have hM : Models rodata t t.pm.readBytes := ⟨hI, hne, Pool.readBytes_bytes t.pm⟩
  have hM' : Models rodata (Cmd.reopen.step rodata t).2 t.pm.readBytes := by
    obtain ⟨p, v, b, cs⟩ := t
    obtain rfl : b = none := hI.budget
    exact models_reopen hM
  rw [runCmds_eq_replies, runCmds_eq_replies, (models_simulates rodata).replies_eq hm hM',
    (models_simulates rodata).replies_eq hm hM]

/-- A clean reopening after the split of `cmdsS 49`, then `Get` of a key of each leaf. -/
theorem reopen_invisible_treeS :
    Reachable (fun _ => 0) treeS ∧ (∀ c ∈ [Cmd.get (keyOf 0) [], Cmd.get (keyOf 48) []], c.IsCStr) ∧
      runCmds (fun _ => 0) (Cmd.reopen.step (fun _ => 0) treeS).2 [.get (keyOf 0) [], .get (keyOf 48) []] =
        runCmds (fun _ => 0) treeS [.get (keyOf 0) [], .get (keyOf 48) []] := by
  have hm : ∀ c ∈ [Cmd.get (keyOf 0) [], Cmd.get (keyOf 48) []], c.IsCStr := by decide
  exact ⟨treeS_reachable, hm, reopen_invisible treeS_reachable hm⟩

end ScreeDB
