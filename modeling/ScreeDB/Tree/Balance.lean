import ScreeDB.Tree.WF

/-!
# The height of a well-formed index

All leaves of a well-formed tree lie at one depth, an inner node below the top has three to five
children and the top two to five (`WF`). The number of leaves therefore grows as a power of the
height, and `LeafSearch`, which visits one node per level, visits logarithmically many nodes.

* `WF.height_eq`: the depth of a well-formed tree is its `height`;
* `WF.pow_le_leaves`, `WF.leaves_le_pow`: below the top, a tree of depth `d` has at least `3 ^ d`
  and at most `5 ^ d` leaves;
* `WF.top_leaves`: a top of depth `d` has at least `2 * 3 ^ (d - 1)` leaves, which is
  `2 * 3 ^ d ≤ 3 * n`;
* `WF.height_le_log`: the height of a top over `n` leaves is at most `log₃ n + 1`;
* `WF.ids_lt_leaves`: a tree over `n` leaves has at most `2 * n - 1` nodes.
-/

namespace ScreeDB

open ScreeDBNode

section Balance

variable {S : Nat → CStr → Prop}

mutual

/-- The depth of a well-formed tree is its height. -/
theorem WF.height_eq : ∀ {r : Bool} {lo hi : Option CStr} {d : Nat} (t : ScreeDBNode),
    WF S r lo hi d t → height t = d
  | _, _, _, _, .leaf _, h => (wf_leaf.1 h).1.symm
  | _, _, _, _, .inner _ ks cs, h => by
    obtain ⟨d', rfl, -, -, hc⟩ := wf_inner.1 h
    rw [height_inner, WFChain.heightIn_eq ks cs hc]

theorem WFChain.heightIn_eq : ∀ {lo hi : Option CStr} {d : Nat} (ks : List CStr)
    (cs : List ScreeDBNode), WFChain S lo d ks cs hi → heightIn cs = d
  | _, _, _, [], [c], h => by
    rw [heightIn_cons, heightIn_nil, WF.height_eq c (wfChain_single.1 h).2, Nat.max_zero]
  | _, _, _, [], [], h | _, _, _, _ :: _, [], h => absurd h wfChain_nil_right
  | _, _, _, [], _ :: _ :: _, h => absurd h wfChain_nil_two
  | _, _, _, _ :: ks, c :: cs, h => by
    obtain ⟨-, hc, hcs⟩ := wfChain_cons.1 h
    rw [heightIn_cons, WF.height_eq c hc, WFChain.heightIn_eq ks cs hcs, Nat.max_self]

end

mutual

/-- Below the top, a tree of depth `d` has at least `3 ^ d` leaves. -/
theorem WF.pow_le_leaves : ∀ {lo hi : Option CStr} {d : Nat} (t : ScreeDBNode),
    WF S false lo hi d t → 3 ^ d ≤ (leafIds t).length
  | _, _, _, .leaf _, h => by simp [(wf_leaf.1 h).1]
  | _, _, _, .inner _ ks cs, h => by
    obtain ⟨d', rfl, hlo, -, hc⟩ := wf_inner.1 h
    -- at least two keys below the top, so at least three children
    have hks : 2 ≤ ks.length := by simpa using hlo
    have hlen : 3 ≤ cs.length := by
      rw [hc.length]
      omega
    calc 3 ^ (d' + 1) = 3 * 3 ^ d' := by rw [Nat.pow_succ, Nat.mul_comm]
      _ ≤ cs.length * 3 ^ d' := Nat.mul_le_mul_right _ hlen
      _ ≤ (leafIds (inner _ ks cs)).length := by
        simpa using WFChain.pow_le_leaves ks cs hc

theorem WFChain.pow_le_leaves : ∀ {lo hi : Option CStr} {d : Nat} (ks : List CStr)
    (cs : List ScreeDBNode), WFChain S lo d ks cs hi → cs.length * 3 ^ d ≤ (leafIdsIn cs).length
  | _, _, _, [], [c], h => by simpa using WF.pow_le_leaves c (wfChain_single.1 h).2
  | _, _, _, [], [], h | _, _, _, _ :: _, [], h => absurd h wfChain_nil_right
  | _, _, _, [], _ :: _ :: _, h => absurd h wfChain_nil_two
  | _, _, _, _ :: ks, c :: cs, h => by
    obtain ⟨-, hc, hcs⟩ := wfChain_cons.1 h
    have h₁ := WF.pow_le_leaves c hc
    have h₂ := WFChain.pow_le_leaves ks cs hcs
    simp only [List.length_cons, leafIdsIn_cons, List.length_append, Nat.succ_mul]
    omega

end

mutual

/-- A well-formed tree of depth `d` has at most `5 ^ d` leaves. -/
theorem WF.leaves_le_pow : ∀ {r : Bool} {lo hi : Option CStr} {d : Nat} (t : ScreeDBNode),
    WF S r lo hi d t → (leafIds t).length ≤ 5 ^ d
  | _, _, _, _, .leaf _, _ => by simpa using Nat.one_le_pow _ 5 (by decide)
  | _, _, _, _, .inner _ ks cs, h => by
    obtain ⟨d', rfl, -, hhi, hc⟩ := wf_inner.1 h
    -- at most `INNER_KEYS` keys, so at most five children
    have hlen : cs.length ≤ 5 := by
      rw [hc.length]
      exact Nat.succ_le_succ hhi
    calc (leafIds (inner _ ks cs)).length ≤ cs.length * 5 ^ d' := by
          simpa using WFChain.leaves_le_pow ks cs hc
      _ ≤ 5 * 5 ^ d' := Nat.mul_le_mul_right _ hlen
      _ = 5 ^ (d' + 1) := by rw [Nat.pow_succ, Nat.mul_comm]

theorem WFChain.leaves_le_pow : ∀ {lo hi : Option CStr} {d : Nat} (ks : List CStr)
    (cs : List ScreeDBNode), WFChain S lo d ks cs hi → (leafIdsIn cs).length ≤ cs.length * 5 ^ d
  | _, _, _, [], [c], h => by simpa using WF.leaves_le_pow c (wfChain_single.1 h).2
  | _, _, _, [], [], h | _, _, _, _ :: _, [], h => absurd h wfChain_nil_right
  | _, _, _, [], _ :: _ :: _, h => absurd h wfChain_nil_two
  | _, _, _, _ :: ks, c :: cs, h => by
    obtain ⟨-, hc, hcs⟩ := wfChain_cons.1 h
    have h₁ := WF.leaves_le_pow c hc
    have h₂ := WFChain.leaves_le_pow ks cs hcs
    simp only [List.length_cons, leafIdsIn_cons, List.length_append, Nat.succ_mul]
    omega

end

mutual

/-- A well-formed tree has fewer nodes than twice its leaves: every inner node has at least two
children. -/
theorem WF.ids_lt_leaves : ∀ {r : Bool} {lo hi : Option CStr} {d : Nat} (t : ScreeDBNode),
    WF S r lo hi d t → (ids t).length + 1 ≤ 2 * (leafIds t).length
  | _, _, _, _, .leaf _, _ => by simp
  | _, _, _, _, .inner _ ks cs, h => by
    obtain ⟨d', rfl, hlo, -, hc⟩ := wf_inner.1 h
    -- at least one key, so at least two children
    have hks : 1 ≤ ks.length := le_trans (by split <;> decide) hlo
    have hlen : 2 ≤ cs.length := by
      rw [hc.length]
      omega
    have hchain := WFChain.ids_lt_leaves ks cs hc
    simp only [ids_inner, leafIds_inner, List.length_cons]
    omega

theorem WFChain.ids_lt_leaves : ∀ {lo hi : Option CStr} {d : Nat} (ks : List CStr)
    (cs : List ScreeDBNode), WFChain S lo d ks cs hi →
      (idsIn cs).length + cs.length ≤ 2 * (leafIdsIn cs).length
  | _, _, _, [], [c], h => by simpa using WF.ids_lt_leaves c (wfChain_single.1 h).2
  | _, _, _, [], [], h | _, _, _, _ :: _, [], h => absurd h wfChain_nil_right
  | _, _, _, [], _ :: _ :: _, h => absurd h wfChain_nil_two
  | _, _, _, _ :: ks, c :: cs, h => by
    obtain ⟨-, hc, hcs⟩ := wfChain_cons.1 h
    have h₁ := WF.ids_lt_leaves c hc
    have h₂ := WFChain.ids_lt_leaves ks cs hcs
    simp only [List.length_cons, idsIn_cons, leafIdsIn_cons, List.length_append]
    omega

end

/-- A top of depth `d` has at least `2 * 3 ^ (d - 1)` leaves: it may have two children only. -/
theorem WF.top_leaves {lo hi : Option CStr} {d : Nat} {t : ScreeDBNode}
    (h : WF S true lo hi d t) : 2 * 3 ^ d ≤ 3 * (leafIds t).length := by
  cases t with
  | leaf n => simp [(wf_leaf.1 h).1]
  | inner i ks cs =>
    obtain ⟨d', rfl, hlo, -, hc⟩ := wf_inner.1 h
    have hks : 1 ≤ ks.length := by simpa using hlo
    have hlen : 2 ≤ cs.length := by
      rw [hc.length]
      omega
    calc 2 * 3 ^ (d' + 1) = 3 * (2 * 3 ^ d') := by rw [Nat.pow_succ]; ring
      _ ≤ 3 * (cs.length * 3 ^ d') := Nat.mul_le_mul_left _ (Nat.mul_le_mul_right _ hlen)
      _ ≤ 3 * (leafIds (inner i ks cs)).length :=
        Nat.mul_le_mul_left _ (by simpa using WFChain.pow_le_leaves ks cs hc)

/-- The height of a top over `n` leaves is at most `log₃ n + 1`. -/
theorem WF.height_le_log {lo hi : Option CStr} {d : Nat} {t : ScreeDBNode}
    (h : WF S true lo hi d t) : height t ≤ Nat.log 3 (leafIds t).length + 1 := by
  rw [WF.height_eq t h]
  have htop := WF.top_leaves h
  cases d with
  | zero => omega
  | succ d' =>
    -- `2 * 3 ^ (d' + 1) ≤ 3 * n` leaves `3 ^ d' ≤ n`
    have hpow : 3 ^ d' ≤ (leafIds t).length := by
      rw [Nat.pow_succ] at htop
      omega
    exact Nat.succ_le_succ (Nat.le_log_of_pow_le (by decide) hpow)

end Balance

end ScreeDB
