import Mathlib.Data.List.GetD
import Mathlib.Data.List.Sort

/-!
# Ranks in a sorted list

The element at index `i` of a strictly ascending list has exactly `i + 1` elements of the list at
or below it, and the others above it. Sorting with a Boolean comparator that decides `≤` gives an
ascending list, a strictly ascending one when the input has no duplicates; so the element at index
`i` of the sorted copy is the `(i + 1)`-th smallest element of the input.

* `countP_le_getElem`, `countP_gt_getElem`: the ranks in a strictly ascending list;
* `pairwise_key_le_mergeSort`: `mergeSort` by a comparator for `≤` between keys sorts by the
  keys; `pairwise_lt_mergeSort`: of a list without duplicates, strictly;
* `mergeSort_getD_mem`, `countP_le_mergeSort`, `countP_gt_mergeSort`: the element at index `i`
  of the sorted copy, seen in the input.
-/

namespace Rank

variable {α : Type} [LinearOrder α]

theorem getElem_le_getElem {L : List α} (h : L.Pairwise (· < ·)) {i j : Nat} (hi : i < L.length)
    (hj : j < L.length) (hij : j ≤ i) : L[j] ≤ L[i] := by
  rcases Nat.eq_or_lt_of_le hij with rfl | hlt
  · exact le_rfl
  · exact (List.pairwise_iff_getElem.1 h j i hj hi hlt).le

/-- In a strictly ascending list, `L[i]` has `i + 1` elements at or below it. -/
theorem countP_le_getElem {L : List α} (h : L.Pairwise (· < ·)) {i : Nat} (hi : i < L.length) :
    L.countP (fun x => decide (x ≤ L[i])) = i + 1 := by
  -- the first `i + 1` elements are at or below `L[i]`, the rest above it
  have htake : (L.take (i + 1)).countP (fun x => decide (x ≤ L[i])) = i + 1 := by
    rw [List.countP_eq_length.2, List.length_take]
    · omega
    · intro x hx
      obtain ⟨j, hj, rfl⟩ := List.mem_take_iff_getElem.1 hx
      exact decide_eq_true (getElem_le_getElem h hi _ (by omega))
  have hdrop : (L.drop (i + 1)).countP (fun x => decide (x ≤ L[i])) = 0 := by
    rw [List.countP_eq_zero]
    intro x hx
    obtain ⟨j, hj, rfl⟩ := List.mem_drop_iff_getElem.1 hx
    have hlt : L[i] < L[i + 1 + j] :=
      List.pairwise_iff_getElem.1 h i (i + 1 + j) hi (by omega) (by omega)
    simpa using hlt
  calc L.countP (fun x => decide (x ≤ L[i]))
      = (L.take (i + 1) ++ L.drop (i + 1)).countP (fun x => decide (x ≤ L[i])) := by
        rw [List.take_append_drop]
    _ = i + 1 := by rw [List.countP_append, htake, hdrop]

/-- In a strictly ascending list, the elements above `L[i]` are the last `length - (i + 1)`. -/
theorem countP_gt_getElem {L : List α} (h : L.Pairwise (· < ·)) {i : Nat} (hi : i < L.length) :
    L.countP (fun x => decide (L[i] < x)) = L.length - (i + 1) := by
  have hsum : L.length = L.countP (fun x => decide (x ≤ L[i])) +
      L.countP (fun x => ¬ decide (x ≤ L[i])) :=
    List.length_eq_countP_add_countP _
  rw [countP_le_getElem h hi] at hsum
  have hgt : L.countP (fun x => decide (L[i] < x)) =
      L.countP (fun x => ¬ decide (x ≤ L[i])) := by
    simp [not_le]
  omega

section Sorting

variable {le : α → α → Bool}

/-- `mergeSort` by a comparator that decides `≤` between keys sorts by the keys. -/
theorem pairwise_key_le_mergeSort {β : Type} {le : β → β → Bool} (f : β → α)
    (hle : ∀ a b, le a b ↔ f a ≤ f b) (L : List β) :
    (L.mergeSort le).Pairwise (fun a b => f a ≤ f b) := by
  have htrans : ∀ a b c, le a b → le b c → le a c := by
    intro a b c hab hbc
    exact (hle a c).2 (le_trans ((hle a b).1 hab) ((hle b c).1 hbc))
  have htotal : ∀ a b, (le a b || le b a) := by
    intro a b
    rcases le_total (f a) (f b) with h | h
    · simp [(hle a b).2 h]
    · simp [(hle b a).2 h]
  exact (List.pairwise_mergeSort htrans htotal L).imp fun h => (hle _ _).1 h

/-- `mergeSort` by a comparator that decides `≤` sorts ascending. -/
theorem pairwise_le_mergeSort (hle : ∀ a b, le a b ↔ a ≤ b) (L : List α) :
    (L.mergeSort le).Pairwise (· ≤ ·) :=
  pairwise_key_le_mergeSort id hle L

/-- Without duplicates, strictly ascending. -/
theorem pairwise_lt_mergeSort (hle : ∀ a b, le a b ↔ a ≤ b) {L : List α} (hL : L.Nodup) :
    (L.mergeSort le).Pairwise (· < ·) := by
  have hnd : (L.mergeSort le).Nodup := (List.mergeSort_perm L le).nodup_iff.2 hL
  exact ((pairwise_le_mergeSort hle L).and hnd).imp fun h => lt_of_le_of_ne h.1 h.2

omit [LinearOrder α] in
theorem mergeSort_getD_mem {L : List α} {i : Nat} (hi : i < L.length) (d : α) :
    (L.mergeSort le).getD i d ∈ L := by
  have hi' : i < (L.mergeSort le).length := by rwa [List.length_mergeSort]
  rw [List.getD_eq_getElem _ _ hi', ← (List.mergeSort_perm L le).mem_iff]
  exact List.getElem_mem hi'

variable (hle : ∀ a b, le a b ↔ a ≤ b) {L : List α} (hL : L.Nodup) {i : Nat}
  (hi : i < L.length) (d : α)
include hle hL hi

/-- The element at index `i` of the sorted copy has `i + 1` elements of the input at or below
it. -/
theorem countP_le_mergeSort :
    L.countP (fun x => decide (x ≤ (L.mergeSort le).getD i d)) = i + 1 := by
  have hi' : i < (L.mergeSort le).length := by rwa [List.length_mergeSort]
  rw [List.getD_eq_getElem _ _ hi', ← (List.mergeSort_perm L le).countP_eq]
  exact countP_le_getElem (pairwise_lt_mergeSort hle hL) hi'

/-- and the others above it. -/
theorem countP_gt_mergeSort :
    L.countP (fun x => decide ((L.mergeSort le).getD i d < x)) = L.length - (i + 1) := by
  have hi' : i < (L.mergeSort le).length := by rwa [List.length_mergeSort]
  rw [List.getD_eq_getElem _ _ hi', ← (List.mergeSort_perm L le).countP_eq,
    ← @List.length_mergeSort _ le L]
  exact countP_gt_getElem (pairwise_lt_mergeSort hle hL) hi'

end Sorting

end Rank
