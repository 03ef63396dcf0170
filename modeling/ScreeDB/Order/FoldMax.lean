import Mathlib.Order.MinMax
import Mathlib.Data.List.Basic

/-!
# A running maximum

A loop that keeps the largest value `f x` of the elements `x` it keeps, starting from nothing, is
a left fold of `step keep f` from `none`:

* `foldl_step_eq_none`: it ends with nothing exactly when it keeps no element;
* `foldl_step_some`: what it ends with is the value of a kept element, and no kept element has a
  larger one.
-/

namespace FoldMax

variable {α β : Type} [LinearOrder α] (keep : β → Prop) [DecidablePred keep] (f : β → α)

/-- One turn: a kept element whose value beats the maximum so far becomes the maximum. -/
def step (acc : Option α) (x : β) : Option α :=
  if keep x then
    match acc with
    | none => some (f x)
    | some m => if m < f x then some (f x) else some m
  else acc

variable {keep f}

theorem step_of_not_keep {acc : Option α} {x : β} (hx : ¬ keep x) : step keep f acc x = acc := by
  simp [step, hx]

/-- A kept element leaves a maximum at least its value and the maximum before, and one of the
two. -/
theorem step_of_keep (acc : Option α) {x : β} (hx : keep x) :
    ∃ b, step keep f acc x = some b ∧ f x ≤ b ∧ (∀ a, acc = some a → a ≤ b) ∧
      (acc = some b ∨ b = f x) := by
  cases acc with
  | none => exact ⟨f x, by simp [step, hx], le_rfl, by simp, .inr rfl⟩
  | some a =>
    by_cases hm : a < f x
    · exact ⟨f x, by simp [step, hx, hm], le_rfl, fun a' ha' => by cases ha'; exact hm.le, .inr rfl⟩
    · exact ⟨a, by simp [step, hx, hm], le_of_not_gt hm, fun a' ha' => by cases ha'; exact le_rfl,
        .inl rfl⟩

theorem foldl_step_eq_none : ∀ (xs : List β) (acc : Option α),
    xs.foldl (step keep f) acc = none ↔ acc = none ∧ ∀ x ∈ xs, ¬ keep x
  | [], acc => by simp
  | x :: xs, acc => by
    rw [List.foldl_cons, foldl_step_eq_none xs]
    by_cases hx : keep x
    · obtain ⟨b, hb, -⟩ := step_of_keep (f := f) acc hx
      simp [hb, hx]
    · simp [step_of_not_keep hx, hx]

/-- The fold ends with the start value or a kept element's value, at least the start value and
every kept element's value. -/
theorem foldl_step_some : ∀ (xs : List β) (acc : Option α) (m : α),
    xs.foldl (step keep f) acc = some m →
      (acc = some m ∨ ∃ x ∈ xs, keep x ∧ f x = m) ∧ (∀ a, acc = some a → a ≤ m) ∧
        ∀ x ∈ xs, keep x → f x ≤ m
  | [], acc, m, h => by
    simp only [List.foldl_nil] at h
    subst h
    simp
  | x :: xs, acc, m, h => by
    rw [List.foldl_cons] at h
    obtain ⟨hfrom, hge, hall⟩ := foldl_step_some xs _ m h
    by_cases hx : keep x
    · -- the maximum after `x` is the larger of the one before and `f x`
      obtain ⟨b, hb, hxb, hab, hbfrom⟩ := step_of_keep (f := f) acc hx
      rw [hb] at hfrom hge
      have hbm : b ≤ m := hge b rfl
      refine ⟨?_, fun a ha => le_trans (hab a ha) hbm, fun y hy hky => ?_⟩
      · rcases hfrom with hm | ⟨y, hy, hky, rfl⟩
        · obtain rfl := Option.some.inj hm
          rcases hbfrom with hacc | rfl
          · exact .inl hacc
          · exact .inr ⟨x, List.mem_cons_self, hx, rfl⟩
        · exact .inr ⟨y, List.mem_cons_of_mem _ hy, hky, rfl⟩
      · rcases List.mem_cons.1 hy with rfl | hy
        · exact le_trans hxb hbm
        · exact hall y hy hky
    · rw [step_of_not_keep hx] at hfrom hge
      refine ⟨?_, hge, fun y hy hky => ?_⟩
      · rcases hfrom with hm | ⟨y, hy, hky, rfl⟩
        · exact .inl hm
        · exact .inr ⟨y, List.mem_cons_of_mem _ hy, hky, rfl⟩
      · rcases List.mem_cons.1 hy with rfl | hy
        · exact absurd hky hx
        · exact hall y hy hky

end FoldMax
