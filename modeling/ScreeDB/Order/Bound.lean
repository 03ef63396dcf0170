import Mathlib

/-!
# Half-open intervals with optional bounds

The keys a node of a search tree may hold lie between the separators around it, `(lo, hi]`, and
a node at an edge of the tree has no separator on that side. A bound is an `Option α`: `none` is
below every element as a lower bound and above every element as an upper bound.

* `Bound.Lt lo hi`, `Bound.Le lo hi`: comparison of bounds, `none` comparing below or above
  everything as its position asks;
* `Bound.Mem lo hi a`: `a ∈ (lo, hi]`;
* `Bound.Mem.lt_of_le_of_mem`: elements of adjacent intervals `(x, k]` and `(k, y]` are ordered.
-/

namespace Bound

variable {α : Type} [LinearOrder α]

/-- `lo < hi`, for a lower bound `lo` and an upper bound `hi`. -/
def Lt : Option α → Option α → Prop
  | some a, some b => a < b
  | _, _ => True

/-- `lo ≤ hi`, for a lower bound `lo` and an upper bound `hi`. -/
def Le : Option α → Option α → Prop
  | some a, some b => a ≤ b
  | _, _ => True

/-- `a ∈ (lo, hi]`. -/
def Mem (lo hi : Option α) (a : α) : Prop := Lt lo (some a) ∧ Le (some a) hi

instance decLt : ∀ lo hi : Option α, Decidable (Lt lo hi)
  | some a, some b => inferInstanceAs (Decidable (a < b))
  | none, _ => isTrue trivial
  | some _, none => isTrue trivial

instance decLe : ∀ lo hi : Option α, Decidable (Le lo hi)
  | some a, some b => inferInstanceAs (Decidable (a ≤ b))
  | none, _ => isTrue trivial
  | some _, none => isTrue trivial

instance (lo hi : Option α) (a : α) : Decidable (Mem lo hi a) := inferInstanceAs (Decidable (_ ∧ _))

@[simp] theorem lt_some_some {a b : α} : Lt (some a) (some b) ↔ a < b := Iff.rfl
@[simp] theorem lt_none_left (hi : Option α) : Lt none hi := by cases hi <;> trivial
@[simp] theorem lt_none_right (lo : Option α) : Lt lo none := by cases lo <;> trivial
@[simp] theorem le_some_some {a b : α} : Le (some a) (some b) ↔ a ≤ b := Iff.rfl
@[simp] theorem le_none_left (hi : Option α) : Le none hi := by cases hi <;> trivial
@[simp] theorem le_none_right (lo : Option α) : Le lo none := by cases lo <;> trivial

@[simp] theorem mem_none_none (a : α) : Mem none none a := ⟨trivial, trivial⟩

theorem Lt.le {lo hi : Option α} (h : Lt lo hi) : Le lo hi := by
  cases lo <;> cases hi <;> simp_all [Lt, Le, le_of_lt]

theorem Lt.trans {x z : Option α} {b : α} (h₁ : Lt x (some b)) (h₂ : Lt (some b) z) : Lt x z := by
  cases x <;> cases z <;> simp_all only [lt_some_some, lt_none_left, lt_none_right]
  exact lt_trans h₁ h₂

theorem Lt.trans_le {x z : Option α} {b : α} (h₁ : Lt x (some b)) (h₂ : Le (some b) z) :
    Lt x z := by
  cases x <;> cases z <;> simp_all only [lt_some_some, le_some_some, lt_none_left,
    lt_none_right]
  exact lt_of_lt_of_le h₁ h₂

theorem Le.trans_lt {x z : Option α} {b : α} (h₁ : Le x (some b)) (h₂ : Lt (some b) z) :
    Lt x z := by
  cases x <;> cases z <;> simp_all only [lt_some_some, le_some_some, lt_none_left,
    lt_none_right]
  exact lt_of_le_of_lt h₁ h₂

theorem Le.trans {x z : Option α} {b : α} (h₁ : Le x (some b)) (h₂ : Le (some b) z) : Le x z := by
  cases x <;> cases z <;> simp_all only [le_some_some, le_none_left, le_none_right]
  exact le_trans h₁ h₂

/-- Widening an interval above its upper bound. -/
theorem Mem.widen_upper {lo hi : Option α} {a b : α} (h : Mem lo (some b) a)
    (hb : Le (some b) hi) : Mem lo hi a :=
  ⟨h.1, Le.trans h.2 hb⟩

/-- Widening an interval below its lower bound. -/
theorem Mem.widen_lower {lo hi : Option α} {a b : α} (h : Mem (some b) hi a)
    (hb : Le lo (some b)) : Mem lo hi a :=
  ⟨hb.trans_lt h.1, h.2⟩

/-- The elements of `(x, k]` lie below those of `(k, y]`. -/
theorem Mem.lt_of_le_of_mem {x y : Option α} {k a b : α} (ha : Mem x (some k) a)
    (hb : Mem (some k) y b) : a < b :=
  lt_of_le_of_lt ha.2 hb.1

end Bound
