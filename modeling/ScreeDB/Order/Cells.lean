import ScreeDB.Order.Bound

/-!
# Partitions of an interval by upper bounds

A search structure over an ordered key space, seen from its leaves, is a partition: a list of
cells, each with the upper bound of its interval, ascending from left to right. The lower bound
of a cell is the upper bound of the cell before it, or that of the whole interval for the first.

* `Bound.Cuts lo cs hi`: the cells `cs` cut `(lo, hi]` into consecutive non-empty intervals;
* `Bound.InCell lo cs i a`: `a` lies in the interval of a cell `i`;
* `Bound.cellOf a cs`: the first cell whose upper bound is at or above `a`;
* `Bound.Cuts.cellOf_eq_some_iff`: on a partition of `(lo, hi]`, `cellOf` finds exactly the cell
  whose interval holds `a`, and `Bound.Cuts.append`, `Bound.Cuts.inCell_append`: partitions of
  adjacent intervals join into one.

A partition is also seen through its search alone, a map from elements to cells:

* `Bound.Finer f' f`: every cell of `f'` lies inside a cell of `f`;
* `Bound.CutAbove f f' n new s`: `f'` is `f` with the part of cell `n` above `s` made a cell
  `new`, and `Bound.CutAbove.finer`: that refines `f` when `f` has no cell `new`.

`Bound.cutAt es` cuts at marks: the cells of the elements `es`, each bounded by its mark but the
last, which is unbounded.
-/

namespace Bound

variable {α ι : Type} [LinearOrder α]

/-- `cs` cuts `(lo, hi]` into consecutive non-empty intervals: every upper bound but the last is
an element, the bounds ascend strictly from `lo`, and the last one is `hi`. -/
def Cuts : Option α → List (ι × Option α) → Option α → Prop
  | lo, [(_, b)], hi => Lt lo b ∧ b = hi
  | lo, (_, some k) :: c :: cs, hi => Lt lo (some k) ∧ Cuts (some k) (c :: cs) hi
  | _, _, _ => False

/-- `a` lies in the interval of a cell `i` of the cells `cs` from the bound `lo` on. -/
def InCell : Option α → List (ι × Option α) → ι → α → Prop
  | _, [], _, _ => False
  | lo, (j, b) :: cs, i, a => (j = i ∧ Mem lo b a) ∨ InCell b cs i a

/-- The first cell whose upper bound is at or above `a`. -/
def cellOf (a : α) : List (ι × Option α) → Option ι
  | [] => none
  | (i, b) :: cs => if Le (some a) b then some i else cellOf a cs

section Lemmas

variable {lo hi : Option α} {cs cs' : List (ι × Option α)} {a : α}

@[simp] theorem cellOf_nil : cellOf a ([] : List (ι × Option α)) = none := rfl

theorem cellOf_cons (i : ι) (b : Option α) :
    cellOf a ((i, b) :: cs) = if Le (some a) b then some i else cellOf a cs := rfl

theorem cellOf_append : cellOf a (cs ++ cs') = (cellOf a cs).or (cellOf a cs') := by
  induction cs with
  | nil => rfl
  | cons c cs ih =>
    obtain ⟨i, b⟩ := c
    rw [List.cons_append, cellOf_cons, cellOf_cons, ih]
    split <;> simp

@[simp] theorem cuts_single (i : ι) (b : Option α) : Cuts lo [(i, b)] hi ↔ Lt lo b ∧ b = hi :=
  Iff.rfl

theorem cuts_cons {i : ι} {b : Option α} (hcs : cs ≠ []) :
    Cuts lo ((i, b) :: cs) hi ↔ ∃ k, b = some k ∧ Lt lo (some k) ∧ Cuts (some k) cs hi := by
  obtain ⟨c, cs, rfl⟩ := List.exists_cons_of_ne_nil hcs
  cases b with
  | none => simp [Cuts]
  | some k => simp [Cuts]

theorem Cuts.ne_nil (h : Cuts lo cs hi) : cs ≠ [] := by
  rintro rfl
  exact h

/-- A partition of a non-empty interval. -/
theorem Cuts.lt (h : Cuts lo cs hi) : Lt lo hi := by
  induction cs generalizing lo with
  | nil => exact absurd h (by rintro ⟨⟩)
  | cons c cs ih =>
    obtain ⟨i, b⟩ := c
    by_cases hcs : cs = []
    · subst hcs
      obtain ⟨hlt, rfl⟩ := h
      exact hlt
    · obtain ⟨k, -, hk, hrest⟩ := (cuts_cons hcs).1 h
      have := ih hrest
      cases hi with
      | none => exact lt_none_right lo
      | some m => exact hk.trans this

/-- Partitions of `(lo, k]` and `(k, hi]` make one of `(lo, hi]`. -/
theorem Cuts.append {k : α} (h : Cuts lo cs (some k)) (h' : Cuts (some k) cs' hi) :
    Cuts lo (cs ++ cs') hi := by
  induction cs generalizing lo with
  | nil => exact absurd h (by rintro ⟨⟩)
  | cons c cs ih =>
    obtain ⟨i, b⟩ := c
    have hne : cs ++ cs' ≠ [] := by simp [h'.ne_nil]
    by_cases hcs : cs = []
    · subst hcs
      obtain ⟨hlt, rfl⟩ := h
      exact (cuts_cons hne).2 ⟨k, rfl, hlt, h'⟩
    · obtain ⟨m, rfl, hm, hrest⟩ := (cuts_cons hcs).1 h
      exact (cuts_cons hne).2 ⟨m, rfl, hm, ih hrest⟩

/-- A partition of `(lo, hi]` has a cell for every `a ≤ hi`. -/
theorem Cuts.cellOf_isSome (h : Cuts lo cs hi) (ha : Le (some a) hi) : (cellOf a cs).isSome := by
  induction cs generalizing lo with
  | nil => exact absurd h (by rintro ⟨⟩)
  | cons c cs ih =>
    obtain ⟨i, b⟩ := c
    rw [cellOf_cons]
    split
    · rfl
    · rename_i hab
      by_cases hcs : cs = []
      · subst hcs
        obtain ⟨-, rfl⟩ := h
        exact absurd ha hab
      · obtain ⟨k, -, -, hrest⟩ := (cuts_cons hcs).1 h
        exact ih hrest

/-- A partition of `(lo, k]` has no cell for an `a` above `k`. -/
theorem Cuts.cellOf_eq_none {k : α} (h : Cuts lo cs (some k)) (ha : k < a) : cellOf a cs = none := by
  induction cs generalizing lo with
  | nil => rfl
  | cons c cs ih =>
    obtain ⟨i, b⟩ := c
    by_cases hcs : cs = []
    · subst hcs
      obtain ⟨-, rfl⟩ := h
      simp [cellOf_cons, not_le.2 ha]
    · obtain ⟨m, rfl, -, hrest⟩ := (cuts_cons hcs).1 h
      have hmk : m < k := hrest.lt
      rw [cellOf_cons, if_neg (by simpa using hmk.trans ha), ih hrest]

theorem inCell_cons (j i : ι) (b lo : Option α) :
    InCell lo ((j, b) :: cs) i a ↔ (j = i ∧ Mem lo b a) ∨ InCell b cs i a := Iff.rfl

/-- A cell of a partition of `(lo, hi]` holds elements of `(lo, hi]` only. -/
theorem Cuts.mem_of_inCell {i : ι} (h : Cuts lo cs hi) (hin : InCell lo cs i a) : Mem lo hi a := by
  induction cs generalizing lo with
  | nil => exact absurd hin id
  | cons c cs ih =>
    obtain ⟨j, b⟩ := c
    by_cases hcs : cs = []
    · subst hcs
      obtain ⟨-, rfl⟩ := h
      rcases hin with ⟨-, hm⟩ | hin
      · exact hm
      · exact absurd hin id
    · obtain ⟨k, rfl, hk, hrest⟩ := (cuts_cons hcs).1 h
      rcases hin with ⟨-, hm⟩ | hin
      · exact hm.widen_upper (hrest.lt.le)
      · exact (ih hrest hin).widen_lower hk.le

/-- The cells of partitions of adjacent intervals `(lo, k]` and `(k, hi]`. -/
theorem Cuts.inCell_append {k : α} {i : ι} (h : Cuts lo cs (some k)) :
    InCell lo (cs ++ cs') i a ↔ InCell lo cs i a ∨ InCell (some k) cs' i a := by
  induction cs generalizing lo with
  | nil => exact absurd h (by rintro ⟨⟩)
  | cons c cs ih =>
    obtain ⟨j, b⟩ := c
    by_cases hcs : cs = []
    · subst hcs
      obtain ⟨-, rfl⟩ := h
      simp [inCell_cons, InCell]
    · obtain ⟨m, rfl, -, hrest⟩ := (cuts_cons hcs).1 h
      rw [List.cons_append, inCell_cons, inCell_cons, ih hrest, or_assoc]

/-- **Search in a partition.** On a partition of `(lo, hi]`, `cellOf` finds exactly the cell
whose interval holds `a`. -/
theorem Cuts.cellOf_eq_some_iff {i : ι} (h : Cuts lo cs hi) (ha : Mem lo hi a) :
    cellOf a cs = some i ↔ InCell lo cs i a := by
  induction cs generalizing lo with
  | nil => exact absurd h (by rintro ⟨⟩)
  | cons c cs ih =>
    obtain ⟨j, b⟩ := c
    rw [cellOf_cons, inCell_cons]
    by_cases hcs : cs = []
    · subst hcs
      obtain ⟨-, rfl⟩ := h
      simp [ha.2, ha, InCell]
    · obtain ⟨k, rfl, -, hrest⟩ := (cuts_cons hcs).1 h
      by_cases hak : a ≤ k
      · -- `a` is in the first cell, and in none of the others, which lie above `k`
        have hmem : Mem lo (some k) a := ⟨ha.1, by simpa using hak⟩
        have hnot : ¬ InCell (some k) cs i a := fun hin =>
          absurd (hrest.mem_of_inCell hin).1 (by simpa using hak)
        simp [hak, hmem, hnot]
      · have hnot : ¬ Mem lo (some k) a := fun hm => hak (by simpa using hm.2)
        simp only [le_some_some, hak, if_false, hnot, and_false, false_or]
        exact ih hrest ⟨by simpa using lt_of_not_ge hak, ha.2⟩

end Lemmas

/-! ## Finer partitions -/

section Finer

variable {β : Type}

/-- Every cell of `f'` lies inside a cell of `f`: what `f'` puts in one cell, `f` does too. -/
def Finer (f' f : β → Option ι) : Prop := ∀ a b, f' a = f' b → f a = f b

theorem Finer.refl (f : β → Option ι) : Finer f f := fun _ _ h => h

theorem Finer.trans {f'' f' f : β → Option ι} (h₁ : Finer f'' f') (h₂ : Finer f' f) :
    Finer f'' f :=
  fun a b h => h₂ a b (h₁ a b h)

/-- A map with no cells is coarser than every other. -/
theorem finer_none (f' : β → Option ι) : Finer f' fun _ => none := fun _ _ _ => rfl

variable [DecidableEq ι]

/-- `f'` is `f` with the elements of the cell `n` above `s` moved to the cell `new`. -/
def CutAbove (f f' : α → Option ι) (n new : ι) (s : α) : Prop :=
  ∀ a, f' a = if f a = some n ∧ s < a then some new else f a

/-- Cutting a cell, into a cell that `f` does not have, refines `f`. -/
theorem CutAbove.finer {f f' : α → Option ι} {n new : ι} {s : α} (h : CutAbove f f' n new s)
    (hnew : ∀ a, f a ≠ some new) : Finer f' f := by
  intro a b hab
  rw [h a, h b] at hab
  split_ifs at hab with ha hb hb
  · rw [ha.1, hb.1]
  · exact absurd hab.symm (hnew b)
  · exact absurd hab (hnew a)
  · exact hab

/-- The cells other than `new` only lose elements. -/
theorem CutAbove.eq_of_ne {f f' : α → Option ι} {n new m : ι} {s : α} (h : CutAbove f f' n new s)
    (hm : m ≠ new) {a : α} (ha : f' a = some m) : f a = some m := by
  rw [h a] at ha
  split_ifs at ha
  · exact absurd (Option.some.inj ha).symm hm
  · exact ha

end Finer

/-! ## Cells cut at marks -/

/-- The elements `es`, in order, as cells cut at their marks: each cell is bounded by the mark of
its element, but the last, which is unbounded. -/
def cutAt : List (ι × α) → List (ι × Option α)
  | [] => []
  | [(i, _)] => [(i, none)]
  | (i, a) :: e :: es => (i, some a) :: cutAt (e :: es)

omit [LinearOrder α] in
@[simp] theorem cutAt_single (i : ι) (a : α) : cutAt [(i, a)] = [(i, none)] := rfl

omit [LinearOrder α] in
@[simp] theorem cutAt_cons_cons (i : ι) (a : α) (e : ι × α) (es : List (ι × α)) :
    cutAt ((i, a) :: e :: es) = (i, some a) :: cutAt (e :: es) := rfl

omit [LinearOrder α] in
/-- Cutting keeps the elements and their order. -/
@[simp] theorem map_fst_cutAt : ∀ R : List (ι × α), (cutAt R).map Prod.fst = R.map Prod.fst
  | [] => rfl
  | [_] => rfl
  | (i, a) :: e :: es => by
    rw [cutAt_cons_cons, List.map_cons, map_fst_cutAt (e :: es)]
    rfl

end Bound
