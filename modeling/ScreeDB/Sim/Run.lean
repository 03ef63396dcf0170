import Mathlib

/-!
# Runs of a system that replies to its inputs

A deterministic system answers each input with a reply and a next state,
`step : σ → ι → ρ × σ`. `replies` runs it on a list of inputs and collects the replies; `last` is
the state it ends in.

* `last_inv`: a property that every allowed input keeps holds at the end of every run of allowed
  inputs;
* `last_potential`: a potential that each allowed input raises by at most its cost ends at most
  at its start plus the costs of the run (an amortized bound);
* `Simulates.replies_eq`: a relation between the states of two systems that every allowed input
  keeps, with equal replies, makes related states answer every run of allowed inputs alike.
-/

namespace Sim

variable {σ τ ι ρ : Type}

/-- The replies to the inputs, in order. -/
def replies (step : σ → ι → ρ × σ) : σ → List ι → List ρ
  | _, [] => []
  | s, i :: is => (step s i).1 :: replies step (step s i).2 is

/-- The state after the inputs. -/
def last (step : σ → ι → ρ × σ) : σ → List ι → σ
  | s, [] => s
  | s, i :: is => last step (step s i).2 is

variable {step : σ → ι → ρ × σ}

@[simp] theorem replies_nil (s : σ) : replies step s [] = [] := rfl

@[simp] theorem replies_cons (s : σ) (i : ι) (is : List ι) :
    replies step s (i :: is) = (step s i).1 :: replies step (step s i).2 is := rfl

@[simp] theorem last_nil (s : σ) : last step s [] = s := rfl

@[simp] theorem last_cons (s : σ) (i : ι) (is : List ι) :
    last step s (i :: is) = last step (step s i).2 is := rfl

theorem last_append (s : σ) (is js : List ι) :
    last step s (is ++ js) = last step (last step s is) js := by
  induction is generalizing s with
  | nil => rfl
  | cons i is ih => exact ih _

/-- The state after `j + 1` inputs is one step from the state after `j`. -/
theorem last_take_succ (s : σ) {is : List ι} {j : Nat} (hj : j < is.length) :
    last step s (is.take (j + 1)) = (step (last step s (is.take j)) is[j]).2 := by
  rw [List.take_add_one, List.getElem?_eq_getElem hj, Option.toList_some, last_append]
  rfl

/-- An invariant of every allowed input holds after every run of them. -/
theorem last_inv {P : ι → Prop} {I : σ → Prop} (h : ∀ s i, P i → I s → I (step s i).2)
    {is : List ι} (hP : ∀ i ∈ is, P i) {s : σ} (hs : I s) : I (last step s is) := by
  induction is generalizing s with
  | nil => exact hs
  | cons i is ih =>
    exact ih (fun j hj => hP j (List.mem_cons_of_mem i hj)) (h s i (hP i List.mem_cons_self) hs)

/-- A potential that every allowed input raises by at most the input's cost, on the states of an
invariant these inputs keep, rises over a run by at most the sum of the costs. -/
theorem last_potential {P : ι → Prop} {I : σ → Prop} (Φ : σ → Nat) (cost : ι → Nat)
    (hI : ∀ s i, P i → I s → I (step s i).2)
    (hΦ : ∀ s i, P i → I s → Φ (step s i).2 ≤ Φ s + cost i)
    {is : List ι} (hP : ∀ i ∈ is, P i) {s : σ} (hs : I s) :
    Φ (last step s is) ≤ Φ s + (is.map cost).sum := by
  induction is generalizing s with
  | nil => exact Nat.le_add_right _ _
  | cons i is ih =>
    have hi := hP i List.mem_cons_self
    have hrest := ih (fun j hj => hP j (List.mem_cons_of_mem i hj)) (hI s i hi hs)
    have hstep := hΦ s i hi hs
    rw [last_cons, List.map_cons, List.sum_cons]
    omega

/-! ## Simulation -/

/-- `R` relates the states of `step` and `spec` so that on every allowed input they reply alike
and stay related. -/
def Simulates (step : σ → ι → ρ × σ) (spec : τ → ι → ρ × τ) (P : ι → Prop)
    (R : σ → τ → Prop) : Prop :=
  ∀ s a i, P i → R s a → (step s i).1 = (spec a i).1 ∧ R (step s i).2 (spec a i).2

variable {spec : τ → ι → ρ × τ} {P : ι → Prop} {R : σ → τ → Prop}

/-- Related states reply alike to every run of allowed inputs, -/
theorem Simulates.replies_eq (h : Simulates step spec P R) {is : List ι} (hP : ∀ i ∈ is, P i)
    {s : σ} {a : τ} (hR : R s a) : replies step s is = replies spec a is := by
  induction is generalizing s a with
  | nil => rfl
  | cons i is ih =>
    obtain ⟨hreply, hnext⟩ := h s a i (hP i List.mem_cons_self) hR
    rw [replies_cons, replies_cons, hreply, ih (fun j hj => hP j (List.mem_cons_of_mem i hj)) hnext]

/-- and end related. -/
theorem Simulates.last_rel (h : Simulates step spec P R) {is : List ι} (hP : ∀ i ∈ is, P i)
    {s : σ} {a : τ} (hR : R s a) : R (last step s is) (last spec a is) := by
  induction is generalizing s a with
  | nil => exact hR
  | cons i is ih =>
    exact ih (fun j hj => hP j (List.mem_cons_of_mem i hj)) (h s a i (hP i List.mem_cons_self) hR).2

end Sim
