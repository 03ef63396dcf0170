import ScreeDB.Txn.Prog
import Mathlib.Data.List.Infix

/-!
# Crashes inside a program

A crash stops a program at an instant and leaves the last published image. Between two persistent
steps (`fallible`: a snapshot or an allocation) a program publishes at most at the end of a
transaction, so the images a crash can leave are those published when some persistent step is
reached, or when the program returns. The run with fault budget `some k` stops at the `k`-th
persistent step with the images published until then: `x { m with budget := some k }` is the
machine a crash at that step sees.

`Follows x`: without faults, `x` returns and only adds images in front of those it found; with
any budget it returns as it does without faults, or it stops at an instant of that run, with a
part of the images that run publishes (`Within`). The primitives follow, and `bind` and `exec_tx`
keep it. `Follows.durable_of_publish` is the result the crash proofs use: a crash inside a program
that publishes at most one image `c` leaves the image from before or `c`.
-/

namespace Txn

variable {P V α β : Type}

/-- What a run with faults may end in, against the run without faults from `m` to `m'` returning
`a`: that same end with some budget left, or a throw at an instant in between, with the images
published by then. -/
def Within (a : α) (m m' : Machine P V) : EStateM.Result Unit (Machine P V) α → Prop
  | .ok b m'' => b = a ∧ ∃ j, m'' = { m' with budget := some j }
  | .error _ m'' => m.commits <:+ m''.commits ∧ m''.commits <:+ m'.commits

/-- A run with faults follows the run without faults. -/
def Follows (x : Prog P V α) : Prop :=
  ∀ m : Machine P V, m.budget = none → ∃ a m', x m = .ok a m' ∧ m'.budget = none ∧
    m.commits <:+ m'.commits ∧ ∀ k, Within a m m' (x { m with budget := some k })

theorem Within.mono {a : α} {m₀ m m' : Machine P V} {r : EStateM.Result Unit (Machine P V) α}
    (h₀ : m₀.commits <:+ m.commits) (h : Within a m m' r) : Within a m₀ m' r := by
  cases r with
  | ok b m'' => exact h
  | error e m'' => exact ⟨h₀.trans h.1, h.2⟩

namespace Follows

variable {x : Prog P V α} {m m' : Machine P V} {a : α}

/-! ## The primitives -/

theorem pure (a : α) : Follows (Pure.pure a : Prog P V α) :=
  fun m hm => ⟨a, m, rfl, hm, List.suffix_refl _, fun k => ⟨rfl, k, rfl⟩⟩

theorem fallible : Follows (Txn.fallible : Prog P V Unit) := by
  intro m hm
  refine ⟨(), m, by simp [Txn.fallible, hm], hm, List.suffix_refl _, fun k => ?_⟩
  -- the budget runs out at this step, or one step of it is spent
  cases k with
  | zero => exact ⟨List.suffix_refl _, List.suffix_refl _⟩
  | succ n => exact ⟨rfl, n, rfl⟩

theorem readP : Follows (Txn.readP : Prog P V P) :=
  fun m hm => ⟨m.pm, m, rfl, hm, List.suffix_refl _, fun k => ⟨rfl, k, rfl⟩⟩

theorem readV : Follows (Txn.readV : Prog P V V) :=
  fun m hm => ⟨m.vm, m, rfl, hm, List.suffix_refl _, fun k => ⟨rfl, k, rfl⟩⟩

theorem modifyV (f : V → V) : Follows (Txn.modifyV f : Prog P V Unit) :=
  fun _ hm => ⟨(), _, rfl, hm, List.suffix_refl _, fun k => ⟨rfl, k, rfl⟩⟩

theorem modifyP (f : P → P) : Follows (Txn.modifyP f : Prog P V Unit) :=
  fun _ hm => ⟨(), _, rfl, hm, List.suffix_refl _, fun k => ⟨rfl, k, rfl⟩⟩

/-! ## Composition -/

theorem bind {f : α → Prog P V β} (hx : Follows x) (hf : ∀ a, Follows (f a)) :
    Follows (x >>= f) := by
  intro m hm
  obtain ⟨a, m₁, hrun₁, hb₁, hs₁, hk₁⟩ := hx m hm
  obtain ⟨b, m₂, hrun₂, hb₂, hs₂, hk₂⟩ := hf a m₁ hb₁
  refine ⟨b, m₂, by rw [bind_run hrun₁]; exact hrun₂, hb₂, hs₁.trans hs₂, fun k => ?_⟩
  have hk := hk₁ k
  simp only [Bind.bind, EStateM.bind]
  -- the fault strikes inside `x`, or `x` returns as without faults and `f a` goes on
  cases hxk : x { m with budget := some k } with
  | ok a' m'' =>
    rw [hxk] at hk
    obtain ⟨rfl, j, rfl⟩ := hk
    exact (hk₂ j).mono hs₁
  | error e m'' =>
    rw [hxk] at hk
    exact ⟨hk.1, hk.2.trans hs₂⟩

theorem ite {c : Prop} [Decidable c] {y : Prog P V α} (hx : Follows x) (hy : Follows y) :
    Follows (if c then x else y) := by
  split
  · exact hx
  · exact hy

theorem store (f : P → P) : Follows (Txn.store f : Prog P V Unit) :=
  bind fallible fun _ => modifyP f

theorem alloc (f : P → β × P) : Follows (Txn.alloc f : Prog P V β) :=
  bind fallible fun _ => bind readP fun p => bind (modifyP _) fun _ => pure (f p).1

/-- A transaction follows when its body does: it publishes what the body leaves, and a throw
inside it restores the image but keeps the images published before. -/
theorem exec_tx (hx : Follows x) : Follows (Txn.exec_tx x) := by
  intro m hm
  obtain ⟨a, m₁, hrun, hb, hs, hk⟩ := hx m hm
  refine ⟨a, _, exec_tx_run hrun, hb, hs.trans (List.suffix_cons _ _), fun k => ?_⟩
  have hk' := hk k
  simp only [Txn.exec_tx]
  cases hxk : x { m with budget := some k } with
  | ok a' m'' =>
    rw [hxk] at hk'
    obtain ⟨rfl, j, rfl⟩ := hk'
    exact ⟨rfl, j, rfl⟩
  | error e m'' =>
    rw [hxk] at hk'
    exact ⟨hk'.1, hk'.2.trans (List.suffix_cons _ _)⟩

/-! ## What a crash leaves -/

/-- A run stopped at its `k`-th persistent step has published the images of an instant of the run
without faults. -/
theorem commits_between (hx : Follows x) (hm : m.budget = none) (hrun : x m = .ok a m') (k : Nat) :
    m.commits <:+ (Result.state (x { m with budget := some k })).commits ∧
      (Result.state (x { m with budget := some k })).commits <:+ m'.commits := by
  obtain ⟨a₁, m₁, hrun₁, -, hs, hk⟩ := hx m hm
  obtain ⟨rfl, rfl⟩ : a₁ = a ∧ m₁ = m' := by
    rw [hrun] at hrun₁
    cases hrun₁
    exact ⟨rfl, rfl⟩
  have hk' := hk k
  cases hxk : x { m with budget := some k } with
  | ok b m'' =>
    rw [hxk] at hk'
    obtain ⟨-, j, rfl⟩ := hk'
    exact ⟨hs, List.suffix_refl _⟩
  | error e m'' =>
    rw [hxk] at hk'
    exact hk'

/-- Lists between `l` and `c :: l` in the suffix order are one of the two. -/
theorem suffix_between_cons {l l' : List P} {c : P} (h₁ : l <:+ l') (h₂ : l' <:+ c :: l) :
    l' = l ∨ l' = c :: l := by
  rcases List.suffix_cons_iff.1 h₂ with h | h
  · exact .inr h
  · exact .inl (h.eq_of_length (le_antisymm h.length_le h₁.length_le))

/-- A crash inside a program that publishes at most the image `c` leaves the image from before
the program or `c`. -/
theorem durable_of_publish (hx : Follows x) (hm : m.budget = none) (hrun : x m = .ok a m')
    {c : P} (hc : m'.commits <:+ c :: m.commits) (hne : m.commits ≠ []) (k : Nat) :
    (Result.state (x { m with budget := some k })).durable = m.durable ∨
      (Result.state (x { m with budget := some k })).durable = c := by
  obtain ⟨h₁, h₂⟩ := hx.commits_between hm hrun k
  obtain ⟨d, ds, hds⟩ := List.exists_cons_of_ne_nil hne
  unfold Machine.durable
  rcases suffix_between_cons h₁ (h₂.trans hc) with h | h
  · left
    rw [h, hds, List.headD_cons, List.headD_cons]
  · right
    rw [h, List.headD_cons]

end Follows

end Txn
