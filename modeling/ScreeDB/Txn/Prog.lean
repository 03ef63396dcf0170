/-!
# Programs on persistent memory with undo-log transactions

A program runs on a `Machine`: the image `pm` of a persistent pool, volatile memory `vm`, a fault
budget, and the images that committed transactions published. Transactions follow libpmemobj's
`exec_tx`, with the assumption that it is atomic and durable once it returns:

* inside a transaction every persistent store first snapshots what it overwrites, and the
  snapshots and the allocations are the steps that can fail (`fallible`): with budget `some n`
  the `n+1`-th of them throws, with budget `none` none does;
* `exec_tx body` commits by publishing the image (`commits`); when `body` throws, the undo log
  restores the image the transaction started from, volatile writes stay as they are, and the
  exception propagates to the caller;
* a crash at any instant leaves the last published image (`Machine.durable`), whatever the
  volatile memory held.

The rules below compute runs without faults (`*_run`), invert results (`bind_ok`) and transport
properties of the machine through a program on either outcome (`Keeps`).
-/

namespace Txn

/-- The state a program runs on. -/
structure Machine (P V : Type) where
  pm : P
  vm : V
  budget : Option Nat
  /-- Published images, the newest first. -/
  commits : List P

/-- A program: a state monad over the machine that may throw a transaction error. -/
abbrev Prog (P V α : Type) := EStateM Unit (Machine P V) α

variable {P V α β : Type}

namespace Machine

/-- The machine of a session that starts on the image `p`: the image counts as published. -/
def start (p : P) (v : V) : Machine P V := ⟨p, v, none, [p]⟩

/-- What a crash leaves: the last published image. -/
def durable (m : Machine P V) : P := m.commits.headD m.pm

end Machine

/-- The machine a result ends in, on either outcome. -/
def Result.state {ε σ : Type} : EStateM.Result ε σ α → σ
  | .ok _ s => s
  | .error _ s => s

/-! ## Primitives -/

/-- A step that can fail: a snapshot into the undo log or an allocation. -/
def fallible : Prog P V Unit := fun m =>
  match m.budget with
  | none => .ok () m
  | some 0 => .error () m
  | some (n + 1) => .ok () { m with budget := some n }

def readP : Prog P V P := fun m => .ok m.pm m

def readV : Prog P V V := fun m => .ok m.vm m

/-- A write to volatile memory. -/
def modifyV (f : V → V) : Prog P V Unit := fun m => .ok () { m with vm := f m.vm }

/-- A write to the persistent image, already covered by a snapshot. -/
def modifyP (f : P → P) : Prog P V Unit := fun m => .ok () { m with pm := f m.pm }

/-- A store to a persistent field inside a transaction: snapshot, then write. -/
def store (f : P → P) : Prog P V Unit := do fallible; modifyP f

/-- A transactional allocation: it can fail, and otherwise returns what `f` places. -/
def alloc (f : P → β × P) : Prog P V β := do
  fallible
  let p ← readP
  modifyP fun _ => (f p).2
  return (f p).1

/-- `transaction::exec_tx`: commit publishes the image; an exception restores the image the
transaction started from and is thrown on. -/
def exec_tx (body : Prog P V α) : Prog P V α := fun m =>
  match body m with
  | .ok a m' => .ok a { m' with commits := m'.pm :: m'.commits }
  | .error e m' => .error e { m' with pm := m.pm }

/-! ## Runs without faults -/

section Run

variable {m : Machine P V}

theorem bind_run {x : Prog P V α} {f : α → Prog P V β} {a : α} {m' : Machine P V}
    (h : x m = .ok a m') : (x >>= f) m = f a m' := by
  simp only [bind, EStateM.bind, h]

theorem exec_tx_run {body : Prog P V α} {a : α} {m' : Machine P V} (h : body m = .ok a m') :
    exec_tx body m = .ok a { m' with commits := m'.pm :: m'.commits } := by
  simp [exec_tx, h]

/-! A program is run step by step on a machine without faults, `⟨p, v, none, cs⟩`, by rewriting
each primitive in front of its continuation. -/

variable {p : P} {v : V} {cs : List P}

@[simp] theorem pure_bind_run (a : α) (k : α → Prog P V β) (m : Machine P V) :
    EStateM.bind (pure a : Prog P V α) k m = k a m := rfl

@[simp] theorem readP_bind (k : P → Prog P V β) :
    EStateM.bind readP k ⟨p, v, none, cs⟩ = k p ⟨p, v, none, cs⟩ := rfl

@[simp] theorem readV_bind (k : V → Prog P V β) :
    EStateM.bind readV k ⟨p, v, none, cs⟩ = k v ⟨p, v, none, cs⟩ := rfl

@[simp] theorem fallible_bind (k : Unit → Prog P V β) :
    EStateM.bind fallible k ⟨p, v, none, cs⟩ = k () ⟨p, v, none, cs⟩ := rfl

@[simp] theorem modifyV_bind (f : V → V) (k : Unit → Prog P V β) :
    EStateM.bind (modifyV f) k ⟨p, v, none, cs⟩ = k () ⟨p, f v, none, cs⟩ := rfl

@[simp] theorem modifyP_bind (f : P → P) (k : Unit → Prog P V β) :
    EStateM.bind (modifyP f) k ⟨p, v, none, cs⟩ = k () ⟨f p, v, none, cs⟩ := rfl

@[simp] theorem store_bind (f : P → P) (k : Unit → Prog P V β) :
    EStateM.bind (store f) k ⟨p, v, none, cs⟩ = k () ⟨f p, v, none, cs⟩ := rfl

@[simp] theorem modifyV_none (f : V → V) :
    (modifyV f : Prog P V Unit) ⟨p, v, none, cs⟩ = .ok () ⟨p, f v, none, cs⟩ := rfl

@[simp] theorem store_none (f : P → P) :
    (store f : Prog P V Unit) ⟨p, v, none, cs⟩ = .ok () ⟨f p, v, none, cs⟩ := rfl

/-- A program that returns goes on with its continuation. -/
theorem bind_of_run {x : Prog P V α} {a : α} {m' : Machine P V} (k : α → Prog P V β)
    (h : x ⟨p, v, none, cs⟩ = .ok a m') : EStateM.bind x k ⟨p, v, none, cs⟩ = k a m' := by
  simp only [EStateM.bind, h]

/-- A transaction whose body returns publishes the image it leaves. -/
theorem exec_tx_bind {p' : P} {v' : V} {cs' : List P} {a : α} {body : Prog P V α}
    (k : α → Prog P V β) (h : body ⟨p, v, none, cs⟩ = .ok a ⟨p', v', none, cs'⟩) :
    EStateM.bind (exec_tx body) k ⟨p, v, none, cs⟩ = k a ⟨p', v', none, p' :: cs'⟩ := by
  simp only [EStateM.bind, exec_tx, h]

/-- An allocation returns the address `f` hands out. -/
@[simp] theorem alloc_bind (f : P → β × P) (k : β → Prog P V α) :
    EStateM.bind (alloc f) k ⟨p, v, none, cs⟩ = k (f p).1 ⟨(f p).2, v, none, cs⟩ := rfl

end Run

/-! ## Inverting a result -/

section Invert

variable {m m' : Machine P V}

theorem bind_ok {x : Prog P V α} {f : α → Prog P V β} {b : β} (h : (x >>= f) m = .ok b m') :
    ∃ a m₁, x m = .ok a m₁ ∧ f a m₁ = .ok b m' := by
  simp only [bind, EStateM.bind] at h
  split at h
  · exact ⟨_, _, ‹_›, h⟩
  · cases h

end Invert

/-! ## Properties carried through a program -/

/-- `x` takes every machine satisfying `I` to one satisfying `J`, whether it returns or throws. -/
def Keeps (I J : Machine P V → Prop) (x : Prog P V α) : Prop :=
  ∀ m, I m → J (Result.state (x m))

namespace Keeps

variable {I J K : Machine P V → Prop}

theorem bind {x : Prog P V α} {f : α → Prog P V β} (hx : Keeps I J x) (hf : ∀ a, Keeps J K (f a))
    (hJK : ∀ m, J m → K m) : Keeps I K (x >>= f) := by
  intro m hm
  have h1 := hx m hm
  simp only [Bind.bind, EStateM.bind]
  revert h1
  cases x m with
  | ok a s => exact fun h1 => hf a s h1
  | error e s => exact fun h1 => hJK s h1

theorem pure (a : α) (h : ∀ m, I m → J m) : Keeps I J (Pure.pure a : Prog P V α) :=
  fun m hm => h m hm

theorem mono {x : Prog P V α} (hx : Keeps I J x) {I' J' : Machine P V → Prop}
    (hI : ∀ m, I' m → I m) (hJ : ∀ m, J m → J' m) : Keeps I' J' x :=
  fun m hm => hJ _ (hx m (hI m hm))

theorem fallible (h : ∀ m, I m → ∀ b, I { m with budget := b }) :
    Keeps I I (Txn.fallible : Prog P V Unit) := by
  intro m hm
  unfold Txn.fallible
  rcases hb : m.budget with _ | _ | n
  · exact hm
  · exact hm
  · exact h m hm _

theorem readP : Keeps I I (Txn.readP : Prog P V P) := fun _ hm => hm

theorem readV : Keeps I I (Txn.readV : Prog P V V) := fun _ hm => hm

theorem modifyV {f : V → V} (h : ∀ m, I m → J { m with vm := f m.vm }) :
    Keeps I J (Txn.modifyV f : Prog P V Unit) := fun m hm => h m hm

theorem modifyP {f : P → P} (h : ∀ m, I m → J { m with pm := f m.pm }) :
    Keeps I J (Txn.modifyP f : Prog P V Unit) := fun m hm => h m hm

end Keeps

end Txn
