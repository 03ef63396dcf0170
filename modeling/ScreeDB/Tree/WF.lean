import ScreeDB.Tree.Shape
import ScreeDB.Order.Bound

/-!
# Well-formed trees and `LeafSearch`

`WF S root lo hi d t`: `t` is a well-formed B+-tree of depth `d` over the interval `(lo, hi]`,
where the leaf node `n` holds the keys `S n`:

* an inner node has between one (two below the top) and `INNER_KEYS` keys and one more child;
* its keys are strictly ascending inside `(lo, hi]`, and each child is well-formed one level
  lower over the interval its neighbouring keys cut out (`WFChain`);
* a leaf is at depth `0`, and its keys lie in its interval.

The main results:

* `chain_append`, `chain_hole`, `chain_insert`: an inner node cut at a key, at a child, and with a
  key and a child inserted after a child;
* `WF.plugAll_iff`: a tree is well-formed iff the node at the end of a path is, over the interval
  that the path gives it (`CtxWF`);
* `WF.mem`: the keys of every leaf lie in the interval of the tree, and `WF.pairwise_leafIds`:
  the leaves hold ascending keys from left to right;
* `leafSearchFrom_of_mem`: `LeafSearch` reaches the leaf that holds a key;
  `WF.add_reached`: the leaf it reaches for keys may take them;
* `leafSearchFrom_ordered`: in every tree, well-formed or not, `LeafSearch` reaches for a larger
  key the same leaf or one to its right.
-/

namespace ScreeDB

open ScreeDBNode

mutual

/-- A well-formed tree of depth `d` over `(lo, hi]`, whose leaf `n` holds the keys `S n`; `root`
is set for the top node, which may hold a single key. -/
def WF (S : Nat → CStr → Prop) (root : Bool) :
    Option CStr → Option CStr → Nat → ScreeDBNode → Prop
  | lo, hi, d, .leaf n => d = 0 ∧ ∀ k, S n k → Bound.Mem lo hi k
  | lo, hi, d, .inner _ keys children =>
    ∃ d', d = d' + 1 ∧ (if root then 1 else 2) ≤ keys.length ∧ keys.length ≤ INNER_KEYS ∧
      WFChain S lo d' keys children hi

/-- The children and keys of an inner node from the bound `lo` on: each child is well-formed
over the interval between the bounds around it, and the bounds ascend strictly up to `hi`. -/
def WFChain (S : Nat → CStr → Prop) :
    Option CStr → Nat → List CStr → List ScreeDBNode → Option CStr → Prop
  | lo, d, [], [c], hi => Bound.Lt lo hi ∧ WF S false lo hi d c
  | lo, d, k :: ks, c :: cs, hi =>
    Bound.Lt lo (some k) ∧ WF S false lo (some k) d c ∧ WFChain S (some k) d ks cs hi
  | _, _, _, _, _ => False

end

section Chain

variable {S S' : Nat → CStr → Prop}

@[simp] theorem wf_leaf {r : Bool} {lo hi : Option CStr} {d n : Nat} :
    WF S r lo hi d (.leaf n) ↔ d = 0 ∧ ∀ k, S n k → Bound.Mem lo hi k := by
  simp [WF]

@[simp] theorem wf_inner {r : Bool} {lo hi : Option CStr} {d i : Nat} {ks : List CStr}
    {cs : List ScreeDBNode} :
    WF S r lo hi d (.inner i ks cs) ↔ ∃ d', d = d' + 1 ∧ (if r then 1 else 2) ≤ ks.length ∧
      ks.length ≤ INNER_KEYS ∧ WFChain S lo d' ks cs hi := by
  simp [WF]

@[simp] theorem wfChain_single {lo hi : Option CStr} {d : Nat} {c : ScreeDBNode} :
    WFChain S lo d [] [c] hi ↔ Bound.Lt lo hi ∧ WF S false lo hi d c := by
  simp [WFChain]

@[simp] theorem wfChain_cons {lo hi : Option CStr} {d : Nat} {k : CStr} {ks : List CStr}
    {c : ScreeDBNode} {cs : List ScreeDBNode} :
    WFChain S lo d (k :: ks) (c :: cs) hi ↔
      Bound.Lt lo (some k) ∧ WF S false lo (some k) d c ∧ WFChain S (some k) d ks cs hi := by
  simp [WFChain]

@[simp] theorem wfChain_nil_right {lo hi : Option CStr} {d : Nat} {ks : List CStr} :
    ¬ WFChain S lo d ks [] hi := by
  cases ks <;> simp [WFChain]

@[simp] theorem wfChain_nil_two {lo hi : Option CStr} {d : Nat} {c c' : ScreeDBNode}
    {cs : List ScreeDBNode} : ¬ WFChain S lo d [] (c :: c' :: cs) hi := by
  simp [WFChain]

theorem WFChain.length : ∀ {lo hi : Option CStr} {d : Nat} {ks : List CStr}
    {cs : List ScreeDBNode}, WFChain S lo d ks cs hi → cs.length = ks.length + 1
  | _, _, _, [], [_], _ => rfl
  | _, _, _, [], [], h | _, _, _, _ :: _, [], h => absurd h wfChain_nil_right
  | _, _, _, [], _ :: _ :: _, h => absurd h wfChain_nil_two
  | _, _, _, _ :: _, _ :: _, h => by
    rw [wfChain_cons] at h
    simp [h.2.2.length]

/-- The bounds of a chain ascend. -/
theorem WFChain.lt : ∀ {lo hi : Option CStr} {d : Nat} {ks : List CStr}
    {cs : List ScreeDBNode}, WFChain S lo d ks cs hi → Bound.Lt lo hi
  | _, _, _, [], [_], h => (wfChain_single.1 h).1
  | _, _, _, [], [], h | _, _, _, _ :: _, [], h => absurd h wfChain_nil_right
  | _, _, _, [], _ :: _ :: _, h => absurd h wfChain_nil_two
  | _, _, _, _ :: _, _ :: _, h => by
    rw [wfChain_cons] at h
    exact h.1.trans h.2.2.lt

/-- The keys of a chain lie strictly inside its bounds. -/
theorem WFChain.keys_lt : ∀ {lo hi : Option CStr} {d : Nat} {ks : List CStr}
    {cs : List ScreeDBNode}, WFChain S lo d ks cs hi →
      ∀ k ∈ ks, Bound.Lt lo (some k) ∧ Bound.Lt (some k) hi
  | _, _, _, [], _, _ => by simp
  | _, _, _, _ :: _, [], h => absurd h wfChain_nil_right
  | _, _, _, k :: ks, _ :: _, h => by
    rw [wfChain_cons] at h
    intro k' hk'
    rcases List.mem_cons.1 hk' with rfl | hk'
    · exact ⟨h.1, h.2.2.lt⟩
    · have := h.2.2.keys_lt k' hk'
      exact ⟨h.1.trans this.1, this.2⟩

/-- A chain cut at one of its keys: the children before it end at the key, those after it start
there. -/
theorem chain_append {lo hi : Option CStr} {d : Nat} {k : CStr} :
    ∀ {kl kr : List CStr} {cl cr : List ScreeDBNode}, cl.length = kl.length + 1 →
      (WFChain S lo d (kl ++ k :: kr) (cl ++ cr) hi ↔
        WFChain S lo d kl cl (some k) ∧ WFChain S (some k) d kr cr hi)
  | [], _, [c], _, _ => by simp [and_assoc]
  | [], _, [], _, h | [], _, _ :: _ :: _, _, h => by simp at h
  | _ :: _, _, [], _, h => by simp at h
  | k' :: kl, kr, c :: cl, cr, h => by
    simp only [List.length_cons, Nat.add_right_cancel_iff] at h
    simp only [List.cons_append, wfChain_cons, chain_append h, and_assoc]

/-- The part of a chain left of a child: keys `kl` and children `left`, ending at the bound `a`
just left of the child. -/
def HoleL (S : Nat → CStr → Prop) (lo : Option CStr) (d : Nat) (kl : List CStr)
    (left : List ScreeDBNode) (a : Option CStr) : Prop :=
  (kl = [] ∧ left = [] ∧ a = lo) ∨ ∃ kl' k, kl = kl' ++ [k] ∧ a = some k ∧ WFChain S lo d kl' left (some k)

/-- The part of a chain right of a child: keys `kr` and children `right`, starting at the bound
`b` just right of the child. -/
def HoleR (S : Nat → CStr → Prop) (b : Option CStr) (d : Nat) (kr : List CStr)
    (right : List ScreeDBNode) (hi : Option CStr) : Prop :=
  (kr = [] ∧ right = [] ∧ b = hi) ∨ ∃ k kr', kr = k :: kr' ∧ b = some k ∧ WFChain S (some k) d kr' right hi

/-- A chain from its first child on. -/
theorem chain_head {a hi : Option CStr} {d : Nat} {kr : List CStr} {x : ScreeDBNode}
    {right : List ScreeDBNode} :
    WFChain S a d kr (x :: right) hi ↔
      ∃ b, Bound.Lt a b ∧ WF S false a b d x ∧ HoleR S b d kr right hi := by
  cases kr with
  | nil =>
    cases right with
    | nil => simp [HoleR]
    | cons => simp [HoleR]
  | cons k kr =>
    simp only [wfChain_cons, HoleR, reduceCtorEq, false_and, List.cons.injEq, false_or]
    constructor
    · rintro ⟨h₁, h₂, h₃⟩
      exact ⟨some k, h₁, h₂, k, kr, ⟨rfl, rfl⟩, rfl, h₃⟩
    · rintro ⟨b, h₁, h₂, k', kr', ⟨rfl, rfl⟩, rfl, h₃⟩
      exact ⟨h₁, h₂, h₃⟩

@[simp] theorem holeL_nil {lo a : Option CStr} {d : Nat} {left : List ScreeDBNode} :
    HoleL S lo d [] left a ↔ left = [] ∧ a = lo := by
  simp [HoleL, eq_comm (a := ([] : List CStr))]

@[simp] theorem holeL_snoc {lo a : Option CStr} {d : Nat} {kl : List CStr} {k : CStr}
    {left : List ScreeDBNode} :
    HoleL S lo d (kl ++ [k]) left a ↔ a = some k ∧ WFChain S lo d kl left (some k) := by
  simp only [HoleL, List.append_eq_nil_iff, List.cons_ne_nil, and_false, false_and, false_or]
  constructor
  · rintro ⟨kl', k', he, rfl, hc⟩
    obtain ⟨rfl, hk⟩ := List.append_inj' he rfl
    rw [List.singleton_inj] at hk
    subst hk
    exact ⟨rfl, hc⟩
  · rintro ⟨rfl, hc⟩
    exact ⟨kl, k, rfl, rfl, hc⟩

/-- A chain seen from one of its children: the part left of it, the child over the interval
`(a, b]`, the part right of it. -/
theorem chain_hole {lo hi : Option CStr} {d : Nat} {kl kr : List CStr} {x : ScreeDBNode}
    {left right : List ScreeDBNode} (hlen : left.length = kl.length) :
    WFChain S lo d (kl ++ kr) (left ++ x :: right) hi ↔
      ∃ a b, HoleL S lo d kl left a ∧ Bound.Lt a b ∧ WF S false a b d x ∧
        HoleR S b d kr right hi := by
  rcases List.eq_nil_or_concat kl with rfl | ⟨kl', k, rfl⟩
  · rw [List.length_nil, List.length_eq_zero_iff] at hlen
    subst hlen
    simp only [List.nil_append, chain_head, holeL_nil, true_and]
    constructor
    · rintro ⟨b, h⟩
      exact ⟨lo, b, rfl, h⟩
    · rintro ⟨a, b, rfl, h⟩
      exact ⟨b, h⟩
  · rw [List.concat_eq_append] at hlen ⊢
    have hl : left.length = kl'.length + 1 := by simpa using hlen
    rw [List.append_assoc, List.singleton_append, chain_append hl, chain_head]
    simp only [holeL_snoc]
    constructor
    · rintro ⟨hl', b, h⟩
      exact ⟨some k, b, ⟨rfl, hl'⟩, h⟩
    · rintro ⟨a, b, ⟨rfl, hl'⟩, h⟩
      exact ⟨hl', b, h⟩

/-- `HoleL` fixes the number of children left of the place. -/
theorem HoleL.length {lo a : Option CStr} {d : Nat} {kl : List CStr} {left : List ScreeDBNode}
    (h : HoleL S lo d kl left a) : left.length = kl.length := by
  rcases h with ⟨rfl, rfl, -⟩ | ⟨kl', k, rfl, -, hc⟩
  · rfl
  · simp [hc.length]

/-- `HoleR` fixes the number of children right of the place. -/
theorem HoleR.length {b hi : Option CStr} {d : Nat} {kr : List CStr} {right : List ScreeDBNode}
    (h : HoleR S b d kr right hi) : right.length = kr.length := by
  rcases h with ⟨rfl, rfl, -⟩ | ⟨k, kr', rfl, -, hc⟩
  · rfl
  · simp [hc.length]

/-- A key and a child inserted right of a child that gives up the upper part of its interval. -/
theorem chain_insert {lo hi a b : Option CStr} {d : Nat} {kl kr : List CStr} {s : CStr}
    {x y : ScreeDBNode} {left right : List ScreeDBNode} (hl : HoleL S lo d kl left a)
    (hxs : Bound.Lt a (some s)) (hx : WF S false a (some s) d x) (hsy : Bound.Lt (some s) b)
    (hy : WF S false (some s) b d y) (hr : HoleR S b d kr right hi) :
    WFChain S lo d (kl ++ s :: kr) (left ++ x :: y :: right) hi := by
  have hx' : WFChain S lo d kl (left ++ [x]) (some s) := by
    rw [← List.append_nil kl, chain_hole hl.length]
    exact ⟨a, some s, hl, hxs, hx, .inl ⟨rfl, rfl, rfl⟩⟩
  have hlen : (left ++ [x]).length = kl.length + 1 := by simp [hl.length]
  have hc : left ++ x :: y :: right = (left ++ [x]) ++ y :: right := by simp
  rw [hc, chain_append hlen]
  exact ⟨hx', chain_head.2 ⟨b, hsy, hy, hr⟩⟩

end Chain

/-! ## Monotonicity in the keys -/

section Congr

variable {S S' : Nat → CStr → Prop}

mutual

/-- `WF` reads the keys of the leaves of the tree only. -/
theorem WF.congr : ∀ {r : Bool} {lo hi : Option CStr} {d : Nat} (t : ScreeDBNode),
    (∀ m ∈ leafIds t, ∀ k, S' m k → S m k) → WF S r lo hi d t → WF S' r lo hi d t
  | _, _, _, _, .leaf n, hS, h => by
    rw [wf_leaf] at h ⊢
    exact ⟨h.1, fun k hk => h.2 k (hS n (by simp) k hk)⟩
  | _, _, _, _, .inner _ ks cs, hS, h => by
    rw [wf_inner] at h ⊢
    obtain ⟨d', hd, h₁, h₂, hc⟩ := h
    exact ⟨d', hd, h₁, h₂, WFChain.congr ks cs (by simpa using hS) hc⟩

theorem WFChain.congr : ∀ {lo hi : Option CStr} {d : Nat} (ks : List CStr) (cs : List ScreeDBNode),
    (∀ m ∈ leafIdsIn cs, ∀ k, S' m k → S m k) → WFChain S lo d ks cs hi → WFChain S' lo d ks cs hi
  | _, _, _, [], [c], hS, h => by
    rw [wfChain_single] at h ⊢
    exact ⟨h.1, WF.congr c (fun m hm => hS m (by simp [hm])) h.2⟩
  | _, _, _, [], [], _, h | _, _, _, _ :: _, [], _, h => absurd h wfChain_nil_right
  | _, _, _, [], _ :: _ :: _, _, h => absurd h wfChain_nil_two
  | _, _, _, _ :: ks, c :: cs, hS, h => by
    rw [wfChain_cons] at h ⊢
    exact ⟨h.1, WF.congr c (fun m hm => hS m (by simp [hm])) h.2.1,
      WFChain.congr ks cs (fun m hm => hS m (by simp [hm])) h.2.2⟩

end

theorem HoleL.congr {lo a : Option CStr} {d : Nat} {kl : List CStr} {left : List ScreeDBNode}
    (hS : ∀ m ∈ leafIdsIn left, ∀ k, S' m k → S m k) (h : HoleL S lo d kl left a) :
    HoleL S' lo d kl left a := by
  rcases h with h | ⟨kl', k, h₁, h₂, hc⟩
  · exact .inl h
  · exact .inr ⟨kl', k, h₁, h₂, WFChain.congr kl' left hS hc⟩

theorem HoleR.congr {b hi : Option CStr} {d : Nat} {kr : List CStr} {right : List ScreeDBNode}
    (hS : ∀ m ∈ leafIdsIn right, ∀ k, S' m k → S m k) (h : HoleR S b d kr right hi) :
    HoleR S' b d kr right hi := by
  rcases h with h | ⟨k, kr', h₁, h₂, hc⟩
  · exact .inl h
  · exact .inr ⟨k, kr', h₁, h₂, WFChain.congr kr' right hS hc⟩

end Congr

/-! ## A node on its path -/

/-- The path `ps` around a node over `(a, b]` at depth `d`: each ancestor is an inner node cut at
the place of the node below it, well-formed around that place, and the top one is unbounded. -/
def CtxWF (S : Nat → CStr → Prop) : List Frame → Option CStr → Option CStr → Nat → Prop
  | [], lo, hi, _ => lo = none ∧ hi = none
  | f :: fs, a, b, d => ∃ lo hi kl kr, f.keys = kl ++ kr ∧
      (if fs.isEmpty then 1 else 2) ≤ f.keys.length ∧ f.keys.length ≤ INNER_KEYS ∧
      HoleL S lo d kl f.left a ∧ Bound.Lt a b ∧ HoleR S b d kr f.right hi ∧ CtxWF S fs lo hi (d + 1)

section Ctx

variable {S S' : Nat → CStr → Prop}

/-- An inner node seen from one of its children. -/
theorem wf_plug_iff {r : Bool} {lo hi : Option CStr} {d : Nat} {f : Frame} {x : ScreeDBNode} :
    WF S r lo hi (d + 1) (f.plug x) ↔ ∃ kl kr a b, f.keys = kl ++ kr ∧
      (if r then 1 else 2) ≤ f.keys.length ∧ f.keys.length ≤ INNER_KEYS ∧
      HoleL S lo d kl f.left a ∧ Bound.Lt a b ∧ WF S false a b d x ∧ HoleR S b d kr f.right hi := by
  simp only [Frame.plug, wf_inner, Nat.add_right_cancel_iff, exists_eq_left']
  constructor
  · rintro ⟨h₁, h₂, hc⟩
    have hlen := hc.length
    simp only [List.length_append, List.length_cons] at hlen
    have hsplit : f.keys = f.keys.take f.left.length ++ f.keys.drop f.left.length :=
      (List.take_append_drop _ _).symm
    rw [hsplit, chain_hole (by simp; omega)] at hc
    obtain ⟨a, b, hl, hab, hx, hr⟩ := hc
    exact ⟨_, _, a, b, hsplit, h₁, h₂, hl, hab, hx, hr⟩
  · rintro ⟨kl, kr, a, b, hk, h₁, h₂, hl, hab, hx, hr⟩
    refine ⟨h₁, h₂, ?_⟩
    rw [hk, chain_hole hl.length]
    exact ⟨a, b, hl, hab, hx, hr⟩

/-- A tree is well-formed iff the node at the end of a path is, over the interval and at the
depth the path gives it. -/
theorem wf_plugAll_iff {D : Nat} {x : ScreeDBNode} :
    ∀ {ps : List Frame}, WF S true none none D (plugAll ps x) ↔
      ∃ lo hi d, D = d + ps.length ∧ CtxWF S ps lo hi d ∧ WF S ps.isEmpty lo hi d x
  | [] => by
    simp only [plugAll_nil, List.length_nil, Nat.add_zero, CtxWF, List.isEmpty_nil]
    constructor
    · intro h
      exact ⟨none, none, D, rfl, ⟨rfl, rfl⟩, h⟩
    · rintro ⟨lo, hi, d, rfl, ⟨rfl, rfl⟩, h⟩
      exact h
  | f :: fs => by
    rw [plugAll_cons, wf_plugAll_iff]
    constructor
    · rintro ⟨lo, hi, d, hD, hctx, hwf⟩
      obtain ⟨d', rfl⟩ : ∃ d', d = d' + 1 := by
        cases d with
        | zero => simp [Frame.plug] at hwf
        | succ d' => exact ⟨d', rfl⟩
      obtain ⟨kl, kr, a, b, hk, h₁, h₂, hl, hab, hx, hr⟩ := wf_plug_iff.1 hwf
      refine ⟨a, b, d', by simp [hD]; omega, ⟨lo, hi, kl, kr, hk, h₁, h₂, hl, hab, hr, hctx⟩, ?_⟩
      simpa using hx
    · rintro ⟨a, b, d, hD, ⟨lo, hi, kl, kr, hk, h₁, h₂, hl, hab, hr, hctx⟩, hx⟩
      refine ⟨lo, hi, d + 1, by simp [hD]; omega, hctx, ?_⟩
      exact wf_plug_iff.2 ⟨kl, kr, a, b, hk, h₁, h₂, hl, hab, by simpa using hx, hr⟩

/-- The leaves of the path around the place: those left and right of it. -/
theorem CtxWF.congr {ps : List Frame} {lo hi : Option CStr} {d : Nat}
    (hS : ∀ m ∈ ctxLeft ps ++ ctxRight ps, ∀ k, S' m k → S m k) (h : CtxWF S ps lo hi d) :
    CtxWF S' ps lo hi d := by
  induction ps generalizing lo hi d with
  | nil => exact h
  | cons f fs ih =>
    obtain ⟨lo', hi', kl, kr, hk, h₁, h₂, hl, hab, hr, hctx⟩ := h
    simp only [ctxLeft, ctxRight, List.mem_append] at hS
    refine ⟨lo', hi', kl, kr, hk, h₁, h₂, hl.congr fun m hm => hS m (.inl (.inr hm)), hab,
      hr.congr fun m hm => hS m (.inr (.inl hm)), ih (fun m hm => ?_) hctx⟩
    rcases List.mem_append.1 hm with hm | hm
    · exact hS m (.inl (.inl hm))
    · exact hS m (.inr (.inr hm))

end Ctx

/-! ## Keys of the leaves -/

section Keys

variable {S : Nat → CStr → Prop}

mutual

/-- The keys of every leaf lie in the interval of the tree. -/
theorem WF.mem : ∀ {r : Bool} {lo hi : Option CStr} {d : Nat} (t : ScreeDBNode),
    WF S r lo hi d t → ∀ m ∈ leafIds t, ∀ k, S m k → Bound.Mem lo hi k
  | _, _, _, _, .leaf n, h, m, hm, k, hk => by
    simp only [leafIds_leaf, List.mem_singleton] at hm
    subst hm
    exact (wf_leaf.1 h).2 k hk
  | _, _, _, _, .inner _ ks cs, h, m, hm, k, hk => by
    obtain ⟨d', -, -, -, hc⟩ := wf_inner.1 h
    exact WFChain.mem ks cs hc m (by simpa using hm) k hk

theorem WFChain.mem : ∀ {lo hi : Option CStr} {d : Nat} (ks : List CStr) (cs : List ScreeDBNode),
    WFChain S lo d ks cs hi → ∀ m ∈ leafIdsIn cs, ∀ k, S m k → Bound.Mem lo hi k
  | _, _, _, [], [c], h, m, hm, k, hk => by
    exact WF.mem c (wfChain_single.1 h).2 m (by simpa using hm) k hk
  | _, _, _, [], [], h, _, _, _, _ | _, _, _, _ :: _, [], h, _, _, _, _ =>
    absurd h wfChain_nil_right
  | _, _, _, [], _ :: _ :: _, h, _, _, _, _ => absurd h wfChain_nil_two
  | _, _, _, _ :: ks, c :: cs, h, m, hm, k, hk => by
    obtain ⟨h₁, h₂, h₃⟩ := wfChain_cons.1 h
    rcases List.mem_append.1 (by simpa using hm) with hm | hm
    · exact (WF.mem c h₂ m hm k hk).widen_upper h₃.lt.le
    · exact (WFChain.mem ks cs h₃ m hm k hk).widen_lower h₁.le

end

mutual

/-- The leaves hold ascending keys from left to right. -/
theorem WF.pairwise_leafIds : ∀ {r : Bool} {lo hi : Option CStr} {d : Nat} (t : ScreeDBNode),
    WF S r lo hi d t → (leafIds t).Pairwise fun m m' => ∀ k k', S m k → S m' k' → k < k'
  | _, _, _, _, .leaf n, _ => by simp
  | _, _, _, _, .inner _ ks cs, h => by
    obtain ⟨d', -, -, -, hc⟩ := wf_inner.1 h
    simpa using WFChain.pairwise_leafIds ks cs hc

theorem WFChain.pairwise_leafIds : ∀ {lo hi : Option CStr} {d : Nat} (ks : List CStr)
    (cs : List ScreeDBNode), WFChain S lo d ks cs hi →
      (leafIdsIn cs).Pairwise fun m m' => ∀ k k', S m k → S m' k' → k < k'
  | _, _, _, [], [c], h => by
    simpa using WF.pairwise_leafIds c (wfChain_single.1 h).2
  | _, _, _, [], [], h | _, _, _, _ :: _, [], h => absurd h wfChain_nil_right
  | _, _, _, [], _ :: _ :: _, h => absurd h wfChain_nil_two
  | _, _, _, _ :: ks, c :: cs, h => by
    obtain ⟨-, h₂, h₃⟩ := wfChain_cons.1 h
    rw [leafIdsIn_cons, List.pairwise_append]
    refine ⟨WF.pairwise_leafIds c h₂, WFChain.pairwise_leafIds ks cs h₃, ?_⟩
    intro m hm m' hm' k k' hk hk'
    exact (WF.mem c h₂ m hm k hk).lt_of_le_of_mem (WFChain.mem ks cs h₃ m' hm' k' hk')

end

mutual

/-- Every well-formed node has a leaf. -/
theorem WF.leafIds_ne_nil : ∀ {r : Bool} {lo hi : Option CStr} {d : Nat} (t : ScreeDBNode),
    WF S r lo hi d t → leafIds t ≠ []
  | _, _, _, _, .leaf n, _ => by simp
  | _, _, _, _, .inner _ ks cs, h => by
    obtain ⟨d', -, -, -, hc⟩ := wf_inner.1 h
    simpa using WFChain.leafIdsIn_ne_nil ks cs hc

theorem WFChain.leafIdsIn_ne_nil : ∀ {lo hi : Option CStr} {d : Nat} (ks : List CStr)
    (cs : List ScreeDBNode), WFChain S lo d ks cs hi → leafIdsIn cs ≠ []
  | _, _, _, [], [c], h => by
    simpa using WF.leafIds_ne_nil c (wfChain_single.1 h).2
  | _, _, _, [], [], h | _, _, _, _ :: _, [], h => absurd h wfChain_nil_right
  | _, _, _, [], _ :: _ :: _, h => absurd h wfChain_nil_two
  | _, _, _, _ :: _, c :: _, h => by
    simp [WF.leafIds_ne_nil c (wfChain_cons.1 h).2.1]

end

end Keys

/-! ## `LeafSearch` -/

section Search

variable {S : Nat → CStr → Prop}

mutual

/-- `LeafSearch` ends at a leaf of the tree. -/
theorem leafSearchFrom_mem {k : CStr} : ∀ (t : ScreeDBNode) {n : Nat},
    leafSearchFrom k t = some n → n ∈ leafIds t
  | .leaf m, n, h => by
    simp only [leafSearchFrom, Option.some.injEq] at h
    simp [h]
  | .inner _ ks cs, n, h => by
    simp only [leafSearchFrom] at h
    simpa using leafSearchIn_mem ks cs h

theorem leafSearchIn_mem {k : CStr} : ∀ (ks : List CStr) (cs : List ScreeDBNode) {n : Nat},
    leafSearchIn k ks cs = some n → n ∈ leafIdsIn cs
  | [], [], n, h | _ :: _, [], n, h => by simp [leafSearchIn] at h
  | [], c :: cs, n, h => by
    simp only [leafSearchIn] at h
    simp [leafSearchFrom_mem c h]
  | k' :: ks, c :: cs, n, h => by
    simp only [leafSearchIn] at h
    split at h
    · simp [leafSearchFrom_mem c h]
    · simp [leafSearchIn_mem ks cs h]

end

mutual

/-- `LeafSearch` for a key of a leaf reaches that leaf. -/
theorem leafSearchFrom_of_mem {k : CStr} : ∀ {r : Bool} {lo hi : Option CStr} {d : Nat}
    (t : ScreeDBNode) {m : Nat}, WF S r lo hi d t → m ∈ leafIds t → S m k →
      leafSearchFrom k t = some m
  | _, _, _, _, .leaf n, m, _, hm, _ => by
    simp only [leafIds_leaf, List.mem_singleton] at hm
    simp [leafSearchFrom, hm]
  | _, _, _, _, .inner _ ks cs, m, h, hm, hk => by
    obtain ⟨d', -, -, -, hc⟩ := wf_inner.1 h
    simp only [leafSearchFrom]
    exact leafSearchIn_of_mem ks cs hc (by simpa using hm) hk

theorem leafSearchIn_of_mem {k : CStr} : ∀ {lo hi : Option CStr} {d : Nat} (ks : List CStr)
    (cs : List ScreeDBNode) {m : Nat}, WFChain S lo d ks cs hi → m ∈ leafIdsIn cs → S m k →
      leafSearchIn k ks cs = some m
  | _, _, _, [], [c], m, h, hm, hk => by
    simp only [leafSearchIn]
    exact leafSearchFrom_of_mem c (wfChain_single.1 h).2 (by simpa using hm) hk
  | _, _, _, [], [], _, h, _, _ | _, _, _, _ :: _, [], _, h, _, _ => absurd h wfChain_nil_right
  | _, _, _, [], _ :: _ :: _, _, h, _, _ => absurd h wfChain_nil_two
  | _, _, _, k' :: ks, c :: cs, m, h, hm, hk => by
    obtain ⟨-, h₂, h₃⟩ := wfChain_cons.1 h
    simp only [leafSearchIn]
    by_cases hmc : m ∈ leafIds c
    · have hle : k ≤ k' := (WF.mem c h₂ m hmc k hk).2
      rw [if_pos (strcmp_nonpos_iff.2 hle)]
      exact leafSearchFrom_of_mem c h₂ hmc hk
    · have hm' : m ∈ leafIdsIn cs := by simpa [hmc] using hm
      have hlt : k' < k := (WFChain.mem ks cs h₃ m hm' k hk).1
      rw [if_neg (Int.not_le.2 (strcmp_pos_iff.2 hlt))]
      exact leafSearchIn_of_mem ks cs h₃ hm' hk

end

mutual

/-- `LeafSearch` in a well-formed tree always reaches a leaf. -/
theorem leafSearchFrom_isSome (k : CStr) : ∀ {r : Bool} {lo hi : Option CStr} {d : Nat}
    (t : ScreeDBNode), WF S r lo hi d t → ∃ n, leafSearchFrom k t = some n
  | _, _, _, _, .leaf n, _ => ⟨n, rfl⟩
  | _, _, _, _, .inner _ ks cs, h => by
    obtain ⟨d', -, -, -, hc⟩ := wf_inner.1 h
    exact leafSearchIn_isSome k ks cs hc

theorem leafSearchIn_isSome (k : CStr) : ∀ {lo hi : Option CStr} {d : Nat} (ks : List CStr)
    (cs : List ScreeDBNode), WFChain S lo d ks cs hi → ∃ n, leafSearchIn k ks cs = some n
  | _, _, _, [], [c], h => by
    simp only [leafSearchIn]
    exact leafSearchFrom_isSome k c (wfChain_single.1 h).2
  | _, _, _, [], [], h | _, _, _, _ :: _, [], h => absurd h wfChain_nil_right
  | _, _, _, [], _ :: _ :: _, h => absurd h wfChain_nil_two
  | _, _, _, k' :: ks, c :: cs, h => by
    obtain ⟨-, h₂, h₃⟩ := wfChain_cons.1 h
    simp only [leafSearchIn]
    split
    · exact leafSearchFrom_isSome k c h₂
    · exact leafSearchIn_isSome k ks cs h₃

end

variable {S' : Nat → CStr → Prop}

mutual

/-- The leaf `LeafSearch` reaches for keys of the tree's interval may take them: the tree stays
well-formed when `S'` adds to the leaf `n` keys of `(lo, hi]` that the search takes to `n`. -/
theorem WF.add_reached {n : Nat} : ∀ {r : Bool} {lo hi : Option CStr} {d : Nat}
    (t : ScreeDBNode), WF S r lo hi d t → (leafIds t).Nodup →
      (∀ m ∈ leafIds t, ∀ k, S' m k → S m k ∨
        (m = n ∧ Bound.Mem lo hi k ∧ leafSearchFrom k t = some n)) →
      WF S' r lo hi d t
  | _, _, _, _, .leaf m, h, _, hS => by
    refine wf_leaf.2 ⟨(wf_leaf.1 h).1, fun k hk => ?_⟩
    rcases hS m (by simp) k hk with hk | ⟨-, hk, -⟩
    · exact (wf_leaf.1 h).2 k hk
    · exact hk
  | _, _, _, _, .inner _ ks cs, h, hnd, hS => by
    obtain ⟨d', hd, h1, h2, hc⟩ := wf_inner.1 h
    exact wf_inner.2 ⟨d', hd, h1, h2,
      WFChain.add_reached ks cs hc (by simpa using hnd) (by simpa [leafSearchFrom] using hS)⟩

theorem WFChain.add_reached {n : Nat} : ∀ {lo hi : Option CStr} {d : Nat}
    (ks : List CStr) (cs : List ScreeDBNode), WFChain S lo d ks cs hi → (leafIdsIn cs).Nodup →
      (∀ m ∈ leafIdsIn cs, ∀ k, S' m k → S m k ∨
        (m = n ∧ Bound.Mem lo hi k ∧ leafSearchIn k ks cs = some n)) →
      WFChain S' lo d ks cs hi
  | _, _, _, [], [c], h, hnd, hS => by
    obtain ⟨h₁, h₂⟩ := wfChain_single.1 h
    exact wfChain_single.2 ⟨h₁, WF.add_reached c h₂ (by simpa using hnd)
      (by simpa [leafSearchIn] using hS)⟩
  | _, _, _, [], [], h, _, _ | _, _, _, _ :: _, [], h, _, _ => absurd h wfChain_nil_right
  | _, _, _, [], _ :: _ :: _, h, _, _ => absurd h wfChain_nil_two
  | lo, hi, _, k' :: ks, c :: cs, h, hnd, hS => by
    obtain ⟨h₁, h₂, h₃⟩ := wfChain_cons.1 h
    rw [leafIdsIn_cons, List.nodup_append] at hnd
    obtain ⟨hndc, hnds, hdis⟩ := hnd
    refine wfChain_cons.2 ⟨h₁, WF.add_reached (n := n) c h₂ hndc fun m hm k hk => ?_,
      WFChain.add_reached (n := n) ks cs h₃ hnds fun m hm k hk => ?_⟩
    -- a key the search takes into the first child is at most `k'`
    · rcases hS m (by simp [hm]) k hk with hk | ⟨rfl, hmem, hs⟩
      · exact .inl hk
      · simp only [leafSearchIn] at hs
        split at hs
        · exact .inr ⟨rfl, ⟨hmem.1, strcmp_nonpos_iff.1 ‹_›⟩, hs⟩
        · exact absurd rfl (hdis _ hm _ (leafSearchIn_mem ks cs hs))
    -- and one it takes further right is above `k'`
    · rcases hS m (by simp [hm]) k hk with hk | ⟨rfl, hmem, hs⟩
      · exact .inl hk
      · simp only [leafSearchIn] at hs
        split at hs
        · exact absurd rfl (hdis _ (leafSearchFrom_mem c hs) _ hm)
        · exact .inr ⟨rfl, ⟨strcmp_pos_iff.1 (Int.lt_of_not_ge ‹_›), hmem.2⟩, hs⟩

end

/-- The leaf `LeafSearch` reaches for a key of the tree's interval may take the key. -/
theorem WF.add_found {k : CStr} {n : Nat} {r : Bool} {lo hi : Option CStr} {d : Nat}
    (t : ScreeDBNode) (h : WF S r lo hi d t) (hnd : (leafIds t).Nodup) (hk : Bound.Mem lo hi k)
    (hs : leafSearchFrom k t = some n)
    (hS : ∀ m ∈ leafIds t, ∀ k', S' m k' → S m k' ∨ (m = n ∧ k' = k)) : WF S' r lo hi d t :=
  WF.add_reached t h hnd fun m hm k' hk' => by
    rcases hS m hm k' hk' with h' | ⟨rfl, rfl⟩
    · exact .inl h'
    · exact .inr ⟨rfl, hk, hs⟩

end Search

/-! ## `LeafSearch` respects the order of the keys -/

section Order

variable {k k' : CStr}

/-- Two leaves of a child, in order, are in order among the leaves of its parent's children. -/
theorem pair_sublist_cons {n n' : Nat} {c : ScreeDBNode} {cs : List ScreeDBNode}
    (h : n = n' ∨ List.Sublist [n, n'] (leafIds c)) :
    n = n' ∨ List.Sublist [n, n'] (leafIdsIn (c :: cs)) := by
  rw [leafIdsIn_cons]
  exact h.imp_right fun h => h.trans (List.sublist_append_left _ _)

mutual

/-- In every tree, the leaf `LeafSearch` reaches for a key is the one it reaches for a larger
key, or lies left of it. -/
theorem leafSearchFrom_ordered (hle : k ≤ k') : ∀ (t : ScreeDBNode) {n n' : Nat},
    leafSearchFrom k t = some n → leafSearchFrom k' t = some n' →
      n = n' ∨ List.Sublist [n, n'] (leafIds t)
  | .leaf m, n, n', h, h' => by
    simp only [leafSearchFrom, Option.some.injEq] at h h'
    exact .inl (h.symm.trans h')
  | .inner _ ks cs, n, n', h, h' => by
    simp only [leafSearchFrom] at h h'
    simpa using leafSearchIn_ordered hle ks cs h h'

theorem leafSearchIn_ordered (hle : k ≤ k') : ∀ (ks : List CStr) (cs : List ScreeDBNode)
    {n n' : Nat}, leafSearchIn k ks cs = some n → leafSearchIn k' ks cs = some n' →
      n = n' ∨ List.Sublist [n, n'] (leafIdsIn cs)
  | ks, [], n, _, h, _ => by cases ks <;> simp [leafSearchIn] at h
  | [], c :: cs, n, n', h, h' => by
    simp only [leafSearchIn] at h h'
    exact pair_sublist_cons (leafSearchFrom_ordered hle c h h')
  | key :: ks, c :: cs, n, n', h, h' => by
    simp only [leafSearchIn] at h h'
    -- the first child whose key is at least the searched one: never later for the smaller key
    by_cases hk : strcmp k.bytes key.bytes ≤ 0 <;> by_cases hk' : strcmp k'.bytes key.bytes ≤ 0
    · rw [if_pos hk] at h
      rw [if_pos hk'] at h'
      exact pair_sublist_cons (leafSearchFrom_ordered hle c h h')
    · -- `k` goes to the first child and `k'` to a later one
      rw [if_pos hk] at h
      rw [if_neg hk'] at h'
      refine .inr ?_
      rw [leafIdsIn_cons, show [n, n'] = [n] ++ [n'] from rfl]
      exact (List.singleton_sublist.2 (leafSearchFrom_mem c h)).append
        (List.singleton_sublist.2 (leafSearchIn_mem ks cs h'))
    · exact absurd (strcmp_nonpos_iff.2 (hle.trans (strcmp_nonpos_iff.1 hk'))) hk
    · rw [if_neg hk] at h
      rw [if_neg hk'] at h'
      rw [leafIdsIn_cons]
      exact (leafSearchIn_ordered hle ks cs h h').imp_right
        fun h => h.trans (List.sublist_append_right _ _)

end

end Order

end ScreeDB
