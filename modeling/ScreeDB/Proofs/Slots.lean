import Mathlib.Data.List.FinRange
import Mathlib.Data.List.Nodup
import ScreeDB.Leaf

/-!
# A leaf as a map

A leaf maps the key of each occupied slot (hash `≠ 0`) to the value in the slot. Deleting only
clears the hash, so a free slot keeps the strings it held; every loop must test the hash first.
The leaf part of the invariant (`LeafOK`): no key is held twice, and an occupied slot's hash is
`PearsonHash` of its key (`keyHash`), which is never `0`.

* `matchSlot_eq_some`, `matchSlot_eq_none`: the loop of `Get` and `Delete`, on a leaf whose
  cache is its hashes, finds exactly the slot holding the key;
* `slotScan_snd`, `slotScan_fst`: the loop of `LeafFillSlotForKey` finds the slot holding the key,
  and otherwise the last free slot it passed;
* `fillSlot_maps`, `LeafOK.fillSlot`: writing a key's slot or a free slot for a key the leaf does
  not hold maps the key to the new value and keeps the rest;
* `clearSlot_maps`, `LeafOK.clearSlot`: clearing the hash of a key's slot removes the key;
* `Restrict`: a leaf that keeps some of another's slots and frees the rest maps their keys.

A key given as a slice is read as a C string: when `size_ = strlen(data_)` (`Slice.IsCStr`) its
hash is the hash of that C string (`Slice.IsCStr.hash_eq`).
-/

namespace ScreeDB

/-! ## Hashes of C strings -/

section Hash

variable (rodata : Int → UInt8)

/-- The hash a slot holding the C string `k` is tagged with. -/
def keyHash (k : CStr) : UInt8 := (Slice.ofCStr k).hash rodata

theorem keyHash_ne_zero (k : CStr) : keyHash rodata k ≠ 0 := pearsonHash_ne_zero _ _ _

/-- The hash reads only the bytes of the view. -/
theorem Slice.hash_eq_view (s : Slice) : s.hash rodata = pearsonHash rodata s.view s.size_ := by
  simp [Slice.hash, pearsonHash, Slice.view, List.take_take]

/-- A slice whose size is the length of the C string at `data_`. -/
def Slice.IsCStr (s : Slice) : Prop := s.size_ = strlen s.data_

instance (s : Slice) : Decidable s.IsCStr := inferInstanceAs (Decidable (_ = _))

theorem Slice.IsCStr.view_eq {s : Slice} (h : s.IsCStr) : s.view = s.cstr.bytes := by
  have hp := List.prefix_iff_eq_take.1 (List.takeWhile_prefix (· != (0 : UInt8)) (l := s.data_))
  rw [Slice.view, h, strlen, Slice.cstr]
  exact hp.symm

/-- On a C string slice, `Slice::hash` is the hash of the C string. -/
theorem Slice.IsCStr.hash_eq {s : Slice} (h : s.IsCStr) : s.hash rodata = keyHash rodata s.cstr := by
  have hsize : s.size_ = s.cstr.bytes.length := h
  rw [keyHash, Slice.hash_eq_view, Slice.hash_eq_view, h.view_eq, Slice.ofCStr_view,
    Slice.ofCStr_size, hsize]

@[simp] theorem Slice.ofCStr_isCStr (c : CStr) : (Slice.ofCStr c).IsCStr := by
  simp [Slice.IsCStr, Slice.ofCStr, Slice.ofCharPtr]

end Hash

/-! ## The map of a leaf -/

namespace ScreeDBLeaf

variable (l : ScreeDBLeaf)

/-- Slot `s` is occupied and holds the key `k`. -/
def HoldsAt (s : Slot) (k : CStr) : Prop := l.hashes s ≠ 0 ∧ (l.kv_keys s).data = k

/-- Some slot holds `k`. -/
def Holds (k : CStr) : Prop := ∃ s, l.HoldsAt s k

/-- The leaf maps `k` to `v`. -/
def Maps (k v : CStr) : Prop := ∃ s, l.HoldsAt s k ∧ (l.kv_values s).data = v

/-- No slot is occupied. -/
def Empty : Prop := ∀ s, l.hashes s = 0

instance (s : Slot) (k : CStr) : Decidable (l.HoldsAt s k) := inferInstanceAs (Decidable (_ ∧ _))
instance (k : CStr) : Decidable (l.Holds k) := inferInstanceAs (Decidable (∃ _, _))
instance (k v : CStr) : Decidable (l.Maps k v) := inferInstanceAs (Decidable (∃ _, _))
instance : Decidable l.Empty := inferInstanceAs (Decidable (∀ _, _))

/-- What slot `s` keeps: its hash, key and value. -/
def slotAt (s : Slot) : UInt8 × ScreeDBString × ScreeDBString := (l.hashes s, l.kv_keys s, l.kv_values s)

variable {l}

theorem slotAt_eq_iff {l' : ScreeDBLeaf} {s : Slot} : l.slotAt s = l'.slotAt s ↔
    l.hashes s = l'.hashes s ∧ l.kv_keys s = l'.kv_keys s ∧ l.kv_values s = l'.kv_values s := by
  simp [slotAt]

theorem Maps.holds {k v : CStr} (h : l.Maps k v) : l.Holds k :=
  let ⟨s, hs, _⟩ := h; ⟨s, hs⟩

theorem holds_iff_exists_maps {k : CStr} : l.Holds k ↔ ∃ v, l.Maps k v :=
  ⟨fun ⟨s, hs⟩ => ⟨_, s, hs, rfl⟩, fun ⟨_, h⟩ => h.holds⟩

theorem Empty.not_holdsAt (h : l.Empty) (s : Slot) (k : CStr) : ¬ l.HoldsAt s k :=
  fun hs => hs.1 (h s)

theorem Empty.not_maps (h : l.Empty) (k v : CStr) : ¬ l.Maps k v :=
  fun ⟨s, hs, _⟩ => h.not_holdsAt s k hs

theorem empty_iff_forall_not_holds : l.Empty ↔ ∀ k, ¬ l.Holds k := by
  constructor
  · rintro h k ⟨s, hs⟩
    exact h.not_holdsAt s k hs
  · intro h s
    by_contra hs
    exact h _ ⟨s, hs, rfl⟩

@[simp] theorem zero_empty : ScreeDBLeaf.zero.Empty := fun _ => rfl

@[simp] theorem holdsAt_setNext (n : Option Nat) (s : Slot) (k : CStr) :
    (l.setNext n).HoldsAt s k ↔ l.HoldsAt s k := Iff.rfl

@[simp] theorem maps_setNext (n : Option Nat) (k v : CStr) : (l.setNext n).Maps k v ↔ l.Maps k v :=
  Iff.rfl

@[simp] theorem empty_setNext (n : Option Nat) : (l.setNext n).Empty ↔ l.Empty := Iff.rfl

end ScreeDBLeaf

open ScreeDBLeaf

/-- The leaf part of the invariant: no key in two occupied slots, and each occupied slot tagged
with its key's hash. -/
structure LeafOK (rodata : Int → UInt8) (l : ScreeDBLeaf) : Prop where
  distinct : ∀ s t k, l.HoldsAt s k → l.HoldsAt t k → s = t
  hash : ∀ s, l.hashes s ≠ 0 → l.hashes s = keyHash rodata (l.kv_keys s).data

section LeafMap

variable {rodata : Int → UInt8} {l : ScreeDBLeaf}

/-- A leaf maps each key to one value. -/
theorem LeafOK.maps_unique (hl : LeafOK rodata l) {k v v' : CStr} (h : l.Maps k v)
    (h' : l.Maps k v') : v = v' := by
  obtain ⟨s, hs, rfl⟩ := h
  obtain ⟨t, ht, rfl⟩ := h'
  rw [hl.distinct s t k hs ht]

theorem LeafOK.maps_iff (hl : LeafOK rodata l) {s : Slot} {k : CStr} (hs : l.HoldsAt s k)
    (v : CStr) : l.Maps k v ↔ (l.kv_values s).data = v := by
  constructor
  · rintro ⟨t, ht, rfl⟩
    rw [hl.distinct s t k hs ht]
  · rintro rfl
    exact ⟨s, hs, rfl⟩

/-- The link to the next leaf is not part of the leaf's map. -/
theorem LeafOK.setNext (hl : LeafOK rodata l) (n : Option Nat) : LeafOK rodata (l.setNext n) :=
  ⟨fun s t k hs ht => hl.distinct s t k hs ht, fun s hs => hl.hash s hs⟩

theorem zero_leafOK : LeafOK rodata ScreeDBLeaf.zero :=
  ⟨fun s _ k hs => absurd hs (zero_empty.not_holdsAt s k), fun _ hs => absurd rfl hs⟩

end LeafMap

/-- The slot `LeafFillSlotForKey` may pick for `k`: the one holding `k`, or a free one when no
slot holds `k`. -/
def SlotFor (l : ScreeDBLeaf) (slot : Slot) (k : CStr) : Prop :=
  l.HoldsAt slot k ∨ (l.hashes slot = 0 ∧ ¬ l.Holds k)

/-! ## The slot loops on a leaf whose cache is its hashes -/

section Loops

variable {rodata : Int → UInt8} {l : ScreeDBLeaf} {k : CStr}

theorem mem_slotsDown (s : Slot) : s ∈ slotsDown := by
  simp [slotsDown]

theorem nodup_slotsDown : slotsDown.Nodup := List.nodup_reverse.2 (List.nodup_finRange _)

/-- `LeafFillFirstEmptySlot` finds a slot when the cache has a free one, -/
theorem firstEmptySlot_isSome {cache : Slot → UInt8} {s : Slot} (hs : cache s = 0) :
    ∃ slot, firstEmptySlot cache = some slot :=
  Option.isSome_iff_exists.1 (List.find?_isSome.2 ⟨s, mem_slotsDown s, by simpa using hs⟩)

/-- and the slot it finds is free. -/
theorem firstEmptySlot_free {cache : Slot → UInt8} {slot : Slot}
    (h : firstEmptySlot cache = some slot) : cache slot = 0 := by
  simpa using List.find?_some h

/-- With the hashes as cache, a slot matches a key exactly when it holds it: a free slot's
hash is `0`, never a key's hash, and an occupied slot's hash is its key's. -/
theorem slotMatches_eq (hl : LeafOK rodata l) (s : Slot) :
    slotMatches l.hashes l (keyHash rodata k) k s = decide (l.HoldsAt s k) := by
  rw [slotMatches, Bool.eq_iff_iff, Bool.and_eq_true, beq_iff_eq, beq_iff_eq, decide_eq_true_iff,
    strcmp_eq_zero_iff, HoldsAt]
  by_cases hk : (l.kv_keys s).data = k
  · by_cases h0 : l.hashes s = 0
    · simp [h0, hk, (keyHash_ne_zero rodata k).symm]
    · have hh : l.hashes s = keyHash rodata k := hk ▸ hl.hash s h0
      simp [hk, hh, keyHash_ne_zero]
  · simp [hk]

theorem matchSlot_eq_find (hl : LeafOK rodata l) :
    matchSlot l.hashes l (keyHash rodata k) k = slotsDown.find? (fun s => decide (l.HoldsAt s k)) := by
  unfold matchSlot
  congr 1
  funext s
  exact slotMatches_eq hl s

/-- The loop of `Get` and `Delete` finds the slot holding the key. -/
theorem matchSlot_eq_some (hl : LeafOK rodata l) {s : Slot} :
    matchSlot l.hashes l (keyHash rodata k) k = some s ↔ l.HoldsAt s k := by
  rw [matchSlot_eq_find hl]
  constructor
  · intro h
    simpa using List.find?_some h
  · intro hs
    obtain ⟨t, ht⟩ : ∃ t, slotsDown.find? (fun s => decide (l.HoldsAt s k)) = some t :=
      Option.isSome_iff_exists.1 (List.find?_isSome.2 ⟨s, mem_slotsDown s, by simpa using hs⟩)
    have hkt : l.HoldsAt t k := by simpa using List.find?_some ht
    rw [ht, hl.distinct t s k hkt hs]

/-- and finds none when no slot holds it, even where a free slot still keeps the key. -/
theorem matchSlot_eq_none (hl : LeafOK rodata l) :
    matchSlot l.hashes l (keyHash rodata k) k = none ↔ ¬ l.Holds k := by
  rw [matchSlot_eq_find hl, List.find?_eq_none]
  simp [Holds, mem_slotsDown]

/-- The match half of `LeafFillSlotForKey`'s scan is the search of `Get`. -/
theorem slotScan_snd (hl : LeafOK rodata l) :
    ∀ (ss : List Slot) (e : Option Slot),
      (slotScan l.hashes l (keyHash rodata k) k ss e).2 = ss.find? (fun s => decide (l.HoldsAt s k))
  | [], _ => rfl
  | s :: ss, e => by
    have hm := slotMatches_eq (k := k) hl s
    by_cases h0 : l.hashes s = 0
    · have hs : ¬ l.HoldsAt s k := fun h => h.1 h0
      simp [slotScan, h0, hs, slotScan_snd hl ss]
    · by_cases hs : l.HoldsAt s k
      · simp [slotScan, h0, hs, hm]
      · simp [slotScan, h0, hs, hm, slotScan_snd hl ss]

/-- When the scan finds no match, it passes on the last free slot it saw. -/
theorem slotScan_fst (cache : Slot → UInt8) (leaf : ScreeDBLeaf) (hash : UInt8) (key : CStr) :
    ∀ (ss : List Slot) (e : Option Slot), (slotScan cache leaf hash key ss e).2 = none →
      (slotScan cache leaf hash key ss e).1 = (ss.reverse.find? (cache · = 0)).or e
  | [], _, _ => rfl
  | s :: ss, e, h => by
    by_cases h0 : cache s = 0
    · simp only [slotScan, h0, if_true] at h ⊢
      rw [slotScan_fst cache leaf hash key ss _ h, List.reverse_cons, List.find?_append]
      cases ss.reverse.find? (cache · = 0) <;> simp [h0]
    · by_cases hm : slotMatches cache leaf hash key s
      · simp [slotScan, h0, hm] at h
      · simp only [slotScan, h0, hm, if_false, Bool.false_eq_true] at h ⊢
        rw [slotScan_fst cache leaf hash key ss _ h]
        simp [h0]

/-- The slot `LeafFillSlotForKey` picks, on a leaf whose cache is its hashes: the one holding
the key, else a free one. -/
theorem slotScan_choice_some (hl : LeafOK rodata l) {s : Slot}
    (h : ((slotScan l.hashes l (keyHash rodata k) k slotsDown none).2.or
      (slotScan l.hashes l (keyHash rodata k) k slotsDown none).1) = some s) : SlotFor l s k := by
  cases h2 : (slotScan l.hashes l (keyHash rodata k) k slotsDown none).2 with
  | some s' =>
    rw [h2, Option.some_or, Option.some.injEq] at h
    subst h
    rw [slotScan_snd hl] at h2
    exact .inl (by simpa using List.find?_some h2)
  | none =>
    rw [h2, Option.none_or, slotScan_fst _ _ _ _ _ _ h2, Option.or_none] at h
    have hno : ¬ l.Holds k := by
      rintro ⟨t, ht⟩
      rw [slotScan_snd hl, List.find?_eq_none] at h2
      exact h2 t (mem_slotsDown t) (by simpa using ht)
    exact .inr ⟨by simpa using List.find?_some h, hno⟩

/-- and no slot only when every slot holds another key. -/
theorem slotScan_choice_none (hl : LeafOK rodata l)
    (h : ((slotScan l.hashes l (keyHash rodata k) k slotsDown none).2.or
      (slotScan l.hashes l (keyHash rodata k) k slotsDown none).1) = none) :
    ¬ l.Holds k ∧ ∀ s, l.hashes s ≠ 0 := by
  obtain ⟨h2, h1⟩ := Option.or_eq_none_iff.1 h
  rw [slotScan_fst _ _ _ _ _ _ h2, Option.or_none, List.find?_eq_none] at h1
  rw [slotScan_snd hl, List.find?_eq_none] at h2
  refine ⟨fun ⟨t, ht⟩ => h2 t (mem_slotsDown t) (by simpa using ht), fun s hs => ?_⟩
  exact h1 s (List.mem_reverse.2 (mem_slotsDown s)) (by simpa using hs)

end Loops

/-! ## Writing a slot -/

namespace ScreeDBLeaf

/-- The leaf `LeafFillSpecificSlot` leaves: the key is written only into a free slot (`free`),
then the hash and the value. -/
def fillSlot (l : ScreeDBLeaf) (free : Bool) (slot : Slot) (hash : UInt8) (key value : Slice) :
    ScreeDBLeaf :=
  let l₁ := if free then l.setKey slot ((l.kv_keys slot).set (Slice.ofCharPtr key.data_)) else l
  (l₁.setHash slot hash).setValue slot ((l₁.kv_values slot).set (Slice.ofCharPtr value.data_))

variable (l : ScreeDBLeaf) (free : Bool) (slot t : Slot) (hash : UInt8) (key value : Slice)

@[simp] theorem fillSlot_hashes :
    (l.fillSlot free slot hash key value).hashes t = if t = slot then hash else l.hashes t := by
  unfold fillSlot; split <;> simp

theorem fillSlot_key_data : ((l.fillSlot free slot hash key value).kv_keys t).data =
    if t = slot ∧ free = true then key.cstr else (l.kv_keys t).data := by
  unfold fillSlot
  cases free
  · simp
  · by_cases ht : t = slot <;> simp [ht]

theorem fillSlot_value_data : ((l.fillSlot free slot hash key value).kv_values t).data =
    if t = slot then value.cstr else (l.kv_values t).data := by
  unfold fillSlot
  by_cases ht : t = slot <;> split <;> simp [ht]

@[simp] theorem fillSlot_next : (l.fillSlot free slot hash key value).next = l.next := by
  unfold fillSlot; split <;> simp

theorem fillSlot_slotAt_of_ne (ht : t ≠ slot) :
    (l.fillSlot free slot hash key value).slotAt t = l.slotAt t := by
  unfold fillSlot slotAt; split <;> simp [ht]

end ScreeDBLeaf

section Fill

variable {rodata : Int → UInt8} {l : ScreeDBLeaf} {slot : Slot} {key value : Slice}

theorem SlotFor.key_data (h : SlotFor l slot key.cstr) (hash : UInt8) :
    ((l.fillSlot (l.hashes slot = 0) slot hash key value).kv_keys slot).data = key.cstr := by
  rw [fillSlot_key_data]
  rcases h with h | ⟨h0, -⟩
  · simp [h.1, h.2]
  · simp [h0]

/-- A slot other than the written one holds what it held. -/
theorem fillSlot_holdsAt_of_ne (free : Bool) (hash : UInt8) {t : Slot} (ht : t ≠ slot) (k : CStr) :
    (l.fillSlot free slot hash key value).HoldsAt t k ↔ l.HoldsAt t k := by
  simp [HoldsAt, fillSlot_key_data, ht]

/-- A slot other than the one for `key` does not hold it. -/
theorem SlotFor.not_holdsAt_other (h : SlotFor l slot key.cstr) (hl : LeafOK rodata l) {t : Slot}
    (ht : t ≠ slot) : ¬ l.HoldsAt t key.cstr := by
  intro hk
  rcases h with h | ⟨-, hn⟩
  · exact ht (hl.distinct t slot _ hk h)
  · exact hn ⟨t, hk⟩

theorem SlotFor.holdsAt_fill (h : SlotFor l slot key.cstr) (hash : UInt8) (hh : hash ≠ 0) :
    (l.fillSlot (l.hashes slot = 0) slot hash key value).HoldsAt slot key.cstr :=
  ⟨by simpa using hh, h.key_data hash⟩

/-- After the write the leaf maps `key` to `value`, and every other key as before. -/
theorem fillSlot_maps (h : SlotFor l slot key.cstr) (hl : LeafOK rodata l) (hash : UInt8)
    (hh : hash ≠ 0) (k v : CStr) :
    (l.fillSlot (l.hashes slot = 0) slot hash key value).Maps k v ↔
      if k = key.cstr then v = value.cstr else l.Maps k v := by
  constructor
  · rintro ⟨t, ht, rfl⟩
    by_cases hts : t = slot
    · subst hts
      have hk : k = key.cstr := ht.2.symm.trans (h.key_data hash)
      simp [hk, fillSlot_value_data]
    · have ht' := (fillSlot_holdsAt_of_ne _ hash hts k).1 ht
      have hk : k ≠ key.cstr := by
        rintro rfl
        exact h.not_holdsAt_other hl hts ht'
      simpa [hk, fillSlot_value_data, hts] using ⟨t, ht', rfl⟩
  · split
    · rintro rfl
      rename_i hk
      subst hk
      exact ⟨slot, h.holdsAt_fill hash hh, by simp [fillSlot_value_data]⟩
    · rename_i hk
      rintro ⟨t, ht, rfl⟩
      have hts : t ≠ slot := by
        rintro rfl
        rcases h with h' | ⟨h0, -⟩
        · exact hk (ht.2.symm.trans h'.2)
        · exact ht.1 h0
      exact ⟨t, (fillSlot_holdsAt_of_ne _ hash hts k).2 ht, by simp [fillSlot_value_data, hts]⟩

/-- The write keeps the leaf invariant when it tags the slot with the key's hash. -/
theorem LeafOK.fillSlot (hl : LeafOK rodata l) (h : SlotFor l slot key.cstr) :
    LeafOK rodata (l.fillSlot (l.hashes slot = 0) slot (keyHash rodata key.cstr) key value) := by
  have hh := keyHash_ne_zero rodata key.cstr
  constructor
  · intro s t k hs ht
    -- a key held outside the written slot is not `key`, so two holders are both outside it
    have key_at : ∀ u, (l.fillSlot (l.hashes slot = 0) slot (keyHash rodata key.cstr) key
        value).HoldsAt u k → u ≠ slot → l.HoldsAt u k ∧ k ≠ key.cstr := fun u hu hus => by
      have hu' := (fillSlot_holdsAt_of_ne _ _ hus k).1 hu
      refine ⟨hu', ?_⟩
      rintro rfl
      exact h.not_holdsAt_other hl hus hu'
    by_cases hss : s = slot
    · by_cases hts : t = slot
      · rw [hss, hts]
      · have hk : k = key.cstr := by
          subst hss
          exact hs.2.symm.trans (h.key_data _)
        exact absurd hk (key_at t ht hts).2
    · by_cases hts : t = slot
      · have hk : k = key.cstr := by
          subst hts
          exact ht.2.symm.trans (h.key_data _)
        exact absurd hk (key_at s hs hss).2
      · exact hl.distinct s t k (key_at s hs hss).1 (key_at t ht hts).1
  · intro s hs
    by_cases hss : s = slot
    · subst hss
      simp [h.key_data]
    · have hs' : l.hashes s ≠ 0 := by simpa [hss] using hs
      simpa [hss, fillSlot_key_data] using hl.hash s hs'

end Fill

/-! ## Clearing a slot -/

section Clear

variable {rodata : Int → UInt8} {l : ScreeDBLeaf} {slot : Slot} {key : CStr}

/-- Clearing the hash of the slot holding `key` removes `key` and keeps the rest. -/
theorem clearSlot_maps (hl : LeafOK rodata l) (h : l.HoldsAt slot key) (k v : CStr) :
    (l.setHash slot 0).Maps k v ↔ k ≠ key ∧ l.Maps k v := by
  constructor
  · rintro ⟨t, ⟨ht0, htk⟩, rfl⟩
    have hts : t ≠ slot := by rintro rfl; simp at ht0
    have ht : l.HoldsAt t k := ⟨by simpa [hts] using ht0, by simpa using htk⟩
    refine ⟨?_, t, ht, rfl⟩
    rintro rfl
    exact hts (hl.distinct t slot k ht h)
  · rintro ⟨hk, t, ht, rfl⟩
    have hts : t ≠ slot := by
      rintro rfl
      exact hk (ht.2.symm.trans h.2)
    exact ⟨t, ⟨by simpa [hts] using ht.1, by simpa using ht.2⟩, by simp⟩

/-- A cleared slot holds nothing; the others hold what they held. -/
theorem holdsAt_of_clear {t : Slot} {k : CStr} (h : (l.setHash slot 0).HoldsAt t k) :
    l.HoldsAt t k := by
  by_cases hts : t = slot
  · subst hts; simp [HoldsAt] at h
  · exact ⟨by simpa [hts] using h.1, by simpa using h.2⟩

theorem LeafOK.clearSlot (hl : LeafOK rodata l) (slot : Slot) : LeafOK rodata (l.setHash slot 0) := by
  constructor
  · intro s t k hs ht
    exact hl.distinct s t k (holdsAt_of_clear hs) (holdsAt_of_clear ht)
  · intro s hs
    by_cases hss : s = slot
    · simp [hss] at hs
    · simpa [hss] using hl.hash s (by simpa [hss] using hs)

end Clear

/-! ## Part of a leaf's slots -/

section Restrict

/-- `l'` keeps the slots `P` of `l`, with their hash and the text of their strings, and has every
other slot free. -/
structure Restrict (l l' : ScreeDBLeaf) (P : Slot → Prop) : Prop where
  hash : ∀ s, P s → l'.hashes s = l.hashes s
  key : ∀ s, P s → (l'.kv_keys s).data = (l.kv_keys s).data
  value : ∀ s, P s → (l'.kv_values s).data = (l.kv_values s).data
  free : ∀ s, ¬ P s → l'.hashes s = 0

variable {rodata : Int → UInt8} {l l' : ScreeDBLeaf} {P : Slot → Prop}

theorem Restrict.holdsAt_iff (h : Restrict l l' P) {s : Slot} {k : CStr} :
    l'.HoldsAt s k ↔ P s ∧ l.HoldsAt s k := by
  by_cases hs : P s
  · simp [HoldsAt, hs, h.hash s hs, h.key s hs]
  · simp [HoldsAt, hs, h.free s hs]

theorem Restrict.maps_iff (h : Restrict l l' P) {k x : CStr} :
    l'.Maps k x ↔ ∃ s, P s ∧ l.HoldsAt s k ∧ (l.kv_values s).data = x := by
  constructor
  · rintro ⟨s, hs, rfl⟩
    obtain ⟨hP, hs'⟩ := h.holdsAt_iff.1 hs
    exact ⟨s, hP, hs', (h.value s hP).symm⟩
  · rintro ⟨s, hP, hs, rfl⟩
    exact ⟨s, h.holdsAt_iff.2 ⟨hP, hs⟩, h.value s hP⟩

/-- Part of a well-formed leaf is well-formed. -/
theorem Restrict.leafOK (h : Restrict l l' P) (hl : LeafOK rodata l) : LeafOK rodata l' := by
  constructor
  · intro s t k hs ht
    exact hl.distinct s t k (h.holdsAt_iff.1 hs).2 (h.holdsAt_iff.1 ht).2
  · intro s hs
    have hP : P s := by
      by_contra hP
      exact hs (h.free s hP)
    rw [h.hash s hP, h.key s hP]
    exact hl.hash s (by rwa [← h.hash s hP])

theorem Restrict.not_holds (h : Restrict l l' P) {k : CStr} (hk : ¬ l.Holds k) : ¬ l'.Holds k :=
  fun ⟨s, hs⟩ => hk ⟨s, (h.holdsAt_iff.1 hs).2⟩

variable {Q : CStr → Prop}

/-- Keeping the slots whose keys satisfy `Q` keeps the pairs whose keys do. -/
theorem Restrict.maps_iff_key (h : Restrict l l' fun s => Q (l.kv_keys s).data) {k x : CStr} :
    l'.Maps k x ↔ Q k ∧ l.Maps k x := by
  rw [h.maps_iff]
  constructor
  · rintro ⟨s, hQ, hs, rfl⟩
    exact ⟨hs.2 ▸ hQ, s, hs, rfl⟩
  · rintro ⟨hQ, s, hs, rfl⟩
    exact ⟨s, by rwa [hs.2], hs, rfl⟩

section Side

variable {key : Slice} (value : Slice) {slot : Slot} (h : Restrict l l' fun s => Q (l.kv_keys s).data)
  (hl : LeafOK rodata l) (hkey : ¬ l.Holds key.cstr) (h0 : l'.hashes slot = 0)
include h hl hkey h0

/-- The side of a split that takes the new pair: it is written into a free slot. -/
theorem Restrict.fill_maps (hQ : Q key.cstr) (k x : CStr) :
    (l'.fillSlot true slot (keyHash rodata key.cstr) key value).Maps k x ↔
      Q k ∧ ((k = key.cstr ∧ x = value.cstr) ∨ l.Maps k x) := by
  have hfor : SlotFor l' slot key.cstr := .inr ⟨h0, h.not_holds hkey⟩
  have hfree : decide (l'.hashes slot = 0) = true := decide_eq_true h0
  rw [← hfree, fillSlot_maps hfor (h.leafOK hl) _ (keyHash_ne_zero rodata _), h.maps_iff_key]
  by_cases hk : k = key.cstr
  · subst hk
    have hno : ∀ x, ¬ l.Maps key.cstr x := fun x hm => hkey hm.holds
    simp [hQ, hno]
  · simp [hk]

theorem Restrict.fill_leafOK :
    LeafOK rodata (l'.fillSlot true slot (keyHash rodata key.cstr) key value) := by
  have hfor : SlotFor l' slot key.cstr := .inr ⟨h0, h.not_holds hkey⟩
  have hfree : decide (l'.hashes slot = 0) = true := decide_eq_true h0
  rw [← hfree]
  exact (h.leafOK hl).fillSlot hfor

omit hl hkey h0 in
/-- The side that does not take it. -/
theorem Restrict.keep_maps (hQ : ¬ Q key.cstr) (k x : CStr) :
    l'.Maps k x ↔ Q k ∧ ((k = key.cstr ∧ x = value.cstr) ∨ l.Maps k x) := by
  rw [h.maps_iff_key]
  by_cases hk : k = key.cstr
  · subst hk
    simp [hQ]
  · simp [hk]

omit h0 in
/-- A side of a split, which takes the new pair into a free slot exactly when its keys satisfy
`Q`. -/
theorem Restrict.side_maps {L : ScreeDBLeaf}
    (hfill : Q key.cstr →
      l'.hashes slot = 0 ∧ L = l'.fillSlot true slot (keyHash rodata key.cstr) key value)
    (hkeep : ¬ Q key.cstr → L = l') (k x : CStr) :
    L.Maps k x ↔ Q k ∧ ((k = key.cstr ∧ x = value.cstr) ∨ l.Maps k x) := by
  by_cases hQ : Q key.cstr
  · obtain ⟨h0, hL⟩ := hfill hQ
    rw [hL]
    exact h.fill_maps value hl hkey h0 hQ k x
  · rw [hkeep hQ]
    exact h.keep_maps value hQ k x

omit h0 in
theorem Restrict.side_leafOK {L : ScreeDBLeaf}
    (hfill : Q key.cstr →
      l'.hashes slot = 0 ∧ L = l'.fillSlot true slot (keyHash rodata key.cstr) key value)
    (hkeep : ¬ Q key.cstr → L = l') : LeafOK rodata L := by
  by_cases hQ : Q key.cstr
  · obtain ⟨h0, hL⟩ := hfill hQ
    rw [hL]
    exact h.fill_leafOK value hl hkey h0
  · rw [hkeep hQ]
    exact h.leafOK hl

end Side

end Restrict

end ScreeDB
