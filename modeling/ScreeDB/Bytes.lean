import Mathlib

/-!
# Bytes, C strings and slices (`screedb.cc`, helper and string methods)

Every key and value that ScreeDB stores goes through the C string functions: `strcpy` into a
`ScreeDBString`, `strcmp` against a query, `std::string` built from a `char*`. What those read
of a buffer is its bytes up to the first `0x00`, so the stored strings are `CStr`s: byte lists
without `0x00`, carried as a field so that no other value can be built.

* `Slice`: `rocksdb::Slice`, `size_` bytes at `data_`; `Slice.cstr` is what a C string function
  reads from `data_`, `Slice.ofCStr` is `Slice(const char*)` (size from `strlen`).
* `strcmp`: byte by byte as `unsigned char`; on C strings it is the lexicographic order of
  `CStr` (`strcmp_neg_iff`, `strcmp_eq_zero_iff`), which is a linear order.
* `pearsonHash`: `PearsonHash`, the modified Pearson hash. `data[i]` is a plain `char`, signed
  on the x86-64 target, so the table index `hash ^ data[i]` is computed on `int`s
  (`pearsonIndex`); an index outside the 256 entries reads whatever memory `rodata` holds there.
-/

namespace ScreeDB

/-! ## C strings -/

/-- The contents of a NUL-terminated C string: the bytes before its first `0x00`. -/
structure CStr where
  bytes : List UInt8
  nul_free : ∀ b ∈ bytes, b ≠ 0
  deriving DecidableEq

namespace CStr

/-- The empty C string, as a zeroed buffer reads. -/
def empty : CStr := ⟨[], by simp⟩

instance : Inhabited CStr := ⟨empty⟩

/-- The byte values as `unsigned char`: the order `strcmp` compares in. -/
def codes (s : CStr) : List Nat := s.bytes.map UInt8.toNat

theorem codes_injective : Function.Injective codes := by
  intro a b h
  have hb : a.bytes = b.bytes :=
    List.map_injective_iff.mpr (fun x y hxy => UInt8.toNat_inj.mp hxy) h
  cases a; cases b; cases hb; rfl

/-- C strings ordered as `strcmp` orders them: lexicographically on unsigned bytes. -/
instance : LinearOrder CStr := LinearOrder.lift' codes codes_injective

end CStr

/-- `strcmp` on the two byte sequences it reads: the first differing byte decides, as
`unsigned char`; a string that ends first (its terminator is `0`) is smaller. Only the sign of
the result is specified, and only the sign is used. -/
def strcmp : List UInt8 → List UInt8 → Int
  | [], [] => 0
  | [], b :: _ => -(b.toNat : Int)
  | a :: _, [] => a.toNat
  | a :: as, b :: bs => if a = b then strcmp as bs else (a.toNat : Int) - b.toNat

/-! ## Slices -/

/-- `rocksdb::Slice`: `size_` bytes at `data_`. `data_` is the buffer from the pointer on, as far
as a reader of the slice may go; a slice never claims more bytes than its buffer has. -/
structure Slice where
  data_ : List UInt8
  size_ : Nat
  size_le : size_ ≤ data_.length

/-- What `strcpy`, `strcmp` and `Slice(const char*)` read from `data_`: the bytes before the first
`0x00`. -/
def Slice.cstr (s : Slice) : CStr :=
  ⟨s.data_.takeWhile (· != 0), fun b hb => by simpa using List.mem_takeWhile_imp hb⟩

/-- `strlen`. -/
def strlen (d : List UInt8) : Nat := (d.takeWhile (· != 0)).length

/-- `Slice(const char* d)`: `data_ = d`, `size_ = strlen(d)`. -/
def Slice.ofCharPtr (d : List UInt8) : Slice :=
  ⟨d, strlen d, by simpa [strlen] using List.takeWhile_prefix (· != 0) |>.length_le⟩

/-- `Slice(s)` for a pointer to the C string `s`, terminator included. -/
def Slice.ofCStr (c : CStr) : Slice := Slice.ofCharPtr (c.bytes ++ [0])

/-- The bytes a hash of the slice reads: the first `size_` of the buffer. -/
def Slice.view (s : Slice) : List UInt8 := s.data_.take s.size_

theorem takeWhile_ne_zero_append {l : List UInt8} (h : ∀ b ∈ l, b ≠ 0) :
    (l ++ [0]).takeWhile (· != 0) = l := by
  induction l with
  | nil => rfl
  | cons b l ih =>
    have hb : b ≠ 0 := h b List.mem_cons_self
    simp only [List.cons_append, List.takeWhile_cons, bne_iff_ne, ne_eq, hb, not_false_eq_true,
      if_true, List.cons.injEq, true_and]
    exact ih fun x hx => h x (List.mem_cons_of_mem _ hx)

@[simp] theorem Slice.ofCStr_cstr (c : CStr) : (Slice.ofCStr c).cstr = c := by
  have h := takeWhile_ne_zero_append c.nul_free
  cases c with
  | mk bytes hb => simpa [Slice.cstr, Slice.ofCStr, Slice.ofCharPtr] using h

@[simp] theorem Slice.ofCStr_size (c : CStr) : (Slice.ofCStr c).size_ = c.bytes.length := by
  simp [Slice.ofCStr, Slice.ofCharPtr, strlen, takeWhile_ne_zero_append c.nul_free]

@[simp] theorem Slice.ofCStr_view (c : CStr) : (Slice.ofCStr c).view = c.bytes := by
  simp [Slice.view, Slice.ofCStr, Slice.ofCharPtr, strlen, takeWhile_ne_zero_append c.nul_free]

@[simp] theorem Slice.ofCharPtr_cstr (s : Slice) : (Slice.ofCharPtr s.data_).cstr = s.cstr := rfl

/-! ## `strcmp` on C strings -/

section Strcmp

variable {l₁ l₂ : List UInt8}

theorem strcmp_self (l : List UInt8) : strcmp l l = 0 := by
  induction l with
  | nil => rfl
  | cons a l ih => simp [strcmp, ih]

private theorem toNat_pos_of_mem {b : UInt8} {l : List UInt8} (h : ∀ x ∈ l, x ≠ 0) (hb : b ∈ l) :
    0 < b.toNat := by
  have := h b hb
  rcases Nat.eq_zero_or_pos b.toNat with h0 | h0
  · exact absurd (UInt8.toNat_inj.mp (by simpa using h0)) this
  · exact h0

/-- On byte lists without `0x00`, `strcmp` is negative exactly on lexicographically smaller
codes. -/
theorem strcmp_neg_iff_lex (h₁ : ∀ b ∈ l₁, b ≠ 0) (h₂ : ∀ b ∈ l₂, b ≠ 0) :
    strcmp l₁ l₂ < 0 ↔ List.Lex (· < ·) (l₁.map UInt8.toNat) (l₂.map UInt8.toNat) := by
  induction l₁ generalizing l₂ with
  | nil =>
    cases l₂ with
    | nil => simp [strcmp]
    | cons b l₂ =>
      have hb := toNat_pos_of_mem h₂ List.mem_cons_self
      simp only [strcmp, List.map_nil, List.map_cons, List.nil_lex_cons', iff_true]
      omega
  | cons a l₁ ih =>
    cases l₂ with
    | nil => simp [strcmp]
    | cons b l₂ =>
      simp only [strcmp, List.map_cons, List.cons_lex_cons_iff]
      by_cases hab : a = b
      · subst hab
        simp only [if_true, lt_self_iff_false, true_and, false_or]
        exact ih (fun x hx => h₁ x (List.mem_cons_of_mem _ hx))
          (fun x hx => h₂ x (List.mem_cons_of_mem _ hx))
      · have hne : a.toNat ≠ b.toNat := fun h => hab (UInt8.toNat_inj.mp h)
        simp only [hab, if_false, hne, false_and, or_false]
        omega

/-- On byte lists without `0x00`, `strcmp` is zero exactly on equal lists. -/
theorem strcmp_eq_zero_iff_eq (h₁ : ∀ b ∈ l₁, b ≠ 0) (h₂ : ∀ b ∈ l₂, b ≠ 0) :
    strcmp l₁ l₂ = 0 ↔ l₁ = l₂ := by
  induction l₁ generalizing l₂ with
  | nil =>
    cases l₂ with
    | nil => simp [strcmp]
    | cons b l₂ =>
      have hb := toNat_pos_of_mem h₂ List.mem_cons_self
      simp only [strcmp, reduceCtorEq, iff_false]
      omega
  | cons a l₁ ih =>
    cases l₂ with
    | nil =>
      have ha := toNat_pos_of_mem h₁ List.mem_cons_self
      simp only [strcmp, reduceCtorEq, iff_false]
      omega
    | cons b l₂ =>
      simp only [strcmp, List.cons.injEq]
      by_cases hab : a = b
      · subst hab
        simp only [if_true, true_and]
        exact ih (fun x hx => h₁ x (List.mem_cons_of_mem _ hx))
          (fun x hx => h₂ x (List.mem_cons_of_mem _ hx))
      · have hne : a.toNat ≠ b.toNat := fun h => hab (UInt8.toNat_inj.mp h)
        simp only [hab, if_false, false_and, iff_false]
        omega

variable {a b : CStr}

theorem strcmp_neg_iff : strcmp a.bytes b.bytes < 0 ↔ a < b :=
  strcmp_neg_iff_lex a.nul_free b.nul_free

theorem strcmp_eq_zero_iff : strcmp a.bytes b.bytes = 0 ↔ a = b := by
  rw [strcmp_eq_zero_iff_eq a.nul_free b.nul_free]
  constructor
  · intro h; cases a; cases b; cases h; rfl
  · intro h; rw [h]

theorem strcmp_nonpos_iff : strcmp a.bytes b.bytes ≤ 0 ↔ a ≤ b := by
  rw [@le_iff_lt_or_eq CStr _ a b, ← strcmp_neg_iff, ← strcmp_eq_zero_iff]
  omega

theorem strcmp_pos_iff : 0 < strcmp a.bytes b.bytes ↔ b < a := by
  rw [← @not_le CStr _ a b, ← strcmp_nonpos_iff]
  omega

end Strcmp

/-! ## The Pearson hash -/

/-- `NODE_KEYS`: the slots of a leaf. -/
def NODE_KEYS : Nat := 48

/-- `PEARSON_LOOKUP_TABLE`, from RFC 3074. -/
def PEARSON_LOOKUP_TABLE : List UInt8 :=
  [251, 175, 119, 215, 81, 14, 79, 191, 103, 49, 181, 143, 186, 157, 0, 232, 31, 32, 55, 60,
   152, 58, 17, 237, 174, 70, 160, 144, 220, 90, 57, 223, 59, 3, 18, 140, 111, 166, 203, 196,
   134, 243, 124, 95, 222, 179, 197, 65, 180, 48, 36, 15, 107, 46, 233, 130, 165, 30, 123, 161,
   209, 23, 97, 16, 40, 91, 219, 61, 100, 10, 210, 109, 250, 127, 22, 138, 29, 108, 244, 67,
   207, 9, 178, 204, 74, 98, 126, 249, 167, 116, 34, 77, 193, 200, 121, 5, 20, 113, 71, 35,
   128, 13, 182, 94, 25, 226, 227, 199, 75, 27, 41, 245, 230, 224, 43, 225, 177, 26, 155, 150,
   212, 142, 218, 115, 241, 73, 88, 105, 39, 114, 62, 255, 192, 201, 145, 214, 168, 158, 221,
   148, 154, 122, 12, 84, 82, 163, 44, 139, 228, 236, 205, 242, 217, 11, 187, 146, 159, 64, 86,
   239, 195, 42, 106, 198, 118, 112, 184, 172, 87, 2, 173, 117, 176, 229, 247, 253, 137, 185,
   99, 164, 102, 147, 45, 66, 231, 52, 141, 211, 194, 206, 246, 238, 56, 110, 78, 248, 63, 240,
   189, 93, 92, 51, 53, 183, 19, 171, 72, 50, 33, 104, 101, 69, 8, 252, 83, 120, 76, 135, 85,
   54, 202, 125, 188, 213, 96, 235, 136, 208, 162, 129, 190, 132, 156, 38, 47, 1, 7, 254, 24, 4,
   216, 131, 89, 21, 28, 133, 37, 153, 149, 80, 170, 68, 6, 169, 234, 151]

/-- The table index `hash ^ data[i]`: the `uint8_t` hash and the plain (signed) `char` are
promoted to `int` and xor-ed in two's complement. -/
def pearsonIndex (hash c : UInt8) : Int := Int.xor hash.toNat c.toInt8.toInt

/-- `PEARSON_LOOKUP_TABLE[i]`: inside the table its entry, outside it the byte `rodata i` that the
process image holds at that offset from the table. -/
def tableRead (rodata : Int → UInt8) (i : Int) : UInt8 :=
  if 0 ≤ i ∧ i < 256 then PEARSON_LOOKUP_TABLE.getD i.toNat 0 else rodata i

/-- `PearsonHash(data, size)`: start from `(uint8_t) size`, fold the bytes from the last to the
first through the table, and map a final `0` to `1`. -/
def pearsonHash (rodata : Int → UInt8) (data : List UInt8) (size : Nat) : UInt8 :=
  let hash := (data.take size).foldr (fun c h => tableRead rodata (pearsonIndex h c))
    (UInt8.ofNat size)
  if hash = 0 then 1 else hash

/-- The hash a slot of a key is tagged with, `PearsonHash(key.data_, key.size_)`. -/
def Slice.hash (rodata : Int → UInt8) (s : Slice) : UInt8 := pearsonHash rodata s.data_ s.size_

/-- A hash is never `0`: `0` marks a free slot. -/
theorem pearsonHash_ne_zero (rodata : Int → UInt8) (data : List UInt8) (size : Nat) :
    pearsonHash rodata data size ≠ 0 := by
  dsimp only [pearsonHash]
  split <;> simp_all

/-! ### Where the table index lands -/

/-- A plain `char` read from a byte: the byte itself below `0x80`, else the byte less `256`. -/
theorem toInt8_toInt (c : UInt8) :
    c.toInt8.toInt = if c.toNat < 128 then (c.toNat : Int) else c.toNat - 256 := by
  rw [Int8.toInt, UInt8.toInt8, BitVec.toInt_eq_toNat_cond]
  have hc : ({ toUInt8 := c } : Int8).toBitVec.toNat = c.toNat := rfl
  have := c.toNat_lt
  rw [hc]
  split_ifs <;> omega

/-- The index `hash ^ data[i]` lies in the table exactly when the byte is below `0x80`: a byte
from `0x80` on is a negative `char`, whose sign bits the xor keeps. -/
theorem pearsonIndex_mem_table (hash c : UInt8) :
    (0 ≤ pearsonIndex hash c ∧ pearsonIndex hash c < 256) ↔ c.toNat < 128 := by
  rw [pearsonIndex, toInt8_toInt]
  split_ifs with hc
  · have hx : hash.toNat ^^^ c.toNat < 2 ^ 8 := Nat.xor_lt_two_pow hash.toNat_lt (by omega)
    simp only [hc, iff_true]
    rw [show (c.toNat : Int) = Int.ofNat c.toNat from rfl,
      show (hash.toNat : Int) = Int.ofNat hash.toNat from rfl]
    simp only [Int.xor]
    omega
  · -- the sign-extended byte is `-[n+1]`, and so is its xor with the hash
    obtain ⟨n, hn⟩ : ∃ n, (c.toNat : Int) - 256 = Int.negSucc n :=
      ⟨255 - c.toNat, by have := c.toNat_lt; omega⟩
    rw [hn, show (hash.toNat : Int) = Int.ofNat hash.toNat from rfl]
    simp only [Int.xor, hc, iff_false]
    omega

/-- Over bytes below `0x80` the loop reads only the table, whatever the process image holds. -/
theorem foldr_tableRead_congr (rodata rodata' : Int → UInt8) :
    ∀ (l : List UInt8) (h : UInt8), (∀ c ∈ l, c.toNat < 128) →
      l.foldr (fun c h => tableRead rodata (pearsonIndex h c)) h =
        l.foldr (fun c h => tableRead rodata' (pearsonIndex h c)) h
  | [], _, _ => rfl
  | c :: l, h, hl => by
    rw [List.foldr_cons, List.foldr_cons,
      foldr_tableRead_congr rodata rodata' l h fun c' hc' => hl c' (List.mem_cons_of_mem _ hc')]
    generalize l.foldr (fun c h => tableRead rodata' (pearsonIndex h c)) h = h'
    have hin := (pearsonIndex_mem_table h' c).2 (hl c List.mem_cons_self)
    simp only [tableRead, hin, and_self, if_true]

/-- The hash of bytes below `0x80` depends on the bytes only. -/
theorem pearsonHash_congr {data : List UInt8} {size : Nat}
    (h : ∀ c ∈ data.take size, c.toNat < 128) (rodata rodata' : Int → UInt8) :
    pearsonHash rodata data size = pearsonHash rodata' data size := by
  simp only [pearsonHash, foldr_tableRead_congr rodata rodata' _ _ h]

/-- The one-byte key `0x80` sends the loop to the byte `127` before the table, so its hash is
whatever the process image holds there (mapped from `0` to `1`). -/
theorem pearsonHash_reads_before_table :
    pearsonIndex 1 0x80 = -127 ∧
      pearsonHash (fun _ => 0) [0x80] 1 = 1 ∧ pearsonHash (fun _ => 2) [0x80] 1 = 2 := by
  decide

end ScreeDB
