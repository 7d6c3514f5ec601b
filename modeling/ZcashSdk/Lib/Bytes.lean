import Mathlib

set_option autoImplicit false

/-!
# Byte strings

Numbers as big-endian bytes, a string cut into chunks, and readers that take a given
number of bytes off the front or fail.
-/
namespace ZcashSdk.Bytes

/-! ### Big-endian numbers -/

/-- The `w` low bytes of a number, the highest first. -/
def bigEndian : ℕ → ℕ → List UInt8
  | 0, _ => []
  | w + 1, n => bigEndian w (n / 256) ++ [UInt8.ofNat n]

def ofBigEndian (bs : List UInt8) : ℕ := bs.foldl (fun n b => n * 256 + b.toNat) 0

@[simp] theorem bigEndian_length (w n : ℕ) : (bigEndian w n).length = w := by
  induction w generalizing n with
  | zero => rfl
  | succ w ih => simp [bigEndian, ih]

theorem ofBigEndian_append (bs : List UInt8) (b : UInt8) :
    ofBigEndian (bs ++ [b]) = ofBigEndian bs * 256 + b.toNat := by
  simp [ofBigEndian]

theorem ofBigEndian_bigEndian (w n : ℕ) : ofBigEndian (bigEndian w n) = n % 256 ^ w := by
  induction w generalizing n with
  | zero => simp [bigEndian, ofBigEndian, Nat.mod_one]
  | succ w ih =>
    rw [bigEndian, ofBigEndian_append, ih, UInt8.toNat_ofNat', pow_succ' 256 w, Nat.mod_mul]
    omega

theorem ofBigEndian_bigEndian_of_lt {w n : ℕ} (h : n < 256 ^ w) :
    ofBigEndian (bigEndian w n) = n := by
  rw [ofBigEndian_bigEndian, Nat.mod_eq_of_lt h]

/-! ### Chunks -/

section Chunks
variable {α : Type}

/-- Pieces of `n` elements; the last one may be shorter. -/
def chunks (n : ℕ) (l : List α) : List (List α) :=
  if _h : l = [] ∨ n = 0 then [] else l.take n :: chunks n (l.drop n)
termination_by l.length
decreasing_by
  have := List.length_pos_iff.2 fun hl => _h (Or.inl hl)
  simp only [List.length_drop]
  omega

@[simp] theorem chunks_nil (n : ℕ) : chunks n ([] : List α) = [] := by
  rw [chunks, dif_pos (Or.inl rfl)]

theorem chunks_of_ne_nil {n : ℕ} {l : List α} (hl : l ≠ []) (hn : n ≠ 0) :
    chunks n l = l.take n :: chunks n (l.drop n) := by
  rw [chunks, dif_neg]
  rintro (h | h)
  · exact hl h
  · exact hn h

end Chunks

/-! ### Readers -/

/-- An array of `n` bytes. -/
@[ext] structure FixedBytes (n : ℕ) where
  bytes : List UInt8
  length_eq : bytes.length = n
  deriving DecidableEq

/-- The next `n` bytes and what is left after them. -/
def readExact (n : ℕ) (bs : List UInt8) : Option (FixedBytes n × List UInt8) :=
  if h : n ≤ bs.length then some (⟨bs.take n, List.length_take_of_le h⟩, bs.drop n) else none

theorem readExact_append {n : ℕ} (v : FixedBytes n) (rest : List UInt8) :
    readExact n (v.bytes ++ rest) = some (v, rest) := by
  have hle : n ≤ (v.bytes ++ rest).length := by
    rw [List.length_append, v.length_eq]
    exact Nat.le_add_right n _
  rw [readExact, dif_pos hle, Option.some.injEq, Prod.mk.injEq]
  exact ⟨FixedBytes.ext (List.take_left' v.length_eq), List.drop_left' v.length_eq⟩

theorem readExact_eq_some {n : ℕ} {bs rest : List UInt8} {v : FixedBytes n} :
    readExact n bs = some (v, rest) ↔ bs = v.bytes ++ rest := by
  constructor
  · intro h
    unfold readExact at h
    split at h
    · rw [Option.some.injEq, Prod.mk.injEq] at h
      rw [← h.1, ← h.2, List.take_append_drop]
    · cases h
  · rintro rfl
    exact readExact_append v rest

end ZcashSdk.Bytes
