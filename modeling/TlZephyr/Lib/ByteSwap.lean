import Mathlib

/-!
# Byte Swaps

The order of the bytes of a 16-, 32- or 64-bit word reversed with shifts and masks. Bit `i`
of the swapped word is bit `swapBit n i` of the word, where `n` is its number of bytes; that
map of bit positions undoes itself, and so does the swap.
-/

namespace ByteSwap

open BitVec (getLsbD_or)

def bswap16 (x : BitVec 16) : BitVec 16 :=
  ((x >>> 8) &&& 0xff#16) ||| ((x &&& 0xff#16) <<< 8)

/-- A 32-bit word with its bytes in reverse order. -/
def bswap32 (x : BitVec 32) : BitVec 32 :=
  ((x >>> 24) &&& 0xff#32) ||| ((x >>> 8) &&& 0xff00#32) |||
    ((x &&& 0xff00#32) <<< 8) ||| ((x &&& 0xff#32) <<< 24)

/-- A 64-bit word with its bytes in reverse order. -/
def bswap64 (x : BitVec 64) : BitVec 64 :=
  ((x >>> 56) &&& 0xff#64) ||| ((x >>> 40) &&& 0xff00#64) ||| ((x >>> 24) &&& 0xff0000#64) |||
    ((x >>> 8) &&& 0xff000000#64) ||| ((x &&& 0xff000000#64) <<< 8) |||
    ((x &&& 0xff0000#64) <<< 24) ||| ((x &&& 0xff00#64) <<< 40) ||| ((x &&& 0xff#64) <<< 56)

/-! ### Bits of one byte -/

theorem getLsbD_byteMask (w j i : ℕ) : (BitVec.ofNat w (2 ^ (8 * j) * 255)).getLsbD i =
    (decide (i < w) && (decide (8 * j ≤ i) && decide (i < 8 * j + 8))) := by
  rw [BitVec.getLsbD_ofNat, Nat.testBit_two_pow_mul, show 255 = 2 ^ 8 - 1 from rfl,
    Nat.testBit_two_pow_sub_one]
  by_cases h : 8 * j ≤ i
  · have : i - 8 * j < 8 ↔ i < 8 * j + 8 := by omega
    simp [h, this]
  · simp [h]

variable {w i n : ℕ}

theorem getLsbD_up (x m : BitVec w) (j s i : ℕ) (hm : m = BitVec.ofNat w (2 ^ (8 * j) * 255)) :
    ((x &&& m) <<< s).getLsbD i =
      (decide (i < w) && decide (8 * j + s ≤ i) && decide (i < 8 * j + 8 + s) &&
        x.getLsbD (i - s)) := by
  rw [hm, BitVec.getLsbD_shiftLeft, BitVec.getLsbD_and, getLsbD_byteMask]
  grind

theorem getLsbD_down (x m : BitVec w) (j s i : ℕ) (hm : m = BitVec.ofNat w (2 ^ (8 * j) * 255)) :
    ((x >>> s) &&& m).getLsbD i =
      (decide (i < w) && decide (8 * j ≤ i) && decide (i < 8 * j + 8) && x.getLsbD (s + i)) := by
  rw [hm, BitVec.getLsbD_and, getLsbD_byteMask, BitVec.getLsbD_ushiftRight]
  grind

/-! ### Bits of a swapped word -/

/-- Where bit `i` of a swapped word of `n` bytes comes from. -/
def swapBit (n i : ℕ) : ℕ := 8 * (n - 1 - i / 8) + i % 8

theorem swapBit_lt (h : i < 8 * n) : swapBit n i < 8 * n := by
  unfold swapBit
  omega

theorem swapBit_swapBit (h : i < 8 * n) : swapBit n (swapBit n i) = i := by
  unfold swapBit
  omega

theorem swapBit_mul_add {q r : ℕ} (hr : r < 8) : swapBit n (8 * q + r) = 8 * (n - 1 - q) + r := by
  unfold swapBit
  omega

theorem swap_swap {f : BitVec (8 * n) → BitVec (8 * n)}
    (hf : ∀ x i, i < 8 * n → (f x).getLsbD i = x.getLsbD (swapBit n i)) (x : BitVec (8 * n)) :
    f (f x) = x := by
  apply BitVec.eq_of_getLsbD_eq
  intro i hi
  rw [hf _ i hi, hf _ _ (swapBit_lt hi), swapBit_swapBit hi]

theorem getLsbD_bswap16 (x : BitVec 16) (i : ℕ) (hi : i < 16) :
    (bswap16 x).getLsbD i = x.getLsbD (swapBit 2 i) := by
  unfold bswap16
  rw [getLsbD_or, getLsbD_down x 0xff#16 0 8 i rfl, getLsbD_up x 0xff#16 0 8 i rfl]
  obtain ⟨q, r, hr, rfl⟩ : ∃ q r, r < 8 ∧ i = 8 * q + r := ⟨i / 8, i % 8, by omega, by omega⟩
  have hq : q < 2 := by omega
  rw [swapBit_mul_add hr]
  interval_cases q <;> grind

theorem getLsbD_bswap32 (x : BitVec 32) (i : ℕ) (hi : i < 32) :
    (bswap32 x).getLsbD i = x.getLsbD (swapBit 4 i) := by
  unfold bswap32
  rw [getLsbD_or, getLsbD_or, getLsbD_or,
    getLsbD_down x 0xff#32 0 24 i rfl, getLsbD_down x 0xff00#32 1 8 i rfl,
    getLsbD_up x 0xff00#32 1 8 i rfl, getLsbD_up x 0xff#32 0 24 i rfl]
  obtain ⟨q, r, hr, rfl⟩ : ∃ q r, r < 8 ∧ i = 8 * q + r := ⟨i / 8, i % 8, by omega, by omega⟩
  have hq : q < 4 := by omega
  rw [swapBit_mul_add hr]
  interval_cases q <;> grind

theorem getLsbD_bswap64 (x : BitVec 64) (i : ℕ) (hi : i < 64) :
    (bswap64 x).getLsbD i = x.getLsbD (swapBit 8 i) := by
  unfold bswap64
  rw [getLsbD_or, getLsbD_or, getLsbD_or, getLsbD_or, getLsbD_or, getLsbD_or, getLsbD_or,
    getLsbD_down x 0xff#64 0 56 i rfl, getLsbD_down x 0xff00#64 1 40 i rfl,
    getLsbD_down x 0xff0000#64 2 24 i rfl, getLsbD_down x 0xff000000#64 3 8 i rfl,
    getLsbD_up x 0xff000000#64 3 8 i rfl, getLsbD_up x 0xff0000#64 2 24 i rfl,
    getLsbD_up x 0xff00#64 1 40 i rfl, getLsbD_up x 0xff#64 0 56 i rfl]
  obtain ⟨q, r, hr, rfl⟩ : ∃ q r, r < 8 ∧ i = 8 * q + r := ⟨i / 8, i % 8, by omega, by omega⟩
  have hq : q < 8 := by omega
  rw [swapBit_mul_add hr]
  interval_cases q <;> grind

/-! ### Swapping twice -/

@[simp] theorem bswap16_bswap16 (x : BitVec 16) : bswap16 (bswap16 x) = x :=
  swap_swap (n := 2) getLsbD_bswap16 x

@[simp] theorem bswap32_bswap32 (x : BitVec 32) : bswap32 (bswap32 x) = x :=
  swap_swap (n := 4) getLsbD_bswap32 x

@[simp] theorem bswap64_bswap64 (x : BitVec 64) : bswap64 (bswap64 x) = x :=
  swap_swap (n := 8) getLsbD_bswap64 x

end ByteSwap
