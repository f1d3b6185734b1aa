import Mathlib

/-!
# 32-Bit Arithmetic

Addition and subtraction of unsigned 32-bit integers, a machine integer being its residue
modulo `2 ^ 32`. The lemmas say when the result is that of the unbounded numbers.
-/

namespace Word32

def sub32 (a b : ℕ) : ℕ := (a + 2 ^ 32 - b) % 2 ^ 32

def add32 (a b : ℕ) : ℕ := (a + b) % 2 ^ 32

variable {x y : ℕ}

theorem sub32_mod (hle : y ≤ x) (hlt : x < y + 2 ^ 32) :
    sub32 (x % 2 ^ 32) (y % 2 ^ 32) = x - y := by
  rw [sub32]
  omega

theorem sub32_of_le (hle : y ≤ x) (hx : x < 2 ^ 32) : sub32 x y = x - y := by
  rw [sub32]
  omega

theorem add32_mod (x y : ℕ) : add32 (x % 2 ^ 32) y = (x + y) % 2 ^ 32 := by
  rw [add32]
  omega

theorem add32_of_lt (h : x + y < 2 ^ 32) : add32 x y = x + y := Nat.mod_eq_of_lt h

theorem sub32_sub32 {d : ℕ} (hx : x < 2 ^ 32) (hd : d < 2 ^ 32) : sub32 x (sub32 x d) = d := by
  rw [sub32, sub32]
  omega

end Word32
