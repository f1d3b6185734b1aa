import Mathlib

/-!
# CRC-16/CCITT

`crc16_ccitt` of `lib/crc/crc16_sw.c` updates a 16-bit remainder one byte at a time
without a table: the low octet of `seed ^ byte` is folded into a nibble-shuffled octet
`f`, and three shifted copies of `f` are added to the remainder moved down eight places.
A receiver never compares check bytes. It runs the same update over the data *and* the
complemented check bytes and tests the result against one magic remainder.
-/

namespace TlZephyr

/-- One round of the loop of `crc16_ccitt`. -/
def crc16CcittByte (seed : UInt16) (src : UInt8) : UInt16 :=
  let e : UInt8 := seed.toUInt8 ^^^ src
  let f : UInt8 := e ^^^ (e <<< 4)
  (seed >>> 8) ^^^ (f.toUInt16 <<< 8) ^^^ (f.toUInt16 <<< 3) ^^^ (f.toUInt16 >>> 4)

/-- `crc16_ccitt`: the update run over a byte string. -/
def crc16Ccitt (seed : UInt16) (src : List UInt8) : UInt16 :=
  src.foldl crc16CcittByte seed

variable (seed a s : UInt16) (b : UInt8) (bs : List UInt8)

@[simp] theorem crc16Ccitt_nil : crc16Ccitt seed [] = seed := rfl

@[simp] theorem crc16Ccitt_cons :
    crc16Ccitt seed (b :: bs) = crc16Ccitt (crc16CcittByte seed b) bs := rfl

theorem crc16Ccitt_append (as bs : List UInt8) :
    crc16Ccitt seed (as ++ bs) = crc16Ccitt (crc16Ccitt seed as) bs :=
  List.foldl_append

/-! ### Update as a word of a table -/

/-- What the update adds for the octet `e`, the entry of the table the code does without. -/
def crc16Word (e : UInt8) : UInt16 :=
  let f : UInt8 := e ^^^ (e <<< 4)
  (f.toUInt16 <<< 8) ^^^ (f.toUInt16 <<< 3) ^^^ (f.toUInt16 >>> 4)

theorem crc16CcittByte_eq : crc16CcittByte s b = (s >>> 8) ^^^ crc16Word (s.toUInt8 ^^^ b) := by
  simp only [crc16CcittByte, crc16Word, UInt16.xor_assoc]

private theorem shiftRight8_xor (b : UInt16) : (a ^^^ b) >>> 8 = (a >>> 8) ^^^ (b >>> 8) := by
  apply UInt16.toBitVec_inj.mp
  simp [BitVec.ushiftRight_xor_distrib]

private theorem shiftRight8_twice : (a >>> 8) >>> 8 = 0 := by
  apply UInt16.toNat_inj.mp
  have := a.toNat_lt
  simp only [UInt16.toNat_shiftRight, UInt16.reduceToNat, Nat.reduceMod, Nat.shiftRight_eq_div_pow]
  omega

private theorem index_of_high_f0 : ∀ e : UInt8, crc16Word e >>> 8 = 0xf0 → e = 0x87 := by
  decide +kernel

private theorem index_of_high_0f : ∀ e : UInt8, crc16Word e >>> 8 = 0x0f → e = 0xff := by
  decide +kernel

private theorem xor_eq_iff_left16 (b c : UInt16) : a ^^^ b = c ↔ a = c ^^^ b := by
  constructor <;> rintro rfl <;> simp

private theorem xor_eq_iff_right8 (a b c : UInt8) : a ^^^ b = c ↔ b = a ^^^ c := by
  constructor <;> rintro rfl <;> simp

/-- **The magic remainder.** Two bytes lead from `s` to `0xf0b8` exactly when they are the
complement of `s`, low octet first. -/
theorem crc16CcittByte_residue_iff (lo hi : UInt8) :
    crc16CcittByte (crc16CcittByte s lo) hi = 0xf0b8 ↔
      lo = (s ^^^ 0xffff).toUInt8 ∧ hi = ((s ^^^ 0xffff) >>> 8).toUInt8 := by
  have hidx : crc16CcittByte (crc16CcittByte s lo) hi = 0xf0b8 ↔
      s.toUInt8 ^^^ lo = 0xff ∧ ((s >>> 8) ^^^ 0x0f78).toUInt8 ^^^ hi = 0x87 := by
    rw [crc16CcittByte_eq (crc16CcittByte s lo), crc16CcittByte_eq s lo]
    constructor
    · -- The high octet of the result fixes the second index, what remains the first.
      intro h
      have hhigh := congrArg (fun x : UInt16 => x >>> 8) h
      simp only [shiftRight8_xor _ (crc16Word _), shiftRight8_twice, UInt16.zero_xor] at hhigh
      have e2 := index_of_high_f0 _ (hhigh.trans (by decide))
      rw [e2] at h
      have hlow := (xor_eq_iff_left16 _ _ _).mp h
      rw [shiftRight8_xor, shiftRight8_twice, UInt16.zero_xor] at hlow
      have e1 := index_of_high_0f _ (hlow.trans (by decide))
      rw [e1, show crc16Word 0xff = 0x0f78 by decide] at e2
      exact ⟨e1, e2⟩
    · rintro ⟨h1, h2⟩
      rw [h1, show crc16Word 0xff = 0x0f78 by decide, h2, shiftRight8_xor, shiftRight8_twice]
      decide
  rw [hidx, xor_eq_iff_right8, xor_eq_iff_right8]
  simp only [shiftRight8_xor, UInt16.toUInt8_xor, UInt8.xor_assoc]
  exact Iff.rfl

/-- The two check bytes of a string: its complemented CRC from the seed `0xffff`, low
octet first. -/
def crc16CheckBytes (bs : List UInt8) : List UInt8 :=
  let crc := crc16Ccitt 0xffff bs ^^^ 0xffff
  [crc.toUInt8, (crc >>> 8).toUInt8]

@[simp] theorem length_crc16CheckBytes : (crc16CheckBytes bs).length = 2 := rfl

theorem crc16Ccitt_append_checkBytes : crc16Ccitt 0xffff (bs ++ crc16CheckBytes bs) = 0xf0b8 := by
  rw [crc16Ccitt_append]
  exact (crc16CcittByte_residue_iff _ _ _).mpr ⟨rfl, rfl⟩

/-- **Recognition.** A string leaves the magic remainder exactly when it ends in its check bytes. -/
theorem crc16Ccitt_residue_iff (xs : List UInt8) (h : 2 ≤ xs.length) :
    crc16Ccitt 0xffff xs = 0xf0b8 ↔ ∃ bs, xs = bs ++ crc16CheckBytes bs := by
  constructor
  · intro hres
    obtain ⟨bs, lo, hi, rfl⟩ : ∃ bs lo hi, xs = bs ++ [lo, hi] := by
      refine ⟨xs.take (xs.length - 2), xs[xs.length - 2], xs[xs.length - 1], ?_⟩
      have hdrop : xs.drop (xs.length - 2) = [xs[xs.length - 2], xs[xs.length - 1]] := by
        rw [List.drop_eq_getElem_cons (by omega), List.drop_eq_getElem_cons (by omega),
          List.drop_of_length_le (by omega)]
        simp only [show xs.length - 2 + 1 = xs.length - 1 by omega]
      rw [← hdrop, List.take_append_drop]
    rw [crc16Ccitt_append] at hres
    obtain ⟨rfl, rfl⟩ := (crc16CcittByte_residue_iff _ _ _).mp hres
    exact ⟨bs, rfl⟩
  · rintro ⟨bs, rfl⟩
    exact crc16Ccitt_append_checkBytes bs

end TlZephyr
