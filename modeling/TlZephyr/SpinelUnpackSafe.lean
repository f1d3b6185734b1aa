import TlZephyr.SpinelRoundTrip

/-!
# Spinel Unpacking of Hostile Data

`spinel_datatype_vunpack` on data nobody vouches for. The format is any tree of
`SpinelFormat` (of its values only the types matter), the data any byte string, and the
destinations are of the kinds the format asks for, with any sizes and any of them null.

Every read outside the data is `none`, so a run with a result reads only bytes of the data.
`SpinelItem.Within` says what a destination may receive, and `spinelDelivered` lists the packed
integers a run delivers, each with the bytes it was read from.

A packed integer of five bytes has 35 payload bits of which the accumulator keeps 32, and the
range test looks at what is left. That is the one thing that goes wrong.
-/

open LittleEndian

namespace TlZephyr

open List Option

/-! ### Packed integers -/

/-- The base-128 value of a packed integer, without bound. -/
def spinelPackedValue : List UInt8 → ℕ
  | [] => 0
  | b :: bytes => (b &&& 0x7f).toNat + 128 * spinelPackedValue bytes

/-- A packed integer as the decoder accepts it: up to five bytes, and the value cut to 32 bits. -/
structure SpinelDelivery (bytes : List UInt8) (v : ℕ) : Prop where
  length_le : bytes.length ≤ 5
  last : ∀ b ∈ bytes.getLast?, b &&& 0x80 ≠ 0x80
  value : v = spinelPackedValue bytes % 2 ^ 32

theorem and_0x7f_lt (b : UInt8) : (b &&& 0x7f).toNat < 128 := by
  have : (b &&& 0x7f).toNat ≤ (0x7f : UInt8).toNat := by
    rw [UInt8.toNat_and]
    exact Nat.and_le_right
  exact Nat.lt_succ_of_le this

theorem spinelPackedValue_lt (bytes : List UInt8) : spinelPackedValue bytes < 128 ^ bytes.length := by
  induction bytes with
  | nil => simp [spinelPackedValue]
  | cons b bytes ih =>
    have := and_0x7f_lt b
    rw [spinelPackedValue, length_cons, pow_succ]
    omega

private theorem last_byte_value (b : UInt8) (h : b &&& 0x80 ≠ 0x80) : (b &&& 0x7f).toNat = b.toNat := by
  revert b
  decide +kernel

/-- **Exactness of one packed integer**: nothing was cut off iff a fifth byte is below 0x10. -/
theorem SpinelDelivery.exact_iff {bytes : List UInt8} {v : ℕ} (h : SpinelDelivery bytes v) :
    v = spinelPackedValue bytes ↔ bytes.getD 4 0 < 0x10 := by
  have hmod : v = spinelPackedValue bytes ↔ spinelPackedValue bytes < 2 ^ 32 := by
    rw [h.value]
    omega
  rw [hmod]
  by_cases h4 : bytes.length ≤ 4
  · have hlt : spinelPackedValue bytes < 2 ^ 32 :=
      calc spinelPackedValue bytes < 128 ^ bytes.length := spinelPackedValue_lt bytes
        _ ≤ 128 ^ 4 := Nat.pow_le_pow_right (by norm_num) h4
        _ < 2 ^ 32 := by norm_num
    have hget : bytes.getD 4 0 = 0 := by
      rw [getD_eq_getElem?_getD, List.getElem?_eq_none h4]
      rfl
    rw [hget]
    exact iff_of_true hlt (by decide)
  have h5 : bytes.length = 5 := by
    have := h.length_le
    omega
  obtain ⟨a, bytes, rfl⟩ := exists_cons_of_length_eq_add_one h5
  obtain ⟨b, c, d, e, rfl⟩ := length_eq_four.mp (by simpa using h5)
  have he := last_byte_value e (h.last e (by simp))
  have h1 := and_0x7f_lt a
  have h2 := and_0x7f_lt b
  have h3 := and_0x7f_lt c
  have h4 := and_0x7f_lt d
  have hlt : e < 0x10 ↔ e.toNat < 16 := UInt8.lt_iff_toNat_lt
  simp only [spinelPackedValue, he, getD_cons_succ, getD_cons_zero, hlt]
  omega

/-- The decoding loop `i` bits into the result: it refuses, or adds the value, modulo `2 ^ 32`. -/
theorem spinelPackedUintDecodeLoop_spec (bytes : List UInt8) :
    ∀ (len j value ret : ℕ), len ≤ bytes.length → value < 2 ^ (7 * j) →
      (∃ e, spinelPackedUintDecodeLoop bytes len (7 * j) value ret = some (.error e)) ∨
      ∃ k, k + 1 ≤ len ∧ j + k + 1 ≤ 5 ∧ (∀ b ∈ (bytes.take (k + 1)).getLast?, b &&& 0x80 ≠ 0x80) ∧
        spinelPackedUintDecodeLoop bytes len (7 * j) value ret = some (.ok (ret + k + 1,
          (value + spinelPackedValue (bytes.take (k + 1)) * 2 ^ (7 * j)) % 2 ^ 32)) := by
  induction bytes with
  | nil =>
    intro len j value ret hlen _
    left
    refine ⟨-EINVAL, ?_⟩
    rw [spinelPackedUintDecodeLoop.eq_def]
    exact if_pos (Or.inl (by simpa using hlen))
  | cons b bytes ih =>
    intro len j value ret hlen hvalue
    by_cases hguard : len < 1 ∨ 32 ≤ 7 * j
    · left
      refine ⟨-EINVAL, ?_⟩
      rw [spinelPackedUintDecodeLoop.eq_def]
      exact if_pos hguard
    have hor : value ||| (b &&& 0x7f).toNat <<< (7 * j) =
        value + (b &&& 0x7f).toNat * 2 ^ (7 * j) := by
      rw [Nat.or_comm, ← Nat.shiftLeft_add_eq_or_of_lt hvalue, Nat.shiftLeft_eq, Nat.add_comm]
    have hb := and_0x7f_lt b
    have hpow : 2 ^ (7 * (j + 1)) = 128 * 2 ^ (7 * j) := by
      rw [Nat.mul_add, pow_add, Nat.mul_comm]
      norm_num
    by_cases hmore : b &&& 0x80 = 0x80
    · have hstep : spinelPackedUintDecodeLoop (b :: bytes) len (7 * j) value ret =
          spinelPackedUintDecodeLoop bytes (len - 1) (7 * (j + 1))
            ((value + (b &&& 0x7f).toNat * 2 ^ (7 * j)) % 2 ^ 32) (ret + 1) := by
        rw [spinelPackedUintDecodeLoop.eq_def]
        simp only [hguard, if_false, hmore, if_true, hor, Nat.mul_add, Nat.mul_one]
      have hlt : (value + (b &&& 0x7f).toNat * 2 ^ (7 * j)) % 2 ^ 32 < 2 ^ (7 * (j + 1)) := by
        refine lt_of_le_of_lt (Nat.mod_le _ _) ?_
        rw [hpow]
        have := Nat.mul_le_mul_right (2 ^ (7 * j)) (by omega : (b &&& 0x7f).toNat ≤ 127)
        omega
      rw [hstep]
      rw [length_cons] at hlen
      rcases ih (len - 1) (j + 1) _ (ret + 1) (by omega) hlt with herr | ⟨k, hk, hj, hlast, hok⟩
      · exact Or.inl herr
      refine Or.inr ⟨k + 1, by omega, by omega, ?_, ?_⟩
      · have hne : bytes.take (k + 1) ≠ [] := by
          have hpos : bytes ≠ [] := by
            rintro rfl
            simp at hlen
            omega
          simpa using hpos
        rw [take_succ_cons, List.getLast?_cons_of_ne_nil hne]
        exact hlast
      rw [hok, take_succ_cons, spinelPackedValue, hpow]
      refine congrArg (fun x => some (Except.ok x)) (Prod.ext (by simp; omega) ?_)
      simp only [Nat.mod_add_mod]
      congr 1
      ring
    refine Or.inr ⟨0, by omega, by omega, ?_, ?_⟩
    · simpa using hmore
    · rw [spinelPackedUintDecodeLoop.eq_def]
      simp only [hguard, if_false, hmore, hor, take_succ_cons, take_zero,
        spinelPackedValue, Nat.mul_zero, Nat.add_zero]

theorem spinelPackedUintDecode_spec (bytes : List UInt8) {len : ℕ} (hlen : len ≤ bytes.length) :
    (∃ e, spinelPackedUintDecode bytes len = some (.error e)) ∨
      ∃ size v, size ≤ len ∧ SpinelDelivery (bytes.take size) v ∧
        spinelPackedUintDecode bytes len = some (.ok (size, v)) := by
  rcases spinelPackedUintDecodeLoop_spec bytes len 0 0 0 hlen (by norm_num) with
    herr | ⟨k, hk, hj, hlast, hok⟩
  · exact Or.inl herr
  refine Or.inr ⟨k + 1, _, hk, ⟨?_, hlast, rfl⟩, ?_⟩
  · simp only [length_take]
    omega
  · rw [spinelPackedUintDecode]
    simpa using hok

/-! ### Text -/

theorem spinelContBytes_safe (n : ℕ) (string : List UInt8) (h0 : 0 ∈ string) :
    (∃ rest, spinelContBytes n string = some (false, rest)) ∨
      ∃ rest, spinelContBytes n string = some (true, rest) ∧ 0 ∈ rest ∧
        rest.length ≤ string.length := by
  induction n generalizing string with
  | zero => exact Or.inr ⟨string, rfl, h0, le_rfl⟩
  | succ n ih =>
    obtain ⟨b, string, rfl⟩ := exists_cons_of_ne_nil (ne_nil_of_mem h0)
    by_cases hb : b &&& 0xc0 != 0x80
    · exact Or.inl ⟨string, by rw [spinelContBytes, if_pos hb]⟩
    have hne : b ≠ 0 := by
      rintro rfl
      exact hb (by decide)
    have hmem : 0 ∈ string := by simpa [hne.symm] using h0
    rw [spinelContBytes, if_neg hb]
    rcases ih string hmem with hfalse | ⟨rest, hrest, hmem', hlen⟩
    · exact Or.inl hfalse
    · exact Or.inr ⟨rest, hrest, hmem', by rw [length_cons]; omega⟩

theorem spinelValidateUtf8Loop_safe (n : ℕ) (string : List UInt8) (h0 : 0 ∈ string)
    (hn : string.length ≤ n) : ∃ ok, spinelValidateUtf8Loop n string = some ok := by
  induction n generalizing string with
  | zero =>
    have := length_pos_of_mem h0
    omega
  | succ n ih =>
    obtain ⟨b, string, rfl⟩ := exists_cons_of_ne_nil (ne_nil_of_mem h0)
    rw [length_cons] at hn
    rw [spinelValidateUtf8Loop]
    by_cases hb : b = 0
    · exact ⟨true, if_pos hb⟩
    have hmem : 0 ∈ string := by simpa [Ne.symm hb] using h0
    rw [if_neg hb]
    by_cases hascii : b &&& 0x80 = 0
    · rw [if_pos hascii]
      exact ih string hmem (by omega)
    rw [if_neg hascii]
    rcases hlead : spinelLeadBytes b with _ | cont
    · exact ⟨false, rfl⟩
    rcases spinelContBytes_safe cont string hmem with ⟨rest, hc⟩ | ⟨rest, hc, hmem', hlen⟩
    · exact ⟨false, by simp [hc]⟩
    · obtain ⟨ok, hok⟩ := ih rest hmem' (by omega)
      exact ⟨ok, by simp [hc, hok]⟩

theorem spinelValidateUtf8_safe (string : List UInt8) (h0 : 0 ∈ string) :
    ∃ ok, spinelValidateUtf8 string = some ok :=
  spinelValidateUtf8Loop_safe _ string h0 le_rfl

/-! ### Destinations -/

/-- A destination of the kind an item asks for: any sizes, any of the pointers null. -/
inductive SpinelItem.Takes : SpinelItem → SpinelDest → Prop
  | bool (v : Bool) (old : Option ℕ) : Takes (.bool v) (.scalar old)
  | int (ty : SpinelInt) (v : ℤ) (h : ty.InRange v) (old : Option ℕ) :
      Takes (.int ty v h) (.scalar old)
  | uintPacked (v : ℕ) (h : v ≤ spinelMaxUintPacked) (old : Option ℕ) :
      Takes (.uintPacked v h) (.scalar old)
  | block (ty : SpinelBlock) (bytes : List UInt8) (h : bytes.length = ty.size) (present : Bool) :
      Takes (.block ty bytes h) (.block present)
  | utf8 (text : List Char) (h : '\x00' ∉ text) (present : Bool) (size : ℕ) :
      Takes (.utf8 text h) (.string present size)
  | data (wlen : Bool) (bytes : List UInt8) (h : 1 ≤ bytes.length ∧ bytes.length ≤ 65535)
      (present : Bool) (size : Option ℕ) : Takes (.data wlen bytes h) (.data present size)

/-- What a destination may receive: a value of its width, as many bytes as it has room for, or a
pointer into the data. -/
def SpinelItem.Within (data : List UInt8) : SpinelItem → SpinelDest → SpinelStore → Prop
  | _, _, .skipped => True
  | bool _, .scalar (some _), .bool _ => True
  | int ty _ _, .scalar (some _), .uint v => v < 256 ^ ty.size
  | uintPacked _ _, .scalar (some _), .uint v => v < 2 ^ 32
  | block ty _ _, .block true, .copied bytes => bytes.length = ty.size
  | block ty _ _, .block true, .ptr p => p <:+ data ∧ ty.size ≤ p.length
  | utf8 _ _, .string true size, .copied bytes => bytes.length ≤ size
  | utf8 _ _, .string true _, .ptr p => p <:+ data ∧ 0 ∈ p
  | .data _ _ _, .data present size, .dataCopied bytes n =>
    (∀ b ∈ bytes, present = true ∧ ∃ cap ∈ size, b.length ≤ cap) ∧ ∀ k ∈ n, size.isSome ∧ k < 2 ^ 16
  | .data _ _ _, .data present size, .dataPtr p n =>
    (∀ q ∈ p, present = true ∧ q <:+ data ∧ ∀ k ∈ n, k ≤ q.length) ∧
      ∀ k ∈ n, size.isSome ∧ k < 2 ^ 16
  | _, _, _ => False

/-- One turn at an item: it steps over bytes of the data, or fails, and writes to its destination
only. -/
def SpinelItem.StepSafe (data : List UInt8) (i : SpinelItem) (d : SpinelDest) (dataLen : ℕ)
    (more : List SpinelDest) (step : Option SpinelUnpackStep) : Prop :=
  (∃ (size : ℕ) (store : SpinelStore), step = some (.next size size [store] more) ∧
    size ≤ dataLen ∧ i.Within data d store) ∨
  ∃ err stores dests, step = some (.fail err stores dests) ∧ err < 0 ∧
    (stores = [] ∨ ∃ store, stores = [store] ∧ i.Within data d store)

section Items

variable {data dataIn : List UInt8} {dataLen : ℕ}

variable {n : ℕ}

theorem readBytes_of_le (h : n ≤ dataIn.length) : readBytes dataIn n = some (dataIn.take n) :=
  if_pos h

theorem leValue_take_lt (h : n ≤ dataIn.length) : leValue (dataIn.take n) < 256 ^ n := by
  have := leValue_lt (dataIn.take n)
  rwa [length_take, Nat.min_eq_left h] at this

section

variable (hlen : dataLen ≤ dataIn.length)
include hlen

theorem spinelUnpackBool_safe (v : Bool) (old : Option ℕ) (more : List SpinelDest) :
    (SpinelItem.bool v).StepSafe data (.scalar old) dataLen more
      (spinelUnpackBool dataIn dataLen (.scalar old :: more)) := by
  by_cases hshort : dataLen < 1
  · exact Or.inr ⟨_, _, _, if_pos hshort, by decide, Or.inl rfl⟩
  rw [spinelUnpackBool, if_neg hshort]
  cases old with
  | none => exact Or.inl ⟨1, _, rfl, by omega, trivial⟩
  | some old =>
    rw [readBytes_of_le (by omega)]
    exact Or.inl ⟨1, _, rfl, by omega, trivial⟩

theorem spinelUnpackUint_safe (ty : SpinelInt) (v : ℤ)
    (h : ty.InRange v) (old : Option ℕ) (more : List SpinelDest) :
    (SpinelItem.int ty v h).StepSafe data (.scalar old) dataLen more
      (spinelUnpackUint ty.size dataIn dataLen (.scalar old :: more)) := by
  by_cases hshort : dataLen < ty.size
  · exact Or.inr ⟨_, _, _, if_pos hshort, by decide, Or.inl rfl⟩
  rw [spinelUnpackUint, if_neg hshort]
  rcases old with _ | old
  · exact Or.inl ⟨ty.size, _, rfl, by omega, trivial⟩
  have hle : ty.size ≤ dataIn.length := by omega
  rw [readBytes_of_le hle]
  exact Or.inl ⟨ty.size, _, rfl, by omega, leValue_take_lt hle⟩

theorem spinelUnpackBlock_safe (hsuf : dataIn <:+ data)
    (copyBuff : Bool) (ty : SpinelBlock) (bytes : List UInt8) (h : bytes.length = ty.size)
    (present : Bool) (more : List SpinelDest) :
    (SpinelItem.block ty bytes h).StepSafe data (.block present) dataLen more
      (spinelUnpackBlock ty.size copyBuff dataIn dataLen (.block present :: more)) := by
  by_cases hshort : dataLen < ty.size
  · exact Or.inr ⟨_, _, _, if_pos hshort, by decide, Or.inl rfl⟩
  have hle : ty.size ≤ dataIn.length := by omega
  rw [spinelUnpackBlock, if_neg hshort]
  left
  cases present with
  | false => exact ⟨ty.size, _, rfl, by omega, trivial⟩
  | true =>
    cases copyBuff with
    | false => exact ⟨ty.size, _, rfl, by omega, hsuf, hle⟩
    | true =>
      rw [readBytes_of_le hle]
      exact ⟨ty.size, _, rfl, by omega, length_take_of_le hle⟩

theorem spinelUnpackPacked_safe (v : ℕ)
    (h : v ≤ spinelMaxUintPacked) (old : Option ℕ) (more : List SpinelDest) :
    (SpinelItem.uintPacked v h).StepSafe data (.scalar old) dataLen more
      (spinelUnpackPacked dataIn dataLen (.scalar old :: more)) := by
  rcases spinelPackedUintDecode_spec dataIn hlen with ⟨e, herr⟩ | ⟨size, w, hsize, hw, hok⟩
  · right
    by_cases hold : spinelMaxUintPacked < old.getD 0
    · exact ⟨-ERANGE, [.skipped], more, by simp [spinelUnpackPacked, herr, hold], by decide,
        Or.inr ⟨_, rfl, trivial⟩⟩
    · exact ⟨-EINVAL, [.skipped], more, by simp [spinelUnpackPacked, herr, hold], by decide,
        Or.inr ⟨_, rfl, trivial⟩⟩
  have hlt : w < 2 ^ 32 := by
    rw [hw.value]
    exact Nat.mod_lt _ (by norm_num)
  cases old with
  | none =>
    exact Or.inl ⟨size, .skipped, by simp [spinelUnpackPacked, hok, Nat.not_lt.mpr hsize], hsize,
      trivial⟩
  | some old =>
    by_cases hmax : spinelMaxUintPacked < w
    · exact Or.inr ⟨-ERANGE, [.uint w], more, by simp [spinelUnpackPacked, hok, hmax],
        by decide, Or.inr ⟨_, rfl, hlt⟩⟩
    · exact Or.inl ⟨size, .uint w,
        by simp [spinelUnpackPacked, hok, hmax, Nat.not_lt.mpr hsize], hsize, hlt⟩

theorem spinelUnpackUtf8_safe (hsuf : dataIn <:+ data)
    (copyBuff : Bool) (text : List Char) (h : '\x00' ∉ text) (present : Bool) (size : ℕ)
    (more : List SpinelDest) :
    (SpinelItem.utf8 text h).StepSafe data (.string present size) dataLen more
      (spinelUnpackUtf8 copyBuff dataIn dataLen (.string present size :: more)) := by
  rw [spinelUnpackUtf8]
  generalize hn : ((dataIn.take dataLen).takeWhile (· != 0)).length + 1 = len
  by_cases hshort : dataLen < len
  · exact Or.inr ⟨-EOVERFLOW, [], .string present size :: more, by simp [hshort], by decide,
      Or.inl rfl⟩
  -- the scan stopped before the end of the data, so there is a NUL in it
  have h0 : 0 ∈ dataIn := by
    by_contra hno
    have hall : (dataIn.take dataLen).takeWhile (· != 0) = dataIn.take dataLen :=
      takeWhile_eq_self_iff.mpr fun b hb => by
        have : b ≠ 0 := fun hb0 => hno (hb0 ▸ mem_of_mem_take hb)
        simpa using this
    rw [hall, length_take] at hn
    omega
  obtain ⟨ok, hok⟩ := spinelValidateUtf8_safe dataIn h0
  have hle : len ≤ dataIn.length := by omega
  cases ok with
  | false =>
    exact Or.inr ⟨-EINVAL, [], .string present size :: more, by simp [hshort, hok], by decide,
      Or.inl rfl⟩
  | true =>
    cases present with
    | false =>
      exact Or.inl ⟨len, .skipped, by simp [hshort, hok], by omega, trivial⟩
    | true =>
      cases copyBuff with
      | false =>
        exact Or.inl ⟨len, .ptr dataIn, by simp [hshort, hok], by omega, hsuf, h0⟩
      | true =>
        by_cases hroom : size < len
        · exact Or.inr ⟨-EOVERFLOW, [], more, by simp [hshort, hok, hroom], by decide, Or.inl rfl⟩
        · refine Or.inl ⟨len, .copied (dataIn.take len),
            by simp [hshort, hok, hroom, readBytes_of_le hle], by omega, ?_⟩
          have : len ≤ size := by omega
          simpa [SpinelItem.Within, hle] using this

theorem spinelBlockLength_safe (h16 : dataLen ≤ 65535) (wlen : Bool) :
    (∃ e, spinelBlockLength wlen dataIn dataLen = some (.error e) ∧ e < 0) ∨
      ∃ puiLen blockLen, spinelBlockLength wlen dataIn dataLen = some (.ok (puiLen, blockLen)) ∧
        blockLen + puiLen ≤ dataLen ∧ blockLen < 2 ^ 16 ∧ (puiLen = 0 → blockLen = dataLen) := by
  cases wlen with
  | false => exact Or.inr ⟨0, dataLen, rfl, le_rfl, by omega, fun _ => rfl⟩
  | true =>
    by_cases h2 : dataLen < 2
    · exact Or.inl ⟨-EOVERFLOW, by simp [spinelBlockLength, spinelUnpackLength, h2], by decide⟩
    have hread : readBytes dataIn 2 = some (dataIn.take 2) := readBytes_of_le (by omega)
    have hlt : leValue (dataIn.take 2) < 256 ^ 2 := leValue_take_lt (by omega)
    by_cases hfit : dataLen < leValue (dataIn.take 2) + 2
    · exact Or.inl ⟨-EOVERFLOW,
        by simp [spinelBlockLength, spinelUnpackLength, h2, hread, hfit], by decide⟩
    · exact Or.inr ⟨2, leValue (dataIn.take 2),
        by simp [spinelBlockLength, spinelUnpackLength, h2, hread, hfit], by omega,
        by norm_num at hlt ⊢; omega, by omega⟩

theorem spinelUnpackData_safe (h16 : dataLen ≤ 65535)
    (hsuf : dataIn <:+ data) (copyBuff wlen wlen' : Bool) (bytes : List UInt8)
    (h : 1 ≤ bytes.length ∧ bytes.length ≤ 65535) (present : Bool) (size : Option ℕ)
    (more : List SpinelDest) :
    (SpinelItem.data wlen' bytes h).StepSafe data (.data present size) dataLen more
      (spinelUnpackData copyBuff wlen dataIn dataLen (.data present size :: more)) := by
  rcases spinelBlockLength_safe hlen h16 wlen with ⟨e, herr, hneg⟩ | ⟨pui, n, hok, hle, hn, -⟩
  · exact Or.inr ⟨e, [], more, by simp [spinelUnpackData, herr], hneg, Or.inl rfl⟩
  have hread : readBytes (dataIn.drop pui) n = some ((dataIn.drop pui).take n) :=
    readBytes_of_le (by rw [length_drop]; omega)
  have hstored : ∀ k ∈ size.map (fun _ => n), size.isSome ∧ k < 2 ^ 16 := by
    intro k hk
    obtain ⟨c, hc, rfl⟩ := map_eq_some_iff.mp hk
    exact ⟨by rw [hc]; rfl, hn⟩
  cases copyBuff with
  | false =>
    refine Or.inl ⟨n + pui, .dataPtr (if present then some (dataIn.drop pui) else none)
      (size.map fun _ => n), by simp [spinelUnpackData, hok], hle, ?_, hstored⟩
    intro q hq
    cases present with
    | false => simp at hq
    | true =>
      obtain rfl : dataIn.drop pui = q := by simpa using hq
      refine ⟨rfl, (drop_suffix _ _).trans hsuf, fun k hk => ?_⟩
      obtain ⟨c, hc, rfl⟩ := map_eq_some_iff.mp hk
      rw [length_drop]
      omega
  | true =>
    by_cases hboth : present = true ∧ size.isSome
    · obtain ⟨rfl, hsome⟩ := hboth
      obtain ⟨cap, rfl⟩ := isSome_iff_exists.mp hsome
      by_cases hcap : cap < n
      · exact Or.inr ⟨-EOVERFLOW, [], more, by simp [spinelUnpackData, hok, hcap], by decide,
          Or.inl rfl⟩
      refine Or.inl ⟨n + pui, .dataCopied (some ((dataIn.drop pui).take n)) (some n),
        by simp [spinelUnpackData, hok, hcap, hread], hle, ?_, hstored⟩
      intro b hb
      obtain rfl : (dataIn.drop pui).take n = b := by simpa using hb
      refine ⟨rfl, cap, rfl, ?_⟩
      rw [length_take]
      omega
    · have hstep : spinelUnpackData true wlen dataIn dataLen (.data present size :: more) =
          some (.next (n + pui : ℕ) (n + pui) [.dataCopied none (size.map fun _ => n)] more) := by
        cases present <;> cases size <;> simp_all [spinelUnpackData]
      exact Or.inl ⟨n + pui, _, hstep, hle, by simp, hstored⟩

end

end Items

/-! ### Run -/

/-- The packed integer a turn of the loop delivers: the bytes stepped over, and the number. -/
def spinelPackedOf (dataIn : List UInt8) : Option SpinelUnpackStep → List (List UInt8 × ℕ)
  | some (.next _ size [.uint v] _) => [(dataIn.take size, v)]
  | _ => []

/-- The packed integers the body of a struct delivers. -/
def spinelStructDelivers (wlen : Bool) (body : List Char)
    (inner : List UInt8 → ℕ → List Char → List (List UInt8 × ℕ))
    (dataIn : List UInt8) (dataLen : ℕ) : List (List UInt8 × ℕ) :=
  match spinelBlockLength wlen dataIn dataLen with
  | some (.ok (puiLen, blockLen)) => inner (dataIn.drop puiLen) blockLen body
  | _ => []

def spinelItemDelivers (fmt : List Char) (step : Option SpinelUnpackStep)
    (inner : List UInt8 → ℕ → List Char → List (List UInt8 × ℕ))
    (dataIn : List UInt8) (dataLen : ℕ) : List (List UInt8 × ℕ) :=
  match fmt.headD '.' with
  | 'i' => spinelPackedOf dataIn step
  | 't' => spinelStructDelivers true (fmt.drop 2) inner dataIn dataLen
  | 'T' => spinelStructDelivers (spinelFollowed fmt) (fmt.drop 2) inner dataIn dataLen
  | _ => []

/-- The packed integers a run delivers: the bytes of each and the number stored. It walks as
`spinelUnpackLoop` does. -/
def spinelDelivered (copyBuff : Bool) : ℕ → List UInt8 → ℕ → List Char → List SpinelDest →
    List (List UInt8 × ℕ)
  | 0, _, _, _, _ => []
  | _ + 1, _, _, [], _ => []
  | n + 1, dataIn, dataLen, c :: fmt, dests =>
    if c = ')' then []
    else
      let step := spinelUnpackItem copyBuff (c :: fmt)
        (fun dataIn dataLen fmt dests => spinelUnpackLoop copyBuff n 0 dataIn dataLen fmt dests)
        dataIn dataLen dests
      let here := spinelItemDelivers (c :: fmt) step
        (fun dataIn dataLen fmt => spinelDelivered copyBuff n dataIn dataLen fmt dests)
        dataIn dataLen
      match step with
      | some (.next _ size _ dests) =>
        here ++ spinelDelivered copyBuff n (dataIn.drop size) (dataLen - size)
          (spinelNextPackedDatatype (c :: fmt)) dests
      | _ => here

section Turn

variable {copyBuff : Bool} {n : ℕ} {dataIn : List UInt8} {dataLen : ℕ} {c : Char}
  {fmt : List Char} {dests : List SpinelDest}

/-- Nested call of the `switch`. -/
abbrev spinelInner (copyBuff : Bool) (n : ℕ) :
    List UInt8 → ℕ → List Char → List SpinelDest → Option SpinelUnpacked :=
  fun dataIn dataLen fmt dests => spinelUnpackLoop copyBuff n 0 dataIn dataLen fmt dests

variable {stores : List SpinelStore} {ds : List SpinelDest}

theorem spinelTurn_fail (hc : c ≠ ')') {err : ℤ} (ret : ℤ)
    (hstep : spinelUnpackItem copyBuff (c :: fmt) (spinelInner copyBuff n) dataIn dataLen dests =
      some (.fail err stores ds)) :
    spinelUnpackLoop copyBuff (n + 1) ret dataIn dataLen (c :: fmt) dests = some ⟨err, stores, ds⟩ ∧
      spinelDelivered copyBuff (n + 1) dataIn dataLen (c :: fmt) dests =
        spinelItemDelivers (c :: fmt) (some (.fail err stores ds))
          (fun dataIn dataLen fmt => spinelDelivered copyBuff n dataIn dataLen fmt dests)
          dataIn dataLen := by
  simp [spinelUnpackLoop, spinelDelivered, hc, hstep]

theorem spinelTurn_next (hc : c ≠ ')') {delta : ℤ} {size : ℕ}
    {ret : ℤ} {r : SpinelUnpacked} {rest : List Char}
    (hstep : spinelUnpackItem copyBuff (c :: fmt) (spinelInner copyBuff n) dataIn dataLen dests =
      some (.next delta size stores ds))
    (hnext : spinelNextPackedDatatype (c :: fmt) = rest)
    (hr : spinelUnpackLoop copyBuff n (ret + delta) (dataIn.drop size) (dataLen - size) rest ds =
      some r) :
    spinelUnpackLoop copyBuff (n + 1) ret dataIn dataLen (c :: fmt) dests =
        some ⟨r.ret, stores ++ r.stores, r.dests⟩ ∧
      spinelDelivered copyBuff (n + 1) dataIn dataLen (c :: fmt) dests =
        spinelItemDelivers (c :: fmt) (some (.next delta size stores ds))
          (fun dataIn dataLen fmt => spinelDelivered copyBuff n dataIn dataLen fmt dests)
          dataIn dataLen ++
        spinelDelivered copyBuff n (dataIn.drop size) (dataLen - size) rest ds := by
  subst hnext
  simp [spinelUnpackLoop, spinelDelivered, hc, hstep, hr]

end Turn

open SpinelStore (uint)

/-- What a run comes to on any data: an error or a length within the data, destinations within their
bounds, and a number for every packed integer. -/
structure SpinelRunSafe (data : List UInt8) (items : List SpinelItem) (dests more : List SpinelDest)
    (ret : ℤ) (dataLen : ℕ) (delivered : List (List UInt8 × ℕ)) (r : SpinelUnpacked) : Prop where
  ret_bound : r.ret < 0 ∨ ret ≤ r.ret ∧ r.ret ≤ ret + dataLen
  stores : ∃ p, p <+: items.zip dests ∧
    List.Forall₂ (fun q s => SpinelItem.Within data q.1 q.2 s) p r.stores
  complete : 0 ≤ r.ret → r.dests = more ∧
    List.Forall₂ (fun q s => SpinelItem.Within data q.1 q.2 s) (items.zip dests) r.stores
  delivered_stored : (delivered.map fun d => uint d.2).Sublist r.stores
  delivered_spec : ∀ d ∈ delivered, SpinelDelivery d.1 d.2 ∧ d.2 ≤ spinelMaxUintPacked

variable {data dataIn : List UInt8} {dataLen : ℕ} {more : List SpinelDest}

variable {i : SpinelItem} {d : SpinelDest} {items : List SpinelItem} {dests dests' : List
  SpinelDest} {ret : ℤ} {delivered : List (List UInt8 × ℕ)} {stores : List SpinelStore}

theorem spinelUnpackItem_safe
    (hlen : dataLen ≤ dataIn.length) (h16 : dataLen ≤ 65535) (hsuf : dataIn <:+ data)
    (copyBuff : Bool) (hd : i.Takes d) (fmt : List Char)
    (vunpack : List UInt8 → ℕ → List Char → List SpinelDest → Option SpinelUnpacked)
    (more : List SpinelDest) :
    i.StepSafe data d dataLen more
      (spinelUnpackItem copyBuff (i.char :: fmt) vunpack dataIn dataLen (d :: more)) := by
  cases hd with
  | bool v old => exact spinelUnpackBool_safe hlen v old more
  | int ty v h old =>
    have hsafe : (SpinelItem.int ty v h).StepSafe data (.scalar old) dataLen more
        (spinelUnpackUint ty.size dataIn dataLen (.scalar old :: more)) :=
      spinelUnpackUint_safe hlen ty v h old more
    cases ty <;> exact hsafe
  | uintPacked v h old => exact spinelUnpackPacked_safe hlen v h old more
  | block ty bytes h present =>
    have := spinelUnpackBlock_safe hlen hsuf copyBuff ty bytes h present more
    cases ty <;> exact this
  | utf8 text h present size => exact spinelUnpackUtf8_safe hlen hsuf copyBuff text h present size more
  | data wlen bytes h present size =>
    have := fun w => spinelUnpackData_safe hlen h16 hsuf copyBuff w wlen bytes h present size more
    cases wlen
    exacts [this _, this _]

theorem spinelPackedOf_sublist (dataIn : List UInt8) (delta : ℤ) (size : ℕ)
    (stores : List SpinelStore) (dests : List SpinelDest) :
    ((spinelPackedOf dataIn (some (.next delta size stores dests))).map
      fun d => uint d.2).Sublist stores := by
  rw [spinelPackedOf.eq_def]
  split
  · rename_i h
    obtain ⟨-, -, rfl, -⟩ := SpinelUnpackStep.next.inj (Option.some.inj h)
    exact List.Sublist.refl _
  · exact nil_sublist _

theorem spinelPackedOf_fail (dataIn : List UInt8) (err : ℤ) (stores : List SpinelStore)
    (dests : List SpinelDest) : spinelPackedOf dataIn (some (.fail err stores dests)) = [] := rfl

theorem spinelPackedOf_spec (hlen : dataLen ≤ dataIn.length)
    (old : Option ℕ) (more : List SpinelDest) :
    ∀ d ∈ spinelPackedOf dataIn (spinelUnpackPacked dataIn dataLen (.scalar old :: more)),
      SpinelDelivery d.1 d.2 ∧ d.2 ≤ spinelMaxUintPacked := by
  rcases spinelPackedUintDecode_spec dataIn hlen with ⟨e, herr⟩ | ⟨size, w, hsize, hw, hok⟩
  · by_cases hold : spinelMaxUintPacked < old.getD 0 <;>
      simp [spinelUnpackPacked, herr, hold, spinelPackedOf]
  rcases old with _ | old
  · simp [spinelUnpackPacked, hok, Nat.not_lt.mpr hsize, spinelPackedOf]
  by_cases hmax : spinelMaxUintPacked < w
  · simp [spinelUnpackPacked, hok, hmax, spinelPackedOf]
  · simpa [spinelUnpackPacked, hok, hmax, Nat.not_lt.mpr hsize, spinelPackedOf] using
      And.intro hw (Nat.not_lt.mp hmax)

theorem spinelPackedOf_item (hlen : dataLen ≤ dataIn.length)
    (hd : i.Takes d) (hi : i.char = 'i') (copyBuff : Bool)
    (fmt : List Char)
    (vunpack : List UInt8 → ℕ → List Char → List SpinelDest → Option SpinelUnpacked)
    (more : List SpinelDest) :
    ∀ e ∈ spinelPackedOf dataIn
        (spinelUnpackItem copyBuff (i.char :: fmt) vunpack dataIn dataLen (d :: more)),
      SpinelDelivery e.1 e.2 ∧ e.2 ≤ spinelMaxUintPacked := by
  cases hd with
  | uintPacked v h old => exact spinelPackedOf_spec hlen old more
  | int ty => cases ty <;> simp [SpinelItem.char, SpinelInt.char] at hi
  | block ty => cases ty <;> simp [SpinelItem.char, SpinelBlock.char] at hi
  | data wlen => cases wlen <;> simp [SpinelItem.char] at hi
  | _ => simp [SpinelItem.char] at hi

theorem spinelItemDelivers_item (i : SpinelItem) (fmt : List Char) (step : Option SpinelUnpackStep)
    (inner : List UInt8 → ℕ → List Char → List (List UInt8 × ℕ)) (dataIn : List UInt8)
    (dataLen : ℕ) :
    spinelItemDelivers (i.char :: fmt) step inner dataIn dataLen =
      if i.char = 'i' then spinelPackedOf dataIn step else [] := by
  cases i with
  | int ty _ _ => cases ty <;> rfl
  | block ty _ _ => cases ty <;> rfl
  | data wlen _ _ => cases wlen <;> rfl
  | _ => rfl

theorem SpinelRunSafe.of_fail {ds : List SpinelDest} {err : ℤ} (herr : err < 0)
    (hstores : ∃ p, p <+: items.zip dests ∧
      List.Forall₂ (fun q s => SpinelItem.Within data q.1 q.2 s) p stores)
    (hsub : (delivered.map fun d => uint d.2).Sublist stores)
    (hdel : ∀ d ∈ delivered, SpinelDelivery d.1 d.2 ∧ d.2 ≤ spinelMaxUintPacked) :
    SpinelRunSafe data items dests more ret dataLen delivered ⟨err, stores, ds⟩ :=
  ⟨Or.inl herr, hstores, fun h => absurd h (Int.not_le.mpr herr), hsub, hdel⟩

theorem SpinelRunSafe.append (items : List SpinelItem)
    (dests : List SpinelDest) {items' : List SpinelItem} {size : ℕ}
    {here : List (List UInt8 × ℕ)} {r : SpinelUnpacked}
    (hsize : size ≤ dataLen) (hlen : items.length = dests.length)
    (hstores : List.Forall₂ (fun q s => SpinelItem.Within data q.1 q.2 s) (items.zip dests) stores)
    (hsub : (here.map fun d => uint d.2).Sublist stores)
    (hdel : ∀ d ∈ here, SpinelDelivery d.1 d.2 ∧ d.2 ≤ spinelMaxUintPacked)
    (h : SpinelRunSafe data items' dests' more (ret + size) (dataLen - size) delivered r) :
    SpinelRunSafe data (items ++ items') (dests ++ dests') more ret dataLen (here ++ delivered)
      ⟨r.ret, stores ++ r.stores, r.dests⟩ := by
  have hzip : (items ++ items').zip (dests ++ dests') = items.zip dests ++ items'.zip dests' :=
    zip_append hlen
  obtain ⟨p, hp, hfp⟩ := h.stores
  refine ⟨?_, ⟨items.zip dests ++ p, ?_, rel_append hstores hfp⟩, ?_, ?_, ?_⟩
  · rcases h.ret_bound with hneg | ⟨hlo, hhi⟩
    · exact Or.inl hneg
    · refine Or.inr ⟨?_, ?_⟩ <;> dsimp only <;> omega
  · rw [hzip]
    exact prefix_append_right_inj _ |>.mpr hp
  · intro h0
    obtain ⟨hmore, hf⟩ := h.complete h0
    exact ⟨hmore, hzip ▸ rel_append hstores hf⟩
  · rw [map_append]
    exact hsub.append h.delivered_stored
  · intro d hd
    rcases mem_append.mp hd with hd | hd
    exacts [hdel d hd, h.delivered_spec d hd]

/-- A struct whose body is safe on any block steps over bytes of the data, or fails as the body
does. -/
theorem spinelUnpackStruct_safe (hsuf : dataIn <:+ data)
    (hlen : dataLen ≤ dataIn.length) (h16 : dataLen ≤ 65535) (wlen : Bool) {body : List Char}
    (inner : List UInt8 → ℕ → List Char → List SpinelDest → Option SpinelUnpacked)
    (delivers : List UInt8 → ℕ → List Char → List (List UInt8 × ℕ))
    (hinner : ∀ (dataIn : List UInt8) (dataLen : ℕ), dataIn <:+ data → dataLen ≤ dataIn.length →
      dataLen ≤ 65535 → ∃ r, inner dataIn dataLen body dests' = some r ∧
        SpinelRunSafe data items dests more 0 dataLen (delivers dataIn dataLen body) r) :
    let step := spinelUnpackStruct wlen body inner dataIn dataLen dests'
    let here := spinelStructDelivers wlen body delivers dataIn dataLen
    (∀ d ∈ here, SpinelDelivery d.1 d.2 ∧ d.2 ≤ spinelMaxUintPacked) ∧
    ((∃ (size : ℕ) (stores : List SpinelStore), step = some (.next size size stores more) ∧
        size ≤ dataLen ∧ (here.map fun d => uint d.2).Sublist stores ∧
        List.Forall₂ (fun q s => SpinelItem.Within data q.1 q.2 s) (items.zip dests) stores) ∨
      ∃ err stores ds, step = some (.fail err stores ds) ∧ err < 0 ∧
        (here.map fun d => uint d.2).Sublist stores ∧
        ∃ p, p <+: items.zip dests ∧
          List.Forall₂ (fun q s => SpinelItem.Within data q.1 q.2 s) p stores) := by
  intro step here
  rcases spinelBlockLength_safe hlen h16 wlen with ⟨e, herr, hneg⟩ | ⟨pui, blockLen, hok, hle, -, hall⟩
  · have hhere : here = [] := by simp only [here, spinelStructDelivers, herr]
    refine ⟨by simp [hhere], Or.inr ⟨e, [], dests', ?_, hneg, by simp [hhere], [],
      nil_prefix, .nil⟩⟩
    simp only [step, spinelUnpackStruct, herr, bind_eq_bind, bind_some]
  obtain ⟨r, hr, hsafe⟩ := hinner (dataIn.drop pui) blockLen ((drop_suffix _ _).trans hsuf)
    (by rw [length_drop]; omega) (by omega)
  have hhere : here = delivers (dataIn.drop pui) blockLen body := by
    simp only [here, spinelStructDelivers, hok]
  rw [hhere]
  refine ⟨hsafe.delivered_spec, ?_⟩
  rcases lt_or_ge r.ret 0 with hneg | hpos
  · refine Or.inr ⟨r.ret, r.stores, r.dests, ?_, hneg, hsafe.delivered_stored, hsafe.stores⟩
    simp only [step, spinelUnpackStruct, hok, hr, bind_eq_bind, bind_some, if_pos hneg]
  obtain ⟨hmore, hfull⟩ := hsafe.complete hpos
  have hbound : r.ret ≤ blockLen := by
    rcases hsafe.ret_bound with h | h <;> omega
  refine Or.inl ⟨if pui ≠ 0 then blockLen + pui else r.ret.toNat % 2 ^ 16, r.stores, ?_, ?_,
    hsafe.delivered_stored, hfull⟩
  · simp only [step, spinelUnpackStruct, hok, hr, bind_eq_bind, bind_some,
      if_neg (not_lt.mpr hpos), hmore]
  · split
    · exact hle
    · exact (Nat.mod_le _ _).trans (by omega)

theorem spinelItemDelivers_struct (wlen : Bool) (body f : SpinelFormat) (tail : List Char)
    (ht : SpinelStop tail) (step : Option SpinelUnpackStep)
    (inner : List UInt8 → ℕ → List Char → List (List UInt8 × ℕ)) (dataIn : List UInt8)
    (dataLen : ℕ) :
    spinelItemDelivers ((if wlen then 't' else 'T') :: '(' :: (body.render ++ ')' ::
        (f.render ++ tail))) step inner dataIn dataLen =
      spinelStructDelivers (wlen || !f.isNil) (body.render ++ ')' :: (f.render ++ tail)) inner
        dataIn dataLen := by
  have hfol := spinelFollowed_eq _ f tail ht (spinelNextPackedDatatype_struct 'T' body _)
  cases wlen
  · simp [spinelItemDelivers, hfol]
  · simp [spinelItemDelivers]

open SpinelFormat (items render nil struct)

open SpinelRunSafe

/-- **The unpacker is safe on any data**: the loop ends, in bounds. -/
theorem spinelUnpackLoop_safe (copyBuff : Bool) (data : List UInt8) (f : SpinelFormat) :
    ∀ (tail : List Char), SpinelStop tail → ∀ (n : ℕ), (f.render ++ tail).length < n →
      ∀ (ret : ℤ), 0 ≤ ret → ∀ (dataIn : List UInt8) (dataLen : ℕ), dataIn <:+ data →
        dataLen ≤ dataIn.length → dataLen ≤ 65535 → ∀ (dests more : List SpinelDest),
          List.Forall₂ SpinelItem.Takes f.items dests →
          ∃ r, spinelUnpackLoop copyBuff n ret dataIn dataLen (f.render ++ tail) (dests ++ more) =
              some r ∧
            SpinelRunSafe data f.items dests more ret dataLen
              (spinelDelivered copyBuff n dataIn dataLen (f.render ++ tail) (dests ++ more)) r := by
  induction f with
  | nil =>
    intro tail ht n hn ret hret dataIn dataLen hsuf hlen h16 dests more hds
    rcases n with _ | n
    · omega
    obtain rfl : dests = [] := by simpa [items] using hds
    refine ⟨⟨ret, [], more⟩, ?_, ?_⟩
    · rcases ht with rfl | ⟨r, rfl⟩ <;> simp [render, spinelUnpackLoop]
    have hnil : spinelDelivered copyBuff (n + 1) dataIn dataLen
        (nil.render ++ tail) ([] ++ more) = [] := by
      rcases ht with rfl | ⟨r, rfl⟩ <;> simp [render, spinelDelivered]
    rw [hnil]
    exact ⟨Or.inr ⟨le_rfl, le_add_of_nonneg_right (Int.natCast_nonneg _)⟩, ⟨[], nil_prefix, .nil⟩, fun _ => ⟨rfl, .nil⟩,
      List.Sublist.refl _, by simp⟩
  | item i f ih =>
    intro tail ht n hn ret hret dataIn dataLen hsuf hlen h16 dests more hds
    rcases n with _ | n
    · omega
    have hn' : (f.render ++ tail).length < n := by simpa [render] using hn
    obtain ⟨d, ds, hd, hds', rfl⟩ : ∃ d ds, i.Takes d ∧
        List.Forall₂ SpinelItem.Takes f.items ds ∧ dests = d :: ds := by
      cases hds with
      | cons hd hds => exact ⟨_, _, hd, hds, rfl⟩
    have hdel := fun hi => spinelPackedOf_item hlen hd hi copyBuff (f.render ++ tail)
      (spinelInner copyBuff n) (ds ++ more)
    have hhere : ∀ e ∈ (if i.char = 'i' then spinelPackedOf dataIn (spinelUnpackItem copyBuff
        (i.char :: (f.render ++ tail)) (spinelInner copyBuff n) dataIn dataLen
        (d :: (ds ++ more))) else []),
        SpinelDelivery e.1 e.2 ∧ e.2 ≤ spinelMaxUintPacked := by
      intro e he
      by_cases hi : i.char = 'i'
      · exact hdel hi e (by rwa [if_pos hi] at he)
      · simp [if_neg hi] at he
    rcases spinelUnpackItem_safe hlen h16 hsuf copyBuff hd (f.render ++ tail)
      (spinelInner copyBuff n) (ds ++ more) with
      ⟨size, store, hstep, hsize, hwithin⟩ | ⟨err, stores, ds', hstep, herr, hst⟩
    · obtain ⟨r, hr, hsafe⟩ := ih tail ht n hn' (ret + size) (by omega) (dataIn.drop size)
        (dataLen - size) ((drop_suffix _ _).trans hsuf) (by rw [length_drop]; omega)
        (by omega) ds more hds'
      obtain ⟨hloop, hdelivered⟩ := spinelTurn_next i.char_ne.2 hstep
        (spinelNextPackedDatatype_render i.char f tail ht) hr
      rw [hstep] at hhere
      rw [spinelItemDelivers_item] at hdelivered
      refine ⟨_, hloop, ?_⟩
      rw [render, cons_append, cons_append, hdelivered]
      refine append [i] [d] hsize rfl (.cons hwithin .nil) ?_ hhere hsafe
      split
      · exact spinelPackedOf_sublist dataIn size size [store] (ds ++ more)
      · exact nil_sublist _
    obtain ⟨hloop, hdelivered⟩ := spinelTurn_fail i.char_ne.2 ret hstep
    rw [spinelItemDelivers_item, spinelPackedOf_fail, ite_self] at hdelivered
    refine ⟨_, hloop, ?_⟩
    rw [render, cons_append, cons_append, hdelivered]
    refine of_fail herr ?_ (nil_sublist _) (by simp)
    rcases hst with rfl | ⟨store, rfl, hwithin⟩
    · exact ⟨[], nil_prefix, .nil⟩
    · exact ⟨[(i, d)], by simp [items], .cons hwithin .nil⟩
  | void f ih =>
    intro tail ht n hn ret hret dataIn dataLen hsuf hlen h16 dests more hds
    rcases n with _ | n
    · omega
    have hn' : (f.render ++ tail).length < n := by simpa [render] using hn
    obtain ⟨r, hr, hsafe⟩ := ih tail ht n hn' (ret + 0) (by omega) dataIn dataLen hsuf hlen h16
      dests more hds
    have hstep : spinelUnpackItem copyBuff ('.' :: (f.render ++ tail)) (spinelInner copyBuff n)
        dataIn dataLen (dests ++ more) = some (.next 0 0 [] (dests ++ more)) := rfl
    obtain ⟨hloop, hdelivered⟩ := spinelTurn_next (by decide) hstep
      (spinelNextPackedDatatype_render '.' f tail ht) hr
    refine ⟨_, hloop, ?_⟩
    rw [render, cons_append, hdelivered]
    exact append [] [] (Nat.zero_le _) rfl .nil (List.Sublist.refl _)
      (by simp [spinelItemDelivers]) hsafe
  | struct wlen body f ihb ih =>
    intro tail ht n hn ret hret dataIn dataLen hsuf hlen h16 dests more hds
    rcases n with _ | n
    · omega
    simp only [render, cons_append, append_assoc, length_cons, length_append] at hn
    have hne : (if wlen then 't' else 'T') ≠ ')' := by cases wlen <;> decide
    obtain ⟨dsb, dsf, hdsb, hdsf, rfl⟩ : ∃ dsb dsf, List.Forall₂ SpinelItem.Takes body.items dsb ∧
        List.Forall₂ SpinelItem.Takes f.items dsf ∧ dests = dsb ++ dsf := by
      have hb := forall₂_take body.items.length hds
      have hf := forall₂_drop body.items.length hds
      simp only [items, take_left, drop_left] at hb hf
      exact ⟨_, _, hb, hf, (take_append_drop _ _).symm⟩
    have hitem := spinelUnpackItem_struct copyBuff wlen body f tail ht (spinelInner copyBuff n)
      dataIn dataLen (dsb ++ (dsf ++ more))
    obtain ⟨hspec, hturn⟩ := spinelUnpackStruct_safe hsuf hlen h16 (wlen || !f.isNil)
      (spinelInner copyBuff n)
      (fun dataIn dataLen fmt =>
        spinelDelivered copyBuff n dataIn dataLen fmt (dsb ++ (dsf ++ more)))
      (fun dataIn dataLen hsuf hlen h16 => ihb (')' :: (f.render ++ tail)) (.inr ⟨_, rfl⟩) n
        (by simp only [length_append, length_cons]; omega) 0 le_rfl dataIn dataLen
        hsuf hlen h16 dsb (dsf ++ more) hdsb)
    have hrender : (struct wlen body f).render ++ tail =
        (if wlen then 't' else 'T') :: '(' :: (body.render ++ ')' :: (f.render ++ tail)) := by
      simp [render]
    rw [hrender, append_assoc]
    rcases hturn with ⟨size, stores, hstep, hsize, hsub, hfull⟩ |
      ⟨err, stores, ds', hstep, herr, hsub, hpre⟩
    · obtain ⟨r, hr, hsafe⟩ := ih tail ht n (by simp only [length_append]; omega)
        (ret + size) (by omega) (dataIn.drop size) (dataLen - size)
        ((drop_suffix _ _).trans hsuf) (by rw [length_drop]; omega) (by omega) dsf more
        hdsf
      obtain ⟨hloop, hdelivered⟩ := spinelTurn_next hne (hitem.trans hstep)
        (spinelNextPackedDatatype_struct _ body _) hr
      rw [spinelItemDelivers_struct wlen body f tail ht] at hdelivered
      refine ⟨_, hloop, ?_⟩
      rw [hdelivered]
      exact append body.items dsb hsize hdsb.length_eq hfull hsub hspec hsafe
    obtain ⟨hloop, hdelivered⟩ := spinelTurn_fail hne ret (hitem.trans hstep)
    rw [spinelItemDelivers_struct wlen body f tail ht] at hdelivered
    refine ⟨_, hloop, ?_⟩
    rw [hdelivered]
    obtain ⟨p, hp, hfp⟩ := hpre
    refine of_fail herr ⟨p, hp.trans ?_, hfp⟩ hsub hspec
    rw [items, zip_append hdsb.length_eq]
    exact prefix_append _ _

/-! ### Exactness -/

/-- It reads only bytes of the data, returns an error or a length within it, writes within each
destination, and every packed integer is the unbounded value of its bytes, and at most the maximum.
-/
def SpinelUnpackExact (f : SpinelFormat) (data : List UInt8) (copyBuff : Bool)
    (dests : List SpinelDest) : Prop :=
  ∃ r, spinelDatatypeVunpack data data.length copyBuff f.render dests = some r ∧
    (r.ret < 0 ∨ 0 ≤ r.ret ∧ r.ret ≤ data.length) ∧
    (∃ p, p <+: f.items.zip dests ∧
      List.Forall₂ (fun q s => SpinelItem.Within data q.1 q.2 s) p r.stores) ∧
    ∀ d ∈ spinelDelivered copyBuff (f.render.length + 1) data data.length f.render dests,
      uint d.2 ∈ r.stores ∧ d.2 = spinelPackedValue d.1 ∧ d.2 ≤ spinelMaxUintPacked

/-- **Unpacking hostile data.** For every format, data and destinations the unpacker is safe; it is
exact iff no packed integer has a fifth byte of 0x10 or more. -/
theorem spinelDatatypeVunpack_exact_iff (f : SpinelFormat) (data : List UInt8)
    (hdata : data.length ≤ 65535) (copyBuff : Bool) (dests : List SpinelDest)
    (hdests : List.Forall₂ SpinelItem.Takes f.items dests) :
    SpinelUnpackExact f data copyBuff dests ↔
      ∀ d ∈ spinelDelivered copyBuff (f.render.length + 1) data data.length f.render dests,
        d.1.getD 4 0 < 0x10 := by
  obtain ⟨r, hr, hsafe⟩ := spinelUnpackLoop_safe copyBuff data f [] (.inl rfl)
    (f.render.length + 1) (by simp) 0 le_rfl data data.length suffix_rfl le_rfl hdata dests []
    hdests
  simp only [append_nil] at hr hsafe
  constructor
  · rintro ⟨r', -, -, -, hexact⟩ d hd
    exact (hsafe.delivered_spec d hd).1.exact_iff.mp (hexact d hd).2.1
  intro hshort
  refine ⟨r, hr, ?_, hsafe.stores, fun d hd => ?_⟩
  · rcases hsafe.ret_bound with h | h
    exacts [Or.inl h, Or.inr ⟨h.1, by omega⟩]
  · obtain ⟨hdel, hmax⟩ := hsafe.delivered_spec d hd
    exact ⟨hsafe.delivered_stored.subset (List.mem_map_of_mem hd),
      hdel.exact_iff.mpr (hshort d hd), hmax⟩

/-- A packed integer of five bytes that is in range, inside a struct. -/
theorem spinelDatatypeVunpack_exact_in_struct :
    SpinelUnpackExact (.struct true (.item (.uintPacked 0 (by decide)) .nil) .nil)
      [5, 0, 0x81, 0x80, 0x80, 0x80, 0x00] false [.scalar (some 7)] :=
  (spinelDatatypeVunpack_exact_iff _ _ (by decide) _ _
    (.cons (.uintPacked _ _ _) .nil)).mpr (by decide +kernel)

/-- The five bytes 81 80 80 80 10 stand for `2 ^ 32 + 1` and are delivered as 1. -/
theorem spinelDatatypeVunpack_inexact :
    spinelDatatypeVunpack [0x81, 0x80, 0x80, 0x80, 0x10] 5 false ['i'] [.scalar (some 0)] =
        some ⟨5, [.uint 1], []⟩ ∧
      spinelPackedValue [0x81, 0x80, 0x80, 0x80, 0x10] = 2 ^ 32 + 1 ∧
      ¬ SpinelUnpackExact (.item (.uintPacked 0 (by decide)) .nil)
        [0x81, 0x80, 0x80, 0x80, 0x10] false [.scalar (some 0)] := by
  refine ⟨by decide +kernel, by decide +kernel, ?_⟩
  rintro ⟨r, -, -, -, hexact⟩
  have h := (hexact ([0x81, 0x80, 0x80, 0x80, 0x10], 1) (by decide +kernel)).2.1
  exact absurd h (by decide +kernel)

end TlZephyr
