import TlZephyr.Errno

/-!
# Bit Arrays

`lib/utils/bitarray.c`: bits in bundles of 32, and operations on regions of them that work on whole
bundles, with masks for the first and the last one.
-/

namespace TlZephyr

open Function

/-- `sys_bitarray_t`. -/
structure Bitarray where
  numBits : ℕ
  bundles : ℕ → BitVec 32

namespace Bitarray

/-- `SYS_BITARRAY_DEFINE`. -/
def define (totalBits : ℕ) : Bitarray := ⟨totalBits, fun _ => 0⟩

variable (ba : Bitarray)

def numBundles : ℕ := (ba.numBits + 31) / 32

def bit (i : ℕ) : Bool := (ba.bundles (i / 32)).getLsbD (i % 32)

def setBits : ℕ := ((Finset.range (ba.numBundles * 32)).filter (ba.bit ·)).card

theorem ext_bit {ba ba' : Bitarray} (hnum : ba.numBits = ba'.numBits)
    (hbit : ∀ i, ba.bit i = ba'.bit i) : ba = ba' := by
  have hbundles : ba.bundles = ba'.bundles := by
    funext k
    refine BitVec.eq_of_getLsbD_eq fun j hj => ?_
    have h := hbit (j + k * 32)
    rwa [bit, bit, show (j + k * 32) / 32 = k by omega, show (j + k * 32) % 32 = j by omega] at h
  cases ba
  cases ba'
  cases hnum
  cases hbundles
  rfl

/-! ### Regions -/

/-- `struct bundle_data`. -/
structure BundleData where
  sidx : ℕ
  eidx : ℕ
  soff : ℕ
  eoff : ℕ
  smask : BitVec 32
  emask : BitVec 32

/-- `BIT`. -/
def bitMask (n : ℕ) : BitVec 32 := 1#32 <<< n

def setupBundleData (offset numBits : ℕ) : BundleData :=
  let sidx := offset / 32
  let soff := offset % 32
  let eidx := (offset + numBits - 1) / 32
  let eoff := (offset + numBits - 1) % 32
  let smask := ~~~(bitMask soff - 1)
  let emask := (bitMask eoff - 1) ||| bitMask eoff
  ⟨sidx, eidx, soff, eoff, if sidx = eidx then smask &&& emask else smask, emask⟩

/-- `find_lsb_set`: the position of the lowest bit set, from 1, or 0. -/
def findLsbSet (op : BitVec 32) : ℕ :=
  match (List.range 32).find? fun i => op.getLsbD i with
  | some i => i + 1
  | none => 0

/-- The bundle, inverted if the match is for clear bits. -/
def matchBundle (matchSet : Bool) (idx : ℕ) : BitVec 32 :=
  if matchSet then ba.bundles idx else ~~~ba.bundles idx

def mismatchBit (bundle : BitVec 32) (idx : ℕ) : ℕ := findLsbSet bundle - 1 + idx * 32

def mismatchBundle (matchSet : Bool) (idx : ℕ) : BitVec 32 :=
  if matchSet then ~~~ba.bundles idx else ba.bundles idx

/-- Bundles between the first and the last one. -/
def matchBetween (ba : Bitarray) (matchSet : Bool) : ℕ → ℕ → Option ℕ
  | 0, _ => none
  | n + 1, idx =>
    if mismatchBundle ba matchSet idx ≠ 0 then
      some (mismatchBit (mismatchBundle ba matchSet idx) idx)
    else
      matchBetween ba matchSet n (idx + 1)

/-- `match_region`: the offset of a bit that does not match, or none. -/
def matchRegion (offset numBits : ℕ) (matchSet : Bool) : Option ℕ :=
  let bd := setupBundleData offset numBits
  let sbundle := matchBundle ba matchSet bd.sidx
  let ebundle := matchBundle ba matchSet bd.eidx
  if sbundle &&& bd.smask ≠ bd.smask then
    some (mismatchBit (~~~sbundle &&& bd.smask) bd.sidx)
  else if bd.sidx = bd.eidx then
    none
  else if ebundle &&& bd.emask ≠ bd.emask then
    some (mismatchBit (~~~ebundle &&& bd.emask) bd.eidx)
  else
    matchBetween ba matchSet (bd.eidx - (bd.sidx + 1)) (bd.sidx + 1)

/-- Stores to the bundles between the first and the last one. -/
def fillBetween (value : BitVec 32) : (ℕ → BitVec 32) → ℕ → ℕ → ℕ → BitVec 32
  | bundles, 0, _ => bundles
  | bundles, n + 1, idx => fillBetween value (Function.update bundles idx value) n (idx + 1)

/-- A bundle with the bits of the mask set or cleared. -/
def maskBundle (toSet : Bool) (mask bundle : BitVec 32) : BitVec 32 :=
  if toSet then bundle ||| mask else bundle &&& ~~~mask

def setRegion (offset numBits : ℕ) (toSet : Bool) : Bitarray :=
  let bd := setupBundleData offset numBits
  let first := Function.update ba.bundles bd.sidx (maskBundle toSet bd.smask (ba.bundles bd.sidx))
  if bd.sidx = bd.eidx then
    { ba with bundles := first }
  else
    let last := Function.update first bd.eidx (maskBundle toSet bd.emask (first bd.eidx))
    { ba with
      bundles := fillBetween (if toSet then ~~~0 else 0) last (bd.eidx - (bd.sidx + 1))
        (bd.sidx + 1) }

/-! ### Operations -/

/-- Bundle the search starts in: the first that is not full. -/
def firstFree (ba : Bitarray) : ℕ → ℕ → ℕ → ℕ
  | 0, _, bitIdx => bitIdx
  | n + 1, idx, bitIdx =>
    if ~~~ba.bundles idx = 0 then firstFree ba n (idx + 1) (bitIdx + 32)
    else if ba.bundles idx ≠ 0 then bitIdx + (findLsbSet (~~~ba.bundles idx) - 1)
    else bitIdx

def allocLoop (ba : Bitarray) (numBits offEnd : ℕ) : ℕ → ℕ → Option (ℤ × Bitarray × ℕ)
  | 0, _ => none
  | fuel + 1, bitIdx =>
    if bitIdx ≤ offEnd then
      match matchRegion ba bitIdx numBits false with
      | none => some (0, setRegion ba bitIdx numBits true, bitIdx)
      | some mismatch => allocLoop ba numBits offEnd fuel (mismatch + 1)
    else
      some (-ENOSPC, ba, 0)

/-- `sys_bitarray_alloc`: the result, the array and the offset. A round for every bit is enough. -/
def alloc (numBits : ℕ) : Option (ℤ × Bitarray × ℕ) :=
  if numBits = 0 ∨ numBits > ba.numBits then
    some (-EINVAL, ba, 0)
  else
    allocLoop ba numBits (ba.numBits - numBits) (ba.numBits + 1) (firstFree ba ba.numBundles 0 0)

/-- Check of a region at the start of the other operations, with `size_t` of 32 bits. -/
def badRegion (numBits offset : ℕ) : Prop :=
  numBits = 0 ∨ numBits > ba.numBits ∨ offset ≥ ba.numBits ∨
    (offset + numBits + (2 ^ 32 - 1)) % 2 ^ 32 ≥ ba.numBits

instance (ba : Bitarray) (numBits offset : ℕ) : Decidable (badRegion ba numBits offset) :=
  inferInstanceAs (Decidable (_ ∨ _))

/-- `sys_bitarray_free`. -/
def free (numBits offset : ℕ) : ℤ × Bitarray :=
  if badRegion ba numBits offset then
    (-EINVAL, ba)
  else
    match matchRegion ba offset numBits true with
    | none => (0, setRegion ba offset numBits false)
    | some _ => (-EFAULT, ba)

/-- `sys_bitarray_test_and_set_region`. -/
def testAndSetRegion (numBits offset : ℕ) (toSet : Bool) : ℤ × Bitarray :=
  if badRegion ba numBits offset then
    (-EINVAL, ba)
  else
    match matchRegion ba offset numBits (!toSet) with
    | none => (0, setRegion ba offset numBits toSet)
    | some _ => (-EEXIST, ba)

/-! ### Masks -/

variable {j : ℕ}

theorem getLsbD_startMask {s : ℕ} (hs : s < 32) (hj : j < 32) :
    (~~~(bitMask s - 1)).getLsbD j = decide (s ≤ j) := by
  have h : ∀ s j : Fin 32, (~~~(bitMask s - 1)).getLsbD j = decide (s.val ≤ j.val) := by
    decide +kernel
  exact h ⟨s, hs⟩ ⟨j, hj⟩

theorem getLsbD_endMask {e : ℕ} (he : e < 32) (hj : j < 32) :
    ((bitMask e - 1) ||| bitMask e).getLsbD j = decide (j ≤ e) := by
  have h : ∀ e j : Fin 32, ((bitMask e - 1) ||| bitMask e).getLsbD j = decide (j.val ≤ e.val) := by
    decide +kernel
  exact h ⟨e, he⟩ ⟨j, hj⟩

theorem findLsbSet_spec {op : BitVec 32} (h : op ≠ 0) :
    findLsbSet op - 1 < 32 ∧ op.getLsbD (findLsbSet op - 1) = true ∧
      ∀ j < findLsbSet op - 1, op.getLsbD j = false := by
  rw [findLsbSet]
  cases hfind : (List.range 32).find? fun i => op.getLsbD i with
  | none =>
    exfalso
    apply h
    rw [List.find?_range_eq_none] at hfind
    refine BitVec.eq_of_getLsbD_eq fun i hi => ?_
    simpa using hfind i hi
  | some i =>
    obtain ⟨hbit, hmem⟩ := List.find?_range_eq_some.mp hfind
    refine ⟨by simpa using hmem.1, hbit, fun j hj => ?_⟩
    simpa using hmem.2 j hj

theorem mem_region_iff {offset n i : ℕ} (hn : 0 < n) :
    offset ≤ i ∧ i < offset + n ↔ offset / 32 ≤ i / 32 ∧ i / 32 ≤ (offset + n - 1) / 32 ∧
      (i / 32 = offset / 32 → offset % 32 ≤ i % 32) ∧
      (i / 32 = (offset + n - 1) / 32 → i % 32 ≤ (offset + n - 1) % 32) := by
  omega

section masks

variable {offset n j : ℕ}

theorem getLsbD_smask (hj : j < 32) : (setupBundleData offset n).smask.getLsbD j =
    decide (offset % 32 ≤ j ∧ (offset / 32 = (offset + n - 1) / 32 → j ≤ (offset + n - 1) % 32)) := by
  have hs := getLsbD_startMask (s := offset % 32) (by omega) hj
  have he := getLsbD_endMask (e := (offset + n - 1) % 32) (by omega) hj
  simp only [setupBundleData]
  split_ifs with h
  · rw [BitVec.getLsbD_and, hs, he]
    simp [h]
  · rw [hs]
    simp [h]

theorem getLsbD_emask (hj : j < 32) : (setupBundleData offset n).emask.getLsbD j =
    decide (j ≤ (offset + n - 1) % 32) :=
  getLsbD_endMask (by omega) hj

end masks

/-! ### Matching -/

section matching

variable {ba : Bitarray} {set : Bool} {idx j : ℕ} {mask : BitVec 32}

theorem getLsbD_matchBundle (hj : j < 32) :
    (matchBundle ba set idx).getLsbD j = ((ba.bundles idx).getLsbD j == set) := by
  rw [matchBundle]
  cases set with
  | true => simp
  | false => simp [hj]

theorem getLsbD_mismatchBundle (hj : j < 32) :
    (mismatchBundle ba set idx).getLsbD j = ((ba.bundles idx).getLsbD j != set) := by
  rw [mismatchBundle]
  cases set with
  | true => simp [hj]
  | false => simp

theorem and_mask_eq_iff : matchBundle ba set idx &&& mask = mask ↔
    ∀ j < 32, mask.getLsbD j = true → (ba.bundles idx).getLsbD j = set := by
  constructor
  · intro h j hj hmask
    have hbit := congrArg (BitVec.getLsbD · j) h
    simpa [getLsbD_matchBundle hj, hmask] using hbit
  intro h
  refine BitVec.eq_of_getLsbD_eq fun j hj => ?_
  rw [BitVec.getLsbD_and, getLsbD_matchBundle hj]
  cases hmask : mask.getLsbD j with
  | false => exact Bool.and_false _
  | true => simp [h j hj hmask]

theorem mismatchBit_spec (h : matchBundle ba set idx &&& mask ≠ mask) :
    ∃ j < 32, mismatchBit (~~~matchBundle ba set idx &&& mask) idx = j + idx * 32 ∧
      mask.getLsbD j = true ∧ (ba.bundles idx).getLsbD j ≠ set := by
  have hne : ~~~matchBundle ba set idx &&& mask ≠ 0 := by
    intro hzero
    refine h (and_mask_eq_iff.mpr fun j hj hmask => ?_)
    have hbit : (~~~matchBundle ba set idx &&& mask).getLsbD j = false := by
      rw [hzero]
      simp
    rw [BitVec.getLsbD_and, BitVec.getLsbD_not, getLsbD_matchBundle hj, hmask] at hbit
    simpa [hj] using hbit
  obtain ⟨hlt, hbit, -⟩ := findLsbSet_spec hne
  refine ⟨_, hlt, rfl, ?_⟩
  rw [BitVec.getLsbD_and, BitVec.getLsbD_not, getLsbD_matchBundle hlt] at hbit
  simpa [hlt, and_comm] using hbit

theorem bit_mul_add {k : ℕ} (hj : j < 32) : ba.bit (j + k * 32) = (ba.bundles k).getLsbD j := by
  rw [bit, show (j + k * 32) / 32 = k by omega, show (j + k * 32) % 32 = j by omega]

variable {n p : ℕ}

theorem matchBetween_eq_none (h : matchBetween ba set n idx = none) :
    ∀ k, idx ≤ k → k < idx + n → ∀ j < 32, (ba.bundles k).getLsbD j = set := by
  induction n generalizing idx with
  | zero =>
    intro k hle hlt
    omega
  | succ n ih =>
    rw [matchBetween] at h
    split_ifs at h with hne
    intro k hle hlt j hj
    rcases Nat.eq_or_lt_of_le hle with rfl | hlt'
    · have hbit : (mismatchBundle ba set idx).getLsbD j = ((ba.bundles idx).getLsbD j != set) :=
        getLsbD_mismatchBundle hj
      rw [not_not.mp hne] at hbit
      simpa using hbit
    · exact ih h k hlt' (by omega) j hj

theorem matchBetween_eq_some (h : matchBetween ba set n idx = some p) :
    ∃ k, idx ≤ k ∧ k < idx + n ∧ ∃ j < 32, p = j + k * 32 ∧ (ba.bundles k).getLsbD j ≠ set := by
  induction n generalizing idx with
  | zero => cases h
  | succ n ih =>
    rw [matchBetween] at h
    split_ifs at h with hne
    · cases h
      obtain ⟨hlt, hbit, -⟩ := findLsbSet_spec hne
      rw [getLsbD_mismatchBundle hlt] at hbit
      exact ⟨idx, le_rfl, by omega, _, hlt, rfl, by simpa using hbit⟩
    · obtain ⟨k, hle, hlt, hj⟩ := ih h
      exact ⟨k, by omega, by omega, hj⟩

variable {offset n : ℕ}

/-- **A region matches if all its bits do.** -/
theorem matchRegion_eq_none (hn : 0 < n) (h : matchRegion ba offset n set = none) :
    ∀ i, offset ≤ i → i < offset + n → ba.bit i = set := by
  intro i hle hlt
  obtain ⟨hs, he, hsoff, heoff⟩ := (mem_region_iff hn).mp ⟨hle, hlt⟩
  have hi : i % 32 < 32 := Nat.mod_lt _ (by decide)
  simp only [matchRegion] at h
  split_ifs at h with hstart hsame hend
  · have hidx : i / 32 = offset / 32 := le_antisymm (he.trans hsame.ge) hs
    rw [bit, hidx]
    refine and_mask_eq_iff.mp (not_not.mp hstart) _ hi ?_
    rw [getLsbD_smask hi]
    exact decide_eq_true ⟨hsoff hidx, fun heq => heoff (hidx.trans heq)⟩
  rcases Nat.eq_or_lt_of_le hs with hidx | hidx
  · rw [bit, ← hidx]
    refine and_mask_eq_iff.mp (not_not.mp hstart) _ hi ?_
    rw [getLsbD_smask hi]
    exact decide_eq_true ⟨hsoff hidx.symm, fun heq => heoff (hidx.symm.trans heq)⟩
  rcases Nat.eq_or_lt_of_le he with hidx' | hidx'
  · rw [bit, hidx']
    refine and_mask_eq_iff.mp (not_not.mp hend) _ hi ?_
    rw [getLsbD_emask hi]
    exact decide_eq_true (heoff hidx')
  · exact matchBetween_eq_none h (i / 32) hidx (by
      simp only [setupBundleData]
      omega) _ hi

/-- **The mismatch reported is in the region.** -/
theorem matchRegion_eq_some (hn : 0 < n) (h : matchRegion ba offset n set = some p) :
    offset ≤ p ∧ p < offset + n ∧ ba.bit p ≠ set := by
  have hmem : ∀ {j k : ℕ}, j < 32 → offset / 32 ≤ k → k ≤ (offset + n - 1) / 32 →
      (k = offset / 32 → offset % 32 ≤ j) →
      (k = (offset + n - 1) / 32 → j ≤ (offset + n - 1) % 32) →
      offset ≤ j + k * 32 ∧ j + k * 32 < offset + n := by
    intro j k hj
    omega
  have hbounds : offset / 32 ≤ (offset + n - 1) / 32 := by omega
  simp only [matchRegion] at h
  split_ifs at h with hstart hsame hend
  · cases h
    obtain ⟨j, hj, hp, hmask, hbit⟩ := mismatchBit_spec hstart
    rw [getLsbD_smask hj, decide_eq_true_iff] at hmask
    obtain ⟨hle, hlt⟩ := hmem hj le_rfl hbounds (fun _ => hmask.1) hmask.2
    rw [hp]
    exact ⟨hle, hlt, (bit_mul_add hj).trans_ne hbit⟩
  · cases h
    obtain ⟨j, hj, hp, hmask, hbit⟩ := mismatchBit_spec hend
    rw [getLsbD_emask hj, decide_eq_true_iff] at hmask
    obtain ⟨hle, hlt⟩ := hmem hj hbounds le_rfl (fun heq => absurd heq.symm hsame) (fun _ => hmask)
    rw [hp]
    exact ⟨hle, hlt, (bit_mul_add hj).trans_ne hbit⟩
  · obtain ⟨k, hk, hk', j, hj, rfl, hbit⟩ := matchBetween_eq_some h
    simp only [setupBundleData] at hk hk'
    obtain ⟨hle, hlt⟩ := hmem (k := k) hj (by omega) (by omega) (by omega) (by omega)
    exact ⟨hle, hlt, (bit_mul_add hj).trans_ne hbit⟩

end matching

/-! ### Stores -/

section stores

variable {ba : Bitarray} {set : Bool} {offset n : ℕ}

theorem fillBetween_apply (value : BitVec 32) (bundles : ℕ → BitVec 32) (count idx k : ℕ) :
    fillBetween value bundles count idx k =
      if idx ≤ k ∧ k < idx + count then value else bundles k := by
  induction count generalizing bundles idx with
  | zero =>
    rw [fillBetween, if_neg (by omega)]
  | succ count ih =>
    rw [fillBetween, ih]
    by_cases hk : k = idx
    · rw [hk, if_neg (by omega), if_pos (by omega), update_self]
    · rw [update_of_ne hk]
      exact if_congr (by omega) rfl rfl

variable {j : ℕ}

theorem getLsbD_maskBundle {mask bundle : BitVec 32} (hj : j < 32) :
    (maskBundle set mask bundle).getLsbD j = if mask.getLsbD j then set else bundle.getLsbD j := by
  rw [maskBundle]
  cases set with
  | true =>
    rw [if_pos rfl, BitVec.getLsbD_or]
    cases mask.getLsbD j <;> simp
  | false =>
    rw [if_neg Bool.false_ne_true, BitVec.getLsbD_and, BitVec.getLsbD_not]
    cases mask.getLsbD j <;> simp [hj]

theorem getLsbD_fill (hj : j < 32) : (if set then ~~~0 else 0 : BitVec 32).getLsbD j = set := by
  cases set with
  | true =>
    rw [if_pos rfl, BitVec.getLsbD_not]
    simp [hj]
  | false => simp

/-- **The bits of the region change and no other does.** -/
theorem bit_setRegion (hn : 0 < n) (i : ℕ) : (setRegion ba offset n set).bit i =
    if offset ≤ i ∧ i < offset + n then set else ba.bit i := by
  have hi : i % 32 < 32 := Nat.mod_lt _ (by decide)
  have hs : (setupBundleData offset n).sidx = offset / 32 := rfl
  have he : (setupBundleData offset n).eidx = (offset + n - 1) / 32 := rfl
  simp only [bit, setRegion, hs, he]
  by_cases hsame : offset / 32 = (offset + n - 1) / 32
  · simp only [if_pos hsame, update_apply]
    by_cases hidx : i / 32 = offset / 32
    · rw [if_pos hidx, getLsbD_maskBundle hi, getLsbD_smask hi, hidx]
      exact if_congr (by rw [decide_eq_true_iff]; omega) rfl rfl
    · rw [if_neg hidx, if_neg (by omega)]
  simp only [if_neg hsame, fillBetween_apply]
  by_cases hfirst : i / 32 = offset / 32
  · rw [if_neg (by omega), hfirst, update_of_ne hsame, update_self,
      getLsbD_maskBundle hi, getLsbD_smask hi]
    exact if_congr (by rw [decide_eq_true_iff]; omega) rfl rfl
  by_cases hlast : i / 32 = (offset + n - 1) / 32
  · rw [if_neg (by omega), hlast, update_self, update_of_ne (Ne.symm hsame),
      getLsbD_maskBundle hi, getLsbD_emask hi]
    exact if_congr (by rw [decide_eq_true_iff]; omega) rfl rfl
  rw [update_of_ne hlast, update_of_ne hfirst]
  by_cases hmid : offset / 32 + 1 ≤ i / 32 ∧
      i / 32 < offset / 32 + 1 + ((offset + n - 1) / 32 - (offset / 32 + 1))
  · rw [if_pos hmid, getLsbD_fill hi, if_pos (by omega)]
  · rw [if_neg hmid, if_neg (by omega)]

theorem numBits_setRegion : (setRegion ba offset n set).numBits = ba.numBits := by
  simp only [setRegion]
  split_ifs <;> rfl

end stores

/-! ### Operations -/

section operations

variable {ba ba' : Bitarray} {r : ℤ} {numBits offset : ℕ}

/-- A region inside the array whose bits are all flipped. -/
structure Flips (ba ba' : Bitarray) (numBits offset : ℕ) (toSet : Bool) : Prop where
  pos : 0 < numBits
  le : offset + numBits ≤ ba.numBits
  was : ∀ i, offset ≤ i → i < offset + numBits → ba.bit i = !toSet
  after : ba' = setRegion ba offset numBits toSet

variable {toSet : Bool}

theorem Flips.bit (h : Flips ba ba' numBits offset toSet) (i : ℕ) :
    ba'.bit i = if offset ≤ i ∧ i < offset + numBits then toSet else ba.bit i := by
  rw [h.after]
  exact bit_setRegion h.pos i

theorem Flips.numBits_eq (h : Flips ba ba' numBits offset toSet) : ba'.numBits = ba.numBits := by
  rw [h.after]
  exact numBits_setRegion

theorem Flips.region_subset (h : Flips ba ba' numBits offset toSet) :
    Finset.Ico offset (offset + numBits) ⊆ Finset.range (ba.numBundles * 32) := by
  intro i hi
  have hle := h.le
  rw [Finset.mem_Ico] at hi
  rw [Finset.mem_range, numBundles]
  omega

theorem Flips.setBits_set (h : Flips ba ba' numBits offset true) :
    ba'.setBits = ba.setBits + numBits := by
  have hfilter : (Finset.range (ba'.numBundles * 32)).filter (ba'.bit ·) =
      (Finset.range (ba.numBundles * 32)).filter (ba.bit ·) ∪
        Finset.Ico offset (offset + numBits) := by
    ext i
    have hsub : offset ≤ i ∧ i < offset + numBits → i ∈ Finset.range (ba.numBundles * 32) :=
      fun hi => h.region_subset (Finset.mem_Ico.mpr hi)
    rw [numBundles, h.numBits_eq, ← numBundles]
    simp only [Finset.mem_filter, Finset.mem_union, Finset.mem_Ico, h.bit]
    split_ifs with hin
    · simp only [hsub hin, hin, and_self, or_true]
    · simp only [hin, or_false]
  have hdisj : Disjoint ((Finset.range (ba.numBundles * 32)).filter (ba.bit ·))
      (Finset.Ico offset (offset + numBits)) := by
    rw [Finset.disjoint_right]
    intro i hi hset
    rw [Finset.mem_Ico] at hi
    have hwas := h.was i hi.1 hi.2
    rw [(Finset.mem_filter.mp hset).2] at hwas
    cases hwas
  rw [setBits, hfilter, Finset.card_union_of_disjoint hdisj, Nat.card_Ico, setBits]
  omega

theorem Flips.symm (h : Flips ba ba' numBits offset toSet) :
    Flips ba' ba numBits offset (!toSet) where
  pos := h.pos
  le := by
    rw [h.numBits_eq]
    exact h.le
  was i hge hlt := by
    rw [h.bit, if_pos ⟨hge, hlt⟩, Bool.not_not]
  after := by
    refine ext_bit (by rw [numBits_setRegion, h.numBits_eq]) fun i => ?_
    rw [bit_setRegion h.pos, h.bit]
    split_ifs with hin
    · exact h.was i hin.1 hin.2
    · rfl

theorem Flips.setBits_clear (h : Flips ba ba' numBits offset false) :
    ba'.setBits + numBits = ba.setBits :=
  h.symm.setBits_set.symm

def Fits (ba : Bitarray) (numBits offset : ℕ) : Prop :=
  offset + numBits ≤ ba.numBits ∧ ∀ i, offset ≤ i → i < offset + numBits → ba.bit i = false

theorem not_fits_of_bit {p : ℕ} (hbit : ba.bit p = true) (hle : offset ≤ p)
    (hlt : p < offset + numBits) : ¬ Fits ba numBits offset := by
  rintro ⟨-, hclear⟩
  rw [hclear p hle hlt] at hbit
  cases hbit

theorem bit_of_lt_firstFree (n idx : ℕ) {i : ℕ} (hle : idx * 32 ≤ i)
    (hlt : i < firstFree ba n idx (idx * 32)) : ba.bit i = true := by
  induction n generalizing idx with
  | zero =>
    rw [firstFree] at hlt
    omega
  | succ n ih =>
    have hhere : ∀ {j}, i = j + idx * 32 → j < 32 → (~~~ba.bundles idx).getLsbD j = false →
        ba.bit i = true := by
      rintro j rfl hj hbit
      rw [bit_mul_add hj]
      simpa [hj] using hbit
    rw [firstFree] at hlt
    split_ifs at hlt with hfull hsome
    · by_cases hi : i < (idx + 1) * 32
      · exact hhere (j := i - idx * 32) (by omega) (by omega) (by rw [hfull]; simp)
      · rw [show idx * 32 + 32 = (idx + 1) * 32 by omega] at hlt
        exact ih (idx + 1) (by omega) hlt
    · obtain ⟨hbound, -, hfirst⟩ := findLsbSet_spec hfull
      exact hhere (j := i - idx * 32) (by omega) (by omega) (hfirst _ (by omega))
    · omega

theorem allocLoop_spec {offEnd : ℕ} (fuel bitIdx : ℕ) (hpos : 0 < numBits)
    (hend : offEnd + numBits = ba.numBits) (hfuel : offEnd + 1 < fuel + bitIdx)
    (hpos' : 0 < fuel) (hbefore : ∀ o < bitIdx, ¬ Fits ba numBits o) :
    (allocLoop ba numBits offEnd fuel bitIdx = some (-ENOSPC, ba, 0) ∧ ∀ o, ¬ Fits ba numBits o) ∨
      ∃ ba' offset, allocLoop ba numBits offEnd fuel bitIdx = some (0, ba', offset) ∧
        Flips ba ba' numBits offset true ∧ ∀ o < offset, ¬ Fits ba numBits o := by
  induction fuel generalizing bitIdx with
  | zero => omega
  | succ fuel ih =>
    rw [allocLoop]
    split_ifs with hle
    · rcases hmatch : matchRegion ba bitIdx numBits false with _ | mismatch
      · exact .inr ⟨_, _, rfl, ⟨hpos, by omega, matchRegion_eq_none hpos hmatch, rfl⟩, hbefore⟩
      obtain ⟨hge, hlt, hbit⟩ := matchRegion_eq_some hpos hmatch
      refine ih (mismatch + 1) (by omega) (by omega) fun o ho => ?_
      by_cases hstart : o < bitIdx
      · exact hbefore o hstart
      · exact not_fits_of_bit (by simpa using hbit) (by omega) (by omega)
    refine .inl ⟨rfl, fun o => ?_⟩
    by_cases hstart : o < bitIdx
    · exact hbefore o hstart
    · rintro ⟨hin, -⟩
      omega

theorem alloc_first (ba : Bitarray) (numBits : ℕ) (hpos : 0 < numBits)
    (hle : numBits ≤ ba.numBits) :
    (alloc ba numBits = some (-ENOSPC, ba, 0) ∧ ∀ o, ¬ Fits ba numBits o) ∨
      ∃ ba' offset, alloc ba numBits = some (0, ba', offset) ∧
        Flips ba ba' numBits offset true ∧ ∀ o < offset, ¬ Fits ba numBits o := by
  rw [alloc, if_neg (by omega)]
  refine allocLoop_spec (ba.numBits + 1) _ hpos (by omega) (by omega) (by omega) fun o ho => ?_
  have hbit : ba.bit o = true := bit_of_lt_firstFree ba.numBundles 0 (by omega) (by simpa using ho)
  exact not_fits_of_bit hbit le_rfl (by omega)

/-- **An allocation sets a clear region, or fails and changes nothing.** -/
theorem alloc_spec (ba : Bitarray) (numBits : ℕ) :
    (∃ r, r ≠ 0 ∧ alloc ba numBits = some (r, ba, 0)) ∨
      ∃ ba' offset, alloc ba numBits = some (0, ba', offset) ∧
        Flips ba ba' numBits offset true := by
  by_cases hbad : numBits = 0 ∨ numBits > ba.numBits
  · exact .inl ⟨-EINVAL, by decide, by rw [alloc, if_pos hbad]⟩
  · rcases alloc_first ba numBits (by omega) (by omega) with ⟨h, -⟩ | ⟨ba', offset, h, hflips, -⟩
    · exact .inl ⟨_, by decide, h⟩
    · exact .inr ⟨ba', offset, h, hflips⟩

/-- **The allocation is complete first fit.** It fails, and changes nothing, just if no region is
clear, and it sets the bits of the first one that is. -/
theorem alloc_first_fit (ba : Bitarray) (numBits : ℕ) (hpos : 0 < numBits)
    (hle : numBits ≤ ba.numBits) :
    (alloc ba numBits = some (-ENOSPC, ba, 0) ↔ ∀ o, ¬ Fits ba numBits o) ∧
      ∀ offset, IsLeast {o | Fits ba numBits o} offset →
        ∃ ba', alloc ba numBits = some (0, ba', offset) ∧ ba'.numBits = ba.numBits ∧
          ∀ i, ba'.bit i = if offset ≤ i ∧ i < offset + numBits then true else ba.bit i := by
  rcases alloc_first ba numBits hpos hle with ⟨h, hnone⟩ | ⟨ba', offset, h, hflips, hfirst⟩
  · refine ⟨⟨fun _ => hnone, fun _ => h⟩, fun offset hleast => ?_⟩
    exact absurd hleast.1 (hnone offset)
  have hfits : Fits ba numBits offset := ⟨hflips.le, hflips.was⟩
  refine ⟨⟨fun hfail => ?_, fun hnone => absurd hfits (hnone offset)⟩, fun least hleast => ?_⟩
  · rw [h] at hfail
    cases hfail
  have heq : least = offset := by
    refine le_antisymm (hleast.2 hfits) ?_
    by_contra hlt
    exact hfirst least (by omega) hleast.1
  rw [heq]
  exact ⟨ba', h, hflips.numBits_eq, hflips.bit⟩

theorem alloc_first_fit_define :
    (alloc (define 40) 3 = some (-ENOSPC, define 40, 0) ↔ ∀ o, ¬ Fits (define 40) 3 o) ∧
      ∀ offset, IsLeast {o | Fits (define 40) 3 o} offset →
        ∃ ba', alloc (define 40) 3 = some (0, ba', offset) ∧ ba'.numBits = (define 40).numBits ∧
          ∀ i, ba'.bit i = if offset ≤ i ∧ i < offset + 3 then true else (define 40).bit i :=
  alloc_first_fit (define 40) 3 (by decide) (by decide)

theorem region_le (h : ¬ badRegion ba numBits offset) (hsize : ba.numBits < 2 ^ 31) :
    0 < numBits ∧ offset + numBits ≤ ba.numBits := by
  rw [badRegion] at h
  omega

theorem le_of_badRegion (h : badRegion ba numBits offset) :
    numBits = 0 ∨ ba.numBits < offset + numBits := by
  rw [badRegion] at h
  have hmod := Nat.mod_le (offset + numBits + (2 ^ 32 - 1)) (2 ^ 32)
  rcases h with h | h | h | h
  · exact .inl h
  · exact .inr (by omega)
  · omega
  · omega

/-- **A free clears a set region, or fails and changes nothing.** -/
theorem free_spec (numBits offset : ℕ) (hsize : ba.numBits < 2 ^ 31) :
    (∃ r, r ≠ 0 ∧ free ba numBits offset = (r, ba) ∧ (numBits = 0 ∨
        ∃ i, offset ≤ i ∧ i < offset + numBits ∧ (ba.numBits ≤ i ∨ ba.bit i = false))) ∨
      ∃ ba', free ba numBits offset = (0, ba') ∧ Flips ba ba' numBits offset false := by
  rw [free]
  split_ifs with hbad
  · refine .inl ⟨_, by decide, rfl, ?_⟩
    rcases le_of_badRegion hbad with hzero | hlt
    · exact .inl hzero
    · rcases Nat.eq_zero_or_pos numBits with hzero | hpos
      · exact .inl hzero
      · exact .inr ⟨offset + numBits - 1, by omega, by omega, .inl (by omega)⟩
  obtain ⟨hpos, hle⟩ := region_le hbad hsize
  cases hmatch : matchRegion ba offset numBits true with
  | none => exact .inr ⟨_, rfl, hpos, hle, matchRegion_eq_none hpos hmatch, rfl⟩
  | some mismatch =>
    obtain ⟨hge, hlt, hne⟩ := matchRegion_eq_some hpos hmatch
    exact .inl ⟨_, by decide, rfl, .inr ⟨mismatch, hge, hlt, .inr (by simpa using hne)⟩⟩

/-- **A test-and-set flips a region, or fails and changes nothing.** -/
theorem testAndSetRegion_spec (numBits offset : ℕ) (toSet : Bool) (hsize : ba.numBits < 2 ^ 31) :
    (∃ r, r ≠ 0 ∧ testAndSetRegion ba numBits offset toSet = (r, ba)) ∨
      ∃ ba', testAndSetRegion ba numBits offset toSet = (0, ba') ∧
        Flips ba ba' numBits offset toSet := by
  rw [testAndSetRegion]
  split_ifs with hbad
  · exact .inl ⟨_, by decide, rfl⟩
  · obtain ⟨hpos, hle⟩ := region_le hbad hsize
    cases hmatch : matchRegion ba offset numBits (!toSet) with
    | none => exact .inr ⟨_, rfl, hpos, hle, matchRegion_eq_none hpos hmatch, rfl⟩
    | some mismatch => exact .inl ⟨_, by decide, rfl⟩

end operations

end Bitarray

end TlZephyr
