import TlZephyr.Bitarray

/-!
# Regions of Bit Arrays

The operations of `lib/utils/bitarray.c` that set, test, count, combine and search the bits of a
region, compared with the list of its bits.
-/

namespace TlZephyr.Bitarray

open Function List

/-! ### Code -/

section code

variable (ba : Bitarray)

def isRegionSetClear (numBits offset : ℕ) (toSet : Bool) : Bool :=
  if badRegion ba numBits offset then false else (matchRegion ba offset numBits toSet).isNone

def isRegionSet (numBits offset : ℕ) : Bool := isRegionSetClear ba numBits offset true

def isRegionCleared (numBits offset : ℕ) : Bool := isRegionSetClear ba numBits offset false

def setClearRegion (numBits offset : ℕ) (toSet : Bool) : ℤ × Bitarray :=
  if badRegion ba numBits offset then (-EINVAL, ba) else (0, setRegion ba offset numBits toSet)

/-- `sys_bitarray_set_region`. -/
def sysSetRegion (numBits offset : ℕ) : ℤ × Bitarray := setClearRegion ba numBits offset true

/-- `sys_bitarray_clear_region`. -/
def sysClearRegion (numBits offset : ℕ) : ℤ × Bitarray := setClearRegion ba numBits offset false

/-- Check of a region in the operations below, with `size_t` of 32 bits. -/
def outOfRange (numBits offset : ℕ) : Prop :=
  numBits = 0 ∨ (offset + numBits) % 2 ^ 32 > ba.numBits

instance (ba : Bitarray) (numBits offset : ℕ) : Decidable (outOfRange ba numBits offset) :=
  inferInstanceAs (Decidable (_ ∨ _))

/-- `POPCOUNT`. -/
def popcount (op : BitVec 32) : ℕ := (range 32).countP op.getLsbD

def popcountRegion (numBits offset count : ℕ) : ℤ × ℕ :=
  if outOfRange ba numBits offset then (-EINVAL, count)
  else
    let bd := setupBundleData offset numBits
    let first := popcount (ba.bundles bd.sidx &&& bd.smask)
    if bd.sidx = bd.eidx then (0, first)
    else (0, first + popcount (ba.bundles bd.eidx &&& bd.emask) +
      ((range' (bd.sidx + 1) (bd.eidx - (bd.sidx + 1))).map fun idx => popcount (ba.bundles idx)).sum)

def xorBundle (mask dst other : BitVec 32) : BitVec 32 :=
  ((other ^^^ dst) &&& mask) ||| (dst &&& ~~~mask)

def xorBetween (other : Bitarray) : (ℕ → BitVec 32) → ℕ → ℕ → ℕ → BitVec 32
  | bundles, 0, _ => bundles
  | bundles, n + 1, idx =>
    xorBetween other (update bundles idx (bundles idx ^^^ other.bundles idx)) n (idx + 1)

/-- `sys_bitarray_xor`, with two different arrays. -/
def xor (dst other : Bitarray) (numBits offset : ℕ) : ℤ × Bitarray :=
  if dst.numBits ≠ other.numBits then (-EINVAL, dst)
  else if outOfRange dst numBits offset then (-EINVAL, dst)
  else
    let bd := setupBundleData offset numBits
    let first := update dst.bundles bd.sidx
      (xorBundle bd.smask (dst.bundles bd.sidx) (other.bundles bd.sidx))
    if bd.sidx = bd.eidx then (0, { dst with bundles := first })
    else
      let last := update first bd.eidx
        (xorBundle bd.emask (first bd.eidx) (other.bundles bd.eidx))
      (0, { dst with
        bundles := xorBetween other last (bd.eidx - (bd.sidx + 1)) (bd.sidx + 1) })

/-- Search for the `n`-th bit set in a bundle. -/
def findBit (bundle : BitVec 32) : ℕ → List ℕ → Option ℕ
  | _, [] => none
  | n, j :: js =>
    if bundle.getLsbD j then if n - 1 = 0 then some j else findBit bundle (n - 1) js
    else findBit bundle n js

/-- End of `sys_bitarray_find_nth_set`, with the bundle that has the bit. -/
def found (idx : ℕ) (mask : BitVec 32) (n foundAt : ℕ) : ℤ × ℕ :=
  match findBit (ba.bundles idx &&& mask) n (range 32) with
  | some j => (0, idx * 32 + j)
  | none => (1, foundAt)

/-- Search of the bundles after the first one. -/
def findBetween (emask : BitVec 32) (foundAt : ℕ) : ℕ → ℕ → ℕ → ℤ × ℕ
  | 0, idx, n =>
    if popcount (ba.bundles idx &&& emask) ≥ n then found ba idx emask n foundAt else (1, foundAt)
  | k + 1, idx, n =>
    if popcount (ba.bundles idx) ≥ n then found ba idx (~~~0) n foundAt
    else findBetween emask foundAt k (idx + 1) (n - popcount (ba.bundles idx))

def findNthSet (n numBits offset foundAt : ℕ) : ℤ × ℕ :=
  if n = 0 ∨ outOfRange ba numBits offset then (-EINVAL, foundAt)
  else
    let bd := setupBundleData offset numBits
    let count := popcount (ba.bundles bd.sidx &&& bd.smask)
    if count ≥ n then found ba bd.sidx bd.smask n foundAt
    else if bd.sidx ≠ bd.eidx then
      findBetween ba bd.emask foundAt (bd.eidx - (bd.sidx + 1)) (bd.sidx + 1) (n - count)
    else (1, foundAt)

end code

/-! ### Bits of a region -/

/-- Bits of the region that are set, in order. -/
def setIn (ba : Bitarray) (offset n : ℕ) : List ℕ := (range' offset n).filter ba.bit

/-- Bits of a bundle that are set, under a mask. -/
def setUnder (ba : Bitarray) (mask : BitVec 32) (idx : ℕ) : List ℕ :=
  ((range 32).filter (ba.bundles idx &&& mask).getLsbD).map (· + idx * 32)

section region

variable {ba other : Bitarray} {offset n idx foundAt : ℕ} {mask : BitVec 32} {l l' : List ℕ}

/-- The mask of a bundle has the bits of the region. -/
def Masks (offset n idx : ℕ) (mask : BitVec 32) : Prop :=
  ∀ j < 32, mask.getLsbD j = decide (offset ≤ j + idx * 32 ∧ j + idx * 32 < offset + n)

theorem masks_smask (hn : 0 < n) : Masks offset n (offset / 32) (setupBundleData offset n).smask := by
  intro j hj
  rw [getLsbD_smask hj, decide_eq_decide]
  omega

theorem masks_emask (hn : 0 < n) (hne : offset / 32 ≠ (offset + n - 1) / 32) :
    Masks offset n ((offset + n - 1) / 32) (setupBundleData offset n).emask := by
  intro j hj
  rw [getLsbD_emask hj, decide_eq_decide]
  omega

theorem masks_full (hlt : offset / 32 < idx) (hlt' : idx < (offset + n - 1) / 32) :
    Masks offset n idx (~~~0) := by
  intro j hj
  have h : offset ≤ j + idx * 32 ∧ j + idx * 32 < offset + n := by omega
  rw [BitVec.getLsbD_not, decide_eq_true h]
  simp [hj]

theorem masks_zero (hn : 0 < n) (h : idx < offset / 32 ∨ (offset + n - 1) / 32 < idx) :
    Masks offset n idx 0 := by
  intro j hj
  have h : ¬ (offset ≤ j + idx * 32 ∧ j + idx * 32 < offset + n) := by omega
  simp [h]

theorem popcount_eq (idx : ℕ) : popcount (ba.bundles idx &&& mask) = (setUnder ba mask idx).length := by
  rw [popcount, countP_eq_length_filter, setUnder, length_map]

theorem and_full (bundle : BitVec 32) : bundle &&& ~~~0 = bundle := by
  rw [show (~~~0 : BitVec 32) = .allOnes 32 from BitVec.not_zero, BitVec.and_allOnes]

theorem setUnder_full (idx : ℕ) : popcount (ba.bundles idx) = (setUnder ba (~~~0) idx).length := by
  rw [← popcount_eq, and_full]

def setAmong (ba : Bitarray) (offset n start len : ℕ) : List ℕ :=
  (range' start len).filter fun i => decide (offset ≤ i ∧ i < offset + n) && ba.bit i

theorem setUnder_eq (hmask : Masks offset n idx mask) :
    setUnder ba mask idx = setAmong ba offset n (idx * 32) 32 := by
  rw [setUnder, setAmong, range'_eq_map_range, filter_map]
  have hcomm : (fun j => idx * 32 + j) = (· + idx * 32) := funext fun j => Nat.add_comm _ _
  rw [hcomm]
  refine congrArg _ (filter_congr fun j hj => ?_)
  rw [mem_range] at hj
  rw [BitVec.getLsbD_and, hmask j hj, comp_apply, bit_mul_add hj, Bool.and_comm]

theorem setAmong_append (ba : Bitarray) (offset n start len len' : ℕ) :
    setAmong ba offset n start (len + len') =
      setAmong ba offset n start len ++ setAmong ba offset n (start + len) len' := by
  rw [setAmong, ← range'_append_1, filter_append]
  rfl

theorem setAmong_eq_nil {start len : ℕ} (h : start + len ≤ offset ∨ offset + n ≤ start) :
    setAmong ba offset n start len = [] := by
  refine filter_eq_nil_iff.mpr fun i hi => ?_
  rw [mem_range'_1] at hi
  rw [decide_eq_false (by omega)]
  simp

theorem setAmong_self : setAmong ba offset n offset n = setIn ba offset n := by
  refine filter_congr fun i hi => ?_
  rw [mem_range'_1] at hi
  rw [decide_eq_true hi, Bool.true_and]

theorem setAmong_between {m : ℕ} (hlt : offset / 32 < idx)
    (hle : idx + m ≤ (offset + n - 1) / 32) : setAmong ba offset n (idx * 32) (m * 32) =
      (range' idx m).flatMap (setUnder ba (~~~0)) := by
  induction m generalizing idx with
  | zero => simp [setAmong]
  | succ m ih =>
    rw [range'_succ, flatMap_cons, setUnder_eq (masks_full (n := n) hlt (by omega)), ← ih (by omega) (by omega),
      Nat.add_mul, Nat.one_mul, Nat.add_comm, setAmong_append, Nat.add_mul, Nat.one_mul]

theorem setIn_eq (ba : Bitarray) (offset : ℕ) (hn : 0 < n) :
    let bd := setupBundleData offset n
    setIn ba offset n = setUnder ba bd.smask bd.sidx ++ if bd.sidx = bd.eidx then [] else
      (range' (bd.sidx + 1) (bd.eidx - (bd.sidx + 1))).flatMap (setUnder ba (~~~0)) ++
        setUnder ba bd.emask bd.eidx := by
  have hs : (setupBundleData offset n).sidx = offset / 32 := rfl
  have he : (setupBundleData offset n).eidx = (offset + n - 1) / 32 := rfl
  -- the region with what is around it in its first and last bundle
  have hwhole : setIn ba offset n = setAmong ba offset n (offset / 32 * 32)
      (((offset + n - 1) / 32 - offset / 32 + 1) * 32) := by
    rw [show ((offset + n - 1) / 32 - offset / 32 + 1) * 32 = offset % 32 + n +
        (31 - (offset + n - 1) % 32) by omega, setAmong_append, setAmong_append,
      show offset / 32 * 32 + offset % 32 = offset by omega, setAmong_eq_nil (by omega),
      setAmong_self, setAmong_eq_nil (by omega), nil_append, append_nil]
  dsimp only
  rw [hs, he, setUnder_eq (masks_smask hn), hwhole]
  by_cases hsame : offset / 32 = (offset + n - 1) / 32
  · rw [if_pos hsame, append_nil, ← hsame, Nat.sub_self]
  · rw [if_neg hsame, setUnder_eq (masks_emask hn hsame),
      ← setAmong_between (n := n) (Nat.lt_succ_self _) (by omega),
      show ((offset + n - 1) / 32 - offset / 32 + 1) * 32 =
        32 + (((offset + n - 1) / 32 - (offset / 32 + 1)) * 32 + 32) by omega, setAmong_append,
      setAmong_append]
    congr 3 <;> omega

/-! ### Counting and searching -/

theorem findBit_eq (bundle : BitVec 32) (js : List ℕ) (hn : 0 < n) :
    findBit bundle n js = (js.filter bundle.getLsbD)[n - 1]? := by
  induction js generalizing n with
  | nil => simp [findBit]
  | cons j js ih =>
    rw [findBit, filter_cons]
    split_ifs with hset hone
    · simp [hone]
    · rw [ih (by omega), show n - 1 = n - 1 - 1 + 1 by omega, getElem?_cons_succ]
      rfl
    · exact ih hn

def nthOf (l : List ℕ) (n foundAt : ℕ) : ℤ × ℕ :=
  match l[n - 1]? with
  | some p => (0, p)
  | none => (1, foundAt)

theorem found_eq (hn : 0 < n) (idx foundAt : ℕ) :
    found ba idx mask n foundAt = nthOf (setUnder ba mask idx) n foundAt := by
  rw [found, findBit_eq _ _ hn, nthOf, setUnder, getElem?_map]
  cases ((range 32).filter (ba.bundles idx &&& mask).getLsbD)[n - 1]? with
  | none => rfl
  | some j => simp [Nat.add_comm]

theorem nthOf_append_left (hn : 0 < n) (h : n ≤ l.length) :
    nthOf (l ++ l') n foundAt = nthOf l n foundAt := by
  rw [nthOf, getElem?_append_left (by omega), nthOf]

theorem nthOf_append_right (h : ¬ n ≤ l.length) :
    nthOf (l ++ l') n foundAt = nthOf l' (n - l.length) foundAt := by
  rw [nthOf, getElem?_append_right (by omega), nthOf, Nat.sub_right_comm]

theorem nthOf_none (h : ¬ n ≤ l.length) : nthOf l n foundAt = (1, foundAt) := by
  rw [nthOf, getElem?_eq_none (by omega)]

theorem findBetween_eq (emask : BitVec 32) (foundAt k idx : ℕ) (hn : 0 < n) :
    findBetween ba emask foundAt k idx n = nthOf ((range' idx k).flatMap (setUnder ba (~~~0)) ++
      setUnder ba emask (idx + k)) n foundAt := by
  induction k generalizing idx n with
  | zero =>
    rw [findBetween, popcount_eq, range'_zero, flatMap_nil, nil_append, found_eq hn]
    split_ifs with h
    · rfl
    · exact (nthOf_none h).symm
  | succ k ih =>
    rw [findBetween, setUnder_full, range'_succ, flatMap_cons, append_assoc, found_eq hn]
    split_ifs with h
    · exact (nthOf_append_left hn h).symm
    · rw [nthOf_append_right h, ih (idx + 1) (by omega), Nat.add_right_comm, Nat.add_assoc]

theorem popcountRegion_eq (hn : 0 < n) (hr : ¬ outOfRange ba n offset) (count : ℕ) :
    popcountRegion ba n offset count = (0, (setIn ba offset n).length) := by
  have hsum : ∀ l : List ℕ, (l.map fun idx => popcount (ba.bundles idx)).sum =
      (l.flatMap (setUnder ba (~~~0))).length := by
    intro l
    rw [length_flatMap]
    exact congrArg _ (map_congr_left fun idx _ => setUnder_full idx)
  rw [popcountRegion, if_neg hr, setIn_eq ba offset hn]
  dsimp only
  rw [popcount_eq, popcount_eq, hsum, length_append]
  split_ifs
  · rfl
  · rw [length_append, Nat.add_assoc, Nat.add_comm (length _) (length (flatMap _ _))]

theorem findNthSet_eq {k : ℕ} (hk : 0 < k) (hn : 0 < n) (hr : ¬ outOfRange ba n offset)
    (foundAt : ℕ) : findNthSet ba k n offset foundAt = nthOf (setIn ba offset n) k foundAt := by
  rw [findNthSet, if_neg (by simp [hk.ne', hr]), setIn_eq ba offset hn]
  dsimp only
  rw [popcount_eq, found_eq hk]
  by_cases hcount : (setUnder ba (setupBundleData offset n).smask
      (setupBundleData offset n).sidx).length ≥ k
  · rw [if_pos hcount, nthOf_append_left hk hcount]
  rw [if_neg hcount]
  by_cases hsame : (setupBundleData offset n).sidx = (setupBundleData offset n).eidx
  · rw [if_neg (not_not.mpr hsame), if_pos hsame, append_nil, nthOf_none hcount]
  · rw [if_pos hsame, if_neg hsame, nthOf_append_right hcount, findBetween_eq _ _ _ _ (by omega)]
    congr 3
    simp only [setupBundleData] at hsame ⊢
    omega

/-! ### Combining -/

theorem xorBetween_apply (bundles : ℕ → BitVec 32) (count idx k : ℕ) :
    xorBetween other bundles count idx k = if idx ≤ k ∧ k < idx + count then
      bundles k ^^^ other.bundles k else bundles k := by
  induction count generalizing bundles idx with
  | zero => rw [xorBetween, if_neg (by omega)]
  | succ count ih =>
    rw [xorBetween, ih]
    by_cases hk : k = idx
    · rw [hk, if_neg (by omega), if_pos (by omega), update_self]
    · rw [update_of_ne hk]
      exact if_congr (by omega) rfl rfl

theorem xorBundle_zero (a b : BitVec 32) : xorBundle 0 a b = a := by
  rw [xorBundle, and_full]
  simp

theorem getLsbD_xorBundle {j : ℕ} (hj : j < 32) (hmask : Masks offset n idx mask)
    (a b : BitVec 32) : (xorBundle mask a b).getLsbD j =
      if offset ≤ j + idx * 32 ∧ j + idx * 32 < offset + n then a.getLsbD j ^^ b.getLsbD j
      else a.getLsbD j := by
  rw [xorBundle, BitVec.getLsbD_or, BitVec.getLsbD_and, BitVec.getLsbD_and, BitVec.getLsbD_not,
    hmask j hj, BitVec.getLsbD_xor]
  split_ifs with h
  · simp [h, Bool.xor_comm]
  · simp [h, hj]

theorem xor_bundles (hn : 0 < n) (hsize : ba.numBits = other.numBits)
    (hr : ¬ outOfRange ba n offset) : ∃ ba', xor ba other n offset = (0, ba') ∧
      ba'.numBits = ba.numBits ∧ ∀ k, ∃ mask, Masks offset n k mask ∧
        ba'.bundles k = xorBundle mask (ba.bundles k) (other.bundles k) := by
  have hs : (setupBundleData offset n).sidx = offset / 32 := rfl
  have he : (setupBundleData offset n).eidx = (offset + n - 1) / 32 := rfl
  rw [xor, if_neg (not_not.mpr hsize), if_neg hr]
  dsimp only
  rw [hs, he]
  by_cases hsame : offset / 32 = (offset + n - 1) / 32
  · rw [if_pos hsame]
    refine ⟨_, rfl, rfl, fun k => ?_⟩
    dsimp only
    by_cases hk : k = offset / 32
    · exact ⟨_, hk ▸ masks_smask hn, by rw [hk, update_self]⟩
    · exact ⟨_, masks_zero hn (by omega), by rw [update_of_ne hk, xorBundle_zero]⟩
  rw [if_neg hsame]
  refine ⟨_, rfl, rfl, fun k => ?_⟩
  dsimp only
  rw [xorBetween_apply]
  by_cases hfirst : k = offset / 32
  · refine ⟨_, hfirst ▸ masks_smask hn, ?_⟩
    rw [if_neg (by omega), hfirst, update_of_ne hsame, update_self]
  by_cases hlast : k = (offset + n - 1) / 32
  · refine ⟨_, hlast ▸ masks_emask hn hsame, ?_⟩
    rw [if_neg (by omega), hlast, update_self, update_of_ne (Ne.symm hsame)]
  rw [update_of_ne hlast, update_of_ne hfirst]
  by_cases hmid : offset / 32 < k ∧ k < (offset + n - 1) / 32
  · refine ⟨_, masks_full hmid.1 hmid.2, ?_⟩
    rw [if_pos (by omega), xorBundle, and_full, BitVec.xor_comm]
    simp
  · exact ⟨_, masks_zero hn (by omega), by rw [if_neg (by omega), xorBundle_zero]⟩

/-- **The bits of the region are combined and no other changes.** -/
theorem bit_xor (hn : 0 < n) (hsize : ba.numBits = other.numBits) (hr : ¬ outOfRange ba n offset) :
    ∃ ba', xor ba other n offset = (0, ba') ∧ ba'.numBits = ba.numBits ∧ ∀ i, ba'.bit i =
      if offset ≤ i ∧ i < offset + n then ba.bit i ^^ other.bit i else ba.bit i := by
  obtain ⟨ba', hxor, hnum, hbundles⟩ := xor_bundles hn hsize hr
  refine ⟨ba', hxor, hnum, fun i => ?_⟩
  obtain ⟨mask, hmask, hk⟩ := hbundles (i / 32)
  rw [bit, hk, getLsbD_xorBundle (Nat.mod_lt _ (by decide)) hmask,
    show i % 32 + i / 32 * 32 = i by omega]
  rfl

/-! ### Operations -/

theorem matchRegion_eq_none_iff {toSet : Bool} (hn : 0 < n) : matchRegion ba offset n toSet = none ↔
    ∀ i, offset ≤ i → i < offset + n → ba.bit i = toSet := by
  refine ⟨matchRegion_eq_none hn, fun h => ?_⟩
  rcases hmatch : matchRegion ba offset n toSet with _ | p
  · rfl
  obtain ⟨hle, hlt, hne⟩ := matchRegion_eq_some hn hmatch
  exact absurd (h p hle hlt) hne

end region

/-- A call that stores to the bits of the region if they pass a test, and otherwise changes nothing. -/
def StoresIf (ba : Bitarray) (numBits offset : ℕ) (toSet : Bool) (test : Prop) (r : ℤ × Bitarray) :
    Prop :=
  (¬ test → r.1 < 0 ∧ r.2 = ba) ∧ (test → r.1 = 0 ∧ r.2.numBits = ba.numBits ∧
    ∀ i, r.2.bit i = if offset ≤ i ∧ i < offset + numBits then toSet else ba.bit i)

/-- **The operations on a region agree with the list of its bits.** -/
theorem region_operations (ba other : Bitarray) (numBits offset : ℕ) (hpos : 0 < numBits)
    (hle : offset + numBits ≤ ba.numBits) (hsize : ba.numBits < 2 ^ 32) :
    let All := fun b => ∀ i, offset ≤ i → i < offset + numBits → ba.bit i = b
    StoresIf ba numBits offset true True (sysSetRegion ba numBits offset) ∧
    StoresIf ba numBits offset false True (sysClearRegion ba numBits offset) ∧
    (isRegionSet ba numBits offset = true ↔ All true) ∧
    (isRegionCleared ba numBits offset = true ↔ All false) ∧
    (∀ toSet, StoresIf ba numBits offset toSet (All !toSet)
      (testAndSetRegion ba numBits offset toSet)) ∧
    StoresIf ba numBits offset false (All true) (free ba numBits offset) ∧
    (∀ count, popcountRegion ba numBits offset count = (0, (setIn ba offset numBits).length)) ∧
    (other.numBits = ba.numBits → ∃ ba', xor ba other numBits offset = (0, ba') ∧
      ba'.numBits = ba.numBits ∧ ∀ i, ba'.bit i =
        if offset ≤ i ∧ i < offset + numBits then ba.bit i ^^ other.bit i else ba.bit i) ∧
    ∀ n > 0, ∀ foundAt, findNthSet ba n numBits offset foundAt =
      match (setIn ba offset numBits)[n - 1]? with
      | some p => (0, p)
      | none => (1, foundAt) := by
  have hgood : ¬ badRegion ba numBits offset := by
    rw [badRegion]
    omega
  have hrange : ¬ outOfRange ba numBits offset := by
    rw [outOfRange]
    omega
  have hset : ∀ toSet, StoresIf ba numBits offset toSet True (0, setRegion ba offset numBits toSet) :=
    fun toSet => ⟨fun h => absurd trivial h, fun _ => ⟨rfl, numBits_setRegion, bit_setRegion hpos⟩⟩
  have hmatch : ∀ toSet, (matchRegion ba offset numBits toSet).isNone = true ↔
      ∀ i, offset ≤ i → i < offset + numBits → ba.bit i = toSet := by
    intro toSet
    rw [Option.isNone_iff_eq_none, matchRegion_eq_none_iff hpos]
  have htest : ∀ toSet was (e : ℤ) r, e < 0 → (matchRegion ba offset numBits was = none →
      r = (0, setRegion ba offset numBits toSet)) →
      (∀ p, matchRegion ba offset numBits was = some p → r = (e, ba)) →
      StoresIf ba numBits offset toSet
        (∀ i, offset ≤ i → i < offset + numBits → ba.bit i = was) r := by
    intro toSet was e r he hnone hsome
    rw [← matchRegion_eq_none_iff hpos]
    rcases hm : matchRegion ba offset numBits was with _ | p
    · rw [hnone hm]
      exact ⟨fun h => absurd rfl h, fun _ => (hset toSet).2 trivial⟩
    · rw [hsome p hm]
      exact ⟨fun _ => ⟨he, rfl⟩, fun h => by cases h⟩
  refine ⟨?_, ?_, ?_, ?_, fun toSet => ?_, ?_, fun count => ?_, fun hother => ?_, fun n hn foundAt => ?_⟩
  · rw [sysSetRegion, setClearRegion, if_neg hgood]
    exact hset true
  · rw [sysClearRegion, setClearRegion, if_neg hgood]
    exact hset false
  · rw [isRegionSet, isRegionSetClear, if_neg hgood]
    exact hmatch true
  · rw [isRegionCleared, isRegionSetClear, if_neg hgood]
    exact hmatch false
  · rw [testAndSetRegion, if_neg hgood]
    exact htest toSet (!toSet) (-EEXIST) _ (by decide) (fun h => by rw [h]) fun p h => by rw [h]
  · rw [free, if_neg hgood]
    exact htest false true (-EFAULT) _ (by decide) (fun h => by rw [h]) fun p h => by rw [h]
  · exact popcountRegion_eq hpos hrange count
  · exact bit_xor hpos hother.symm hrange
  · exact findNthSet_eq hn hpos hrange foundAt

theorem region_operations_define : popcountRegion (define 40) 9 30 0 = (0, 0) :=
  (region_operations (define 40) (define 40) 9 30 (by decide) (by decide) (by decide)).2.2.2.2.2.2.1 0

end TlZephyr.Bitarray
