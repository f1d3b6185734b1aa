import TlZephyr.Fcb

/-!
# A Sector of the Flash Circular Buffer

What the functions read in one sector. `Elems cfg size m off xs stop` says that the entries `xs` are
what stands in the sector `m` from `off` to `stop`. An entry counts as good if its end marker is the
one expected.
-/

namespace TlZephyr

open List

namespace Fcb

open Memory LittleEndian

variable {cfg : Cfg}

/-! ### Alignment -/

section align

theorem and_neg_two_pow {x k : ℕ} (hk : k ≤ 32) (hx : x < 2 ^ 32) :
    x &&& (2 ^ 32 - 2 ^ k) = x / 2 ^ k * 2 ^ k := by
  have hmask : 2 ^ 32 - 2 ^ k = (2 ^ (32 - k) - 1) <<< k := by
    rw [Nat.shiftLeft_eq, Nat.sub_mul, ← Nat.pow_add, Nat.sub_add_cancel hk, Nat.one_mul]
  refine Nat.eq_of_testBit_eq fun i => ?_
  rw [hmask, Nat.testBit_and, Nat.testBit_shiftLeft, ← Nat.shiftRight_eq_div_pow, ← Nat.shiftLeft_eq,
    Nat.testBit_shiftLeft, Nat.testBit_two_pow_sub_one, Nat.testBit_shiftRight]
  by_cases hi : k ≤ i
  · rw [Nat.add_sub_cancel' hi]
    by_cases hlt : i < 32
    · simp [hi, show i - k < 32 - k by omega]
    · have hbit : x.testBit i = false :=
        Nat.testBit_lt_two_pow (hx.trans_le (Nat.pow_le_pow_right (by norm_num) (by omega)))
      simp [hbit]
  · simp [hi]

variable {len : ℕ}

theorem lenInFlash_eq (cfg : Cfg) (h : len < 2 ^ 16) :
    lenInFlash cfg len = (len + (cfg.align - 1)) / cfg.align * cfg.align := by
  obtain ⟨k, hk, halign⟩ := cfg.align_pow
  have hpow : 2 ^ k ≤ 2 ^ 8 := Nat.pow_le_pow_right (by norm_num) hk.le
  rw [lenInFlash]
  split_ifs with hone
  · have hpos : 0 < 2 ^ k := Nat.two_pow_pos k
    have h1 : cfg.align = 1 := by omega
    rw [h1, Nat.sub_self, Nat.add_zero, Nat.div_one, Nat.mul_one]
  · rw [halign]
    exact and_neg_two_pow (by omega) (by omega)

theorem align_pos (cfg : Cfg) : 0 < cfg.align := by
  obtain ⟨k, -, halign⟩ := cfg.align_pow
  rw [halign]
  exact Nat.two_pow_pos k

theorem le_lenInFlash (cfg : Cfg) (h : len < 2 ^ 16) : len ≤ lenInFlash cfg len := by
  rw [lenInFlash_eq cfg h]
  have hpos := align_pos cfg
  have hdiv := Nat.div_add_mod (len + (cfg.align - 1)) cfg.align
  have hmod := Nat.mod_lt (len + (cfg.align - 1)) hpos
  rw [Nat.mul_comm] at hdiv
  omega

theorem lenInFlash_one (cfg : Cfg) : lenInFlash cfg 1 = cfg.align := by
  have hpos := align_pos cfg
  rw [lenInFlash_eq cfg (by norm_num), Nat.add_sub_cancel' hpos, Nat.div_self hpos, Nat.one_mul]

end align

/-! ### Lengths -/

section lengths

variable {len : ℕ}

theorem xor_not_self (x : UInt8) : x ^^^ ~~~x = 0xff := by
  rcases x with ⟨x⟩
  revert x
  decide +kernel

def lenBytes (cfg : Cfg) (len : ℕ) : List UInt8 := (putLen cfg len).getD []

def lenCnt (len : ℕ) : ℕ := if len < 0x80 then 1 else 2

theorem putLen_eq (h : len ≤ FCB_MAX_LEN) : putLen cfg len = some (lenBytes cfg len) := by
  rw [lenBytes, putLen]
  split_ifs <;> rfl

theorem length_lenBytes (h : len ≤ FCB_MAX_LEN) : (lenBytes cfg len).length = lenCnt len := by
  rw [lenBytes, putLen, lenCnt]
  split_ifs <;> rfl

theorem lenCnt_pos (len : ℕ) : 0 < lenCnt len ∧ lenCnt len ≤ 2 := by
  rw [lenCnt]
  split_ifs <;> omega

theorem getLen_erased (cfg : Cfg) : getLen cfg cfg.eraseValue cfg.eraseValue = none := by
  rw [getLen]
  dsimp only
  rw [xor_not_self, if_pos (by decide), if_pos ⟨rfl, rfl⟩]

theorem ofNat_and_high {n : ℕ} (h : n < 0x80) : UInt8.ofNat n &&& 0x80 = 0 := by
  revert n
  decide

theorem or_high_and (n : ℕ) : UInt8.ofNat (n ||| 0x80) &&& 0x80 ≠ 0 ∧
    (UInt8.ofNat (n ||| 0x80) &&& 0x7f).toNat = n % 2 ^ 7 := by
  have hmod : UInt8.ofNat (n ||| 0x80) = UInt8.ofNat (n % 2 ^ 8 ||| 0x80) := by
    rw [← UInt8.toNat_inj, UInt8.toNat_ofNat', UInt8.toNat_ofNat', Nat.or_mod_two_pow,
      Nat.or_mod_two_pow, Nat.mod_mod]
  have hsmall : ∀ m < 2 ^ 8, UInt8.ofNat (m ||| 0x80) &&& 0x80 ≠ 0 ∧
      (UInt8.ofNat (m ||| 0x80) &&& 0x7f).toNat = m % 2 ^ 7 := by decide +kernel
  obtain ⟨hne, heq⟩ := hsmall (n % 2 ^ 8) (Nat.mod_lt _ (by norm_num))
  rw [hmod]
  refine ⟨hne, heq.trans ?_⟩
  rw [Nat.mod_mod_of_dvd _ (by norm_num)]

/-- **A length reads back as written.** What stands behind it does not matter. -/
theorem getLen_putLen (cfg : Cfg) (h : len ≤ FCB_MAX_LEN) {buf : List UInt8} {buf0 buf1 : UInt8}
    (hput : putLen cfg len = some buf) (hbuf : buf <+: [buf0, buf1]) :
    getLen cfg buf0 buf1 = some (buf.length, len) := by
  rw [putLen] at hput
  rw [getLen]
  dsimp only
  by_cases hsmall : len < 0x80
  · rw [if_pos hsmall, Option.some.injEq] at hput
    subst hput
    obtain ⟨rfl, -⟩ := cons_prefix_cons.mp hbuf
    rw [xor_cancel_right, if_neg (by rw [ofNat_and_high hsmall]; decide), UInt8.toNat_ofNat',
      Nat.mod_eq_of_lt (by omega)]
    rfl
  rw [if_neg hsmall, if_pos h, Option.some.injEq] at hput
  subst hput
  obtain ⟨rfl, htail⟩ := cons_prefix_cons.mp hbuf
  obtain ⟨rfl, -⟩ := cons_prefix_cons.mp htail
  obtain ⟨hhigh, hlow⟩ := or_high_and len
  have hshift : len >>> 7 < 2 ^ 7 := by
    rw [Nat.shiftRight_eq_div_pow]
    rw [FCB_MAX_LEN] at h
    omega
  -- the second byte of a length is not the erase value
  have hne : ¬ (UInt8.ofNat (len ||| 0x80) ^^^ ~~~cfg.eraseValue = cfg.eraseValue ∧
      UInt8.ofNat (len >>> 7) ^^^ ~~~cfg.eraseValue = cfg.eraseValue) := by
    rintro ⟨-, heq⟩
    have hxor : UInt8.ofNat (len >>> 7) = 0xff := by
      rw [← xor_not_self cfg.eraseValue, ← xor_cancel_right (UInt8.ofNat (len >>> 7)), heq]
    have htoNat := congrArg UInt8.toNat hxor
    rw [UInt8.toNat_ofNat', Nat.mod_eq_of_lt (by omega)] at htoNat
    have : (0xff : UInt8).toNat = 255 := rfl
    omega
  have hor : len % 2 ^ 7 ||| (len >>> 7) <<< 7 = len := by
    rw [Nat.or_comm, ← Nat.shiftLeft_add_eq_or_of_lt (Nat.mod_lt _ (by norm_num)),
      Nat.shiftLeft_eq, Nat.shiftRight_eq_div_pow, Nat.div_add_mod']
  have hmod : (len >>> 7) % 2 ^ 8 = len >>> 7 := Nat.mod_eq_of_lt (by omega)
  rw [xor_cancel_right, xor_cancel_right, if_pos hhigh, if_neg hne, hlow, UInt8.toNat_ofNat', hmod,
    hor]
  rfl

end lengths

/-! ### Entries -/

structure Entry where
  sector : ℕ
  elemOff : ℕ
  dataOff : ℕ
  len : ℕ
  data : List UInt8
  finished : Bool
deriving DecidableEq

namespace Entry

/-- How `fcb_walk` presents an entry. -/
def loc (x : Entry) : Loc := ⟨x.sector, x.elemOff, x.dataOff, x.len⟩

def crc8 (cfg : Cfg) (x : Entry) : UInt8 := crc8Ccitt 0xff (lenBytes cfg x.len ++ x.data)

/-- End marker that `fcb_append_finish` writes. -/
def endmarker (cfg : Cfg) (x : Entry) : UInt8 :=
  if cfg.allowFixed ∧ cfg.crcDisabled then FCB_FIXED_ENDMARKER else x.crc8 cfg

def marker (cfg : Cfg) (x : Entry) : UInt8 :=
  if x.finished then x.endmarker cfg else cfg.eraseValue

/-- The end marker is one that `fcb_elem_info` accepts. -/
def Good (cfg : Cfg) (x : Entry) : Prop :=
  x.marker cfg = x.endmarker cfg ∨ (cfg.allowFixed = true ∧ x.marker cfg = x.crc8 cfg)

instance (cfg : Cfg) (x : Entry) : Decidable (x.Good cfg) :=
  inferInstanceAs (Decidable (_ ∨ _))

theorem Good.of_finished {x : Entry} (h : x.finished = true) : x.Good cfg :=
  .inl (if_pos h)

end Entry

def total (cfg : Cfg) (len : ℕ) : ℕ :=
  lenInFlash cfg (lenCnt len) + (lenInFlash cfg len + lenInFlash cfg 1)

/-- The entry `x` is what stands at the offset `off` of a sector. -/
structure EntryAt (cfg : Cfg) (size : ℕ) (m : Mem) (off : ℕ) (x : Entry) : Prop where
  elemOff : x.elemOff = off
  dataOff : x.dataOff = off + lenInFlash cfg (lenCnt x.len)
  len_le : x.len ≤ FCB_MAX_LEN
  fits : off + total cfg x.len ≤ size
  length : loadBytes m off (lenCnt x.len) = lenBytes cfg x.len
  data : loadBytes m x.dataOff x.len = x.data
  marker : m (x.dataOff + lenInFlash cfg x.len) = x.marker cfg

/-- The entries `xs` are what stands between two offsets of a sector. -/
def Elems (cfg : Cfg) (size : ℕ) (m : Mem) : ℕ → List Entry → ℕ → Prop
  | off, [], stop => off = stop
  | off, x :: xs, stop => EntryAt cfg size m off x ∧ Elems cfg size m (off + total cfg x.len) xs stop

section entries

variable {flash : Flash} {m m' : Mem} {size off stop s : ℕ} {x : Entry} {xs ys : List Entry}

@[simp] theorem elems_nil : Elems cfg size m off [] stop ↔ off = stop := Iff.rfl

@[simp] theorem elems_cons : Elems cfg size m off (x :: xs) stop ↔
    EntryAt cfg size m off x ∧ Elems cfg size m (off + total cfg x.len) xs stop := Iff.rfl

variable {len rounds : ℕ}

theorem lt_of_le_max (h : len ≤ FCB_MAX_LEN) : len < 2 ^ 16 := by
  rw [FCB_MAX_LEN] at h
  omega

theorem total_bounds (cfg : Cfg) (h : len ≤ FCB_MAX_LEN) :
    lenCnt len ≤ lenInFlash cfg (lenCnt len) ∧ len ≤ lenInFlash cfg len ∧ 0 < lenInFlash cfg 1 := by
  obtain ⟨hpos, hle⟩ := lenCnt_pos len
  refine ⟨le_lenInFlash cfg (by omega), le_lenInFlash cfg (lt_of_le_max h), ?_⟩
  rw [lenInFlash_one]
  exact align_pos cfg

theorem EntryAt.congr (h : EntryAt cfg size m off x)
    (heq : ∀ y, off ≤ y → y < off + total cfg x.len → m' y = m y) :
    EntryAt cfg size m' off x := by
  obtain ⟨hcnt, hlen, hone⟩ := total_bounds cfg h.len_le
  have hdata := h.dataOff
  rw [total] at heq
  refine ⟨h.elemOff, h.dataOff, h.len_le, h.fits, ?_, ?_, ?_⟩
  · rw [← h.length]
    exact loadBytes_congr fun y h1 h2 => heq y h1 (by omega)
  · rw [← h.data]
    exact loadBytes_congr fun y h1 h2 => heq y (by omega) (by omega)
  · rw [← h.marker]
    exact heq _ (by omega) (by omega)

theorem Elems.le (h : Elems cfg size m off xs stop) : off ≤ stop := by
  induction xs generalizing off with
  | nil => exact (elems_nil.mp h).le
  | cons x xs ih => exact (Nat.le_add_right _ _).trans (ih h.2)

theorem Elems.congr (h : Elems cfg size m off xs stop)
    (heq : ∀ y, off ≤ y → y < stop → m' y = m y) : Elems cfg size m' off xs stop := by
  induction xs generalizing off with
  | nil => exact h
  | cons x xs ih =>
    have hle := h.2.le
    exact ⟨h.1.congr fun y h1 h2 => heq y h1 (by omega), ih h.2 fun y h1 h2 => heq y (by omega) h2⟩

theorem elems_append : Elems cfg size m off (xs ++ ys) stop ↔
    ∃ mid, Elems cfg size m off xs mid ∧ Elems cfg size m mid ys stop := by
  induction xs generalizing off with
  | nil => simp
  | cons x xs ih => simp only [cons_append, elems_cons, ih, exists_and_left, and_assoc]

/-! ### What is read -/

theorem crc8Ccitt_append (v : UInt8) (xs ys : List UInt8) :
    crc8Ccitt v (xs ++ ys) = crc8Ccitt (crc8Ccitt v xs) ys :=
  foldl_append

theorem crc8Loop_spec {v : UInt8} (hsize : off + len ≤ cfg.size s) (hrounds : len ≤ rounds) :
    crc8Loop cfg flash s (off + len) rounds off v =
      some (crc8Ccitt v (loadBytes (flash s) off len)) := by
  induction rounds generalizing off len v with
  | zero =>
    obtain rfl : len = 0 := by omega
    rfl
  | succ rounds ih =>
    rw [crc8Loop]
    by_cases hlen : len = 0
    · rw [hlen, if_neg (by omega)]
      rfl
    rw [if_pos (by omega), Nat.add_sub_cancel_left]
    generalize hblk : min len 32 = blk
    obtain ⟨rest, rfl⟩ : ∃ rest, len = blk + rest := ⟨len - blk, by omega⟩
    simp only [flashRead, if_neg (by omega : ¬ off + blk > cfg.size s), Option.bind_eq_bind,
      Option.bind_some]
    rw [← Nat.add_assoc, ih (by omega) (by omega), loadBytes_add, crc8Ccitt_append]

theorem elemLen_entry (h : EntryAt cfg (cfg.size s) (flash s) off x) (d n : ℕ) :
    elemLen cfg flash ⟨s, off, d, n⟩ = .ok (lenCnt x.len, ⟨s, off, x.dataOff, x.len⟩) := by
  obtain ⟨hcnt, hlen, hone⟩ := total_bounds cfg h.len_le
  have hfits := h.fits
  have hput : putLen cfg x.len = some (lenBytes cfg x.len) := putLen_eq h.len_le
  have hbuf : lenBytes cfg x.len <+: [flash s off, flash s (off + 1)] := by
    have htwo : loadBytes (flash s) off 2 = [flash s off, flash s (off + 1)] := rfl
    obtain ⟨r, hr⟩ := Nat.exists_eq_add_of_le (lenCnt_pos x.len).2
    rw [← h.length, ← htwo, hr, loadBytes_add]
    exact prefix_append _ _
  have hget := getLen_putLen cfg h.len_le hput hbuf
  rw [length_lenBytes h.len_le] at hget
  have hcnt' := (lenCnt_pos x.len).1
  rw [elemLen, if_neg (by rw [total] at hfits; dsimp only; omega)]
  dsimp only
  rw [hget, h.dataOff]

theorem elemCrc8_entry (h : EntryAt cfg (cfg.size s) (flash s) off x) (d n : ℕ) :
    elemCrc8 cfg flash ⟨s, off, d, n⟩ = (0, ⟨s, off, x.dataOff, x.len⟩, x.crc8 cfg) := by
  obtain ⟨hcnt, hlen, hone⟩ := total_bounds cfg h.len_le
  have hfits := h.fits
  have hdata := h.dataOff
  rw [total] at hfits
  rw [elemCrc8, elemLen_entry h]
  dsimp only
  rw [crc8Loop_spec (by omega) (le_refl _)]
  dsimp only
  rw [h.length, h.data, ← crc8Ccitt_append, Entry.crc8]

theorem elemEndmarker_entry (h : EntryAt cfg (cfg.size s) (flash s) off x) (d n : ℕ) :
    elemEndmarker cfg flash ⟨s, off, d, n⟩ = (0, ⟨s, off, x.dataOff, x.len⟩, x.endmarker cfg) := by
  rw [elemEndmarker, Entry.endmarker]
  split_ifs
  · rw [elemEndmarkerFixed, elemLen_entry h]
  · exact elemCrc8_entry h d n

/-- **What is found at an entry.** -/
theorem elemInfo_entry (h : EntryAt cfg (cfg.size s) (flash s) off x) (d n : ℕ) :
    elemInfo cfg flash ⟨s, off, d, n⟩ =
      (if x.Good cfg then 0 else -EBADMSG, ⟨s, off, x.dataOff, x.len⟩) := by
  obtain ⟨hcnt, hlen, hone⟩ := total_bounds cfg h.len_le
  have hfits := h.fits
  have hdata := h.dataOff
  rw [total] at hfits
  have hread : flashRead cfg flash s (x.dataOff + lenInFlash cfg x.len) 1 =
      some [x.marker cfg] := by
    rw [flashRead, if_neg (by omega), ← h.marker]
    rfl
  rw [elemInfo, elemEndmarker_entry h]
  dsimp only
  rw [if_neg (by simp), hread]
  dsimp only
  rw [elemCrc8_entry h]
  dsimp only
  simp only [ne_eq, List.cons.injEq, and_true, not_true_eq_false, if_false, Entry.Good]
  split_ifs <;> simp_all

/-- **What is found behind the last entry.** -/
theorem elemInfo_erased (hrest : ∀ y, off ≤ y → y < cfg.size s → flash s y = cfg.eraseValue)
    (d n : ℕ) : elemInfo cfg flash ⟨s, off, d, n⟩ = (-ENOTSUP, ⟨s, off, d, n⟩) := by
  have hlen : elemLen cfg flash ⟨s, off, d, n⟩ = .error (-ENOTSUP) := by
    rw [elemLen]
    split_ifs with hend
    · rfl
    · dsimp only at hend ⊢
      rw [hrest off (le_refl _) (by omega), hrest (off + 1) (by omega) (by omega), getLen_erased]
  have hmarker : elemEndmarker cfg flash ⟨s, off, d, n⟩ = (-ENOTSUP, ⟨s, off, d, n⟩, 0) := by
    rw [elemEndmarker]
    split_ifs
    · rw [elemEndmarkerFixed, hlen]
    · rw [elemCrc8, hlen]
  rw [elemInfo, hmarker]
  dsimp only
  rw [if_pos (by decide)]

/-! ### Going through a sector -/

/-- The result is the first good entry of `xs`, or the offset behind all of them. -/
def Lands (cfg : Cfg) (s stop : ℕ) (xs : List Entry) (r : ℤ × Loc) : Prop :=
  (∃ pre x post, xs = pre ++ x :: post ∧ (∀ y ∈ pre, ¬ y.Good cfg) ∧ x.Good cfg ∧
    r = (0, ⟨s, x.elemOff, x.dataOff, x.len⟩)) ∨
  ((∀ y ∈ xs, ¬ y.Good cfg) ∧ r.1 = -ENOTSUP ∧ r.2.sector = s ∧ r.2.elemOff = stop)

theorem Lands.cons_bad {r : ℤ × Loc} (hx : ¬ x.Good cfg) (h : Lands cfg s stop xs r) :
    Lands cfg s stop (x :: xs) r := by
  rcases h with ⟨pre, y, post, rfl, hpre, hy, rfl⟩ | ⟨hall, hr⟩
  · exact .inl ⟨x :: pre, y, post, rfl, forall_mem_cons.mpr ⟨hx, hpre⟩, hy, rfl⟩
  · exact .inr ⟨forall_mem_cons.mpr ⟨hx, hall⟩, hr⟩

theorem Elems.length_le (h : Elems cfg size m off xs stop) : off + xs.length ≤ stop := by
  induction xs generalizing off with
  | nil => exact (elems_nil.mp h).le
  | cons x xs ih =>
    have hlen := ih h.2
    obtain ⟨-, -, hone⟩ := total_bounds cfg h.1.len_le
    rw [total] at hlen
    rw [length_cons]
    omega

theorem Elems.stop_le (h : Elems cfg size m off xs stop) (hne : xs ≠ []) : stop ≤ size := by
  induction xs generalizing off with
  | nil => exact absurd rfl hne
  | cons x xs ih =>
    cases xs with
    | nil =>
      rw [← elems_nil.mp h.2]
      exact h.1.fits
    | cons y ys => exact ih h.2 (by simp)

theorem Elems.length_le_size (h : Elems cfg size m off xs stop) : xs.length ≤ size := by
  rcases xs with _ | ⟨x, xs⟩
  · exact Nat.zero_le _
  have hlen := h.length_le
  have hstop := h.stop_le (by simp)
  omega

theorem nextLoop_spec {l : Loc} (h : Elems cfg (cfg.size s) (flash s) off xs stop)
    (hrest : ∀ y, stop ≤ y → y < cfg.size s → flash s y = cfg.eraseValue) (hs : l.sector = s)
    (hoff : l.dataOff + lenInFlash cfg l.dataLen + lenInFlash cfg 1 = off)
    (hrounds : xs.length < rounds) : Lands cfg s stop xs (nextLoop cfg flash rounds l) := by
  induction xs generalizing off rounds l with
  | nil =>
    rcases rounds with _ | rounds
    · omega
    cases elems_nil.mp h
    rw [nextLoop, hoff, hs, elemInfo_erased hrest]
    exact .inr ⟨by simp, rfl, rfl, rfl⟩
  | cons x xs ih =>
    rcases rounds with _ | rounds
    · omega
    have hlen : xs.length < rounds := by simpa using hrounds
    rw [nextLoop, hoff, hs, elemInfo_entry h.1]
    dsimp only
    by_cases hgood : x.Good cfg
    · rw [if_pos hgood, if_neg (by decide), ← h.1.elemOff]
      exact .inl ⟨[], x, xs, rfl, by simp, hgood, rfl⟩
    rw [if_neg hgood, if_pos rfl]
    have hnext : x.dataOff + lenInFlash cfg x.len + lenInFlash cfg 1 = off + total cfg x.len := by
      rw [h.1.dataOff, total]
      omega
    exact (ih h.2 rfl hnext hlen).cons_bad hgood

theorem getnextInSector_spec (h : Elems cfg (cfg.size s) (flash s) off (x :: xs) stop)
    (hrest : ∀ y, stop ≤ y → y < cfg.size s → flash s y = cfg.eraseValue) (d n : ℕ) :
    Lands cfg s stop xs (getnextInSector cfg flash ⟨s, off, d, n⟩) := by
  have hrc : (if x.Good cfg then 0 else -EBADMSG : ℤ) = 0 ∨
      (if x.Good cfg then 0 else -EBADMSG : ℤ) = -EBADMSG := by
    split_ifs
    · exact .inl rfl
    · exact .inr rfl
  have hlen := h.length_le_size
  have hnext : x.dataOff + lenInFlash cfg x.len + lenInFlash cfg 1 = off + total cfg x.len := by
    rw [h.1.dataOff, total]
    omega
  rw [getnextInSector, elemInfo_entry h.1]
  dsimp only
  rw [if_pos hrc]
  exact nextLoop_spec h.2 hrest rfl hnext (by rw [length_cons] at hlen; omega)

theorem getnextInSector_erased (hrest : ∀ y, off ≤ y → y < cfg.size s → flash s y = cfg.eraseValue)
    (d n : ℕ) : getnextInSector cfg flash ⟨s, off, d, n⟩ = (-ENOTSUP, ⟨s, off, d, n⟩) := by
  rw [getnextInSector, elemInfo_erased hrest]
  dsimp only
  rw [if_neg (by decide)]

theorem endLoop_spec {d n : ℕ} (h : Elems cfg (cfg.size s) (flash s) off xs stop)
    (hrest : ∀ y, stop ≤ y → y < cfg.size s → flash s y = cfg.eraseValue)
    (hrounds : xs.length < rounds) :
    ∃ loc, endLoop cfg flash rounds ⟨s, off, d, n⟩ = (0, loc) ∧ loc.elemOff = stop := by
  induction rounds generalizing off xs d n with
  | zero => omega
  | succ rounds ih =>
    rw [endLoop]
    rcases xs with _ | ⟨x, xs⟩
    · cases elems_nil.mp h
      rw [getnextInSector_erased hrest]
      exact ⟨_, rfl, rfl⟩
    have hlands := getnextInSector_spec h hrest d n
    generalize getnextInSector cfg flash ⟨s, off, d, n⟩ = r at hlands
    rcases hlands with ⟨pre, y, post, rfl, -, -, rfl⟩ | ⟨-, hrc, hsec, hstop⟩
    · obtain ⟨mid, -, hpost⟩ := elems_append.mp h.2
      rw [← hpost.1.elemOff] at hpost
      have hlen : (y :: post).length < rounds := by
        simp only [length_cons, length_append] at hrounds ⊢
        omega
      exact ih hpost hlen
    · obtain ⟨rc, loc⟩ := r
      dsimp only at hrc hstop ⊢
      rw [if_pos hrc]
      exact ⟨loc, rfl, hstop⟩

end entries

end Fcb

end TlZephyr
