import TlZephyr.Lib.Ring
import TlZephyr.FcbSector

/-!
# Ring of Sectors

The sectors taken into use are numbered from 0 on: number `n` is sector `n % sectorCnt` of the
array and has the id `n % 2 ^ 16`. In use are the numbers from `first` on, `k + 1` of them, and the
last is the active one (`Rep`). All other sectors are erased.

`Sys` is a flash circular buffer with the log of what was appended and not rotated out, and `exec`
what an application does with it.
-/

namespace TlZephyr

open List Option Function

namespace Fcb

open Memory LittleEndian

variable {cfg : Cfg}

/-! ### Headers -/

def hdrBytes (cfg : Cfg) (id : ℕ) : List UInt8 :=
  leBytes 4 (flashMagic cfg) ++ [cfg.version, cfg.eraseValue] ++ leBytes 2 id

/-- A sector with this id that holds the entries `xs`, and is erased behind them. -/
structure SectorRep (cfg : Cfg) (size : ℕ) (m : Mem) (id : ℕ) (xs : List Entry) (top : ℕ) : Prop where
  header : loadBytes m 0 8 = hdrBytes cfg id
  elems : Elems cfg size m (hdrLen cfg) xs top
  erased : ∀ y, top ≤ y → y < size → m y = cfg.eraseValue

section header

variable {flash : Flash} {s id size top : ℕ} {m m' : Mem} {xs : List Entry}

@[simp] theorem length_hdrBytes : (hdrBytes cfg id).length = 8 := by simp [hdrBytes]

theorem mk32_lt (v : UInt8) : mk32 v < 2 ^ 32 := by
  have hlt := leValue_lt [v, v, v, v]
  rw [← mk32] at hlt
  exact hlt.trans_eq (by norm_num)

theorem xor_complement {y : ℕ} (h : y < 2 ^ 32) : y ^^^ (2 ^ 32 - 1 - y) = 2 ^ 32 - 1 := by
  refine Nat.eq_of_testBit_eq fun i => ?_
  rw [Nat.sub_sub, Nat.add_comm 1 y, Nat.testBit_xor, Nat.testBit_two_pow_sub_succ h,
    Nat.testBit_two_pow_sub_one]
  by_cases hi : i < 32
  · simp [hi]
  · have hbit : y.testBit i = false :=
      Nat.testBit_lt_two_pow (h.trans_le (Nat.pow_le_pow_right (by norm_num) (by omega)))
    simp [hi, hbit]

theorem flashMagic_lt (cfg : Cfg) : flashMagic cfg < 2 ^ 32 := by
  have hmagic := cfg.magic_lt
  exact Nat.xor_lt_two_pow (by omega) (by omega)

theorem flashMagic_ne (cfg : Cfg) : flashMagic cfg ≠ mk32 cfg.eraseValue := by
  intro heq
  have hmagic : cfg.magic = mk32 cfg.eraseValue ^^^ (2 ^ 32 - 1 - mk32 cfg.eraseValue) := by
    nth_rewrite 1 [← heq]
    rw [flashMagic, Nat.xor_xor_cancel_right]
  rw [xor_complement (mk32_lt _)] at hmagic
  exact cfg.magic_lt.ne hmagic

theorem sectorHdrRead_header (hid : id < 2 ^ 16) (hsize : 8 ≤ cfg.size s)
    (h : loadBytes (flash s) 0 8 = hdrBytes cfg id) :
    sectorHdrRead cfg flash s = .ok (some id) := by
  rw [sectorHdrRead, flashRead, if_neg (by omega), h]
  dsimp only
  have htake : (hdrBytes cfg id).take 4 = leBytes 4 (flashMagic cfg) := by
    rw [hdrBytes, append_assoc]
    exact take_left' (length_leBytes _ _)
  have hdrop : (hdrBytes cfg id).drop 6 = leBytes 2 id := drop_left' (by simp)
  rw [htake, hdrop, leValue_leBytes_of_lt (flashMagic_lt cfg), leValue_leBytes_of_lt hid,
    if_neg (flashMagic_ne cfg), if_neg (by simp)]

theorem sectorHdrRead_erased (hsize : 8 ≤ cfg.size s)
    (h : ∀ y < cfg.size s, flash s y = cfg.eraseValue) : sectorHdrRead cfg flash s = .ok none := by
  have htake : (loadBytes (flash s) 0 8).take 4 =
      [cfg.eraseValue, cfg.eraseValue, cfg.eraseValue, cfg.eraseValue] := by
    have h0 := h 0 (by omega)
    have h1 := h 1 (by omega)
    have h2 := h 2 (by omega)
    have h3 := h 3 (by omega)
    rw [show 8 = 4 + 4 from rfl, loadBytes_add, take_left' (length_loadBytes _ _ _)]
    simp [loadBytes, range_succ, h0, h1, h2, h3]
  rw [sectorHdrRead, flashRead, if_neg (by omega)]
  dsimp only
  rw [htake, ← mk32, if_pos rfl]

theorem le_hdrLen (cfg : Cfg) : 8 ≤ hdrLen cfg := le_lenInFlash cfg (by norm_num)

variable {a len o : ℕ} {x : Entry}

theorem SectorRep.replace {xs : List Entry} (ys zs : List Entry) {b top' : ℕ}
    (h : loadBytes m 0 8 = hdrBytes cfg id) (hxs : Elems cfg size m (hdrLen cfg) xs a)
    (hys : Elems cfg size m' a ys b) (hzs : Elems cfg size m' b zs top')
    (hlow : ∀ y < a, m' y = m y)
    (herased : ∀ y, top' ≤ y → y < size → m' y = cfg.eraseValue) :
    SectorRep cfg size m' id (xs ++ (ys ++ zs)) top' := by
  have hhdr := le_hdrLen cfg
  have hle := hxs.le
  refine ⟨?_, ?_, herased⟩
  · rw [← h]
    exact loadBytes_congr fun y _ hy => hlow y (by omega)
  · exact elems_append.mpr ⟨a, hxs.congr fun y _ hy => hlow y hy, elems_append.mpr ⟨b, hys, hzs⟩⟩

def paddedLen (cfg : Cfg) (len : ℕ) : List UInt8 :=
  lenBytes cfg len ++ List.replicate (lenInFlash cfg (lenCnt len) - lenCnt len) cfg.eraseValue

theorem length_paddedLen (cfg : Cfg) (hlen : len ≤ FCB_MAX_LEN) :
    (paddedLen cfg len).length = lenInFlash cfg (lenCnt len) := by
  have hcnt := (total_bounds cfg hlen).1
  rw [paddedLen, length_append, length_replicate, length_lenBytes hlen]
  omega

/-- An entry right after `fcb_append`. -/
def freshEntry (cfg : Cfg) (s off len : ℕ) : Entry :=
  ⟨s, off, off + lenInFlash cfg (lenCnt len), len, List.replicate len cfg.eraseValue, false⟩

theorem loadBytes_const {v : UInt8} {n : ℕ} (h : ∀ y, a ≤ y → y < a + n → m y = v) :
    loadBytes m a n = List.replicate n v := by
  refine eq_replicate_iff.mpr ⟨length_loadBytes _ _ _, fun b hb => ?_⟩
  obtain ⟨i, hi, rfl⟩ := List.mem_map.mp hb
  have := mem_range.mp hi
  exact h _ (by omega) (by omega)

theorem SectorRep.append (h : SectorRep cfg size m id xs top) (hlen : len ≤ FCB_MAX_LEN)
    (hfits : top + total cfg len ≤ size) :
    SectorRep cfg size (storeBytes m top (paddedLen cfg len)) id
      (xs ++ [freshEntry cfg s top len]) (top + total cfg len) := by
  obtain ⟨hcnt, hle, hone⟩ := total_bounds cfg hlen
  have hbytes := length_paddedLen cfg hlen
  have htotal := total.eq_1 cfg len
  have herased : ∀ y, top + lenInFlash cfg (lenCnt len) ≤ y → y < size →
      storeBytes m top (paddedLen cfg len) y = cfg.eraseValue := by
    intro y hy1 hy2
    rw [storeBytes_of_notMem (.inr (by omega))]
    exact h.erased y (by omega) hy2
  have hload : loadBytes (storeBytes m top (paddedLen cfg len)) top (lenCnt len) =
      lenBytes cfg len := by
    have hall := loadBytes_storeBytes m top (paddedLen cfg len)
    obtain ⟨r, hr⟩ := Nat.exists_eq_add_of_le hcnt
    rw [hbytes, hr, loadBytes_add, paddedLen] at hall
    exact (append_inj hall (by rw [length_loadBytes, length_lenBytes hlen])).1
  have hentry : EntryAt cfg size (storeBytes m top (paddedLen cfg len)) top
      (freshEntry cfg s top len) :=
    { elemOff := rfl
      dataOff := rfl
      len_le := hlen
      fits := hfits
      length := hload
      data := loadBytes_const fun y h1 h2 => herased y h1 (by simp only [freshEntry] at h2; omega)
      marker := herased _ (by simp only [freshEntry]; omega) (by simp only [freshEntry]; omega) }
  have hrest := SectorRep.replace [freshEntry cfg s top len] []
    h.header h.elems ⟨hentry, rfl⟩ rfl
    (fun y hy => storeBytes_of_notMem (.inl hy)) (fun y hy1 hy2 => herased y (by
      simp only [freshEntry] at hy1
      omega) hy2)
  simpa [freshEntry] using hrest

theorem SectorRep.modify {pre post : List Entry} {x' : Entry}
    (h : SectorRep cfg size m id (pre ++ x :: post) top) (hlen : x'.len = x.len)
    (hentry : EntryAt cfg size m x.elemOff x → EntryAt cfg size m' x.elemOff x')
    (hsame : ∀ y, y < x.elemOff ∨ x.elemOff + total cfg x.len ≤ y → m' y = m y) :
    SectorRep cfg size m' id (pre ++ x' :: post) top := by
  obtain ⟨a, hpre, hx, hpost⟩ := elems_append.mp h.elems
  have hstop := hpost.le
  have hoff := hx.elemOff
  subst hoff
  refine SectorRep.replace [x'] post h.header hpre ⟨hentry hx, rfl⟩ ?_
    (fun y hy => hsame y (.inl hy)) fun y hy1 hy2 => ?_
  · rw [hlen]
    exact hpost.congr fun y hy _ => hsame y (.inr hy)
  · rw [hsame y (.inr (by omega))]
    exact h.erased y hy1 hy2

theorem EntryAt.write {off : ℕ} {bs : List UInt8} (h : EntryAt cfg size m o x)
    (hopen : x.finished = false) (hle : off + bs.length ≤ x.len) :
    EntryAt cfg size (storeBytes m (x.dataOff + off) bs) o
      { x with data := splice x.data off bs } := by
  obtain ⟨hcnt, hlen, hone⟩ := total_bounds cfg h.len_le
  have hoff := h.dataOff
  refine ⟨h.elemOff, h.dataOff, h.len_le, h.fits, ?_, ?_, ?_⟩
  · rw [loadBytes_storeBytes_of_disjoint (.inl (by dsimp only; omega))]
    exact h.length
  · dsimp only
    rw [loadBytes_storeBytes_inside hle, h.data]
  · dsimp only
    rw [storeBytes_of_notMem (.inr (by omega)), h.marker, Entry.marker, Entry.marker, hopen]
    rfl

theorem EntryAt.finish (h : EntryAt cfg size m o x) (bs : List UInt8) :
    EntryAt cfg size (storeBytes m (x.dataOff + lenInFlash cfg x.len) (x.endmarker cfg :: bs)) o
      { x with finished := true } := by
  obtain ⟨hcnt, hlen, hone⟩ := total_bounds cfg h.len_le
  have hoff := h.dataOff
  refine ⟨h.elemOff, h.dataOff, h.len_le, h.fits, ?_, ?_, ?_⟩
  · rw [loadBytes_storeBytes_of_disjoint (.inl (by dsimp only; omega))]
    exact h.length
  · rw [loadBytes_storeBytes_of_disjoint (.inl (by dsimp only; omega))]
    exact h.data
  · simp [storeBytes, Entry.marker, Entry.endmarker, Entry.crc8]

end header

/-! ### Sectors in use -/

/-- Number `n` is sector `n % sectorCnt`; `k` numbers are in use, with the entries `els n` up to
`top n`. -/
structure Layout (cfg : Cfg) (flash : Flash) (first k : ℕ) (els : ℕ → List Entry) (top : ℕ → ℕ) :
    Prop where
  le : k ≤ cfg.sectorCnt
  used : ∀ n, first ≤ n → n < first + k → SectorRep cfg (cfg.size (n % cfg.sectorCnt))
    (flash (n % cfg.sectorCnt)) (n % 2 ^ 16) (els n) (top n)
  sector : ∀ n, first ≤ n → n < first + k → ∀ x ∈ els n, x.sector = n % cfg.sectorCnt
  free : ∀ n, first + k ≤ n → n < first + cfg.sectorCnt → ∀ y < cfg.size (n % cfg.sectorCnt),
    flash (n % cfg.sectorCnt) y = cfg.eraseValue

section layout

variable {flash : Flash} {first k n : ℕ} {els : ℕ → List Entry} {top : ℕ → ℕ} {m : Mem}

theorem cnt_pos (cfg : Cfg) : 0 < cfg.sectorCnt := Nat.lt_of_le_of_lt (Nat.zero_le _) cfg.scratch_lt

theorem mod_ne {a b c : ℕ} (hab : a ≠ b) (ha : a < b + c) (hb : b < a + c) : a % c ≠ b % c := by
  rcases Nat.lt_or_gt_of_ne hab with hlt | hlt
  · have hne := Ring.mod_ne_mod (r := 0) hlt hb
    rwa [Nat.zero_add, Nat.zero_add] at hne
  · have hne := Ring.mod_ne_mod (r := 0) hlt ha
    rw [Nat.zero_add, Nat.zero_add] at hne
    exact hne.symm

theorem getnextSector_mod (cfg : Cfg) (n : ℕ) :
    getnextSector cfg (n % cfg.sectorCnt) = (n + 1) % cfg.sectorCnt := by
  have hpos := cnt_pos cfg
  have hlt := Nat.mod_lt n hpos
  rw [getnextSector, ← Nat.mod_add_mod n]
  split_ifs with hend
  · have heq : n % cfg.sectorCnt + 1 = cfg.sectorCnt := by omega
    rw [heq, Nat.mod_self]
  · exact (Nat.mod_eq_of_lt (by omega)).symm

theorem Layout.put (h : Layout cfg flash first k els top) (h1 : first ≤ n) (h2 : n < first + k)
    {xs : List Entry} {t : ℕ}
    (hrep : SectorRep cfg (cfg.size (n % cfg.sectorCnt)) m (n % 2 ^ 16) xs t)
    (hsec : ∀ x ∈ xs, x.sector = n % cfg.sectorCnt) :
    Layout cfg (Function.update flash (n % cfg.sectorCnt) m) first k (Function.update els n xs)
      (Function.update top n t) := by
  have hle := h.le
  refine ⟨h.le, fun j hj1 hj2 => ?_, fun j hj1 hj2 => ?_, fun j hj1 hj2 y hy => ?_⟩
  · rcases eq_or_ne j n with rfl | hne
    · simpa only [update_self] using hrep
    · have hmod := mod_ne (c := cfg.sectorCnt) hne (by omega) (by omega)
      rw [update_of_ne hmod, update_of_ne hne, update_of_ne hne]
      exact h.used j hj1 hj2
  · rcases eq_or_ne j n with rfl | hne
    · simpa only [update_self] using hsec
    · rw [update_of_ne hne]
      exact h.sector j hj1 hj2
  · have hmod := mod_ne (c := cfg.sectorCnt) (by omega : j ≠ n) (by omega) (by omega)
    rw [update_of_ne hmod]
    exact h.free j hj1 hj2 y hy

/-- **The first sector is erased.** -/
theorem Layout.erase (h : Layout cfg flash first (k + 1) els top) :
    Layout cfg (eraseSector cfg flash (first % cfg.sectorCnt)) (first + 1) k els top := by
  have hle := h.le
  refine ⟨by omega, fun j hj1 hj2 => ?_, fun j hj1 hj2 => h.sector j (by omega) (by omega),
    fun j hj1 hj2 y hy => ?_⟩
  · have hmod := mod_ne (c := cfg.sectorCnt) (by omega : j ≠ first) (by omega) (by omega)
    rw [eraseSector, update_of_ne hmod]
    exact h.used j (by omega) (by omega)
  rcases Nat.lt_or_ge j (first + cfg.sectorCnt) with hlt | hge
  · have hmod := mod_ne (c := cfg.sectorCnt) (by omega : j ≠ first) (by omega) (by omega)
    rw [eraseSector, update_of_ne hmod]
    exact h.free j (by omega) hlt y hy
  · obtain rfl : j = first + cfg.sectorCnt := by omega
    rw [Nat.add_mod_right, eraseSector, update_self]

/-- **The sector behind the last one is taken into use.** -/
theorem Layout.start (h : Layout cfg flash first k els top) (hfree : k < cfg.sectorCnt) :
    ∃ flash', sectorHdrInit cfg flash ((first + k) % cfg.sectorCnt) ((first + k) % 2 ^ 16) =
        some flash' ∧
      Layout cfg flash' first (k + 1) (Function.update els (first + k) [])
        (Function.update top (first + k) (hdrLen cfg)) := by
  have hsize := cfg.header_le ((first + k) % cfg.sectorCnt) (Nat.mod_lt _ (cnt_pos cfg))
  have hlen : (hdrBytes cfg ((first + k) % 2 ^ 16)).length = 8 := length_hdrBytes
  have hhdr := le_hdrLen cfg
  refine ⟨_, by rw [sectorHdrInit, ← hdrBytes, flashWrite, if_neg (by omega)], by omega,
    fun j hj1 hj2 => ?_, fun j hj1 hj2 => ?_, fun j hj1 hj2 y hy => ?_⟩
  · rcases eq_or_ne j (first + k) with rfl | hne
    · simp only [update_self]
      refine ⟨loadBytes_storeBytes_of_length _ _ hlen, rfl, fun y hy1 hy2 => ?_⟩
      rw [storeBytes_of_notMem (by omega)]
      exact h.free _ (le_refl _) (by omega) y hy2
    · have hmod := mod_ne (c := cfg.sectorCnt) hne (by omega) (by omega)
      rw [update_of_ne hmod, update_of_ne hne, update_of_ne hne]
      exact h.used j hj1 (by omega)
  · rcases eq_or_ne j (first + k) with rfl | hne
    · simp
    · rw [update_of_ne hne]
      exact h.sector j hj1 (by omega)
  · have hmod := mod_ne (c := cfg.sectorCnt) (by omega : j ≠ first + k) (by omega) (by omega)
    rw [update_of_ne hmod]
    exact h.free j (by omega) hj2 y hy

end layout

/-! ### State -/

/-- The numbers from `first` to `first + k` are in use, and the last one is active. -/
structure Rep (cfg : Cfg) (fcb : State) (first k : ℕ) (els : ℕ → List Entry) (top : ℕ → ℕ) :
    Prop where
  layout : Layout cfg fcb.flash first (k + 1) els top
  oldest : fcb.oldest = first % cfg.sectorCnt
  activeSector : fcb.activeSector = (first + k) % cfg.sectorCnt
  activeId : fcb.activeId = (first + k) % 2 ^ 16
  activeOff : fcb.activeOff = top (first + k)

def entries (els : ℕ → List Entry) (first k : ℕ) : List Entry := (List.range' first k).flatMap els

section entries

variable {els els' : ℕ → List Entry} {first k n : ℕ} {xs : List Entry} {x : Entry}

@[simp] theorem entries_zero : entries els first 0 = [] := rfl

theorem entries_succ : entries els first (k + 1) = els first ++ entries els (first + 1) k := by
  rw [entries, List.range'_succ, flatMap_cons]
  rfl

theorem entries_snoc : entries els first (k + 1) = entries els first k ++ els (first + k) := by
  rw [entries, List.range'_1_concat, flatMap_append, flatMap_singleton]
  rfl

theorem mem_entries : x ∈ entries els first k ↔ ∃ n, first ≤ n ∧ n < first + k ∧ x ∈ els n := by
  simp only [entries, mem_flatMap, mem_range'_1, and_assoc]

theorem entries_congr (h : ∀ n, first ≤ n → n < first + k → els' n = els n) :
    entries els' first k = entries els first k := by
  refine flatMap_congr fun n hn => ?_
  rw [mem_range'_1] at hn
  exact h n hn.1 hn.2

theorem entries_update_of_lt (hn : n < first ∨ first + k ≤ n) :
    entries (Function.update els n xs) first k = entries els first k :=
  entries_congr fun j h1 h2 => update_of_ne (by omega) _ _

theorem entries_set {j : ℕ} (h : (entries els first k)[j]? = some x) (x' : Entry) :
    ∃ n pre post, first ≤ n ∧ n < first + k ∧ els n = pre ++ x :: post ∧
      entries (Function.update els n (pre ++ x' :: post)) first k =
        (entries els first k).set j x' := by
  induction k generalizing first j with
  | zero => simp at h
  | succ k ih =>
    rw [entries_succ] at h ⊢
    rcases Nat.lt_or_ge j (els first).length with hlt | hge
    · rw [List.getElem?_append_left hlt] at h
      obtain ⟨hj, hx⟩ := List.getElem?_eq_some_iff.mp h
      refine ⟨first, (els first).take j, (els first).drop (j + 1), le_refl _, by omega, ?_, ?_⟩
      · rw [← hx, cons_getElem_drop_succ, take_append_drop]
      · rw [entries_succ, update_self, entries_update_of_lt (by omega),
          set_append_left _ _ hlt, set_eq_take_append_cons_drop, if_pos hlt]
    · rw [List.getElem?_append_right hge] at h
      obtain ⟨n, pre, post, h1, h2, hels, hset⟩ := ih h
      refine ⟨n, pre, post, by omega, by omega, hels, ?_⟩
      rw [entries_succ, update_of_ne (by omega), hset, set_append_right _ _ hge]

end entries

section ops

variable {fcb : State} {first k : ℕ} {els : ℕ → List Entry} {top : ℕ → ℕ}

theorem activate_spec (fcb : State) (h : Layout cfg fcb.flash first k els top) (hfree : k < cfg.sectorCnt)
    (hid : (fcb.activeId + 1) % 2 ^ 16 = (first + k) % 2 ^ 16) :
    ∃ fcb', activate cfg fcb ((first + k) % cfg.sectorCnt) = some fcb' ∧ fcb'.oldest = fcb.oldest ∧
      ∀ o, o = first % cfg.sectorCnt → Rep cfg { fcb' with oldest := o } first k
        (Function.update els (first + k) []) (Function.update top (first + k) (hdrLen cfg)) := by
  obtain ⟨flash', hinit, hlayout⟩ := h.start hfree
  refine ⟨⟨fcb.oldest, (first + k) % cfg.sectorCnt, hdrLen cfg, (first + k) % 2 ^ 16, flash'⟩, ?_,
    rfl, ?_⟩
  · simp only [activate, hid, hinit, bind_eq_bind, bind_some, Option.pure_def]
  · rintro o rfl
    exact ⟨hlayout, rfl, rfl, rfl, by rw [update_self]⟩

variable {cnt s : ℕ}

theorem newSector_spec (h : Rep cfg fcb first k els top) (hnew : newSector cfg fcb cnt = some s) :
    s = (first + (k + 1)) % cfg.sectorCnt ∧ k + 1 < cfg.sectorCnt := by
  rw [newSector] at hnew
  split_ifs at hnew with hloop
  have hnext : getnextSector cfg fcb.activeSector ≠ fcb.oldest := by
    cases cnt with
    | zero => simpa [newSectorLoop] using hloop
    | succ cnt =>
      rw [newSectorLoop, Bool.and_eq_true] at hloop
      simpa using hloop.1
  rw [h.activeSector, getnextSector_mod, Nat.add_assoc] at hnew hnext
  refine ⟨(Option.some.inj hnew).symm, ?_⟩
  by_contra hnot
  have hle := h.layout.le
  obtain hfull : k + 1 = cfg.sectorCnt := by omega
  rw [h.oldest, hfull, Nat.add_mod_right] at hnext
  exact hnext rfl

theorem Rep.activate (h : Rep cfg fcb first k els top) (hnew : newSector cfg fcb cnt = some s) :
    ∃ fcb', Fcb.activate cfg fcb s = some fcb' ∧ Rep cfg fcb' first (k + 1)
      (Function.update els (first + (k + 1)) [])
      (Function.update top (first + (k + 1)) (hdrLen cfg)) := by
  obtain ⟨rfl, hfree⟩ := newSector_spec h hnew
  obtain ⟨fcb', hact, hold, hrep⟩ := activate_spec fcb h.layout hfree (by
    rw [h.activeId, Nat.mod_add_mod, Nat.add_assoc])
  exact ⟨fcb', hact, hrep fcb'.oldest (hold.trans h.oldest)⟩

theorem Rep.appendHere {len : ℕ} (h : Rep cfg fcb first k els top) (hlen : len ≤ FCB_MAX_LEN)
    (hfits : fcb.activeOff + total cfg len ≤ cfg.size fcb.activeSector) :
    ∃ x fcb', Fcb.appendHere cfg fcb (paddedLen cfg len) (lenInFlash cfg len + lenInFlash cfg 1) =
        (0, ⟨x.sector, x.elemOff, x.dataOff, 0⟩, fcb') ∧
      x = freshEntry cfg x.sector x.elemOff len ∧
      Rep cfg fcb' first k (Function.update els (first + k) (els (first + k) ++ [x]))
        (Function.update top (first + k) (top (first + k) + total cfg len)) := by
  obtain ⟨hcnt, hle, hone⟩ := total_bounds cfg hlen
  have hbytes := length_paddedLen cfg hlen
  have htotal := total.eq_1 cfg len
  have hsec := h.layout.sector (first + k) (by omega) (by omega)
  have hused := h.layout.used (first + k) (by omega) (by omega)
  rw [← h.activeSector, ← h.activeOff] at hused
  have happend := hused.append (s := fcb.activeSector) hlen hfits
  rw [h.activeSector] at happend
  have hlayout := h.layout.put (by omega) (by omega) happend (by
    intro x hx
    rw [mem_append, mem_singleton] at hx
    rcases hx with hx | rfl
    · exact hsec x hx
    · rfl)
  rw [← h.activeSector, h.activeOff] at hlayout
  refine ⟨freshEntry cfg fcb.activeSector fcb.activeOff len, { fcb with
    flash := Function.update fcb.flash fcb.activeSector
      (storeBytes (fcb.flash fcb.activeSector) fcb.activeOff (paddedLen cfg len))
    activeOff := fcb.activeOff + total cfg len }, ?_, rfl, ?_, h.oldest, h.activeSector, h.activeId,
    ?_⟩
  · rw [Fcb.appendHere, flashWrite, if_neg (by omega)]
    dsimp only [freshEntry]
    rw [hbytes, Nat.add_assoc, ← total]
  · rw [h.activeOff]
    exact hlayout
  · rw [update_self, h.activeOff]

/-- **Appending**: an entry is added to the log, or the state is as before. -/
theorem Rep.append (h : Rep cfg fcb first k els top) (len : ℕ) :
    (∃ x fcb' k' els' top', Fcb.append cfg fcb len = (0, ⟨x.sector, x.elemOff, x.dataOff, 0⟩, fcb') ∧
      x = freshEntry cfg x.sector x.elemOff len ∧ Rep cfg fcb' first k' els' top' ∧
      entries els' first (k' + 1) = entries els first (k + 1) ++ [x]) ∨
    ∃ rc l, rc ≠ 0 ∧ Fcb.append cfg fcb len = (rc, l, fcb) := by
  rw [Fcb.append]
  by_cases hlen : len ≤ FCB_MAX_LEN
  swap
  · right
    have hput : putLen cfg len = none := by
      have hmax : ¬ len < 0x80 := by
        rw [FCB_MAX_LEN] at hlen
        omega
      rw [putLen, if_neg hmax, if_neg hlen]
    rw [hput]
    exact ⟨_, _, by decide, rfl⟩
  rw [putLen_eq hlen]
  dsimp only
  rw [length_lenBytes hlen, ← paddedLen]
  have htotal : ∀ o, o + (lenInFlash cfg len + lenInFlash cfg 1) + lenInFlash cfg (lenCnt len) =
      o + total cfg len := by
    intro o
    rw [total]
    omega
  rw [htotal, htotal]
  split_ifs with hfull
  · rcases hnew : newSector cfg fcb cfg.scratchCnt with _ | s
    · exact .inr ⟨_, _, by decide, rfl⟩
    dsimp only
    split_ifs with hsmall
    · exact .inr ⟨_, _, by decide, rfl⟩
    obtain ⟨fcb₁, hact, hrep⟩ := h.activate hnew
    rw [hact]
    dsimp only
    have hs : fcb₁.activeSector = s := by
      rw [hrep.activeSector, (newSector_spec h hnew).1]
    have hoff : fcb₁.activeOff = hdrLen cfg := by
      rw [hrep.activeOff, update_self]
    obtain ⟨x, fcb', hhere, hx, hrep'⟩ := hrep.appendHere hlen (by rw [hs, hoff]; omega)
    refine .inl ⟨x, fcb', _, _, _, hhere, hx, hrep', ?_⟩
    rw [entries_snoc, update_self, update_self, nil_append,
      entries_update_of_lt (by omega), entries_update_of_lt (by omega)]
  · obtain ⟨x, fcb', hhere, hx, hrep'⟩ := h.appendHere hlen (by omega)
    refine .inl ⟨x, fcb', _, _, _, hhere, hx, hrep', ?_⟩
    rw [entries_snoc, update_self, entries_update_of_lt (by omega), entries_snoc, append_assoc]

/-- **Taking a scratch sector into use** leaves the log alone. -/
theorem Rep.appendToScratch (h : Rep cfg fcb first k els top) :
    ∃ k' els' top', Rep cfg (Fcb.appendToScratch cfg fcb).2 first k' els' top' ∧
      entries els' first (k' + 1) = entries els first (k + 1) := by
  rw [Fcb.appendToScratch]
  rcases hnew : newSector cfg fcb 0 with _ | s
  · exact ⟨k, els, top, h, rfl⟩
  obtain ⟨fcb', hact, hrep⟩ := h.activate hnew
  dsimp only
  rw [hact]
  refine ⟨_, _, _, hrep, ?_⟩
  rw [entries_snoc, update_self, append_nil, entries_update_of_lt (by omega)]

theorem entries_filter (h : Layout cfg fcb.flash first (k + 1) els top) :
    (entries els first (k + 1)).filter (fun x => x.sector ≠ first % cfg.sectorCnt) =
      entries els (first + 1) k := by
  have hle := h.le
  rw [entries_succ, filter_append, filter_eq_nil_iff.mpr, nil_append, filter_eq_self.mpr]
  · intro x hx
    obtain ⟨n, h1, h2, hx⟩ := mem_entries.mp hx
    rw [h.sector n (by omega) (by omega) x hx]
    simpa using mod_ne (c := cfg.sectorCnt) (by omega : n ≠ first) (by omega) (by omega)
  · intro x hx
    simpa using h.sector first (le_refl _) (by omega) x hx

/-- **Rotating** takes the first sector out. If it was the active one, the next one is. -/
theorem Rep.rotate (h : Rep cfg fcb first k els top) :
    ∃ fcb' k' els' top', Fcb.rotate cfg fcb = (0, fcb') ∧ Rep cfg fcb' (first + 1) k' els' top' ∧
      entries els' (first + 1) (k' + 1) = entries els (first + 1) k ∧
      (k = 0 → k' = 0 ∧ fcb'.activeOff = hdrLen cfg) ∧ (0 < k → k' + 1 = k) := by
  have hle := h.layout.le
  have herase := h.layout.erase
  rw [← h.oldest] at herase
  rw [Fcb.rotate]
  dsimp only
  have hnext : getnextSector cfg fcb.oldest = (first + 1) % cfg.sectorCnt := by
    rw [h.oldest, getnextSector_mod]
  cases k with
  | zero =>
    rw [if_pos (by rw [h.oldest, h.activeSector, Nat.add_zero])]
    obtain ⟨fcb', hact, hold, hrep⟩ := activate_spec
      { fcb with flash := eraseSector cfg fcb.flash fcb.oldest } herase (cnt_pos cfg) (by
        dsimp only
        rw [h.activeId, Nat.mod_add_mod, Nat.add_zero, Nat.add_zero])
    rw [Nat.add_zero] at hact
    rw [hnext, hact]
    dsimp only at hold ⊢
    rw [hold, hnext]
    refine ⟨_, _, _, _, rfl, hrep _ rfl, ?_, ?_, by omega⟩
    · rw [entries_snoc, update_self]
      rfl
    intro _
    refine ⟨rfl, ?_⟩
    have := (hrep _ rfl).activeOff
    rw [update_self] at this
    exact this
  | succ k =>
    have hne : ¬ fcb.oldest = fcb.activeSector := by
      rw [h.oldest, h.activeSector]
      exact mod_ne (by omega) (by omega) (by omega)
    rw [if_neg hne, hnext]
    refine ⟨_, k, els, top, rfl, ⟨herase, rfl, ?_, ?_, ?_⟩, rfl, by omega, fun _ => rfl⟩
    · rw [Nat.add_right_comm, Nat.add_assoc]
      exact h.activeSector
    · rw [Nat.add_right_comm, Nat.add_assoc]
      exact h.activeId
    · rw [Nat.add_right_comm, Nat.add_assoc]
      exact h.activeOff

theorem Rep.isEmpty_iff (h : Rep cfg fcb first k els top) :
    isEmpty cfg fcb = true ↔ k = 0 ∧ top first = hdrLen cfg := by
  have hle := h.layout.le
  rw [isEmpty, Bool.and_eq_true, decide_eq_true_iff, decide_eq_true_iff, h.activeSector, h.oldest,
    h.activeOff]
  constructor
  · rintro ⟨hsec, hoff⟩
    have hk : k = 0 := by
      by_contra hne
      exact mod_ne (by omega) (by omega) (by omega) hsec
    subst hk
    exact ⟨rfl, hoff⟩
  · rintro ⟨rfl, hoff⟩
    exact ⟨rfl, hoff⟩

theorem clearLoop_spec {rounds : ℕ} (h : Rep cfg fcb first k els top) (hrounds : k + 1 < rounds) :
    ∃ fcb' first' k' els' top', clearLoop cfg rounds fcb = some (0, fcb') ∧
      Rep cfg fcb' first' k' els' top' ∧ entries els' first' (k' + 1) = [] := by
  induction rounds generalizing fcb first k els top with
  | zero => omega
  | succ rounds ih =>
    rw [clearLoop]
    by_cases hempty : isEmpty cfg fcb = true
    · rw [if_pos hempty]
      refine ⟨fcb, first, k, els, top, rfl, h, ?_⟩
      obtain ⟨rfl, htop⟩ := h.isEmpty_iff.mp hempty
      have hlen := (h.layout.used first (le_refl _) (by omega)).elems.length_le
      rw [entries_snoc, entries_zero, nil_append, Nat.add_zero]
      exact length_eq_zero_iff.mp (by omega)
    rw [if_neg hempty]
    obtain ⟨fcb', k', els', top', hrot, hrep, -, hzero, hpos⟩ := h.rotate
    rw [hrot]
    dsimp only
    rw [if_neg (by decide)]
    rcases Nat.eq_zero_or_pos k with hk | hk
    · -- the new active sector has no entries
      obtain ⟨rfl, hoff⟩ := hzero hk
      rcases rounds with _ | rounds
      · omega
      have hempty' : isEmpty cfg fcb' = true := by
        rw [hrep.isEmpty_iff, ← hoff, hrep.activeOff]
        exact ⟨rfl, rfl⟩
      refine ⟨fcb', _, _, _, _, by rw [clearLoop, if_pos hempty'], hrep, ?_⟩
      have hlen := (hrep.layout.used (first + 1) (le_refl _) (by omega)).elems.length_le
      have htop := (hrep.isEmpty_iff.mp hempty').2
      rw [entries_snoc, entries_zero, nil_append, Nat.add_zero]
      exact length_eq_zero_iff.mp (by omega)
    · have hk' := hpos hk
      exact ih hrep (by omega)

theorem Rep.clear (h : Rep cfg fcb first k els top) :
    ∃ fcb' first' k' els' top', Fcb.clear cfg fcb = some (0, fcb') ∧
      Rep cfg fcb' first' k' els' top' ∧ entries els' first' (k' + 1) = [] := by
  have hle := h.layout.le
  exact clearLoop_spec h (by omega)

end ops

/-! ### Runs -/

/-- A flash circular buffer, with the entries that were appended and not rotated out, in order. -/
structure Sys where
  fcb : State
  log : List Entry

/-- What an application does. Data is written to entries that are not finished yet. -/
inductive Op
  | append (len : ℕ)
  | write (j off : ℕ) (bytes : List UInt8)
  | finish (j : ℕ)
  | rotate
  | appendToScratch
  | clear
  | init

def exec (cfg : Cfg) (sys : Sys) : Op → Option Sys
  | .append len =>
    match append cfg sys.fcb len with
    | (rc, loc, fcb) =>
      if rc = 0 then some ⟨fcb, sys.log ++ [⟨loc.sector, loc.elemOff, loc.dataOff, len,
        List.replicate len cfg.eraseValue, false⟩]⟩
      else some ⟨fcb, sys.log⟩
  | .write j off bytes => do
    let x ← sys.log[j]?
    if x.finished = false ∧ off + bytes.length ≤ x.len then do
      let flash ← flashWrite cfg sys.fcb.flash x.sector (x.dataOff + off) bytes
      return ⟨{ sys.fcb with flash := flash },
        sys.log.set j { x with data := splice x.data off bytes }⟩
    else
      none
  | .finish j => do
    let x ← sys.log[j]?
    if x.finished = false then
      match appendFinish cfg sys.fcb ⟨x.sector, x.elemOff, x.dataOff, 0⟩ with
      | (rc, fcb) =>
        if rc = 0 then return ⟨fcb, sys.log.set j { x with finished := true }⟩
        else return ⟨fcb, sys.log⟩
    else
      none
  | .rotate => some ⟨(rotate cfg sys.fcb).2, sys.log.filter fun x => x.sector ≠ sys.fcb.oldest⟩
  | .appendToScratch => some ⟨(appendToScratch cfg sys.fcb).2, sys.log⟩
  | .clear => do
    let (_, fcb) ← clear cfg sys.fcb
    return ⟨fcb, []⟩
  | .init =>
    match init cfg sys.fcb.flash with
    | .error _ => none
    | .ok (_, fcb) => some ⟨fcb, sys.log⟩

def Inv (cfg : Cfg) (sys : Sys) : Prop :=
  ∃ first k els top, Rep cfg sys.fcb first k els top ∧ sys.log = entries els first (k + 1)

section runs

variable {sys sys' : Sys} {first k : ℕ} {els : ℕ → List Entry} {top : ℕ → ℕ}

variable {fcb : State} {x : Entry} {j : ℕ} {bs : List UInt8}

theorem Rep.entryAt (h : Rep cfg fcb first k els top) (hx : x ∈ entries els first (k + 1)) :
    EntryAt cfg (cfg.size x.sector) (fcb.flash x.sector) x.elemOff x := by
  obtain ⟨n, h1, h2, hmem⟩ := mem_entries.mp hx
  have hused := h.layout.used n h1 h2
  rw [← h.layout.sector n h1 h2 x hmem] at hused
  obtain ⟨pre, post, hels⟩ := append_of_mem hmem
  rw [hels] at hused
  obtain ⟨o, -, hentry, -⟩ := elems_append.mp hused.elems
  rwa [← hentry.elemOff] at hentry

theorem Rep.modify {a : ℕ} (x' : Entry)
    (h : Rep cfg fcb first k els top) (hx : (entries els first (k + 1))[j]? = some x)
    (hlen : x'.len = x.len) (hsec : x'.sector = x.sector)
    (hentry : ∀ size m, EntryAt cfg size m x.elemOff x →
      EntryAt cfg size (storeBytes m a bs) x.elemOff x')
    (hin : x.elemOff ≤ a ∧ a + bs.length ≤ x.elemOff + total cfg x.len) :
    ∃ flash els', flashWrite cfg fcb.flash x.sector a bs = some flash ∧
      Rep cfg { fcb with flash := flash } first k els' top ∧
      entries els' first (k + 1) = (entries els first (k + 1)).set j x' := by
  have hfits := (h.entryAt (mem_of_getElem? hx)).fits
  obtain ⟨n, pre, post, h1, h2, hels, hset⟩ := entries_set hx x'
  have hused := h.layout.used n h1 h2
  have hsector := h.layout.sector n h1 h2
  rw [hels] at hused hsector
  have hxs : x.sector = n % cfg.sectorCnt := hsector x (by simp)
  have hmod := hused.modify hlen (hentry _ _) fun y hy => storeBytes_of_notMem (by omega)
  have hput := h.layout.put h1 h2 hmod (by
    intro y hy
    rcases mem_append.mp hy with hy | hy
    · exact hsector y (by simp [hy])
    · rcases mem_cons.mp hy with rfl | hy
      · rw [hsec, hxs]
      · exact hsector y (by simp [hy]))
  rw [update_eq_self, ← hxs] at hput
  refine ⟨Function.update fcb.flash x.sector (storeBytes (fcb.flash x.sector) a bs),
    Function.update els n (pre ++ x' :: post), by rw [flashWrite, if_neg (by omega)],
    ⟨hput, h.oldest, h.activeSector, h.activeId, h.activeOff⟩, hset⟩

theorem Inv.append (h : Inv cfg sys) {len : ℕ} (hexec : exec cfg sys (.append len) = some sys') :
    Inv cfg sys' := by
  obtain ⟨first, k, els, top, hrep, hlog⟩ := h
  rw [exec] at hexec
  rcases hrep.append len with ⟨x, fcb', k', els', top', happ, hx, hrep', hents⟩ | ⟨rc, l, hrc, happ⟩
  · rw [happ] at hexec
    dsimp only at hexec
    rw [if_pos rfl, Option.some.injEq] at hexec
    subst hexec
    refine ⟨first, k', els', top', hrep', ?_⟩
    dsimp only
    rw [hents, hlog]
    congr 2
    rw [hx]
    rfl
  rw [happ] at hexec
  dsimp only at hexec
  rw [if_neg hrc, Option.some.injEq] at hexec
  subst hexec
  exact ⟨first, k, els, top, hrep, hlog⟩

theorem Inv.write (h : Inv cfg sys) {off : ℕ}
    (hexec : exec cfg sys (.write j off bs) = some sys') : Inv cfg sys' := by
  obtain ⟨first, k, els, top, hrep, hlog⟩ := h
  simp only [exec, bind_eq_bind] at hexec
  obtain ⟨x, hx, hexec⟩ := bind_eq_some_iff.mp hexec
  split_ifs at hexec with hopen
  rw [hlog] at hx
  have hentry := hrep.entryAt (mem_of_getElem? hx)
  have hoff := hentry.dataOff
  obtain ⟨hcnt, hle, hone⟩ := total_bounds cfg hentry.len_le
  obtain ⟨flash, els', hwrite, hrep', hents⟩ := hrep.modify
    { x with data := splice x.data off bs } hx rfl rfl
    (fun size m he => he.write hopen.1 hopen.2) (by rw [total]; omega)
  rw [hwrite] at hexec
  cases hexec
  exact ⟨first, k, els', top, hrep', by rw [hents, hlog]⟩

theorem Inv.finish (h : Inv cfg sys) (hexec : exec cfg sys (.finish j) = some sys') :
    Inv cfg sys' := by
  obtain ⟨first, k, els, top, hrep, hlog⟩ := h
  simp only [exec, bind_eq_bind] at hexec
  obtain ⟨x, hx, hexec⟩ := bind_eq_some_iff.mp hexec
  rw [hlog] at hx
  have hentry := hrep.entryAt (mem_of_getElem? hx)
  have hoff := hentry.dataOff
  obtain ⟨hcnt, hle, hone⟩ := total_bounds cfg hentry.len_le
  have hpos := align_pos cfg
  obtain ⟨flash, els', hwrite, hrep', hents⟩ := hrep.modify { x with finished := true } hx rfl rfl
    (fun size m he => he.finish (List.replicate (cfg.align - 1) 0xff)) (by
      rw [total, length_cons, length_replicate, lenInFlash_one]
      omega)
  have hfin : appendFinish cfg sys.fcb ⟨x.sector, x.elemOff, x.dataOff, 0⟩ =
      (0, { sys.fcb with flash := flash }) := by
    rw [appendFinish, elemEndmarker_entry hentry]
    dsimp only
    rw [if_neg (by simp), hwrite]
  rw [hfin] at hexec
  split_ifs at hexec with hopen
  · cases hexec
    exact ⟨first, k, els', top, hrep', by rw [hents, hlog]⟩
  · exact absurd rfl (by assumption)

theorem Inv.rotate (h : Inv cfg sys) :
    Inv cfg ⟨(Fcb.rotate cfg sys.fcb).2, sys.log.filter fun x => x.sector ≠ sys.fcb.oldest⟩ := by
  obtain ⟨first, k, els, top, hrep, hlog⟩ := h
  obtain ⟨fcb', k', els', top', hrot, hrep', hents, -⟩ := hrep.rotate
  refine ⟨first + 1, k', els', top', by rw [hrot]; exact hrep', ?_⟩
  dsimp only
  rw [hents, hlog, hrep.oldest, entries_filter hrep.layout]

end runs

end Fcb

end TlZephyr
