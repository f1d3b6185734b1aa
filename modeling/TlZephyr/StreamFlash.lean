import TlZephyr.Errno
import TlZephyr.Lib.NorFlash

/-!
# Flash Stream

Model of `stream_flash.c` with page erase and saved progress. A context buffers the data it
is given and writes it to flash from a start offset on; before a write it erases the page after
the last one erased when the space erased so far is not enough. `erasedUpTo` counts from the
start offset. A reboot initialises the context and loads the progress saved last.

The state also logs all bytes copied into the buffer (`given`), for every write whether all its
bytes were erased, and for every erase whether it left the data written alone. A driver may or may
not reject a write that is not aligned to its write blocks.
-/

namespace TlZephyr

open Memory NorFlash List Flash

/-- A flash device and a stream on it, as `stream_flash_init` accepts them. The callback returns
`callback k` the `k`-th time. -/
structure StreamFlashCfg where
  pages : List ℕ
  writeBlockSize : ℕ
  eraseValue : UInt8
  /-- the driver returns `-EINVAL` for a write at an offset that is no multiple of a block -/
  strict : Bool
  offset : ℕ
  available : ℕ
  bufLen : ℕ
  callback : ℕ → ℤ
  block_pos : 0 < writeBlockSize
  pages_dvd : ∀ p ∈ pages, writeBlockSize ∣ p
  buf_dvd : writeBlockSize ∣ bufLen
  buf_le : ∀ p ∈ pages, bufLen ≤ p
  offset_boundary : IsBoundary pages offset

/-- `struct stream_flash_ctx`, the flash, the progress saved, and the logs. `failed`: the callback
has refused a write. -/
structure StreamFlash where
  flash : Flash
  bytesWritten : ℕ
  erasedUpTo : ℕ
  buf : List UInt8
  calls : ℕ
  saved : ℕ
  given : List UInt8
  failed : Bool
  writes : List Bool
  erases : List Bool

namespace StreamFlash

/-- `stream_flash_init` on a device that was not streamed to before. -/
def init (flash : Flash) : StreamFlash := ⟨flash, 0, 0, [], 0, 0, [], false, [], []⟩

variable (cfg : StreamFlashCfg) (s : StreamFlash)

/-- `flash_erase` of a page, and the space counted as erased after it. -/
def flashErase (start size erasedUpTo : ℕ) : StreamFlash :=
  { s with
    flash := s.flash.erase cfg.eraseValue start size
    erasedUpTo := erasedUpTo
    erases := s.erases ++ [start + size ≤ cfg.offset || cfg.offset + s.bytesWritten ≤ start] }

/-- `stream_flash_erase_to_append`. -/
def eraseToAppend (size : ℕ) : ℤ × StreamFlash :=
  if s.bytesWritten + size ≤ s.erasedUpTo then (0, s)
  else if cfg.available < s.bytesWritten + size then (-ERANGE, s)
  else
    match pageAt cfg.pages (cfg.offset + s.erasedUpTo) with
    | none => (-EINVAL, s)
    | some page => (0, s.flashErase cfg page.1 page.2 (s.erasedUpTo + page.2))

/-- `stream_flash_erase_page`. -/
def erasePage (off : ℕ) : ℤ × StreamFlash :=
  if off < cfg.offset ∨ cfg.available ≤ off - cfg.offset then (-ERANGE, s)
  else if off - cfg.offset < s.erasedUpTo then (-EINVAL, s)
  else
    match pageAt cfg.pages off with
    | none => (-EINVAL, s)
    | some page =>
      if page.1 + page.2 ≤ s.erasedUpTo then (0, s)
      else (0, s.flashErase cfg page.1 page.2 (page.1 + page.2))

/-- The fill bytes that complete the last write block. -/
def fillLength (cfg : StreamFlashCfg) (n : ℕ) : ℕ :=
  if n % cfg.writeBlockSize = 0 then 0 else cfg.writeBlockSize - n % cfg.writeBlockSize

def filled : List UInt8 :=
  s.buf ++ List.replicate (fillLength cfg s.buf.length) cfg.eraseValue

/-- `flash_write` of the buffer. -/
def flashWrite : StreamFlash :=
  let addr := cfg.offset + s.bytesWritten
  { s with
    flash := s.flash.program addr (s.filled cfg)
    writes := s.writes ++ [s.flash.allErased addr (s.filled cfg).length] }

/-- The callback is called with what is read back, which is then in the buffer. -/
def callBack : StreamFlash :=
  { s with
    calls := s.calls + 1
    buf := loadBytes s.flash.mem (cfg.offset + s.bytesWritten) s.buf.length
    failed := s.failed || cfg.callback s.calls != 0 }

/-- `flash_sync` after the erase. -/
def syncWrite : ℤ × StreamFlash :=
  if cfg.strict = true ∧ ¬ cfg.writeBlockSize ∣ cfg.offset + s.bytesWritten then (-EINVAL, s)
  else
    let rc := cfg.callback s.calls
    let s := (s.flashWrite cfg).callBack cfg
    if rc ≠ 0 then (rc, s)
    else (0, { s with bytesWritten := s.bytesWritten + s.buf.length, buf := [] })

def flashSync : ℤ × StreamFlash :=
  if s.buf.length = 0 then (0, s)
  else
    let r := s.eraseToAppend cfg s.buf.length
    if r.1 < 0 then r else r.2.syncWrite cfg

def copy (s : StreamFlash) (data : List UInt8) : StreamFlash :=
  { s with buf := s.buf ++ data, given := s.given ++ data }

/-- Loop of `stream_flash_buffered_write`: the buffer is filled and written while there is
enough data. -/
def fillLoop (cfg : StreamFlashCfg) :
    ℕ → StreamFlash → List UInt8 → Option (ℤ × StreamFlash × List UInt8)
  | 0, _, _ => none
  | fuel + 1, s, data =>
    let empty := cfg.bufLen - s.buf.length
    if empty ≤ data.length then
      let r := (s.copy (data.take empty)).flashSync cfg
      if r.1 ≠ 0 then some (r.1, r.2, data.drop empty)
      else fillLoop cfg fuel r.2 (data.drop empty)
    else some (0, s, data)

/-- `stream_flash_buffered_write` after the loop. -/
def writeRest (cfg : StreamFlashCfg) (flush : Bool) (r : ℤ × StreamFlash × List UInt8) :
    ℤ × StreamFlash :=
  if r.1 ≠ 0 then (r.1, r.2.1)
  else
    let s := r.2.1.copy r.2.2
    if flush = true ∧ 0 < s.buf.length then s.flashSync cfg else (0, s)

/-- `stream_flash_buffered_write`. With a buffer of length 0 the loop does nothing and does not
end. -/
def bufferedWrite (data : List UInt8) (flush : Bool) : Option (ℤ × StreamFlash) :=
  if cfg.available < s.bytesWritten + s.buf.length + data.length then some (-ENOMEM, s)
  else (fillLoop cfg (data.length + 2) s data).map (writeRest cfg flush)

/-- `stream_flash_progress_save`. -/
def progressSave (s : StreamFlash) : StreamFlash := { s with saved := s.bytesWritten }

/-- A reboot: `stream_flash_init` and `stream_flash_progress_load`. -/
def reload : StreamFlash :=
  let s' : StreamFlash :=
    { s with
      bytesWritten := s.saved, erasedUpTo := 0, buf := [], given := s.given.take s.saved
      failed := false }
  if 0 < s.saved then
    match pageAt cfg.pages (cfg.offset + s.saved - 1) with
    | none => s'
    | some page => { s' with erasedUpTo := page.1 + page.2 - cfg.offset }
  else s'

inductive Op
  | write (data : List UInt8) (flush : Bool)
  | erasePage (off : ℕ)
  | save
  | reload
deriving DecidableEq, Repr

def step : Op → StreamFlash
  | .write data flush => (s.bufferedWrite cfg data flush).elim s Prod.snd
  | .erasePage off => (s.erasePage cfg off).2
  | .save => s.progressSave
  | .reload => s.reload cfg

def run (ops : List Op) : StreamFlash :=
  ops.foldl (step cfg) s

/-- Data is written when the driver rejects a write inside a block or the data in flash ends with a
block, and the callback refused nothing. An explicit erase is of the first page not erased, with a
stream at the start of the device. A reboot loses nothing, or the progress saved is at the end of a
page. -/
def StepOk : Op → Prop
  | .write data _ => data = [] ∧ s.buf = [] ∨
      s.failed = false ∧ (cfg.strict = true ∨ cfg.writeBlockSize ∣ cfg.offset + s.bytesWritten)
  | .erasePage off =>
    cfg.offset + s.erasedUpTo ≤ off → off < cfg.offset + cfg.available →
      cfg.offset = 0 ∧ ∀ page ∈ pageAt cfg.pages off, page.1 = s.erasedUpTo
  | .save => True
  | .reload => s.saved = s.bytesWritten ∧ s.failed = false ∨
      IsBoundary cfg.pages (cfg.offset + s.saved)

/-- Every step of the run meets `StepOk`. -/
def RunOk (cfg : StreamFlashCfg) (s : StreamFlash) : List Op → Prop
  | [] => True
  | op :: ops => s.StepOk cfg op ∧ RunOk cfg (s.step cfg op) ops

/-- The data given is in flash or buffered; every write was to erased bytes and every erase left the
data alone. -/
structure Intact (cfg : StreamFlashCfg) (s : StreamFlash) : Prop where
  content : s.given = loadBytes s.flash.mem cfg.offset s.bytesWritten ++ s.buf
  writes : ∀ b ∈ s.writes, b = true
  erases : ∀ b ∈ s.erases, b = true

/-! ### Invariant -/

/-- End of the write block that `x` is in. -/
def blockEnd (cfg : StreamFlashCfg) (x : ℕ) : ℕ := x + fillLength cfg x

section blocks

variable {cfg : StreamFlashCfg}

theorem fillLength_lt (cfg : StreamFlashCfg) (n : ℕ) : fillLength cfg n < cfg.writeBlockSize := by
  have := cfg.block_pos
  unfold fillLength
  split_ifs <;> omega

theorem dvd_blockEnd (cfg : StreamFlashCfg) (x : ℕ) : cfg.writeBlockSize ∣ blockEnd cfg x := by
  unfold blockEnd fillLength
  split_ifs with h
  · exact Nat.dvd_of_mod_eq_zero h
  refine (Nat.dvd_iff_mod_eq_zero).mpr ?_
  have hlt := Nat.mod_lt x cfg.block_pos
  conv_lhs => rw [← Nat.div_add_mod x cfg.writeBlockSize]
  have : cfg.writeBlockSize * (x / cfg.writeBlockSize) + x % cfg.writeBlockSize +
      (cfg.writeBlockSize - x % cfg.writeBlockSize) =
      cfg.writeBlockSize * (x / cfg.writeBlockSize + 1) := by
    rw [Nat.mul_add, Nat.mul_one]
    omega
  rw [Nat.div_add_mod x cfg.writeBlockSize] at this ⊢
  rw [this]
  exact Nat.mul_mod_right _ _

variable {x : ℕ}

theorem blockEnd_le {y : ℕ} (hy : cfg.writeBlockSize ∣ y) (h : x ≤ y) : blockEnd cfg x ≤ y := by
  obtain ⟨a, ha⟩ := dvd_blockEnd cfg x
  obtain ⟨b, rfl⟩ := hy
  have hfill := fillLength_lt cfg x
  by_contra hgt
  have hab : b < a := by
    by_contra hle
    have := Nat.mul_le_mul_left cfg.writeBlockSize (not_lt.mp hle)
    omega
  have := Nat.mul_le_mul_left cfg.writeBlockSize (Nat.succ_le_of_lt hab)
  rw [Nat.mul_succ] at this
  unfold blockEnd at ha hgt
  omega

theorem le_blockEnd (cfg : StreamFlashCfg) (x : ℕ) : x ≤ blockEnd cfg x := Nat.le_add_right _ _

theorem blockEnd_add (hx : cfg.writeBlockSize ∣ x) (n : ℕ) :
    blockEnd cfg (x + n) = x + (n + fillLength cfg n) := by
  have hmod : (x + n) % cfg.writeBlockSize = n % cfg.writeBlockSize := by
    rw [Nat.add_mod, Nat.mod_eq_zero_of_dvd hx, Nat.zero_add, Nat.mod_mod]
  rw [blockEnd, fillLength, fillLength, hmod, Nat.add_assoc]

end blocks

structure Inv (cfg : StreamFlashCfg) (s : StreamFlash) : Prop extends Intact cfg s where
  boundary : IsBoundary cfg.pages (cfg.offset + s.erasedUpTo)
  le : s.bytesWritten ≤ s.erasedUpTo
  bufLe : s.buf.length ≤ cfg.bufLen
  saved : s.saved ≤ s.bytesWritten
  fresh : s.failed = false → ∀ a, blockEnd cfg (cfg.offset + s.bytesWritten) ≤ a →
    a < cfg.offset + s.erasedUpTo → s.flash.erased a = true

section inv

variable {cfg : StreamFlashCfg} {s : StreamFlash}

theorem Inv.init (cfg : StreamFlashCfg) (flash : Flash) : Inv cfg (init flash) where
  content := rfl
  writes b hb := absurd hb not_mem_nil
  erases b hb := absurd hb not_mem_nil
  boundary := cfg.offset_boundary
  le := le_rfl
  bufLe := Nat.zero_le _
  saved := le_rfl
  fresh _ a h1 h2 := by
    have := le_blockEnd cfg (cfg.offset + 0)
    have hle : blockEnd cfg (cfg.offset + 0) ≤ a := h1
    have hlt : a < cfg.offset + 0 := h2
    omega

variable {size fuel : ℕ} {s' : StreamFlash}

theorem Inv.eraseNext (h : Inv cfg s) {start : ℕ} (hstart : start = cfg.offset + s.erasedUpTo)
    (hend : IsBoundary cfg.pages (start + size)) :
    Inv cfg (s.flashErase cfg start size (s.erasedUpTo + size)) := by
  subst hstart
  have hle := h.le
  constructor
  · refine ⟨?_, h.writes, fun b hb => ?_⟩
    · refine h.content.trans ?_
      refine congrArg (· ++ s.buf) (loadBytes_congr fun x _ hx => ?_).symm
      exact erase_mem_of_notMem (Or.inl (by omega))
    rcases mem_append.mp hb with hb | hb
    · exact h.erases b hb
    · rw [mem_singleton.mp hb]
      simp only [Bool.or_eq_true, decide_eq_true_eq]
      omega
  · rw [Nat.add_assoc] at hend
    exact hend
  · exact hle.trans (Nat.le_add_right _ _)
  · exact h.bufLe
  · exact h.saved
  intro hok a h1 h2
  have h2 : a < cfg.offset + (s.erasedUpTo + size) := h2
  by_cases hin : cfg.offset + s.erasedUpTo ≤ a
  · exact erase_erased_of_mem hin (by omega)
  · exact erase_erased_of_erased (h.fresh hok a h1 (by omega))

/-- What `stream_flash_erase_to_append` leaves alone, and the space it makes. -/
structure Appendable (cfg : StreamFlashCfg) (s : StreamFlash) (size : ℕ)
    (r : ℤ × StreamFlash) : Prop where
  inv : Inv cfg r.2
  buf : r.2.buf = s.buf
  given : r.2.given = s.given
  bytesWritten : r.2.bytesWritten = s.bytesWritten
  failed : r.2.failed = s.failed
  calls : r.2.calls = s.calls
  space : r.1 < 0 ∨ s.bytesWritten + size ≤ r.2.erasedUpTo

theorem Inv.eraseToAppend (h : Inv cfg s) (hsize : size ≤ cfg.bufLen) :
    Appendable cfg s size (s.eraseToAppend cfg size) := by
  unfold StreamFlash.eraseToAppend
  split_ifs with hspace havail
  · exact ⟨h, rfl, rfl, rfl, rfl, rfl, Or.inr hspace⟩
  · exact ⟨h, rfl, rfl, rfl, rfl, rfl, Or.inl (by decide : (-ERANGE : ℤ) < 0)⟩
  rcases hpage : pageAt cfg.pages (cfg.offset + s.erasedUpTo) with _ | page
  · exact ⟨h, rfl, rfl, rfl, rfl, rfl, Or.inl (by decide : (-EINVAL : ℤ) < 0)⟩
  have hle := h.le
  obtain ⟨-, hmem, -, hend⟩ := pageAt_spec hpage
  have hbuf := cfg.buf_le page.2 hmem
  have hstart := pageAt_of_boundary h.boundary hpage
  refine ⟨h.eraseNext hstart hend, rfl, rfl, rfl, rfl, rfl, Or.inr ?_⟩
  exact Nat.add_le_add hle (hsize.trans hbuf)

theorem Inv.allErased (h : Inv cfg s) (hok : s.failed = false)
    (haligned : cfg.writeBlockSize ∣ cfg.offset + s.bytesWritten)
    (hspace : s.bytesWritten + s.buf.length ≤ s.erasedUpTo) :
    s.flash.allErased (cfg.offset + s.bytesWritten) (s.filled cfg).length = true := by
  have hend := blockEnd_add haligned s.buf.length
  have hle : blockEnd cfg (cfg.offset + s.bytesWritten + s.buf.length) ≤
      cfg.offset + s.erasedUpTo :=
    blockEnd_le (dvd_of_isBoundary cfg.pages_dvd h.boundary) (by omega)
  have hstart := blockEnd_le haligned le_rfl
  have hlen : (s.filled cfg).length = s.buf.length + fillLength cfg s.buf.length := by
    rw [filled, length_append, length_replicate]
  exact allErased_iff.mpr fun x h1 h2 => h.fresh hok x (by omega) (by omega)

/-- What a synchronisation of the buffer does when it succeeds. -/
structure Synced (cfg : StreamFlashCfg) (s : StreamFlash) (r : ℤ × StreamFlash) : Prop where
  inv : Inv cfg r.2
  failed : r.1 = 0 → r.2.failed = false
  bytesWritten : r.1 = 0 → r.2.bytesWritten = s.bytesWritten + s.buf.length

theorem Inv.syncWrite (h : Inv cfg s) (hok : s.failed = false)
    (hblock : cfg.strict = true ∨ cfg.writeBlockSize ∣ cfg.offset + s.bytesWritten)
    (hspace : s.bytesWritten + s.buf.length ≤ s.erasedUpTo) : Synced cfg s (s.syncWrite cfg) := by
  unfold StreamFlash.syncWrite
  split_ifs with hreject
  · exact ⟨h, fun h0 => absurd h0 (by decide : (-EINVAL : ℤ) ≠ 0),
      fun h0 => absurd h0 (by decide : (-EINVAL : ℤ) ≠ 0)⟩
  have haligned : cfg.writeBlockSize ∣ cfg.offset + s.bytesWritten := by
    by_contra hno
    exact hreject ⟨hblock.resolve_right hno, hno⟩
  have herased := h.allErased hok haligned hspace
  -- what the flash holds after the write
  have hbefore : loadBytes (s.flashWrite cfg).flash.mem cfg.offset s.bytesWritten =
      loadBytes s.flash.mem cfg.offset s.bytesWritten :=
    loadBytes_congr fun x _ hx => program_mem_of_notMem (Or.inl (by omega))
  have hbuf : loadBytes (s.flashWrite cfg).flash.mem (cfg.offset + s.bytesWritten) s.buf.length =
      s.buf := loadBytes_program herased (prefix_append _ _)
  have hwrites : ∀ b ∈ (s.flashWrite cfg).writes, b = true := by
    intro b hb
    rcases mem_append.mp hb with hb | hb
    · exact h.writes b hb
    · rw [mem_singleton.mp hb, herased]
  dsimp only
  split_ifs with hrc
  · -- the callback refuses: the data stays in the buffer
    refine ⟨⟨⟨?_, hwrites, h.erases⟩, h.boundary, h.le, ?_, h.saved, fun hfail => ?_⟩,
      fun h0 => absurd h0 hrc, fun h0 => absurd h0 hrc⟩
    · refine h.content.trans ?_
      rw [← hbefore]
      exact congrArg (_ ++ ·) hbuf.symm
    · refine le_of_eq_of_le ?_ h.bufLe
      exact length_loadBytes _ _ _
    · have : (s.failed || cfg.callback s.calls != 0) = false := hfail
      simp [hrc] at this
  have hlen : ((s.flashWrite cfg).callBack cfg).buf.length = s.buf.length :=
    length_loadBytes _ _ _
  have hbytes : ((s.flashWrite cfg).callBack cfg).bytesWritten +
      ((s.flashWrite cfg).callBack cfg).buf.length = s.bytesWritten + s.buf.length := by
    rw [hlen]
    rfl
  rw [hbytes]
  refine ⟨⟨⟨?_, hwrites, h.erases⟩, h.boundary, hspace, Nat.zero_le _,
    h.saved.trans (Nat.le_add_right _ _), fun _ a h1 h2 => ?_⟩, fun _ => ?_, fun _ => rfl⟩
  · refine h.content.trans ?_
    rw [append_nil]
    refine Eq.trans ?_ (loadBytes_add _ _ _ _).symm
    rw [← hbefore]
    exact congrArg (_ ++ ·) hbuf.symm
  · have h1 : blockEnd cfg (cfg.offset + (s.bytesWritten + s.buf.length)) ≤ a := h1
    have hlen : (s.filled cfg).length = s.buf.length + fillLength cfg s.buf.length := by
      rw [filled, length_append, length_replicate]
    rw [← Nat.add_assoc, blockEnd_add haligned, ← hlen] at h1
    have hstart := blockEnd_le haligned le_rfl
    refine Eq.trans (program_erased_of_notMem (Or.inr h1)) (h.fresh hok a ?_ h2)
    omega
  · have : (s.failed || cfg.callback s.calls != 0) = false := by
      rw [hok, not_not.mp hrc]
      rfl
    exact this

theorem Inv.flashSync (h : Inv cfg s) (hok : s.failed = false)
    (hblock : cfg.strict = true ∨ cfg.writeBlockSize ∣ cfg.offset + s.bytesWritten) :
    Synced cfg s (s.flashSync cfg) := by
  unfold StreamFlash.flashSync
  split_ifs with hempty
  · exact ⟨h, fun _ => hok, fun _ => by rw [hempty]; rfl⟩
  have ha := h.eraseToAppend h.bufLe
  dsimp only
  split_ifs with hrc
  · exact ⟨ha.inv, fun h0 => absurd h0 hrc.ne, fun h0 => absurd h0 hrc.ne⟩
  · have hs := ha.inv.syncWrite (ha.failed.trans hok) (by rw [ha.bytesWritten]; exact hblock)
      (by rw [ha.bytesWritten, ha.buf]; exact ha.space.resolve_left hrc)
    refine ⟨hs.inv, hs.failed, fun h0 => ?_⟩
    rw [hs.bytesWritten h0, ha.bytesWritten, ha.buf]

/-! ### Writing loop -/

theorem flashSync_buf (cfg : StreamFlashCfg) (s : StreamFlash) (h0 : (s.flashSync cfg).1 = 0) :
    (s.flashSync cfg).2.buf = [] := by
  unfold flashSync at h0 ⊢
  split_ifs at h0 ⊢ with hempty
  · exact eq_nil_of_length_eq_zero hempty
  dsimp only at h0 ⊢
  split_ifs at h0 ⊢ with hrc
  · omega
  unfold syncWrite at h0 ⊢
  split_ifs at h0 ⊢
  · exact absurd h0 (by decide : (-EINVAL : ℤ) ≠ 0)
  · dsimp only at h0 ⊢
    split_ifs at h0 ⊢ with hcb
    · exact absurd h0 hcb
    · rfl

theorem eraseToAppend_given (cfg : StreamFlashCfg) (s : StreamFlash) (size : ℕ) :
    (s.eraseToAppend cfg size).2.given = s.given := by
  unfold eraseToAppend
  split_ifs
  · rfl
  · rfl
  · cases pageAt cfg.pages (cfg.offset + s.erasedUpTo) <;> rfl

theorem flashSync_given (cfg : StreamFlashCfg) (s : StreamFlash) :
    (s.flashSync cfg).2.given = s.given := by
  unfold flashSync
  split_ifs
  · rfl
  have ha := eraseToAppend_given cfg s s.buf.length
  dsimp only
  split_ifs
  · exact ha
  rw [← ha]
  unfold syncWrite
  split_ifs
  · rfl
  · dsimp only
    split_ifs <;> rfl

variable {data rest : List UInt8} {rc : ℤ}

/-- The loop copies the front of the data, and stops when the rest fits into the buffer. -/
theorem fillLoop_given (hloop : fillLoop cfg fuel s data = some (rc, s', rest)) :
    s'.given ++ rest = s.given ++ data ∧ (rc = 0 → s'.buf.length + rest.length < cfg.bufLen) := by
  induction fuel generalizing s data with
  | zero => cases hloop
  | succ fuel ih =>
    simp only [fillLoop] at hloop
    split_ifs at hloop with hfull hrc
    · obtain ⟨rfl, rfl, rfl⟩ : _ ∧ _ ∧ _ := by simpa using hloop
      refine ⟨?_, fun h0 => absurd h0 hrc⟩
      rw [flashSync_given, copy, append_assoc, take_append_drop]
    · obtain ⟨hgiven, hrest⟩ := ih hloop
      refine ⟨?_, hrest⟩
      rw [hgiven, flashSync_given, copy, append_assoc, take_append_drop]
    · obtain ⟨rfl, rfl, rfl⟩ : _ ∧ _ ∧ _ := by simpa using hloop
      exact ⟨rfl, fun _ => by omega⟩

theorem exists_fillLoop (hpos : 0 < cfg.bufLen) (fuel : ℕ) (s : StreamFlash) (data : List UInt8)
    (hfuel : data.length + (if s.buf.length < cfg.bufLen then 1 else 2) ≤ fuel) :
    ∃ r, fillLoop cfg fuel s data = some r := by
  induction fuel generalizing s data with
  | zero => split_ifs at hfuel <;> omega
  | succ fuel ih =>
    simp only [fillLoop]
    split_ifs with hfull hrc
    · exact ⟨_, rfl⟩
    · refine ih _ _ ?_
      rw [flashSync_buf cfg _ (not_not.mp hrc), length_nil, if_pos hpos, length_drop]
      split_ifs at hfuel <;> omega
    · exact ⟨_, rfl⟩

/-- **A write that succeeds takes all its data**, and with a buffer every write ends. -/
theorem bufferedWrite_given (hpos : 0 < cfg.bufLen) (data : List UInt8) (flush : Bool) :
    ∃ r, s.bufferedWrite cfg data flush = some r ∧ (r.1 = 0 → r.2.given = s.given ++ data) := by
  unfold bufferedWrite
  split_ifs
  · exact ⟨_, rfl, fun h0 => absurd h0 (by decide : (-ENOMEM : ℤ) ≠ 0)⟩
  obtain ⟨⟨rc, s', rest⟩, hloop⟩ := exists_fillLoop hpos (data.length + 2) s data
    (by split_ifs <;> omega)
  obtain ⟨hgiven, -⟩ := fillLoop_given hloop
  refine ⟨_, by rw [hloop]; rfl, fun h0 => ?_⟩
  unfold writeRest at h0 ⊢
  split_ifs at h0 ⊢ with hrc
  · exact absurd h0 hrc
  dsimp only at h0 ⊢
  split_ifs
  · rw [flashSync_given]
    exact hgiven
  · exact hgiven

theorem Inv.copy (h : Inv cfg s)
    (hlen : s.buf.length + data.length ≤ cfg.bufLen) : Inv cfg (s.copy data) := by
  refine ⟨⟨?_, h.writes, h.erases⟩, h.boundary, h.le, ?_, h.saved, h.fresh⟩
  · refine (congrArg (· ++ data) h.content).trans ?_
    rw [append_assoc]
    rfl
  · exact le_of_eq_of_le length_append hlen

theorem Inv.fillLoop (h : Inv cfg s) (hok : s.failed = false)
    (hblock : cfg.strict = true ∨ cfg.writeBlockSize ∣ cfg.offset + s.bytesWritten)
    (hloop : fillLoop cfg fuel s data = some (rc, s', rest)) :
    Inv cfg s' ∧ (rc = 0 → s'.failed = false ∧
      (cfg.strict = true ∨ cfg.writeBlockSize ∣ cfg.offset + s'.bytesWritten)) := by
  induction fuel generalizing s data with
  | zero => cases hloop
  | succ fuel ih =>
    have hbuf := h.bufLe
    simp only [StreamFlash.fillLoop] at hloop
    split_ifs at hloop with hfull hrc
    · obtain ⟨rfl, rfl, rfl⟩ : _ ∧ _ ∧ _ := by simpa using hloop
      have hcopy : Inv cfg (s.copy (data.take (cfg.bufLen - s.buf.length))) :=
        h.copy (by rw [length_take]; omega)
      exact ⟨(hcopy.flashSync hok hblock).inv, fun h0 => absurd h0 hrc⟩
    · have hlen : (s.copy (data.take (cfg.bufLen - s.buf.length))).buf.length = cfg.bufLen := by
        rw [StreamFlash.copy, length_append, length_take]
        omega
      have hcopy : Inv cfg (s.copy (data.take (cfg.bufLen - s.buf.length))) :=
        h.copy (by rw [length_take]; omega)
      have hs := hcopy.flashSync hok hblock
      have h0 := not_not.mp hrc
      refine ih hs.inv (hs.failed h0) (hblock.imp_right fun hdvd => ?_) hloop
      rw [hs.bytesWritten h0, hlen, ← Nat.add_assoc]
      exact Nat.dvd_add hdvd cfg.buf_dvd
    · obtain ⟨rfl, rfl, rfl⟩ : _ ∧ _ ∧ _ := by simpa using hloop
      exact ⟨h, fun _ => ⟨hok, hblock⟩⟩

theorem Inv.writeRest (h : Inv cfg s) {flush : Bool} (hok : rc = 0 → s.failed = false ∧
      (cfg.strict = true ∨ cfg.writeBlockSize ∣ cfg.offset + s.bytesWritten))
    (hlen : rc = 0 → s.buf.length + rest.length < cfg.bufLen) :
    Inv cfg (writeRest cfg flush (rc, s, rest)).2 := by
  unfold StreamFlash.writeRest
  split_ifs with hrc
  · exact h
  have h0 := not_not.mp hrc
  have hcopy : Inv cfg (s.copy rest) := h.copy (hlen h0).le
  dsimp only
  split_ifs
  · exact (hcopy.flashSync (hok h0).1 (hok h0).2).inv
  · exact hcopy

theorem Inv.bufferedWrite (h : Inv cfg s) (hok : s.failed = false)
    (hblock : cfg.strict = true ∨ cfg.writeBlockSize ∣ cfg.offset + s.bytesWritten)
    (data : List UInt8) (flush : Bool) :
    Inv cfg ((s.bufferedWrite cfg data flush).elim s Prod.snd) := by
  unfold StreamFlash.bufferedWrite
  split_ifs
  · exact h
  cases hloop : StreamFlash.fillLoop cfg (data.length + 2) s data with
  | none => exact h
  | some r =>
    obtain ⟨hinv, hready⟩ := h.fillLoop hok hblock hloop
    exact hinv.writeRest hready (fillLoop_given hloop).2

theorem copy_nil (s : StreamFlash) : s.copy [] = s := by
  rw [copy, append_nil, append_nil]

theorem fillLoop_nil (cfg : StreamFlashCfg) (hbuf : s.buf = []) (fuel : ℕ) :
    fillLoop cfg fuel s [] = none ∨ fillLoop cfg fuel s [] = some (0, s, []) := by
  have hsync : s.flashSync cfg = (0, s) := by rw [flashSync, hbuf, length_nil, if_pos rfl]
  induction fuel with
  | zero => exact Or.inl rfl
  | succ fuel ih =>
    simp only [fillLoop, take_nil, drop_nil, copy_nil, hsync]
    split_ifs with hfull hrc
    · exact absurd rfl hrc
    · exact ih
    · exact Or.inr rfl

theorem bufferedWrite_nil (hbuf : s.buf = []) (flush : Bool) :
    (s.bufferedWrite cfg [] flush).elim s Prod.snd = s := by
  unfold bufferedWrite
  split_ifs
  · rfl
  rcases fillLoop_nil cfg hbuf ([].length + 2) with hloop | hloop
  · rw [hloop]
    rfl
  · rw [hloop, Option.map_some, Option.elim_some, writeRest, if_neg (not_not.mpr rfl)]
    simp [copy_nil, hbuf]

theorem Inv.erasePage (h : Inv cfg s) {off : ℕ} (hok : s.StepOk cfg (.erasePage off)) :
    Inv cfg (s.erasePage cfg off).2 := by
  unfold StreamFlash.erasePage
  split_ifs with hrange hdone
  · exact h
  · exact h
  obtain ⟨h0, hpage⟩ := hok (by omega) (by omega)
  rcases hp : pageAt cfg.pages off with _ | page
  · exact h
  have hstart := hpage page hp
  obtain ⟨-, -, -, hend⟩ := pageAt_spec hp
  dsimp only
  split_ifs
  · exact h
  · have hnext := h.eraseNext (by rw [h0, hstart, Nat.zero_add]) hend
    rw [← hstart] at hnext
    exact hnext

theorem Inv.content_take (h : Inv cfg s) :
    s.given.take s.saved = loadBytes s.flash.mem cfg.offset s.saved ++ [] := by
  obtain ⟨k, hk⟩ := Nat.exists_eq_add_of_le h.saved
  rw [h.content, hk, loadBytes_add, append_assoc, append_nil]
  exact take_left' (length_loadBytes _ _ _)

theorem Inv.reload (h : Inv cfg s) (hok : s.StepOk cfg .reload) : Inv cfg (s.reload cfg) := by
  have hsaved := h.saved
  have hle := h.le
  unfold StreamFlash.reload
  dsimp only
  split_ifs with hpos
  · obtain ⟨start, size, hpage, hend⟩ := exists_pageAt h.boundary
      (show cfg.offset + s.saved - 1 < cfg.offset + s.erasedUpTo by omega)
    obtain ⟨⟨h1, h2⟩, -, -, hboundary⟩ := pageAt_spec hpage
    have heq : cfg.offset + (start + size - cfg.offset) = start + size := by omega
    rw [hpage]
    refine ⟨⟨h.content_take, h.writes, h.erases⟩, ?_, ?_, Nat.zero_le _, le_rfl,
      fun _ a ha hlt => ?_⟩
    · dsimp only
      rw [heq]
      exact hboundary
    · dsimp only
      omega
    have hblock := le_blockEnd cfg (cfg.offset + s.saved)
    dsimp only at ha hlt
    rw [heq] at hlt
    rcases hok with ⟨hall, hfail⟩ | hb
    · rw [hall] at ha
      exact h.fresh hfail a ha (by omega)
    -- the page of the last byte saved ends with it
    obtain ⟨start', size', hpage', hend'⟩ := exists_pageAt hb
      (show cfg.offset + s.saved - 1 < cfg.offset + s.saved by omega)
    rw [hpage] at hpage'
    cases hpage'
    omega
  have h0 : s.saved = 0 := by omega
  refine ⟨⟨h.content_take, h.writes, h.erases⟩, cfg.offset_boundary, h0.le, Nat.zero_le _,
    le_rfl, fun _ a ha hlt => ?_⟩
  have hblock := le_blockEnd cfg (cfg.offset + s.saved)
  dsimp only at ha hlt
  omega

/-- **Every step that meets `StepOk` keeps the erased space ahead of the data.** -/
theorem Inv.step (h : Inv cfg s) {op : Op} (hok : s.StepOk cfg op) : Inv cfg (s.step cfg op) := by
  cases op with
  | write data flush =>
    rcases hok with ⟨rfl, hbuf⟩ | ⟨hfail, hblock⟩
    · rw [StreamFlash.step, bufferedWrite_nil hbuf]
      exact h
    · exact h.bufferedWrite hfail hblock data flush
  | erasePage off => exact h.erasePage hok
  | save => exact ⟨⟨h.content, h.writes, h.erases⟩, h.boundary, h.le, h.bufLe, le_rfl, h.fresh⟩
  | reload => exact h.reload hok

theorem Inv.run (h : Inv cfg s) {ops : List Op} (hok : RunOk cfg s ops) :
    Inv cfg (s.run cfg ops) := by
  induction ops generalizing s with
  | nil => exact h
  | cons op ops ih => exact ih (h.step hok.1) hok.2

end inv

end StreamFlash

open StreamFlash (Op RunOk init Intact run Inv)

/-- **The streamed image is intact** for every device and start page, every way of splitting the
data with flushes, erases, saved progress and reboots whose steps meet `StepOk`: the data given is
in flash, followed by what is buffered; every write was to erased bytes, and no erase touched the
data. -/
theorem streamFlash_intact (cfg : StreamFlashCfg) (flash : Flash) (ops : List Op)
    (hok : RunOk cfg (init flash) ops) :
    Intact cfg (run cfg (init flash) ops) :=
  ((Inv.init cfg flash).run hok).toIntact

theorem smallStream_block_pos : 0 < 4 := Nat.succ_pos 3

/-- Four pages of 8 bytes, blocks of 4 bytes, a buffer of 8, and the stream from `offset` on. -/
def smallStream (offset : ℕ) (hoffset : IsBoundary [8, 8, 8, 8] offset) : StreamFlashCfg where
  pages := [8, 8, 8, 8]
  writeBlockSize := 4
  eraseValue := 0xFF
  strict := false
  offset := offset
  available := 32 - offset
  bufLen := 8
  callback _ := 0
  block_pos := smallStream_block_pos
  pages_dvd := by decide
  buf_dvd := by decide
  buf_le := by decide
  offset_boundary := hoffset

def usedFlash : Flash := ⟨fun _ => 0, fun _ => false⟩

theorem isBoundary_eight : IsBoundary [8, 8, 8, 8] 8 := Or.inr ⟨le_rfl, Or.inl rfl⟩

/-- The second page is streamed to with a flush at the end of a block, a save and a reboot. -/
theorem streamFlash_intact_reload : Intact (smallStream 8 isBoundary_eight)
      (run (smallStream 8 isBoundary_eight) (init usedFlash)
        [.write [1, 2, 3, 4] true, .save, .reload, .write [5, 6, 7, 8, 9] true]) :=
  streamFlash_intact _ _ _
    ⟨Or.inr ⟨rfl, Or.inr (by decide)⟩, trivial, Or.inl ⟨by decide +kernel, by decide +kernel⟩,
      Or.inr ⟨by decide +kernel, Or.inr (by decide +kernel)⟩, trivial⟩

theorem bufferedWrite_given_small :
    ∃ r, (init usedFlash).bufferedWrite (smallStream 8 isBoundary_eight) [1, 2, 3] true = some r ∧
      (r.1 = 0 → r.2.given = [1, 2, 3]) :=
  StreamFlash.bufferedWrite_given (by decide) _ _

/-- **An explicit erase counts from the wrong end**: for a stream at offset 8 it erases the wrong
page, and half of the data is written to one that was not erased. -/
theorem streamFlash_erase_page_absolute :
    let s := run (smallStream 8 isBoundary_eight) (init usedFlash)
      [.erasePage 8, .write (List.replicate 16 7) false]
    s.bytesWritten = 16 ∧ loadBytes s.flash.mem 8 16 ≠ s.given ∧ false ∈ s.writes := by
  decide +kernel

/-- **A page that is skipped counts as erased**, also at offset 0. -/
theorem streamFlash_erase_page_skip :
    false ∈ (run (smallStream 0 (Or.inl rfl)) (init usedFlash)
      [.erasePage 8, .write (List.replicate 8 7) false]).writes := by
  decide +kernel

/-- **After a flush inside a block** the next write goes to the fill byte. -/
theorem streamFlash_flush_inside_block :
    false ∈ (run (smallStream 0 (Or.inl rfl)) (init usedFlash)
      [.write [1, 2, 3] true, .write [4] true]).writes := by
  decide +kernel

/-- **Data written after the progress was saved** is written again after a reboot. -/
theorem streamFlash_reload_behind :
    false ∈ (run (smallStream 0 (Or.inl rfl)) (init usedFlash)
      [.write [1, 2, 3, 4] true, .save, .write [5, 6, 7, 8] true, .reload,
        .write [5, 6, 7, 8] true]).writes := by
  decide +kernel

end TlZephyr
