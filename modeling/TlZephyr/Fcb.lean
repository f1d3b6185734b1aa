import TlZephyr.Errno
import TlZephyr.Lib.LittleEndian
import TlZephyr.Lib.Memory

/-!
# Flash Circular Buffer

`subsys/fs/fcb`: a log of elements in an array of flash sectors that is used as a ring. A sector starts
with a header that holds its 16-bit id. An element is its length in one or two bytes, its data and an
end marker, each padded to the write alignment of the flash. The end marker is a CRC-8 of the length
and the data, or a fixed byte. What is written lies between the oldest sector and the active one.

A sector is a memory of its own. Writes are to erased bytes and store what is written.
-/

namespace TlZephyr

namespace Fcb

open Memory LittleEndian

/-! ### CRC-8 -/

def crc8CcittSmallTable : List UInt8 :=
  [0x00, 0x07, 0x0e, 0x09, 0x1c, 0x1b, 0x12, 0x15, 0x38, 0x3f, 0x36, 0x31, 0x24, 0x23, 0x2a, 0x2d]

/-- Half a byte of `crc8_ccitt`. -/
def crc8Nibble (val : UInt8) : UInt8 :=
  (val <<< 4) ^^^ crc8CcittSmallTable.getD (val >>> 4).toNat 0

def crc8Ccitt (val : UInt8) (buf : List UInt8) : UInt8 :=
  buf.foldl (fun val b => crc8Nibble (crc8Nibble (val ^^^ b))) val

/-! ### Flash area -/

def FCB_MAX_LEN : ℕ := 0x3fff

def FCB_FIXED_ENDMARKER : UInt8 := 0xab

/-- What the caller of `fcb_init` fills in, the flash area, and the build configuration. -/
structure Cfg where
  magic : ℕ
  version : UInt8
  sectorCnt : ℕ
  scratchCnt : ℕ
  size : ℕ → ℕ
  align : ℕ
  eraseValue : UInt8
  /-- `CONFIG_FCB_ALLOW_FIXED_ENDMARKER` -/
  allowFixed : Bool
  /-- `FCB_FLAGS_CRC_DISABLED` -/
  crcDisabled : Bool
  /-- the magic value should not be 0xFFFFFFFF -/
  magic_lt : magic < 2 ^ 32 - 1
  cnt_lt : sectorCnt < 2 ^ 8
  scratch_lt : scratchCnt < sectorCnt
  header_le : ∀ i < sectorCnt, 8 ≤ size i
  align_pow : ∃ k < 8, align = 2 ^ k

abbrev Flash := ℕ → Mem

section

variable (cfg : Cfg)

variable (flash : Flash)

/-- `fcb_flash_write`; `none` is an error. -/
def flashWrite (sector off : ℕ) (bytes : List UInt8) : Option Flash :=
  if off + bytes.length > cfg.size sector then none
  else some (Function.update flash sector (storeBytes (flash sector) off bytes))

/-- `fcb_flash_read`; `none` is an error. -/
def flashRead (sector off len : ℕ) : Option (List UInt8) :=
  if off + len > cfg.size sector then none else some (loadBytes (flash sector) off len)

/-- `fcb_erase_sector`. -/
def eraseSector (sector : ℕ) : Flash :=
  Function.update flash sector fun _ => cfg.eraseValue

/-- `fcb_len_in_flash`. -/
def lenInFlash (len : ℕ) : ℕ :=
  if cfg.align ≤ 1 then len else (len + (cfg.align - 1)) &&& (2 ^ 32 - cfg.align)

def hdrLen : ℕ := lenInFlash cfg 8

/-! ### Lengths -/

/-- `fcb_put_len`: the bytes, or none for `-EINVAL`. -/
def putLen (len : ℕ) : Option (List UInt8) :=
  if len < 0x80 then
    some [UInt8.ofNat len ^^^ ~~~cfg.eraseValue]
  else if len ≤ FCB_MAX_LEN then
    some [UInt8.ofNat (len ||| 0x80) ^^^ ~~~cfg.eraseValue,
      UInt8.ofNat (len >>> 7) ^^^ ~~~cfg.eraseValue]
  else
    none

/-- `fcb_get_len`: the count of bytes and the length, or none for `-ENOTSUP`. -/
def getLen (buf0 buf1 : UInt8) : Option (ℕ × ℕ) :=
  let buf0Xor := buf0 ^^^ ~~~cfg.eraseValue
  if buf0Xor &&& 0x80 ≠ 0 then
    if buf0 = cfg.eraseValue ∧ buf1 = cfg.eraseValue then
      none
    else
      let buf1Xor := buf1 ^^^ ~~~cfg.eraseValue
      some (2, (buf0Xor &&& 0x7f).toNat ||| buf1Xor.toNat <<< 7)
  else
    some (1, buf0Xor.toNat)

/-! ### Headers -/

def mk32 (val : UInt8) : ℕ := leValue [val, val, val, val]

/-- `fcb_flash_magic`. -/
def flashMagic : ℕ := cfg.magic ^^^ (2 ^ 32 - 1 - mk32 cfg.eraseValue)

/-- `fcb_sector_hdr_init`; `none` is an error. -/
def sectorHdrInit (sector id : ℕ) : Option Flash :=
  flashWrite cfg flash sector 0
    (leBytes 4 (flashMagic cfg) ++ [cfg.version, cfg.eraseValue] ++ leBytes 2 id)

/-- `fcb_sector_hdr_read`: the id if the sector has data, nothing if it is unused, or an error. -/
def sectorHdrRead (sector : ℕ) : Except ℤ (Option ℕ) :=
  match flashRead cfg flash sector 0 8 with
  | none => .error (- EIO)
  | some fda =>
    if leValue (fda.take 4) = mk32 cfg.eraseValue then .ok none
    else if leValue (fda.take 4) ≠ flashMagic cfg then .error (-ENOMSG)
    else .ok (some (leValue (fda.drop 6)))

/-! ### Elements -/

/-- `struct fcb_entry`. -/
structure Loc where
  sector : ℕ
  elemOff : ℕ
  dataOff : ℕ
  dataLen : ℕ
deriving DecidableEq, Repr

/-- Loop of `fcb_elem_crc8` over blocks of `FCB_TMP_BUF_SZ` bytes. -/
def crc8Loop (flash : Flash) (sector stop : ℕ) : ℕ → ℕ → UInt8 → Option UInt8
  | 0, _, crc8 => some crc8
  | rounds + 1, off, crc8 =>
    if off < stop then do
      let blkSz := min (stop - off) 32
      let block ← flashRead cfg flash sector off blkSz
      crc8Loop flash sector stop rounds (off + blkSz) (crc8Ccitt crc8 block)
    else
      some crc8

/-- Length of an element, as `fcb_elem_crc8` and `fcb_elem_endmarker_fixed` read it. -/
def elemLen (loc : Loc) : Except ℤ (ℕ × Loc) :=
  if loc.elemOff + 2 > cfg.size loc.sector then .error (-ENOTSUP)
  else
    match getLen cfg (flash loc.sector loc.elemOff) (flash loc.sector (loc.elemOff + 1)) with
    | none => .error (-ENOTSUP)
    | some (cnt, len) =>
      .ok (cnt, { loc with dataOff := loc.elemOff + lenInFlash cfg cnt, dataLen := len })

/-- `fcb_elem_crc8`: the result, the entry and the CRC. -/
def elemCrc8 (loc : Loc) : ℤ × Loc × UInt8 :=
  match elemLen cfg flash loc with
  | .error rc => (rc, loc, 0)
  | .ok (cnt, loc) =>
    let crc8 := crc8Ccitt 0xff (loadBytes (flash loc.sector) loc.elemOff cnt)
    match crc8Loop cfg flash loc.sector (loc.dataOff + loc.dataLen) loc.dataLen loc.dataOff crc8 with
    | none => (- EIO, loc, 0)
    | some crc8 => (0, loc, crc8)

/-- `fcb_elem_endmarker_fixed`. -/
def elemEndmarkerFixed (loc : Loc) : ℤ × Loc × UInt8 :=
  match elemLen cfg flash loc with
  | .error rc => (rc, loc, 0)
  | .ok (_, loc) => (0, loc, FCB_FIXED_ENDMARKER)

/-- `fcb_elem_endmarker`. -/
def elemEndmarker (loc : Loc) : ℤ × Loc × UInt8 :=
  if cfg.allowFixed ∧ cfg.crcDisabled then elemEndmarkerFixed cfg flash loc
  else elemCrc8 cfg flash loc

/-- `fcb_elem_info`. -/
def elemInfo (loc : Loc) : ℤ × Loc :=
  match elemEndmarker cfg flash loc with
  | (rc, loc, em) =>
    if rc ≠ 0 then (rc, loc)
    else
      match flashRead cfg flash loc.sector (loc.dataOff + lenInFlash cfg loc.dataLen) 1 with
      | none => (- EIO, loc)
      | some flEm =>
        if cfg.allowFixed ∧ flEm ≠ [em] then
          match elemCrc8 cfg flash loc with
          | (rc, loc, em) =>
            if rc ≠ 0 then (rc, loc)
            else if flEm ≠ [em] then (-EBADMSG, loc)
            else (0, loc)
        else if flEm ≠ [em] then (-EBADMSG, loc)
        else (0, loc)

/-! ### Going through the elements -/

/-- Loop of `fcb_getnext_in_sector`: the offset grows in every round. -/
def nextLoop (flash : Flash) : ℕ → Loc → ℤ × Loc
  | 0, loc => (-ENOTSUP, loc)
  | rounds + 1, loc =>
    let loc := { loc with
      elemOff := loc.dataOff + lenInFlash cfg loc.dataLen + lenInFlash cfg 1 }
    match elemInfo cfg flash loc with
    | (rc, loc) => if rc = -EBADMSG then nextLoop flash rounds loc else (rc, loc)

/-- `fcb_getnext_in_sector`. -/
def getnextInSector (loc : Loc) : ℤ × Loc :=
  match elemInfo cfg flash loc with
  | (rc, loc) =>
    if rc = 0 ∨ rc = -EBADMSG then nextLoop cfg flash (cfg.size loc.sector + 1) loc else (rc, loc)

/-- `fcb_getnext_sector`. -/
def getnextSector (sector : ℕ) : ℕ := if sector + 1 ≥ cfg.sectorCnt then 0 else sector + 1

end

/-- Internal state of `struct fcb`, with the flash. -/
structure State where
  oldest : ℕ
  activeSector : ℕ
  activeOff : ℕ
  activeId : ℕ
  flash : Flash

section

variable (cfg : Cfg)

/-- Where `fcb_getnext_nolock` goes on. -/
inductive Label
  | whileBad
  | nextSector

/-- Loop of `fcb_getnext_nolock` and the label in it. -/
def getnextLoop (fcb : State) : ℕ → Label → Loc → Option (ℤ × Loc)
  | 0, _, _ => none
  | rounds + 1, .whileBad, loc =>
    match getnextInSector cfg fcb.flash loc with
    | (rc, loc) =>
      if rc = 0 then some (0, loc)
      else if rc ≠ -EBADMSG then getnextLoop fcb rounds .nextSector loc
      else getnextLoop fcb rounds .whileBad loc
  | rounds + 1, .nextSector, loc =>
    if loc.sector = fcb.activeSector then some (-ENOTSUP, loc)
    else
      let loc := { loc with sector := getnextSector cfg loc.sector, elemOff := hdrLen cfg }
      match elemInfo cfg fcb.flash loc with
      | (rc, loc) =>
        if rc = 0 then some (0, loc)
        else if rc = -EBADMSG then getnextLoop fcb rounds .whileBad loc
        else getnextLoop fcb rounds .nextSector loc

/-- `fcb_getnext_nolock`, with the sector of the entry or NULL. A sector takes at most two rounds. -/
def getnextNolock (fcb : State) (sector : Option ℕ) (loc : Loc) : Option (ℤ × Loc) :=
  let rounds := 2 * cfg.sectorCnt + 2
  let loc := { loc with sector := sector.getD fcb.oldest }
  if loc.elemOff = 0 then
    match elemInfo cfg fcb.flash { loc with elemOff := hdrLen cfg } with
    | (rc, loc) =>
      if rc = 0 then some (0, loc)
      else if rc = -EBADMSG then getnextLoop cfg fcb rounds .whileBad loc
      else getnextLoop cfg fcb rounds .nextSector loc
  else
    match getnextInSector cfg fcb.flash loc with
    | (rc, loc) =>
      if rc = 0 then some (0, loc)
      else if rc = -ENOTSUP then getnextLoop cfg fcb rounds .nextSector loc
      else if rc = -EBADMSG then getnextLoop cfg fcb rounds .whileBad loc
      else some (0, loc)

/-- Loop of `fcb_walk`, with the state of the callback. -/
def walkLoop {σ : Type} (fcb : State) (sector : Option ℕ) (cb : σ → Loc → ℤ × σ) :
    ℕ → Option ℕ → Loc → σ → Option (ℤ × σ)
  | 0, _, _, _ => none
  | rounds + 1, start, loc, st => do
    let (rc, loc) ← getnextNolock cfg fcb start loc
    if rc = -ENOTSUP then return (0, st)
    else if sector.isSome ∧ sector ≠ some loc.sector then return (0, st)
    else
      match cb st loc with
      | (rc, st) =>
        if rc ≠ 0 then return (rc, st)
        else walkLoop fcb sector cb rounds (some loc.sector) loc st

/-- `fcb_walk`. -/
def walk {σ : Type} (fcb : State) (sector : Option ℕ) (cb : σ → Loc → ℤ × σ) (rounds : ℕ)
    (st : σ) : Option (ℤ × σ) :=
  walkLoop cfg fcb sector cb rounds sector ⟨0, 0, 0, 0⟩ st

/-! ### Writing -/

/-- Loop of `fcb_new_sector`: none of the sectors behind `cur` is the oldest one. -/
def newSectorLoop (fcb : State) : ℕ → ℕ → Bool
  | 0, cur => getnextSector cfg cur ≠ fcb.oldest
  | cnt + 1, cur =>
    getnextSector cfg cur ≠ fcb.oldest && newSectorLoop fcb cnt (getnextSector cfg cur)

/-- `fcb_new_sector`. -/
def newSector (fcb : State) (cnt : ℕ) : Option ℕ :=
  if newSectorLoop cfg fcb cnt fcb.activeSector then some (getnextSector cfg fcb.activeSector)
  else none

def activate (fcb : State) (sector : ℕ) : Option State := do
  let flash ← sectorHdrInit cfg fcb.flash sector ((fcb.activeId + 1) % 2 ^ 16)
  return { fcb with
    flash := flash
    activeSector := sector
    activeOff := hdrLen cfg
    activeId := (fcb.activeId + 1) % 2 ^ 16 }

/-- `fcb_append_to_scratch`. -/
def appendToScratch (fcb : State) : ℤ × State :=
  match newSector cfg fcb 0 with
  | none => (-ENOSPC, fcb)
  | some sector =>
    match activate cfg fcb sector with
    | none => (- EIO, fcb)
    | some fcb => (0, fcb)

/-- End of `fcb_append`: the length is written, in `cnt` bytes, and `len` bytes are set aside. -/
def appendHere (fcb : State) (tmpStr : List UInt8) (len : ℕ) : ℤ × Loc × State :=
  match flashWrite cfg fcb.flash fcb.activeSector fcb.activeOff tmpStr with
  | none => (- EIO, ⟨0, 0, 0, 0⟩, fcb)
  | some flash =>
    let dataOff := fcb.activeOff + tmpStr.length
    (0, ⟨fcb.activeSector, fcb.activeOff, dataOff, 0⟩,
      { fcb with flash := flash, activeOff := dataOff + len })

/-- `fcb_append`. The length in the entry is left to `fcb_append_finish`. -/
def append (fcb : State) (len : ℕ) : ℤ × Loc × State :=
  match putLen cfg len with
  | none => (-EINVAL, ⟨0, 0, 0, 0⟩, fcb)
  | some bytes =>
    let cnt := lenInFlash cfg bytes.length
    let tmpStr := bytes ++ List.replicate (cnt - bytes.length) cfg.eraseValue
    let len := lenInFlash cfg len + lenInFlash cfg 1
    if fcb.activeOff + len + cnt > cfg.size fcb.activeSector then
      match newSector cfg fcb cfg.scratchCnt with
      | none => (-ENOSPC, ⟨0, 0, 0, 0⟩, fcb)
      | some sector =>
        if cfg.size sector < hdrLen cfg + len + cnt then (-ENOSPC, ⟨0, 0, 0, 0⟩, fcb)
        else
          match activate cfg fcb sector with
          | none => (- EIO, ⟨0, 0, 0, 0⟩, fcb)
          | some fcb => appendHere cfg fcb tmpStr len
    else
      appendHere cfg fcb tmpStr len

/-- `fcb_append_finish`. -/
def appendFinish (fcb : State) (loc : Loc) : ℤ × State :=
  match elemEndmarker cfg fcb.flash loc with
  | (rc, loc, em) =>
    if rc ≠ 0 then (rc, fcb)
    else
      match flashWrite cfg fcb.flash loc.sector (loc.dataOff + lenInFlash cfg loc.dataLen)
          (em :: List.replicate (cfg.align - 1) 0xff) with
      | none => (- EIO, fcb)
      | some flash => (0, { fcb with flash := flash })

/-- `fcb_rotate`. -/
def rotate (fcb : State) : ℤ × State :=
  let erased := { fcb with flash := eraseSector cfg fcb.flash fcb.oldest }
  if fcb.oldest = fcb.activeSector then
    match activate cfg erased (getnextSector cfg fcb.oldest) with
    | none => (- EIO, erased)
    | some fcb => (0, { fcb with oldest := getnextSector cfg fcb.oldest })
  else
    (0, { erased with oldest := getnextSector cfg fcb.oldest })

/-- `fcb_is_empty`. -/
def isEmpty (fcb : State) : Bool :=
  fcb.activeSector = fcb.oldest && fcb.activeOff = hdrLen cfg

/-- Loop of `fcb_clear`. -/
def clearLoop : ℕ → State → Option (ℤ × State)
  | 0, _ => none
  | rounds + 1, fcb =>
    if isEmpty cfg fcb then some (0, fcb)
    else
      match rotate cfg fcb with
      | (rc, fcb) => if rc ≠ 0 then some (rc, fcb) else clearLoop rounds fcb

/-- `fcb_clear`. It takes every sector out, at most. -/
def clear (fcb : State) : Option (ℤ × State) := clearLoop cfg (cfg.sectorCnt + 1) fcb

/-! ### Initialisation -/

/-- Value of an `int16_t`. -/
def toInt16 (id : ℕ) : ℤ := if id < 2 ^ 15 then id else (id : ℤ) - 2 ^ 16

/-- `FCB_ID_GT`. The operands are promoted to `int`, and the difference is one. -/
def idGt (a b : ℕ) : Bool := toInt16 a - toInt16 b > 0

/-- Ids and sectors found so far: the oldest and the newest. -/
structure Found where
  oldest : ℕ
  oldestSector : ℕ
  newest : ℕ
  newestSector : ℕ

def Found.update : Option Found → ℕ → ℕ → Found
  | none, sector, id => ⟨id, sector, id, sector⟩
  | some found, sector, id =>
    if idGt id found.newest then { found with newest := id, newestSector := sector }
    else if idGt found.oldest id then { found with oldest := id, oldestSector := sector }
    else found

/-- Loop of `fcb_init` over the sectors. -/
def scan (flash : Flash) : List ℕ → Option Found → Except ℤ (Option Found)
  | [], found => .ok found
  | sector :: sectors, found =>
    match sectorHdrRead cfg flash sector with
    | .error rc => .error rc
    | .ok none => scan flash sectors found
    | .ok (some id) => scan flash sectors (some (Found.update found sector id))

/-- Last loop of `fcb_init`. The offset grows in every round. -/
def endLoop (flash : Flash) : ℕ → Loc → ℤ × Loc
  | 0, loc => (0, loc)
  | rounds + 1, loc =>
    match getnextInSector cfg flash loc with
    | (rc, loc) =>
      if rc = -ENOTSUP then (0, loc)
      else if rc ≠ 0 then (rc, loc)
      else endLoop flash rounds loc

/-- End of `fcb_init`. -/
def initAt (flash : Flash) (found : Found) : ℤ × State :=
  match endLoop cfg flash (cfg.size found.newestSector + 1)
      ⟨found.newestSector, hdrLen cfg, 0, 0⟩ with
  | (rc, loc) =>
    (rc, ⟨found.oldestSector, found.newestSector, loc.elemOff, found.newest, flash⟩)

/-- `fcb_init`. -/
def init (flash : Flash) : Except ℤ (ℤ × State) :=
  match scan cfg flash (List.range cfg.sectorCnt) none with
  | .error rc => .error rc
  | .ok (some found) => .ok (initAt cfg flash found)
  | .ok none =>
    match sectorHdrInit cfg flash 0 0 with
    | none => .error (- EIO)
    | some flash => .ok (initAt cfg flash ⟨0, 0, 0, 0⟩)

end

end Fcb

end TlZephyr
