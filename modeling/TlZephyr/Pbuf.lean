import TlZephyr.Errno
import TlZephyr.Lib.Memory
import TlZephyr.Lib.Word32

/-!
# IPC Packet Buffer and its Peer

Model of `pbuf_write` and `pbuf_read` of `pbuf.c`, on one core. The indices this core moves
are private copies; the other index, the lengths of packets and their contents are in shared
memory, where the other core may put anything at any moment. A call loads the shared index first
and does the rest in a second step, so that the other core may act in between; it loads the
length of a packet once, and what changes later changes only the bytes copied.

Positions in the data area are relative to `data_loc`. Every access to the area and every write
to the caller's buffer is logged.
-/

namespace TlZephyr

open Memory Word32 List

/-- Length of the data area as `validate_cfg` accepts it. -/
structure PbufCfg where
  len : ℕ
  /-- `_PBUF_MIN_DATA_LEN` -/
  min_le : 12 ≤ len
  aligned : 4 ∣ len
  lt : len < 2 ^ 32

/-- `count` bytes from `start` on. -/
structure PbufSpan where
  start : ℕ
  count : ℕ
deriving DecidableEq, Repr

/-- The bytes are among the first `n`. -/
def PbufSpan.Inside (n : ℕ) (a : PbufSpan) : Prop := a.start + a.count ≤ n

instance decidablePbufInside (n : ℕ) (a : PbufSpan) : Decidable (a.Inside n) :=
  inferInstanceAs (Decidable (a.start + a.count ≤ n))

/-- The call in progress, with the shared index it has loaded. -/
inductive PbufCall
  | idle
  | writing (data : List UInt8) (rdIdx : ℕ)
  /-- `buf` is the length of the caller's buffer, if there is one -/
  | reading (buf : Option ℕ) (wrIdx : ℕ)
deriving DecidableEq, Repr

/-- `struct pbuf_data`, the shared memory, the call in progress and the logs. -/
structure Pbuf where
  wrIdx : ℕ
  rdIdx : ℕ
  wrIdxLoc : ℕ
  rdIdxLoc : ℕ
  data : Mem
  call : PbufCall
  accesses : List PbufSpan
  copies : List (PbufSpan × ℕ)
  results : List ℤ

open PbufSpan

namespace Pbuf

/-- `PBUF_PACKET_LEN_SZ`. -/
def packetLenSz : ℕ := 4

/-- `_PBUF_IDX_SIZE`. -/
def idxSize : ℕ := 4

def idxOccupied (len wrIdx rdIdx : ℕ) : ℕ :=
  if wrIdx < rdIdx then sub32 len (sub32 rdIdx wrIdx) else sub32 wrIdx rdIdx

def idxWrap (len idx : ℕ) : ℕ := if len ≤ idx then idx % len else idx

/-- `ROUND_UP(idx, _PBUF_IDX_SIZE)`. -/
def roundUp (idx : ℕ) : ℕ := (idx + 3) / 4 * 4 % 2 ^ 32

/-- Index after a packet whose data starts at `idx`. -/
def idxNext (len idx n : ℕ) : ℕ := idxWrap len (roundUp (add32 idx n))

/-- `pbuf_tx_init`. `pbuf_rx_init` does not clear the shared indices. -/
def init (data : Mem) : Pbuf := ⟨0, 0, 0, 0, data, .idle, [], [], []⟩

/-- A call returns `code`. -/
def ret (s : Pbuf) (code : ℤ) : Pbuf := { s with call := .idle, results := s.results ++ [code] }

/-! ### Writing -/

/-- `pbuf_write`: the load of the read index and its check. -/
def write (s : Pbuf) (data : List UInt8) : Pbuf :=
  if data.length = 0 then s.ret (-EINVAL)
  else if ¬ idxSize ∣ s.rdIdxLoc then s.ret (-EINVAL)
  else { s with call := .writing data s.rdIdxLoc }

variable (cfg : PbufCfg) (s : Pbuf)

def freeSpace (rdIdx : ℕ) : ℕ :=
  sub32 (sub32 cfg.len (idxOccupied cfg.len s.wrIdx rdIdx)) idxSize

def tailLen (cfg : PbufCfg) (idx n : ℕ) : ℕ := min n (sub32 cfg.len idx)

/-- Pieces of `n` bytes from `idx` on, with the rest at the front of the area. -/
def pieces (cfg : PbufCfg) (idx n : ℕ) : List PbufSpan :=
  let tail := tailLen cfg idx n
  ⟨idx, tail⟩ :: if tail < n then [⟨0, n - tail⟩] else []

/-- Accesses of a write that fits: the length, then the data. -/
def writeSpans (n : ℕ) : List PbufSpan :=
  ⟨s.wrIdx, packetLenSz⟩ :: pieces cfg (idxWrap cfg.len (add32 s.wrIdx packetLenSz)) n

/-- The length with two bytes cleared, the data up to the end of the area, the rest. -/
def writeData (data : List UInt8) : Mem :=
  let header := [UInt8.ofNat (data.length / 256), UInt8.ofNat data.length, 0, 0]
  let idx := idxWrap cfg.len (add32 s.wrIdx packetLenSz)
  let tail := tailLen cfg idx data.length
  storeBytes (storeBytes (storeBytes s.data s.wrIdx header) idx (data.take tail)) 0
    (data.drop tail)

/-- `pbuf_write` after the check of the read index. -/
def writeRest (data : List UInt8) (rdIdx : ℕ) : Pbuf :=
  if s.freeSpace cfg rdIdx < data.length + packetLenSz then s.ret (-ENOMEM)
  else
    let idx := idxWrap cfg.len (add32 s.wrIdx packetLenSz)
    let wrIdx := idxNext cfg.len idx data.length
    { s with
      wrIdx := wrIdx
      wrIdxLoc := wrIdx
      data := writeData cfg s data
      accesses := s.accesses ++ writeSpans cfg s data.length
      call := .idle
      results := s.results ++ [(data.length : ℤ)] }

/-! ### Reading -/

/-- `pbuf_read`: the load of the write index and its checks. -/
def read (s : Pbuf) (buf : Option ℕ) : Pbuf :=
  if ¬ idxSize ∣ s.wrIdxLoc then s.ret (-EINVAL)
  else if s.rdIdx = s.wrIdxLoc then s.ret 0
  else { s with call := .reading buf s.wrIdxLoc }

/-- `plen`: the length of the packet at the read index. -/
def plen (s : Pbuf) : ℕ := (s.data s.rdIdx).toNat * 256 + (s.data (s.rdIdx + 1)).toNat

def loadLen (s : Pbuf) : Pbuf := { s with accesses := s.accesses ++ [⟨s.rdIdx, 2⟩] }

/-- The accesses of a read of `n` bytes after the length. -/
def readSpans (n : ℕ) : List PbufSpan :=
  pieces cfg (idxWrap cfg.len (add32 s.rdIdx packetLenSz)) n

/-- Pieces of the caller's buffer that `n` bytes are copied to. -/
def copySpans (n : ℕ) : List PbufSpan :=
  let tail := tailLen cfg (idxWrap cfg.len (add32 s.rdIdx packetLenSz)) n
  ⟨0, tail⟩ :: if tail < n then [⟨tail, n - tail⟩] else []

/-- `pbuf_read` after the checks of the write index. -/
def readRest (buf : Option ℕ) (wrIdx : ℕ) : Pbuf :=
  match buf with
  | none => s.loadLen.ret s.plen
  | some len =>
    if len < s.plen then s.loadLen.ret (-ENOMEM)
    else if idxOccupied cfg.len wrIdx s.rdIdx < s.plen + packetLenSz then s.loadLen.ret (-EAGAIN)
    else
      let idx := idxWrap cfg.len (add32 s.rdIdx packetLenSz)
      let rdIdx := idxNext cfg.len idx s.plen
      { s.loadLen with
        rdIdx := rdIdx
        rdIdxLoc := rdIdx
        accesses := s.loadLen.accesses ++ readSpans cfg s s.plen
        copies := s.copies ++ (copySpans cfg s s.plen).map (·, len)
        call := .idle
        results := s.results ++ [(s.plen : ℤ)] }

/-! ### Runs -/

/-- A store of the other core to shared memory, or a step of this one. -/
inductive Op
  | peerWrIdx (idx : ℕ)
  | peerRdIdx (idx : ℕ)
  | peerData (i : ℕ) (b : UInt8)
  | write (data : List UInt8)
  | read (buf : Option ℕ)
  | resume
deriving DecidableEq, Repr

/-- The shared words hold 32 bits. A call is made when none is in progress. -/
def step : Op → Pbuf
  | .peerWrIdx idx => { s with wrIdxLoc := idx % 2 ^ 32 }
  | .peerRdIdx idx => { s with rdIdxLoc := idx % 2 ^ 32 }
  | .peerData i b => { s with data := storeBytes s.data (i % cfg.len) [b] }
  | .write data => if s.call = .idle ∧ data.length < 2 ^ 16 then s.write data else s
  | .read buf => if s.call = .idle then s.read buf else s
  | .resume =>
    match s.call with
    | .idle => s
    | .writing data rdIdx => s.writeRest cfg data rdIdx
    | .reading buf wrIdx => s.readRest cfg buf wrIdx

def run (ops : List Op) : Pbuf := ops.foldl (step cfg) s

/-- A packet at `idx` is no longer than what is left of the area and the whole area again. -/
def Fits (cfg : PbufCfg) (idx n : ℕ) : Prop := (idx + 4) % cfg.len + n ≤ 2 * cfg.len

/-- An index far enough ahead for a packet comes with a packet that fits. -/
def StepOk : Op → Prop
  | .resume =>
    match s.call with
    | .idle => True
    | .writing data rdIdx =>
      s.wrIdx + data.length + 8 ≤ rdIdx → Fits cfg s.wrIdx data.length
    | .reading none _ => True
    | .reading (some len) wrIdx =>
      s.plen ≤ len → s.rdIdx + s.plen + 4 ≤ wrIdx → Fits cfg s.rdIdx s.plen
  | _ => True

/-- Every step of the run meets `StepOk`. -/
def RunOk (cfg : PbufCfg) (s : Pbuf) : List Op → Prop
  | [] => True
  | op :: ops => s.StepOk cfg op ∧ RunOk cfg (s.step cfg op) ops

/-! ### Indices -/

section indices

variable {cfg : PbufCfg} {idx n : ℕ}

def IsIdx (cfg : PbufCfg) (idx : ℕ) : Prop := idx < cfg.len ∧ 4 ∣ idx

theorem idxWrap_eq (len idx : ℕ) : idxWrap len idx = idx % len := by
  unfold idxWrap
  split_ifs with h
  · rfl
  · exact (Nat.mod_eq_of_lt (not_le.mp h)).symm

theorem isIdx_idxWrap (hidx : 4 ∣ idx) : IsIdx cfg (idxWrap cfg.len idx) := by
  rw [idxWrap_eq]
  have hlen := cfg.min_le
  exact ⟨Nat.mod_lt _ (by omega), (Nat.dvd_mod_iff cfg.aligned).mpr hidx⟩

theorem isIdx_idxNext (cfg : PbufCfg) (idx n : ℕ) : IsIdx cfg (idxNext cfg.len idx n) := by
  refine isIdx_idxWrap ?_
  unfold roundUp
  omega

theorem idxWrap_packetLen (h : IsIdx cfg idx) :
    idxWrap cfg.len (add32 idx packetLenSz) = (idx + 4) % cfg.len := by
  have hlt := cfg.lt
  have haligned := cfg.aligned
  obtain ⟨hidx, h4⟩ := h
  rw [idxWrap_eq, packetLenSz, add32_of_lt (by omega)]

theorem tailLen_eq (h : idx < cfg.len) : tailLen cfg idx n = min n (cfg.len - idx) := by
  rw [tailLen, sub32_of_le h.le cfg.lt]

/-- The pieces of a packet are inside exactly when its rest is no longer than the area. -/
theorem forall_pieces_iff (h : idx < cfg.len) :
    (∀ a ∈ pieces cfg idx n, a.Inside cfg.len) ↔ idx + n ≤ 2 * cfg.len := by
  have htail := tailLen_eq (n := n) h
  unfold pieces
  dsimp only
  split_ifs with hlt
  · simp only [mem_cons, not_mem_nil, or_false, forall_eq_or_imp, forall_eq, Inside]
    omega
  · simp only [mem_cons, not_mem_nil, or_false, forall_eq, Inside]
    omega

end indices

/-! ### One call -/

section calls

variable {cfg : PbufCfg} {s : Pbuf}

structure Inv (cfg : PbufCfg) (s : Pbuf) : Prop where
  wrIdx : IsIdx cfg s.wrIdx
  rdIdx : IsIdx cfg s.rdIdx
  wrIdxLoc : s.wrIdxLoc < 2 ^ 32
  rdIdxLoc : s.rdIdxLoc < 2 ^ 32
  writing : ∀ data rd, s.call = .writing data rd →
    (0 < data.length ∧ data.length < 2 ^ 16) ∧ rd < 2 ^ 32 ∧ 4 ∣ rd
  reading : ∀ buf wr, s.call = .reading buf wr → wr < 2 ^ 32 ∧ 4 ∣ wr

variable {rd wr n : ℕ} {data : List UInt8}

theorem freeSpace_eq (h : IsIdx cfg s.wrIdx) (hrd : rd < 2 ^ 32) (h4 : 4 ∣ rd) :
    s.freeSpace cfg rd =
      if s.wrIdx < rd then rd - s.wrIdx - 4 else cfg.len - (s.wrIdx - rd) - 4 := by
  obtain ⟨hwr, hwr4⟩ := h
  have hlt := cfg.lt
  have haligned := cfg.aligned
  unfold freeSpace idxOccupied idxSize
  split_ifs with hcmp
  · rw [sub32_of_le hcmp.le hrd, sub32_sub32 hlt (by omega), sub32_of_le (by omega) (by omega)]
  · have hback : sub32 s.wrIdx rd = s.wrIdx - rd := sub32_of_le (by omega) (by omega)
    rw [hback, sub32_of_le (by omega) hlt, sub32_of_le (by omega) (by omega)]

theorem idxOccupied_eq (h : IsIdx cfg s.rdIdx) (hwr : wr < 2 ^ 32) :
    idxOccupied cfg.len wr s.rdIdx =
      if wr < s.rdIdx then cfg.len - (s.rdIdx - wr) else wr - s.rdIdx := by
  obtain ⟨hrd, -⟩ := h
  have hlt := cfg.lt
  unfold idxOccupied
  split_ifs with hcmp
  · rw [sub32_of_le hcmp.le (by omega), sub32_of_le (by omega) hlt]
  · exact sub32_of_le (by omega) hwr

/-- **A write stays inside** exactly when its packet fits or the space was not there. -/
theorem forall_writeSpans_iff (h : IsIdx cfg s.wrIdx) :
    (∀ a ∈ writeSpans cfg s n, a.Inside cfg.len) ↔ Fits cfg s.wrIdx n := by
  have hlen := cfg.min_le
  have haligned := cfg.aligned
  have hheader : (⟨s.wrIdx, packetLenSz⟩ : PbufSpan).Inside cfg.len := by
    obtain ⟨hlt, h4⟩ := h
    unfold Inside packetLenSz
    dsimp only
    omega
  have hidx : (s.wrIdx + 4) % cfg.len < cfg.len := Nat.mod_lt _ (by omega)
  rw [writeSpans, forall_mem_cons, idxWrap_packetLen h, forall_pieces_iff hidx, Fits]
  exact and_iff_right hheader

/-- **A read stays inside** exactly when its packet fits. -/
theorem forall_readSpans_iff (h : IsIdx cfg s.rdIdx) :
    (∀ a ∈ readSpans cfg s n, a.Inside cfg.len) ↔ Fits cfg s.rdIdx n := by
  have hlen := cfg.min_le
  have hidx : (s.rdIdx + 4) % cfg.len < cfg.len := Nat.mod_lt _ (by omega)
  rw [readSpans, idxWrap_packetLen h, forall_pieces_iff hidx, Fits]

theorem fits_of_le {idx : ℕ} (h : n ≤ cfg.len) : Fits cfg idx n := by
  have hlen := cfg.min_le
  have := Nat.mod_lt (idx + 4) (show cfg.len > 0 by omega)
  unfold Fits
  omega

theorem writeRest_accesses (h : Inv cfg s) (hc : s.call = .writing data rd) :
    (∀ a ∈ (s.writeRest cfg data rd).accesses, a.Inside cfg.len) ↔
      (∀ a ∈ s.accesses, a.Inside cfg.len) ∧ s.StepOk cfg .resume := by
  obtain ⟨⟨hpos, h16⟩, hrd, h4⟩ := h.writing data rd hc
  have hfree := freeSpace_eq h.wrIdx hrd h4
  have hok : s.StepOk cfg .resume ↔
      (s.wrIdx + data.length + 8 ≤ rd → Fits cfg s.wrIdx data.length) := by
    simp only [StepOk, hc]
  rw [hok, writeRest]
  obtain ⟨hwr, -⟩ := h.wrIdx
  split_ifs with hspace
  · -- the index is not ahead by that much
    refine (and_iff_left fun hahead => ?_).symm
    rw [hfree, if_pos (by omega)] at hspace
    unfold packetLenSz at hspace
    omega
  rw [forall_mem_append, forall_writeSpans_iff h.wrIdx]
  refine and_congr_right fun _ => ⟨fun hf _ => hf, fun himp => ?_⟩
  rw [hfree] at hspace
  unfold packetLenSz at hspace
  split_ifs at hspace with hcmp
  · exact himp (by omega)
  · exact fits_of_le (by omega)

theorem readRest_accesses (h : Inv cfg s) {buf : Option ℕ} (hc : s.call = .reading buf wr) :
    (∀ a ∈ (s.readRest cfg buf wr).accesses, a.Inside cfg.len) ↔
      (∀ a ∈ s.accesses, a.Inside cfg.len) ∧ s.StepOk cfg .resume := by
  obtain ⟨hwr, h4⟩ := h.reading buf wr hc
  have hload : (∀ a ∈ s.loadLen.accesses, a.Inside cfg.len) ↔
      ∀ a ∈ s.accesses, a.Inside cfg.len := by
    have haligned := cfg.aligned
    obtain ⟨hlt, h4⟩ := h.rdIdx
    rw [loadLen, forall_mem_append, forall_mem_singleton]
    refine and_iff_left ?_
    unfold Inside
    dsimp only
    omega
  rcases buf with _ | len
  · have hok : s.StepOk cfg .resume := by simp only [StepOk, hc]
    exact hload.trans (and_iff_left hok).symm
  have hocc := idxOccupied_eq h.rdIdx hwr
  have hok : s.StepOk cfg .resume ↔
      (s.plen ≤ len → s.rdIdx + s.plen + 4 ≤ wr → Fits cfg s.rdIdx s.plen) := by
    simp only [StepOk, hc]
  obtain ⟨hrd, -⟩ := h.rdIdx
  rw [hok, readRest]
  split_ifs with hlen hspace
  · exact hload.trans (and_iff_left fun hle => by omega).symm
  · refine hload.trans (and_iff_left fun _ hahead => ?_).symm
    rw [hocc, if_neg (by omega)] at hspace
    unfold packetLenSz at hspace
    omega
  rw [forall_mem_append, hload, forall_readSpans_iff h.rdIdx]
  refine and_congr_right fun _ => ⟨fun hf _ _ => hf, fun himp => ?_⟩
  rw [hocc] at hspace
  unfold packetLenSz at hspace
  split_ifs at hspace with hcmp
  · exact fits_of_le (by omega)
  · exact himp (by omega) (by omega)

theorem step_accesses (h : Inv cfg s) (op : Op) :
    (∀ a ∈ (s.step cfg op).accesses, a.Inside cfg.len) ↔
      (∀ a ∈ s.accesses, a.Inside cfg.len) ∧ s.StepOk cfg op := by
  cases op with
  | peerWrIdx idx => exact (and_iff_left trivial).symm
  | peerRdIdx idx => exact (and_iff_left trivial).symm
  | peerData i b => exact (and_iff_left trivial).symm
  | write data =>
    have haccesses : (s.step cfg (.write data)).accesses = s.accesses := by
      simp only [step, write]
      split_ifs <;> rfl
    rw [haccesses]
    exact (and_iff_left trivial).symm
  | read buf =>
    have haccesses : (s.step cfg (.read buf)).accesses = s.accesses := by
      simp only [step, read]
      split_ifs <;> rfl
    rw [haccesses]
    exact (and_iff_left trivial).symm
  | resume =>
    cases hc : s.call with
    | idle =>
      have hok : s.StepOk cfg .resume := by simp only [StepOk, hc]
      simp only [step, hc]
      exact (and_iff_left hok).symm
    | writing data rd =>
      simp only [step, hc]
      exact writeRest_accesses h hc
    | reading buf wr =>
      simp only [step, hc]
      exact readRest_accesses h hc

/-! ### Caller's buffer -/

theorem inside_of_mem_copySpans {a : PbufSpan} (ha : a ∈ copySpans cfg s n) : a.Inside n := by
  have htail : tailLen cfg (idxWrap cfg.len (add32 s.rdIdx packetLenSz)) n ≤ n :=
    Nat.min_le_left _ _
  unfold copySpans at ha
  dsimp only at ha
  rcases mem_cons.mp ha with rfl | ha
  · unfold Inside
    dsimp only
    omega
  split_ifs at ha
  · rw [mem_singleton.mp ha]
    unfold Inside
    dsimp only
    omega
  · exact absurd ha not_mem_nil

/-- A read copies no more than its packet, and that is no more than the buffer holds. -/
theorem readRest_copies (hs : ∀ c ∈ s.copies, c.1.Inside c.2) (buf : Option ℕ) (wr : ℕ) :
    ∀ c ∈ (s.readRest cfg buf wr).copies, c.1.Inside c.2 := by
  rcases buf with _ | len
  · exact hs
  rw [readRest]
  split_ifs with hlen hspace
  · exact hs
  · exact hs
  intro c hc
  rcases mem_append.mp hc with hc | hc
  · exact hs c hc
  · obtain ⟨a, ha, rfl⟩ := mem_map.mp hc
    exact le_trans (inside_of_mem_copySpans ha) (not_lt.mp hlen)

theorem step_copies (hs : ∀ c ∈ s.copies, c.1.Inside c.2) (op : Op) :
    ∀ c ∈ (s.step cfg op).copies, c.1.Inside c.2 := by
  cases op with
  | peerWrIdx idx => exact hs
  | peerRdIdx idx => exact hs
  | peerData i b => exact hs
  | write data =>
    simp only [step, write]
    split_ifs <;> exact hs
  | read buf =>
    simp only [step, read]
    split_ifs <;> exact hs
  | resume =>
    cases hc : s.call with
    | idle => simpa only [step, hc] using hs
    | writing data rd =>
      simp only [step, hc, writeRest]
      split_ifs <;> exact hs
    | reading buf wr =>
      simp only [step, hc]
      exact readRest_copies hs buf wr

/-! ### Runs -/

theorem Inv.of_idle (hcall : s.call = .idle) (hwr : IsIdx cfg s.wrIdx) (hrd : IsIdx cfg s.rdIdx)
    (hwrLoc : s.wrIdxLoc < 2 ^ 32) (hrdLoc : s.rdIdxLoc < 2 ^ 32) : Inv cfg s := by
  refine ⟨hwr, hrd, hwrLoc, hrdLoc, fun data rd hc => ?_, fun buf wr hc => ?_⟩
  · rw [hcall] at hc
    cases hc
  · rw [hcall] at hc
    cases hc

theorem Inv.init (cfg : PbufCfg) (data : Mem) : Inv cfg (init data) := by
  have h0 : IsIdx cfg 0 := ⟨by have := cfg.min_le; omega, dvd_zero 4⟩
  exact Inv.of_idle rfl h0 h0 (by norm_num [Pbuf.init]) (by norm_num [Pbuf.init])

theorem Inv.ret (h : Inv cfg s) (code : ℤ) : Inv cfg (s.ret code) :=
  Inv.of_idle rfl h.wrIdx h.rdIdx h.wrIdxLoc h.rdIdxLoc

theorem Inv.write (h : Inv cfg s) (h16 : data.length < 2 ^ 16) : Inv cfg (s.write data) := by
  unfold Pbuf.write
  split_ifs with hlen h4
  · exact h.ret _
  · refine ⟨h.wrIdx, h.rdIdx, h.wrIdxLoc, h.rdIdxLoc, fun data rd hc => ?_, fun _ _ hc => ?_⟩
    · cases hc
      exact ⟨⟨Nat.pos_of_ne_zero hlen, h16⟩, h.rdIdxLoc, h4⟩
    · cases hc
  · exact h.ret _

theorem Inv.read (h : Inv cfg s) (buf : Option ℕ) : Inv cfg (s.read buf) := by
  unfold Pbuf.read
  split_ifs with h4 heq
  · exact h.ret _
  · refine ⟨h.wrIdx, h.rdIdx, h.wrIdxLoc, h.rdIdxLoc, fun _ _ hc => ?_, fun buf wr hc => ?_⟩
    · cases hc
    · cases hc
      exact ⟨h.wrIdxLoc, h4⟩
  · exact h.ret _

theorem Inv.loadLen (h : Inv cfg s) : Inv cfg s.loadLen :=
  ⟨h.wrIdx, h.rdIdx, h.wrIdxLoc, h.rdIdxLoc, h.writing, h.reading⟩

theorem Inv.writeRest (h : Inv cfg s) (data : List UInt8) (rd : ℕ) :
    Inv cfg (s.writeRest cfg data rd) := by
  unfold Pbuf.writeRest
  split_ifs
  · exact h.ret _
  · have hnext := isIdx_idxNext cfg (idxWrap cfg.len (add32 s.wrIdx packetLenSz)) data.length
    exact Inv.of_idle rfl hnext h.rdIdx (hnext.1.trans cfg.lt) h.rdIdxLoc

theorem Inv.readRest (h : Inv cfg s) (buf : Option ℕ) (wr : ℕ) :
    Inv cfg (s.readRest cfg buf wr) := by
  rcases buf with _ | len
  · exact h.loadLen.ret _
  rw [Pbuf.readRest]
  split_ifs
  · exact h.loadLen.ret _
  · exact h.loadLen.ret _
  · have hnext := isIdx_idxNext cfg (idxWrap cfg.len (add32 s.rdIdx packetLenSz)) s.plen
    exact Inv.of_idle rfl h.wrIdx hnext h.wrIdxLoc (hnext.1.trans cfg.lt)

/-- **Whatever the other core does, the private indices stay in the area.** -/
theorem Inv.step (h : Inv cfg s) (op : Op) : Inv cfg (s.step cfg op) := by
  have hmod : ∀ idx : ℕ, idx % 2 ^ 32 < 2 ^ 32 := fun idx => Nat.mod_lt _ (by norm_num)
  cases op with
  | peerWrIdx idx => exact ⟨h.wrIdx, h.rdIdx, hmod idx, h.rdIdxLoc, h.writing, h.reading⟩
  | peerRdIdx idx => exact ⟨h.wrIdx, h.rdIdx, h.wrIdxLoc, hmod idx, h.writing, h.reading⟩
  | peerData i b => exact ⟨h.wrIdx, h.rdIdx, h.wrIdxLoc, h.rdIdxLoc, h.writing, h.reading⟩
  | write data =>
    simp only [Pbuf.step]
    split_ifs with hc
    · exact h.write hc.2
    · exact h
  | read buf =>
    simp only [Pbuf.step]
    split_ifs
    · exact h.read buf
    · exact h
  | resume =>
    cases hc : s.call with
    | idle => simpa only [Pbuf.step, hc] using h
    | writing data rd => simpa only [Pbuf.step, hc] using h.writeRest data rd
    | reading buf wr => simpa only [Pbuf.step, hc] using h.readRest buf wr

theorem run_accesses (h : Inv cfg s) (ops : List Op) :
    (∀ a ∈ (s.run cfg ops).accesses, a.Inside cfg.len) ↔
      (∀ a ∈ s.accesses, a.Inside cfg.len) ∧ RunOk cfg s ops := by
  induction ops generalizing s with
  | nil => exact (and_iff_left trivial).symm
  | cons op ops ih =>
    have hstep := step_accesses h op
    calc (∀ a ∈ ((s.step cfg op).run cfg ops).accesses, a.Inside cfg.len)
        ↔ (∀ a ∈ (s.step cfg op).accesses, a.Inside cfg.len) ∧
            RunOk cfg (s.step cfg op) ops := ih (h.step op)
      _ ↔ (∀ a ∈ s.accesses, a.Inside cfg.len) ∧ RunOk cfg s (op :: ops) := by
          rw [hstep, and_assoc, RunOk]

theorem run_copies (hs : ∀ c ∈ s.copies, c.1.Inside c.2) (ops : List Op) :
    ∀ c ∈ (s.run cfg ops).copies, c.1.Inside c.2 := by
  induction ops generalizing s with
  | nil => exact hs
  | cons op ops ih => exact ih (step_copies hs op)

end calls

end Pbuf

/-- **When a peer can make this core leave the data area.** For every accepted area, every sequence
of calls and whatever the other core stores: all accesses are inside exactly when every call meets
`StepOk`. The caller's buffer is never overrun. -/
theorem pbuf_in_bounds_iff (cfg : PbufCfg) (data : Mem) (ops : List Pbuf.Op) :
    ((∀ a ∈ (Pbuf.run cfg (Pbuf.init data) ops).accesses, a.Inside cfg.len) ↔
        Pbuf.RunOk cfg (Pbuf.init data) ops) ∧
      ∀ c ∈ (Pbuf.run cfg (Pbuf.init data) ops).copies, c.1.Inside c.2 := by
  refine ⟨(Pbuf.run_accesses (Pbuf.Inv.init cfg data) ops).trans (and_iff_right ?_),
    Pbuf.run_copies ?_ ops⟩
  · exact fun a ha => absurd ha not_mem_nil
  · exact fun c hc => absurd hc not_mem_nil

def pbufSmallest : PbufCfg := ⟨12, by decide, by decide, by decide⟩

/-- The other core sets the read index to `0x1000`; this one writes 100 bytes. -/
def pbufOverrun : List Pbuf.Op :=
  [.peerRdIdx 0x1000, .write (List.replicate 100 1), .resume]

/-- **A write runs out of the area**: 92 bytes are copied into an area of 12. -/
theorem pbuf_write_overrun :
    ∃ a ∈ (Pbuf.run pbufSmallest (Pbuf.init fun _ => 0) pbufOverrun).accesses,
      ¬ a.Inside pbufSmallest.len :=
  ⟨⟨0, 92⟩, by decide +kernel, by decide⟩

end TlZephyr
