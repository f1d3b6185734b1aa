import TlZephyr.Lib.Memory

/-!
# CMUX Frames

The receiver of `modem_cmux.c`, byte by byte, with its accesses to `receive_buf`, `frame_header` and
`frame.data`. The pointer `frame.data` is `NULL` until a frame is dispatched, but the check sequence
of frames other than UIH is computed over it before. A length of zero in two bytes is never reached
by the count of data bytes, until that wraps around.
-/

namespace TlZephyr

open List Memory

def crc8RohcSmallTable : List UInt8 :=
  [0x00, 0x1c, 0x38, 0x24, 0x70, 0x6c, 0x48, 0x54, 0xe0, 0xfc, 0xd8, 0xc4, 0x90, 0x8c, 0xa8, 0xb4]

/-- Half a byte of `crc8_rohc`. -/
def crc8RohcNibble (val : UInt8) : UInt8 :=
  (val >>> 4) ^^^ crc8RohcSmallTable.getD (val &&& 0x0f).toNat 0

def crc8Rohc (val : UInt8) (buf : List UInt8) : UInt8 :=
  buf.foldl (fun val b => crc8RohcNibble (crc8RohcNibble (val ^^^ b))) val

/-- `MODEM_CMUX_RECEIVE_STATE_*`. -/
inductive CmuxState
  | sof
  | resync
  | address
  | control
  | length
  | lengthCont
  | data
  | fcs
  | drop
  | eof
deriving DecidableEq

/-- Receiving part of `struct modem_cmux`; `frameHeader` is the part in use, and `hasData` says
that `frame.data` is `receive_buf` and not `NULL`. -/
structure Cmux where
  receiveState : CmuxState
  receiveBuf : Mem
  receiveBufLen : ℕ
  frameHeader : List UInt8
  cr : Bool
  pf : Bool
  dlciAddress : UInt8
  type : UInt8
  hasData : Bool
  dataLen : ℕ

/-- A store to the header or the buffer, and what `crc8_rohc` reads. -/
inductive CmuxAccess
  | header (index : ℕ)
  | receiveBuf (index : ℕ)
  | headerBytes (len : ℕ)
  | frameData (hasData : Bool) (len : ℕ)
deriving DecidableEq

/-- The access is inside `frame_header`, of five bytes, or `receive_buf`. -/
def CmuxAccess.Inside (size : ℕ) : CmuxAccess → Prop
  | .header index => index < 5
  | .receiveBuf index => index < size
  | .headerBytes len => len ≤ 5
  | .frameData hasData len => len = 0 ∨ hasData = true ∧ len ≤ size

/-- A frame that is dispatched. -/
structure CmuxFrame where
  dlciAddress : UInt8
  cr : Bool
  pf : Bool
  type : UInt8
  data : List UInt8

namespace Cmux

/-- `modem_cmux_init`. -/
def init : Cmux := ⟨.sof, fun _ => 0, 0, [], false, false, 0, 0, false, 0⟩

/-- First byte of a frame. -/
def onAddress (c : Cmux) (byte : UInt8) : Cmux × List CmuxAccess × Option CmuxFrame :=
  ({ c with
      receiveBufLen := 0
      frameHeader := [byte]
      cr := byte &&& 0x02 != 0
      dlciAddress := (byte >>> 2) &&& 0x3f
      receiveState := .control }, [.header 0], none)

/-- The frame check sequence. -/
def fcs (c : Cmux) : UInt8 :=
  let fcs := crc8Rohc 0xff c.frameHeader
  if c.type = 0xef then 0xff - fcs
  else 0xff - crc8Rohc fcs (loadBytes c.receiveBuf 0 c.dataLen)

/-- `modem_cmux_process_received_byte`, with its accesses and the frame that it dispatches. -/
def processReceivedByte (size : ℕ) (c : Cmux) (byte : UInt8) :
    Cmux × List CmuxAccess × Option CmuxFrame :=
  match c.receiveState with
  | .sof => ({ c with receiveState := if byte = 0xf9 then .resync else .sof }, [], none)
  | .resync => if byte = 0xf9 then (c, [], none) else c.onAddress byte
  | .address => c.onAddress byte
  | .control =>
    ({ c with
        frameHeader := c.frameHeader ++ [byte]
        pf := byte &&& 0x10 != 0
        type := byte &&& ~~~0x10
        receiveState := .length }, [.header c.frameHeader.length], none)
  | .length =>
    let dataLen := (byte >>> 1).toNat
    ({ c with
        frameHeader := c.frameHeader ++ [byte]
        dataLen := dataLen
        receiveState :=
          if byte &&& 1 = 0 then .lengthCont else if dataLen = 0 then .fcs else .data },
      [.header c.frameHeader.length], none)
  | .lengthCont =>
    let dataLen := c.dataLen ||| byte.toNat <<< 7
    ({ c with
        frameHeader := c.frameHeader ++ [byte]
        dataLen := dataLen
        receiveState := if size < dataLen then .drop else .data },
      [.header c.frameHeader.length], none)
  | .data =>
    let len := (c.receiveBufLen + 1) % 2 ^ 16
    ({ c with
        receiveBuf :=
          if c.receiveBufLen < size then storeBytes c.receiveBuf c.receiveBufLen [byte]
          else c.receiveBuf
        receiveBufLen := len
        receiveState := if c.dataLen = len then .fcs else .data },
      if c.receiveBufLen < size then [.receiveBuf c.receiveBufLen] else [], none)
  | .fcs =>
    if size < c.receiveBufLen then ({ c with receiveState := .drop }, [], none)
    else
      ({ c with receiveState := if c.fcs = byte then .eof else .drop },
        .headerBytes c.frameHeader.length ::
          if c.type = 0xef then [] else [.frameData c.hasData c.dataLen], none)
  | .drop => ({ c with receiveState := .sof }, [], none)
  | .eof =>
    if byte ≠ 0xf9 then ({ c with receiveState := .sof }, [], none)
    else
      ({ c with hasData := true, receiveState := .sof }, [],
        some ⟨c.dlciAddress, c.cr, c.pf, c.type, loadBytes c.receiveBuf 0 c.dataLen⟩)

def run (size : ℕ) (c : Cmux) (bytes : List UInt8) : Cmux :=
  bytes.foldl (fun c byte => (c.processReceivedByte size byte).1) c

/-- No length is zero in two bytes, and `frame.data` is not read before it is set. -/
def Proper (c : Cmux) (byte : UInt8) : Prop :=
  (c.receiveState = .lengthCont → c.dataLen = 0 → byte ≠ 0) ∧
    (c.receiveState = .fcs → c.type ≠ 0xef → c.dataLen ≠ 0 → c.hasData = true)

instance (c : Cmux) (byte : UInt8) : Decidable (c.Proper byte) :=
  inferInstanceAs (Decidable (_ ∧ _))

/-- All bytes of a stream are so. -/
def AllProper (size : ℕ) (c : Cmux) : List UInt8 → Prop
  | [] => True
  | byte :: bytes => c.Proper byte ∧ AllProper size (c.processReceivedByte size byte).1 bytes

/-- The receiver awaits a frame. -/
def AtStart (c : Cmux) : Prop := c.receiveState = .sof ∨ c.receiveState = .resync

instance (c : Cmux) : Decidable c.AtStart := inferInstanceAs (Decidable (_ ∨ _))

/-- Length that a header declares. -/
def declaredLen (header : List UInt8) : ℕ :=
  (header.getD 2 0 >>> 1).toNat ||| (header.getD 3 0).toNat <<< 7

/-- A frame at the end of a stream. -/
def FrameEnds (size : ℕ) (bytes : List UInt8) (f : CmuxFrame) : Prop :=
  f.data.length ≤ size ∧ ∃ before header fcs, (header.length = 3 ∨ header.length = 4) ∧
    declaredLen header = f.data.length ∧ bytes = before ++ header ++ f.data ++ [fcs, 0xf9]

/-! ### Invariant -/

/-- The stream ends with the header and the data bytes `xs`; as many as fit are in the buffer. -/
structure Holds (size : ℕ) (bytes : List UInt8) (c : Cmux) (xs : List UInt8) : Prop where
  stream : ∃ before, bytes = before ++ c.frameHeader ++ xs
  len : c.receiveBufLen = xs.length
  buf : loadBytes c.receiveBuf 0 (min xs.length size) = xs.take size

/-- The header is complete. -/
def Complete (c : Cmux) : Prop :=
  (c.frameHeader.length = 3 ∨ c.frameHeader.length = 4) ∧ declaredLen c.frameHeader = c.dataLen

def Inv (size : ℕ) (bytes : List UInt8) (c : Cmux) : Prop :=
  match c.receiveState with
  | .sof | .resync | .drop => True
  | .address => False
  | .control => c.Holds size bytes [] ∧ c.frameHeader.length = 1
  | .length => c.Holds size bytes [] ∧ c.frameHeader.length = 2
  | .lengthCont => c.Holds size bytes [] ∧ c.frameHeader.length = 3 ∧
      c.dataLen = (c.frameHeader.getD 2 0 >>> 1).toNat
  | .data => ∃ xs, c.Holds size bytes xs ∧ c.Complete ∧ xs.length < c.dataLen ∧
      c.dataLen ≤ max 127 size
  | .fcs => ∃ xs, c.Holds size bytes xs ∧ c.Complete ∧ xs.length = c.dataLen
  | .eof => ∃ xs fcs bytes', c.Holds size bytes' xs ∧ c.Complete ∧ xs.length = c.dataLen ∧
      c.dataLen ≤ size ∧ bytes = bytes' ++ [fcs]

/-- How many bytes it takes at most until the receiver awaits a frame. -/
def toGo (size : ℕ) (c : Cmux) : ℕ :=
  match c.receiveState with
  | .sof | .resync | .address => 0
  | .drop | .eof => 1
  | .fcs => 2
  | .data => c.dataLen - c.receiveBufLen + 2
  | .lengthCont => size + 3
  | .length => max 130 (size + 4)
  | .control => max 131 (size + 5)

/-- What a byte does to a receiver that keeps the invariant. -/
structure StepOk (size : ℕ) (bytes : List UInt8) (c : Cmux)
    (r : Cmux × List CmuxAccess × Option CmuxFrame) : Prop where
  inv : r.1.Inv size bytes
  inside : ∀ a ∈ r.2.1, a.Inside size
  frame : ∀ f, r.2.2 = some f → FrameEnds size bytes f
  toGo : c.AtStart ∨ r.1.toGo size < c.toGo size

variable {size : ℕ} {bytes : List UInt8} {c : Cmux}

theorem Holds.push (h : c.Holds size bytes []) {byte : UInt8} {c' : Cmux}
    (hheader : c'.frameHeader = c.frameHeader ++ [byte])
    (hlen : c'.receiveBufLen = c.receiveBufLen) : c'.Holds size (bytes ++ [byte]) [] := by
  obtain ⟨before, hb⟩ := h.stream
  refine ⟨⟨before, ?_⟩, hlen.trans h.len, by simp [loadBytes]⟩
  rw [hb, hheader]
  simp

/-- A step without access and frame. -/
theorem StepOk.silent {c' : Cmux} (hinv : c'.Inv size bytes)
    (hgo : c.AtStart ∨ c'.toGo size < c.toGo size) : StepOk size bytes c (c', [], none) :=
  ⟨hinv, by simp, by simp, hgo⟩

/-- A byte of the header. -/
theorem StepOk.header {c' : Cmux} {n : ℕ} (hn : n < 5) (hinv : c'.Inv size bytes)
    (hgo : c.AtStart ∨ c'.toGo size < c.toGo size) : StepOk size bytes c (c', [.header n], none) :=
  ⟨hinv, by simpa [CmuxAccess.Inside] using hn, by simp, hgo⟩

theorem stepOk_onAddress (hstart : c.AtStart) (byte : UInt8) :
    StepOk size (bytes ++ [byte]) c (c.onAddress byte) :=
  .header (by omega) ⟨⟨⟨bytes, by simp⟩, rfl, by simp [loadBytes]⟩, rfl⟩ (.inl hstart)

theorem toNat_shiftRight_le (byte : UInt8) : (byte >>> 1).toNat ≤ 127 := by
  have := byte.toNat_lt
  rw [UInt8.toNat_shiftRight, show (1 : UInt8).toNat % 8 = 1 from rfl, Nat.shiftRight_eq_div_pow]
  omega

/-- **A data byte** is stored if there is room for it. -/
theorem Holds.data {xs : List UInt8} (h : c.Holds size bytes xs) {byte : UInt8} {c' : Cmux}
    (hheader : c'.frameHeader = c.frameHeader) (hlen : c'.receiveBufLen = xs.length + 1)
    (hbuf : c'.receiveBuf = if xs.length < size then storeBytes c.receiveBuf xs.length [byte]
      else c.receiveBuf) : c'.Holds size (bytes ++ [byte]) (xs ++ [byte]) := by
  obtain ⟨before, hb⟩ := h.stream
  refine ⟨⟨before, by rw [hb, hheader]; simp⟩, by rw [hlen, length_append]; rfl, ?_⟩
  have hload := h.buf
  rw [hbuf, length_append, length_singleton]
  split_ifs with hroom
  · rw [Nat.min_eq_left hroom.le, take_of_length_le hroom.le] at hload
    rw [Nat.min_eq_left (Nat.succ_le_of_lt hroom), ← Nat.add_one, loadBytes_add, Nat.zero_add,
      loadBytes_storeBytes_of_disjoint (.inl (Nat.zero_add _).le), hload,
      take_of_length_le (by simpa using hroom)]
    simp [loadBytes, storeBytes]
  · rw [Nat.min_eq_right (by omega)] at hload ⊢
    rw [hload, take_append_of_le_length (by omega)]

/-- **Every byte** keeps the invariant. -/
theorem Inv.step (h : c.Inv size bytes) (hsize : size < 2 ^ 16) {byte : UInt8}
    (hp : c.Proper byte) :
    StepOk size (bytes ++ [byte]) c (c.processReceivedByte size byte) := by
  rcases hs : c.receiveState
  all_goals simp only [Inv, hs] at h
  all_goals simp only [processReceivedByte, hs]
  case sof =>
    refine .silent ?_ (.inl (.inl hs))
    split_ifs <;> trivial
  case resync =>
    split_ifs
    · exact .silent (by simp only [Inv, hs]) (.inl (.inr hs))
    · exact stepOk_onAddress (.inr hs) byte
  case control =>
    refine .header (by omega) ⟨h.1.push rfl rfl, by simp [h.2]⟩ (.inr ?_)
    simp only [toGo, hs]
    omega
  case length =>
    obtain ⟨hh, h2⟩ := h
    obtain ⟨a, b, hab⟩ := length_eq_two.mp h2
    have hle := toNat_shiftRight_le byte
    refine .header (by omega) ?_ (.inr ?_)
    · have hcomplete : Complete { c with
          frameHeader := c.frameHeader ++ [byte], dataLen := (byte >>> 1).toNat } :=
        ⟨.inl (by simp [h2]), by simp [declaredLen, hab]⟩
      split_ifs with hea hzero
      · exact ⟨hh.push rfl rfl, by simp [h2], by simp [hab]⟩
      · exact ⟨[], hh.push rfl rfl, hcomplete, hzero.symm⟩
      · exact ⟨[], hh.push rfl rfl, hcomplete, Nat.pos_of_ne_zero hzero,
          hle.trans (le_max_left _ _)⟩
    · split_ifs <;> simp only [toGo, hs] <;> omega
  case lengthCont =>
    obtain ⟨hh, h3, hdata⟩ := h
    obtain ⟨a, b, l, habl⟩ := length_eq_three.mp h3
    refine .header (by omega) ?_ (.inr ?_)
    · split_ifs with hbig
      · trivial
      have hpos : 0 < c.dataLen ||| byte.toNat <<< 7 := by
        rw [Nat.pos_iff_ne_zero, Ne, Nat.or_eq_zero_iff, Nat.shiftLeft_eq]
        rintro ⟨hzero, hbyte⟩
        refine hp.1 hs hzero (UInt8.toNat_inj.mp ?_)
        simpa using hbyte
      refine ⟨[], hh.push rfl rfl, ⟨.inr (by simp [h3]), ?_⟩, hpos, ?_⟩
      · simp [declaredLen, hdata, habl]
      · exact (not_lt.mp hbig).trans (le_max_right _ _)
    · have := hh.len
      split_ifs <;> simp only [toGo, hs, this, length_nil] <;> omega
  case data =>
    obtain ⟨xs, hh, hcomplete, hlt, hle⟩ := h
    have hmod : (xs.length + 1) % 2 ^ 16 = xs.length + 1 := by omega
    simp only [hh.len, hmod]
    have hinside : ∀ a ∈ if xs.length < size then [CmuxAccess.receiveBuf xs.length] else [],
        a.Inside size := by
      intro a ha
      split_ifs at ha with hroom
      · rwa [mem_singleton.mp ha]
      · cases ha
    by_cases hend : c.dataLen = xs.length + 1
    · simp only [if_pos hend]
      refine ⟨⟨_, hh.data rfl rfl rfl, hcomplete, by simp [hend]⟩, hinside, by simp, .inr ?_⟩
      simp only [toGo, hs, hh.len]
      omega
    · simp only [if_neg hend]
      refine ⟨⟨_, hh.data rfl rfl rfl, hcomplete, ?_, hle⟩, hinside, by simp, .inr ?_⟩
      · change (xs ++ [byte]).length < c.dataLen
        rw [length_append, length_singleton]
        omega
      · simp only [toGo, hs, hh.len]
        omega
  case fcs =>
    obtain ⟨xs, hh, hcomplete, hlen⟩ := h
    by_cases hover : size < c.receiveBufLen
    · simp only [hover, if_true]
      exact .silent trivial (.inr (by simp [toGo, hs]))
    simp only [hover, if_false]
    rw [hh.len, hlen, not_lt] at hover
    refine ⟨?_, fun a ha => ?_, by simp, .inr ?_⟩
    · by_cases hfcs : c.fcs = byte
      · simp only [hfcs, if_true]
        exact ⟨xs, byte, bytes, ⟨hh.stream, hh.len, hh.buf⟩, hcomplete, hlen, hover, rfl⟩
      · simp only [hfcs, if_false]
        trivial
    · rcases mem_cons.mp ha with rfl | ha
      · have := hcomplete.1
        simp only [CmuxAccess.Inside]
        omega
      split_ifs at ha with huih
      · cases ha
      · obtain rfl := mem_singleton.mp ha
        by_cases hzero : c.dataLen = 0
        exacts [.inl hzero, .inr ⟨hp.2 hs huih hzero, hover⟩]
    · by_cases hfcs : c.fcs = byte <;> simp [toGo, hs, hfcs]
  case drop => exact .silent trivial (.inr (by simp [toGo, hs]))
  case eof =>
    obtain ⟨xs, fcs, bytes', hh, hcomplete, hlen, hle, rfl⟩ := h
    split_ifs with hflag
    · exact .silent trivial (.inr (by simp [toGo, hs]))
    refine ⟨trivial, by simp, fun f hf => ?_, .inr (by simp [toGo, hs])⟩
    obtain rfl := Option.some.inj hf
    obtain rfl := not_not.mp hflag
    obtain ⟨before, hb⟩ := hh.stream
    have hbuf := hh.buf
    rw [hlen, Nat.min_eq_left hle, take_of_length_le (hlen.trans_le hle)] at hbuf
    refine ⟨by simpa [hbuf, hlen] using hle, before, c.frameHeader, fcs, hcomplete.1, ?_, ?_⟩
    · rw [hbuf, hlen, hcomplete.2]
    · rw [hbuf, hb]
      simp

theorem Inv.run (more : List UInt8) (h : c.Inv size bytes) (hsize : size < 2 ^ 16)
    (hp : AllProper size c more) : (c.run size more).Inv size (bytes ++ more) := by
  induction more generalizing c bytes with
  | nil => simpa [Cmux.run] using h
  | cons byte more ih =>
    have := ih (h.step hsize hp.1).inv hp.2
    rwa [append_assoc] at this

theorem Inv.toGo_le (h : c.Inv size bytes) : c.toGo size ≤ max 131 (size + 5) := by
  rcases hs : c.receiveState <;> simp only [Inv, Cmux.toGo, hs] at h ⊢
  case data =>
    obtain ⟨xs, -, -, -, hle⟩ := h
    omega
  all_goals omega

/-- **The receiver awaits a frame** again, within the bytes that it takes at most. -/
theorem Inv.exists_atStart (more : List UInt8) (h : c.Inv size bytes) (hsize : size < 2 ^ 16)
    (hp : AllProper size c more) (hle : c.toGo size ≤ more.length) :
    ∃ k ≤ more.length, (c.run size (more.take k)).AtStart := by
  induction more generalizing c bytes with
  | nil =>
    refine ⟨0, le_rfl, ?_⟩
    rcases hs : c.receiveState <;> simp only [Inv, toGo, hs, length_nil] at h hle
    exacts [.inl hs, .inr hs, by omega, by omega, by omega, by omega, by omega, by omega, by omega]
  | cons byte more ih =>
    have hstep := h.step hsize hp.1
    rcases hstep.toGo with hstart | hgo
    · exact ⟨0, Nat.zero_le _, hstart⟩
    rw [length_cons] at hle
    obtain ⟨k, hk, hat⟩ := ih hstep.inv hp.2 (by omega)
    exact ⟨k + 1, Nat.succ_le_succ hk, hat⟩

end Cmux

open Cmux

/-- **Receiving a stream**, of which all bytes are proper, with a buffer of at least 115 bytes. At
every byte the accesses are inside, a frame that is dispatched fits and consists of the bytes
between its header and its check sequence, and at most `size + 16` bytes later the receiver has
awaited a frame. -/
theorem cmux_receive (size : ℕ) (hsize : size < 2 ^ 16) (hmin : 115 ≤ size) (bytes : List UInt8)
    (hp : AllProper size init bytes) :
    (∀ byte, (init.run size bytes).Proper byte →
      (∀ a ∈ ((init.run size bytes).processReceivedByte size byte).2.1, a.Inside size) ∧
      ∀ f, ((init.run size bytes).processReceivedByte size byte).2.2 = some f →
        FrameEnds size (bytes ++ [byte]) f) ∧
    ∀ more, more.length = size + 16 → AllProper size (init.run size bytes) more →
      ∃ k ≤ size + 16, ((init.run size bytes).run size (more.take k)).AtStart := by
  have hinit : init.Inv size [] := trivial
  have hinv : (init.run size bytes).Inv size bytes := hinit.run bytes hsize hp
  refine ⟨fun byte hbyte => ?_, fun more hlen hmore => ?_⟩
  · exact ⟨(hinv.step hsize hbyte).inside, (hinv.step hsize hbyte).frame⟩
  · rw [← hlen]
    exact hinv.exists_atStart more hsize hmore (hinv.toGo_le.trans (by omega))

/-- The theorem on a frame without data. -/
theorem cmux_receive_sabm : ((init.run 126 [0xf9, 0x03, 0x3f, 0x01]).processReceivedByte 126
    0x1c).2.1.length = 2 ∧ ∀ a ∈ ((init.run 126 [0xf9, 0x03, 0x3f, 0x01]).processReceivedByte 126
      0x1c).2.1, a.Inside 126 :=
  ⟨by decide, ((cmux_receive 126 (by decide) (by decide) _ (by
    simp only [AllProper, and_true]
    decide)).1 0x1c (by decide)).1⟩

/-- **Two streams that the receiver does not handle.** A first frame, of type SABM with a byte of
data, makes it read from `NULL`. A length of zero in two bytes keeps it reading data. -/
theorem cmux_receive_fails :
    (∃ a ∈ ((init.run 126 [0xf9, 0x03, 0x2f, 0x03, 0x00]).processReceivedByte 126 0).2.1,
      ¬ a.Inside 126) ∧
    ∀ k ≤ 142, ¬ ((init.run 126 [0xf9, 0x03, 0xef, 0x00, 0x00]).run 126
      ((replicate 142 0).take k)).AtStart := by
  refine ⟨⟨.frameData false 1, by decide, by simp [CmuxAccess.Inside]⟩, ?_⟩
  decide +kernel

end TlZephyr
