import TlZephyr.Hdlc
import TlZephyr.SpinelDrv
import TlZephyr.SpinelRoundTrip

/-!
# Link to the Radio Co-Processor: Sending

A request goes through four layers as it is produced: the spinel packer hands every byte to the
HDLC encoder, the encoder hands every byte of the wire form to the transport buffer, the finish
closes the frame and `rcp_transport_transmit` gives the buffer to the UART. No layer can take back
what an upper one has handed down.
-/

namespace TlZephyr

open Option SpinelInt

/-! ### Requests and the bytes they stand for -/

/-- A call of one of the `spinel_drv_send_*` functions. -/
inductive SpinelRequest
  | reset (type : UInt8)
  | getIeeeEui64
  | getCapabilities
  | enableSrcMatch (enable : Bool)
  | ackFpb (addr : UInt16) (enable : Bool)
  | ackFpbExt (addr : ExtAddress) (enable : Bool)
  | ackFpbClear
  | ackFpbExtClear
  | macFrameCounter (frameCounter : UInt32) (setIfLarger : Bool)
  | panid (panId : UInt16)
  | shortAddr (addr : UInt16)
  | extAddr (addr : ExtAddress)
  | txPower (pwrDbm : Int8)
  | rcpEnable (enable : Bool)
  | receiveEnable (enable : Bool)
  | channel (chan : UInt8)
  | transmitFrame (frame : SpinelFrameData)
  | linkMetrics (short : UInt16) (ext : ExtAddress) (metrics : SpinelLinkMetrics)
  | macKeys (keys : SpinelMacKeys)
  | getTimestamp

def SpinelRequest.send (drv : SpinelDrv) : SpinelRequest → Option SpinelSent
  | reset type => spinelDrvSendReset drv type
  | getIeeeEui64 => spinelDrvSendGetIeeeEui64 drv
  | getCapabilities => spinelDrvSendGetCapabilities drv
  | enableSrcMatch enable => spinelDrvSendEnableSrcMatch drv enable
  | ackFpb addr enable => spinelDrvSendAckFpb drv addr enable
  | ackFpbExt addr enable => spinelDrvSendAckFpbExt drv addr enable
  | ackFpbClear => spinelDrvSendAckFpbClear drv
  | ackFpbExtClear => spinelDrvSendAckFpbExtClear drv
  | macFrameCounter frameCounter setIfLarger =>
    spinelDrvSendMacFrameCounter drv frameCounter setIfLarger
  | panid panId => spinelDrvSendPanid drv panId
  | shortAddr addr => spinelDrvSendShortAddr drv addr
  | extAddr addr => spinelDrvSendExtAddr drv addr
  | txPower pwrDbm => spinelDrvSendTxPower drv pwrDbm
  | rcpEnable enable => spinelDrvSendRcpEnable drv enable
  | receiveEnable enable => spinelDrvSendReceiveEnable drv enable
  | channel chan => spinelDrvSendChannel drv chan
  | transmitFrame frame => spinelDrvSendTransmitFrame drv frame
  | linkMetrics short ext metrics => spinelDrvSendLinkMetrics drv short ext metrics
  | macKeys keys => spinelDrvSendMacKeys drv keys
  | getTimestamp => spinelDrvSendGetTimestamp drv

namespace SpinelItem

def u8 (v : UInt8) : SpinelItem :=
  .int .uint8 v.toNat ⟨by omega, by have := v.toNat_lt; simp [size]; omega⟩

def u16 (v : UInt16) : SpinelItem :=
  .int .uint16 v.toNat ⟨by omega, by have := v.toNat_lt; simp [size]; omega⟩

def u32 (v : UInt32) : SpinelItem :=
  .int .uint32 v.toNat ⟨by omega, by have := v.toNat_lt; simp [size]; omega⟩

def i8 (v : Int8) : SpinelItem :=
  .int .int8 v.toInt ⟨by have := v.le_toInt; simp [size]; omega,
    by have := v.toInt_lt; simp [size]; omega⟩

def eui64 (addr : ExtAddress) : SpinelItem := .block .eui64 addr.toList (by simp [SpinelBlock.size])

def key (k : Vector UInt8 16) : SpinelItem := .data true k.toList (by simp)

end SpinelItem

def SpinelFormat.ofItems (items : List SpinelItem) : SpinelFormat :=
  items.foldr .item .nil

/-- Header of a request with the given transaction id. -/
def spinelHeader (inst tid : UInt8) : UInt8 := spinelHeaderFlag ||| spinelHeaderIid inst ||| tid

namespace SpinelRequest

def cmd : SpinelRequest → ℕ
  | reset _ => spinelCmdReset
  | getIeeeEui64 | getCapabilities | getTimestamp => spinelCmdPropValueGet
  | ackFpb _ enable | ackFpbExt _ enable =>
    if enable then spinelCmdPropValueInsert else spinelCmdPropValueRemove
  | _ => spinelCmdPropValueSet

def prop : SpinelRequest → ℕ
  | reset _ => 0
  | getIeeeEui64 => spinelPropHwaddr
  | getCapabilities => spinelPropRadioCaps
  | enableSrcMatch _ => spinelPropMacSrcMatchEnabled
  | ackFpb _ _ | ackFpbClear => spinelPropMacSrcMatchShortAddresses
  | ackFpbExt _ _ | ackFpbExtClear => spinelPropMacSrcMatchExtendedAddresses
  | macFrameCounter _ _ => spinelPropRcpMacFrameCounter
  | panid _ => spinelPropMac154Panid
  | shortAddr _ => spinelPropMac154Saddr
  | extAddr _ => spinelPropMac154Laddr
  | txPower _ => spinelPropPhyTxPower
  | rcpEnable _ => spinelPropPhyEnabled
  | receiveEnable _ => spinelPropMacRawStreamEnabled
  | channel _ => spinelPropPhyChan
  | transmitFrame _ => spinelPropStreamRaw
  | linkMetrics _ _ _ => spinelPropRcpEnhAckProbing
  | macKeys _ => spinelPropRcpMacKey
  | getTimestamp => spinelPropRcpTimestamp

/-- Parameters of a request, if they can be packed: a frame has data, and a length that is not
zero as a `uint16_t`. -/
def params : SpinelRequest → Option (List SpinelItem)
  | reset type => some [.u8 type]
  | getIeeeEui64 | getCapabilities | getTimestamp | ackFpbClear | ackFpbExtClear => some []
  | enableSrcMatch enable | rcpEnable enable | receiveEnable enable => some [.bool enable]
  | ackFpb addr _ | panid addr | shortAddr addr => some [.u16 addr]
  | ackFpbExt addr _ | extAddr addr => some [.eui64 addr]
  | macFrameCounter frameCounter setIfLarger => some [.u32 frameCounter, .bool setIfLarger]
  | txPower pwrDbm => some [.i8 pwrDbm]
  | channel chan => some [.u8 chan]
  | linkMetrics short ext metrics => some [.u16 short, .eui64 ext, .u8 metrics.flags]
  | macKeys keys =>
    some [.u8 keys.keyMode, .u8 keys.keyId, .key keys.prevKey, .key keys.currKey, .key keys.nextKey]
  | transmitFrame frame => do
    let data ← frame.data
    let size := frame.dataLength % 65536
    if h : 1 ≤ size ∧ size ≤ data.length then
      some [.data true (data.take size) (by rw [List.length_take]; omega), .u8 frame.channel,
        .u8 4, .u8 0, .bool frame.tx.csmaCaEnabled, .bool frame.tx.headerUpdated,
        .bool frame.tx.isRet, .bool frame.tx.securityProcessed, .u32 frame.tx.timeOffset,
        .u32 frame.tx.timeBase, .u8 frame.channel]
    else none

variable (req : SpinelRequest)

theorem cmd_le : req.cmd ≤ spinelMaxUintPacked := by
  unfold cmd
  split <;> (try split) <;> decide

theorem prop_le : req.prop ≤ spinelMaxUintPacked := by
  unfold prop
  split <;> decide

/-- Driver after the request: all but the reset take a fresh transaction id. -/
def nextDrv (drv : SpinelDrv) : SpinelRequest → SpinelDrv
  | reset _ => drv
  | _ => spinelDrvSetTid drv

/-- Spinel frame of a request: header, command, property and parameters. -/
def format (drv : SpinelDrv) (req : SpinelRequest) : Option SpinelFormat :=
  match req with
  | reset type => some (.ofItems [.u8 (spinelHeader drv.inst 0), .uintPacked req.cmd req.cmd_le,
      .u8 type])
  | _ => req.params.map fun items => .ofItems
      (.u8 (spinelHeader drv.inst (req.nextDrv drv).actId) :: .uintPacked req.cmd req.cmd_le ::
        .uintPacked req.prop req.prop_le :: items)

end SpinelRequest

open SpinelFormat

/-- A format and arguments, possibly `NULL`, that the packer turns into the given items. -/
def SpinelPacks (fmt : Option (List Char)) (args : List VaArg) (items : List SpinelItem) : Prop :=
  match fmt with
  | none => items = []
  | some fmt => spinelDatatypeVpack true fmt args =
      some ⟨(ofItems items).encode.length, (ofItems items).encode, []⟩

theorem spinelDrvSendCmd_eq (drv : SpinelDrv) (cmd prop : ℕ) (hc : cmd ≤ spinelMaxUintPacked)
    (hp : prop ≤ spinelMaxUintPacked) (fmt : Option (List Char)) (args : List VaArg)
    (items : List SpinelItem) (hfmt : SpinelPacks fmt args items) :
    spinelDrvSendCmd drv cmd prop fmt args = some ⟨(spinelDrvSetTid drv).actId.toNat,
        (ofItems (.u8 (spinelHeader drv.inst (spinelDrvSetTid drv).actId) ::
          .uintPacked cmd hc :: .uintPacked prop hp :: items)).encode, spinelDrvSetTid drv⟩ := by
  have hhdr : spinelDatatypeVpack true spinelDatatypeCommandPropS
      [.int (spinelHeader drv.inst (spinelDrvSetTid drv).actId).toNat, .int cmd, .int prop] = _ :=
    spinelDatatypeVpack_format (.ofItems
      [.u8 (spinelHeader drv.inst (spinelDrvSetTid drv).actId), .uintPacked cmd hc,
        .uintPacked prop hp]) true
  have hpos : ∀ bytes : List UInt8, ¬ (bytes.length : ℤ) < 0 := fun bytes => by omega
  simp only [spinelHeader] at hhdr ⊢
  cases fmt with
  | none =>
    obtain rfl : items = [] := hfmt
    simp only [spinelDrvSendCmd, show (spinelDrvSetTid drv).inst = drv.inst from rfl, hhdr,
      bind_eq_bind, bind_some, hpos, if_false, spinelEmit, if_true]
  | some fmt =>
    simp only [SpinelPacks] at hfmt
    simp only [spinelDrvSendCmd, show (spinelDrvSetTid drv).inst = drv.inst from rfl, hhdr,
      bind_eq_bind, bind_some, hpos, if_false, spinelEmit, if_true, hfmt]
    simp [ofItems, encode, SpinelItem.encode, SpinelItem.u8]

theorem spinelPackData_take (tx wlen : Bool) (data : List UInt8) (n : ℕ)
    (h : n % 65536 ≤ data.length) (args : List VaArg) :
    spinelPackData tx wlen (.ptr (some data) :: .int n :: args) = spinelPackData tx wlen
        (.ptr (some (data.take (n % 65536))) :: .int (data.take (n % 65536)).length :: args) := by
  have hlen : (data.take (n % 65536)).length = n % 65536 := by rw [List.length_take]; omega
  have h1 : ((n : ℤ) % 256 ^ 2).toNat = n % 65536 := by omega
  have h2 : (((n % 65536 : ℕ) : ℤ) % 256 ^ 2).toNat = n % 65536 := by omega
  simp only [spinelPackData, hlen, h1, h2, lt_irrefl, not_lt.mpr h, List.take_take, min_self]

theorem spinelDatatypeVpack_take (fmt : List Char) (data : List UInt8) (n : ℕ)
    (h : n % 65536 ≤ data.length) (args : List VaArg) :
    spinelDatatypeVpack true ('d' :: fmt) (.ptr (some data) :: .int n :: args) =
      spinelDatatypeVpack true ('d' :: fmt)
        (.ptr (some (data.take (n % 65536))) :: .int (data.take (n % 65536)).length :: args) := by
  have hitem : ∀ vpack args, spinelPackItem true ('d' :: fmt) vpack args =
      spinelPackData true true args := fun _ _ => rfl
  have hne : ¬ 'd' = ')' := by decide
  simp [spinelDatatypeVpack, spinelPackLoop, hitem, hne, spinelPackData_take true true data n h args]

namespace SpinelRequest

variable (req : SpinelRequest) (drv : SpinelDrv)

theorem send_cmd (hreq : ∀ type, req ≠ reset type) :
    ∃ fmt args, req.send drv = spinelDrvSendCmd drv req.cmd req.prop fmt args := by
  cases req with
  | reset type => exact absurd rfl (hreq type)
  | transmitFrame frame => exact ⟨some _, _, spinelDrvSendTransmitFrame.eq_1 drv frame⟩
  | macKeys keys => exact ⟨some _, _, spinelDrvSendMacKeys.eq_1 drv keys⟩
  | _ => first | exact ⟨none, [], rfl⟩ | exact ⟨some _, _, rfl⟩

theorem send_eq (hreq : ∀ type, req ≠ reset type)
    (items : List SpinelItem) (hitems : req.params = some items) :
    ∃ fmt args, req.send drv = spinelDrvSendCmd drv req.cmd req.prop fmt args ∧
      SpinelPacks fmt args items := by
  have hpack := spinelDatatypeVpack_format (.ofItems items) true
  cases req with
  | reset type => exact absurd rfl (hreq type)
  | transmitFrame frame =>
    simp only [params, bind_eq_bind, bind_eq_some_iff] at hitems
    obtain ⟨data, hdata, hitems⟩ := hitems
    by_cases hsize : 1 ≤ frame.dataLength % 65536 ∧ frame.dataLength % 65536 ≤ data.length
    · rw [dif_pos hsize, Option.some.injEq] at hitems
      subst hitems
      refine ⟨some _, _, spinelDrvSendTransmitFrame.eq_1 drv frame, ?_⟩
      rw [hdata]
      exact (spinelDatatypeVpack_take _ data frame.dataLength hsize.2 _).trans hpack
    · rw [dif_neg hsize] at hitems
      exact absurd hitems (by simp)
  | macKeys keys =>
    obtain rfl : _ = items := by simpa only [params, Option.some.injEq] using hitems
    simp only [ofItems, List.foldr_cons, List.foldr_nil, args,
      SpinelItem.key, SpinelItem.args, Vector.length_toList] at hpack
    exact ⟨some _, _, spinelDrvSendMacKeys.eq_1 drv keys, hpack⟩
  | _ =>
    obtain rfl : _ = items := by simpa only [params, Option.some.injEq] using hitems
    first
      | exact ⟨none, [], rfl, rfl⟩
      | exact ⟨some _, _, rfl, hpack⟩

/-- **A request that can be packed** hands exactly its frame to the transmit callback. -/
theorem send_format (f : SpinelFormat) (h : req.format drv = some f) :
    ∃ ret : ℤ, 0 ≤ ret ∧ req.send drv = some ⟨ret, f.encode, req.nextDrv drv⟩ := by
  by_cases hreq : ∃ type, req = reset type
  · obtain ⟨type, rfl⟩ := hreq
    obtain rfl : _ = f := by simpa only [format, Option.some.injEq] using h
    have hpack : spinelDatatypeVpack true (spinelDatatypeCommandS ++ ['C'])
        [.u8 (spinelHeader drv.inst 0), .int spinelCmdReset, .u8 type] = _ :=
      spinelDatatypeVpack_format (.ofItems [.u8 (spinelHeader drv.inst 0),
        .uintPacked spinelCmdReset (by decide), .u8 type]) true
    rw [show spinelHeader drv.inst 0 = spinelHeaderFlag ||| spinelHeaderIid drv.inst from
      UInt8.or_zero] at hpack ⊢
    exact ⟨_, Int.natCast_nonneg _, by rw [send, spinelDrvSendReset, hpack]; rfl⟩
  have hreq' : ∀ type, req ≠ reset type := fun type he => hreq ⟨type, he⟩
  have hformat : req.format drv = req.params.map fun items => .ofItems
      (.u8 (spinelHeader drv.inst (spinelDrvSetTid drv).actId) ::
        .uintPacked req.cmd req.cmd_le :: .uintPacked req.prop req.prop_le :: items) := by
    cases req <;> first | rfl | exact absurd rfl (hreq' _)
  have hdrv : req.nextDrv drv = spinelDrvSetTid drv := by
    cases req <;> first | rfl | exact absurd rfl (hreq' _)
  rw [hformat] at h
  obtain ⟨items, hitems, rfl⟩ := map_eq_some_iff.mp h
  obtain ⟨fmt, args, hsend, hpack⟩ := req.send_eq drv hreq' items hitems
  rw [hsend, hdrv, spinelDrvSendCmd_eq drv _ _ req.cmd_le req.prop_le _ _ _ hpack]
  exact ⟨_, Int.natCast_nonneg _, rfl⟩

end SpinelRequest

/-! ### Transport -/

/-- Transmit side of `struct rcp_transport_data`: the filled part of `tx_data`. -/
structure RcpTransport (bufSize : ℕ) where
  txData : List UInt8
  fits : txData.length ≤ bufSize

section Transport

variable {bufSize : ℕ}

def RcpTransport.empty : RcpTransport bufSize := ⟨[], Nat.zero_le _⟩

/-- `rcp_transport_put_byte`. A byte that does not fit is dropped, and everything before it
with it. -/
def rcpTransportPutByte (t : RcpTransport bufSize) (bt : UInt8) : RcpTransport bufSize :=
  if h : t.txData.length < bufSize then ⟨t.txData ++ [bt], by simpa using h⟩ else .empty

/-- Loop of `rcp_transport_transmit`. The list holds what `uart_fifo_fill` returns: an error, or
how many bytes were taken. `none` is a loop not at its end, or a UART that claims more than it was
offered. -/
def rcpTransportFill : List ℤ → List UInt8 → ℤ → Option (ℤ × List UInt8)
  | _, [], result => some (result, [])
  | [], _ :: _, _ => none
  | r :: fills, bt :: tx, result =>
    if r < 0 then some (r, [])
    else if (bt :: tx).length < r.toNat then none
    else do
      let (res, taken) ← rcpTransportFill fills ((bt :: tx).drop r.toNat) (result + r)
      some (res, (bt :: tx).take r.toNat ++ taken)

/-- `rcp_transport_transmit`: the result, the bytes the UART took, and the emptied buffer. -/
def rcpTransportTransmit (t : RcpTransport bufSize) (fills : List ℤ) :
    Option (ℤ × List UInt8 × RcpTransport bufSize) := do
  let (result, taken) ← rcpTransportFill fills t.txData 0
  let result := if result ≠ t.txData.length then (if result < 0 then result else - EIO) else result
  some (result, taken, .empty)

theorem foldl_rcpTransportPutByte (t : RcpTransport bufSize) (bts : List UInt8)
    (h : t.txData.length + bts.length ≤ bufSize) :
    (bts.foldl rcpTransportPutByte t).txData = t.txData ++ bts := by
  induction bts generalizing t with
  | nil => simp
  | cons bt bts ih =>
    rw [List.length_cons] at h
    have hstep : (rcpTransportPutByte t bt).txData = t.txData ++ [bt] := by
      rw [rcpTransportPutByte, dif_pos (by omega)]
    rw [List.foldl_cons, ih _ (by simp [hstep]; omega), hstep]
    simp

theorem rcpTransportFill_eq {fills : List ℤ} {tx : List UInt8} {acc res : ℤ}
    {taken : List UInt8} (hacc : 0 ≤ acc) (h : rcpTransportFill fills tx acc = some (res, taken)) :
    res < 0 ∨ (res = acc + tx.length ∧ taken = tx) := by
  induction fills, tx, acc using rcpTransportFill.induct generalizing res taken with
  | case1 fills acc =>
    simp only [rcpTransportFill, Option.some.injEq, Prod.mk.injEq] at h
    exact .inr ⟨by simp [h.1], h.2.symm⟩
  | case2 bt tx acc => simp [rcpTransportFill] at h
  | case3 r fills bt tx acc hr =>
    simp only [rcpTransportFill, hr, if_true, Option.some.injEq, Prod.mk.injEq] at h
    exact .inl (h.1 ▸ hr)
  | case4 r fills bt tx acc hr hlen =>
    simp only [rcpTransportFill, hr, hlen, if_true, if_false, reduceCtorEq] at h
  | case5 r fills bt tx acc hr hlen ih =>
    simp only [rcpTransportFill, hr, if_false, hlen, bind_eq_bind,
      bind_eq_some_iff, Prod.exists, Option.some.injEq, Prod.mk.injEq] at h
    obtain ⟨res', taken', hrest, rfl, rfl⟩ := h
    rcases ih (by omega) hrest with hneg | ⟨rfl, rfl⟩
    · exact .inl hneg
    · refine .inr ⟨?_, List.take_append_drop _ _⟩
      rw [List.length_drop]
      omega

end Transport

/-! ### Link -/

def openthreadRcpHdlcTransmission {bufSize : ℕ} (bt : UInt8) (t : RcpTransport bufSize) :
    RcpTransport bufSize :=
  rcpTransportPutByte t bt

/-- Part of `struct openthread_rcp_data` that sending touches, under `tx_lock`. -/
structure RcpLink (bufSize : ℕ) where
  drv : SpinelDrv
  hdlc : HdlcOut (RcpTransport bufSize)
  transport : RcpTransport bufSize

/-- What a request comes to: its result, the bytes the UART took, and the link after it. -/
structure RcpOutcome (bufSize : ℕ) where
  ret : ℤ
  uart : List UInt8
  link : RcpLink bufSize

namespace RcpLink

variable {bufSize : ℕ}

/-- A link at a frame boundary with an empty buffer. -/
def fresh (drv : SpinelDrv) : RcpLink bufSize where
  drv := drv
  hdlc := (hdlcCoderOutDataSet (hdlcCoderInit _) openthreadRcpHdlcTransmission).out
  transport := .empty

/-- Link after `openthread_rcp_init`. -/
def init : RcpLink bufSize := fresh (spinelDrvInit 0)

/-- `openthread_rcp_spinel_transmission`, for the bytes of a request in order. -/
def spinelTransmission (link : RcpLink bufSize) (bts : List UInt8) : RcpLink bufSize :=
  let s := hdlcCoderOutPolls link.hdlc bts link.transport
  { link with hdlc := s.1, transport := s.2 }

/-- `openthread_rcp_process_start` without the timestamp. -/
def processStart (link : RcpLink bufSize) (fills : List ℤ) : Option (RcpOutcome bufSize) := do
  let s := hdlcCoderOutFinish link.hdlc link.transport
  let (result, taken, transport) ← rcpTransportTransmit s.2 fills
  some ⟨result, taken, { link with hdlc := s.1, transport := transport }⟩

/-- Locked first half of every `openthread_rcp_*` request. -/
def request (link : RcpLink bufSize) (req : SpinelRequest) (fills : List ℤ) :
    Option (RcpOutcome bufSize) := do
  let sent ← req.send link.drv
  let link := spinelTransmission { link with drv := sent.drv } sent.out
  if sent.ret < 0 then some ⟨sent.ret, [], link⟩ else link.processStart fills

/-- A request whose parameters can be packed and whose wire form fits the buffer. -/
def Sendable (bufSize : ℕ) (drv : SpinelDrv) (req : SpinelRequest) : Prop :=
  ∃ f, req.format drv = some f ∧ (hdlcEncode f.encode).length ≤ bufSize

end RcpLink

theorem SpinelRequest.format_encode_ne_nil {req : SpinelRequest} {drv : SpinelDrv}
    {f : SpinelFormat} (h : req.format drv = some f) : f.encode ≠ [] := by
  obtain ⟨header, items, rfl⟩ : ∃ header items, f = .ofItems (.u8 header :: items) := by
    cases req <;> simp only [format, Option.some.injEq, map_eq_some_iff] at h <;>
      first
        | exact ⟨_, _, h.symm⟩
        | exact ⟨_, _, h.choose_spec.2.symm⟩
  simp [ofItems, encode, SpinelItem.encode, SpinelItem.u8, size, LittleEndian.leBytes]

open RcpLink

open SpinelRequest

namespace RcpLink

variable {bufSize : ℕ}

variable (drv : SpinelDrv)

/-- The wire form of a frame that fits is what stands in the buffer at the end of it. -/
theorem outFrame_fresh (bts : List UInt8) (hne : bts ≠ [])
    (hfits : (hdlcEncode bts).length ≤ bufSize) :
    ∃ t : RcpTransport bufSize, t.txData = hdlcEncode bts ∧
      hdlcCoderOutFrame (fresh drv : RcpLink bufSize).hdlc bts .empty = ((fresh drv).hdlc, t) := by
  refine ⟨(hdlcEncode bts).foldl rcpTransportPutByte .empty, ?_, ?_⟩
  · rw [foldl_rcpTransportPutByte _ _ (by simpa [RcpTransport.empty] using hfits)]
    rfl
  · exact hdlcCoderOutFrame_emit _ bts _ hne rfl rfl

/-- **A whole frame.** From a boundary, a request that can be packed and fits offers exactly its
wire form to the UART, and comes back to a boundary. -/
theorem request_whole (req : SpinelRequest) (fills : List ℤ)
    (f : SpinelFormat) (hf : req.format drv = some f)
    (hfits : (hdlcEncode f.encode).length ≤ bufSize) (out : RcpOutcome bufSize)
    (h : (fresh drv).request req fills = some out) :
    (out.ret < 0 ∨ out.uart = hdlcEncode f.encode) ∧ out.link = fresh (req.nextDrv drv) := by
  obtain ⟨ret, hret, hsend⟩ := req.send_format drv f hf
  obtain ⟨t, ht, hframe⟩ := @outFrame_fresh bufSize drv f.encode (format_encode_ne_nil hf) hfits
  have hstart : (fresh drv).request req fills = (rcpTransportTransmit t fills).bind fun r =>
        some ⟨r.1, r.2.1, { fresh (req.nextDrv drv) with transport := r.2.2 }⟩ := by
    rw [request, show (fresh drv : RcpLink bufSize).drv = drv from rfl, hsend]
    simp only [bind_eq_bind, bind_some, not_lt.mpr hret, if_false, processStart]
    rw [hdlcCoderOutFrame] at hframe
    simp only [spinelTransmission, show (fresh drv : RcpLink bufSize).transport = .empty from
      rfl, hframe]
    rfl
  rw [hstart] at h
  simp only [bind_eq_some_iff, rcpTransportTransmit, bind_eq_bind,
    Option.some.injEq, Prod.exists, Prod.mk.injEq] at h
  obtain ⟨_, _, _, ⟨res, taken, hfill, rfl, rfl, rfl⟩, rfl⟩ := h
  refine ⟨?_, rfl⟩
  rcases rcpTransportFill_eq le_rfl hfill with hneg | ⟨rfl, rfl⟩
  · refine .inl ?_
    have hne : res ≠ t.txData.length := by omega
    simp [hne, hneg]
  · exact .inr ht

/-- Links a series of requests reaches, each meeting a condition. -/
inductive Reaches (P : SpinelDrv → SpinelRequest → Prop) : RcpLink bufSize → Prop
  | init : Reaches P init
  | step {link : RcpLink bufSize} {req : SpinelRequest} {fills : List ℤ}
      {out : RcpOutcome bufSize} (h : Reaches P link) (hreq : P link.drv req)
      (hout : link.request req fills = some out) : Reaches P out.link

theorem Reaches.fresh {link : RcpLink bufSize} (h : Reaches (Sendable bufSize) link) :
    link = fresh link.drv := by
  induction h with
  | init => rfl
  | @step link req fills out h hreq hout ih =>
    obtain ⟨f, hf, hfits⟩ := hreq
    rw [ih] at hout
    have hlink := (request_whole link.drv req fills f hf hfits out hout).2
    rw [hlink]
    rfl

def sentFor (link : RcpLink bufSize) (req : SpinelRequest) (fills : List ℤ) : Option (List UInt8) :=
  (link.request req fills).map (·.uart)

end RcpLink

/-- **Only whole frames are sent.** Along every series of requests that can be packed and fit the
buffer, whatever the UART does, a request with a non-negative result has sent exactly its wire form,
and one that fails leaves a link like a fresh one. -/
theorem rcpLink_whole_frames (bufSize : ℕ) (link : RcpLink bufSize)
    (hlink : link.Reaches (Sendable bufSize)) (req : SpinelRequest) (f : SpinelFormat)
    (hf : req.format link.drv = some f) (hfits : (hdlcEncode f.encode).length ≤ bufSize)
    (fills : List ℤ) (out : RcpOutcome bufSize) (hout : link.request req fills = some out) :
    (0 ≤ out.ret → out.uart = hdlcEncode f.encode) ∧
      (out.ret < 0 → ∀ req' fills', out.link.sentFor req' fills' =
        (fresh out.link.drv : RcpLink bufSize).sentFor req' fills') := by
  have hnext := (Reaches.step hlink ⟨f, hf, hfits⟩ hout).fresh
  rw [hlink.fresh] at hout
  obtain ⟨hsent, -⟩ := request_whole link.drv req fills f hf hfits out hout
  refine ⟨fun hret => hsent.resolve_left (by omega), ?_⟩
  intro _ req' fills'
  rw [← hnext]

/-- A request, then the same again after the UART failed in the middle of the first. -/
theorem rcpLink_whole_frames_after_uart_error :
    ∃ (f : SpinelFormat) (out₁ out₂ : RcpOutcome 64),
      init.request (.panid 0x1234) [4, -5] = some out₁ ∧ out₁.ret = -5 ∧
      (panid 0x1234).format out₁.link.drv = some f ∧
      out₁.link.request (.panid 0x1234) [4, 5] = some out₂ ∧ out₂.ret = 9 ∧
      out₂.uart = hdlcEncode f.encode := by
  have hfirst : ((init : RcpLink 64).request (.panid 0x1234) [4, -5]).map
      (fun out => (out.ret, out.link.drv)) = some (-5, ⟨0, 1⟩) := by decide +kernel
  obtain ⟨out₁, h₁, hout₁⟩ := map_eq_some_iff.mp hfirst
  obtain ⟨hret₁, hdrv₁⟩ := Prod.mk.inj hout₁
  have hsecond : (((init : RcpLink 64).request (.panid 0x1234) [4, -5]).bind
      fun out => out.link.request (.panid 0x1234) [4, 5]).map (·.ret) = some 9 := by
    decide +kernel
  rw [h₁, bind_some] at hsecond
  obtain ⟨out₂, h₂, hret₂⟩ := map_eq_some_iff.mp hsecond
  have hsend : ∀ drv ∈ [spinelDrvInit 0, ⟨0, 1⟩], Sendable 64 drv (.panid 0x1234) := by
    intro drv hdrv
    simp only [List.mem_cons, List.not_mem_nil, or_false] at hdrv
    rcases hdrv with rfl | rfl <;> exact ⟨_, rfl, by decide +kernel⟩
  obtain ⟨f, hf, hfits⟩ := hsend ⟨0, 1⟩ (by simp)
  rw [← hdrv₁] at hf
  refine ⟨f, out₁, out₂, h₁, hret₁, hf, h₂, hret₂, ?_⟩
  have hreach := Reaches.step .init (hsend (spinelDrvInit 0) (by simp)) h₁
  exact (rcpLink_whole_frames 64 out₁.link hreach _ f hf hfits [4, 5] out₂ h₂).1 (by omega)

def spinelFrameWithoutData : SpinelFrameData where
  data := none
  dataLength := 0
  channel := 11
  tx := ⟨0, 0, false, false, false, true⟩
  rx := ⟨0, 0, 0, false, false⟩

/-- Two ways to a torn frame: a frame without data is refused after its header went into the
encoder; a request of nine bytes on a buffer of eight is reported as sent. -/
theorem rcpLink_torn_frames :
    ((init : RcpLink 64).request (.transmitFrame spinelFrameWithoutData) []).map
        (fun out => (out.ret, out.link.drv)) = some (-EINVAL, ⟨0, 1⟩) ∧
    (((init : RcpLink 64).request (.transmitFrame spinelFrameWithoutData) []).bind
        fun out => out.link.request .getIeeeEui64 [10]).map (fun out => (out.ret, out.uart)) =
      some (10, [0x7e, 0x81, 0x03, 0x71, 0x82, 0x02, 0x08, 0x98, 0xab, 0x7e]) ∧
    (getIeeeEui64.format ⟨0, 1⟩).map (hdlcEncode ·.encode) =
      some [0x7e, 0x82, 0x02, 0x08, 0x60, 0xc0, 0x7e] ∧
    ((init : RcpLink 8).request (.panid 0x1234) []).map
        (fun out => (out.ret, out.uart)) = some (0, []) ∧
    ((panid 0x1234).format (spinelDrvInit 0)).map (hdlcEncode ·.encode) =
      some [0x7e, 0x81, 0x03, 0x36, 0x34, 0x12, 0x8d, 0xd9, 0x7e] := by
  refine ⟨?_, ?_, ?_, ?_, ?_⟩ <;> decide +kernel

end TlZephyr
