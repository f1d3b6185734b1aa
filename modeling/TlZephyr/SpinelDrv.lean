import TlZephyr.Spinel

/-!
# Spinel Driver: Requests

The sending half of `spinel_drv.c`. Every `spinel_drv_send_*` packs a header with the driver's
instance and a fresh transaction id, the command and property, and then its own parameters, straight
into the transmit callback. The callback never reports back to the packer, so a request comes to the
bytes it hands over, in order, and the number it returns; one that fails has handed over a part.

Requests differ in command, property, format and arguments, so `spinelDrvSendCmd` does the work and
each `spinelDrvSend…` passes its own. The reset, which has no transaction id, goes past it.
-/

namespace TlZephyr

/-! ### Commands and properties -/

def spinelCmdReset : ℕ := 1
def spinelCmdPropValueGet : ℕ := 2
def spinelCmdPropValueSet : ℕ := 3
def spinelCmdPropValueInsert : ℕ := 4
def spinelCmdPropValueRemove : ℕ := 5
def spinelCmdPropValueIs : ℕ := 6
def spinelCmdPropValueInserted : ℕ := 7
def spinelCmdPropValueRemoved : ℕ := 8

def spinelPropLastStatus : ℕ := 0
def spinelPropHwaddr : ℕ := 8
def spinelPropPhyEnabled : ℕ := 0x20
def spinelPropPhyChan : ℕ := 0x21
def spinelPropPhyTxPower : ℕ := 0x25
def spinelPropMac154Laddr : ℕ := 0x34
def spinelPropMac154Saddr : ℕ := 0x35
def spinelPropMac154Panid : ℕ := 0x36
def spinelPropMacRawStreamEnabled : ℕ := 0x37
def spinelPropStreamRaw : ℕ := 0x71
def spinelPropRcpMacKey : ℕ := 0x800
def spinelPropRcpMacFrameCounter : ℕ := 0x801
def spinelPropRcpTimestamp : ℕ := 0x802
def spinelPropRcpEnhAckProbing : ℕ := 0x803
def spinelPropRadioCaps : ℕ := 0x120b
def spinelPropMacSrcMatchEnabled : ℕ := 0x1303
def spinelPropMacSrcMatchShortAddresses : ℕ := 0x1304
def spinelPropMacSrcMatchExtendedAddresses : ℕ := 0x1305

def spinelStatusOk : ℕ := 0
def spinelStatusResetPowerOn : ℕ := 112

def spinelMdFlagAckedFp : ℕ := 0x10
def spinelMdFlagAckedSec : ℕ := 0x20

/-! ### Header -/

def spinelHeaderFlag : UInt8 := 0x80

/-- `SPINEL_HEADER_IID`. -/
def spinelHeaderIid (inst : UInt8) : UInt8 := inst <<< 4

/-- `SPINEL_HEADER_GET_IID`. -/
def spinelHeaderGetIid (header : UInt8) : UInt8 := (header &&& 0x30) >>> 4

/-- `SPINEL_HEADER_GET_TID`. -/
def spinelHeaderGetTid (header : UInt8) : UInt8 := header &&& 0x0f

/-- `SPINEL_GET_NEXT_TID`: 1 to 15 in turn; 0 is never used. -/
def spinelGetNextTid (tid : UInt8) : UInt8 := if 15 ≤ tid then 1 else tid + 1

/-- `SPINEL_DATATYPE_COMMAND_S`. -/
def spinelDatatypeCommandS : List Char := ['C', 'i']

/-- `SPINEL_DATATYPE_COMMAND_PROP_S`. -/
def spinelDatatypeCommandPropS : List Char := ['C', 'i', 'i']

/-! ### Sending -/

/-- `struct spinel_drv_data`. -/
structure SpinelDrv where
  inst : UInt8
  actId : UInt8
  deriving DecidableEq, Repr

def spinelDrvInit (inst : UInt8) : SpinelDrv := ⟨inst, 0⟩

variable (drv : SpinelDrv)

/-- `spinel_drv_set_tid`; the compare-and-swap loop makes the step atomic. -/
def spinelDrvSetTid : SpinelDrv := { drv with actId := spinelGetNextTid drv.actId }

/-- What a request comes to: the result, the bytes for the transmit callback and the driver. -/
structure SpinelSent where
  ret : ℤ
  out : List UInt8
  drv : SpinelDrv
  deriving DecidableEq, Repr

/-- `spinel_drv_send_cmd`; `fmt` is `none` for `NULL`. -/
def spinelDrvSendCmd (cmd prop : ℕ) (fmt : Option (List Char))
    (args : List VaArg) : Option SpinelSent := do
  let drv := spinelDrvSetTid drv
  let header := spinelHeaderFlag ||| spinelHeaderIid drv.inst ||| drv.actId
  let hdr ← spinelDatatypeVpack true spinelDatatypeCommandPropS
    [.int header.toNat, .int cmd, .int prop]
  if hdr.ret < 0 then some ⟨hdr.ret, hdr.out, drv⟩
  else match fmt with
    | none => some ⟨drv.actId.toNat, hdr.out, drv⟩
    | some fmt => do
      let data ← spinelDatatypeVpack true fmt args
      if data.ret < 0 then some ⟨data.ret, hdr.out ++ data.out, drv⟩
      else some ⟨drv.actId.toNat, hdr.out ++ data.out, drv⟩

theorem spinelDrvSendCmd_tid {drv : SpinelDrv} {cmd prop : ℕ} {fmt : Option (List Char)}
    {args : List VaArg} {s : SpinelSent} (h : spinelDrvSendCmd drv cmd prop fmt args = some s) :
    s.drv = spinelDrvSetTid drv ∧ (s.ret < 0 ∨ s.ret = (spinelDrvSetTid drv).actId.toNat) := by
  simp only [spinelDrvSendCmd, Option.bind_eq_bind, Option.bind_eq_some_iff] at h
  obtain ⟨hdr, -, h⟩ := h
  by_cases hneg : hdr.ret < 0
  · rw [if_pos hneg] at h
    obtain rfl := Option.some.inj h
    exact ⟨rfl, .inl hneg⟩
  rw [if_neg hneg] at h
  cases fmt with
  | none =>
    obtain rfl := Option.some.inj h
    exact ⟨rfl, .inr rfl⟩
  | some fmt =>
    obtain ⟨data, -, h⟩ := Option.bind_eq_some_iff.mp h
    by_cases hneg' : data.ret < 0
    · rw [if_pos hneg'] at h
      obtain rfl := Option.some.inj h
      exact ⟨rfl, .inl hneg'⟩
    · rw [if_neg hneg'] at h
      obtain rfl := Option.some.inj h
      exact ⟨rfl, .inr rfl⟩

/-- `bool` and small integers as variadic arguments. -/
def VaArg.bool (b : Bool) : VaArg := .int (if b then 1 else 0)
def VaArg.u8 (v : UInt8) : VaArg := .int v.toNat
def VaArg.u16 (v : UInt16) : VaArg := .int v.toNat
def VaArg.u32 (v : UInt32) : VaArg := .int v.toNat

abbrev ExtAddress := Vector UInt8 8

/-- `spinel_drv_send_reset`: no transaction id, no property. -/
def spinelDrvSendReset (type : UInt8) : Option SpinelSent := do
  let header := spinelHeaderFlag ||| spinelHeaderIid drv.inst
  let r ← spinelDatatypeVpack true (spinelDatatypeCommandS ++ ['C'])
    [.u8 header, .int spinelCmdReset, .u8 type]
  some ⟨r.ret, r.out, drv⟩

def spinelDrvSendGetIeeeEui64 : Option SpinelSent :=
  spinelDrvSendCmd drv spinelCmdPropValueGet spinelPropHwaddr none []

def spinelDrvSendGetCapabilities : Option SpinelSent :=
  spinelDrvSendCmd drv spinelCmdPropValueGet spinelPropRadioCaps none []

def spinelDrvSendEnableSrcMatch (enable : Bool) : Option SpinelSent :=
  spinelDrvSendCmd drv spinelCmdPropValueSet spinelPropMacSrcMatchEnabled (some ['b'])
    [.bool enable]

def spinelDrvSendAckFpb (addr : UInt16) (enable : Bool) : Option SpinelSent :=
  spinelDrvSendCmd drv (if enable then spinelCmdPropValueInsert else spinelCmdPropValueRemove)
    spinelPropMacSrcMatchShortAddresses (some ['S']) [.u16 addr]

def spinelDrvSendAckFpbExt (addr : ExtAddress) (enable : Bool) : Option SpinelSent :=
  spinelDrvSendCmd drv (if enable then spinelCmdPropValueInsert else spinelCmdPropValueRemove)
    spinelPropMacSrcMatchExtendedAddresses (some ['E']) [.ptr (some addr.toList)]

def spinelDrvSendAckFpbClear : Option SpinelSent :=
  spinelDrvSendCmd drv spinelCmdPropValueSet spinelPropMacSrcMatchShortAddresses none []

def spinelDrvSendAckFpbExtClear : Option SpinelSent :=
  spinelDrvSendCmd drv spinelCmdPropValueSet spinelPropMacSrcMatchExtendedAddresses none []

def spinelDrvSendMacFrameCounter (frameCounter : UInt32) (setIfLarger : Bool) : Option SpinelSent :=
  spinelDrvSendCmd drv spinelCmdPropValueSet spinelPropRcpMacFrameCounter (some ['L', 'b'])
    [.u32 frameCounter, .bool setIfLarger]

def spinelDrvSendPanid (panId : UInt16) : Option SpinelSent :=
  spinelDrvSendCmd drv spinelCmdPropValueSet spinelPropMac154Panid (some ['S']) [.u16 panId]

def spinelDrvSendShortAddr (addr : UInt16) : Option SpinelSent :=
  spinelDrvSendCmd drv spinelCmdPropValueSet spinelPropMac154Saddr (some ['S']) [.u16 addr]

def spinelDrvSendExtAddr (addr : ExtAddress) : Option SpinelSent :=
  spinelDrvSendCmd drv spinelCmdPropValueSet spinelPropMac154Laddr (some ['E'])
    [.ptr (some addr.toList)]

def spinelDrvSendTxPower (pwrDbm : Int8) : Option SpinelSent :=
  spinelDrvSendCmd drv spinelCmdPropValueSet spinelPropPhyTxPower (some ['c'])
    [.int pwrDbm.toInt]

def spinelDrvSendRcpEnable (enable : Bool) : Option SpinelSent :=
  spinelDrvSendCmd drv spinelCmdPropValueSet spinelPropPhyEnabled (some ['b']) [.bool enable]

def spinelDrvSendReceiveEnable (enable : Bool) : Option SpinelSent :=
  spinelDrvSendCmd drv spinelCmdPropValueSet spinelPropMacRawStreamEnabled (some ['b'])
    [.bool enable]

def spinelDrvSendChannel (channel : UInt8) : Option SpinelSent :=
  spinelDrvSendCmd drv spinelCmdPropValueSet spinelPropPhyChan (some ['C']) [.u8 channel]

def spinelDrvDefaultMaxFrameRetries : ℤ := 0
def spinelDrvDefaultMaxCsmaBackoffs : ℤ := 4

/-- Transmit side of `struct spinel_frame_data`. -/
structure SpinelFrameTx where
  timeBase : UInt32
  timeOffset : UInt32
  headerUpdated : Bool
  securityProcessed : Bool
  isRet : Bool
  csmaCaEnabled : Bool
  deriving DecidableEq, Repr

/-- Receive side of `struct spinel_frame_data`. -/
structure SpinelFrameRx where
  timestamp : UInt64
  rssi : Int8
  lqi : UInt8
  framePending : Bool
  secEnhAck : Bool
  deriving DecidableEq, Repr

/-- `struct spinel_frame_data`. `data` is `NULL` or the bytes it points to; no function reads one
side after writing the other, so here they are two fields. -/
structure SpinelFrameData where
  data : Option (List UInt8)
  dataLength : ℕ
  channel : UInt8
  tx : SpinelFrameTx
  rx : SpinelFrameRx
  deriving DecidableEq, Repr

def spinelDrvSendTransmitFrame (frame : SpinelFrameData) : Option SpinelSent :=
  spinelDrvSendCmd drv spinelCmdPropValueSet spinelPropStreamRaw
    (some ['d', 'C', 'C', 'C', 'b', 'b', 'b', 'b', 'L', 'L', 'C'])
    [.ptr frame.data, .int frame.dataLength, .u8 frame.channel,
      .int spinelDrvDefaultMaxCsmaBackoffs, .int spinelDrvDefaultMaxFrameRetries,
      .bool frame.tx.csmaCaEnabled, .bool frame.tx.headerUpdated, .bool frame.tx.isRet,
      .bool frame.tx.securityProcessed, .u32 frame.tx.timeOffset, .u32 frame.tx.timeBase,
      .u8 frame.channel]

/-- `struct spinel_link_metrics`. -/
structure SpinelLinkMetrics where
  pduCount : Bool
  lqi : Bool
  linkMargin : Bool
  rssi : Bool
  deriving DecidableEq, Repr

/-- Flags of `spinel_drv_send_link_metrics`. -/
def SpinelLinkMetrics.flags (m : SpinelLinkMetrics) : UInt8 :=
  (if m.pduCount then 1 else 0) ||| (if m.lqi then 2 else 0) |||
    (if m.linkMargin then 4 else 0) ||| (if m.rssi then 8 else 0)

def spinelDrvSendLinkMetrics (shortAddr : UInt16) (extAddr : ExtAddress)
    (linkMetrics : SpinelLinkMetrics) : Option SpinelSent :=
  spinelDrvSendCmd drv spinelCmdPropValueSet spinelPropRcpEnhAckProbing
    (some ['S', 'E', 'C']) [.u16 shortAddr, .ptr (some extAddr.toList), .u8 linkMetrics.flags]

/-- `struct spinel_mac_keys`. -/
structure SpinelMacKeys where
  keyMode : UInt8
  keyId : UInt8
  prevKey : Vector UInt8 16
  currKey : Vector UInt8 16
  nextKey : Vector UInt8 16
  deriving DecidableEq, Repr

def spinelDrvSendMacKeys (keys : SpinelMacKeys) : Option SpinelSent :=
  spinelDrvSendCmd drv spinelCmdPropValueSet spinelPropRcpMacKey
    (some ['C', 'C', 'd', 'd', 'd'])
    [.u8 keys.keyMode, .u8 keys.keyId, .ptr (some keys.prevKey.toList), .int 16,
      .ptr (some keys.currKey.toList), .int 16, .ptr (some keys.nextKey.toList), .int 16]

def spinelDrvSendGetTimestamp : Option SpinelSent :=
  spinelDrvSendCmd drv spinelCmdPropValueGet spinelPropRcpTimestamp none []

end TlZephyr
