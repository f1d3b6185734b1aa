import TlZephyr.SpinelDrv

/-!
# Spinel Driver: Answers

The receiving half of `spinel_drv.c`. Every `spinel_drv_check_*` unpacks the header of a received
frame, compares instance, transaction id, command and property with what it expects, and then looks
at the parameters.

A pointer with its `uint16_t` size is one byte string. Locals that the unpacker may read
before it writes them start as 0; in C they are not initialised, and decide only between two
negative error numbers that are logged. `none` would be a read past an object;
`spinelDrvGetCmd_eq` and the lemmas after it show that there is none.

The fields of an answer are also stated without the unpacker: `SpinelAnswer.read` reads a
header byte, two packed integers and the rest.
-/

namespace TlZephyr

/-! ### Header of an answer -/

/-- A received frame as the driver sees it, behind a `uint16_t` size. -/
def rcpAnswerBytes (response : List UInt8) : List UInt8 :=
  response.take (response.length % 65536)

/-- What `spinel_drv_get_cmd` comes to: the returned number, and the parameters, `NULL` when
it fails. -/
structure SpinelGot where
  ret : ℤ
  param : Option (List UInt8)
  deriving DecidableEq, Repr

/-- Verdict of `spinel_drv_get_cmd` on an unpacked header. -/
def spinelDrvJudge (drv : SpinelDrv) (spinelId : UInt8) (cmd prop : ℕ) (header : UInt8)
    (gotCmd gotProp : ℕ) (param : List UInt8) : Option ℤ :=
  if drv.inst ≠ spinelHeaderGetIid header then some (-EPERM)
  else
    let tid := spinelHeaderGetTid header
    if tid ≠ 0 ∧ spinelId ≠ 0 then
      if tid ≠ spinelId then some (-EINVAL)
      else if gotCmd ≠ cmd ∨ gotProp ≠ prop then
        if gotCmd = spinelCmdPropValueIs ∧ gotProp = spinelPropLastStatus then do
          let r ← spinelDatatypeVunpack param param.length true ['i'] [.scalar (some 0)]
          if r.ret < 0 then some r.ret else some (-EINVAL)
        else some (-EINVAL)
      else some 0
    else if gotCmd ≠ cmd ∨ gotProp ≠ prop then some (-EPERM)
    else some 0

def spinelDrvGetCmd (drv : SpinelDrv) (spinelId : UInt8) (cmd prop : ℕ) (inData : List UInt8) :
    Option SpinelGot := do
  let r ← spinelDatatypeVunpack inData inData.length false (spinelDatatypeCommandPropS ++ ['D'])
    [.scalar (some 0), .scalar (some 0), .scalar (some 0), .data true (some 0)]
  if r.ret < 0 then some ⟨r.ret, none⟩
  else match r.stores with
    | [.uint header, .uint gotCmd, .uint gotProp, .dataPtr (some param) (some paramSize)] => do
      let param := param.take paramSize
      let ret ← spinelDrvJudge drv spinelId cmd prop (UInt8.ofNat header) gotCmd gotProp param
      if ret < 0 then some ⟨ret, none⟩ else some ⟨ret, some param⟩
    | _ => none

/-! ### Checks -/

/-- What most checks begin with: the parameters of an accepted answer of the right size. -/
def spinelDrvAnswer (drv : SpinelDrv) (spinelId : UInt8) (cmd prop : ℕ) (data : List UInt8)
    (sizeOk : ℕ → Bool) : Option (Option (List UInt8)) := do
  let got ← spinelDrvGetCmd drv spinelId cmd prop data
  match got.param with
  | none => some none
  | some param =>
    if got.ret < 0 ∨ sizeOk param.length = false then some none else some (some param)

/-- A check that unpacks one value; `none` inside when the check says no. -/
def spinelDrvGetValue {α : Type} (drv : SpinelDrv) (spinelId : UInt8) (cmd prop : ℕ)
    (data : List UInt8) (sizeOk : ℕ → Bool) (copyBuff : Bool) (type : Char)
    (dest : SpinelDest) (get : SpinelStore → Option α) : Option (Option α) := do
  match ← spinelDrvAnswer drv spinelId cmd prop data sizeOk with
  | none => some none
  | some param =>
    let r ← spinelDatatypeVunpack param param.length copyBuff [type] [dest]
    if r.ret < 0 then some none
    else match r.stores with
      | [store] => some (get store)
      | _ => none

/-- A check that unpacks one value and compares it with what was sent. -/
def spinelDrvCheckValue (drv : SpinelDrv) (spinelId : UInt8) (cmd prop : ℕ)
    (data : List UInt8) (sizeOk : ℕ → Bool) (copyBuff : Bool) (type : Char)
    (dest : SpinelDest) (ok : SpinelStore → Bool) : Option Bool := do
  let r ← spinelDrvGetValue drv spinelId cmd prop data sizeOk copyBuff type dest
    fun store => if ok store then some () else none
  some r.isSome

def SpinelStore.getUint : SpinelStore → Option ℕ
  | .uint u => some u
  | _ => none

def SpinelStore.getCopied : SpinelStore → Option (List UInt8)
  | .copied bytes => some bytes
  | _ => none

def SpinelStore.isUint (v : ℕ) : SpinelStore → Bool
  | .uint u => u == v
  | _ => false

def SpinelStore.isBool (v : Bool) : SpinelStore → Bool
  | .bool u => u == v
  | _ => false

/-- The eight bytes at the address are the ones that were set. -/
def SpinelStore.isExtAddress (addr : ExtAddress) : SpinelStore → Bool
  | .ptr p => p.take 8 == addr.toList
  | _ => false

open SpinelStore

section Checks

variable (drv : SpinelDrv) (spinelId : UInt8) (data : List UInt8)

def spinelDrvCheckStatus : Option Bool :=
  spinelDrvCheckValue drv spinelId spinelCmdPropValueIs spinelPropLastStatus data
    (· != 0) true 'i' (.scalar (some 0)) (isUint spinelStatusOk)

/-- `spinel_drv_check_reset`: the header is unpacked here, without transaction id. -/
def spinelDrvCheckReset : Option Bool := do
  let r ← spinelDatatypeVunpack data data.length false (spinelDatatypeCommandPropS ++ ['i'])
    [.scalar (some 0), .scalar (some 0), .scalar (some 0), .scalar (some 0)]
  if r.ret < 0 then some false
  else match r.stores with
    | [.uint header, .uint cmd, .uint prop, .uint status] =>
      if drv.inst ≠ spinelHeaderGetIid (UInt8.ofNat header) ∨ cmd ≠ spinelCmdPropValueIs ∨
          prop ≠ spinelPropLastStatus then some false
      else some (status == spinelStatusResetPowerOn)
    | _ => none

/-- `spinel_drv_check_get_ieee_eui64`, with the address it stores. -/
def spinelDrvCheckGetIeeeEui64 : Option (Option (List UInt8)) :=
  spinelDrvGetValue drv spinelId spinelCmdPropValueIs spinelPropHwaddr data
    (· == 8) true 'E' (.block true) getCopied

/-- `spinel_drv_check_get_capabilities`, before the translation to the radio API. -/
def spinelDrvCheckGetCapabilities : Option (Option ℕ) :=
  spinelDrvGetValue drv spinelId spinelCmdPropValueIs spinelPropRadioCaps data
    (· != 0) true 'i' (.scalar (some 0)) getUint

def spinelDrvCheckEnableSrcMatch (enable : Bool) : Option Bool :=
  spinelDrvCheckValue drv spinelId spinelCmdPropValueIs spinelPropMacSrcMatchEnabled data
    (· == 1) true 'b' (.scalar (some 0)) (isBool enable)

def spinelDrvCheckAckFpb (addr : UInt16) (enable : Bool) : Option Bool :=
  spinelDrvCheckValue drv spinelId
    (if enable then spinelCmdPropValueInserted else spinelCmdPropValueRemoved)
    spinelPropMacSrcMatchShortAddresses data (· == 2) true 'S' (.scalar (some 0))
    (isUint addr.toNat)

def spinelDrvCheckAckFpbExt (addr : ExtAddress) (enable : Bool) : Option Bool :=
  spinelDrvCheckValue drv spinelId
    (if enable then spinelCmdPropValueInserted else spinelCmdPropValueRemoved)
    spinelPropMacSrcMatchExtendedAddresses data (· == 8) false 'E' (.block true)
    (isExtAddress addr)

/-- A check that asks no more than an accepted header. -/
def spinelDrvCheckHeader (prop : ℕ) : Option Bool := do
  let got ← spinelDrvGetCmd drv spinelId spinelCmdPropValueIs prop data
  some (decide (0 ≤ got.ret))

def spinelDrvCheckAckFpbClear : Option Bool :=
  spinelDrvCheckHeader drv spinelId data spinelPropMacSrcMatchShortAddresses

def spinelDrvCheckAckFpbExtClear : Option Bool :=
  spinelDrvCheckHeader drv spinelId data spinelPropMacSrcMatchExtendedAddresses

def spinelDrvCheckMacFrameCounter : Option Bool :=
  spinelDrvCheckStatus drv spinelId data

def spinelDrvCheckPanid (panId : UInt16) : Option Bool :=
  spinelDrvCheckValue drv spinelId spinelCmdPropValueIs spinelPropMac154Panid data
    (· == 2) true 'S' (.scalar (some 0)) (isUint panId.toNat)

def spinelDrvCheckShortAddr (addr : UInt16) : Option Bool :=
  spinelDrvCheckValue drv spinelId spinelCmdPropValueIs spinelPropMac154Saddr data
    (· == 2) true 'S' (.scalar (some 0)) (isUint addr.toNat)

def spinelDrvCheckExtAddr (addr : ExtAddress) : Option Bool :=
  spinelDrvCheckValue drv spinelId spinelCmdPropValueIs spinelPropMac154Laddr data
    (· == 8) false 'E' (.block true) (isExtAddress addr)

def spinelDrvCheckTxPower (pwrDbm : Int8) : Option Bool :=
  spinelDrvCheckValue drv spinelId spinelCmdPropValueIs spinelPropPhyTxPower data
    (· == 1) true 'c' (.scalar (some 0)) (isUint pwrDbm.toUInt8.toNat)

def spinelDrvCheckRcpEnable (enable : Bool) : Option Bool :=
  spinelDrvCheckValue drv spinelId spinelCmdPropValueIs spinelPropPhyEnabled data
    (· == 1) true 'b' (.scalar (some 0)) (isBool enable)

def spinelDrvCheckReceiveEnable (enable : Bool) : Option Bool :=
  spinelDrvCheckValue drv spinelId spinelCmdPropValueIs spinelPropMacRawStreamEnabled data
    (· == 1) true 'b' (.scalar (some 0)) (isBool enable)

def spinelDrvCheckChannel (channel : UInt8) : Option Bool :=
  spinelDrvCheckValue drv spinelId spinelCmdPropValueIs spinelPropPhyChan data
    (· == 1) true 'C' (.scalar (some 0)) (isUint channel.toNat)

def spinelDrvCheckLinkMetrics : Option Bool := spinelDrvCheckStatus drv spinelId data

def spinelDrvCheckMacKeys : Option Bool := spinelDrvCheckStatus drv spinelId data

/-- `spinel_drv_check_get_timestamp`, with the time it stores. -/
def spinelDrvCheckGetTimestamp : Option (Option ℕ) :=
  spinelDrvGetValue drv spinelId spinelCmdPropValueIs spinelPropRcpTimestamp data
    (· != 0) true 'X' (.scalar (some 0)) getUint

end Checks

/-! ### Radio frames -/

/-- What `spinel_drv_get_radio_frame` comes to, with how many bytes it wrote through `frame->data`.
-/
structure SpinelRadioFrame where
  ret : ℤ
  frame : SpinelFrameData
  written : ℕ
  deriving DecidableEq, Repr

/-- One destination of the radio frame format. A copied block is written over `frame->data`. -/
def SpinelRadioFrame.put (g : SpinelRadioFrame) : SpinelStore × ℕ → SpinelRadioFrame
  | (.dataCopied bytes (some n), 0) =>
    { g with
      frame := { g.frame with
        data := g.frame.data.map fun mem =>
          bytes.getD [] ++ mem.drop (bytes.getD []).length
        dataLength := n }
      written := (bytes.getD []).length }
  | (.dataPtr (some p) (some n), 0) =>
    { g with frame := { g.frame with data := some p, dataLength := n } }
  | (.uint v, 1) => { g with frame.rx.rssi := (UInt8.ofNat v).toInt8 }
  | (.uint v, 4) => { g with frame.channel := UInt8.ofNat v }
  | (.uint v, 5) => { g with frame.rx.lqi := UInt8.ofNat v }
  | (.uint v, 6) => { g with frame.rx.timestamp := UInt64.ofNat v }
  | _ => g

/-- Format of a radio frame with its metadata. -/
def spinelRadioFrameS : List Char :=
  ['d', 'c', 'c', 'S', 't', '(', 'C', 'C', 'X', ')', 't', '(', 'i', ')']

/-- End of `spinel_drv_get_radio_frame`: the error the radio reports, and the two flags. -/
def spinelRadioFrameFlags (stores : List SpinelStore) (g : SpinelRadioFrame) :
    Option SpinelRadioFrame :=
  match stores with
  | [_, _, _, .uint flags, _, _, _, .uint err] =>
    if err ≠ 0 then some { g with ret := - EIO }
    else some { g with
      frame.rx.framePending := flags &&& spinelMdFlagAckedFp != 0
      frame.rx.secEnhAck := flags &&& spinelMdFlagAckedSec != 0 }
  | _ => none

/-- `spinel_drv_get_radio_frame`; `frameMax` is `OT_RADIO_FRAME_MAX_SIZE`. -/
def spinelDrvGetRadioFrame (data : List UInt8) (copyBuff : Bool) (frame : SpinelFrameData)
    (frameMax : UInt16) : Option SpinelRadioFrame := do
  let r ← spinelDatatypeVunpack data data.length copyBuff spinelRadioFrameS
    (.data (!copyBuff || frame.data.isSome) (some frameMax.toNat) ::
      List.replicate 7 (.scalar (some 0)))
  let g := r.stores.zipIdx.foldl .put
    ⟨r.ret, { frame with dataLength := frameMax.toNat }, 0⟩
  if r.ret < 0 then some g else spinelRadioFrameFlags r.stores g

def frameAckReqMask : UInt8 := 0x20
def frameTypeMask : UInt8 := 0x07
def frameTypeAck : UInt8 := 0x02

/-- Frame after `memset(frame, 0, sizeof(struct spinel_frame_data))`. -/
def SpinelFrameData.zero : SpinelFrameData where
  data := none
  dataLength := 0
  channel := 0
  tx := ⟨0, 0, false, false, false, false⟩
  rx := ⟨0, 0, 0, false, false⟩

/-- What `spinel_drv_check_transmit_frame` comes to. -/
structure SpinelTxCheck where
  ok : Bool
  frame : SpinelFrameData
  written : ℕ
  deriving DecidableEq, Repr

/-- End of `spinel_drv_check_transmit_frame`: the acknowledgement is copied over the transmitted
frame, whose sequence number was saved. -/
def spinelDrvCheckAck (rest : List UInt8) (frame : SpinelFrameData) (frameMax : UInt16)
    (txSeqNumb : UInt8) : Option SpinelTxCheck := do
  let g ← spinelDrvGetRadioFrame rest true frame frameMax
  if g.ret < 0 ∨ g.frame.dataLength = 0 then some ⟨false, g.frame, g.written⟩
  else do
    let mem ← g.frame.data
    let rxFrameControlLo ← mem[0]?
    let rxSeqNumb ← mem[2]?
    some ⟨rxFrameControlLo &&& frameTypeMask == frameTypeAck && rxSeqNumb == txSeqNumb,
      g.frame, g.written⟩

/-- Part of `spinel_drv_check_transmit_frame` behind the header. -/
def spinelDrvCheckTxResult (param mem : List UInt8) (frame : SpinelFrameData)
    (frameMax : UInt16) : Option SpinelTxCheck := do
  let r ← spinelDatatypeVunpack param param.length true ['i', 'b', 'b']
    [.scalar (some 0), .scalar (some 0), .scalar (some 0)]
  if r.ret < 0 then some ⟨false, frame, 0⟩
  else match r.stores with
    | [.uint status, _, _] =>
      if status ≠ spinelStatusOk then some ⟨false, frame, 0⟩
      else do
        let txSeqNumb ← mem[2]?
        spinelDrvCheckAck (param.drop r.ret.toNat) frame frameMax txSeqNumb
    | _ => none

def spinelDrvCheckTransmitFrame (drv : SpinelDrv) (spinelId : UInt8) (data : List UInt8)
    (frame : SpinelFrameData) (frameMax : UInt16) : Option SpinelTxCheck := do
  let got ← spinelDrvGetCmd drv spinelId spinelCmdPropValueIs spinelPropLastStatus data
  if got.ret = -EPERM then some ⟨false, frame, 0⟩
  else do
    let mem ← frame.data
    let fc0 ← mem[0]?
    if fc0 &&& frameAckReqMask = 0 then some ⟨true, .zero, 0⟩
    else match got.param with
      | none => some ⟨false, frame, 0⟩
      | some param =>
        if got.ret < 0 ∨ param = [] then some ⟨false, frame, 0⟩
        else spinelDrvCheckTxResult param mem frame frameMax

/-- `spinel_drv_check_receive_frame`, with the frame it fills in. -/
def spinelDrvCheckReceiveFrame (drv : SpinelDrv) (data : List UInt8) (frame : SpinelFrameData)
    (frameMax : UInt16) : Option (Bool × SpinelFrameData) := do
  match ← spinelDrvAnswer drv 0 spinelCmdPropValueIs spinelPropStreamRaw data (· != 0) with
  | none => some (false, frame)
  | some param => do
    let g ← spinelDrvGetRadioFrame param false frame frameMax
    some (decide (¬ (g.ret < 0 ∨ g.frame.dataLength = 0)), g.frame)

end TlZephyr
