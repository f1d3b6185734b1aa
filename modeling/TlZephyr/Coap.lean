import TlZephyr.Errno
import TlZephyr.Lib.Memory
import TlZephyr.Lib.DeltaOptions

/-!
# CoAP Options

The part of `subsys/net/lib/coap/coap.c` that builds the options of a packet. An option with the
largest number so far is appended. Any other is put in the middle: the option behind it is taken
out, the new one is written in its place and the other one after it, with its new difference.

`TlZephyr.CoapRoundTrip` says what the option area holds after a sequence of such calls.
-/

namespace TlZephyr

namespace Coap

open Memory DeltaOptions

/-- `struct coap_packet`. -/
structure CoapPacket where
  data : Mem
  offset : ℕ
  maxLen : ℕ
  hdrLen : ℕ
  optLen : ℕ
  delta : ℕ

/-! ### Writing -/

variable (cpkt : CoapPacket)

def encodeU8 (offset : ℕ) (data : UInt8) : CoapPacket :=
  { cpkt with
    data := storeBytes cpkt.data offset [data]
    offset := (cpkt.offset + 1) % 2 ^ 16 }

def encodeBe16 (offset data : ℕ) : CoapPacket :=
  { cpkt with
    data := storeBytes cpkt.data offset [UInt8.ofNat (data / 256), UInt8.ofNat data]
    offset := (cpkt.offset + 2) % 2 ^ 16 }

def encodeBuffer (offset : ℕ) (data : List UInt8) : CoapPacket :=
  { cpkt with
    data := storeBytes cpkt.data offset data
    offset := (cpkt.offset + data.length) % 2 ^ 16 }

def enoughSpace (bytesToAdd : ℕ) : Bool :=
  decide (cpkt.offset + bytesToAdd ≤ cpkt.maxLen)

def appendU8 (data : UInt8) : Option CoapPacket :=
  if enoughSpace cpkt 1 then some (encodeU8 cpkt cpkt.offset data) else none

def insertU8 (data : UInt8) (offset : ℕ) : Option CoapPacket :=
  if enoughSpace cpkt 1 then
    let moved := moveBytes cpkt.data (offset + 1) offset (cpkt.offset - offset)
    some (encodeU8 { cpkt with data := moved } offset data)
  else none

def appendBe16 (data : ℕ) : Option CoapPacket :=
  if enoughSpace cpkt 2 then some (encodeBe16 cpkt cpkt.offset data) else none

/-- `insert_be16`: makes room at `offset` and writes at the end of the packet. -/
def insertBe16 (data offset : ℕ) : Option CoapPacket :=
  if enoughSpace cpkt 2 then
    let moved := moveBytes cpkt.data (offset + 2) offset (cpkt.offset - offset)
    some (encodeBe16 { cpkt with data := moved } cpkt.offset data)
  else none

def append (data : List UInt8) : Option CoapPacket :=
  if enoughSpace cpkt data.length then some (encodeBuffer cpkt cpkt.offset data) else none

def insert (data : List UInt8) (offset : ℕ) : Option CoapPacket :=
  if enoughSpace cpkt data.length then
    let moved := moveBytes cpkt.data (offset + data.length) offset (cpkt.offset - offset)
    some (encodeBuffer { cpkt with data := moved } offset data)
  else none

def appendToken (tokenLen : ℕ) : Option (List UInt8) → Option CoapPacket
  | some token => if tokenLen ≠ 0 then append cpkt (token.take tokenLen) else some cpkt
  | none => some cpkt

/-- `coap_packet_init`, for a token of `tokenLen` bytes or a null pointer. -/
def coapPacketInit (data : Mem) (maxLen ver type tokenLen : ℕ) (token : Option (List UInt8))
    (code : UInt8) (id : ℕ) : Option CoapPacket := do
  if maxLen = 0 then none
  let cpkt : CoapPacket := ⟨data, 0, maxLen, 0, 0, 0⟩
  let hdr := UInt8.ofNat ((ver &&& 0x3) <<< 6 ||| (type &&& 0x3) <<< 4 ||| tokenLen &&& 0xF)
  let cpkt ← appendU8 cpkt hdr
  let cpkt ← appendU8 cpkt code
  let cpkt ← appendBe16 cpkt id
  let cpkt ← appendToken cpkt tokenLen token
  return { cpkt with hdrLen := (1 + 1 + 2 + tokenLen) % 2 ^ 8 }

/-- `encode_extended_option`: the number of bytes, the four bits and the rest of a field. -/
def encodeExtendedOption (num : ℕ) : ℕ × ℕ × ℕ :=
  if num < 13 then (0, num, 0)
  else if num < 269 then (1, 13, num - 13)
  else (2, 14, num - 269)

/-- `option_header_set_delta` and `option_header_set_len`. -/
def optionHeader (delta len : ℕ) : UInt8 := UInt8.ofNat ((delta &&& 0xF) <<< 4 ||| len &&& 0xF)

def insertExtended (size ext offset : ℕ) : Option CoapPacket :=
  if size = 1 then insertU8 cpkt (UInt8.ofNat ext) offset
  else if size = 2 then insertBe16 cpkt ext offset
  else some cpkt

/-- `encode_option`: the bytes written, or a negative number, and the packet. -/
def encodeOption (code : ℕ) (value : List UInt8) (offset : ℕ) : ℤ × CoapPacket :=
  let (deltaSize, optDelta, deltaExt) := encodeExtendedOption code
  let (lenSize, optLen, lenExt) := encodeExtendedOption value.length
  match insertU8 cpkt (optionHeader optDelta optLen) offset with
  | none => (-EINVAL, cpkt)
  | some cpkt =>
    match insertExtended cpkt deltaSize deltaExt (offset + 1) with
    | none => (-EINVAL, cpkt)
    | some cpkt =>
      match insertExtended cpkt lenSize lenExt (offset + 1 + deltaSize) with
      | none => (-EINVAL, cpkt)
      | some cpkt =>
        if value.length ≠ 0 then
          match insert cpkt value (offset + 1 + deltaSize + lenSize) with
          | none => (-EINVAL, cpkt)
          | some cpkt => ((1 + deltaSize + lenSize + value.length : ℕ), cpkt)
        else
          ((1 + deltaSize + lenSize + value.length : ℕ), cpkt)

/-! ### Reading -/

/-- A position in the data and what is left after it, once something was read. -/
structure Read (α : Type) where
  value : α
  pos : ℕ
  left : ℕ

def readU8 (data : Mem) (offset maxLen : ℕ) : Option (Read UInt8) :=
  if maxLen < offset + 1 then none else some ⟨data offset, offset + 1, maxLen - (offset + 1)⟩

def readBe16 (data : Mem) (offset maxLen : ℕ) : Option (Read ℕ) :=
  if maxLen < offset + 2 then none
  else some ⟨(data offset).toNat * 256 + (data (offset + 1)).toNat, offset + 2,
    maxLen - (offset + 2)⟩

def read (data : Mem) (offset maxLen len : ℕ) : Option (Read (List UInt8)) :=
  if maxLen < offset + len then none
  else some ⟨loadBytes data offset len, offset + len, maxLen - (offset + len)⟩

/-- `decode_delta`: the field with its rest, and the bytes of the rest. -/
def decodeDelta (data : Mem) (offset maxLen opt : ℕ) : Option (Read (ℕ × ℕ)) :=
  if opt = 13 then do
    let r ← readU8 data offset maxLen
    return ⟨(r.value.toNat + 13, 1), r.pos, r.left⟩
  else if opt = 14 then do
    let r ← readBe16 data offset maxLen
    return ⟨((r.value + 269) % 2 ^ 16, 2), r.pos, r.left⟩
  else none

/-- `u16_add_overflow`. -/
def u16Add (a b : ℕ) : Option ℕ := if a + b < 2 ^ 16 then some (a + b) else none

structure Walk where
  pos : ℕ
  optDelta : ℕ
  optLen : ℕ
  option : Opt

/-- A field of the header byte, with its rest. `left` is what is left after the bytes before it. -/
def parseField (data : Mem) (maxLen pos left optLen nib : ℕ) (more : Bool) :
    Option (Read (ℕ × ℕ)) :=
  if nib > 12 then do
    let r ← decodeDelta data pos maxLen nib
    if r.left = 0 ∧ more then none
    let optLen ← u16Add optLen r.value.2
    return ⟨(r.value.1, optLen), r.pos, r.left⟩
  else
    some ⟨(nib, optLen), pos, left⟩

/-- `parse_option` with an `option` to fill, whose value has room for `cap` bytes. -/
def parseOption (cap : ℕ) (data : Mem) (maxLen : ℕ) (w : Walk) : Option Walk := do
  let r ← readU8 data w.pos maxLen
  if r.value = 0xFF then
    -- the marker of a payload, which may not be empty
    if r.left > 0 then return { w with pos := r.pos } else none
  let optLen := (w.optLen + 1) % 2 ^ 16
  let delta := r.value.toNat / 16
  let len := r.value.toNat % 16
  if r.left = 0 ∧ delta > 12 then none
  let d ← parseField data maxLen r.pos r.left optLen delta (decide (len > 12))
  let l ← parseField data maxLen d.pos d.left d.value.2 len false
  let optDelta ← u16Add w.optDelta d.value.1
  let optLen ← u16Add l.value.2 l.value.1
  if l.left = 0 ∧ l.value.1 ≠ 0 then none
  if l.value.1 > cap then none
  let v ← read data l.pos maxLen l.value.1
  return ⟨v.pos, optDelta, optLen, (optDelta, v.value)⟩

/-! ### Adding an option -/

/-- Loop of `insert_option`, with the number and offset of the option before. -/
def insertLoop (cap : ℕ) (data : Mem) (optEnd code : ℕ) :
    ℕ → Walk → ℕ → ℕ → Option (Option (Walk × ℕ × ℕ))
  | 0, _, _, _ => none
  | fuel + 1, w, lastOpt, lastOffset =>
    if w.pos < optEnd then
      match parseOption cap data (optEnd % 2 ^ 16) w with
      | none => some none
      | some w' =>
        if w'.optDelta > code then some (some (w', lastOpt, lastOffset))
        else insertLoop cap data optEnd code fuel w' w'.optDelta w'.pos
    else
      some (some (w, lastOpt, lastOffset))

/-- `a - b` of `uint16_t`. -/
def u16Sub (a b : ℕ) : ℕ := (a + 2 ^ 16 - b) % 2 ^ 16

/-- `remove_option_data`, which `insert_option` has in line. -/
def removeOptionData (toOffset fromOffset : ℕ) : CoapPacket :=
  let moveSize := u16Sub fromOffset toOffset
  { cpkt with
    data := moveBytes cpkt.data toOffset fromOffset (cpkt.offset - fromOffset)
    optLen := u16Sub cpkt.optLen moveSize
    offset := u16Sub cpkt.offset moveSize }

/-- End of `insert_option`: the new option at `lastOffset`, and the one taken out behind it. -/
def insertBoth (code : ℕ) (value : List UInt8) (option : Opt)
    (lastOpt lastOffset : ℕ) : ℤ × CoapPacket :=
  let (r, cpkt) := encodeOption cpkt (u16Sub code lastOpt) value lastOffset
  if r < 0 then
    (-EINVAL, cpkt)
  else
    let cpkt := { cpkt with optLen := (cpkt.optLen + r.toNat) % 2 ^ 16 }
    let (r', cpkt) := encodeOption cpkt (u16Sub option.1 code) option.2 (lastOffset + r.toNat)
    if r' < 0 then
      (-EINVAL, cpkt)
    else
      (0, { cpkt with optLen := (cpkt.optLen + r'.toNat) % 2 ^ 16 })

def insertOption (cap : ℕ) (cpkt : CoapPacket) (code : ℕ) (value : List UInt8) :
    Option (ℤ × CoapPacket) := do
  let found ← insertLoop cap cpkt.data (cpkt.hdrLen + cpkt.optLen) code (cpkt.optLen + 1)
    ⟨cpkt.hdrLen, 0, 0, (0, [])⟩ 0 cpkt.hdrLen
  match found with
  | none => return (-EILSEQ, cpkt)
  | some (w, lastOpt, lastOffset) =>
    return insertBoth (removeOptionData cpkt lastOffset w.pos) code value w.option lastOpt lastOffset

def coapPacketAppendOption (cap : ℕ) (cpkt : CoapPacket) (code : ℕ) (value : List UInt8) :
    Option (ℤ × CoapPacket) :=
  if code < cpkt.delta then
    insertOption cap cpkt code value
  else
    let code := if cpkt.optLen ≠ 0 then (if code = cpkt.delta then 0 else code - cpkt.delta) else code
    let (r, cpkt) := encodeOption cpkt code value (cpkt.hdrLen + cpkt.optLen)
    if r < 0 then
      some (-EINVAL, cpkt)
    else
      some (0, { cpkt with
        optLen := (cpkt.optLen + r.toNat) % 2 ^ 16
        delta := (cpkt.delta + code) % 2 ^ 16 })

def appendAll (cap : ℕ) (cpkt : CoapPacket) : List Opt → Option CoapPacket
  | [] => some cpkt
  | (code, value) :: opts => do
    let (r, cpkt) ← coapPacketAppendOption cap cpkt code value
    if r = 0 then appendAll cap cpkt opts else none

def CoapPacket.optionArea : List UInt8 :=
  loadBytes cpkt.data cpkt.hdrLen (cpkt.offset - cpkt.hdrLen)

end Coap

end TlZephyr
