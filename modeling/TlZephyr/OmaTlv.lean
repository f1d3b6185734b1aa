import TlZephyr.Errno
import TlZephyr.Lib.ByteSwap
import TlZephyr.Lib.LittleEndian

/-!
# OMA TLV Numbers

The TLV content format of LwM2M (`lwm2m_rw_oma_tlv.c` with the buffer helpers of
`buf_util.h`) on a little-endian target. A TLV is a header of two to six bytes (type, an id of
one or two bytes, up to three length bytes) and its value. Integers are written in one, two,
four or eight bytes, the shortest form that holds the value, and read back by their length.

The readers convert with `sys_cpu_to_be16` and `sys_cpu_to_be32`, whose results are unsigned.
A two- or four-byte number is therefore read without its sign, except where `get_s32` narrows
a four-byte number back to 32 bits.
-/

namespace TlZephyr.OmaTlv

open ByteSwap LittleEndian List

/-! ### Buffers -/

/-- `struct tlv_out_formatter_data`, and whether the flags hold `WRITER_RESOURCE_INSTANCE`. -/
structure Formatter where
  markPos : ℕ
  resourceInstance : Bool
  deriving DecidableEq

/-- The output packet: the bytes up to its offset, its size, and the user data of the writer. -/
structure Out where
  data : List UInt8
  maxLen : ℕ
  fd : Option Formatter
  deriving DecidableEq

def bufAppend (out : Out) (src : List UInt8) : ℤ × Out :=
  if out.data.length + src.length > out.maxLen then (-ENOMEM, out)
  else (0, { out with data := out.data ++ src })

/-- `buf_insert`: what stands behind the offset moves up. -/
def bufInsert (out : Out) (offset : ℕ) (src : List UInt8) : ℤ × Out :=
  if out.data.length + src.length > out.maxLen then (-ENOMEM, out)
  else (0, { out with data := out.data.take offset ++ src ++ out.data.drop offset })

/-- The input packet (at most 65535 bytes) and the offset of its reader. -/
structure In where
  data : List UInt8
  offset : ℕ
  deriving DecidableEq

/-- `buf_read`: the length is a 16-bit argument. -/
def bufRead (inp : In) (len : ℕ) : ℤ × List UInt8 × In :=
  if inp.offset + len % 65536 > inp.data.length then (-ENODATA, [], inp)
  else (0, (inp.data.drop inp.offset).take (len % 65536),
    { inp with offset := inp.offset + len % 65536 })

/-- `buf_read_u8`, which fails only with `-ENODATA`. -/
def bufReadU8 (inp : In) : Option (UInt8 × In) :=
  match inp.data[inp.offset]? with
  | none => none
  | some b => some (b, { inp with offset := inp.offset + 1 })

/-! ### Headers -/

/-- Types of a TLV, `OMA_TLV_TYPE_*`. -/
inductive TlvType
  | objectInstance
  | resourceInstance
  | multiResource
  | resource
  deriving DecidableEq

def TlvType.code : TlvType → ℕ
  | .objectInstance => 0
  | .resourceInstance => 1
  | .multiResource => 2
  | .resource => 3

/-- Type with the two bits `n`. -/
def TlvType.ofCode (n : ℕ) : TlvType :=
  if n = 0 then .objectInstance else if n = 1 then .resourceInstance
  else if n = 2 then .multiResource else .resource

/-- `struct oma_tlv`. -/
structure Tlv where
  type : TlvType
  id : UInt16
  length : ℕ
  deriving DecidableEq

/-- `get_len_type`: the number of length bytes. -/
def getLenType (tlv : Tlv) : ℕ :=
  if tlv.length < 8 then 0 else if tlv.length < 0x100 then 1
  else if tlv.length < 0x10000 then 2 else 3

def typeByte (type : ℕ) (longId : Bool) (lenType low : ℕ) : UInt8 :=
  UInt8.ofNat (type <<< 6 ||| (if longId then 1 <<< 5 else 0) ||| lenType <<< 3 ||| low)

/-- Length bytes that `oma_tlv_put` writes: byte `i` if the length type is above `i`. -/
def lengthBytes (lenType length : ℕ) : ℕ → List UInt8
  | 0 => []
  | i + 1 =>
    (if lenType > i then [UInt8.ofNat (length >>> (i * 8) &&& 0xff)] else []) ++
      lengthBytes lenType length i

/-- Bytes that `oma_tlv_put` writes before the value. -/
def headerBytes (tlv : Tlv) : List UInt8 :=
  typeByte tlv.type.code (decide (tlv.id.toNat > 255)) (getLenType tlv)
      (if getLenType tlv = 0 then tlv.length else 0) ::
    ((if tlv.id.toNat > 255 then [UInt8.ofNat (tlv.id.toNat >>> 8 &&& 0xff)] else []) ++
      UInt8.ofNat (tlv.id.toNat &&& 0xff) :: lengthBytes (getLenType tlv) tlv.length 3)

def omaTlvPutU8 (out : Out) (value : UInt8) (insert : Bool) : ℤ × Out :=
  if insert then
    match out.fd with
    | none => (-EINVAL, out)
    | some fd =>
      let r := bufInsert out fd.markPos [value]
      if r.1 < 0 then r else (0, { r.2 with fd := some { fd with markPos := fd.markPos + 1 } })
  else
    let r := bufAppend out [value]
    if r.1 < 0 then r else (0, r.2)

/-- Calls of `oma_tlv_put_u8` in `oma_tlv_put`, up to the first that fails. -/
def putBytes (insert : Bool) : List UInt8 → Out → ℤ × Out
  | [], out => (0, out)
  | b :: bs, out =>
    let r := omaTlvPutU8 out b insert
    if r.1 < 0 then r else putBytes insert bs r.2

/-- `oma_tlv_put`; `value` is the memory its pointer points to, if it is not `NULL`. -/
def omaTlvPut (tlv : Tlv) (out : Out) (value : Option (List UInt8)) (insert : Bool) : ℤ × Out :=
  let r := putBytes insert (headerBytes tlv) out
  if r.1 < 0 then r
  else
    match value with
    | some bytes =>
      if tlv.length > 0 ∧ insert = false then
        let r' := bufAppend r.2 (bytes.take (tlv.length % 65536))
        if r'.1 < 0 then r' else ((headerBytes tlv).length + tlv.length, r'.2)
      else ((headerBytes tlv).length + tlv.length, r.2)
    | none => ((headerBytes tlv).length + tlv.length, r.2)

/-- Loop of `oma_tlv_get` over the length bytes, most significant first. -/
def readLength : ℕ → ℕ → In → Option ℕ × In
  | 0, len, tmp => (some len, tmp)
  | n + 1, len, tmp =>
    match bufReadU8 tmp with
    | none => (none, tmp)
    | some (b, tmp') => readLength n (len <<< 8 ||| b.toNat) tmp'

/-- Number of id bytes that a first byte announces. -/
def idLen (b0 : UInt8) : ℕ := if b0.toNat &&& 1 <<< 5 ≠ 0 then 2 else 1

/-- Number of length bytes that a first byte announces. -/
def lenType (b0 : UInt8) : ℕ := b0.toNat >>> 3 &&& 3

/-- Where `oma_tlv_get` leaves the input. -/
def advance (inp : In) (dontAdvance : Bool) (tmp : In) : In := if dontAdvance then inp else tmp

@[simp] theorem advance_false (inp tmp : In) : advance inp false tmp = tmp := rfl

/-- End of `oma_tlv_get`, from the length on. -/
def omaTlvGetLength (tlv : Tlv) (inp : In) (dontAdvance : Bool) (b0 : UInt8) (tmp : In) :
    ℤ × Tlv × In :=
  if lenType b0 = 0 then
    ((1 + idLen b0 : ℕ) + (b0.toNat &&& 7 : ℕ), { tlv with length := b0.toNat &&& 7 },
      advance inp dontAdvance tmp)
  else
    match readLength (lenType b0) 0 tmp with
    | (none, tmp) => (-ENODATA, tlv, advance inp dontAdvance tmp)
    | (some len, tmp) =>
      ((1 + idLen b0 + lenType b0 : ℕ) + (len : ℕ), { tlv with length := len },
        advance inp dontAdvance tmp)

/-- `oma_tlv_get`. A header that ends early leaves the fields behind its end as they were. -/
def omaTlvGet (tlv : Tlv) (inp : In) (dontAdvance : Bool) : ℤ × Tlv × In :=
  match bufReadU8 inp with
  | none => (-ENODATA, tlv, advance inp dontAdvance inp)
  | some (b0, tmp) =>
    let tlv := { tlv with type := TlvType.ofCode (b0.toNat >>> 6 &&& 3) }
    match bufReadU8 tmp with
    | none => (-ENODATA, tlv, advance inp dontAdvance tmp)
    | some (b1, tmp) =>
      let tlv := { tlv with id := b1.toUInt16 }
      if 1 + idLen b0 > 2 then
        match bufReadU8 tmp with
        | none => (-ENODATA, tlv, advance inp dontAdvance tmp)
        | some (b2, tmp) =>
          omaTlvGetLength { tlv with id := UInt16.ofNat (tlv.id.toNat <<< 8 + b2.toNat) }
            inp dontAdvance b0 tmp
      else omaTlvGetLength tlv inp dontAdvance b0 tmp

/-! ### Numbers -/

/-- Ids of `struct lwm2m_obj_path` that the writers use. -/
structure Path where
  resId : UInt16
  resInstId : UInt16
  deriving DecidableEq

def tlvCalcType (fd : Formatter) : TlvType :=
  if fd.resourceInstance then .resourceInstance else .resource

def tlvCalcId (fd : Formatter) (path : Path) : UInt16 :=
  if fd.resourceInstance then path.resInstId else path.resId

variable (out : Out) (path : Path)

/-- What the writers of numbers have in common: the memory of the number as the value of a
TLV. -/
def putValue (bytes : List UInt8) : ℤ × Out :=
  match out.fd with
  | none => (-EINVAL, out)
  | some fd => omaTlvPut ⟨tlvCalcType fd, tlvCalcId fd path, bytes.length⟩ out (some bytes) false

def putS8 (value : BitVec 8) : ℤ × Out :=
  putValue out path (leBytes 1 value.toNat)

/-- `put_s16`; `sys_cpu_to_be16` swaps the bytes. -/
def putS16 (value : BitVec 16) : ℤ × Out :=
  if -128 ≤ value.toInt ∧ value.toInt ≤ 127 then putS8 out path (value.setWidth 8)
  else putValue out path (leBytes 2 (bswap16 value).toNat)

def putS32 (value : BitVec 32) : ℤ × Out :=
  if -32768 ≤ value.toInt ∧ value.toInt ≤ 32767 then putS16 out path (value.setWidth 16)
  else putValue out path (leBytes 4 (bswap32 value).toNat)

def putS64 (value : BitVec 64) : ℤ × Out :=
  if -2147483648 ≤ value.toInt ∧ value.toInt ≤ 2147483647 then
    putS32 out path (value.setWidth 32)
  else putValue out path (leBytes 8 (bswap64 value).toNat)

/-- Uninitialised `temp` of `get_number` after `bytes` were read into its memory. -/
def readTemp (temp : BitVec 64) (bytes : List UInt8) : BitVec 64 :=
  BitVec.ofNat 64 (leValue (bytes ++ (leBytes 8 temp.toNat).drop bytes.length))

/-- The `switch` of `get_number`. The results of `sys_cpu_to_be16` and `sys_cpu_to_be32` are
unsigned. -/
def numberOfTemp (length : ℕ) (temp : BitVec 64) : Option ℤ :=
  if length = 1 then some (temp.setWidth 8).toInt
  else if length = 2 then some (bswap16 (temp.setWidth 16)).toNat
  else if length = 4 then some (bswap32 (temp.setWidth 32)).toNat
  else if length = 8 then some (bswap64 temp).toInt
  else none

/-- `get_number`: result, number and input. The locals start with whatever the stack holds. -/
def getNumber (inp : In) (maxLen : ℕ) (tlv : Tlv) (temp : BitVec 64) : ℤ × Option ℤ × In :=
  let r := omaTlvGet tlv inp false
  if r.1 < 0 then (r.1, none, r.2.2)
  else if r.2.1.length > maxLen then (-ENOMEM, none, r.2.2)
  else
    let r' := bufRead r.2.2 r.2.1.length
    if r'.1 < 0 then (r'.1, none, r'.2.2)
    else
      match numberOfTemp r.2.1.length (readTemp temp r'.2.1) with
      | none => (-EBADMSG, none, r'.2.2)
      | some value => (r.1, some value, r'.2.2)

def getS64 (inp : In) (tlv : Tlv) (temp : BitVec 64) : ℤ × Option ℤ × In :=
  getNumber inp 8 tlv temp

/-- `get_s32`: the number is narrowed to 32 bits. -/
def getS32 (inp : In) (tlv : Tlv) (temp : BitVec 64) : ℤ × Option ℤ × In :=
  let r := getNumber inp 4 tlv temp
  if r.1 < 0 then (r.1, none, r.2.2) else (r.1, r.2.1.map fun v => (BitVec.ofInt 32 v).toInt, r.2.2)

/-! ### Reading a header -/

def In.rest (inp : In) : List UInt8 := inp.data.drop inp.offset

/-- Input `n` bytes further on. -/
def In.skip (inp : In) (n : ℕ) : In := { inp with offset := inp.offset + n }

@[simp] theorem In.skip_zero (inp : In) : inp.skip 0 = inp := rfl

@[simp] theorem In.skip_skip (inp : In) (m n : ℕ) : (inp.skip m).skip n = inp.skip (m + n) := by
  simp [In.skip, Nat.add_assoc]

@[simp] theorem In.rest_skip (inp : In) (n : ℕ) : (inp.skip n).rest = inp.rest.drop n := by
  simp [In.skip, In.rest, drop_drop]

theorem bufReadU8_nil {inp : In} (h : inp.rest = []) : bufReadU8 inp = none := by
  have : inp.data[inp.offset]? = none := by
    rw [← List.head?_drop, show inp.data.drop inp.offset = [] from h, List.head?_nil]
  unfold bufReadU8
  rw [this]

theorem bufReadU8_cons {inp : In} {b : UInt8} {bs : List UInt8} (h : inp.rest = b :: bs) :
    bufReadU8 inp = some (b, inp.skip 1) := by
  have : inp.data[inp.offset]? = some b := by
    rw [← List.head?_drop, show inp.data.drop inp.offset = b :: bs from h, List.head?_cons]
  unfold bufReadU8
  rw [this]
  rfl

/-- Number of bytes of the header that starts with `b0`. -/
def headerLen (b0 : UInt8) : ℕ := 1 + idLen b0 + lenType b0

def beValue (bs : List UInt8) : ℕ := bs.foldl (fun len b => len <<< 8 ||| b.toNat) 0

/-- Id of a header whose id bytes are the first of `bs`. -/
def decodeId (b0 : UInt8) (bs : List UInt8) : UInt16 :=
  if idLen b0 = 2 then UInt16.ofNat ((bs.getD 0 0).toUInt16.toNat <<< 8 + (bs.getD 1 0).toNat)
  else (bs.getD 0 0).toUInt16

/-- Header that starts with `b0` and goes on with `bs`. -/
def decodeHeader (b0 : UInt8) (bs : List UInt8) : Tlv where
  type := TlvType.ofCode (b0.toNat >>> 6 &&& 3)
  id := decodeId b0 bs
  length :=
    if lenType b0 = 0 then b0.toNat &&& 7 else beValue ((bs.drop (idLen b0)).take (lenType b0))

theorem readLength_full (n : ℕ) : ∀ {len : ℕ} {tmp : In}, n ≤ tmp.rest.length →
    readLength n len tmp =
      (some ((tmp.rest.take n).foldl (fun len b => len <<< 8 ||| b.toNat) len), tmp.skip n) := by
  induction n with
  | zero => simp [readLength]
  | succ n ih =>
    intro len tmp h
    rcases hr : tmp.rest with _ | ⟨b, bs⟩
    · simp [hr] at h
    have hbs : (tmp.skip 1).rest = bs := by simp [hr]
    rw [readLength, bufReadU8_cons hr]
    dsimp only
    rw [ih (by rw [hbs]; simpa [hr] using h), hbs, In.skip_skip, Nat.add_comm 1 n]
    rfl

theorem readLength_short (n : ℕ) : ∀ {len : ℕ} {tmp : In}, tmp.rest.length < n →
    readLength n len tmp = (none, tmp.skip tmp.rest.length) := by
  induction n with
  | zero => simp
  | succ n ih =>
    intro len tmp h
    rcases hr : tmp.rest with _ | ⟨b, bs⟩
    · simp [readLength, bufReadU8_nil hr]
    have hbs : (tmp.skip 1).rest = bs := by simp [hr]
    rw [readLength, bufReadU8_cons hr]
    dsimp only
    rw [ih (by rw [hbs]; simpa [hr] using h), hbs, In.skip_skip, Nat.add_comm 1]
    rfl

theorem omaTlvGetLength_full {tmp : In} {b0 : UInt8} (h : lenType b0 ≤ tmp.rest.length)
    (tlv : Tlv) (inp : In) (d : Bool) :
    omaTlvGetLength tlv inp d b0 tmp = ((headerLen b0 : ℤ) + ((if lenType b0 = 0 then b0.toNat &&& 7
        else beValue (tmp.rest.take (lenType b0)) : ℕ) : ℤ),
      { tlv with length :=
        if lenType b0 = 0 then b0.toNat &&& 7 else beValue (tmp.rest.take (lenType b0)) },
      advance inp d (tmp.skip (lenType b0))) := by
  unfold omaTlvGetLength
  by_cases h0 : lenType b0 = 0
  · simp [h0, headerLen]
  · rw [if_neg h0, readLength_full _ h, if_neg h0]
    rfl

theorem omaTlvGetLength_short {tmp : In} {b0 : UInt8} (h : tmp.rest.length < lenType b0)
    (tlv : Tlv) (inp : In) (d : Bool) :
    omaTlvGetLength tlv inp d b0 tmp =
      (-ENODATA, tlv, advance inp d (tmp.skip tmp.rest.length)) := by
  unfold omaTlvGetLength
  rw [if_neg (by omega), readLength_short _ h]

theorem idLen_eq (b0 : UInt8) : idLen b0 = 1 ∨ idLen b0 = 2 := by
  unfold idLen
  split <;> simp

/-- **A header that is there is read**: the result is its length and that of its value. -/
theorem omaTlvGet_full {inp : In} {b0 : UInt8} {bs : List UInt8} (h : inp.rest = b0 :: bs)
    (hlen : headerLen b0 ≤ (b0 :: bs).length) (tlv : Tlv) (d : Bool) :
    omaTlvGet tlv inp d = ((headerLen b0 : ℤ) + ((decodeHeader b0 bs).length : ℤ),
      decodeHeader b0 bs, advance inp d (inp.skip (headerLen b0))) := by
  rw [length_cons, headerLen] at hlen
  rcases bs with _ | ⟨b1, bs⟩
  · rw [length_nil] at hlen
    rcases idLen_eq b0 with hi | hi <;> omega
  have h1 : (inp.skip 1).rest = b1 :: bs := by simp [h]
  unfold omaTlvGet
  rw [bufReadU8_cons h]
  dsimp only
  rw [bufReadU8_cons h1]
  dsimp only
  rw [length_cons] at hlen
  rcases idLen_eq b0 with hi | hi
  · rw [if_neg (by omega), omaTlvGetLength_full (by simp [h]; omega)]
    simp [decodeHeader, decodeId, headerLen, hi, h]
  rcases bs with _ | ⟨b2, bs⟩
  · simp [hi] at hlen; omega
  have h2 : (inp.skip 2).rest = b2 :: bs := by simp [h]
  rw [if_pos (by omega), In.skip_skip, bufReadU8_cons h2]
  dsimp only
  rw [length_cons] at hlen
  rw [omaTlvGetLength_full (by simp [h]; omega)]
  simp [decodeHeader, decodeId, headerLen, hi, h, Nat.add_comm]

/-- **A header that ends early is not read**: the error leaves the reader at the end. -/
theorem omaTlvGet_short {inp : In} {tlv : Tlv} {d : Bool}
    (h : ∀ b0 bs, inp.rest = b0 :: bs → (b0 :: bs).length < headerLen b0) :
    (omaTlvGet tlv inp d).1 = -ENODATA ∧ (omaTlvGet tlv inp d).2.1.length = tlv.length ∧
      (omaTlvGet tlv inp d).2.2 = advance inp d (inp.skip inp.rest.length) := by
  rcases hr : inp.rest with _ | ⟨b0, bs⟩
  · simp [omaTlvGet, bufReadU8_nil hr]
  have hlen := h b0 bs hr
  rw [length_cons, headerLen] at hlen
  unfold omaTlvGet
  rw [bufReadU8_cons hr]
  dsimp only
  rcases bs with _ | ⟨b1, bs⟩
  · have h1 : (inp.skip 1).rest = [] := by simp [hr]
    rw [bufReadU8_nil h1]
    exact ⟨rfl, rfl, rfl⟩
  have h1 : (inp.skip 1).rest = b1 :: bs := by simp [hr]
  rw [bufReadU8_cons h1]
  dsimp only
  rw [length_cons] at hlen
  rcases idLen_eq b0 with hi | hi
  · rw [if_neg (by omega), omaTlvGetLength_short (by simp [hr]; omega)]
    simp [hr, show 2 + bs.length = bs.length + 2 from Nat.add_comm _ _]
  rw [if_pos (by omega), In.skip_skip]
  cases bs with
  | nil =>
    have h2 : (inp.skip 2).rest = [] := by simp [hr]
    rw [bufReadU8_nil h2]
    exact ⟨rfl, rfl, rfl⟩
  | cons b2 bs =>
    have h2 : (inp.skip 2).rest = b2 :: bs := by simp [hr]
    rw [bufReadU8_cons h2]
    dsimp only
    rw [length_cons] at hlen
    rw [omaTlvGetLength_short (by simp [hr]; omega)]
    simp [hr, show 3 + bs.length = bs.length + 3 from Nat.add_comm _ _]

/-! ### A header that was written -/

theorem typeByte_fields : ∀ (t : Fin 4) (l : Bool) (n : Fin 4) (low : Fin 8),
    (typeByte t l n low).toNat >>> 6 &&& 3 = t ∧ idLen (typeByte t l n low) = (if l then 2 else 1) ∧
      lenType (typeByte t l n low) = n ∧ (typeByte t l n low).toNat &&& 7 = low := by
  decide +kernel

theorem TlvType.ofCode_code (t : TlvType) : TlvType.ofCode t.code = t := by
  cases t <;> rfl

theorem TlvType.code_lt (t : TlvType) : t.code < 4 := by
  cases t <;> decide

theorem getLenType_lt (tlv : Tlv) : getLenType tlv < 4 := by
  unfold getLenType
  split_ifs <;> omega

theorem shiftLeft_or_toNat (n : ℕ) (b : UInt8) : n <<< 8 ||| b.toNat = 256 * n + b.toNat := by
  rw [← Nat.shiftLeft_add_eq_or_of_lt b.toNat_lt, Nat.shiftLeft_eq]
  omega

theorem ofNat_and_255 (n : ℕ) : UInt8.ofNat (n &&& 0xff) = UInt8.ofNat n := by
  apply UInt8.toNat_inj.mp
  rw [show 0xff = 2 ^ 8 - 1 from rfl, Nat.and_two_pow_sub_one_eq_mod]
  simp

theorem beValue_lengthBytes {tlv : Tlv} (h : tlv.length < 2 ^ 24) (h8 : 8 ≤ tlv.length) :
    beValue (lengthBytes (getLenType tlv) tlv.length 3) = tlv.length := by
  unfold getLenType
  split_ifs
  · omega
  all_goals
    simp only [lengthBytes, beValue, ofNat_and_255, Nat.shiftRight_eq_div_pow]
    simp [shiftLeft_or_toNat]
    omega

theorem length_lengthBytes (tlv : Tlv) :
    (lengthBytes (getLenType tlv) tlv.length 3).length = getLenType tlv := by
  unfold getLenType
  split_ifs <;> simp [lengthBytes]

theorem typeByte_eq (tlv : Tlv) (low : ℕ) (hlow : low < 8) (l : Bool) :
    (typeByte tlv.type.code l (getLenType tlv) low).toNat >>> 6 &&& 3 = tlv.type.code ∧
      idLen (typeByte tlv.type.code l (getLenType tlv) low) = (if l then 2 else 1) ∧
      lenType (typeByte tlv.type.code l (getLenType tlv) low) = getLenType tlv ∧
      (typeByte tlv.type.code l (getLenType tlv) low).toNat &&& 7 = low :=
  typeByte_fields ⟨_, tlv.type.code_lt⟩ l ⟨_, getLenType_lt tlv⟩ ⟨low, hlow⟩

theorem low_lt (tlv : Tlv) : (if getLenType tlv = 0 then tlv.length else 0) < 8 := by
  unfold getLenType
  split_ifs <;> first | omega | simp_all

theorem length_decode {tlv : Tlv} (h : tlv.length < 2 ^ 24) :
    (if getLenType tlv = 0 then (if getLenType tlv = 0 then tlv.length else 0)
      else beValue (lengthBytes (getLenType tlv) tlv.length 3)) = tlv.length := by
  by_cases h0 : getLenType tlv = 0
  · simp [h0]
  · rw [if_neg h0]
    apply beValue_lengthBytes h
    by_contra hlt
    exact h0 (by simp [getLenType]; omega)

theorem decodeHeader_written {b0 : UInt8} {tlv : Tlv} {ids rest : List UInt8}
    (hlen : tlv.length < 2 ^ 24) (htype : b0.toNat >>> 6 &&& 3 = tlv.type.code)
    (hlt : lenType b0 = getLenType tlv)
    (hl : b0.toNat &&& 7 = if getLenType tlv = 0 then tlv.length else 0)
    (hids : ids.length = idLen b0)
    (hid : decodeId b0 (ids ++ (lengthBytes (getLenType tlv) tlv.length 3 ++ rest)) = tlv.id) :
    decodeHeader b0 (ids ++ (lengthBytes (getLenType tlv) tlv.length 3 ++ rest)) = tlv := by
  rw [decodeHeader, htype, TlvType.ofCode_code, hid, hlt, hl, drop_left' hids,
    take_left' (length_lengthBytes tlv), length_decode hlen]

/-- **A written header is read back**, whatever follows it. -/
theorem omaTlvGet_headerBytes {inp : In} {tlv : Tlv} {rest : List UInt8}
    (h : inp.rest = headerBytes tlv ++ rest) (hlen : tlv.length < 2 ^ 24) (t : Tlv) (d : Bool) :
    omaTlvGet t inp d = (((headerBytes tlv).length : ℤ) + (tlv.length : ℤ), tlv,
      advance inp d (inp.skip (headerBytes tlv).length)) := by
  obtain ⟨htype, hid, hlt, hl⟩ := typeByte_eq tlv _ (low_lt tlv) (decide (tlv.id.toNat > 255))
  have hid256 := tlv.id.toNat_lt
  have hll := length_lengthBytes tlv
  obtain ⟨ids, hb, hids, hval⟩ : ∃ ids, headerBytes tlv = typeByte tlv.type.code
      (decide (tlv.id.toNat > 255)) (getLenType tlv)
        (if getLenType tlv = 0 then tlv.length else 0) ::
          (ids ++ lengthBytes (getLenType tlv) tlv.length 3) ∧
      ids.length = (if decide (tlv.id.toNat > 255) = true then 2 else 1) ∧
      ∀ (b0 : UInt8) bs, idLen b0 = ids.length → decodeId b0 (ids ++ bs) = tlv.id := by
    by_cases hlong : tlv.id.toNat > 255
    · refine ⟨[UInt8.ofNat (tlv.id.toNat >>> 8), UInt8.ofNat tlv.id.toNat], ?_, by simp [hlong],
        fun b0 bs hb0 => ?_⟩
      · rw [headerBytes, if_pos hlong, ofNat_and_255, ofNat_and_255]
        rfl
      · rw [decodeId, hb0, if_pos (by simp)]
        apply UInt16.toNat_inj.mp
        simp [Nat.shiftRight_eq_div_pow, Nat.shiftLeft_eq]
        omega
    refine ⟨[UInt8.ofNat tlv.id.toNat], ?_, by simp [hlong], fun b0 bs hb0 => ?_⟩
    · rw [headerBytes, if_neg hlong, ofNat_and_255]
      rfl
    · rw [decodeId, hb0, if_neg (by simp)]
      apply UInt16.toNat_inj.mp
      simp
      omega
  rw [hb] at h ⊢
  generalize typeByte tlv.type.code (decide (tlv.id.toNat > 255)) (getLenType tlv)
    (if getLenType tlv = 0 then tlv.length else 0) = b0 at h htype hid hlt hl ⊢
  rw [cons_append, append_assoc] at h
  have hhl : headerLen b0 = (b0 :: (ids ++ lengthBytes (getLenType tlv) tlv.length 3)).length := by
    rw [headerLen, hid, hlt, length_cons, length_append, hll, hids]
    omega
  rw [omaTlvGet_full h (by rw [hhl]; simp),
    decodeHeader_written hlen htype hlt hl (by rw [hids, hid]) (hval b0 _ (by rw [hids, hid])), hhl]

/-! ### A number that was written -/

theorem bufAppend_of_nonneg {out : Out} {src : List UInt8} (h : 0 ≤ (bufAppend out src).1) :
    bufAppend out src = (0, { out with data := out.data ++ src }) := by
  unfold bufAppend at h ⊢
  by_cases hfit : out.data.length + src.length > out.maxLen
  · rw [if_pos hfit] at h
    exact absurd h (by simp [ENOMEM])
  · rw [if_neg hfit]

theorem putBytes_of_nonneg (bs : List UInt8) : ∀ {out : Out}, 0 ≤ (putBytes false bs out).1 →
    putBytes false bs out = (0, { out with data := out.data ++ bs }) := by
  induction bs with
  | nil => simp [putBytes]
  | cons b bs ih =>
    intro out h
    by_cases hput : (bufAppend out [b]).1 < 0
    · have hb : omaTlvPutU8 out b false = bufAppend out [b] := if_pos hput
      rw [putBytes, hb, if_pos hput] at h
      omega
    have hb : omaTlvPutU8 out b false = (0, { out with data := out.data ++ [b] }) := by
      simp [omaTlvPutU8, bufAppend_of_nonneg (not_lt.mp hput)]
    rw [putBytes, hb] at h ⊢
    dsimp only at h ⊢
    rw [if_neg (by decide)] at h ⊢
    rw [ih h]
    simp

/-- **A TLV that was written stands at the end of the packet.** -/
theorem omaTlvPut_of_nonneg {tlv : Tlv} {out : Out} {bytes : List UInt8}
    (hlen : bytes.length = tlv.length) (hpos : 0 < tlv.length) (hlt : tlv.length < 65536)
    (h : 0 ≤ (omaTlvPut tlv out (some bytes) false).1) :
    omaTlvPut tlv out (some bytes) false = (((headerBytes tlv).length : ℤ) + (tlv.length : ℤ),
      { out with data := out.data ++ (headerBytes tlv ++ bytes) }) := by
  unfold omaTlvPut at h ⊢
  dsimp only at h ⊢
  by_cases hhead : (putBytes false (headerBytes tlv) out).1 < 0
  · rw [if_pos hhead] at h
    omega
  rw [if_neg hhead, putBytes_of_nonneg _ (not_lt.mp hhead), if_pos ⟨hpos, rfl⟩,
    Nat.mod_eq_of_lt hlt, ← hlen, take_length] at h
  rw [if_neg hhead, putBytes_of_nonneg _ (not_lt.mp hhead), if_pos ⟨hpos, rfl⟩,
    Nat.mod_eq_of_lt hlt, ← hlen, take_length]
  dsimp only at h ⊢
  by_cases hval : (bufAppend { out with data := out.data ++ headerBytes tlv } bytes).1 < 0
  · rw [if_pos hval] at h
    omega
  · rw [if_neg hval, bufAppend_of_nonneg (not_lt.mp hval)]
    simp

theorem setWidth_readTemp (temp : BitVec 64) {n : ℕ} (hn : n ≤ 8) (v : ℕ) :
    (readTemp temp (leBytes n v)).setWidth (8 * n) = BitVec.ofNat (8 * n) v := by
  have hpow : 2 ^ (8 * n) = 256 ^ n := by norm_num [pow_mul]
  have hdvd : 2 ^ (8 * n) ∣ 2 ^ 64 := pow_dvd_pow 2 (by omega)
  apply BitVec.eq_of_toNat_eq
  rw [readTemp, BitVec.toNat_setWidth, BitVec.toNat_ofNat, BitVec.toNat_ofNat,
    Nat.mod_mod_of_dvd _ hdvd, leValue_append, leValue_leBytes, length_leBytes, hpow,
    Nat.add_mul_mod_self_left, Nat.mod_mod]

theorem numberOfTemp_one (temp : BitVec 64) (v : BitVec 8) :
    numberOfTemp 1 (readTemp temp (leBytes 1 v.toNat)) = some v.toInt := by
  have h := setWidth_readTemp temp (n := 1) (by omega) v.toNat
  rw [numberOfTemp, if_pos rfl, h]
  simp

theorem numberOfTemp_two (temp : BitVec 64) (v : BitVec 16) :
    numberOfTemp 2 (readTemp temp (leBytes 2 (bswap16 v).toNat)) = some (v.toNat : ℤ) := by
  have h := setWidth_readTemp temp (n := 2) (by omega) (bswap16 v).toNat
  rw [numberOfTemp, if_neg (by decide), if_pos rfl, h]
  simp

theorem numberOfTemp_four (temp : BitVec 64) (v : BitVec 32) :
    numberOfTemp 4 (readTemp temp (leBytes 4 (bswap32 v).toNat)) = some (v.toNat : ℤ) := by
  have h := setWidth_readTemp temp (n := 4) (by omega) (bswap32 v).toNat
  rw [numberOfTemp, if_neg (by decide), if_neg (by decide), if_pos rfl, h]
  simp

theorem numberOfTemp_eight (temp : BitVec 64) (v : BitVec 64) :
    numberOfTemp 8 (readTemp temp (leBytes 8 (bswap64 v).toNat)) = some v.toInt := by
  have h := setWidth_readTemp temp (n := 8) (by omega) (bswap64 v).toNat
  rw [BitVec.setWidth_eq] at h
  rw [numberOfTemp, if_neg (by decide), if_neg (by decide), if_neg (by decide), if_pos rfl, h]
  simp

/-- What the two readers make of the bytes that were written for `v`. -/
structure ReadsAs (v : ℤ) (bytes : List UInt8) : Prop where
  pos : 0 < bytes.length
  le : bytes.length ≤ 8
  value (temp : BitVec 64) : ∃ n, numberOfTemp bytes.length (readTemp temp bytes) = some n ∧
    (n = v ↔ v < -2147483648 ∨ -128 ≤ v) ∧
    (bytes.length ≤ 4 → ((BitVec.ofInt 32 n).toInt = v ↔ v < -32768 ∨ -128 ≤ v))

theorem toInt_ofInt_32 {n : ℤ} (hlo : -2147483648 ≤ n) (hhi : n < 4294967296) :
    (BitVec.ofInt 32 n).toInt = if n < 2147483648 then n else n - 4294967296 := by
  rw [BitVec.toInt_ofInt, Int.bmod_def]
  norm_num
  split_ifs <;> omega

theorem toInt_cases {w : ℕ} (v : BitVec w) :
    (0 ≤ v.toInt ∧ v.toInt = v.toNat) ∨ (v.toInt < 0 ∧ v.toInt = v.toNat - 2 ^ w) := by
  have hlt := v.isLt
  rw [BitVec.toInt_eq_toNat_cond]
  split_ifs with h
  · exact .inl ⟨by omega, rfl⟩
  · refine .inr ⟨?_, by push_cast; rfl⟩
    have : (v.toNat : ℤ) < ((2 ^ w : ℕ) : ℤ) := by exact_mod_cast hlt
    omega

theorem readsAs_one (v : BitVec 8) : ReadsAs v.toInt (leBytes 1 v.toNat) := by
  have hlo := BitVec.le_toInt v
  have hhi := BitVec.toInt_lt (x := v)
  norm_num at hlo hhi
  refine ⟨by simp, by simp, fun temp => ⟨v.toInt, ?_, ?_, fun _ => ?_⟩⟩
  · rw [length_leBytes, numberOfTemp_one]
  · simp only [true_iff]
    omega
  · rw [toInt_ofInt_32 (by omega) (by omega), if_pos (by omega)]
    simp only [true_iff]
    omega

theorem readsAs_two {v : BitVec 16} (h : ¬ (-128 ≤ v.toInt ∧ v.toInt ≤ 127)) :
    ReadsAs v.toInt (leBytes 2 (bswap16 v).toNat) := by
  have hlo := BitVec.le_toInt v
  have hhi := BitVec.toInt_lt (x := v)
  have hv := toInt_cases v
  norm_num at hlo hhi hv
  refine ⟨by simp, by simp, fun temp => ⟨v.toNat, ?_, ?_, fun _ => ?_⟩⟩
  · rw [length_leBytes, numberOfTemp_two]
  · omega
  · rw [toInt_ofInt_32 (by omega) (by omega), if_pos (by omega)]
    omega

theorem readsAs_four {v : BitVec 32} (h : ¬ (-32768 ≤ v.toInt ∧ v.toInt ≤ 32767)) :
    ReadsAs v.toInt (leBytes 4 (bswap32 v).toNat) := by
  have hlo := BitVec.le_toInt v
  have hhi := BitVec.toInt_lt (x := v)
  have hv := toInt_cases v
  norm_num at hlo hhi hv
  refine ⟨by simp, by simp, fun temp => ⟨v.toNat, ?_, ?_, fun _ => ?_⟩⟩
  · rw [length_leBytes, numberOfTemp_four]
  · omega
  · rw [toInt_ofInt_32 (by omega) (by omega)]
    split_ifs <;> omega

theorem readsAs_eight {v : BitVec 64} (h : ¬ (-2147483648 ≤ v.toInt ∧ v.toInt ≤ 2147483647)) :
    ReadsAs v.toInt (leBytes 8 (bswap64 v).toNat) := by
  refine ⟨by simp, by simp, fun temp => ⟨v.toInt, ?_, ?_, fun hle => ?_⟩⟩
  · rw [length_leBytes, numberOfTemp_eight]
  · simp only [true_iff]
    omega
  · simp at hle

theorem toInt_setWidth_of_fits {w m : ℕ} {v : BitVec w} (hm : m ≤ w)
    (hlo : -(2 ^ m : ℕ) ≤ 2 * v.toInt) (hhi : 2 * v.toInt < (2 ^ m : ℕ)) :
    (v.setWidth m).toInt = v.toInt := by
  have hdvd : 2 ^ m ∣ 2 ^ w := pow_dvd_pow 2 hm
  rw [BitVec.toInt_setWidth, ← Int.bmod_bmod_of_dvd hdvd, ← BitVec.toInt_eq_toNat_bmod]
  apply Int.bmod_eq_of_le <;> omega

theorem putS16_eq (v : BitVec 16) :
    ∃ bytes, putS16 out path v = putValue out path bytes ∧ ReadsAs v.toInt bytes := by
  unfold putS16
  by_cases h : -128 ≤ v.toInt ∧ v.toInt ≤ 127
  · rw [if_pos h]
    have hv : (v.setWidth 8).toInt = v.toInt :=
      toInt_setWidth_of_fits (by decide) (by push_cast; omega) (by push_cast; omega)
    exact ⟨_, rfl, hv ▸ readsAs_one _⟩
  · rw [if_neg h]
    exact ⟨_, rfl, readsAs_two h⟩

theorem putS32_eq (v : BitVec 32) :
    ∃ bytes, putS32 out path v = putValue out path bytes ∧ ReadsAs v.toInt bytes := by
  unfold putS32
  by_cases h : -32768 ≤ v.toInt ∧ v.toInt ≤ 32767
  · rw [if_pos h]
    have hv : (v.setWidth 16).toInt = v.toInt :=
      toInt_setWidth_of_fits (by decide) (by push_cast; omega) (by push_cast; omega)
    exact hv ▸ putS16_eq out path (v.setWidth 16)
  · rw [if_neg h]
    exact ⟨_, rfl, readsAs_four h⟩

theorem putS64_eq (v : BitVec 64) :
    ∃ bytes, putS64 out path v = putValue out path bytes ∧ ReadsAs v.toInt bytes := by
  unfold putS64
  by_cases h : -2147483648 ≤ v.toInt ∧ v.toInt ≤ 2147483647
  · rw [if_pos h]
    have hv : (v.setWidth 32).toInt = v.toInt :=
      toInt_setWidth_of_fits (by decide) (by push_cast; omega) (by push_cast; omega)
    exact hv ▸ putS32_eq out path (v.setWidth 32)
  · rw [if_neg h]
    exact ⟨_, rfl, readsAs_eight h⟩

/-! ### Round trips -/

inductive Width
  | s8
  | s16
  | s32
  | s64
  deriving DecidableEq

def Width.bits : Width → ℕ
  | .s8 => 8
  | .s16 => 16
  | .s32 => 32
  | .s64 => 64

def putNumber : (k : Width) → Out → Path → BitVec k.bits → ℤ × Out
  | .s8 => putS8
  | .s16 => putS16
  | .s32 => putS32
  | .s64 => putS64

theorem putNumber_eq (k : Width) (out : Out) (path : Path) (v : BitVec k.bits) :
    ∃ bytes, putNumber k out path v = putValue out path bytes ∧ ReadsAs v.toInt bytes := by
  cases k with
  | s8 => exact ⟨_, rfl, readsAs_one v⟩
  | s16 => exact putS16_eq out path v
  | s32 => exact putS32_eq out path v
  | s64 => exact putS64_eq out path v

/-- **A value that was written is found again**: its TLV with the bytes as they were. -/
theorem putValue_of_nonneg {out : Out} {path : Path} {bytes : List UInt8} {v : ℤ}
    (hv : ReadsAs v bytes) (h : 0 ≤ (putValue out path bytes).1) :
    ∃ tlv : Tlv, tlv.length = bytes.length ∧ putValue out path bytes =
      (((headerBytes tlv).length : ℤ) + (bytes.length : ℤ),
        { out with data := out.data ++ (headerBytes tlv ++ bytes) }) := by
  have hle : bytes.length < 65536 := Nat.lt_of_le_of_lt hv.le (by decide)
  obtain ⟨data, maxLen, fd⟩ := out
  cases fd with
  | none => exact absurd h (by simp [putValue, EINVAL])
  | some fd =>
    exact ⟨⟨tlvCalcType fd, tlvCalcId fd path, bytes.length⟩, rfl,
      omaTlvPut_of_nonneg rfl hv.pos hle h⟩

theorem bufRead_append {inp : In} {bytes rest : List UInt8} (h : inp.rest = bytes ++ rest)
    (hpos : 0 < bytes.length) (hlt : bytes.length < 65536) :
    bufRead inp bytes.length = (0, bytes, inp.skip bytes.length) := by
  have hlen := congrArg List.length h
  rw [In.rest, length_drop, length_append] at hlen
  have htake : (inp.data.drop inp.offset).take bytes.length = bytes := by
    rw [show inp.data.drop inp.offset = bytes ++ rest from h, take_left]
  rw [bufRead, Nat.mod_eq_of_lt hlt, if_neg (by omega), htake]
  rfl

theorem getNumber_tlv {inp : In} {tlv t : Tlv} {bytes rest : List UInt8} {maxLen : ℕ} {n : ℤ}
    {temp : BitVec 64} (hrest : inp.rest = headerBytes tlv ++ (bytes ++ rest))
    (hlen : tlv.length = bytes.length) (hpos : 0 < bytes.length) (hle : bytes.length ≤ 8)
    (hmax : bytes.length ≤ maxLen)
    (hn : numberOfTemp bytes.length (readTemp temp bytes) = some n) :
    getNumber inp maxLen t temp = (((headerBytes tlv).length : ℤ) + (bytes.length : ℤ), some n,
      inp.skip ((headerBytes tlv).length + bytes.length)) := by
  have hread : bufRead (inp.skip (headerBytes tlv).length) bytes.length =
      (0, bytes, inp.skip ((headerBytes tlv).length + bytes.length)) := by
    rw [bufRead_append (by rw [In.rest_skip, hrest, drop_left]) hpos (by omega), In.skip_skip]
  rw [getNumber, omaTlvGet_headerBytes hrest (by omega), advance_false, hlen]
  dsimp only
  rw [if_neg (by omega), if_neg (by omega), hread]
  dsimp only
  rw [if_neg (by decide), hn]

/-- **What comes back of a number that was written.** Read as 64 bits it comes back unchanged
exactly if it is not below `-128`, or took eight bytes; read as 32 bits, if it took four. Otherwise
the reader succeeds with the unsigned value of the bytes. -/
theorem put_get_number (k : Width) (out : Out) (path : Path) (v : BitVec k.bits)
    (rest : List UInt8) (t : Tlv) (temp : BitVec 64) (h : 0 ≤ (putNumber k out path v).1) :
    let w := putNumber k out path v
    let inp : In := ⟨w.2.data ++ rest, out.data.length⟩
    ((getS64 inp t temp).1 = w.1 ∧
      ((getS64 inp t temp).2.1 = some v.toInt ↔ v.toInt < -2147483648 ∨ -128 ≤ v.toInt)) ∧
    ((omaTlvGet t inp true).2.1.length ≤ 4 → (getS32 inp t temp).1 = w.1 ∧
      ((getS32 inp t temp).2.1 = some v.toInt ↔ v.toInt < -32768 ∨ -128 ≤ v.toInt)) := by
  intro w inp
  obtain ⟨bytes, hput, hv⟩ := putNumber_eq k out path v
  rw [hput] at h
  obtain ⟨tlv, hlen, hval⟩ := putValue_of_nonneg hv h
  obtain ⟨n, hn, h64, h32⟩ := hv.value temp
  have hw : w = (((headerBytes tlv).length : ℤ) + (bytes.length : ℤ),
      { out with data := out.data ++ (headerBytes tlv ++ bytes) }) := hput.trans hval
  have hrest : inp.rest = headerBytes tlv ++ (bytes ++ rest) := by
    simp [inp, In.rest, hw]
  constructor
  · rw [getS64, getNumber_tlv hrest hlen hv.pos hv.le hv.le hn, hw]
    exact ⟨rfl, by rw [← h64, Option.some_inj]⟩
  intro hle
  rw [omaTlvGet_headerBytes hrest (by have := hv.le; omega), hlen] at hle
  rw [getS32, getNumber_tlv hrest hlen hv.pos hv.le hle hn, hw]
  dsimp only
  rw [if_neg (by omega)]
  exact ⟨rfl, by rw [← h32 hle, Option.map_some, Option.some_inj]⟩

def emptyOut : Out := ⟨[], 20, some ⟨0, false⟩⟩

/-- The value `-129` written as 16 bits and read as 64. -/
theorem put_get_number_s16 : 0 ≤ (putNumber .s16 emptyOut ⟨5, 0⟩ 0xff7f#16).1 ∧
      ((getS64 ⟨(putNumber .s16 emptyOut ⟨5, 0⟩ 0xff7f#16).2.data ++ [], 0⟩ ⟨.resource, 0, 0⟩ 0).2.1 =
        some (-129) ↔ (-129 : ℤ) < -2147483648 ∨ (-128 : ℤ) ≤ -129) :=
  ⟨by decide, (put_get_number .s16 emptyOut ⟨5, 0⟩ 0xff7f#16 [] ⟨.resource, 0, 0⟩ 0
    (by decide)).1.2⟩

/-- **A negative number changes on the way**: `put_s16` of `-129` reads back as `65407`. -/
theorem negative_number_lost : putS16 emptyOut ⟨5, 0⟩ (BitVec.ofInt 16 (-129)) =
        (4, { emptyOut with data := [0xc2, 0x05, 0xff, 0x7f] }) ∧
      getS64 ⟨[0xc2, 0x05, 0xff, 0x7f], 0⟩ ⟨.resource, 0, 0⟩ 0 =
        (4, some 65407, ⟨[0xc2, 0x05, 0xff, 0x7f], 4⟩) ∧
      getS32 ⟨[0xc2, 0x05, 0xff, 0x7f], 0⟩ ⟨.resource, 0, 0⟩ 0 =
        (4, some 65407, ⟨[0xc2, 0x05, 0xff, 0x7f], 4⟩) := by
  decide +kernel

end TlZephyr.OmaTlv
