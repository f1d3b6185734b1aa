import TlZephyr.Errno
import TlZephyr.Lib.LittleEndian

/-!
# Spinel Packing and Unpacking

`spinel.c`: `spinel_datatype_vpack` walks a format string and emits the bytes of its variadic
arguments, `spinel_datatype_vunpack` walks the same format over a received byte string and
stores what it finds through the caller's pointers.

A pointer into the format or the data is the suffix that starts there, of a `List Char` or a byte
string. Reading a missing or ill-typed argument, or a byte past the end of an object, is undefined
in C and `none` here. The two loops jump along the format and recurse into structs, each time to a
shorter suffix; they carry that bound as fuel, and running out of it is `none` as well.

A packer or unpacker that fails has emitted or stored a part, so both results carry the effect too.
-/

open LittleEndian

namespace TlZephyr

def spinelMaxUintPacked : ℕ := 2097151

/-! ### UTF-8 validation -/

/-- Inner loop of `spinel_validate_utf8`: the verdict and the position after it. -/
def spinelContBytes : ℕ → List UInt8 → Option (Bool × List UInt8)
  | 0, string => some (true, string)
  | _ + 1, [] => none
  | n + 1, byte :: string =>
    if byte &&& 0xc0 != 0x80 then some (false, string) else spinelContBytes n string

/-- How many continuation bytes a lead byte announces; `none` for a byte that cannot
lead. -/
def spinelLeadBytes (byte : UInt8) : Option ℕ :=
  if byte &&& 0x40 = 0 then none
  else if byte &&& 0x20 = 0 then some 1
  else if byte &&& 0x10 = 0 then some 2
  else if byte &&& 0x08 = 0 then some 3
  else none

/-- Outer loop of `spinel_validate_utf8`, with the bytes left as fuel. -/
def spinelValidateUtf8Loop : ℕ → List UInt8 → Option Bool
  | 0, _ => none
  | _ + 1, [] => none
  | n + 1, byte :: string =>
    if byte = 0 then some true
    else if byte &&& 0x80 = 0 then spinelValidateUtf8Loop n string
    else match spinelLeadBytes byte with
      | none => some false
      | some cont => do
        let (ok, string) ← spinelContBytes cont string
        if ok then spinelValidateUtf8Loop n string else some false

def spinelValidateUtf8 (string : List UInt8) : Option Bool :=
  spinelValidateUtf8Loop string.length string

/-! ### Stepping along the format -/

/-- Loop of `spinel_next_packed_datatype`, entered with the format already advanced. -/
def spinelNextPackedLoop : ℤ → List Char → List Char
  | _, [] => []
  | depth, c :: fmt =>
    let depth := if c = '(' then depth + 1 else if c = ')' then depth - 1 else depth
    if c = ')' ∧ depth = 0 then fmt
    else if 0 < depth then spinelNextPackedLoop depth fmt
    else c :: fmt

def spinelNextPackedDatatype (fmt : List Char) : List Char :=
  spinelNextPackedLoop 0 (fmt.drop 1)

/-- Whether a block without a length of its own still carries one. -/
def spinelFollowed (fmt : List Char) : Bool :=
  match spinelNextPackedDatatype fmt with
  | [] => false
  | c :: _ => c != ')'

/-! ### Packed unsigned integers -/

def spinelPackedUintSize (value : ℕ) : ℕ :=
  if value < 2 ^ 7 then 1
  else if value < 2 ^ 14 then 2
  else if value < 2 ^ 21 then 3
  else if value < 2 ^ 28 then 4
  else 5

/-- Loop of `spinel_packed_uint_encode` and the byte after it. -/
def spinelPackedUintLoop : ℕ → ℕ → List UInt8
  | 0, value => [UInt8.ofNat (value &&& 0x7f)]
  | n + 1, value => UInt8.ofNat ((value &&& 0x7f) ||| 0x80) :: spinelPackedUintLoop n (value >>> 7)

/-- `spinel_packed_uint_encode` into a buffer of five bytes, as its only caller has it. -/
def spinelPackedUintEncode (value : ℕ) : List UInt8 :=
  spinelPackedUintLoop (spinelPackedUintSize value - 1) value

/-- Loop of `spinel_packed_uint_decode`; `some (.error _)` is `-EINVAL`, `none` a read past the
object. -/
def spinelPackedUintDecodeLoop : List UInt8 → (len i value ret : ℕ) → Option (Except ℤ (ℕ × ℕ))
  | bytes, len, i, value, ret =>
    if len < 1 ∨ 32 ≤ i then some (.error (-EINVAL))
    else match bytes with
      | [] => none
      | b :: bytes =>
        let value := (value ||| ((b &&& 0x7f).toNat <<< i)) % 2 ^ 32
        if b &&& 0x80 = 0x80 then
          spinelPackedUintDecodeLoop bytes (len - 1) (i + 7) value (ret + 1)
        else some (.ok (ret + 1, value))

/-- `spinel_packed_uint_decode`: the bytes consumed and the value. -/
def spinelPackedUintDecode (bytes : List UInt8) (len : ℕ) : Option (Except ℤ (ℕ × ℕ)) :=
  spinelPackedUintDecodeLoop bytes len 0 0 0

/-! ### Packing -/

/-- A variadic argument of the packer; an object is given by its bytes. -/
inductive VaArg
  | int (v : ℤ)
  | int64 (v : ℤ)
  | ptr (p : Option (List UInt8))
  deriving DecidableEq, Repr

/-- The returned number, the bytes handed to `tx_cb` and the arguments not consumed. -/
structure SpinelPacked where
  ret : ℤ
  out : List UInt8
  args : List VaArg
  deriving DecidableEq, Repr

/-- One turn of the packer's `switch`: the loop goes on, or an error is returned. -/
inductive SpinelPackStep
  | next (size : ℤ) (out : List UInt8) (args : List VaArg)
  | fail (err : ℤ) (out : List UInt8) (args : List VaArg)

/-- Bytes really emitted: none when `tx_cb` is `NULL`. -/
def spinelEmit (txCb : Bool) (bytes : List UInt8) : List UInt8 :=
  if txCb then bytes else []

/-- Low `n` bytes of an `int` argument. -/
def spinelPackInt (txCb : Bool) (n : ℕ) : List VaArg → Option SpinelPackStep
  | .int v :: args =>
    some (.next n (spinelEmit txCb (leBytes n (v % 256 ^ n).toNat)) args)
  | _ => none

/-- A structure of `n` bytes behind a pointer. -/
def spinelPackBlock (txCb : Bool) (n : ℕ) : List VaArg → Option SpinelPackStep
  | .ptr (some bytes) :: args =>
    if n ≤ bytes.length ∨ txCb = false then some (.next n (spinelEmit txCb (bytes.take n)) args)
    else none
  | .ptr none :: args => if txCb then none else some (.next n [] args)
  | _ => none

/-- `spinel_datatype_pack` with `SPINEL_DATATYPE_UINT16_S`, for a length. -/
def spinelPackLength (txCb : Bool) (len : ℤ) : List UInt8 :=
  spinelEmit txCb (leBytes 2 (len % 256 ^ 2).toNat)

/-- `strlen`, undefined without a terminator. -/
def cStrlen (string : List UInt8) : Option ℕ :=
  if 0 ∈ string then some (string.takeWhile (· != 0)).length else none

def spinelPackBool (txCb : Bool) : List VaArg → Option SpinelPackStep
  | .int v :: args => some (.next 1 (spinelEmit txCb [if v ≠ 0 then 1 else 0]) args)
  | _ => none

/-- A `uint64_t` argument. -/
def spinelPackInt64 (txCb : Bool) : List VaArg → Option SpinelPackStep
  | .int64 v :: args =>
    some (.next 8 (spinelEmit txCb (leBytes 8 (v % 256 ^ 8).toNat)) args)
  | _ => none

/-- A packed unsigned integer; too large a value is refused. -/
def spinelPackUint (txCb : Bool) : List VaArg → Option SpinelPackStep
  | .int v :: args =>
    let arg := (v % 2 ^ 32).toNat
    if spinelMaxUintPacked < arg then some (.fail (-EINVAL) [] args)
    else
      let bytes := spinelPackedUintEncode arg
      some (.next bytes.length (spinelEmit txCb bytes) args)
  | _ => none

/-- A string with its terminator; a `NULL` pointer stands for the empty string. -/
def spinelPackUtf8 (txCb : Bool) : List VaArg → Option SpinelPackStep
  | .ptr p :: args => do
    let string := p.getD [0]
    let len := (← cStrlen string) + 1
    some (.next len (spinelEmit txCb (string.take len)) args)
  | _ => none

/-- A data block, pointer and size; `wlen` says whether its length is sent before it. -/
def spinelPackData (txCb wlen : Bool) : List VaArg → Option SpinelPackStep
  | .ptr p :: .int n :: args =>
    let size := (n % 256 ^ 2).toNat
    match p with
    | none => some (.fail (-EINVAL) [] args)
    | some data =>
      if size = 0 then some (.fail (-EINVAL) [] args)
      else if data.length < size ∧ txCb then none
      else if wlen then
        some (.next (2 + size) (spinelPackLength txCb size ++ spinelEmit txCb (data.take size))
          args)
      else some (.next size (spinelEmit txCb (data.take size)) args)
  | _ => none

/-- A struct with the format `body`, after a dry run on a copy of the arguments; `wlen` says whether
the length is sent. -/
def spinelPackStruct (txCb wlen : Bool) (body : List Char)
    (vpack : Bool → List Char → List VaArg → Option SpinelPacked)
    (args : List VaArg) : Option SpinelPackStep := do
  let dry ← vpack false body args
  if dry.ret < 0 then some (.fail dry.ret [] args)
  else
    let pfx := if wlen then spinelPackLength txCb dry.ret else []
    let sizeLen : ℤ := if wlen then 2 else 0
    let full ← vpack txCb body args
    if full.ret < 0 then some (.fail full.ret (pfx ++ full.out) full.args)
    else some (.next (full.ret + sizeLen) (pfx ++ full.out) full.args)

/-- The `switch` of `spinel_datatype_vpack`; the function itself is passed in for structs. -/
def spinelPackItem (txCb : Bool) (fmt : List Char)
    (vpack : Bool → List Char → List VaArg → Option SpinelPacked)
    (args : List VaArg) : Option SpinelPackStep :=
  match fmt.headD '.' with
  | 'b' => spinelPackBool txCb args
  | 'c' | 'C' => spinelPackInt txCb 1 args
  | 's' | 'S' => spinelPackInt txCb 2 args
  | 'l' | 'L' => spinelPackInt txCb 4 args
  | 'x' | 'X' => spinelPackInt64 txCb args
  | '6' => spinelPackBlock txCb 16 args
  | 'e' => spinelPackBlock txCb 6 args
  | 'E' => spinelPackBlock txCb 8 args
  | 'i' => spinelPackUint txCb args
  | 'U' => spinelPackUtf8 txCb args
  | 'd' => spinelPackData txCb true args
  | 'D' => spinelPackData txCb (spinelFollowed fmt) args
  | 't' =>
    if (fmt.drop 1).headD '.' ≠ '(' then some (.fail (-EINVAL) [] args)
    else spinelPackStruct txCb true (fmt.drop 2) vpack args
  | 'T' =>
    if (fmt.drop 1).headD '.' ≠ '(' then some (.fail (-EINVAL) [] args)
    else spinelPackStruct txCb (spinelFollowed fmt) (fmt.drop 2) vpack args
  | '.' => some (.next 0 [] args)
  | _ => some (.next (-EINVAL) [] args)

/-- Loop of `spinel_datatype_vpack`. -/
def spinelPackLoop : ℕ → Bool → ℤ → List Char → List VaArg → Option SpinelPacked
  | 0, _, _, _, _ => none
  | _ + 1, _, ret, [], args => some ⟨ret, [], args⟩
  | n + 1, txCb, ret, c :: fmt, args =>
    if c = ')' then some ⟨ret, [], args⟩
    else
      match spinelPackItem txCb (c :: fmt) (fun tx fmt args => spinelPackLoop n tx 0 fmt args)
        args with
      | none => none
      | some (.fail err out args) => some ⟨err, out, args⟩
      | some (.next size out args) =>
        match spinelPackLoop n txCb (ret + size) (spinelNextPackedDatatype (c :: fmt)) args with
        | none => none
        | some r => some ⟨r.ret, out ++ r.out, r.args⟩

/-- `spinel_datatype_vpack`; `txCb` says whether the callback is there. -/
def spinelDatatypeVpack (txCb : Bool) (fmt : List Char) (args : List VaArg) : Option SpinelPacked :=
  spinelPackLoop (fmt.length + 1) txCb 0 fmt args

/-! ### Unpacking -/

/-- A destination for one item of the format. A scalar pointer carries the value it points to and is
`none` for `NULL`; for the others `present` is false for `NULL`. `string` carries the `size_t`
behind the pointer, `data` the block length. -/
inductive SpinelDest
  | scalar (old : Option ℕ)
  | block (present : Bool)
  | string (present : Bool) (size : ℕ)
  | data (present : Bool) (size : Option ℕ)
  deriving DecidableEq, Repr

/-- What the unpacker leaves in a destination. `ptr` is an address inside the data. -/
inductive SpinelStore
  | skipped
  | bool (v : Bool)
  | uint (v : ℕ)
  | copied (bytes : List UInt8)
  | ptr (p : List UInt8)
  | dataCopied (bytes : Option (List UInt8)) (size : Option ℕ)
  | dataPtr (p : Option (List UInt8)) (size : Option ℕ)
  deriving DecidableEq, Repr

structure SpinelUnpacked where
  ret : ℤ
  stores : List SpinelStore
  dests : List SpinelDest
  deriving DecidableEq, Repr

/-- One turn of the unpacker's `switch`: the loop goes on `size` bytes later, or an error. -/
inductive SpinelUnpackStep
  | next (delta : ℤ) (size : ℕ) (stores : List SpinelStore) (dests : List SpinelDest)
  | fail (err : ℤ) (stores : List SpinelStore) (dests : List SpinelDest)

/-- First `n` bytes of an object; `none` when it is shorter. -/
def readBytes (data : List UInt8) (n : ℕ) : Option (List UInt8) :=
  if n ≤ data.length then some (data.take n) else none

/-- An unsigned integer of `n` bytes. -/
def spinelUnpackUint (n : ℕ) (dataIn : List UInt8) (dataLen : ℕ) :
    List SpinelDest → Option SpinelUnpackStep
  | .scalar old :: dests =>
    if dataLen < n then some (.fail (-EOVERFLOW) [] dests)
    else if old.isSome then do
      some (.next n n [.uint (leValue (← readBytes dataIn n))] dests)
    else some (.next n n [.skipped] dests)
  | _ => none

/-- A structure of `n` bytes. The pointer is fetched from the argument list only after the
length check. -/
def spinelUnpackBlock (n : ℕ) (copyBuff : Bool) (dataIn : List UInt8) (dataLen : ℕ)
    (dests : List SpinelDest) : Option SpinelUnpackStep :=
  if dataLen < n then some (.fail (-EOVERFLOW) [] dests)
  else match dests with
    | .block present :: dests =>
      if !present then some (.next n n [.skipped] dests)
      else if copyBuff then do some (.next n n [.copied (← readBytes dataIn n)] dests)
      else some (.next n n [.ptr dataIn] dests)
    | _ => none

/-- `spinel_datatype_unpack` with `SPINEL_DATATYPE_UINT16_S`, for a length. -/
def spinelUnpackLength (dataIn : List UInt8) (dataLen : ℕ) : Option (Except ℤ ℕ) :=
  if dataLen < 2 then some (.error (-EOVERFLOW))
  else do some (.ok (leValue (← readBytes dataIn 2)))

/-- Length of a block and of its prefix: read from the data, or everything that is left. -/
def spinelBlockLength (wlen : Bool) (dataIn : List UInt8) (dataLen : ℕ) :
    Option (Except ℤ (ℕ × ℕ)) :=
  if wlen then do
    match ← spinelUnpackLength dataIn dataLen with
    | .error e => some (.error e)
    | .ok blockLen =>
      if dataLen < blockLen + 2 then some (.error (-EOVERFLOW)) else some (.ok (2, blockLen))
  else some (.ok (0, dataLen))

def spinelUnpackBool (dataIn : List UInt8) (dataLen : ℕ) :
    List SpinelDest → Option SpinelUnpackStep
  | .scalar old :: dests =>
    if dataLen < 1 then some (.fail (-EOVERFLOW) [] dests)
    else if old.isSome then do
      let bytes ← readBytes dataIn 1
      some (.next 1 1 [.bool (leValue bytes != 0)] dests)
    else some (.next 1 1 [.skipped] dests)
  | _ => none

def spinelUnpackPacked (dataIn : List UInt8) (dataLen : ℕ) :
    List SpinelDest → Option SpinelUnpackStep
  | .scalar old :: dests => do
    match ← spinelPackedUintDecode dataIn dataLen with
    | .error _ =>
      -- The range check comes first, on whatever the destination held before.
      if spinelMaxUintPacked < old.getD 0 then some (.fail (-ERANGE) [.skipped] dests)
      else some (.fail (-EINVAL) [.skipped] dests)
    | .ok (size, value) =>
      let store := if old.isSome then SpinelStore.uint value else .skipped
      if old.isSome ∧ spinelMaxUintPacked < value then some (.fail (-ERANGE) [store] dests)
      else if dataLen < size then some (.fail (-EINVAL) [store] dests)
      else some (.next size size [store] dests)
  | _ => none

/-- A string: it must end inside the data and be UTF-8. -/
def spinelUnpackUtf8 (copyBuff : Bool) (dataIn : List UInt8) (dataLen : ℕ)
    (dests : List SpinelDest) : Option SpinelUnpackStep := do
  let len := ((dataIn.take dataLen).takeWhile (· != 0)).length + 1
  if dataLen < len then some (.fail (-EOVERFLOW) [] dests)
  else if !(← spinelValidateUtf8 dataIn) then some (.fail (-EINVAL) [] dests)
  else match dests with
    | .string present size :: dests =>
      if !present then some (.next len len [.skipped] dests)
      else if copyBuff then
        if size < len then some (.fail (-EOVERFLOW) [] dests)
        else do some (.next len len [.copied (← readBytes dataIn len)] dests)
      else some (.next len len [.ptr dataIn] dests)
    | _ => none

def spinelUnpackData (copyBuff wlen : Bool) (dataIn : List UInt8) (dataLen : ℕ) :
    List SpinelDest → Option SpinelUnpackStep
  | .data present size :: dests => do
    match ← spinelBlockLength wlen dataIn dataLen with
    | .error e => some (.fail e [] dests)
    | .ok (puiLen, blockLen) =>
      let blockPtr := dataIn.drop puiLen
      let len := blockLen + puiLen
      let size' := size.map fun _ => blockLen
      if copyBuff then
        match present, size with
        | true, some cap =>
          if cap < blockLen then some (.fail (-EOVERFLOW) [] dests)
          else do
            some (.next len len [.dataCopied (some (← readBytes blockPtr blockLen)) size'] dests)
        | _, _ => some (.next len len [.dataCopied none size'] dests)
      else some (.next len len [.dataPtr (if present then some blockPtr else none) size'] dests)
  | _ => none

/-- A struct with the format `body`. With a length it is stepped over as a whole. -/
def spinelUnpackStruct (wlen : Bool) (body : List Char)
    (vunpack : List UInt8 → ℕ → List Char → List SpinelDest → Option SpinelUnpacked)
    (dataIn : List UInt8) (dataLen : ℕ) (dests : List SpinelDest) :
    Option SpinelUnpackStep := do
  match ← spinelBlockLength wlen dataIn dataLen with
  | .error e => some (.fail e [] dests)
  | .ok (puiLen, blockLen) =>
    let inner ← vunpack (dataIn.drop puiLen) blockLen body dests
    if inner.ret < 0 then some (.fail inner.ret inner.stores inner.dests)
    else
      let len := if puiLen ≠ 0 then blockLen + puiLen else inner.ret.toNat % 2 ^ 16
      some (.next len len inner.stores inner.dests)

/-- The `switch` of `spinel_datatype_vunpack` at a non-empty format. -/
def spinelUnpackItem (copyBuff : Bool) (fmt : List Char)
    (vunpack : List UInt8 → ℕ → List Char → List SpinelDest → Option SpinelUnpacked)
    (dataIn : List UInt8) (dataLen : ℕ) (dests : List SpinelDest) : Option SpinelUnpackStep :=
  match fmt.headD '.' with
  | 'b' => spinelUnpackBool dataIn dataLen dests
  | 'c' | 'C' => spinelUnpackUint 1 dataIn dataLen dests
  | 's' | 'S' => spinelUnpackUint 2 dataIn dataLen dests
  | 'l' | 'L' => spinelUnpackUint 4 dataIn dataLen dests
  | 'x' | 'X' => spinelUnpackUint 8 dataIn dataLen dests
  | '6' => spinelUnpackBlock 16 copyBuff dataIn dataLen dests
  | 'E' => spinelUnpackBlock 8 copyBuff dataIn dataLen dests
  | 'e' => spinelUnpackBlock 6 copyBuff dataIn dataLen dests
  | 'i' => spinelUnpackPacked dataIn dataLen dests
  | 'U' => spinelUnpackUtf8 copyBuff dataIn dataLen dests
  | 'd' => spinelUnpackData copyBuff true dataIn dataLen dests
  | 'D' => spinelUnpackData copyBuff (spinelFollowed fmt) dataIn dataLen dests
  | 't' => spinelUnpackStruct true (fmt.drop 2) vunpack dataIn dataLen dests
  | 'T' => spinelUnpackStruct (spinelFollowed fmt) (fmt.drop 2) vunpack dataIn dataLen dests
  | '.' => some (.next 0 0 [] dests)
  | _ => some (.next (-EINVAL) 0 [] dests)

/-- Loop of `spinel_datatype_vunpack`. -/
def spinelUnpackLoop (copyBuff : Bool) : ℕ → ℤ → List UInt8 → ℕ → List Char →
    List SpinelDest → Option SpinelUnpacked
  | 0, _, _, _, _, _ => none
  | _ + 1, ret, _, _, [], dests => some ⟨ret, [], dests⟩
  | n + 1, ret, dataIn, dataLen, c :: fmt, dests =>
    if c = ')' then some ⟨ret, [], dests⟩
    else
      match spinelUnpackItem copyBuff (c :: fmt)
        (fun dataIn dataLen fmt dests => spinelUnpackLoop copyBuff n 0 dataIn dataLen fmt dests)
        dataIn dataLen dests with
      | none => none
      | some (.fail err stores dests) => some ⟨err, stores, dests⟩
      | some (.next delta size stores dests) =>
        match spinelUnpackLoop copyBuff n (ret + delta) (dataIn.drop size) (dataLen - size)
          (spinelNextPackedDatatype (c :: fmt)) dests with
        | none => none
        | some r => some ⟨r.ret, stores ++ r.stores, r.dests⟩

def spinelDatatypeVunpack (dataIn : List UInt8) (dataLen : ℕ) (copyBuff : Bool)
    (fmt : List Char) (dests : List SpinelDest) : Option SpinelUnpacked :=
  spinelUnpackLoop copyBuff (fmt.length + 1) 0 dataIn dataLen fmt dests

end TlZephyr
