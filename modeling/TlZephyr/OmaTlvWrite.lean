import TlZephyr.OmaTlv

/-!
# Writing from a TLV Payload

`do_write_op_tlv` (`lwm2m_rw_oma_tlv.c`) walks over the TLVs of a write request and hands each
resource to the engine: it looks the resource up and calls `lwm2m_write_handler`
(`lwm2m_message_handling.c`), which reads the value from the payload. Lookups, callbacks and
the resources themselves belong to the application; `Env` answers for them, one `Answer` for
every resource visited. Local variables read before they are set hold what `Env.stack` says.

Nothing bounds the loops of this code, so the functions take fuel. The ghost field `Msg.read`
says whether every header that was acted on so far had been read completely just before.
-/

namespace TlZephyr.OmaTlv

/-! ### Request -/

/-- `struct lwm2m_obj_path` behind the object id. -/
structure ObjPath where
  objInstId : UInt16
  resId : UInt16
  resInstId : UInt16
  level : ℕ
  deriving DecidableEq

/-- `struct lwm2m_opaque_context`. -/
structure OpaqueContext where
  len : ℕ
  offset : ℕ
  deriving DecidableEq

/-- `struct lwm2m_block_context`, as far as a write reads it. -/
structure Block where
  current : ℕ
  totalSize : ℕ
  context : OpaqueContext
  resId : UInt16
  resInstId : UInt16
  deriving DecidableEq

/-- `struct lwm2m_message`; `tick` counts the answers that were used. -/
structure Msg where
  inp : In
  path : ObjPath
  block : Option Block
  bootstrapMode : Bool
  create : Bool
  tick : ℕ
  read : Bool
  deriving DecidableEq

/-- Whether errors on optional resources are ignored. -/
def Msg.ignores (msg : Msg) : Bool := msg.bootstrapMode || msg.create

/-- A header is used; `len` is what `oma_tlv_get` returned for it. -/
def Msg.act (msg : Msg) (len : ℤ) : Msg := { msg with read := msg.read && decide (0 ≤ len) }

/-! ### Engine -/

/-- Data types of resources, `LWM2M_RES_TYPE_*`. -/
inductive ResType
  | opaqueData
  | string
  | time
  | u32
  | u16
  | u8
  | s64
  | s32
  | s16
  | s8
  | bool
  | float
  | objlnk
  | unknown
  deriving DecidableEq

/-- What `lwm2m_write_handler` finds at a resource, with its callbacks by the number of the call.
`validate` comes with the size of its buffer. -/
structure Resource where
  readOnly : Bool
  hasData : Bool
  dataLen : ℕ
  type : ResType
  validate : Option (ℕ × (ℕ → ℤ))
  postWrite : Option (ℕ → ℤ)
  toFloat : ℤ

/-- The answers of the engine for one resource, in the order they are asked for. -/
structure Answer where
  createObj : ℤ
  getObj : ℤ
  access : ℤ
  optional : Bool
  getRes : ℤ
  res : Resource

structure Env where
  version11 : Bool
  answer : ℕ → Answer
  stack : ℕ → Tlv
  stack_lt : ∀ n, (stack n).length < 2 ^ 32

/-! ### Readers -/

def getString (inp : In) (buflen : ℕ) (tlv : Tlv) : ℤ × List UInt8 × In :=
  let r := omaTlvGet tlv inp false
  if r.1 < 0 then (r.1, [], r.2.2)
  else if buflen ≤ r.2.1.length then (-ENOMEM, [], r.2.2)
  else
    let r' := bufRead r.2.2 r.2.1.length
    if r'.1 < 0 then (r'.1, [], r'.2.2) else (r.1, r'.2.1, r'.2.2)

/-- `get_float`; `conv` is what the conversion of the bytes returns. -/
def getFloat (inp : In) (conv : ℤ) (tlv : Tlv) : ℤ × In :=
  let r := omaTlvGet tlv inp false
  if r.1 < 0 then (r.1, r.2.2)
  else if r.2.1.length ≠ 4 ∧ r.2.1.length ≠ 8 then (-EBADMSG, r.2.2)
  else
    let r' := bufRead r.2.2 r.2.1.length
    if r'.1 < 0 then (r'.1, r'.2.2) else if conv < 0 then (conv, r'.2.2) else (r.1, r'.2.2)

/-- A number as `lwm2m_write_handler` reads it: the result and the number of bytes stored. -/
def readNumber (inp : In) (maxLen size : ℕ) (tlv : Tlv) : ℤ × ℕ × In :=
  let r := getNumber inp maxLen tlv 0
  (r.1, size, r.2.2)

/-- The `switch` of `lwm2m_write_handler` over the types that are read in one piece. -/
def readValue (res : Resource) (dataLen buflen : ℕ) (inp : In) (tlv : Tlv) : ℤ × ℕ × In :=
  match res.type with
  | .string =>
    let r := getString inp buflen tlv
    (r.1, (r.2.1.takeWhile (· ≠ 0)).length + 1, r.2.2)
  | .time =>
    let r := getNumber inp 8 tlv 0
    if r.1 < 0 then (r.1, 0, r.2.2)
    else if dataLen = 8 then (r.1, 8, r.2.2)
    else if dataLen = 4 then (r.1, 4, r.2.2)
    else (-EINVAL, 0, r.2.2)
  | .u32 => readNumber inp 8 4 tlv
  | .u16 => readNumber inp 4 2 tlv
  | .u8 => readNumber inp 4 1 tlv
  | .s64 => readNumber inp 8 8 tlv
  | .s32 => readNumber inp 4 4 tlv
  | .s16 => readNumber inp 4 2 tlv
  | .s8 => readNumber inp 4 1 tlv
  | .bool => readNumber inp 2 1 tlv
  | .float =>
    let r := getFloat inp res.toFloat tlv
    (r.1, 8, r.2)
  | .objlnk => readNumber inp 4 4 tlv
  | .opaqueData => (-EINVAL, 0, inp)
  | .unknown => (-EINVAL, 0, inp)

/-- `lwm2m_engine_get_opaque_more`: the number of bytes read, and whether they were the last. -/
def getOpaqueMore (inp : In) (buflen : ℕ) (ctx : OpaqueContext) : ℤ × Bool × OpaqueContext × In :=
  let wanted := (((ctx.len : ℤ) - ctx.offset) % 2 ^ 32).toNat
  let inLen := min (min wanted buflen) (inp.data.length - inp.offset)
  let r := bufRead inp inLen
  if r.1 < 0 then (0, true, ctx, r.2.2)
  else (inLen, decide (ctx.offset + inLen ≥ ctx.len), ctx, r.2.2)

/-- `get_opaque`: the header is read with the first bytes only. -/
def getOpaque (inp : In) (buflen : ℕ) (ctx : OpaqueContext) (tlv : Tlv) :
    ℤ × Bool × OpaqueContext × In :=
  if ctx.offset = 0 then
    let r := omaTlvGet tlv inp false
    if r.1 < 0 then (r.1, false, ctx, r.2.2)
    else getOpaqueMore r.2.2 buflen { ctx with len := r.2.1.length }
  else getOpaqueMore inp buflen ctx

/-! ### Write handler -/

def Resource.validateRet (res : Resource) (k : ℕ) : ℤ :=
  match res.validate with
  | none => 0
  | some (_, f) => f k

def Resource.postWriteRet (res : Resource) (k : ℕ) : ℤ :=
  match res.postWrite with
  | none => 0
  | some f => f k

/-- Buffer that values are read into: the validation buffer if there is a callback. -/
def Resource.bufLen (res : Resource) (dataLen : ℕ) : ℕ :=
  match res.validate with
  | none => dataLen
  | some (n, _) => n

def Msg.setContext (msg : Msg) (ctx : OpaqueContext) : Msg :=
  { msg with block := msg.block.map fun b => { b with context := ctx } }

/-- Loop of `lwm2m_write_handler_opaque`, at its `k`-th round. -/
def opaqueLoop (res : Resource) (dataLen : ℕ) (tlv : Tlv) :
    ℕ → Msg → OpaqueContext → ℕ → ℤ → Option (ℤ × Msg)
  | 0, _, _, _, _ => none
  | fuel + 1, msg, ctx, k, written =>
    let g := getOpaque msg.inp (min dataLen (res.bufLen dataLen)) ctx tlv
    let msg := { msg with inp := g.2.2.2 }
    if g.1 ≤ 0 then some (if g.1 < 0 then g.1 else written, msg.setContext g.2.2.1)
    else if res.validateRet k < 0 then some (-EEXIST, msg)
    else if res.postWriteRet k < 0 then some (res.postWriteRet k, msg)
    else
      let msg := if g.2.1 then msg else { msg with block := msg.block.map fun b =>
        { b with current := b.current + g.1.toNat } }
      let ctx := { g.2.2.1 with offset := g.2.2.1.offset + g.1.toNat }
      if g.2.1 then some (written + g.1, msg.setContext ctx)
      else opaqueLoop res dataLen tlv fuel msg ctx (k + 1) (written + g.1)

/-- `lwm2m_write_handler_opaque`. -/
def writeHandlerOpaque (res : Resource) (dataLen : ℕ) (tlv : Tlv) (fuel : ℕ) (msg : Msg) :
    Option (ℤ × Msg) :=
  opaqueLoop res dataLen tlv fuel msg ((msg.block.map Block.context).getD ⟨0, 0⟩) 0 0

/-- `lwm2m_write_handler`. Its checks of `NULL` arguments cannot fail here. -/
def writeHandler (res : Resource) (tlv : Tlv) (fuel : ℕ) (msg : Msg) : Option (ℤ × Msg) :=
  let totalSize := (msg.block.map Block.totalSize).getD 0
  let offset := (msg.block.map fun b => b.context.offset).getD 0
  let dataLen := if res.postWrite.isNone then res.dataLen - offset else res.dataLen
  let hasData := res.hasData || (res.postWrite.isNone && decide (offset > 0))
  if res.readOnly then some (-EACCES, msg)
  else if res.postWrite.isNone ∧
      ((offset > 0 ∧ offset ≥ res.dataLen) ∨ totalSize > res.dataLen) then
    some (-ENOMEM, msg)
  else if ¬ (hasData = true ∧ dataLen > 0) then some (-ENOENT, msg)
  else if res.type = .opaqueData then writeHandlerOpaque res dataLen tlv fuel msg
  else
    let r := readValue res dataLen (res.bufLen dataLen) msg.inp tlv
    let msg := { msg with inp := r.2.2 }
    if r.1 < 0 then some (r.1, msg)
    else if res.validateRet 0 < 0 then some (-EEXIST, msg)
    else if res.validate.isSome ∧ r.2.1 > dataLen then some (-ENOMEM, msg)
    else some (if res.postWrite.isSome then res.postWriteRet 0 else r.1, msg)

/-! ### Walking over the payload -/

/-- `while (tlv.length--)` with a read of one byte. -/
def skipBytes : ℕ → In → In
  | 0, inp => inp
  | n + 1, inp =>
    match bufReadU8 inp with
    | none => inp
    | some (_, inp') => skipBytes n inp'

/-- `do_write_op_tlv_dummy_read`: it does not look at what `oma_tlv_get` returns. -/
def dummyRead (tlv : Tlv) (msg : Msg) : Msg :=
  let r := omaTlvGet tlv msg.inp false
  { msg.act r.1 with inp := skipBytes r.2.1.length r.2.2 }

variable (env : Env) (fuel : ℕ) (msg : Msg)

/-- `do_write_op_tlv_item`. -/
def item : Option (ℤ × Msg) :=
  let a := env.answer msg.tick
  let tlv := env.stack msg.tick
  let msg := { msg with tick := msg.tick + 1 }
  if a.getObj < 0 then some (a.getObj, dummyRead tlv msg)
  else if a.access < 0 then some (a.access, dummyRead tlv msg)
  else if a.getRes < 0 then
    some (if msg.ignores && a.optional then -ENOTSUP else -ENOENT, dummyRead tlv msg)
  else
    (writeHandler a.res tlv fuel msg).bind fun r =>
      if r.1 = -EACCES ∨ r.1 = -ENOENT then some (0, dummyRead tlv r.2) else some r

/-- Whether an error ends the operation: errors on optional resources may be ignored. -/
def Msg.fatal (msg : Msg) (ret : ℤ) : Prop := ret < 0 ∧ ¬ (ret = -ENOTSUP ∧ msg.ignores = true)

instance (msg : Msg) (ret : ℤ) : Decidable (msg.fatal ret) :=
  inferInstanceAs (Decidable (_ ∧ ¬ _))

/-- Path of a resource, also in the block context. -/
def Msg.setResource (msg : Msg) (id : UInt16) : Msg :=
  { msg with
    path := { msg.path with resId := id, level := 3 }
    block := msg.block.map fun b => { b with resId := id } }

def writeTlvResource (tlv : Tlv) : Option (ℤ × Msg) :=
  (item env fuel (msg.setResource tlv.id)).bind fun r =>
    some (if r.2.fatal r.1 then r.1 else 0, r.2)

def writeTlvResourceInstance (tlv : Tlv) : Option (ℤ × Msg) :=
  let msg := { msg with
    path := { msg.path with resInstId := tlv.id, level := 4 }
    block := msg.block.map fun b => { b with resInstId := tlv.id } }
  (item env fuel msg).bind fun r => some (if r.1 < 0 then r.1 else 0, r.2)

/-- `pos += len2` on an `int` that is compared as an unsigned number. -/
def addPos (pos : ℕ) (len : ℤ) : ℕ := (((pos : ℤ) + len) % 2 ^ 32).toNat

/-- Loop of `lwm2m_multi_resource_tlv_parse`; `tlv` is `tlv_resource_instance`. -/
def multiLoop (env : Env) (multi : Tlv) : ℕ → ℕ → Tlv → Msg → Option (ℤ × Msg)
  | 0, _, _, _ => none
  | fuel + 1, pos, tlv, msg =>
    let g := omaTlvGet tlv msg.inp true
    if pos < multi.length ∧ g.1 ≠ 0 then
      let msg := msg.act g.1
      if g.2.1.type ≠ .resourceInstance then some (-ENOTSUP, msg)
      else
        let msg := { msg with
          path := { msg.path with resId := multi.id, resInstId := g.2.1.id, level := 4 } }
        (item env fuel msg).bind fun r =>
          if r.2.fatal r.1 then some r
          else multiLoop env multi fuel (addPos pos g.1) g.2.1 r.2
    else some (0, msg)

/-- `lwm2m_multi_resource_tlv_parse`. -/
def multiResourceTlvParse (multi : Tlv) : Option (ℤ × Msg) :=
  let msg := { msg with block := msg.block.map fun b => { b with resId := multi.id } }
  if multi.length = 0 then writeTlvResource env fuel msg multi
  else multiLoop env multi fuel 0 (env.stack msg.tick) { msg with tick := msg.tick + 1 }

/-- Loop over the TLVs of an object instance; a result of `0` is its end. -/
def objectLoop (env : Env) (length : ℕ) : ℕ → ℕ → Tlv → Msg → Option (ℤ × Msg)
  | 0, _, _, _ => none
  | fuel + 1, pos, tlv2, msg =>
    let g := omaTlvGet tlv2 msg.inp true
    if pos < length ∧ g.1 ≠ 0 then
      let msg := msg.act g.1
      match g.2.1.type with
      | .resource =>
        (writeTlvResource env fuel msg g.2.1).bind fun r =>
          if r.1 ≠ 0 then some r else objectLoop env length fuel (addPos pos g.1) g.2.1 r.2
      | .multiResource =>
        let g' := omaTlvGet g.2.1 msg.inp false
        (multiResourceTlvParse env fuel { msg with inp := g'.2.2 } g'.2.1).bind fun r =>
          if r.1 ≠ 0 then some r else objectLoop env length fuel (addPos pos g.1) g'.2.1 r.2
      | _ => some (-ENOTSUP, msg)
    else some (0, msg)

/-- An object instance: its header is read again, and an empty one is only created. -/
def objectInstance (tlv : Tlv) : Option (ℤ × Msg) :=
  let g := omaTlvGet tlv msg.inp false
  let msg := { msg with inp := g.2.2, path := { msg.path with objInstId := g.2.1.id } }
  if g.2.1.length = 0 ∧ (env.answer msg.tick).createObj < 0 then
    some ((env.answer msg.tick).createObj, msg)
  else
    objectLoop env g.2.1.length fuel 0 (env.stack msg.tick) { msg with tick := msg.tick + 1 }

/-- One TLV of the payload: the body of the outer loop behind the first read. -/
def topTlv (tlv : Tlv) : Option (ℤ × Msg) :=
  match tlv.type with
  | .objectInstance => objectInstance env fuel msg tlv
  | .resource =>
    if msg.path.level < 2 then some (-ENOTSUP, msg) else writeTlvResource env fuel msg tlv
  | .multiResource =>
    if msg.path.level < 2 then some (-ENOTSUP, msg)
    else
      let g := omaTlvGet tlv msg.inp false
      multiResourceTlvParse env fuel { msg with inp := g.2.2 } g.2.1
  | .resourceInstance =>
    if env.version11 = false ∨ msg.path.level < 2 then some (-ENOTSUP, msg)
    else writeTlvResourceInstance env fuel msg tlv

/-- Outer loop of `do_write_op_tlv`. -/
def topLoop (env : Env) : ℕ → Tlv → Msg → Option (ℤ × Msg)
  | 0, _, _ => none
  | fuel + 1, tlv, msg =>
    let g := omaTlvGet tlv msg.inp true
    if g.1 < 0 then some (0, msg)
    else
      (topTlv env fuel (msg.act g.1) g.2.1).bind fun r =>
        if r.1 ≠ 0 then some r else topLoop env fuel g.2.1 r.2

/-- `do_write_op_tlv`. A block that continues the value of a resource starts without a header. -/
def doWriteOpTlv : Option (ℤ × Msg) :=
  match msg.block with
  | some b =>
    if b.current > 0 then
      (item env fuel { msg with path := { msg.path with resId := b.resId, level := 3 } }).bind
        fun r => if r.1 < 0 then some r else topLoop env fuel (env.stack r.2.tick) r.2
    else topLoop env fuel (env.stack msg.tick) msg
  | none => topLoop env fuel (env.stack msg.tick) msg

end TlZephyr.OmaTlv
