import TlZephyr.Errno
import TlZephyr.Lib.Fuel

/-!
# Block-Wise CoAP Transfers

Block-wise transfers of `subsys/net/lib/coap/coap.c`. A body too long for one message is sent in
blocks, in requests with a Block1 option or in responses with a Block2 option. Sender and receiver
keep a context each, with the position in the body and the block size, and the other message of
each exchange carries the same option without the flag for more blocks.

A packet is modelled by its kind, the values of its options and its payload; how options are
written in a packet is the subject of `TlZephyr.Coap`.
-/

namespace TlZephyr.CoapBlock

open Fuel List

/-! ### Packets and options -/

/-- A packet: whether it is a request, its options by their codes, and its payload. -/
structure Packet where
  isRequest : Bool
  options : List (ℕ × List UInt8)
  payload : List UInt8

def block1 : ℕ := 27
def block2 : ℕ := 23
def size1 : ℕ := 60
def size2 : ℕ := 28

/-- Bytes of a number, as `coap_append_option_int` writes them. -/
def intBytes (val : ℕ) : List UInt8 :=
  if val = 0 then []
  else if val < 0xFF then [UInt8.ofNat val]
  else if val < 0xFFFF then [UInt8.ofNat (val / 2 ^ 8), UInt8.ofNat val]
  else if val < 0xFFFFFF then
    [UInt8.ofNat (val / 2 ^ 16), UInt8.ofNat (val / 2 ^ 8), UInt8.ofNat val]
  else
    [UInt8.ofNat (val / 2 ^ 24), UInt8.ofNat (val / 2 ^ 16), UInt8.ofNat (val / 2 ^ 8),
      UInt8.ofNat val]

/-- `coap_option_value_to_int`. -/
def valueToInt : List UInt8 → ℕ
  | [] => 0
  | [a] => a.toNat
  | [a, b] => b.toNat + a.toNat * 2 ^ 8
  | [a, b, c] => c.toNat + b.toNat * 2 ^ 8 + a.toNat * 2 ^ 16
  | [a, b, c, d] => d.toNat + c.toNat * 2 ^ 8 + b.toNat * 2 ^ 16 + a.toNat * 2 ^ 24
  | _ => 0

/-- `coap_append_option_int`. -/
def appendOptionInt (cpkt : Packet) (code val : ℕ) : Packet :=
  { cpkt with options := cpkt.options ++ [(code, intBytes val)] }

/-- `coap_get_option_int`: the number, as an `int`, or `-ENOENT`. -/
def getOptionInt (cpkt : Packet) (code : ℕ) : ℤ :=
  (cpkt.options.find? fun o => decide (o.1 = code)).elim (-ENOENT) fun o =>
    if valueToInt o.2 < 2 ^ 31 then valueToInt o.2 else (valueToInt o.2 : ℤ) - 2 ^ 32

/-! ### Contexts -/

/-- `struct coap_block_context`. -/
structure BlockContext where
  totalSize : ℕ
  current : ℕ
  blockSize : ℕ

/-- `coap_block_size_to_bytes`. -/
def bytes (blockSize : ℕ) : ℕ := 2 ^ (blockSize + 4)

/-- `SET_BLOCK_SIZE`, `SET_MORE` and `SET_NUM` on a value that is zero. -/
def blockValue (blockSize : ℕ) (more : Bool) (num : ℕ) : ℕ :=
  (blockSize &&& 7 ||| (if more then 8 else 0) ||| num <<< 4) % 2 ^ 32

def getBlockSize (block : ℤ) : ℕ := (block % 8).toNat
def getMore (block : ℤ) : Bool := decide (block / 8 % 2 = 1)
def getNum (block : ℤ) : ℤ := block / 16

/-- `GET_NUM(block) << (GET_BLOCK_SIZE(block) + 4)`. -/
def newCurrent (block : ℤ) : ℕ := (getNum block * 2 ^ (getBlockSize block + 4)).toNat

def coapAppendBlock1Option (cpkt : Packet) (ctx : BlockContext) : Packet :=
  let n := bytes ctx.blockSize
  if cpkt.isRequest then
    appendOptionInt cpkt block1
      (blockValue ctx.blockSize (decide (ctx.current + n < ctx.totalSize)) (ctx.current / n))
  else appendOptionInt cpkt block1 (blockValue ctx.blockSize false (ctx.current / n))

def coapAppendBlock2Option (cpkt : Packet) (ctx : BlockContext) : Packet :=
  let n := bytes ctx.blockSize
  if cpkt.isRequest then
    appendOptionInt cpkt block2 (blockValue ctx.blockSize false (ctx.current / n))
  else
    appendOptionInt cpkt block2
      (blockValue ctx.blockSize (decide (ctx.current + n < ctx.totalSize)) (ctx.current / n))

def updateDescriptiveBlock (ctx : BlockContext) (block size : ℤ) : ℤ × BlockContext :=
  if block = -ENOENT then (0, ctx)
  else if size ≠ 0 ∧ ctx.totalSize ≠ 0 ∧ (ctx.totalSize : ℤ) ≠ size then (-EINVAL, ctx)
  else if ctx.current > 0 ∧ getBlockSize block > ctx.blockSize then (-EINVAL, ctx)
  else if ctx.totalSize ≠ 0 ∧ newCurrent block > ctx.totalSize then (-EINVAL, ctx)
  else
    (0, { totalSize := if size ≠ 0 then size.toNat else ctx.totalSize
          current := newCurrent block
          blockSize := min (getBlockSize block) ctx.blockSize })

def updateControlBlock1 (ctx : BlockContext) (block size : ℤ) : ℤ × BlockContext :=
  if block = -ENOENT then (0, ctx)
  else if newCurrent block ≠ ctx.current then (-EINVAL, ctx)
  else if getBlockSize block > ctx.blockSize then (-EINVAL, ctx)
  else
    (0, { ctx with
          blockSize := getBlockSize block
          totalSize := if size ≥ 0 then size.toNat else ctx.totalSize })

def updateControlBlock2 (ctx : BlockContext) (block : ℤ) : ℤ × BlockContext :=
  if block = -ENOENT then (0, ctx)
  else if getMore block then (-EINVAL, ctx)
  else if getNum block > 0 ∧ getBlockSize block ≠ ctx.blockSize then (-EINVAL, ctx)
  else
    (0, { ctx with
          current := newCurrent block
          blockSize := min (getBlockSize block) ctx.blockSize })

def coapUpdateFromBlock (cpkt : Packet) (ctx : BlockContext) : ℤ × BlockContext :=
  let sizeOf (size : ℤ) : ℤ := if size = -ENOENT then 0 else size
  let r :=
    if cpkt.isRequest then updateControlBlock2 ctx (getOptionInt cpkt block2)
    else updateControlBlock1 ctx (getOptionInt cpkt block1) (getOptionInt cpkt size1)
  if r.1 ≠ 0 then r
  else if cpkt.isRequest then
    updateDescriptiveBlock r.2 (getOptionInt cpkt block1) (sizeOf (getOptionInt cpkt size1))
  else updateDescriptiveBlock r.2 (getOptionInt cpkt block2) (sizeOf (getOptionInt cpkt size2))

/-- `coap_next_block_for_option`, for the code of a Block1 or a Block2 option. -/
def coapNextBlockForOption (cpkt : Packet) (ctx : BlockContext) (option : ℕ) : ℤ × BlockContext :=
  let block := getOptionInt cpkt option
  if block < 0 then (block, ctx)
  else if ctx.totalSize > 0 ∧ ctx.totalSize < ctx.current + cpkt.payload.length then
    (-EMSGSIZE, ctx)
  else
    let ctx := { ctx with current := ctx.current + cpkt.payload.length }
    if ¬ getMore block then (0, ctx) else (ctx.current, ctx)

/-! ### Transfers -/

/-- One block: its option, its payload, the positions of both peers, and the result of
`coap_next_block_for_option` at the receiver. -/
structure Seen where
  num : ℕ
  size : ℕ
  more : Bool
  payload : List UInt8
  sent : ℕ
  received : ℕ
  ret : ℤ

def Packet.seen (cpkt : Packet) (option : ℕ) (sent received : ℕ) (ret : ℤ) : Seen :=
  let block := getOptionInt cpkt option
  ⟨(getNum block).toNat, bytes (getBlockSize block), getMore block, cpkt.payload, sent, received,
    ret⟩

def blockOf (body : List UInt8) (ctx : BlockContext) : List UInt8 :=
  (body.drop ctx.current).take (bytes ctx.blockSize)

/-- An exchange with a block in the request: the client takes over the size that the server wants.
-/
def exchange1 (body : List UInt8) (sender receiver : BlockContext) :
    Option (Seen × BlockContext × BlockContext) :=
  let req := { coapAppendBlock1Option ⟨true, [], []⟩ sender with payload := blockOf body sender }
  let r := coapUpdateFromBlock req receiver
  let rsp := coapAppendBlock1Option ⟨false, [], []⟩ r.2
  let r' := coapNextBlockForOption req r.2 block1
  let s := coapUpdateFromBlock rsp sender
  let s' := coapNextBlockForOption req s.2 block1
  if r.1 = 0 ∧ 0 ≤ r'.1 ∧ s.1 = 0 ∧ 0 ≤ s'.1 then
    some (req.seen block1 sender.current r.2.current r'.1, s'.2, r'.2)
  else none

/-- An exchange with a block in the response: the client asks for it with the block size it
wants. -/
def exchange2 (body : List UInt8) (sender receiver : BlockContext) :
    Option (Seen × BlockContext × BlockContext) :=
  let req := coapAppendBlock2Option ⟨true, [], []⟩ receiver
  let s := coapUpdateFromBlock req sender
  let rsp := { coapAppendBlock2Option ⟨false, [], []⟩ s.2 with payload := blockOf body s.2 }
  let s' := coapNextBlockForOption rsp s.2 block2
  let r := coapUpdateFromBlock rsp receiver
  let r' := coapNextBlockForOption rsp r.2 block2
  if s.1 = 0 ∧ 0 ≤ s'.1 ∧ r.1 = 0 ∧ 0 ≤ r'.1 then
    some (rsp.seen block2 s.2.current r.2.current r'.1, s'.2, r'.2)
  else none

/-- One more exchange, until the receiver has seen the last block. -/
def transferRound (exchange : BlockContext → BlockContext → Option (Seen × BlockContext × BlockContext))
    (st : BlockContext × BlockContext × List Seen) :
    (BlockContext × BlockContext × List Seen) ⊕ Option (List Seen) :=
  match exchange st.1 st.2.1 with
  | none => .inr none
  | some (seen, sender, receiver) =>
    if seen.ret = 0 then .inr (some (st.2.2 ++ [seen]))
    else .inl (sender, receiver, st.2.2 ++ [seen])

/-- A transfer: the blocks that are seen, or `none` if a function fails. -/
def transfer (exchange : BlockContext → BlockContext → Option (Seen × BlockContext × BlockContext))
    (sender receiver : BlockContext) (fuel : ℕ) : Option (Option (List Seen)) :=
  loop (transferRound exchange) fuel (sender, receiver, [])

/-- Blocks from position `offset` on: each is where its number says, at both peers, and only the
last one has no flag and the result 0. -/
inductive Tiles (body : List UInt8) : ℕ → List Seen → Prop
  | last {offset : ℕ} {b : Seen} : b.num * b.size = offset → b.sent = offset →
      b.received = offset → b.payload = body.drop offset → b.payload ≠ [] → b.more = false →
      b.ret = 0 → Tiles body offset [b]
  | more {offset : ℕ} {b : Seen} {bs : List Seen} : b.num * b.size = offset → b.sent = offset →
      b.received = offset → b.payload = (body.drop offset).take b.size →
      b.payload.length = b.size → b.more = true → b.ret ≠ 0 →
      Tiles body (offset + b.size) bs → Tiles body offset (b :: bs)

variable {offset val code : ℕ}

theorem Tiles.flatten {body : List UInt8} {bs : List Seen}
    (h : Tiles body offset bs) : bs.flatMap (·.payload) = body.drop offset := by
  induction h with
  | last _ _ _ hp => simpa using hp
  | more _ _ _ hp _ _ _ _ ih =>
    rw [flatMap_cons, ih, hp, ← drop_drop, take_append_drop]

/-! ### Numbers in options -/

theorem valueToInt_intBytes (h : val < 2 ^ 32) : valueToInt (intBytes val) = val := by
  unfold intBytes
  split_ifs with h0 h1 h2 h3
  · exact h0.symm
  all_goals
    simp only [valueToInt, UInt8.toNat_ofNat']
    omega

/-- **An option with a number, read back.** -/
theorem getOptionInt_append {isRequest : Bool} (h : val < 2 ^ 31) (payload : List UInt8) :
    getOptionInt ⟨isRequest, [(code, intBytes val)], payload⟩ code = val := by
  rw [getOptionInt, List.find?_cons_of_pos (by simp), Option.elim_some,
    valueToInt_intBytes (by omega), if_pos h]

theorem blockValue_eq {blockSize num : ℕ} {more : Bool} (hsize : blockSize ≤ 6)
    (hnum : num < 2 ^ 27) :
    blockValue blockSize more num = blockSize + (if more then 8 else 0) + num * 16 := by
  have h7 : blockSize &&& 7 = blockSize := by
    rw [show (7 : ℕ) = 2 ^ 3 - 1 by rfl, Nat.and_two_pow_sub_one_eq_mod]
    omega
  have hor : blockSize ||| (if more then 8 else 0) = blockSize + (if more then 8 else 0) := by
    cases more
    · simp
    · rw [if_pos rfl, Nat.or_comm, show (8 : ℕ) = 1 <<< 3 by rfl,
        ← Nat.shiftLeft_add_eq_or_of_lt (by omega), Nat.add_comm]
  have hlt : blockSize + (if more then 8 else 0) < 2 ^ 4 := by split_ifs <;> omega
  rw [blockValue, h7, hor, Nat.or_comm, ← Nat.shiftLeft_add_eq_or_of_lt hlt, Nat.shiftLeft_eq,
    Nat.mod_eq_of_lt (by omega)]
  omega

section block

variable {blockSize num : ℕ} {more : Bool} (hsize : blockSize ≤ 6) (hnum : num < 2 ^ 27)
include hsize hnum

theorem blockValue_lt : blockValue blockSize more num < 2 ^ 31 := by
  rw [blockValue_eq hsize hnum]
  split_ifs <;> omega

theorem getBlockSize_blockValue : getBlockSize (blockValue blockSize more num : ℕ) = blockSize := by
  rw [blockValue_eq hsize hnum, getBlockSize]
  split_ifs <;> omega

theorem getMore_blockValue : getMore (blockValue blockSize more num : ℕ) = more := by
  rw [blockValue_eq hsize hnum, getMore]
  cases more
  · rw [if_neg (by decide), decide_eq_false (by omega)]
  · rw [if_pos rfl, decide_eq_true (by omega)]

theorem getNum_blockValue : getNum (blockValue blockSize more num : ℕ) = num := by
  rw [blockValue_eq hsize hnum, getNum]
  split_ifs <;> omega

theorem newCurrent_blockValue :
    newCurrent (blockValue blockSize more num : ℕ) = num * bytes blockSize := by
  rw [newCurrent, getNum_blockValue hsize hnum, getBlockSize_blockValue hsize hnum, bytes]
  norm_cast

end block

/-! ### Updating a context -/

def blockPacket (isRequest : Bool) (code blockSize : ℕ) (more : Bool) (num : ℕ)
    (payload : List UInt8) : Packet :=
  ⟨isRequest, [(code, intBytes (blockValue blockSize more num))], payload⟩

section

variable {isRequest more : Bool} {code blockSize num : ℕ} {payload : List UInt8}

@[simp] theorem blockPacket_isRequest :
    (blockPacket isRequest code blockSize more num payload).isRequest = isRequest := rfl

theorem getOptionInt_ne {code' : ℕ} (h : code ≠ code') :
    getOptionInt (blockPacket isRequest code blockSize more num payload) code' = -ENOENT := by
  rw [getOptionInt, blockPacket, List.find?_cons_of_neg (by simpa using h), List.find?_nil,
    Option.elim_none]

end

section update

variable {blockSize num : ℕ} (hsize : blockSize ≤ 6) (hnum : num < 2 ^ 27) (more : Bool)
variable (payload : List UInt8) (ctx : BlockContext)
include hsize hnum

theorem getOptionInt_blockPacket (isRequest : Bool) (code : ℕ) :
    getOptionInt (blockPacket isRequest code blockSize more num payload) code =
      (blockValue blockSize more num : ℕ) :=
  getOptionInt_append (blockValue_lt hsize hnum) payload

theorem updateDescriptiveBlock_eq (hblock : ctx.current = 0 ∨ blockSize ≤ ctx.blockSize)
    (htotal : ctx.totalSize = 0 ∨ num * bytes blockSize ≤ ctx.totalSize) :
    updateDescriptiveBlock ctx (blockValue blockSize more num : ℕ) 0 =
      (0, ⟨ctx.totalSize, num * bytes blockSize, min blockSize ctx.blockSize⟩) := by
  rw [updateDescriptiveBlock, if_neg (by rw [ENOENT]; omega), if_neg (by omega),
    getBlockSize_blockValue hsize hnum, if_neg (by omega), newCurrent_blockValue hsize hnum,
    if_neg (by omega), if_neg (by omega)]

theorem updateControlBlock1_eq (hcurrent : num * bytes blockSize = ctx.current)
    (hblock : blockSize ≤ ctx.blockSize) :
    updateControlBlock1 ctx (blockValue blockSize more num : ℕ) (-ENOENT) =
      (0, { ctx with blockSize := blockSize }) := by
  rw [updateControlBlock1, if_neg (by rw [ENOENT]; omega), newCurrent_blockValue hsize hnum,
    if_neg (by omega), getBlockSize_blockValue hsize hnum, if_neg (by omega),
    if_neg (by decide)]

theorem updateControlBlock2_eq (hblock : num = 0 ∨ blockSize = ctx.blockSize) :
    updateControlBlock2 ctx (blockValue blockSize false num : ℕ) =
      (0, ⟨ctx.totalSize, num * bytes blockSize, min blockSize ctx.blockSize⟩) := by
  rw [updateControlBlock2, if_neg (by rw [ENOENT]; omega), getMore_blockValue hsize hnum,
    if_neg (by decide), getNum_blockValue hsize hnum, getBlockSize_blockValue hsize hnum,
    if_neg (by omega), newCurrent_blockValue hsize hnum]

theorem update_request1 (hblock : ctx.current = 0 ∨ blockSize ≤ ctx.blockSize)
    (htotal : ctx.totalSize = 0 ∨ num * bytes blockSize ≤ ctx.totalSize) :
    coapUpdateFromBlock (blockPacket true block1 blockSize more num payload) ctx =
      (0, ⟨ctx.totalSize, num * bytes blockSize, min blockSize ctx.blockSize⟩) := by
  simp [coapUpdateFromBlock, getOptionInt_ne (show block1 ≠ block2 by decide),
    getOptionInt_ne (show block1 ≠ size1 by decide), getOptionInt_blockPacket hsize hnum,
    updateControlBlock2, updateDescriptiveBlock_eq hsize hnum more ctx hblock htotal]

theorem update_response1 (hcurrent : num * bytes blockSize = ctx.current)
    (hblock : blockSize ≤ ctx.blockSize) :
    coapUpdateFromBlock (blockPacket false block1 blockSize more num payload) ctx =
      (0, { ctx with blockSize := blockSize }) := by
  simp [coapUpdateFromBlock, getOptionInt_ne (show block1 ≠ block2 by decide),
    getOptionInt_ne (show block1 ≠ size1 by decide), getOptionInt_blockPacket hsize hnum,
    updateControlBlock1_eq hsize hnum more ctx hcurrent hblock, updateDescriptiveBlock]

theorem update_request2 (hblock : num = 0 ∨ blockSize = ctx.blockSize) :
    coapUpdateFromBlock (blockPacket true block2 blockSize false num payload) ctx =
      (0, ⟨ctx.totalSize, num * bytes blockSize, min blockSize ctx.blockSize⟩) := by
  simp [coapUpdateFromBlock, getOptionInt_ne (show block2 ≠ block1 by decide),
    getOptionInt_blockPacket hsize hnum, updateControlBlock2_eq hsize hnum ctx hblock,
    updateDescriptiveBlock]

theorem update_response2 (hblock : ctx.current = 0 ∨ blockSize ≤ ctx.blockSize)
    (htotal : ctx.totalSize = 0 ∨ num * bytes blockSize ≤ ctx.totalSize) :
    coapUpdateFromBlock (blockPacket false block2 blockSize more num payload) ctx =
      (0, ⟨ctx.totalSize, num * bytes blockSize, min blockSize ctx.blockSize⟩) := by
  simp [coapUpdateFromBlock, getOptionInt_ne (show block2 ≠ block1 by decide),
    getOptionInt_ne (show block2 ≠ size2 by decide), getOptionInt_blockPacket hsize hnum,
    updateControlBlock1, updateDescriptiveBlock_eq hsize hnum more ctx hblock htotal]

theorem coapNextBlockForOption_eq (isRequest : Bool) (code : ℕ)
    (htotal : ctx.totalSize = 0 ∨ ctx.current + payload.length ≤ ctx.totalSize) :
    coapNextBlockForOption (blockPacket isRequest code blockSize more num payload) ctx code =
      (if more then ((ctx.current + payload.length : ℕ) : ℤ) else 0,
        { ctx with current := ctx.current + payload.length }) := by
  rw [coapNextBlockForOption, getOptionInt_blockPacket hsize hnum, if_neg (by omega),
    if_neg (by dsimp only [blockPacket]; omega), getMore_blockValue hsize hnum]
  cases more <;> rfl

theorem seen_blockPacket (isRequest : Bool) (code sent received : ℕ) (ret : ℤ) :
    (blockPacket isRequest code blockSize more num payload).seen code sent received ret =
      ⟨num, bytes blockSize, more, payload, sent, received, ret⟩ := by
  rw [Packet.seen, getOptionInt_blockPacket hsize hnum, getNum_blockValue hsize hnum,
    getBlockSize_blockValue hsize hnum, getMore_blockValue hsize hnum]
  rfl

end update

/-! ### Exchanges -/

/-- Contexts between two exchanges. The block sizes differ only before the first one. -/
structure Ready (body : List UInt8) (sender receiver : BlockContext) (offset : ℕ) : Prop where
  total : sender.totalSize = body.length
  known : receiver.totalSize = 0 ∨ receiver.totalSize = body.length
  sent : sender.current = offset
  received : receiver.current = offset
  senderSize : sender.blockSize ≤ 6
  receiverSize : receiver.blockSize ≤ 6
  senderDvd : bytes sender.blockSize ∣ offset
  receiverDvd : bytes receiver.blockSize ∣ offset
  same : offset = 0 ∨ sender.blockSize = receiver.blockSize
  inside : offset < body.length

/-- A block of `bytes size` bytes at position `offset`. -/
def seenAt (body : List UInt8) (offset size : ℕ) : Seen :=
  let payload := (body.drop offset).take (bytes size)
  let more := decide (offset + bytes size < body.length)
  ⟨offset / bytes size, bytes size, more, payload, offset, offset,
    if more then ((offset + payload.length : ℕ) : ℤ) else 0⟩

/-- An exchange of a block, after which both peers have the smaller block size. -/
def Exchanges (body : List UInt8) (sender receiver : BlockContext) (offset size : ℕ)
    (result : Option (Seen × BlockContext × BlockContext)) : Prop :=
  min sender.blockSize receiver.blockSize ≤ size ∧ bytes size ∣ offset ∧
    let next := offset + ((body.drop offset).take (bytes size)).length
    let agreed := min sender.blockSize receiver.blockSize
    result = some (seenAt body offset size, ⟨body.length, next, agreed⟩,
      ⟨receiver.totalSize, next, agreed⟩)

theorem bytes_pos (size : ℕ) : 0 < bytes size := Nat.two_pow_pos _

theorem bytes_dvd {size size' : ℕ} (h : size ≤ size') : bytes size ∣ bytes size' :=
  pow_dvd_pow 2 (by omega)

theorem num_lt (h : offset < 2 ^ 31) (size : ℕ) : offset / bytes size < 2 ^ 27 := by
  have h16 : 16 ≤ bytes size := Nat.pow_le_pow_right (show 0 < 2 by omega) (show 4 ≤ size + 4 by omega)
  calc offset / bytes size ≤ offset / 16 := Nat.div_le_div_left h16 (by omega)
    _ < 2 ^ 27 := by omega

variable {body : List UInt8} {sender receiver : BlockContext} {offset : ℕ}

theorem next_le (h : Ready body sender receiver offset) (size : ℕ) :
    offset + ((body.drop offset).take (bytes size)).length ≤ body.length := by
  have := h.inside
  rw [length_take, length_drop]
  omega

/-- **An exchange with a block in the request.** -/
theorem exchange1_spec (h : Ready body sender receiver offset) (hbody : body.length < 2 ^ 31) :
    Exchanges body sender receiver offset sender.blockSize (exchange1 body sender receiver) := by
  have hoff : offset < 2 ^ 31 := h.inside.trans hbody
  obtain ⟨m, hm⟩ : ∃ m, min sender.blockSize receiver.blockSize = m := ⟨_, rfl⟩
  have hms : m ≤ sender.blockSize := hm ▸ min_le_left _ _
  have hagreed : m ≤ 6 := hms.trans h.senderSize
  have hdvd : bytes m ∣ offset := (bytes_dvd hms).trans h.senderDvd
  have hmul := Nat.div_mul_cancel h.senderDvd
  have hmul' := Nat.div_mul_cancel hdvd
  have hnext := next_le h sender.blockSize
  refine ⟨min_le_left _ _, h.senderDvd, ?_⟩
  dsimp only
  rw [hm]
  have hreq : { coapAppendBlock1Option ⟨true, [], []⟩ sender with payload := blockOf body sender } =
      blockPacket true block1 sender.blockSize
        (decide (offset + bytes sender.blockSize < body.length)) (offset / bytes sender.blockSize)
        ((body.drop offset).take (bytes sender.blockSize)) := by
    rw [← h.sent, ← h.total]
    rfl
  have hreceiver := update_request1 h.senderSize (num_lt hoff sender.blockSize)
    (decide (offset + bytes sender.blockSize < body.length))
    ((body.drop offset).take (bytes sender.blockSize)) receiver
    (h.received ▸ h.same.imp_right le_of_eq)
    (h.known.imp_right fun hk => by rw [hk, hmul]; exact h.inside.le)
  rw [hmul, hm] at hreceiver
  have hrsp : coapAppendBlock1Option ⟨false, [], []⟩ ⟨receiver.totalSize, offset, m⟩ =
      blockPacket false block1 m false (offset / bytes m) [] := rfl
  have hsender := update_response1 hagreed (num_lt hoff _) false [] sender
    (by rw [hmul', h.sent]) hms
  unfold exchange1
  dsimp only
  rw [hreq, hreceiver]
  dsimp only
  rw [hrsp, hsender]
  dsimp only
  rw [coapNextBlockForOption_eq h.senderSize (num_lt hoff _) _ _ ⟨receiver.totalSize, offset, m⟩
      _ _ (h.known.imp_right fun hk => by dsimp only; omega),
    coapNextBlockForOption_eq h.senderSize (num_lt hoff _) _ _
      ⟨sender.totalSize, sender.current, m⟩ _ _ (.inr (by dsimp only; rw [h.sent, h.total]; exact hnext)),
    seen_blockPacket h.senderSize (num_lt hoff _), if_pos ⟨rfl, by dsimp only; split_ifs <;> omega,
      rfl, by dsimp only; split_ifs <;> omega⟩, h.sent, h.total]
  rfl

/-- **An exchange with a block in the response.** -/
theorem exchange2_spec (h : Ready body sender receiver offset) (hbody : body.length < 2 ^ 31) :
    Exchanges body sender receiver offset (min sender.blockSize receiver.blockSize)
      (exchange2 body sender receiver) := by
  have hoff : offset < 2 ^ 31 := h.inside.trans hbody
  obtain ⟨m, hm⟩ : ∃ m, min sender.blockSize receiver.blockSize = m := ⟨_, rfl⟩
  have hms : m ≤ sender.blockSize := hm ▸ min_le_left _ _
  have hmr : m ≤ receiver.blockSize := hm ▸ min_le_right _ _
  have hagreed : m ≤ 6 := hms.trans h.senderSize
  have hdvd : bytes m ∣ offset := (bytes_dvd hms).trans h.senderDvd
  have hmul := Nat.div_mul_cancel h.receiverDvd
  have hmul' := Nat.div_mul_cancel hdvd
  have hnext := next_le h m
  rw [Exchanges, hm]
  refine ⟨le_rfl, hdvd, ?_⟩
  have hreq : coapAppendBlock2Option ⟨true, [], []⟩ receiver =
      blockPacket true block2 receiver.blockSize false (offset / bytes receiver.blockSize) [] := by
    rw [← h.received]
    rfl
  have hsender := update_request2 h.receiverSize (num_lt hoff receiver.blockSize) [] sender
    (h.same.imp (fun h0 => by rw [h0, Nat.zero_div]) Eq.symm)
  rw [hmul, h.total, Nat.min_comm, hm] at hsender
  have hrsp : { coapAppendBlock2Option ⟨false, [], []⟩ ⟨body.length, offset, m⟩ with
        payload := blockOf body ⟨body.length, offset, m⟩ } =
      blockPacket false block2 m (decide (offset + bytes m < body.length)) (offset / bytes m)
        ((body.drop offset).take (bytes m)) := rfl
  have hreceiver := update_response2 hagreed (num_lt hoff _)
    (decide (offset + bytes m < body.length)) ((body.drop offset).take (bytes m)) receiver
    (.inr hmr) (h.known.imp_right fun hk => by rw [hk, hmul']; exact h.inside.le)
  rw [hmul', Nat.min_eq_left hmr] at hreceiver
  unfold exchange2
  dsimp only
  rw [hreq, hsender]
  dsimp only
  rw [hrsp, hreceiver]
  dsimp only
  rw [coapNextBlockForOption_eq hagreed (num_lt hoff _) _ _ ⟨body.length, offset, m⟩ _ _
      (.inr hnext),
    coapNextBlockForOption_eq hagreed (num_lt hoff _) _ _ ⟨receiver.totalSize, offset, m⟩ _ _
      (h.known.imp_right fun hk => by dsimp only; omega),
    seen_blockPacket hagreed (num_lt hoff _), if_pos ⟨rfl, by dsimp only; split_ifs <;> omega, rfl,
      by dsimp only; split_ifs <;> omega⟩]
  rfl

/-! ### Transfers -/

section transfers

variable (exchange : BlockContext → BlockContext → Option (Seen × BlockContext × BlockContext))

theorem transfer_tiles
    (hex : ∀ sender receiver offset, Ready body sender receiver offset →
      ∃ size, Exchanges body sender receiver offset size (exchange sender receiver)) (n : ℕ) :
    ∀ sender receiver offset acc, Ready body sender receiver offset → body.length - offset = n →
      ∃ blocks, Ends (fun f => loop (transferRound exchange) f (sender, receiver, acc))
        (some (acc ++ blocks)) ∧ Tiles body offset blocks := by
  induction n using Nat.strong_induction_on with
  | _ n ih =>
    intro sender receiver offset acc h hn
    obtain ⟨size, hagreed, hdvd, heq⟩ := hex sender receiver offset h
    dsimp only at heq
    have hmul := Nat.div_mul_cancel hdvd
    have hpos := bytes_pos size
    have hin := h.inside
    by_cases hmore : offset + bytes size < body.length
    · -- a full block, with more behind it
      have hlen : ((body.drop offset).take (bytes size)).length = bytes size := by
        rw [length_take, length_drop]
        omega
      rw [hlen] at heq
      have hret : (seenAt body offset size).ret = ((offset + bytes size : ℕ) : ℤ) := by
        simp [seenAt, hmore, hlen, ↓reduceIte]
      have hround : transferRound exchange (sender, receiver, acc) = .inl
          (⟨body.length, offset + bytes size, min sender.blockSize receiver.blockSize⟩,
            ⟨receiver.totalSize, offset + bytes size, min sender.blockSize receiver.blockSize⟩,
            acc ++ [seenAt body offset size]) := by
        rw [transferRound, heq]
        exact if_neg (by rw [hret]; omega)
      have hready : Ready body
          ⟨body.length, offset + bytes size, min sender.blockSize receiver.blockSize⟩
          ⟨receiver.totalSize, offset + bytes size, min sender.blockSize receiver.blockSize⟩
          (offset + bytes size) := by
        have hdvd' := (bytes_dvd hagreed).trans (Nat.dvd_add hdvd dvd_rfl)
        exact ⟨rfl, h.known, rfl, rfl, (min_le_left _ _).trans h.senderSize,
          (min_le_left _ _).trans h.senderSize, hdvd', hdvd', .inr rfl, hmore⟩
      obtain ⟨blocks, hends, htiles⟩ := ih _ (by omega) _ _ _
        (acc ++ [seenAt body offset size]) hready rfl
      refine ⟨seenAt body offset size :: blocks, (ends_loop_inl hround).mpr ?_, ?_⟩
      · rwa [append_assoc] at hends
      · refine .more hmul rfl rfl rfl hlen (decide_eq_true hmore) ?_ htiles
        rw [hret]
        omega
    -- the last block
    have hround : transferRound exchange (sender, receiver, acc) =
        .inr (some (acc ++ [seenAt body offset size])) := by
      rw [transferRound, heq]
      exact if_pos (by simp [seenAt, hmore])
    refine ⟨[seenAt body offset size], (ends_loop_inr hround).mpr rfl, ?_⟩
    refine .last hmul rfl rfl ?_ ?_ (decide_eq_false hmore) (by simp [seenAt, hmore])
    · exact take_of_length_le (by rw [length_drop]; omega)
    · refine ne_nil_of_length_pos ?_
      simp only [seenAt, length_take, length_drop]
      omega

end transfers

/-- **Block-wise transfers.** Whatever block sizes the peers start with, and whether the receiver
knows the size or not, the blocks tile the body. -/
theorem blocks_tile (body : List UInt8) (hpos : 1 ≤ body.length) (s r : ℕ) (hs : s ≤ 6)
    (hr : r ≤ 6) (hbody : body.length ≤ 2 ^ 20 * bytes s) (known : Bool) :
    (∃ blocks, Ends (transfer (exchange1 body) ⟨body.length, 0, s⟩
        ⟨if known then body.length else 0, 0, r⟩) (some blocks) ∧
      Tiles body 0 blocks ∧ blocks.flatMap (·.payload) = body) ∧
    ∃ blocks, Ends (transfer (exchange2 body) ⟨body.length, 0, s⟩
        ⟨if known then body.length else 0, 0, r⟩) (some blocks) ∧
      Tiles body 0 blocks ∧ blocks.flatMap (·.payload) = body := by
  have hlen : body.length < 2 ^ 31 := by
    have hb : bytes s ≤ 2 ^ 10 := Nat.pow_le_pow_right (show 0 < 2 by omega) (show s + 4 ≤ 10 by omega)
    calc body.length ≤ 2 ^ 20 * bytes s := hbody
      _ ≤ 2 ^ 20 * 2 ^ 10 := Nat.mul_le_mul_left _ hb
      _ < 2 ^ 31 := by norm_num
  have hknown : (if known then body.length else 0) = 0 ∨
      (if known then body.length else 0) = body.length := by
    cases known <;> simp
  have hready : Ready body ⟨body.length, 0, s⟩ ⟨if known then body.length else 0, 0, r⟩ 0 :=
    ⟨rfl, hknown, rfl, rfl, hs, hr, dvd_zero _, dvd_zero _, .inl rfl, hpos⟩
  constructor
  · obtain ⟨blocks, hends, htiles⟩ := transfer_tiles (exchange1 body)
      (fun _ _ _ h => ⟨_, exchange1_spec h hlen⟩) _ _ _ _ [] hready rfl
    exact ⟨blocks, hends, htiles, htiles.flatten⟩
  · obtain ⟨blocks, hends, htiles⟩ := transfer_tiles (exchange2 body)
      (fun _ _ _ h => ⟨_, exchange2_spec h hlen⟩) _ _ _ _ [] hready rfl
    exact ⟨blocks, hends, htiles, htiles.flatten⟩

/-- A body of 40 bytes, sent with blocks of 32 bytes to a peer that wants 16. -/
theorem blocks_tile_forty :
    (List.replicate 40 (0 : UInt8)).length ≤ 2 ^ 20 * bytes 1 ∧
      ∃ blocks, Ends (transfer (exchange1 (List.replicate 40 0)) ⟨40, 0, 1⟩ ⟨0, 0, 0⟩)
          (some blocks) ∧ Tiles (List.replicate 40 0) 0 blocks ∧
        blocks.flatMap (·.payload) = List.replicate 40 0 :=
  ⟨by decide, (blocks_tile (List.replicate 40 0) (by decide) 1 0 (by decide) (by decide)
    (by decide) false).1⟩

end TlZephyr.CoapBlock
