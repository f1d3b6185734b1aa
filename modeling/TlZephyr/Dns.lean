import TlZephyr.Errno
import TlZephyr.Lib.Fuel

/-!
# Names in DNS Messages

A name in a DNS message is a sequence of labels, each behind its length, and ends with an
empty label or with a pointer to another place of the message where the name goes on
(`subsys/net/lib/dns/dns_pack.c`). Two functions follow these pointers: `dns_copy_qname` copies
a name without its pointers, and `dns_unpack_name` writes it as text, with a dot in front of
each label. `dns_unpack_query` reads the type and the class of a question behind its name.

Memory is a function from positions, counted from the first of the `size` bytes of the message.
The functions keep a list of the positions they have read, and of how far they have written.
-/

namespace TlZephyr.Dns

open Fuel

/-- A message of `size` bytes, and the memory behind it. -/
structure Msg where
  byte : ℕ → UInt8
  size : ℕ

def Msg.ofList (bs : List UInt8) : Msg := ⟨fun i => bs.getD i 0, bs.length⟩

/-- `n` bytes from a position on. -/
def Msg.slice (msg : Msg) (pos n : ℕ) : List UInt8 := (List.range' pos n).map msg.byte

@[simp] theorem Msg.length_slice (msg : Msg) (pos n : ℕ) : (msg.slice pos n).length = n := by
  simp [Msg.slice]

/-! ### Copying a name -/

/-- Local variables of `dns_copy_qname`; `*len` is the length of `buf`. -/
structure Copy where
  pos : ℕ
  out : List UInt8

/-- One round of `dns_copy_qname`. The sums are at most `msg_size` and `size`. -/
def copyRound (msg : Msg) (size : ℕ) (s : Copy) : Copy ⊕ ℤ × List UInt8 :=
  if s.pos ≥ msg.size then .inr (-ENOMEM, s.out)
  else
    let lbSize := (msg.byte s.pos).toNat
    if lbSize > 63 then
      if s.pos + 1 ≥ msg.size then .inr (-ENOMEM, s.out)
      else .inl { s with pos := (lbSize &&& 63) <<< 8 + (msg.byte (s.pos + 1)).toNat }
    else if 1 + (lbSize : ℤ) > min ((size : ℤ) - s.out.length) ((msg.size : ℤ) - s.pos) then
      .inr (-ENOMEM, s.out)
    else
      let out := s.out ++ msg.slice s.pos (1 + lbSize)
      if lbSize = 0 then .inr (0, out) else .inl ⟨s.pos + (1 + lbSize), out⟩

/-- `dns_copy_qname` from position `pos` into a buffer of `size` bytes. -/
def dnsCopyQname (msg : Msg) (size pos fuel : ℕ) : Option (ℤ × List UInt8) :=
  loop (copyRound msg size) fuel ⟨pos, []⟩

/-! ### Names as text -/

/-- A `net_buf`: the bytes it holds, and the space from its first byte to its end. -/
structure NetBuf where
  bytes : List UInt8
  room : ℕ
  fits : bytes.length ≤ room

/-- `net_buf_tailroom`. -/
def NetBuf.tailroom (buf : NetBuf) : ℕ := buf.room - buf.bytes.length

/-- The local variables of `dns_unpack_name`, the bytes of the buffer and the positions read. -/
structure Unpack where
  curr : ℕ
  endOfLabel : Option ℕ
  loopCheck : ℕ
  text : List UInt8
  reads : List ℕ

/-- What `dns_unpack_name` gives, with how far it wrote and the positions that were read. -/
structure Unpacked where
  ret : ℤ
  eol : ℕ
  text : List UInt8
  written : ℕ
  reads : List ℕ

/-- Leave `dns_unpack_name` with an error. -/
def Unpack.fail (s : Unpack) (ret : ℤ) : Unpacked := ⟨ret, 0, s.text, s.text.length, s.reads⟩

/-- End of `dns_unpack_name` behind the empty label: a zero is written behind the text. -/
def Unpack.done (s : Unpack) : Unpacked :=
  ⟨s.text.length, s.endOfLabel.getD s.curr, s.text, s.text.length + 1, s.reads⟩

/-- One round of `dns_unpack_name`. -/
def unpackRound (msg : Msg) (destSize : ℕ) (s : Unpack) : Unpack ⊕ Unpacked :=
  let val := (msg.byte s.curr).toNat
  let s := { s with curr := s.curr + 1, reads := s.curr :: s.reads }
  if val = 0 then .inr s.done
  else if val &&& 0xc0 ≠ 0 then
    if s.curr ≥ msg.size then .inr (s.fail (-EMSGSIZE))
    else
      let pos := (val &&& 0x3f) <<< 8 ||| (msg.byte s.curr).toNat
      let s := { s with endOfLabel := some (s.curr + 1), curr := pos, reads := s.curr :: s.reads }
      if s.curr ≥ msg.size then .inr (s.fail (-EMSGSIZE))
      else
        let s := { s with loopCheck := s.loopCheck + 2 }
        if s.loopCheck ≥ msg.size then .inr (s.fail (-EMSGSIZE)) else .inl s
  else if val > 63 then .inr (s.fail (-EMSGSIZE))
  -- the space is the one that there was before the first label
  else if val + 1 ≥ destSize ∨ s.curr + val ≥ msg.size then .inr (s.fail (-EMSGSIZE))
  else
    .inl { s with
      loopCheck := s.loopCheck + (val + 1)
      text := s.text ++ 46 :: msg.slice s.curr val
      curr := s.curr + val
      reads := List.range' s.curr val ++ s.reads }

/-- `dns_unpack_name` from position `src`. -/
def dnsUnpackName (msg : Msg) (src : ℕ) (buf : NetBuf) (fuel : ℕ) : Option Unpacked :=
  let s : Unpack := ⟨src, none, 0, buf.bytes, []⟩
  if src ≥ msg.size then some (s.fail (-EMSGSIZE))
  else loop (unpackRound msg buf.tailroom) fuel s

/-! ### Questions -/

/-- A number of sixteen bits, as `dns_unpack_query_qtype` and `dns_unpack_query_qclass` read
it. -/
def Msg.ntohs (msg : Msg) (pos : ℕ) : ℕ := (msg.byte pos).toNat * 256 + (msg.byte (pos + 1)).toNat

/-- Types of questions that are answered: `A`, `AAAA`, `PTR`, `SRV`, `TXT` and `ANY`. -/
def queryTypes : List ℕ := [1, 28, 12, 33, 16, 255]

/-- What `dns_unpack_query` gives, with the position of the next question. -/
structure Query where
  name : Unpacked
  query : Option (ℕ × ℕ)
  queryOffset : ℕ

/-- `dns_unpack_query` behind the call of `dns_unpack_name`, whose result is `r`. -/
def unpackQuestion (msg : Msg) (queryOffset : ℕ) (r : Unpacked) : Query :=
  if r.ret < 0 then ⟨r, none, queryOffset⟩
  else
    let queryType := msg.ntohs r.eol
    let r := { r with reads := r.eol :: (r.eol + 1) :: r.reads }
    if queryType ∉ queryTypes then ⟨{ r with ret := -EINVAL }, none, queryOffset⟩
    else
      let queryClass := msg.ntohs (r.eol + 2)
      let r := { r with reads := (r.eol + 2) :: (r.eol + 3) :: r.reads }
      if queryClass &&& 1 ≠ 1 then ⟨{ r with ret := -EINVAL }, none, queryOffset⟩
      else ⟨r, some (queryType, queryClass), r.eol + 2 + 2⟩

def dnsUnpackQuery (msg : Msg) (queryOffset : ℕ) (buf : NetBuf) (fuel : ℕ) : Option Query :=
  (dnsUnpackName msg queryOffset buf fuel).map (unpackQuestion msg queryOffset)

end TlZephyr.Dns
