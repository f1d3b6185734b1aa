import TlZephyr.Errno
import TlZephyr.Lib.Memory

/-!
# Network Packets

`subsys/net/ip/net_pkt.c`: a packet is a chain of buffers and a cursor into it. The buffers are in a
memory of their own, linked by pointers. Every loop over the chain has a bound `fuel` on its rounds;
a chain of `n` buffers needs no more than `n`.

`TlZephyr.NetPktString` says what the functions do to the byte string a packet holds.
-/

namespace TlZephyr

namespace NetPkt

open Memory

/-- `struct net_buf`. `maxLen` is what `net_buf_max_len` returns, the size less the headroom. -/
structure NetBuf where
  frags : Option ℕ
  data : Mem
  len : ℕ
  maxLen : ℕ
  ref : ℕ

/-- `net_buf_tailroom`. -/
def NetBuf.tailroom (buf : NetBuf) : ℕ := buf.maxLen - buf.len

/-- `struct net_pkt`, with the buffers there are; `unrefs` lists those unreferenced. The cursor
counts from the start of its buffer's data. -/
structure Pkt where
  bufs : ℕ → NetBuf
  buffer : Option ℕ
  cursorBuf : Option ℕ
  cursorPos : ℕ
  overwrite : Bool
  unrefs : List ℕ

def Pkt.set (pkt : Pkt) (b : ℕ) (buf : NetBuf) : Pkt :=
  { pkt with bufs := Function.update pkt.bufs b buf }

def Pkt.setFrags (pkt : Pkt) (b : ℕ) (frags : Option ℕ) : Pkt :=
  pkt.set b { pkt.bufs b with frags := frags }

/-! ### References -/

/-- `net_buf_unref`: goes on to the next buffer once one is not referenced any more. -/
def netBufUnref : ℕ → Pkt → Option ℕ → Option Pkt
  | _, pkt, none => some pkt
  | 0, _, some _ => none
  | fuel + 1, pkt, some b =>
    let frags := (pkt.bufs b).frags
    let ref := ((pkt.bufs b).ref + 255) % 256
    let pkt := { pkt.set b { pkt.bufs b with ref := ref } with unrefs := pkt.unrefs ++ [b] }
    if ref > 0 then some pkt else netBufUnref fuel (pkt.setFrags b none) frags

variable (fuel : ℕ) (pkt : Pkt)

/-- `net_pkt_frag_del` and `net_buf_frag_del`. -/
def netPktFragDel (parent : Option ℕ) (frag : ℕ) : Option Pkt :=
  let next := (pkt.bufs frag).frags
  match parent with
  | none =>
    if pkt.buffer = some frag then do
      let pkt ← netBufUnref fuel (pkt.setFrags frag none) (some frag)
      return { pkt with buffer := next }
    else
      netBufUnref fuel (pkt.setFrags frag none) (some frag)
  | some parent => netBufUnref fuel ((pkt.setFrags parent next).setFrags frag none) (some frag)

/-! ### Cursor -/

def netPktCursorInit (pkt : Pkt) : Pkt := { pkt with cursorBuf := pkt.buffer, cursorPos := 0 }

def NetBuf.cursorLen (buf : NetBuf) (write : Bool) : ℕ := if write then buf.maxLen else buf.len

/-- Loop of `pkt_cursor_jump`, past the buffers without room or data. -/
def jumpLoop (bufs : ℕ → NetBuf) (write : Bool) : ℕ → Option ℕ → Option (Option ℕ)
  | _, none => some none
  | 0, some _ => none
  | fuel + 1, some b =>
    if (bufs b).cursorLen write = 0 then jumpLoop bufs write fuel (bufs b).frags else some (some b)

/-- `pkt_cursor_jump`, for a cursor in buffer `b`. -/
def pktCursorJump (b : ℕ) (write : Bool) : Option Pkt := do
  let buf ← jumpLoop pkt.bufs write fuel (pkt.bufs b).frags
  return { pkt with cursorBuf := buf, cursorPos := 0 }

def pktCursorAdvance (write : Bool) : Option Pkt :=
  match pkt.cursorBuf with
  | none => some pkt
  | some b =>
    if pkt.cursorPos = (pkt.bufs b).cursorLen write then pktCursorJump fuel pkt b write
    else some pkt

/-- `pkt_cursor_update`, for a cursor in buffer `b`. -/
def pktCursorUpdate (b length : ℕ) (write : Bool) : Option Pkt :=
  let write := write && !pkt.overwrite
  let len := (pkt.bufs b).cursorLen write
  if length + pkt.cursorPos = len ∧ ¬ (pkt.overwrite ∧ len < (pkt.bufs b).maxLen) then
    pktCursorJump fuel pkt b write
  else
    some { pkt with cursorPos := pkt.cursorPos + length }

/-- What `net_pkt_cursor_operate` is called for. -/
inductive Access where
  | skip
  | memset (byte : UInt8)
  | read
  | write (data : List UInt8)

/-- Parameter `write` of `net_pkt_cursor_operate`. -/
def Access.isWrite : Access → Bool
  | .read => false
  | .skip | .memset _ | .write _ => true

/-- Data of a buffer after `len` bytes were processed. -/
def Access.store (data : Mem) (pos len : ℕ) : Access → Mem
  | .skip | .read => data
  | .memset byte => storeBytes data pos (List.replicate len byte)
  | .write src => storeBytes data pos (src.take len)

def Access.load (data : Mem) (pos len : ℕ) : Access → List UInt8
  | .read => loadBytes data pos len
  | .skip | .memset _ | .write _ => []

def Access.rest (len : ℕ) : Access → Access
  | .write src => .write (src.drop len)
  | access => access

/-- Result of `net_pkt_cursor_operate`, by the length it did not process. -/
def operateResult (length : ℕ) : ℤ := if length ≠ 0 then -ENOBUFS else 0

/-- Loop of `net_pkt_cursor_operate`: the result, the packet and what was read. -/
def operateLoop (fuel : ℕ) : ℕ → Pkt → Access → ℕ → List UInt8 → Option (ℤ × Pkt × List UInt8)
  | 0, _, _, _, _ => none
  | rounds + 1, pkt, access, length, out =>
    if pkt.cursorBuf = none ∨ length = 0 then
      some (operateResult length, pkt, out)
    else do
      let grows := access.isWrite && !pkt.overwrite
      let pkt ← pktCursorAdvance fuel pkt grows
      match pkt.cursorBuf with
      | none => return (operateResult length, pkt, out)
      | some b =>
        let buf := pkt.bufs b
        let dLen := buf.cursorLen grows - pkt.cursorPos
        if dLen = 0 then
          return (operateResult length, pkt, out)
        else do
          let len := if length < dLen then length else dLen
          let stored := { buf with
            data := access.store buf.data pkt.cursorPos len
            len := if grows then buf.len + len else buf.len }
          let read := access.load buf.data pkt.cursorPos len
          let pkt ← pktCursorUpdate fuel (pkt.set b stored) b len access.isWrite
          operateLoop fuel rounds pkt (access.rest len) (length - len) (out ++ read)

def netPktCursorOperate (access : Access) (length : ℕ) : Option (ℤ × Pkt × List UInt8) :=
  operateLoop fuel (length + 1) pkt access length []

def netPktSkip (skip : ℕ) : Option (ℤ × Pkt × List UInt8) :=
  netPktCursorOperate fuel pkt .skip skip

def netPktMemset (byte : UInt8) (amount : ℕ) : Option (ℤ × Pkt × List UInt8) :=
  netPktCursorOperate fuel pkt (.memset byte) amount

def netPktRead (length : ℕ) : Option (ℤ × Pkt × List UInt8) :=
  netPktCursorOperate fuel pkt .read length

/-- `net_pkt_write`, of data outside of the packet. -/
def netPktWrite (data : List UInt8) : Option (ℤ × Pkt × List UInt8) :=
  netPktCursorOperate fuel pkt (.write data) data.length

/-! ### Removing data -/

/-- Loop of `net_pkt_pull`: the packet and the length that is left. -/
def pullLoop (fuel : ℕ) : ℕ → Pkt → ℕ → Option (Pkt × ℕ)
  | 0, _, _ => none
  | rounds + 1, pkt, length =>
    if length = 0 then
      some (pkt, length)
    else do
      let pkt ← pktCursorAdvance fuel pkt false
      match pkt.cursorBuf with
      | none => return (pkt, length)
      | some b =>
        let buf := pkt.bufs b
        let left := buf.len - pkt.cursorPos
        if left = 0 then
          return (pkt, length)
        else
          let rem := if left > length then length else left
          if left - rem ≠ 0 then
            let data := moveBytes buf.data pkt.cursorPos (pkt.cursorPos + rem) (left - rem)
            pullLoop fuel rounds (pkt.set b { buf with len := buf.len - rem, data := data })
              (length - rem)
          else do
            let pkt := pkt.set b { buf with len := buf.len - rem }
            let pkt ← match pkt.buffer with
              | none => some pkt
              | some first =>
                netBufUnref fuel ({ pkt with
                  buffer := (pkt.bufs first).frags }.setFrags first none) (some first)
            pullLoop fuel rounds (netPktCursorInit pkt) (length - rem)

def netPktPull (length : ℕ) : Option (ℤ × Pkt) := do
  let (pkt, length) ← pullLoop fuel (length + 1) pkt length
  return (operateResult length, netPktCursorInit pkt)

/-- `net_buf_frags_len`, which `net_pkt_get_len` returns. -/
def netBufFragsLen (bufs : ℕ → NetBuf) : ℕ → Option ℕ → ℕ → Option ℕ
  | _, none, bytes => some bytes
  | 0, some _, _ => none
  | fuel + 1, some b, bytes => netBufFragsLen bufs fuel (bufs b).frags (bytes + (bufs b).len)

/-- Loop of `net_pkt_remove_tail`. -/
def removeTailLoop : ℕ → Pkt → Option ℕ → ℕ → Option Pkt
  | _, pkt, none, _ => some pkt
  | 0, _, some _, _ => none
  | fuel + 1, pkt, some b, remainingLen =>
    let buf := pkt.bufs b
    if buf.len ≥ remainingLen then do
      let pkt := pkt.set b { buf with len := remainingLen }
      match buf.frags with
      | none => return pkt
      | some next => do
        let pkt ← netBufUnref fuel pkt (some next)
        return pkt.setFrags b none
    else
      removeTailLoop fuel pkt buf.frags (remainingLen - buf.len)

def netPktRemoveTail (length : ℕ) : Option (ℤ × Pkt) := do
  let remainingLen ← netBufFragsLen pkt.bufs fuel pkt.buffer 0
  if remainingLen < length then
    return (-EINVAL, pkt)
  else do
    let pkt ← removeTailLoop fuel pkt pkt.buffer (remainingLen - length)
    return (0, pkt)

/-! ### Removing buffers -/

/-- Loop of `net_pkt_trim_buffer`. -/
def trimLoop (fuel : ℕ) : ℕ → Pkt → Option ℕ → ℕ → Option Pkt
  | _, pkt, none, _ => some pkt
  | 0, _, some _, _ => none
  | rounds + 1, pkt, some b, prev =>
    let next := (pkt.bufs b).frags
    if (pkt.bufs b).len = 0 then do
      let pkt := if pkt.buffer = some b then { pkt with buffer := next }
        else if (pkt.bufs prev).frags = some b then pkt.setFrags prev next
        else pkt
      let pkt ← netBufUnref fuel (pkt.setFrags b none) (some b)
      trimLoop fuel rounds pkt next prev
    else
      trimLoop fuel rounds pkt next b

def netPktTrimBuffer : Option Pkt :=
  match pkt.buffer with
  | none => some pkt
  | some b => trimLoop fuel fuel pkt (some b) b

def copyUp (pkt : Pkt) (frag next : ℕ) : Pkt :=
  let buf := pkt.bufs frag
  let src := pkt.bufs next
  let copyLen := if src.len > buf.tailroom then buf.tailroom else src.len
  let pkt := pkt.set frag { buf with
    data := storeBytes buf.data buf.len (loadBytes src.data 0 copyLen)
    len := buf.len + copyLen }
  pkt.set next { src with
    data := moveBytes src.data 0 copyLen (src.len - copyLen)
    len := src.len - copyLen }

/-- Loop of `net_pkt_compact`. A round takes a buffer out or goes on to the next one. -/
def compactLoop (fuel : ℕ) : ℕ → Pkt → Option ℕ → Option ℕ → Option Pkt
  | _, pkt, none, _ => some pkt
  | 0, _, some _, _ => none
  | rounds + 1, pkt, some frag, prev =>
    match (pkt.bufs frag).frags with
    | some next =>
      let pkt := copyUp pkt frag next
      if (pkt.bufs frag).tailroom ≠ 0 then do
        let pkt ← netPktFragDel fuel pkt (some frag) next
        compactLoop fuel rounds pkt (some frag) prev
      else
        compactLoop fuel rounds pkt (some next) (some frag)
    | none =>
      if (pkt.bufs frag).len = 0 then netPktFragDel fuel pkt prev frag
      else some pkt

def netPktCompact : Option Pkt := compactLoop fuel fuel pkt pkt.buffer none

end NetPkt

end TlZephyr
