import TlZephyr.Errno
import TlZephyr.Lib.Memory
import TlZephyr.Lib.Ring

/-!
# Message Queue

Model of `msg_q.c`. Each section under the lock is one step of `MsgqSys.step`: a call of
`k_msgq_put` or `k_msgq_get` up to its return or to the point where the thread pends, a purge,
and the timeout of a pended thread. The ring is kept as in the code, as two pointers into a buffer
and a count.

The wait queue holds readers and writers alike and the code never asks which it finds: what a
put hands over is copied to wherever the first thread's `swap_data` points, and what a get
takes over is copied from there. `Waiter.receive` and `Waiter.send` say what that comes to for
either kind, so that a wrong wake-up would show in the events.
-/

namespace TlZephyr

open Memory List Ring

/-- Constants of a queue. The buffer is an object of the 32-bit address space. -/
structure MsgqBuffer where
  msgSize : ℕ
  maxMsgs : ℕ
  bufferStart : ℕ
  maxMsgs_pos : 1 ≤ maxMsgs
  fits : bufferStart + maxMsgs * msgSize < 2 ^ 32

def MsgqBuffer.bufferEnd (b : MsgqBuffer) : ℕ := b.bufferStart + b.maxMsgs * b.msgSize

structure MsgqData (b : MsgqBuffer) where
  bytes : List UInt8
  length_eq : bytes.length = b.msgSize

/-- What `swap_data` points to: the message of a put, or the room of a get. -/
inductive SwapData (b : MsgqBuffer)
  | source (data : MsgqData b)
  | dest (old : MsgqData b)

/-- A thread on the wait queue, under the number of the call it is pended in. -/
structure Waiter (b : MsgqBuffer) where
  call : ℕ
  swapData : SwapData b

/-- `struct k_msgq`, with the memory its buffer lies in. -/
structure Msgq (b : MsgqBuffer) where
  readPtr : ℕ
  writePtr : ℕ
  usedMsgs : ℕ
  mem : Mem
  waitQ : List (Waiter b)

/-- What a step makes known: the result of a call, with the message a get received, or a
purge. -/
inductive MsgqEvent
  | put (call : ℕ) (data : List UInt8) (result : ℤ)
  | get (call : ℕ) (data : Option (List UInt8)) (result : ℤ)
  | purge

namespace Waiter

variable {b : MsgqBuffer}

/-- Bytes at the thread's `swap_data`. -/
def bytes (w : Waiter b) : List UInt8 :=
  match w.swapData with
  | .source data => data.bytes
  | .dest old => old.bytes

def isReader (w : Waiter b) : Bool :=
  match w.swapData with
  | .source _ => false
  | .dest _ => true

/-- The thread is woken with result 0 after `data` was copied to its `swap_data`. -/
def receive (w : Waiter b) (data : List UInt8) : MsgqEvent :=
  if w.isReader then .get w.call (some data) 0 else .put w.call w.bytes 0

/-- The thread is woken with result 0 after its `swap_data` was copied to the ring. -/
def send (w : Waiter b) : MsgqEvent :=
  if w.isReader then .get w.call none 0 else .put w.call w.bytes 0

def fail (w : Waiter b) (err : ℤ) : MsgqEvent :=
  if w.isReader then .get w.call none err else .put w.call w.bytes err

end Waiter

open Waiter

theorem Waiter.length_bytes {b : MsgqBuffer} (w : Waiter b) : w.bytes.length = b.msgSize := by
  rw [bytes]
  split
  · exact MsgqData.length_eq _
  · exact MsgqData.length_eq _

namespace Msgq

variable {b : MsgqBuffer}

/-- `k_msgq_init`. -/
def init (b : MsgqBuffer) (mem : Mem) : Msgq b :=
  ⟨b.bufferStart, b.bufferStart, 0, mem, []⟩

/-- A pointer one message on, back at the start when it reaches the end. -/
def advance (b : MsgqBuffer) (ptr : ℕ) : ℕ :=
  if ptr + b.msgSize = b.bufferEnd then b.bufferStart else ptr + b.msgSize

/-- A message copied to `write_ptr`. -/
def enqueue (q : Msgq b) (data : List UInt8) : Msgq b :=
  { q with
    mem := storeBytes q.mem q.writePtr data
    writePtr := advance b q.writePtr
    usedMsgs := q.usedMsgs + 1 }

/-- Message at `read_ptr`. -/
def front (q : Msgq b) : List UInt8 := loadBytes q.mem q.readPtr b.msgSize

/-- Message at `read_ptr` taken out. -/
def dequeue (q : Msgq b) : Msgq b :=
  { q with readPtr := advance b q.readPtr, usedMsgs := q.usedMsgs - 1 }

/-- `z_pend_curr`: the thread joins the wait queue at the place of its priority. -/
def pend (q : Msgq b) (w : Waiter b) (place : ℕ) : Msgq b :=
  { q with waitQ := q.waitQ.insertIdx (min place q.waitQ.length) w }

/-- `z_impl_k_msgq_put` up to the return or to `z_pend_curr`. -/
def put (q : Msgq b) (call : ℕ) (data : MsgqData b) (noWait : Bool) (place : ℕ) :
    Msgq b × List MsgqEvent :=
  if q.usedMsgs < b.maxMsgs then
    match q.waitQ with
    | w :: ws => ({ q with waitQ := ws }, [.put call data.bytes 0, w.receive data.bytes])
    | [] => (q.enqueue data.bytes, [.put call data.bytes 0])
  else if noWait then (q, [.put call data.bytes (-ENOMSG)])
  else (q.pend ⟨call, .source data⟩ place, [])

/-- `z_impl_k_msgq_get` up to the return or to `z_pend_curr`. -/
def get (q : Msgq b) (call : ℕ) (room : MsgqData b) (noWait : Bool) (place : ℕ) :
    Msgq b × List MsgqEvent :=
  if 0 < q.usedMsgs then
    match q.waitQ with
    | w :: ws =>
      ({ q.dequeue.enqueue w.bytes with waitQ := ws }, [.get call (some q.front) 0, w.send])
    | [] => (q.dequeue, [.get call (some q.front) 0])
  else if noWait then (q, [.get call none (-ENOMSG)])
  else (q.pend ⟨call, .dest room⟩ place, [])

/-- `z_impl_k_msgq_peek`: the result and the message copied. -/
def peek (q : Msgq b) : ℤ × Option (List UInt8) :=
  if 0 < q.usedMsgs then (0, some q.front) else (-ENOMSG, none)

/-- `z_impl_k_msgq_peek_at`, with its `uint32_t` arithmetic. -/
def peekAt (q : Msgq b) (idx : ℕ) : ℤ × Option (List UInt8) :=
  if idx < q.usedMsgs then
    let bytesToEnd := (b.bufferEnd - q.readPtr) % 2 ^ 32
    let byteOffset := idx * b.msgSize % 2 ^ 32
    if bytesToEnd ≤ byteOffset then
      (0, some (loadBytes q.mem (b.bufferStart + (byteOffset - bytesToEnd)) b.msgSize))
    else (0, some (loadBytes q.mem (q.readPtr + byteOffset) b.msgSize))
  else (-ENOMSG, none)

/-- `z_impl_k_msgq_purge`: every pended thread is woken, the ring is emptied. -/
def purge (q : Msgq b) : Msgq b × List MsgqEvent :=
  ({ q with waitQ := [], usedMsgs := 0, readPtr := q.writePtr },
    q.waitQ.map (·.fail (-ENOMSG)) ++ [.purge])

/-- Timeout of the thread at a place of the wait queue. -/
def timeout (q : Msgq b) (place : ℕ) : Msgq b × List MsgqEvent :=
  match q.waitQ[place]? with
  | some w => ({ q with waitQ := q.waitQ.eraseIdx place }, [w.fail (-EAGAIN)])
  | none => (q, [])

end Msgq

/-- One lock-held section. A priority may change while a thread is pended. -/
inductive MsgqOp (b : MsgqBuffer)
  | put (data : MsgqData b) (noWait : Bool) (place : ℕ)
  | get (room : MsgqData b) (noWait : Bool) (place : ℕ)
  | purge
  | timeout (place : ℕ)
  | reorder (place place' : ℕ)

/-- A queue, the number of calls made so far, and what the steps made known, in order. -/
structure MsgqSys (b : MsgqBuffer) where
  q : Msgq b
  calls : ℕ
  events : List MsgqEvent

namespace MsgqSys

variable {b : MsgqBuffer}

def init (b : MsgqBuffer) (mem : Mem) : MsgqSys b := ⟨Msgq.init b mem, 0, []⟩

/-- System after a section that left `r`. -/
def after (s : MsgqSys b) (r : Msgq b × List MsgqEvent) (calls : ℕ) : MsgqSys b :=
  ⟨r.1, calls, s.events ++ r.2⟩

def step (s : MsgqSys b) : MsgqOp b → MsgqSys b
  | .put data noWait place => s.after (s.q.put s.calls data noWait place) (s.calls + 1)
  | .get room noWait place => s.after (s.q.get s.calls room noWait place) (s.calls + 1)
  | .purge => s.after s.q.purge s.calls
  | .timeout place => s.after (s.q.timeout place) s.calls
  | .reorder place place' =>
    match s.q.waitQ[place]? with
    | some w => s.after (({ s.q with waitQ := s.q.waitQ.eraseIdx place }).pend w place', []) s.calls
    | none => s

def run (s : MsgqSys b) (ops : List (MsgqOp b)) : MsgqSys b := ops.foldl step s

end MsgqSys

/-! ### Ring -/

namespace Msgq

variable {b : MsgqBuffer}

def slotAddr (b : MsgqBuffer) (k : ℕ) : ℕ := b.bufferStart + k * b.msgSize

def slot (b : MsgqBuffer) (m : Mem) (k : ℕ) : List UInt8 := loadBytes m (slotAddr b k) b.msgSize

/-- The ring holds the messages `msgs`, the first of them in slot `r`. -/
structure Holds (q : Msgq b) (r : ℕ) (msgs : List (List UInt8)) : Prop where
  r_lt : r < b.maxMsgs
  readPtr : q.readPtr = slotAddr b r
  writePtr : q.writePtr = slotAddr b ((r + q.usedMsgs) % b.maxMsgs)
  used_le : q.usedMsgs ≤ b.maxMsgs
  msgs : msgs = contents (slot b q.mem) b.maxMsgs r q.usedMsgs

theorem advance_slotAddr {k : ℕ} (hk : k < b.maxMsgs) :
    advance b (slotAddr b k) = slotAddr b ((k + 1) % b.maxMsgs) := by
  have hsum : slotAddr b k + b.msgSize = b.bufferStart + (k + 1) * b.msgSize := by
    rw [slotAddr, Nat.add_mul, Nat.one_mul, Nat.add_assoc]
  rcases Nat.lt_or_eq_of_le hk with hlt | heq
  · rw [Nat.mod_eq_of_lt hlt, advance, hsum, MsgqBuffer.bufferEnd, slotAddr]
    split
    · rename_i hend
      -- with empty messages every slot starts at the same place
      have hzero : (k + 1) * b.msgSize = b.maxMsgs * b.msgSize := by omega
      rcases Nat.eq_zero_or_pos b.msgSize with h0 | hpos
      · simp [h0]
      · exact absurd (Nat.eq_of_mul_eq_mul_right hpos hzero) (by omega)
    · rfl
  · have heq' : k + 1 = b.maxMsgs := heq
    rw [advance, hsum, heq', MsgqBuffer.bufferEnd, if_pos rfl, Nat.mod_self, slotAddr,
      Nat.zero_mul, Nat.add_zero]

theorem slot_storeBytes_of_ne (m : Mem) {data : List UInt8} (hdata : data.length = b.msgSize)
    {j k : ℕ} (h : k ≠ j) : slot b (storeBytes m (slotAddr b j) data) k = slot b m k := by
  refine loadBytes_storeBytes_of_disjoint ?_
  rw [hdata, slotAddr, slotAddr]
  rcases Nat.lt_or_gt_of_ne h with hlt | hgt
  · have := Nat.mul_le_mul_right b.msgSize hlt
    rw [Nat.succ_mul] at this
    omega
  · have := Nat.mul_le_mul_right b.msgSize hgt
    rw [Nat.succ_mul] at this
    omega

theorem holds_init (b : MsgqBuffer) (m : Mem) : (Msgq.init b m).Holds 0 [] := by
  have := b.maxMsgs_pos
  refine ⟨by omega, by simp [init, slotAddr], ?_, Nat.zero_le _, rfl⟩
  simp [init, slotAddr]

namespace Holds

variable {q : Msgq b} {r : ℕ} {msgs : List (List UInt8)}

theorem length_eq (h : q.Holds r msgs) : msgs.length = q.usedMsgs := by
  rw [h.msgs, length_contents]

theorem congr {q' : Msgq b} (h : q.Holds r msgs) (hr : q'.readPtr = q.readPtr)
    (hw : q'.writePtr = q.writePtr) (hu : q'.usedMsgs = q.usedMsgs) (hm : q'.mem = q.mem) :
    q'.Holds r msgs :=
  ⟨h.r_lt, by rw [hr, h.readPtr], by rw [hw, hu, h.writePtr], by rw [hu]; exact h.used_le,
    by rw [hm, hu]; exact h.msgs⟩

/-- **Writing at `write_ptr` appends.** -/
theorem enqueue (h : q.Holds r msgs) {data : List UInt8} (hdata : data.length = b.msgSize)
    (hroom : q.usedMsgs < b.maxMsgs) : (q.enqueue data).Holds r (msgs ++ [data]) := by
  have hpos : 0 < b.maxMsgs := by omega
  have hslot : slot b (q.enqueue data).mem ((r + q.usedMsgs) % b.maxMsgs) = data := by
    change loadBytes (storeBytes q.mem q.writePtr data) _ _ = data
    rw [h.writePtr]
    exact loadBytes_storeBytes_of_length _ _ hdata
  refine ⟨h.r_lt, h.readPtr, ?_, hroom, ?_⟩
  · change advance b q.writePtr = slotAddr b ((r + (q.usedMsgs + 1)) % b.maxMsgs)
    rw [h.writePtr, advance_slotAddr (Nat.mod_lt _ hpos), Nat.mod_add_mod, Nat.add_assoc]
  change msgs ++ [data] = contents (slot b (q.enqueue data).mem) b.maxMsgs r (q.usedMsgs + 1)
  rw [contents_push hroom, hslot, h.msgs]
  intro k _ hk
  change slot b (storeBytes q.mem q.writePtr data) k = _
  rw [h.writePtr]
  exact slot_storeBytes_of_ne _ hdata hk

/-- **Reading at `read_ptr` takes the first message.** -/
theorem dequeue (h : q.Holds r msgs) (hused : 0 < q.usedMsgs) :
    ∃ rest, msgs = q.front :: rest ∧ q.dequeue.Holds ((r + 1) % b.maxMsgs) rest := by
  obtain ⟨n, hn⟩ : ∃ n, q.usedMsgs = n + 1 := ⟨q.usedMsgs - 1, by omega⟩
  have hpos : 0 < b.maxMsgs := by
    have := h.used_le
    omega
  refine ⟨contents (slot b q.mem) b.maxMsgs (r + 1) n, ?_, ?_⟩
  · rw [h.msgs, hn, contents_succ, Nat.mod_eq_of_lt h.r_lt, front, h.readPtr, slot]
  have hused' : q.dequeue.usedMsgs = n := by
    change q.usedMsgs - 1 = n
    omega
  refine ⟨Nat.mod_lt _ hpos, ?_, ?_, ?_, ?_⟩
  · change advance b q.readPtr = _
    rw [h.readPtr, advance_slotAddr h.r_lt]
  · rw [hused', Nat.mod_add_mod, Nat.add_assoc, Nat.add_comm 1 n, ← hn]
    exact h.writePtr
  · have := h.used_le
    omega
  · rw [hused', contents_mod]
    rfl

theorem purge (h : q.Holds r msgs) : (Msgq.purge q).1.Holds ((r + q.usedMsgs) % b.maxMsgs) [] := by
  have hpos : 0 < b.maxMsgs := by
    have := h.r_lt
    omega
  refine ⟨Nat.mod_lt _ hpos, h.writePtr, ?_, Nat.zero_le _, rfl⟩
  change q.writePtr = slotAddr b (((r + q.usedMsgs) % b.maxMsgs + 0) % b.maxMsgs)
  rw [Nat.add_zero, Nat.mod_mod, h.writePtr]

/-- **`peek_at` finds the message of its index**, also across the end of the buffer. -/
theorem peekAt (h : q.Holds r msgs) (idx : ℕ) :
    q.peekAt idx = if idx < msgs.length then (0, msgs[idx]?) else (-ENOMSG, none) := by
  rw [h.length_eq, Msgq.peekAt]
  by_cases hidx : idx < q.usedMsgs
  swap
  · rw [if_neg hidx, if_neg hidx]
  rw [if_pos hidx, if_pos hidx, h.msgs, getElem?_contents _ _ _ _ hidx]
  have hr := h.r_lt
  have hle := h.used_le
  have hfits := b.fits
  have hrmul := Nat.mul_le_mul_right b.msgSize (by omega : r ≤ b.maxMsgs)
  have himul := Nat.mul_le_mul_right b.msgSize (by omega : idx ≤ b.maxMsgs)
  -- neither product leaves 32 bits
  have hend : (b.bufferEnd - q.readPtr) % 2 ^ 32 = (b.maxMsgs - r) * b.msgSize := by
    rw [h.readPtr, MsgqBuffer.bufferEnd, slotAddr, Nat.sub_mul]
    rw [Nat.mod_eq_of_lt (by omega)]
    omega
  have hoff : idx * b.msgSize % 2 ^ 32 = idx * b.msgSize := Nat.mod_eq_of_lt (by omega)
  have hsub : (b.maxMsgs - r) * b.msgSize = b.maxMsgs * b.msgSize - r * b.msgSize :=
    Nat.sub_mul _ _ _
  simp only [hend, hoff]
  by_cases hwrap : (b.maxMsgs - r) * b.msgSize ≤ idx * b.msgSize
  · rw [if_pos hwrap]
    refine congrArg (fun a => ((0 : ℤ), some (loadBytes q.mem a b.msgSize))) ?_
    rw [slotAddr]
    rcases Nat.eq_zero_or_pos b.msgSize with h0 | hpos
    · simp [h0]
    have hge : b.maxMsgs - r ≤ idx := Nat.le_of_mul_le_mul_right hwrap hpos
    have hmod : (r + idx) % b.maxMsgs = idx - (b.maxMsgs - r) := by
      rw [Nat.mod_eq_sub_mod (by omega), Nat.mod_eq_of_lt (by omega)]
      omega
    rw [hmod, Nat.sub_mul idx]
  rw [if_neg hwrap]
  refine congrArg (fun a => ((0 : ℤ), some (loadBytes q.mem a b.msgSize))) ?_
  have hlt : idx < b.maxMsgs - r := by
    by_contra hge
    exact hwrap (Nat.mul_le_mul_right _ (by omega))
  rw [h.readPtr, slotAddr, slotAddr, Nat.mod_eq_of_lt (by omega), Nat.add_mul, Nat.add_assoc]

theorem peek (h : q.Holds r msgs) :
    q.peek = if 0 < msgs.length then (0, msgs[0]?) else (-ENOMSG, none) := by
  rw [h.length_eq, Msgq.peek]
  by_cases hused : 0 < q.usedMsgs
  · obtain ⟨rest, rfl, -⟩ := h.dequeue hused
    rw [if_pos hused, if_pos hused]
    rfl
  · rw [if_neg hused, if_neg hused]

end Holds

end Msgq

/-! ### Abstract queue -/

inductive MsgqFate
  | received (call : ℕ)
  | purged

/-- The queue as it is meant: the messages still in it and what became of the others, in order of
acceptance, each with the number of its put. -/
structure MsgqSpec where
  pending : List (ℕ × List UInt8)
  done : List ((ℕ × List UInt8) × MsgqFate)

namespace MsgqSpec

/-- What an event does to the queue. A get that reports success must have got the oldest
message. -/
def apply (s : MsgqSpec) : MsgqEvent → Option MsgqSpec
  | .put call data result =>
    some (if result = 0 then { s with pending := s.pending ++ [(call, data)] } else s)
  | .get call data result =>
    if result ≠ 0 then some s
    else
      match s.pending with
      | [] => none
      | p :: rest =>
        if data = some p.2 then some ⟨rest, s.done ++ [(p, .received call)]⟩ else none
  | .purge => some ⟨[], s.done ++ s.pending.map (·, .purged)⟩

/-- Queue after a list of events; `none` if they are no history of a queue. -/
def replay (s : MsgqSpec) : List MsgqEvent → Option MsgqSpec
  | [] => some s
  | e :: es => (s.apply e).bind (replay · es)

end MsgqSpec

namespace MsgqEvent

def call? : MsgqEvent → Option ℕ
  | put call _ _ => some call
  | get call _ _ => some call
  | purge => none

def accepted? : MsgqEvent → Option (ℕ × List UInt8)
  | put call data result => if result = 0 then some (call, data) else none
  | _ => none

/-- The get that returned 0, with what it received. -/
def received? : MsgqEvent → Option (ℕ × Option (List UInt8))
  | get call data result => if result = 0 then some (call, data) else none
  | _ => none

end MsgqEvent

def MsgqFate.received? : (ℕ × List UInt8) × MsgqFate → Option (ℕ × Option (List UInt8))
  | (p, .received call) => some (call, some p.2)
  | (_, .purged) => none

open MsgqFate

namespace MsgqSpec

theorem replay_append (s : MsgqSpec) (es es' : List MsgqEvent) :
    s.replay (es ++ es') = (s.replay es).bind (replay · es') := by
  induction es generalizing s with
  | nil => rfl
  | cons e es ih =>
    simp only [cons_append, replay, Option.bind_assoc]
    exact congrArg _ (funext fun s' => ih s')

/-- One event: an accepted message joins the pending ones, a received one leaves from the
front. -/
theorem apply_spec {s s' : MsgqSpec} {e : MsgqEvent} (h : s.apply e = some s') :
    s'.done.map Prod.fst ++ s'.pending = s.done.map Prod.fst ++ s.pending ++ e.accepted?.toList ∧
      s'.done.filterMap received? = s.done.filterMap received? ++ e.received?.toList := by
  cases e with
  | put call data result =>
    obtain rfl := Option.some.inj h
    by_cases hres : result = 0
    · simp [hres, MsgqEvent.accepted?, MsgqEvent.received?]
    · simp [hres, MsgqEvent.accepted?, MsgqEvent.received?]
  | get call data result =>
    by_cases hres : result = 0
    · subst hres
      rcases hp : s.pending with _ | ⟨p, rest⟩
      · simp [apply, hp] at h
      by_cases hdata : data = some p.2
      · obtain rfl : (⟨rest, s.done ++ [(p, .received call)]⟩ : MsgqSpec) = s' := by
          simpa [apply, hp, hdata] using h
        simp [MsgqEvent.accepted?, MsgqEvent.received?, received?, hdata]
      · simp [apply, hp, hdata] at h
    · obtain rfl : s = s' := by simpa [apply, hres] using h
      simp [hres, MsgqEvent.accepted?, MsgqEvent.received?]
  | purge =>
    obtain rfl := Option.some.inj h
    have hnone : (s.pending.map (·, purged)).filterMap received? = [] := by
      rw [filterMap_map]
      exact filterMap_eq_nil_iff.mpr fun p _ => rfl
    simp [MsgqEvent.accepted?, MsgqEvent.received?, hnone, Function.comp_def]

/-- **A whole history**: the accepted messages are, in order, those done with and those pending. -/
theorem replay_spec {s s' : MsgqSpec} {es : List MsgqEvent} (h : s.replay es = some s') :
    s'.done.map Prod.fst ++ s'.pending =
        s.done.map Prod.fst ++ s.pending ++ es.filterMap MsgqEvent.accepted? ∧
      s'.done.filterMap received? =
        s.done.filterMap received? ++ es.filterMap MsgqEvent.received? := by
  induction es generalizing s with
  | nil =>
    obtain rfl := Option.some.inj h
    simp
  | cons e es ih =>
    obtain ⟨s₁, hs₁, hrest⟩ := Option.bind_eq_some_iff.mp h
    obtain ⟨h1, h2⟩ := apply_spec hs₁
    obtain ⟨h3, h4⟩ := ih hrest
    have htoList : ∀ {β : Type} (f : MsgqEvent → Option β),
        (e :: es).filterMap f = (f e).toList ++ es.filterMap f := by
      intro β f
      cases hf : f e <;> simp [hf]
    rw [h3, h4, h1, h2, htoList, htoList, append_assoc, append_assoc _ _ (List.filterMap _ es)]
    exact ⟨rfl, rfl⟩

end MsgqSpec

/-! ### System -/

/-- Who waits: readers on an empty queue, or writers on a full one. -/
def Msgq.WaitersOk {b : MsgqBuffer} (q : Msgq b) : Prop :=
  (∀ w ∈ q.waitQ, w.isReader = true ∧ q.usedMsgs = 0) ∨
    ∀ w ∈ q.waitQ, w.isReader = false ∧ q.usedMsgs = b.maxMsgs

namespace MsgqSys

variable {b : MsgqBuffer}

def callIds (s : MsgqSys b) : List ℕ :=
  s.events.filterMap MsgqEvent.call? ++ s.q.waitQ.map call

/-- The events are a history of the abstract queue, the ring holds its pending messages, and the
wait queue is of one kind. -/
structure Inv (s : MsgqSys b) (spec : MsgqSpec) : Prop where
  replay : MsgqSpec.replay ⟨[], []⟩ s.events = some spec
  ring : ∃ r, s.q.Holds r (spec.pending.map Prod.snd)
  waiters : s.q.WaitersOk
  nodup : s.callIds.Nodup
  fresh : ∀ c ∈ s.callIds, c < s.calls

theorem inv_init (b : MsgqBuffer) (m : Mem) : (init b m).Inv ⟨[], []⟩ :=
  ⟨rfl, ⟨0, Msgq.holds_init b m⟩, Or.inl (by simp [init, Msgq.init]), by simp [callIds, init, Msgq.init],
    by simp [callIds, init, Msgq.init]⟩

variable {spec : MsgqSpec}

/-- A step keeps the invariant if its events are the next ones of the abstract queue and the rest is
in order. -/
theorem Inv.after {s : MsgqSys b} {spec' : MsgqSpec} (h : s.Inv spec)
    {r : Msgq b × List MsgqEvent} {calls : ℕ} (new : List ℕ) (hreplay : spec.replay r.2 = some spec')
    (hring : ∃ k, r.1.Holds k (spec'.pending.map Prod.snd)) (hwaiters : r.1.WaitersOk)
    (hids : (r.2.filterMap MsgqEvent.call? ++ r.1.waitQ.map call).Perm
      (s.q.waitQ.map call ++ new))
    (hnew : new.Nodup) (hfresh : ∀ c ∈ new, s.calls ≤ c ∧ c < calls) (hcalls : s.calls ≤ calls) :
    (s.after r calls).Inv spec' := by
  have hperm : (s.after r calls).callIds.Perm (s.callIds ++ new) := by
    simp only [callIds, MsgqSys.after, filterMap_append, append_assoc]
    exact hids.append_left _
  refine ⟨?_, hring, hwaiters, ?_, ?_⟩
  · simp [MsgqSys.after, MsgqSpec.replay_append, h.replay, hreplay]
  · rw [hperm.nodup_iff, nodup_append]
    refine ⟨h.nodup, hnew, fun a ha c hc hac => ?_⟩
    have h1 := h.fresh a ha
    have h2 := (hfresh c hc).1
    omega
  intro c hc
  change c < calls
  rcases mem_append.mp (hperm.mem_iff.mp hc) with hc | hc
  · have := h.fresh c hc
    omega
  · exact (hfresh c hc).2

theorem Inv.pend {s : MsgqSys b} (h : s.Inv spec) (w : Waiter b) (place : ℕ)
    (hcall : w.call = s.calls)
    (hkind : w.isReader = true ∧ s.q.usedMsgs = 0 ∨ w.isReader = false ∧ s.q.usedMsgs = b.maxMsgs) :
    (s.after (s.q.pend w place, []) (s.calls + 1)).Inv spec := by
  have hplace : min place s.q.waitQ.length ≤ s.q.waitQ.length := Nat.min_le_right _ _
  have hpos := b.maxMsgs_pos
  obtain ⟨r, hr⟩ := h.ring
  refine h.after [s.calls] rfl ⟨r, hr.congr rfl rfl rfl rfl⟩ ?_ ?_ (by simp) (by simp) (by omega)
  · -- whoever waits already waits for the same thing
    have hold : (∀ v ∈ s.q.waitQ, v.isReader = w.isReader) := by
      intro v hv
      rcases h.waiters with hw | hw <;> have := hw v hv <;> rcases hkind with hk | hk
      · rw [this.1, hk.1]
      · omega
      · omega
      · rw [this.1, hk.1]
    rcases hkind with ⟨hk, hused⟩ | ⟨hk, hused⟩
    · refine Or.inl fun v hv => ?_
      rcases (mem_insertIdx hplace).mp hv with rfl | hv
      exacts [⟨hk, hused⟩, ⟨(hold v hv).trans hk, hused⟩]
    · refine Or.inr fun v hv => ?_
      rcases (mem_insertIdx hplace).mp hv with rfl | hv
      exacts [⟨hk, hused⟩, ⟨(hold v hv).trans hk, hused⟩]
  · have hperm := (perm_insertIdx w s.q.waitQ hplace).map call
    rw [map_cons, hcall] at hperm
    exact hperm.trans (perm_append_singleton _ _).symm

theorem Inv.put {s : MsgqSys b} (h : s.Inv spec) (data : MsgqData b)
    (noWait : Bool) (place : ℕ) : ∃ spec', (s.step (.put data noWait place)).Inv spec' := by
  obtain ⟨r, hr⟩ := h.ring
  have hpos := b.maxMsgs_pos
  by_cases hroom : s.q.usedMsgs < b.maxMsgs
  · cases hq : s.q.waitQ with
    | nil =>
      have hput : s.q.put s.calls data noWait place =
          (s.q.enqueue data.bytes, [.put s.calls data.bytes 0]) := by
        simp only [Msgq.put, if_pos hroom, hq]
      rw [step, hput]
      refine ⟨⟨spec.pending ++ [(s.calls, data.bytes)], spec.done⟩,
        h.after [s.calls] rfl ⟨r, ?_⟩ (Or.inl ?_) ?_ (by simp) (by simp) (by omega)⟩
      · rw [map_append]
        exact hr.enqueue data.length_eq hroom
      · simp [Msgq.enqueue, hq]
      · simp [Msgq.enqueue, hq, MsgqEvent.call?]
    | cons w ws =>
      -- the first thread is a reader, and the message goes straight to it
      have hmem : w ∈ s.q.waitQ := by simp [hq]
      obtain ⟨hreaders, hused⟩ : (∀ v ∈ s.q.waitQ, v.isReader = true ∧ s.q.usedMsgs = 0) ∧
          s.q.usedMsgs = 0 := by
        rcases h.waiters with hw | hw
        · exact ⟨hw, (hw w hmem).2⟩
        · have := (hw w hmem).2
          omega
      have hpending : spec.pending = [] := by
        have := hr.length_eq
        rw [hused, length_map] at this
        exact length_eq_zero_iff.mp this
      have hput : s.q.put s.calls data noWait place = ({ s.q with waitQ := ws },
            [.put s.calls data.bytes 0, .get w.call (some data.bytes) 0]) := by
        simp [Msgq.put, if_pos hroom, hq, receive, (hreaders w hmem).1]
      rw [step, hput]
      refine ⟨⟨[], spec.done ++ [((s.calls, data.bytes), .received w.call)]⟩,
        h.after [s.calls] ?_ ⟨r, ?_⟩ (Or.inl ?_) ?_ (by simp) (by simp) (by omega)⟩
      · simp [MsgqSpec.replay, MsgqSpec.apply, hpending]
      · rw [hpending] at hr
        exact hr.congr rfl rfl rfl rfl
      · exact fun v hv => hreaders v (by rw [hq]; exact mem_cons_of_mem _ hv)
      · simp only [hq, filterMap_cons, filterMap_nil, MsgqEvent.call?, map_cons]
        exact (perm_append_singleton _ (w.call :: ws.map call)).symm
  have hfull : s.q.usedMsgs = b.maxMsgs := le_antisymm hr.used_le (not_lt.mp hroom)
  cases noWait with
  | true =>
    have hput : s.q.put s.calls data true place = (s.q, [.put s.calls data.bytes (-ENOMSG)]) := by
      simp [Msgq.put, if_neg hroom]
    rw [step, hput]
    refine ⟨spec, h.after [s.calls] rfl ⟨r, hr⟩ h.waiters ?_ (by simp) (by simp) (by omega)⟩
    simpa [MsgqEvent.call?] using (perm_append_singleton s.calls _).symm
  | false =>
    have hput : s.q.put s.calls data false place =
        (s.q.pend ⟨s.calls, .source data⟩ place, []) := by
      simp [Msgq.put, if_neg hroom]
    rw [step, hput]
    exact ⟨spec, h.pend _ _ rfl (Or.inr ⟨rfl, hfull⟩)⟩

theorem Inv.get {s : MsgqSys b} (h : s.Inv spec) (room : MsgqData b)
    (noWait : Bool) (place : ℕ) : ∃ spec', (s.step (.get room noWait place)).Inv spec' := by
  obtain ⟨r, hr⟩ := h.ring
  have hpos := b.maxMsgs_pos
  by_cases hused : 0 < s.q.usedMsgs
  · obtain ⟨rest, hmsgs, hrest⟩ := hr.dequeue hused
    obtain ⟨p, pending, hpending, rfl⟩ : ∃ p pending, spec.pending = p :: pending ∧
        pending.map Prod.snd = rest := by
      obtain ⟨p, pending, hp, -, hrest⟩ := map_eq_cons_iff.mp hmsgs
      exact ⟨p, pending, hp, hrest⟩
    have hfront : s.q.front = p.2 := by
      rw [hpending, map_cons] at hmsgs
      exact (List.cons.inj hmsgs).1.symm
    cases hq : s.q.waitQ with
    | nil =>
      have hget : s.q.get s.calls room noWait place =
          (s.q.dequeue, [.get s.calls (some p.2) 0]) := by
        simp only [Msgq.get, if_pos hused, hq, hfront]
      rw [step, hget]
      refine ⟨⟨pending, spec.done ++ [(p, .received s.calls)]⟩,
        h.after [s.calls] ?_ ⟨_, hrest⟩ (Or.inl ?_) ?_ (by simp) (by simp) (by omega)⟩
      · simp [MsgqSpec.replay, MsgqSpec.apply, hpending]
      · simp [Msgq.dequeue, hq]
      · simp [Msgq.dequeue, hq, MsgqEvent.call?]
    | cons w ws =>
      -- the first thread is a writer, and its message takes the place that came free
      have hmem : w ∈ s.q.waitQ := by simp [hq]
      obtain ⟨hwriters, hfull⟩ : (∀ v ∈ s.q.waitQ, v.isReader = false ∧
          s.q.usedMsgs = b.maxMsgs) ∧ s.q.usedMsgs = b.maxMsgs := by
        rcases h.waiters with hw | hw
        · have := (hw w hmem).2
          omega
        · exact ⟨hw, (hw w hmem).2⟩
      have hget : s.q.get s.calls room noWait place =
          ({ s.q.dequeue.enqueue w.bytes with waitQ := ws },
            [.get s.calls (some p.2) 0, .put w.call w.bytes 0]) := by
        simp [Msgq.get, if_pos hused, hq, hfront, send, (hwriters w hmem).1]
      have hroom : s.q.dequeue.usedMsgs < b.maxMsgs := by
        change s.q.usedMsgs - 1 < _
        omega
      have hused' : s.q.usedMsgs - 1 + 1 = b.maxMsgs := by omega
      rw [step, hget]
      refine ⟨⟨pending ++ [(w.call, w.bytes)], spec.done ++ [(p, .received s.calls)]⟩,
        h.after [s.calls] ?_ ⟨(r + 1) % b.maxMsgs, ?_⟩ (Or.inr ?_) ?_ (by simp) (by simp)
          (by omega)⟩
      · simp [MsgqSpec.replay, MsgqSpec.apply, hpending]
      · rw [map_append]
        exact (hrest.enqueue w.length_bytes hroom).congr rfl rfl rfl rfl
      · exact fun v hv => ⟨(hwriters v (by rw [hq]; exact mem_cons_of_mem _ hv)).1, hused'⟩
      · simp only [hq, filterMap_cons, filterMap_nil, MsgqEvent.call?, map_cons]
        exact (perm_append_singleton _ (w.call :: ws.map call)).symm
  have hempty : s.q.usedMsgs = 0 := by omega
  cases noWait with
  | true =>
    have hget : s.q.get s.calls room true place = (s.q, [.get s.calls none (-ENOMSG)]) := by
      simp [Msgq.get, if_neg hused]
    rw [step, hget]
    refine ⟨spec, h.after [s.calls] rfl ⟨r, hr⟩ h.waiters ?_ (by simp) (by simp) (by omega)⟩
    simpa [MsgqEvent.call?] using (perm_append_singleton s.calls _).symm
  | false =>
    have hget : s.q.get s.calls room false place =
        (s.q.pend ⟨s.calls, .dest room⟩ place, []) := by
      simp [Msgq.get, if_neg hused]
    rw [step, hget]
    exact ⟨spec, h.pend _ _ rfl (Or.inl ⟨rfl, hempty⟩)⟩

theorem replay_fail (spec : MsgqSpec) (ws : List (Waiter b)) {err : ℤ} (herr : err ≠ 0) :
    spec.replay (ws.map (·.fail err)) = some spec := by
  induction ws with
  | nil => rfl
  | cons w ws ih =>
    have happly : spec.apply (w.fail err) = some spec := by
      rw [fail]
      split <;> simp [MsgqSpec.apply, herr]
    rw [map_cons, MsgqSpec.replay, happly]
    exact ih

theorem filterMap_call?_fail (ws : List (Waiter b)) (err : ℤ) :
    (ws.map (·.fail err)).filterMap MsgqEvent.call? = ws.map call := by
  rw [filterMap_map, ← filterMap_eq_map]
  refine filterMap_congr fun w _ => ?_
  simp only [Function.comp, fail]
  split <;> rfl

theorem Inv.purge {s : MsgqSys b} (h : s.Inv spec) : ∃ spec', (s.step .purge).Inv spec' := by
  obtain ⟨r, hr⟩ := h.ring
  refine ⟨⟨[], spec.done ++ spec.pending.map (·, .purged)⟩,
    h.after [] ?_ ⟨_, hr.purge⟩ (Or.inl (by simp [Msgq.purge])) ?_ (by simp) (by simp) le_rfl⟩
  · rw [Msgq.purge, MsgqSpec.replay_append, replay_fail _ _ (by decide)]
    rfl
  · change (List.filterMap MsgqEvent.call? (s.q.waitQ.map (fail · (-ENOMSG)) ++
      [MsgqEvent.purge]) ++ []).Perm _
    rw [filterMap_append, filterMap_call?_fail, append_nil]
    exact List.Perm.refl _

theorem eraseIdx_perm {s : MsgqSys b} {place : ℕ} {w : Waiter b} (hw : s.q.waitQ[place]? = some w) :
    (w :: s.q.waitQ.eraseIdx place).Perm s.q.waitQ := by
  obtain ⟨hlt, rfl⟩ := List.getElem?_eq_some_iff.mp hw
  exact getElem_cons_eraseIdx_perm hlt

theorem Inv.timeout {s : MsgqSys b} (h : s.Inv spec) (place : ℕ) :
    (s.step (.timeout place)).Inv spec := by
  obtain ⟨r, hr⟩ := h.ring
  rcases hw : s.q.waitQ[place]? with _ | w
  · have hstep : s.q.timeout place = (s.q, []) := by simp only [Msgq.timeout, hw]
    rw [step, hstep]
    exact h.after [] rfl ⟨r, hr⟩ h.waiters (by simp) (by simp) (by simp) le_rfl
  have hstep : s.q.timeout place =
      ({ s.q with waitQ := s.q.waitQ.eraseIdx place }, [w.fail (-EAGAIN)]) := by
    simp only [Msgq.timeout, hw]
  rw [step, hstep]
  refine h.after [] (replay_fail spec [w] (by decide))
    ⟨r, hr.congr rfl rfl rfl rfl⟩ ?_ ?_ (by simp) (by simp) le_rfl
  · exact h.waiters.imp (fun hall v hv => hall v (mem_of_mem_eraseIdx hv))
      fun hall v hv => hall v (mem_of_mem_eraseIdx hv)
  · have hids := filterMap_call?_fail [w] (-EAGAIN)
    simp only [map_cons, map_nil] at hids
    rw [hids, append_nil]
    exact (eraseIdx_perm hw).map call

theorem Inv.reorder {s : MsgqSys b} (h : s.Inv spec) (place place' : ℕ) :
    (s.step (.reorder place place')).Inv spec := by
  obtain ⟨r, hr⟩ := h.ring
  rcases hw : s.q.waitQ[place]? with _ | w
  · have hstep : s.step (.reorder place place') = s := by simp only [step, hw]
    rw [hstep]
    exact h
  have hstep : s.step (.reorder place place') =
      s.after (({ s.q with waitQ := s.q.waitQ.eraseIdx place }).pend w place', []) s.calls := by
    simp only [step, hw]
  rw [hstep]
  have hperm : (({ s.q with waitQ := s.q.waitQ.eraseIdx place } : Msgq b).pend w place').waitQ.Perm
      s.q.waitQ :=
    (perm_insertIdx w _ (Nat.min_le_right _ _)).trans (eraseIdx_perm hw)
  refine h.after [] rfl ⟨r, hr.congr rfl rfl rfl rfl⟩ ?_ ?_ (by simp) (by simp) le_rfl
  · exact h.waiters.imp (fun hall v hv => hall v (hperm.mem_iff.mp hv))
      fun hall v hv => hall v (hperm.mem_iff.mp hv)
  · rw [append_nil]
    exact hperm.map call

/-- **Every step keeps the invariant.** -/
theorem Inv.step {s : MsgqSys b} (h : s.Inv spec) (op : MsgqOp b) :
    ∃ spec', (s.step op).Inv spec' := by
  cases op with
  | put data noWait place => exact h.put data noWait place
  | get room noWait place => exact h.get room noWait place
  | purge => exact h.purge
  | timeout place => exact ⟨spec, h.timeout place⟩
  | reorder place place' => exact ⟨spec, h.reorder place place'⟩

theorem Inv.run (ops : List (MsgqOp b)) : ∀ {s : MsgqSys b} {spec : MsgqSpec}, s.Inv spec →
    ∃ spec', (s.run ops).Inv spec' := by
  induction ops with
  | nil => exact fun h => ⟨_, h⟩
  | cons op ops ih =>
    intro s spec h
    obtain ⟨spec', h'⟩ := h.step op
    exact ih h'

end MsgqSys

end TlZephyr
