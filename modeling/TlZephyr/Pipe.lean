import TlZephyr.RingBuf

/-!
# Pipe

Model of `pipe.c` over the ring buffer of `TlZephyr.RingBuf`. A step is a section under
the pipe's lock: one turn of the loop of `k_pipe_write` or `k_pipe_read`, from taking the lock
to the return or to the point where the thread pends, or a timeout, a reset, a close. A call
that pends is kept with what it has transferred so far on the wait queue it pends on, and once
woken with the result of that until its thread runs again. A writer that finds the pipe empty
copies straight into the buffers of pended readers.
-/

namespace TlZephyr

open Memory List

/-- A call of `k_pipe_read`: the length asked for and the bytes received so far
(`struct pipe_buf_spec`). -/
structure ReadCall where
  thread : ℕ
  len : ℕ
  buf : List UInt8

/-- A call of `k_pipe_write`: the bytes to write and how many of them have been. -/
structure WriteCall where
  thread : ℕ
  data : List UInt8
  written : ℕ

/-- `struct k_pipe`, with the calls pended on `data` and on `space`, and those woken. -/
structure Pipe where
  waiting : ℕ
  buf : RingBuf
  isOpen : Bool
  resetting : Bool
  data : List ReadCall
  space : List WriteCall
  wokenReaders : List (ReadCall × ℤ)
  wokenWriters : List (WriteCall × ℤ)

/-- What a call returned. A call is shorter than `2 ^ 31` bytes. -/
inductive PipeEvent
  | write (thread : ℕ) (data : List UInt8) (rc : ℤ)
  | read (thread : ℕ) (buf : List UInt8) (rc : ℤ)

/-- `copy_to_pending_readers`: the queue after, the readers satisfied, and the bytes copied. -/
def copyToPendingReaders : List ReadCall → List UInt8 → List ReadCall × List ReadCall × ℕ
  | [], _ => ([], [], 0)
  | r :: rs, bytes =>
    let copySize := min bytes.length (r.len - r.buf.length)
    let r' : ReadCall := { r with buf := r.buf ++ bytes.take copySize }
    if r'.buf.length < r.len then (r' :: rs, [], copySize)
    else if copySize < bytes.length then
      let rest := copyToPendingReaders rs (bytes.drop copySize)
      (rest.1, r' :: rest.2.1, copySize + rest.2.2)
    else (rs, [r'], copySize)

namespace Pipe

/-- `k_pipe_init`. -/
def init (size : ℕ) (buffer : Mem) : Pipe :=
  ⟨0, RingBuf.init size buffer, true, false, [], [], [], []⟩

/-- `z_sched_wake_all` on `data`. -/
def wakeReaders (p : Pipe) : Pipe :=
  { p with data := [], wokenReaders := p.wokenReaders ++ p.data.map (·, 0) }

/-- `z_sched_wake_all` on `space`. -/
def wakeWriters (p : Pipe) : Pipe :=
  { p with space := [], wokenWriters := p.wokenWriters ++ p.space.map (·, 0) }

/-- Whether a writer copies straight to pended readers. -/
def direct (coherence : Bool) (p : Pipe) : Bool :=
  p.buf.isEmpty && !coherence && p.waiting != 0

/-- A writer at an empty pipe. With `CONFIG_KERNEL_COHERENCE` it wakes all readers, else it copies
to them. -/
def deliver (coherence : Bool) (p : Pipe) (c : WriteCall) : Pipe × WriteCall :=
  if p.direct coherence then
    let r := copyToPendingReaders p.data (c.data.drop c.written)
    ({ p with data := r.1, wokenReaders := p.wokenReaders ++ r.2.1.map (·, 0) },
      { c with written := c.written + r.2.2 })
  else if p.buf.isEmpty && coherence then (p.wakeReaders, c)
  else (p, c)

def fill (p : Pipe) (c : WriteCall) : Pipe × WriteCall :=
  let r := p.buf.putBytes (c.data.drop c.written)
  ({ p with buf := r.2 }, { c with written := c.written + r.1 })

/-- End of a writer's turn: it returns, or pends on `space` unless its time is up. -/
def endWrite (p : Pipe) (c : WriteCall) (expired : Bool) (place : ℕ) : Pipe × List PipeEvent :=
  if c.written = c.data.length then (p, [.write c.thread c.data c.written])
  else if expired then
    (p, [.write c.thread c.data (if c.written ≠ 0 then c.written else -EAGAIN)])
  else
    ({ p with
        waiting := p.waiting + 1
        space := p.space.insertIdx (min place p.space.length) c }, [])

/-- One turn of the loop of `z_impl_k_pipe_write`. -/
def writeTurn (coherence : Bool) (p : Pipe) (c : WriteCall) (expired : Bool) (place : ℕ) :
    Pipe × List PipeEvent :=
  if p.isOpen = false then (p, [.write c.thread c.data (-EPIPE)])
  else
    let d := p.deliver coherence c
    if p.direct coherence ∧ d.2.data.length ≤ d.2.written then
      (d.1, [.write c.thread c.data d.2.written])
    else
      let f := d.1.fill d.2
      f.1.endWrite f.2 expired place

/-- A reader wakes the writers of a full pipe and takes what is there. -/
def drain (p : Pipe) (c : ReadCall) : Pipe × ReadCall :=
  let p := if p.buf.spaceGet = 0 then p.wakeWriters else p
  let r := p.buf.getBytes (c.len - c.buf.length)
  ({ p with buf := r.2 }, { c with buf := c.buf ++ r.1 })

def endRead (p : Pipe) (c : ReadCall) (expired : Bool) (place : ℕ) : Pipe × List PipeEvent :=
  if c.buf.length = c.len then (p, [.read c.thread c.buf c.buf.length])
  else if p.isOpen = false then
    (p, [.read c.thread c.buf (if c.buf.length ≠ 0 then c.buf.length else -EPIPE)])
  else if expired then
    (p, [.read c.thread c.buf (if c.buf.length ≠ 0 then c.buf.length else -EAGAIN)])
  else
    ({ p with
        waiting := p.waiting + 1
        data := p.data.insertIdx (min place p.data.length) c }, [])

/-- One turn of the loop of `z_impl_k_pipe_read`. -/
def readTurn (p : Pipe) (c : ReadCall) (expired : Bool) (place : ℕ) : Pipe × List PipeEvent :=
  let d := p.drain c
  d.1.endRead d.2 expired place

/-- Lines of `wait_for` behind `z_pend_curr`: the pipe and the result. -/
def waited (p : Pipe) (rc : ℤ) : Pipe × ℤ :=
  let waiting := p.waiting - 1
  if p.resetting then
    ({ p with waiting := waiting, resetting := waiting != 0 }, -ECANCELED)
  else ({ p with waiting := waiting }, rc)

def resumeWriter (coherence : Bool) (p : Pipe) (place : ℕ) (expired : Bool) (place' : ℕ) :
    Pipe × List PipeEvent :=
  match p.wokenWriters[place]? with
  | none => (p, [])
  | some (c, rc) =>
    let w := Pipe.waited { p with wokenWriters := p.wokenWriters.eraseIdx place } rc
    if w.2 = 0 then w.1.writeTurn coherence c expired place'
    else if w.2 = -EAGAIN then
      (w.1, [.write c.thread c.data (if c.written ≠ 0 then c.written else -EAGAIN)])
    else (w.1, [.write c.thread c.data w.2])

def resumeReader (p : Pipe) (place : ℕ) (expired : Bool) (place' : ℕ) : Pipe × List PipeEvent :=
  match p.wokenReaders[place]? with
  | none => (p, [])
  | some (c, rc) =>
    let w := Pipe.waited { p with wokenReaders := p.wokenReaders.eraseIdx place } rc
    if w.2 = 0 then w.1.readTurn c expired place'
    else if w.2 = -EAGAIN then
      (w.1, [.read c.thread c.buf (if c.buf.length ≠ 0 then c.buf.length else -EAGAIN)])
    else (w.1, [.read c.thread c.buf w.2])

/-- First turn of `z_impl_k_pipe_write`. -/
def write (coherence : Bool) (p : Pipe) (thread : ℕ) (data : List UInt8) (expired : Bool)
    (place : ℕ) : Pipe × List PipeEvent :=
  if p.resetting then (p, [.write thread data (-ECANCELED)])
  else p.writeTurn coherence ⟨thread, data, 0⟩ expired place

/-- First turn of `z_impl_k_pipe_read`. -/
def read (p : Pipe) (thread len : ℕ) (expired : Bool) (place : ℕ) : Pipe × List PipeEvent :=
  if p.resetting then (p, [.read thread [] (-ECANCELED)])
  else p.readTurn ⟨thread, len, []⟩ expired place

def timeoutWriter (p : Pipe) (place : ℕ) : Pipe :=
  match p.space[place]? with
  | none => p
  | some c =>
    { p with
      space := p.space.eraseIdx place
      wokenWriters := p.wokenWriters ++ [(c, -EAGAIN)] }

def timeoutReader (p : Pipe) (place : ℕ) : Pipe :=
  match p.data[place]? with
  | none => p
  | some c =>
    { p with
      data := p.data.eraseIdx place
      wokenReaders := p.wokenReaders ++ [(c, -EAGAIN)] }

/-- `z_impl_k_pipe_reset`. -/
def reset (p : Pipe) : Pipe :=
  let p := { p with buf := RingBuf.init p.buf.size p.buf.buffer }
  if p.waiting ≠ 0 then { p.wakeReaders.wakeWriters with resetting := true } else p

/-- `z_impl_k_pipe_close`. -/
def close (p : Pipe) : Pipe :=
  ({ p with isOpen := false, resetting := false }).wakeReaders.wakeWriters

def inside (p : Pipe) (thread : ℕ) : Bool :=
  (p.data ++ p.wokenReaders.map Prod.fst).any (·.thread = thread) ||
    (p.space ++ p.wokenWriters.map Prod.fst).any (·.thread = thread)

end Pipe

/-- One section under the lock. `expired` is for the time limit, `place` for the wait queue. -/
inductive PipeOp
  | write (thread : ℕ) (data : List UInt8) (expired : Bool) (place : ℕ)
  | read (thread len : ℕ) (expired : Bool) (place : ℕ)
  | resumeWriter (which : ℕ) (expired : Bool) (place : ℕ)
  | resumeReader (which : ℕ) (expired : Bool) (place : ℕ)
  | timeoutWriter (which : ℕ)
  | timeoutReader (which : ℕ)
  | reset
  | close

structure PipeSys where
  pipe : Pipe
  events : List PipeEvent

namespace PipeSys

def init (size : ℕ) (buffer : Mem) : PipeSys := ⟨Pipe.init size buffer, []⟩

def after (s : PipeSys) (r : Pipe × List PipeEvent) : PipeSys := ⟨r.1, s.events ++ r.2⟩

theorem after_pipe (s : PipeSys) (r : Pipe × List PipeEvent) : (s.after r).pipe = r.1 := rfl

theorem after_events (s : PipeSys) (r : Pipe × List PipeEvent) :
    (s.after r).events = s.events ++ r.2 := rfl

def step (coherence : Bool) (s : PipeSys) : PipeOp → PipeSys
  | .write thread data expired place =>
    if s.pipe.inside thread then s
    else s.after (s.pipe.write coherence thread data expired place)
  | .read thread len expired place =>
    if s.pipe.inside thread then s else s.after (s.pipe.read thread len expired place)
  | .resumeWriter which expired place =>
    s.after (s.pipe.resumeWriter coherence which expired place)
  | .resumeReader which expired place => s.after (s.pipe.resumeReader which expired place)
  | .timeoutWriter which => s.after (s.pipe.timeoutWriter which, [])
  | .timeoutReader which => s.after (s.pipe.timeoutReader which, [])
  | .reset => s.after (s.pipe.reset, [])
  | .close => s.after (s.pipe.close, [])

def run (coherence : Bool) (s : PipeSys) (ops : List PipeOp) : PipeSys :=
  ops.foldl (step coherence) s

end PipeSys

/-! ### Waiting -/

namespace Pipe

def readCalls (p : Pipe) : List ReadCall := p.data ++ p.wokenReaders.map Prod.fst

def writeCalls (p : Pipe) : List WriteCall := p.space ++ p.wokenWriters.map Prod.fst

/-- Invariant of an open pipe whose buffer holds `bytes`. -/
structure Inv (p : Pipe) (bytes : List UInt8) : Prop where
  holds : p.buf.Holds bytes
  isOpen : p.isOpen = true
  resetting : p.resetting = false
  waiting : p.waiting = p.readCalls.length + p.writeCalls.length
  reads : ∀ c ∈ p.readCalls, c.buf.length ≤ c.len
  writes : ∀ c ∈ p.writeCalls, c.written ≤ c.data.length
  readResults : ∀ c ∈ p.wokenReaders, c.2 = 0 ∨ c.2 = -EAGAIN
  writeResults : ∀ c ∈ p.wokenWriters, c.2 = 0 ∨ c.2 = -EAGAIN
  readers : p.data ≠ [] → bytes = []
  writers : p.space ≠ [] → bytes.length = p.buf.size

end Pipe

/-- Copying keeps every reader within its length; with bytes left every pended reader is satisfied.
-/
theorem copyToPendingReaders_spec (rs : List ReadCall) : ∀ (bytes : List UInt8) (r : _),
    copyToPendingReaders rs bytes = r →
    r.2.2 ≤ bytes.length ∧ (r.1 ++ r.2.1).length = rs.length ∧
      ((∀ c ∈ rs, c.buf.length ≤ c.len) → ∀ c ∈ r.1 ++ r.2.1, c.buf.length ≤ c.len) ∧
      (r.2.2 < bytes.length → r.1 = []) := by
  induction rs with
  | nil =>
    rintro bytes r rfl
    exact ⟨Nat.zero_le _, rfl, fun h => h, fun _ => rfl⟩
  | cons c rs ih =>
    intro bytes r hr
    simp only [copyToPendingReaders] at hr
    generalize hn : min bytes.length (c.len - c.buf.length) = n at hr
    have hlen : (c.buf ++ bytes.take n).length = c.buf.length + n := by
      rw [length_append, length_take]
      omega
    have hkeep : c.buf.length ≤ c.len → (c.buf ++ bytes.take n).length ≤ c.len := by omega
    rw [hlen] at hr
    by_cases hmore : c.buf.length + n < c.len
    · rw [if_pos hmore] at hr
      subst hr
      refine ⟨by simp only; omega, by simp, fun h d hd => ?_, fun h => absurd h (by simp only; omega)⟩
      rw [append_nil] at hd
      rcases mem_cons.mp hd with rfl | hd
      exacts [hkeep (h c (by simp)), h d (by simp [hd])]
    rw [if_neg hmore] at hr
    by_cases hleft : n < bytes.length
    · obtain ⟨h1, h2, h3, h4⟩ := ih (bytes.drop n) _ rfl
      rw [if_pos hleft] at hr
      subst hr
      rw [length_drop] at h1 h4
      refine ⟨by simp only; omega, ?_, fun h d hd => ?_, fun h => h4 (by simp only at h; omega)⟩
      · simp only [length_append, length_cons] at h2 ⊢
        omega
      have hd' : d = { c with buf := c.buf ++ bytes.take n } ∨
          d ∈ (copyToPendingReaders rs (bytes.drop n)).1 ++
            (copyToPendingReaders rs (bytes.drop n)).2.1 := by
        simpa [or_left_comm] using hd
      rcases hd' with rfl | hd'
      · exact hkeep (h c (by simp))
      · exact h3 (fun d hd => h d (by simp [hd])) d hd'
    rw [if_neg hleft] at hr
    subst hr
    refine ⟨by simp only; omega, by simp, fun h d hd => ?_, fun h => absurd h (by simp only; omega)⟩
    rcases mem_append.mp hd with hd | hd
    · exact h d (by simp [hd])
    · obtain rfl := mem_singleton.mp hd
      exact hkeep (h c (by simp))

theorem copyToPendingReaders_single (c : ReadCall) (bytes : List UInt8) (r : _)
    (hr : copyToPendingReaders [c] bytes = r) :
    r.1 ++ r.2.1 = [{ c with buf := c.buf ++ bytes.take r.2.2 }] := by
  simp only [copyToPendingReaders] at hr
  generalize hn : min bytes.length (c.len - c.buf.length) = n at hr
  by_cases hmore : (c.buf ++ bytes.take n).length < c.len
  · rw [if_pos hmore] at hr
    subst hr
    rfl
  rw [if_neg hmore] at hr
  by_cases hleft : n < bytes.length
  · rw [if_pos hleft] at hr
    subst hr
    rfl
  · rw [if_neg hleft] at hr
    subst hr
    rfl

namespace Pipe

theorem inv_init {size : ℕ} (hsize : size < 2 ^ 31) (buffer : Mem) : (init size buffer).Inv [] :=
  ⟨RingBuf.holds_init hsize buffer, rfl, rfl, rfl, by simp [readCalls, init],
    by simp [writeCalls, init], by simp [init], by simp [init], fun h => absurd rfl h,
    fun h => absurd rfl h⟩

theorem readCalls_wakeReaders (p : Pipe) : p.wakeReaders.readCalls.Perm p.readCalls := by
  simp only [readCalls, wakeReaders, nil_append, map_append, map_map, Function.comp_def, map_id']
  exact perm_append_comm

theorem writeCalls_wakeWriters (p : Pipe) : p.wakeWriters.writeCalls.Perm p.writeCalls := by
  simp only [writeCalls, wakeWriters, nil_append, map_append, map_map, Function.comp_def, map_id']
  exact perm_append_comm

theorem deliver_data (p : Pipe) (coherence : Bool) (c : WriteCall) :
    (p.deliver coherence c).2.data = c.data := by
  rw [deliver]
  split
  · rfl
  · split <;> rfl

theorem results_append_map {α : Type*} {l : List (α × ℤ)} (h : ∀ c ∈ l, c.2 = 0 ∨ c.2 = -EAGAIN)
    (woken : List α) : ∀ c ∈ l ++ woken.map (·, (0 : ℤ)), c.2 = 0 ∨ c.2 = -EAGAIN := by
  refine forall_mem_append.mpr ⟨h, fun c hc => ?_⟩
  obtain ⟨d, -, rfl⟩ := mem_map.mp hc
  exact .inl rfl

section calls

variable {α : Type*} {queue : List α} {woken : List (α × ℤ)} {place : ℕ} {c : α} {rc : ℤ}

theorem perm_pend (queue : List α) (woken : List (α × ℤ)) (place : ℕ) (c : α) :
    (queue.insertIdx (min place queue.length) c ++ woken.map Prod.fst).Perm
      (c :: (queue ++ woken.map Prod.fst)) :=
  (perm_insertIdx c queue (Nat.min_le_right _ _)).append_right _

theorem perm_resume (queue : List α) (h : woken[place]? = some (c, rc)) :
    (queue ++ woken.map Prod.fst).Perm (c :: (queue ++ (woken.eraseIdx place).map Prod.fst)) ∧
      (c, rc) ∈ woken := by
  obtain ⟨hlt, hget⟩ := List.getElem?_eq_some_iff.mp h
  have herase : woken.Perm ((c, rc) :: woken.eraseIdx place) := by
    rw [← hget]
    exact (getElem_cons_eraseIdx_perm hlt).symm
  exact ⟨((herase.map Prod.fst).append_left queue).trans perm_middle, herase.mem_iff.mpr (by simp)⟩

theorem perm_timeout (h : queue[place]? = some c) (woken : List (α × ℤ)) (rc : ℤ) :
    (queue.eraseIdx place ++ (woken ++ [(c, rc)]).map Prod.fst).Perm
      (queue ++ woken.map Prod.fst) := by
  obtain ⟨hlt, hget⟩ := List.getElem?_eq_some_iff.mp h
  rw [map_append, map_singleton, ← append_assoc]
  refine perm_append_comm.trans ?_
  have := getElem_cons_eraseIdx_perm hlt
  rw [hget] at this
  exact this.append_right _

end calls

namespace Inv

variable {p : Pipe} {bytes : List UInt8} {coherence : Bool}

section

variable (h : p.Inv bytes)
include h

theorem wakeReaders : p.wakeReaders.Inv bytes := by
  have hperm := readCalls_wakeReaders p
  refine ⟨h.holds, h.isOpen, h.resetting, ?_, fun c hc => h.reads c (hperm.mem_iff.mp hc),
    h.writes, results_append_map h.readResults _, h.writeResults, fun h => absurd rfl h, h.writers⟩
  rw [hperm.length_eq]
  exact h.waiting

theorem wakeWriters : p.wakeWriters.Inv bytes := by
  have hperm := writeCalls_wakeWriters p
  refine ⟨h.holds, h.isOpen, h.resetting, ?_, h.reads,
    fun c hc => h.writes c (hperm.mem_iff.mp hc), h.readResults,
    results_append_map h.writeResults _, h.readers, fun h => absurd rfl h⟩
  rw [hperm.length_eq]
  exact h.waiting

/-- **After a writer has offered its bytes** no reader is left pended, unless all bytes are
gone. -/
theorem deliver (coherence : Bool) (c : WriteCall) (hc : c.written ≤ c.data.length) :
    (p.deliver coherence c).1.Inv bytes ∧ (p.deliver coherence c).1.buf = p.buf ∧
      (p.deliver coherence c).2.written ≤ c.data.length ∧
      (¬ (p.direct coherence = true ∧ c.data.length ≤ (p.deliver coherence c).2.written) →
        (p.deliver coherence c).1.data = []) := by
  by_cases hdirect : p.direct coherence = true
  · obtain ⟨hcopied, hlen, hreads, hall⟩ := copyToPendingReaders_spec p.data
      (c.data.drop c.written) _ rfl
    rw [length_drop] at hall hcopied
    rw [Pipe.deliver, if_pos hdirect]
    generalize copyToPendingReaders p.data (c.data.drop c.written) = r at hcopied hlen hreads hall
    have hempty : bytes = [] := by
      simp only [Pipe.direct, Bool.and_eq_true] at hdirect
      exact h.holds.isEmpty_iff.mp hdirect.1.1
    have hcalls : (r.1 ++ (p.wokenReaders ++ r.2.1.map (·, (0 : ℤ))).map Prod.fst).Perm
        ((r.1 ++ r.2.1) ++ p.wokenReaders.map Prod.fst) := by
      simp only [map_append, map_map, Function.comp_def, map_id', append_assoc]
      exact perm_append_comm.append_left _
    refine ⟨⟨h.holds, h.isOpen, h.resetting, ?_, fun d hd => ?_, h.writes,
      results_append_map h.readResults _, h.writeResults, fun _ => hempty, h.writers⟩, rfl, by simp only; omega, fun hmore => ?_⟩
    · have hsum := h.waiting
      simp only [readCalls, length_append] at hsum hlen ⊢
      have := hcalls.length_eq
      simp only [length_append] at this
      rw [hsum]
      simp only [writeCalls, length_append]
      omega
    · rcases mem_append.mp (hcalls.mem_iff.mp hd) with hd | hd
      · exact hreads (fun d hd => h.reads d (mem_append_left _ hd)) d hd
      · exact h.reads d (mem_append_right _ hd)
    · refine hall ?_
      simp only [hdirect, true_and, not_le] at hmore
      omega
  rw [Pipe.deliver, if_neg hdirect]
  by_cases hcoh : (p.buf.isEmpty && coherence) = true
  · rw [if_pos hcoh]
    exact ⟨h.wakeReaders, rfl, hc, fun _ => rfl⟩
  rw [if_neg hcoh]
  refine ⟨h, rfl, hc, fun _ => ?_⟩
  by_contra hne
  -- a pended reader means an empty buffer and a thread in `wait_for`
  have hempty : p.buf.isEmpty = true := h.holds.isEmpty_iff.mpr (h.readers hne)
  have hwaiting : p.waiting ≠ 0 := by
    have hpos : 0 < p.data.length := length_pos_iff.mpr hne
    have := h.waiting
    simp only [readCalls, length_append] at this
    omega
  cases coherence with
  | true => exact hcoh (by simp [hempty])
  | false => exact hdirect (by simp [Pipe.direct, hempty, hwaiting])

/-- With no reader pended the ring may be filled; a writer with bytes left has filled it. -/
theorem fill (hnone : p.data = []) (c : WriteCall) {n : ℕ}
    (hn : n = min (c.data.length - c.written) (p.buf.size - bytes.length)) :
    (p.fill c).1.Inv (bytes ++ (c.data.drop c.written).take n) ∧
      (p.fill c).1.buf.size = p.buf.size ∧ (p.fill c).2 = { c with written := c.written + n } := by
  obtain ⟨hput, hsize, hholds⟩ := h.holds.putBytes (c.data.drop c.written)
  rw [length_drop, ← hn] at hput hholds
  refine ⟨⟨hholds, h.isOpen, h.resetting, h.waiting, h.reads, h.writes, h.readResults,
    h.writeResults, fun hne => absurd hnone hne, fun hne => ?_⟩, hsize, ?_⟩
  · have hfull := h.writers hne
    change (bytes ++ _).length = (p.buf.putBytes (c.data.drop c.written)).2.size
    rw [hsize, length_append, hfull, length_take]
    omega
  · simp only [Pipe.fill, hput]

variable {c : WriteCall} {place : ℕ} {rc : ℤ}

theorem endWrite (hc : c.written ≤ c.data.length)
    (hfull : c.written ≠ c.data.length → bytes.length = p.buf.size) (expired : Bool) (place : ℕ) :
    (p.endWrite c expired place).1.Inv bytes := by
  by_cases hdone : c.written = c.data.length
  · rw [Pipe.endWrite, if_pos hdone]
    exact h
  rw [Pipe.endWrite, if_neg hdone]
  cases expired with
  | true => exact h
  | false =>
    rw [if_neg Bool.false_ne_true]
    have hperm := perm_pend p.space p.wokenWriters place c
    refine ⟨h.holds, h.isOpen, h.resetting, ?_, h.reads, fun d hd => ?_,
      h.readResults, h.writeResults, h.readers, fun _ => hfull hdone⟩
    · have := h.waiting
      simp only [writeCalls, readCalls, hperm.length_eq, length_cons] at this ⊢
      omega
    · rcases mem_cons.mp (hperm.mem_iff.mp hd) with rfl | hd
      exacts [hc, h.writes d hd]

theorem writeTurn (hc : c.written ≤ c.data.length) (expired : Bool) (place : ℕ) :
    ∃ bytes', (p.writeTurn coherence c expired place).1.Inv bytes' := by
  obtain ⟨hd, hbuf, hle, hnone⟩ := h.deliver coherence c hc
  have hdata := p.deliver_data coherence c
  rw [Pipe.writeTurn, if_neg (by simp [h.isOpen])]
  simp only [hdata]
  by_cases hall : p.direct coherence = true ∧ c.data.length ≤ (p.deliver coherence c).2.written
  · rw [if_pos hall]
    exact ⟨bytes, hd⟩
  rw [if_neg hall]
  generalize p.deliver coherence c = d at hd hbuf hle hnone hdata hall
  obtain ⟨hf, hsize, hc'⟩ := hd.fill (hnone hall) d.2 rfl
  rw [hdata] at hf hc'
  refine ⟨_, hf.endWrite ?_ ?_ expired place⟩
  · rw [hc']
    simp only
    omega
  intro hne
  rw [hc'] at hne
  simp only at hne
  have := hd.holds.length_le
  rw [hsize, length_append, length_take, length_drop]
  omega

theorem drain (c : ReadCall) :
    (p.drain c).1.Inv (bytes.drop (c.len - c.buf.length)) ∧ (p.drain c).1.space = [] ∧
      (p.drain c).2 = { c with buf := c.buf ++ bytes.take (c.len - c.buf.length) } := by
  -- whether or not the pipe is full, no writer is pended any more
  obtain ⟨q, hq, hqi, hspace, hqbuf⟩ : ∃ q, q = (if p.buf.spaceGet = 0 then p.wakeWriters else p) ∧
      q.Inv bytes ∧ q.space = [] ∧ q.buf = p.buf := by
    by_cases hfull : p.buf.spaceGet = 0
    · exact ⟨_, rfl, by rw [if_pos hfull]; exact h.wakeWriters, by rw [if_pos hfull]; rfl,
        by rw [if_pos hfull]; rfl⟩
    refine ⟨_, rfl, by rw [if_neg hfull]; exact h, ?_, by rw [if_neg hfull]⟩
    rw [if_neg hfull]
    by_contra hne
    have := h.writers hne
    rw [h.holds.spaceGet] at hfull
    omega
  obtain ⟨hget, hsize, hholds⟩ := hqi.holds.getBytes (c.len - c.buf.length)
  have hdrain : p.drain c = ({ q with buf := (q.buf.getBytes (c.len - c.buf.length)).2 },
      { c with buf := c.buf ++ (q.buf.getBytes (c.len - c.buf.length)).1 }) := by
    rw [Pipe.drain, hq]
  rw [hdrain, hget]
  refine ⟨⟨hholds, hqi.isOpen, hqi.resetting, hqi.waiting, hqi.reads, hqi.writes,
    hqi.readResults, hqi.writeResults, fun hne => ?_, fun hne => absurd hspace hne⟩, hspace, rfl⟩
  rw [hqi.readers hne, drop_nil]

theorem endRead {c : ReadCall} (hc : c.buf.length ≤ c.len)
    (hempty : c.buf.length ≠ c.len → bytes = []) (expired : Bool) (place : ℕ) :
    (p.endRead c expired place).1.Inv bytes := by
  by_cases hdone : c.buf.length = c.len
  · rw [Pipe.endRead, if_pos hdone]
    exact h
  rw [Pipe.endRead, if_neg hdone, if_neg (by simp [h.isOpen])]
  cases expired with
  | true => exact h
  | false =>
    rw [if_neg Bool.false_ne_true]
    have hperm := perm_pend p.data p.wokenReaders place c
    refine ⟨h.holds, h.isOpen, h.resetting, ?_, fun d hd => ?_, h.writes,
      h.readResults, h.writeResults, fun _ => hempty hdone, h.writers⟩
    · have := h.waiting
      simp only [writeCalls, readCalls, hperm.length_eq, length_cons] at this ⊢
      omega
    · rcases mem_cons.mp (hperm.mem_iff.mp hd) with rfl | hd
      exacts [hc, h.reads d hd]

theorem readTurn {c : ReadCall} (hc : c.buf.length ≤ c.len) (expired : Bool)
    (place : ℕ) : (p.readTurn c expired place).1.Inv (bytes.drop (c.len - c.buf.length)) := by
  obtain ⟨hd, -, hc'⟩ := h.drain c
  rw [Pipe.readTurn]
  refine hd.endRead ?_ ?_ expired place
  · rw [hc']
    simp only [length_append, length_take]
    omega
  · intro hne
    rw [hc'] at hne
    simp only [length_append, length_take] at hne
    exact drop_of_length_le (by omega)

theorem waitedWriter (hc : p.wokenWriters[place]? = some (c, rc)) :
    ∃ q, Pipe.waited { p with wokenWriters := p.wokenWriters.eraseIdx place } rc = (q, rc) ∧
      q.Inv bytes ∧ q.readCalls = p.readCalls ∧ p.writeCalls.Perm (c :: q.writeCalls) ∧
      c.written ≤ c.data.length ∧ (rc = 0 ∨ rc = -EAGAIN) := by
  obtain ⟨hperm, hmem⟩ := perm_resume p.space hc
  refine ⟨{ p with
    wokenWriters := p.wokenWriters.eraseIdx place
    waiting := p.waiting - 1 }, ?_, ⟨h.holds, h.isOpen, h.resetting, ?_, h.reads,
      fun d hd => h.writes d (hperm.mem_iff.mpr (mem_cons_of_mem _ hd)), h.readResults,
      fun d hd => h.writeResults d (mem_of_mem_eraseIdx hd), h.readers, h.writers⟩,
    rfl, hperm, h.writes c (hperm.mem_iff.mpr (by simp)), h.writeResults _ hmem⟩
  · simp [Pipe.waited, h.resetting]
  · have := h.waiting
    simp only [writeCalls, readCalls, hperm.length_eq, length_cons] at this ⊢
    omega

theorem waitedReader {c : ReadCall} (hc : p.wokenReaders[place]? = some (c, rc)) :
    ∃ q, Pipe.waited { p with wokenReaders := p.wokenReaders.eraseIdx place } rc = (q, rc) ∧
      q.Inv bytes ∧ q.writeCalls = p.writeCalls ∧ p.readCalls.Perm (c :: q.readCalls) ∧
      c.buf.length ≤ c.len ∧ (rc = 0 ∨ rc = -EAGAIN) := by
  obtain ⟨hperm, hmem⟩ := perm_resume p.data hc
  refine ⟨{ p with
    wokenReaders := p.wokenReaders.eraseIdx place
    waiting := p.waiting - 1 }, ?_, ⟨h.holds, h.isOpen, h.resetting, ?_,
      fun d hd => h.reads d (hperm.mem_iff.mpr (mem_cons_of_mem _ hd)), h.writes,
      fun d hd => h.readResults d (mem_of_mem_eraseIdx hd), h.writeResults, h.readers,
      h.writers⟩, rfl, hperm, h.reads c (hperm.mem_iff.mpr (by simp)), h.readResults _ hmem⟩
  · simp [Pipe.waited, h.resetting]
  · have := h.waiting
    simp only [writeCalls, readCalls, hperm.length_eq, length_cons] at this ⊢
    omega

theorem timeoutWriter (place : ℕ) :
    (p.timeoutWriter place).Inv bytes ∧ (p.timeoutWriter place).readCalls = p.readCalls ∧
      (p.timeoutWriter place).writeCalls.Perm p.writeCalls := by
  rcases hc : p.space[place]? with _ | c
  · simp only [Pipe.timeoutWriter, hc]
    exact ⟨h, trivial, .refl _⟩
  have hperm := perm_timeout hc p.wokenWriters (-EAGAIN)
  simp only [Pipe.timeoutWriter, hc]
  refine ⟨⟨h.holds, h.isOpen, h.resetting, ?_, h.reads,
    fun d hd => h.writes d (hperm.mem_iff.mp hd), h.readResults,
    forall_mem_append.mpr ⟨h.writeResults, by simp⟩, h.readers,
    fun hne => h.writers fun hnil => hne ?_⟩, rfl, hperm⟩
  · have := h.waiting
    rw [writeCalls, ← hperm.length_eq] at this
    exact this
  · simp only [hnil, eraseIdx_nil]

theorem timeoutReader (place : ℕ) :
    (p.timeoutReader place).Inv bytes ∧ (p.timeoutReader place).writeCalls = p.writeCalls ∧
      (p.timeoutReader place).readCalls.Perm p.readCalls := by
  rcases hc : p.data[place]? with _ | c
  · simp only [Pipe.timeoutReader, hc]
    exact ⟨h, trivial, .refl _⟩
  have hperm := perm_timeout hc p.wokenReaders (-EAGAIN)
  simp only [Pipe.timeoutReader, hc]
  refine ⟨⟨h.holds, h.isOpen, h.resetting, ?_, fun d hd => h.reads d (hperm.mem_iff.mp hd),
    h.writes, forall_mem_append.mpr ⟨h.readResults, by simp⟩, h.writeResults,
    fun hne => h.readers fun hnil => hne ?_, h.writers⟩, rfl, hperm⟩
  · have := h.waiting
    rw [readCalls, ← hperm.length_eq] at this
    exact this
  · simp only [hnil, eraseIdx_nil]

variable (which : ℕ) (expired : Bool)

theorem resumeWriter (place : ℕ) :
    ∃ bytes', (p.resumeWriter coherence which expired place).1.Inv bytes' := by
  rcases hc : p.wokenWriters[which]? with _ | ⟨c, rc⟩
  · simp only [Pipe.resumeWriter, hc]
    exact ⟨bytes, h⟩
  obtain ⟨q, hq, hqi, -, -, hle, hrc⟩ := h.waitedWriter hc
  simp only [Pipe.resumeWriter, hc, hq]
  rcases hrc with rfl | rfl
  · rw [if_pos rfl]
    exact hqi.writeTurn hle expired place
  · rw [if_neg (by decide), if_pos rfl]
    exact ⟨bytes, hqi⟩

theorem resumeReader (place : ℕ) : ∃ bytes', (p.resumeReader which expired place).1.Inv bytes' := by
  rcases hc : p.wokenReaders[which]? with _ | ⟨c, rc⟩
  · simp only [Pipe.resumeReader, hc]
    exact ⟨bytes, h⟩
  obtain ⟨q, hq, hqi, -, -, hle, hrc⟩ := h.waitedReader hc
  simp only [Pipe.resumeReader, hc, hq]
  rcases hrc with rfl | rfl
  · rw [if_pos rfl]
    exact ⟨_, hqi.readTurn hle expired place⟩
  · rw [if_neg (by decide), if_pos rfl]
    exact ⟨bytes, hqi⟩

end

end Inv

end Pipe

/-- Every section but those of `k_pipe_reset` and `k_pipe_close`. -/
def PipeOp.KeepsOpen : PipeOp → Prop
  | .reset => False
  | .close => False
  | _ => True

variable {s : PipeSys} {bytes : List UInt8} {α : Type*}

/-- **One section** other than a reset or a close keeps the invariant. -/
theorem Pipe.Inv.step {coherence : Bool} (h : s.pipe.Inv bytes) (op : PipeOp) (hop : op.KeepsOpen) :
    ∃ bytes', (s.step coherence op).pipe.Inv bytes' := by
  cases op with
  | write thread data expired place =>
    by_cases hin : s.pipe.inside thread = true
    · rw [PipeSys.step, if_pos hin]
      exact ⟨bytes, h⟩
    · rw [PipeSys.step, if_neg hin, PipeSys.after_pipe, Pipe.write, if_neg (by simp [h.resetting])]
      exact h.writeTurn (Nat.zero_le _) expired place
  | read thread len expired place =>
    by_cases hin : s.pipe.inside thread = true
    · rw [PipeSys.step, if_pos hin]
      exact ⟨bytes, h⟩
    · rw [PipeSys.step, if_neg hin, PipeSys.after_pipe, Pipe.read, if_neg (by simp [h.resetting])]
      exact ⟨_, h.readTurn (Nat.zero_le _) expired place⟩
  | resumeWriter which expired place =>
    rw [PipeSys.step, PipeSys.after_pipe]
    exact h.resumeWriter which expired place
  | resumeReader which expired place =>
    rw [PipeSys.step, PipeSys.after_pipe]
    exact h.resumeReader which expired place
  | timeoutWriter which =>
    rw [PipeSys.step, PipeSys.after_pipe]
    exact ⟨bytes, (h.timeoutWriter which).1⟩
  | timeoutReader which =>
    rw [PipeSys.step, PipeSys.after_pipe]
    exact ⟨bytes, (h.timeoutReader which).1⟩
  | reset => exact hop.elim
  | close => exact hop.elim

theorem Pipe.Inv.run (h : s.pipe.Inv bytes)
    (coherence : Bool) (ops : List PipeOp) (hops : ∀ op ∈ ops, op.KeepsOpen) :
    ∃ bytes', (s.run coherence ops).pipe.Inv bytes' := by
  induction ops generalizing s bytes with
  | nil => exact ⟨_, h⟩
  | cons op ops ih =>
    obtain ⟨bytes', h'⟩ := h.step op (hops op (by simp))
    exact ih h' fun op' hop' => hops op' (by simp [hop'])

/-! ### Stream -/

namespace PipeEvent

def reported : PipeEvent → List UInt8
  | .write _ data rc => data.take rc.toNat
  | .read _ _ _ => []

def returned : PipeEvent → List UInt8
  | .write _ _ _ => []
  | .read _ buf rc => buf.take rc.toNat

end PipeEvent

theorem toNat_count_or_again (n : ℕ) : (if n ≠ 0 then (n : ℤ) else -EAGAIN).toNat = n := by
  by_cases hn : n = 0
  · subst hn
    decide
  · rw [if_pos hn, Int.toNat_natCast]

theorem perm_eq_of_length_le_one {l l' : List α} (h : l.Perm l')
    (hlen : l'.length ≤ 1) : l = l' := by
  rcases l' with _ | ⟨x, _ | ⟨y, l'⟩⟩
  · exact h.eq_nil
  · exact perm_singleton.mp h
  · simp at hlen

theorem eq_singleton_of_perm_cons {l l' : List α} {c : α} (h : l.Perm (c :: l'))
    (hlen : l.length ≤ 1) : l = [c] ∧ l' = [] := by
  rw [h.length_eq, length_cons] at hlen
  obtain rfl : l' = [] := length_eq_zero_iff.mp (by omega)
  exact ⟨perm_singleton.mp h, rfl⟩

namespace Pipe

/-- The bytes the reads in progress have received. -/
def received (p : Pipe) : List UInt8 := p.readCalls.flatMap ReadCall.buf

/-- Bytes taken over from the writes in progress. -/
def takenOver (p : Pipe) : List UInt8 := p.writeCalls.flatMap fun c => c.data.take c.written

/-- Between one writer and one reader: what came out, what a read has received and what is buffered
are what was reported written and what a write has handed in. -/
structure Stream (w r : ℕ) (returned reported : List UInt8) (p : Pipe) (bytes : List UInt8) :
    Prop where
  inv : p.Inv bytes
  oneRead : p.readCalls.length ≤ 1
  oneWrite : p.writeCalls.length ≤ 1
  reader : ∀ c ∈ p.readCalls, c.thread = r
  writer : ∀ c ∈ p.writeCalls, c.thread = w
  flow : returned ++ p.received ++ bytes = reported ++ p.takenOver

def StreamAfter (w r : ℕ) (returned reported : List UInt8) (o : Pipe × List PipeEvent)
    (bytes : List UInt8) : Prop :=
  Stream w r (returned ++ o.2.flatMap PipeEvent.returned)
    (reported ++ o.2.flatMap PipeEvent.reported) o.1 bytes

/-- The same while the writer runs its call `c`. -/
structure Writing (w r : ℕ) (returned reported : List UInt8) (p : Pipe) (bytes : List UInt8)
    (c : WriteCall) : Prop where
  inv : p.Inv bytes
  written : c.written ≤ c.data.length
  thread : c.thread = w
  oneRead : p.readCalls.length ≤ 1
  noWrite : p.writeCalls = []
  reader : ∀ c ∈ p.readCalls, c.thread = r
  flow : returned ++ p.received ++ bytes = reported ++ c.data.take c.written

/-- The same while the reader runs its call `c`. -/
structure Reading (w r : ℕ) (returned reported : List UInt8) (p : Pipe) (bytes : List UInt8)
    (c : ReadCall) : Prop where
  inv : p.Inv bytes
  received : c.buf.length ≤ c.len
  thread : c.thread = r
  noRead : p.readCalls = []
  oneWrite : p.writeCalls.length ≤ 1
  writer : ∀ c ∈ p.writeCalls, c.thread = w
  flow : returned ++ c.buf ++ bytes = reported ++ p.takenOver

variable {w r : ℕ} {returned reported bytes : List UInt8} {p : Pipe}

namespace Writing

variable {c : WriteCall} {coherence : Bool}

section

variable (h : Writing w r returned reported p bytes c)
include h

theorem done {thread : ℕ} {rc : ℤ} {data : List UInt8} (hdata : c.data = data)
    (hrc : rc.toNat = c.written) :
    StreamAfter w r returned reported (p, [.write thread data rc]) bytes := by
  unfold StreamAfter
  refine ⟨h.inv, h.oneRead, by simp [h.noWrite], h.reader, by simp [h.noWrite], ?_⟩
  simp [takenOver, h.noWrite, PipeEvent.returned, PipeEvent.reported, hrc, ← hdata, ← h.flow]

theorem deliver (coherence : Bool) :
    Writing w r returned reported (p.deliver coherence c).1 bytes (p.deliver coherence c).2 := by
  obtain ⟨hinv, -, hle, -⟩ := h.inv.deliver coherence c h.written
  by_cases hdirect : p.direct coherence = true
  · have hempty : bytes = [] := by
      simp only [Pipe.direct, Bool.and_eq_true] at hdirect
      exact h.inv.holds.isEmpty_iff.mp hdirect.1.1
    rw [Pipe.deliver, if_pos hdirect] at hinv hle ⊢
    have hone := h.oneRead
    have hflow := h.flow
    have hreader := h.reader
    simp only [readCalls, received, length_append] at hone hflow hreader
    rcases hdata : p.data with _ | ⟨d, _ | ⟨d', rest⟩⟩
    · -- no reader pended: nothing is copied
      rw [hdata] at hinv hle
      refine ⟨hinv, hle, h.thread, ?_, h.noWrite, ?_, ?_⟩
      all_goals simp only [copyToPendingReaders, readCalls, received, map_nil,
        append_nil, nil_append, Nat.add_zero]
      · simp only [hdata, length_nil] at hone
        omega
      · simpa [hdata] using hreader
      · simpa [hdata] using hflow
    · rw [hdata] at hinv hle hone hflow hreader
      have hwoken : p.wokenReaders = [] := by
        refine length_eq_zero_iff.mp ?_
        simp only [length_cons, length_nil, length_map] at hone
        omega
      have hcopy := copyToPendingReaders_single d (c.data.drop c.written) _ rfl
      generalize copyToPendingReaders [d] (c.data.drop c.written) = q at hinv hle hcopy
      have hcalls : q.1 ++ (p.wokenReaders ++ q.2.1.map (·, (0 : ℤ))).map Prod.fst =
          [{ d with buf := d.buf ++ (c.data.drop c.written).take q.2.2 }] := by
        rw [hwoken, nil_append, map_map, ← hcopy]
        simp [Function.comp_def]
      refine ⟨hinv, hle, h.thread, ?_, h.noWrite, ?_, ?_⟩
      all_goals simp only [readCalls, received]
      · rw [hcalls, length_singleton]
      · rw [hcalls]
        simpa using hreader d (by simp)
      · rw [hcalls]
        simp only [hwoken, hempty, map_nil, append_nil, flatMap_cons, flatMap_nil] at hflow ⊢
        rw [take_add, ← append_assoc, ← append_assoc, hflow]
    · simp only [hdata, length_cons] at hone
      omega
  rw [Pipe.deliver, if_neg hdirect] at hinv ⊢
  by_cases hcoh : (p.buf.isEmpty && coherence) = true
  · rw [if_pos hcoh] at hinv ⊢
    have hcalls := perm_eq_of_length_le_one (readCalls_wakeReaders p) h.oneRead
    refine ⟨hinv, h.written, h.thread, ?_, h.noWrite, ?_, ?_⟩
    · rw [hcalls]
      exact h.oneRead
    · rw [hcalls]
      exact h.reader
    · rw [received, hcalls]
      exact h.flow
  · rw [if_neg hcoh]
    exact h

theorem fill (hnone : p.data = []) :
    ∃ bytes', Writing w r returned reported (p.fill c).1 bytes' (p.fill c).2 ∧
      ((p.fill c).2.written ≠ c.data.length → bytes'.length = (p.fill c).1.buf.size) := by
  obtain ⟨hinv, hsize, hc⟩ := h.inv.fill hnone c rfl
  have hle := h.written
  have hroom := h.inv.holds.length_le
  generalize hn : min (c.data.length - c.written) (p.buf.size - bytes.length) = n at hinv hc
  have hflow : returned ++ p.received ++ (bytes ++ (c.data.drop c.written).take n) =
      reported ++ c.data.take (c.written + n) := by
    rw [take_add, ← append_assoc, ← append_assoc, h.flow]
  rw [hc, hsize]
  refine ⟨_, ⟨hinv, ?_, h.thread, h.oneRead, h.noWrite, h.reader, hflow⟩, fun hne => ?_⟩
  · simp only
    omega
  · simp only at hne
    rw [length_append, length_take, length_drop]
    omega

theorem endWrite
    (hfull : c.written ≠ c.data.length → bytes.length = p.buf.size) (expired : Bool) (place : ℕ) :
    StreamAfter w r returned reported (p.endWrite c expired place) bytes := by
  unfold StreamAfter
  have hinv := h.inv.endWrite h.written hfull expired place
  by_cases hdone : c.written = c.data.length
  · rw [Pipe.endWrite, if_pos hdone]
    exact h.done rfl rfl
  rw [Pipe.endWrite, if_neg hdone] at hinv ⊢
  cases expired with
  | true =>
    rw [if_pos rfl]
    exact h.done rfl (toNat_count_or_again _)
  | false =>
    rw [if_neg Bool.false_ne_true] at hinv ⊢
    obtain ⟨hspace, hwoken⟩ := append_eq_nil_iff.mp h.noWrite
    have hcalls : p.space.insertIdx (min place p.space.length) c ++
        p.wokenWriters.map Prod.fst = [c] := by
      rw [hwoken, hspace]
      simp
    refine ⟨hinv, h.oneRead, ?_, h.reader, ?_, ?_⟩
    all_goals simp only [writeCalls, takenOver, hcalls]
    · rfl
    · simpa using h.thread
    · simpa [Pipe.received, readCalls] using h.flow

theorem writeTurn (expired : Bool) (place : ℕ) :
    ∃ bytes', StreamAfter w r returned reported (p.writeTurn coherence c expired place) bytes' := by
  have hd := h.deliver coherence
  obtain ⟨-, -, -, hnone⟩ := h.inv.deliver coherence c h.written
  have hdata := p.deliver_data coherence c
  rw [Pipe.writeTurn, if_neg (by simp [h.inv.isOpen])]
  simp only [hdata]
  by_cases hall : p.direct coherence = true ∧ c.data.length ≤ (p.deliver coherence c).2.written
  · rw [if_pos hall]
    exact ⟨bytes, hd.done hdata rfl⟩
  · rw [if_neg hall]
    obtain ⟨bytes', hf, hfull⟩ := hd.fill (hnone hall)
    exact ⟨bytes', hf.endWrite hfull expired place⟩

end

end Writing

namespace Reading

variable {c : ReadCall}

section

variable (h : Reading w r returned reported p bytes c)
include h

theorem done {thread : ℕ} {rc : ℤ} (hrc : rc.toNat = c.buf.length) :
    StreamAfter w r returned reported (p, [.read thread c.buf rc]) bytes := by
  unfold StreamAfter
  refine ⟨h.inv, by simp [h.noRead], h.oneWrite, by simp [h.noRead], h.writer, ?_⟩
  simp [Pipe.received, h.noRead, PipeEvent.returned, PipeEvent.reported, hrc, ← h.flow]

theorem drain :
    Reading w r returned reported (p.drain c).1 (bytes.drop (c.len - c.buf.length)) (p.drain c).2 := by
  obtain ⟨hinv, -, hc⟩ := h.inv.drain c
  have hcalls : (p.drain c).1.writeCalls = p.writeCalls := by
    by_cases hfull : p.buf.spaceGet = 0
    · rw [Pipe.drain, if_pos hfull]
      exact perm_eq_of_length_le_one (writeCalls_wakeWriters p) h.oneWrite
    · rw [Pipe.drain, if_neg hfull]
      rfl
  have hreads : (p.drain c).1.readCalls = p.readCalls := by
    by_cases hfull : p.buf.spaceGet = 0
    · rw [Pipe.drain, if_pos hfull]
      rfl
    · rw [Pipe.drain, if_neg hfull]
      rfl
  refine ⟨hinv, ?_, by rw [hc]; exact h.thread, by rw [hreads, h.noRead], ?_, ?_, ?_⟩
  · have := h.received
    rw [hc]
    simp only [length_append, length_take]
    omega
  · rw [hcalls]
    exact h.oneWrite
  · rw [hcalls]
    exact h.writer
  · rw [takenOver, hcalls, hc]
    simp only [append_assoc, take_append_drop]
    rw [← append_assoc]
    exact h.flow

theorem endRead (hempty : c.buf.length ≠ c.len → bytes = []) (expired : Bool) (place : ℕ) :
    StreamAfter w r returned reported (p.endRead c expired place) bytes := by
  unfold StreamAfter
  have hinv := h.inv.endRead h.received hempty expired place
  by_cases hdone : c.buf.length = c.len
  · rw [Pipe.endRead, if_pos hdone]
    exact h.done rfl
  rw [Pipe.endRead, if_neg hdone, if_neg (by simp [h.inv.isOpen])] at hinv ⊢
  cases expired with
  | true =>
    rw [if_pos rfl]
    exact h.done (toNat_count_or_again _)
  | false =>
    rw [if_neg Bool.false_ne_true] at hinv ⊢
    obtain ⟨hdata, hwoken⟩ := append_eq_nil_iff.mp h.noRead
    have hcalls : p.data.insertIdx (min place p.data.length) c ++
        p.wokenReaders.map Prod.fst = [c] := by
      rw [hwoken, hdata]
      simp
    refine ⟨hinv, ?_, h.oneWrite, ?_, h.writer, ?_⟩
    all_goals simp only [readCalls, Pipe.received, hcalls]
    · rfl
    · simpa using h.thread
    · simpa [takenOver, writeCalls] using h.flow

theorem readTurn (expired : Bool) (place : ℕ) :
    StreamAfter w r returned reported (p.readTurn c expired place)
      (bytes.drop (c.len - c.buf.length)) := by
  rw [Pipe.readTurn]
  refine h.drain.endRead ?_ expired place
  intro hne
  have := h.received
  rw [(h.inv.drain c).2.2] at hne
  simp only [length_append, length_take] at hne
  exact drop_of_length_le (by omega)

end

end Reading

namespace Stream

variable {coherence : Bool}

section

variable (h : Stream w r returned reported p bytes)
include h

theorem startWrite (hin : p.inside w = false)
    (data : List UInt8) : Writing w r returned reported p bytes ⟨w, data, 0⟩ := by
  have hnone : p.writeCalls = [] := by
    refine eq_nil_iff_forall_not_mem.mpr fun c hc => ?_
    simp only [inside, Bool.or_eq_false_iff, any_eq_false] at hin
    exact hin.2 c hc (by simpa using h.writer c hc)
  refine ⟨h.inv, Nat.zero_le _, rfl, h.oneRead, hnone, h.reader, ?_⟩
  rw [h.flow, takenOver, hnone]
  rfl

theorem startRead (hin : p.inside r = false)
    (len : ℕ) : Reading w r returned reported p bytes ⟨r, len, []⟩ := by
  have hnone : p.readCalls = [] := by
    refine eq_nil_iff_forall_not_mem.mpr fun c hc => ?_
    simp only [inside, Bool.or_eq_false_iff, any_eq_false] at hin
    exact hin.1 c hc (by simpa using h.reader c hc)
  refine ⟨h.inv, Nat.zero_le _, rfl, hnone, h.oneWrite, h.writer, ?_⟩
  rw [← h.flow, Pipe.received, hnone]
  rfl

variable (which : ℕ) (expired : Bool) (place : ℕ)

theorem resumeWriter :
    ∃ bytes', StreamAfter w r returned reported (p.resumeWriter coherence which expired place)
      bytes' := by
  rcases hc : p.wokenWriters[which]? with _ | ⟨c, rc⟩
  · simp only [StreamAfter, Pipe.resumeWriter, hc, flatMap_nil, append_nil]
    exact ⟨bytes, h⟩
  obtain ⟨q, hq, hqi, hreads, hwrites, hle, hrc⟩ := h.inv.waitedWriter hc
  have hcalls := eq_singleton_of_perm_cons hwrites h.oneWrite
  have hwriting : Writing w r returned reported q bytes c := by
    refine ⟨hqi, hle, h.writer c (by simp [hcalls.1]), hreads ▸ h.oneRead, hcalls.2,
      hreads ▸ h.reader, ?_⟩
    rw [Pipe.received, hreads, ← Pipe.received, h.flow, takenOver, hcalls.1]
    simp
  simp only [StreamAfter, Pipe.resumeWriter, hc, hq]
  rcases hrc with rfl | rfl
  · rw [if_pos rfl]
    exact hwriting.writeTurn expired place
  · rw [if_neg (by decide), if_pos rfl]
    exact ⟨bytes, hwriting.done rfl (toNat_count_or_again _)⟩

theorem resumeReader :
    ∃ bytes', StreamAfter w r returned reported (p.resumeReader which expired place) bytes' := by
  rcases hc : p.wokenReaders[which]? with _ | ⟨c, rc⟩
  · simp only [StreamAfter, Pipe.resumeReader, hc, flatMap_nil, append_nil]
    exact ⟨bytes, h⟩
  obtain ⟨q, hq, hqi, hwrites, hreads, hle, hrc⟩ := h.inv.waitedReader hc
  have hcalls := eq_singleton_of_perm_cons hreads h.oneRead
  have hreading : Reading w r returned reported q bytes c := by
    refine ⟨hqi, hle, h.reader c (by simp [hcalls.1]), hcalls.2, hwrites ▸ h.oneWrite,
      hwrites ▸ h.writer, ?_⟩
    rw [takenOver, hwrites, ← takenOver, ← h.flow, Pipe.received, hcalls.1]
    simp
  simp only [StreamAfter, Pipe.resumeReader, hc, hq]
  rcases hrc with rfl | rfl
  · rw [if_pos rfl]
    exact ⟨_, hreading.readTurn expired place⟩
  · rw [if_neg (by decide), if_pos rfl]
    exact ⟨bytes, hreading.done (toNat_count_or_again _)⟩

theorem congr {q : Pipe} (hq : q.Inv bytes)
    (hreads : q.readCalls = p.readCalls) (hwrites : q.writeCalls = p.writeCalls) :
    Stream w r returned reported q bytes := by
  refine ⟨hq, hreads ▸ h.oneRead, hwrites ▸ h.oneWrite, hreads ▸ h.reader, hwrites ▸ h.writer, ?_⟩
  rw [Pipe.received, takenOver, hreads, hwrites]
  exact h.flow

theorem timeoutWriter : Stream w r returned reported (p.timeoutWriter which) bytes := by
  obtain ⟨hinv, hreads, hwrites⟩ := h.inv.timeoutWriter which
  exact h.congr hinv hreads (perm_eq_of_length_le_one hwrites h.oneWrite)

theorem timeoutReader : Stream w r returned reported (p.timeoutReader which) bytes := by
  obtain ⟨hinv, hwrites, hreads⟩ := h.inv.timeoutReader which
  exact h.congr hinv (perm_eq_of_length_le_one hreads h.oneRead) hwrites

end

end Stream

end Pipe

def PipeOp.Between (w r : ℕ) : PipeOp → Prop
  | .write thread _ _ _ => thread = w
  | .read thread _ _ _ => thread = r
  | .reset => False
  | .close => False
  | _ => True

namespace PipeSys

def returned (s : PipeSys) : List UInt8 := s.events.flatMap PipeEvent.returned

def reported (s : PipeSys) : List UInt8 := s.events.flatMap PipeEvent.reported

def Stream (w r : ℕ) (s : PipeSys) : Prop :=
  ∃ bytes, Pipe.Stream w r s.returned s.reported s.pipe bytes

variable {r w : ℕ} {s : PipeSys}

theorem stream_after (s : PipeSys) (o : Pipe × List PipeEvent)
    (h : ∃ bytes, Pipe.StreamAfter w r s.returned s.reported o bytes) : (s.after o).Stream w r := by
  simpa only [Pipe.StreamAfter, Stream, returned, reported, after_pipe, after_events,
    flatMap_append] using h

/-- **One section** of the writer or the reader keeps the stream. -/
theorem Stream.step {coherence : Bool} (h : s.Stream w r) (op : PipeOp)
    (hop : op.Between w r) : (s.step coherence op).Stream w r := by
  obtain ⟨bytes, h⟩ := h
  cases op with
  | write thread data expired place =>
    obtain rfl : thread = w := hop
    by_cases hin : s.pipe.inside thread = true
    · rw [PipeSys.step, if_pos hin]
      exact ⟨bytes, h⟩
    · rw [PipeSys.step, if_neg hin, Pipe.write, if_neg (by simp [h.inv.resetting])]
      exact stream_after s _ ((h.startWrite (by simpa using hin) data).writeTurn expired place)
  | read thread len expired place =>
    obtain rfl : thread = r := hop
    by_cases hin : s.pipe.inside thread = true
    · rw [PipeSys.step, if_pos hin]
      exact ⟨bytes, h⟩
    · rw [PipeSys.step, if_neg hin, Pipe.read, if_neg (by simp [h.inv.resetting])]
      exact stream_after s _ ⟨_, (h.startRead (by simpa using hin) len).readTurn expired place⟩
  | resumeWriter which expired place =>
    exact stream_after s _ (h.resumeWriter which expired place)
  | resumeReader which expired place =>
    exact stream_after s _ (h.resumeReader which expired place)
  | timeoutWriter which =>
    refine stream_after s _ ⟨bytes, ?_⟩
    simpa only [Pipe.StreamAfter, flatMap_nil, append_nil] using h.timeoutWriter which
  | timeoutReader which =>
    refine stream_after s _ ⟨bytes, ?_⟩
    simpa only [Pipe.StreamAfter, flatMap_nil, append_nil] using h.timeoutReader which
  | reset => exact hop.elim
  | close => exact hop.elim

theorem Stream.run (h : s.Stream w r) (coherence : Bool)
    (ops : List PipeOp) (hops : ∀ op ∈ ops, op.Between w r) :
    (s.run coherence ops).Stream w r := by
  induction ops generalizing s with
  | nil => exact h
  | cons op ops ih =>
    exact ih (h.step op (hops op (by simp))) fun op' hop' => hops op' (by simp [hop'])

theorem stream_init {size : ℕ} (hsize : size < 2 ^ 31) (buffer : Mem) (w r : ℕ) :
    (init size buffer).Stream w r :=
  ⟨[], Pipe.inv_init hsize buffer, Nat.zero_le _, Nat.zero_le _, by simp [init, Pipe.init,
    Pipe.readCalls], by simp [init, Pipe.init, Pipe.writeCalls], rfl⟩

end PipeSys

/-- **A pipe neither loses nor reorders bytes and misses no wake-up**, with and without
`CONFIG_KERNEL_COHERENCE`. Between one writer and one reader, the bytes read are a prefix of those
reported written, followed by those taken from a write in progress. With any number of threads, and
no reset or close, a reader pends only on an empty buffer and a writer only on a full one. -/
theorem pipe_stream (size : ℕ) (hsize : size < 2 ^ 31) (buffer : Mem) (coherence : Bool)
    (ops : List PipeOp) (s : PipeSys) (hs : s = (PipeSys.init size buffer).run coherence ops) :
    (∀ w r, (∀ op ∈ ops, op.Between w r) → s.returned <+: s.reported ++ s.pipe.takenOver ∧
        (s.pipe.writeCalls = [] → s.returned <+: s.reported)) ∧
    ((∀ op ∈ ops, op.KeepsOpen) → (s.pipe.data ≠ [] → s.pipe.buf.isEmpty = true) ∧
        (s.pipe.space ≠ [] → s.pipe.buf.spaceGet = 0)) := by
  constructor
  · intro w r hops
    obtain ⟨bytes, h⟩ := (PipeSys.stream_init hsize buffer w r).run coherence ops hops
    rw [← hs] at h
    have hflow : s.returned <+: s.reported ++ s.pipe.takenOver := by
      rw [← h.flow, append_assoc]
      exact prefix_append _ _
    refine ⟨hflow, fun hnone => ?_⟩
    simpa only [Pipe.takenOver, hnone, flatMap_nil, append_nil] using hflow
  intro hops
  have hinit : (PipeSys.init size buffer).pipe.Inv [] := Pipe.inv_init hsize buffer
  obtain ⟨bytes, h⟩ := hinit.run coherence ops hops
  rw [← hs] at h
  refine ⟨fun hne => h.holds.isEmpty_iff.mpr (h.readers hne), fun hne => ?_⟩
  rw [h.holds.spaceGet, h.writers hne, Nat.sub_self]

/-- The theorem on a pipe of four bytes, after a write of ten and a read of four. -/
theorem pipe_stream_pended_write : ∃ s : PipeSys, s = (PipeSys.init 4 fun _ => 0).run false
      [.write 0 [1, 2, 3, 4, 5, 6, 7, 8, 9, 10] false 0, .read 1 4 false 0] ∧
    s.returned <+: s.reported ++ s.pipe.takenOver :=
  ⟨_, rfl, ((pipe_stream 4 (by decide) _ false _ _ rfl).1 0 1 (by simp [PipeOp.Between])).1⟩

/-- **A read returns bytes that no write has reported yet**: the writer is pended with them in the
buffer. -/
theorem pipe_returned_not_reported : ∃ ops : List PipeOp, (∀ op ∈ ops, op.Between 0 1) ∧
    ¬ ((PipeSys.init 4 fun _ => 0).run false ops).returned <+:
      ((PipeSys.init 4 fun _ => 0).run false ops).reported :=
  ⟨[.write 0 [1, 2, 3, 4, 5, 6, 7, 8, 9, 10] false 0, .read 1 4 false 0],
    by simp [PipeOp.Between], by decide +kernel⟩

end TlZephyr
