import TlZephyr.Timeout

/-!
# Polling

Model of `k_poll`: threads that poll semaphores, queues, poll signals, message queues and
pipes, and the operations on these objects that signal the events in their `poll_events`. A step
is a section under a lock. `k_poll` takes the lock of `poll.c` once for every event that it checks
and once for every event that it clears; an operation holds the lock of its object, and takes that
of `poll.c` within to signal an event, so a poller may run between the change of the object and the
signal. Of the objects the model keeps what `k_poll` sees of them, and how many threads wait for
them.

`is_condition_met` does not look at the pipe of a pipe event.
-/

namespace TlZephyr

/-! ### Objects -/

/-- `K_POLL_TYPE_*`. -/
inductive PollType
  | ignore
  | signal
  | sem
  | data
  | msgq
  | pipe
deriving DecidableEq, Repr

/-- Bits of `K_POLL_STATE_*`; `K_POLL_STATE_NOT_READY` is none of them. -/
inductive PollState
  | signaled
  | semAvailable
  | dataAvailable
  | cancelled
  | msgqDataAvailable
  | pipeDataAvailable
deriving DecidableEq, Repr

def PollType.state : PollType → Option PollState
  | .ignore => none
  | .signal => some .signaled
  | .sem => some .semAvailable
  | .data => some .dataAvailable
  | .msgq => some .msgqDataAvailable
  | .pipe => some .pipeDataAvailable

/-- `struct k_sem`; `k_sem_init` refuses a limit of 0. -/
structure PollSem where
  count : ℕ
  limit : ℕ
  waiters : ℕ
  limit_pos : 0 < limit
deriving DecidableEq

/-- The objects: how many items, messages or bytes they hold, and how many threads wait for them. -/
inductive PollData
  | sem (sem : PollSem)
  | queue (items waiters : ℕ)
  | signal (signaled : ℕ) (result : ℤ)
  | msgq (usedMsgs maxMsgs waiters : ℕ)
  | pipe (used size : ℕ)
deriving DecidableEq

/-- Calls of `z_handle_obj_poll_events`. -/
inductive PollCaller
  | semGive
  | semReset
  | queueInsert
  | queueAppendList
  | queueCancelWait
  | msgqPut
  | pipeWrite
deriving DecidableEq, Repr

def PollCaller.state : PollCaller → PollState
  | .semGive => .semAvailable
  | .semReset => .semAvailable
  | .queueInsert => .dataAvailable
  | .queueAppendList => .dataAvailable
  | .queueCancelWait => .cancelled
  | .msgqPut => .msgqDataAvailable
  | .pipeWrite => .pipeDataAvailable

/-- What an operation has still to do: to signal an event, or to put bytes into the pipe. -/
inductive PollTodo
  | handle (caller : PollCaller)
  | ringBufPut (len : ℕ)
deriving DecidableEq, Repr

/-- Operations under the lock of an object; `giveUp` is a timeout. The length of a
`k_pipe_write` is what waiting readers have left of it. -/
inductive PollObjOp
  | semGive
  | semTake (wait : Bool)
  | semReset
  | queueInsert (noMem : Bool)
  | queueAppendList (len : ℕ)
  | queueGet (wait : Bool)
  | queueCancelWait
  | msgqPut (wait : Bool)
  | msgqGet (wait : Bool)
  | msgqPurge
  | pipeWrite (len : ℕ)
  | pipeRead (len : ℕ)
  | pipeReset
  | giveUp
deriving DecidableEq, Repr

namespace PollSem

/-- Operations of `sem.c`. -/
def apply (s : PollSem) : PollObjOp → Option (PollSem × List PollTodo)
  | .semGive =>
    if s.waiters ≠ 0 then some ({ s with waiters := s.waiters - 1 }, [])
    else
      some ({ s with count := s.count + if s.count ≠ s.limit then 1 else 0 }, [.handle .semGive])
  | .semTake wait =>
    if 0 < s.count then some ({ s with count := s.count - 1 }, [])
    else some ({ s with waiters := s.waiters + if wait then 1 else 0 }, [])
  | .semReset => some ({ s with count := 0, waiters := 0 }, [.handle .semReset])
  | .giveUp => some ({ s with waiters := s.waiters - 1 }, [])
  | _ => none

end PollSem

namespace PollData

/-- Operations of `queue.c`. -/
def applyQueue (items waiters : ℕ) : PollObjOp → Option (PollData × List PollTodo)
  | .queueInsert noMem =>
    if waiters ≠ 0 then some (.queue items (waiters - 1), [])
    else if noMem then some (.queue items waiters, [])
    else some (.queue (items + 1) waiters, [.handle .queueInsert])
  | .queueAppendList len =>
    if len = 0 then some (.queue items waiters, [])
    else some (.queue (items + (len - waiters)) (waiters - len), [.handle .queueAppendList])
  | .queueGet wait =>
    if items ≠ 0 then some (.queue (items - 1) waiters, [])
    else some (.queue items (waiters + if wait then 1 else 0), [])
  | .queueCancelWait => some (.queue items (waiters - 1), [.handle .queueCancelWait])
  | .giveUp => some (.queue items (waiters - 1), [])
  | _ => none

/-- Operations of `msg_q.c`. A thread pended while there is room waits for a message. -/
def applyMsgq (usedMsgs maxMsgs waiters : ℕ) : PollObjOp → Option (PollData × List PollTodo)
  | .msgqPut wait =>
    if usedMsgs < maxMsgs then
      if waiters ≠ 0 then some (.msgq usedMsgs maxMsgs (waiters - 1), [])
      else some (.msgq (usedMsgs + 1) maxMsgs waiters, [.handle .msgqPut])
    else some (.msgq usedMsgs maxMsgs (waiters + if wait then 1 else 0), [])
  | .msgqGet wait =>
    if 0 < usedMsgs then
      if waiters ≠ 0 then some (.msgq (usedMsgs - 1 + 1) maxMsgs (waiters - 1), [])
      else some (.msgq (usedMsgs - 1) maxMsgs waiters, [])
    else some (.msgq usedMsgs maxMsgs (waiters + if wait then 1 else 0), [])
  | .msgqPurge => some (.msgq 0 maxMsgs 0, [])
  | .giveUp => some (.msgq usedMsgs maxMsgs (waiters - 1), [])
  | _ => none

/-- Operations of `pipe.c`: an event is signalled before the bytes are put. -/
def applyPipe (used size : ℕ) : PollObjOp → Option (PollData × List PollTodo)
  | .pipeWrite len =>
    if used = 0 then some (.pipe used size, [.handle .pipeWrite, .ringBufPut len])
    else some (.pipe used size, [.ringBufPut len])
  | .pipeRead len => some (.pipe (used - len) size, [])
  | .pipeReset => some (.pipe 0 size, [])
  | _ => none

/-- An operation on an object: the object after its first part, and what it has still to do. -/
def apply : PollData → PollObjOp → Option (PollData × List PollTodo)
  | .sem s, op => (s.apply op).map fun x => (.sem x.1, x.2)
  | .queue items waiters, op => applyQueue items waiters op
  | .signal _ _, _ => none
  | .msgq usedMsgs maxMsgs waiters, op => applyMsgq usedMsgs maxMsgs waiters op
  | .pipe used size, op => applyPipe used size op

/-- `ring_buf_put` on the buffer of a pipe. -/
def ringBufPut (len : ℕ) : PollData → PollData
  | .pipe used size => .pipe (used + min len (size - used)) size
  | data => data

/-- `k_queue_remove`, which takes no lock. -/
def queueRemove : PollData → PollData
  | .queue items waiters => .queue (items - 1) waiters
  | data => data

/-- `k_poll_signal_reset`, which takes no lock. -/
def signalReset : PollData → PollData
  | .signal _ result => .signal 0 result
  | data => data

def kind : PollData → PollType
  | .sem _ => .sem
  | .queue _ _ => .data
  | .signal _ _ => .signal
  | .msgq _ _ _ => .msgq
  | .pipe _ _ => .pipe

/-- What a state of an event says about the object: that it is available, has data or was
signalled. -/
def has : PollData → PollState → Bool
  | .sem s, .semAvailable => 0 < s.count
  | .queue items _, .dataAvailable => items ≠ 0
  | .signal signaled _, .signaled => signaled ≠ 0
  | .msgq usedMsgs _ _, .msgqDataAvailable => 0 < usedMsgs
  | .pipe used _, .pipeDataAvailable => used ≠ 0
  | _, _ => false

/-- `is_condition_met`: the state that is to be set. -/
def isConditionMet : PollType → PollData → Option PollState
  | .sem, .sem s => if 0 < s.count then some .semAvailable else none
  | .data, .queue items _ => if items ≠ 0 then some .dataAvailable else none
  | .signal, .signal signaled _ => if signaled ≠ 0 then some .signaled else none
  | .msgq, .msgq usedMsgs _ _ => if 0 < usedMsgs then some .msgqDataAvailable else none
  | .pipe, _ => some .pipeDataAvailable
  | _, _ => none

end PollData

/-! ### Pollers -/

/-- `struct k_poll_event`. -/
structure PollEvent where
  type : PollType
  obj : ℕ
  state : Finset PollState
  poller : Option ℕ
deriving DecidableEq

instance : Inhabited PollEvent := ⟨⟨.ignore, 0, ∅, none⟩⟩

/-- Where a thread is in `k_poll`: registering, pended, about to run again, or clearing. -/
inductive PollPc
  | idle
  | registering (ii eventsRegistered : ℕ)
  | pended (eventsRegistered : ℕ)
  | woken (eventsRegistered : ℕ) (swapRc : ℤ)
  | clearing (numEvents : ℕ) (rc : ℤ)
  | returned (rc : ℤ)
deriving DecidableEq, Repr

namespace PollPc

/-- How many events, from the first on, may be registered. -/
def registered : PollPc → ℕ
  | .registering _ n => n
  | .pended n => n
  | .woken n _ => n
  | .clearing n _ => n
  | _ => 0

/-- Whether the thread is not in `k_poll`. -/
def out : PollPc → Bool
  | .idle => true
  | .returned _ => true
  | _ => false

/-- Where the thread is after a section of `clear_event_registrations`. -/
def cleared (rc : ℤ) : ℕ → PollPc
  | 0 => .returned rc
  | n + 1 => .clearing n rc

end PollPc

/-- `struct z_poller` in `MODE_POLL`, with the arguments of the call it is in. -/
structure Poller where
  numEvents : ℕ
  timeout : KTimeout
  isPolling : Bool
  pc : PollPc
deriving DecidableEq, Repr

/-- `signal_poller`, and the `is_polling` that `signal_poll_event` clears. -/
def Poller.signal (p : Poller) (state : PollState) : Poller :=
  { p with
    isPolling := false
    pc := match p.pc with
      | .pended n => .woken n (if state = .cancelled then - EINTR else 0)
      | pc => pc }

/-- `set_event_ready`. -/
def PollEvent.setReady (event : PollEvent) (state : PollState) : PollEvent :=
  { event with state := insert state event.state, poller := none }

/-- An object, its `poll_events`, and what the operation that holds its lock has still to do. -/
structure PollObj where
  data : PollData
  pollEvents : List (ℕ × ℕ)
  todo : List PollTodo
deriving DecidableEq

/-- Priorities of the threads, the objects, the events under thread and index, and the pollers.
-/
structure PollSys where
  prio : ℕ → ℤ
  obj : ℕ → PollObj
  ev : ℕ × ℕ → PollEvent
  thr : ℕ → Poller

/-- Steps of `k_poll` and its timeout, those of the operations on objects, with and without the
lock, and a change of a priority. -/
inductive PollStep
  | poll (t : ℕ) (events : List PollEvent) (timeout : KTimeout)
  | advance (t : ℕ)
  | expire (t : ℕ)
  | apply (o : ℕ) (op : PollObjOp)
  | todo (o : ℕ)
  | queueRemove (o : ℕ)
  | signalRaise (o : ℕ) (result : ℤ)
  | signalReset (o : ℕ)
  | prioritySet (t : ℕ) (prio : ℤ)

namespace PollSys

variable (s : PollSys)

def setObj (o : ℕ) (x : PollObj) : PollSys :=
  { s with obj := Function.update s.obj o x }

def setEv (e : ℕ × ℕ) (x : PollEvent) : PollSys :=
  { s with ev := Function.update s.ev e x }

def setThr (t : ℕ) (x : Poller) : PollSys :=
  { s with thr := Function.update s.thr t x }

/-- `z_sched_prio_cmp`: positive if the first thread is of higher priority. -/
def prioCmp (t u : ℕ) : ℤ := s.prio u - s.prio t

/-- `poller_thread`; the events in the lists have a poller. -/
def pollerThread (e : ℕ × ℕ) : ℕ := (s.ev e).poller.getD 0

def addEvent (events : List (ℕ × ℕ)) (e : ℕ × ℕ) (t : ℕ) : List (ℕ × ℕ) :=
  if events.getLast?.all fun p => 0 < s.prioCmp (s.pollerThread p) t then events ++ [e]
  else
    events.takeWhile (fun p => ¬0 < s.prioCmp t (s.pollerThread p)) ++
      e :: events.dropWhile fun p => ¬0 < s.prioCmp t (s.pollerThread p)

def registerEvent (e : ℕ × ℕ) (t : ℕ) : PollSys :=
  if (s.ev e).type = .ignore then s.setEv e { s.ev e with poller := some t }
  else
    (s.setEv e { s.ev e with poller := some t }).setObj (s.ev e).obj
      { s.obj (s.ev e).obj with pollEvents := s.addEvent (s.obj (s.ev e).obj).pollEvents e t }

def clearEventRegistration (e : ℕ × ℕ) : PollSys :=
  if (s.ev e).type = .ignore then s.setEv e { s.ev e with poller := none }
  else
    (s.setObj (s.ev e).obj
      { s.obj (s.ev e).obj with pollEvents := (s.obj (s.ev e).obj).pollEvents.erase e }).setEv e
      { s.ev e with poller := none }

def signalPollEvent (e : ℕ × ℕ) (state : PollState) : PollSys :=
  ((s.ev e).poller.elim s fun t => s.setThr t ((s.thr t).signal state)).setEv e
    ((s.ev e).setReady state)

/-- `z_handle_obj_poll_events`. -/
def handleObjPollEvents (o : ℕ) (state : PollState) : PollSys :=
  match (s.obj o).pollEvents with
  | [] => s
  | e :: events =>
    (s.setObj o { s.obj o with pollEvents := events }).signalPollEvent e state

/-- A thread goes on in `k_poll`. -/
def goto (t : ℕ) (pc : PollPc) : PollSys := s.setThr t { s.thr t with pc := pc }

/-- A section of `clear_event_registrations`, after the last of which the thread returns. -/
def clearSection (t : ℕ) (rc : ℤ) : ℕ → PollSys
  | 0 => s.goto t (.returned rc)
  | n + 1 => (s.clearEventRegistration (t, n)).goto t (.clearing n rc)

/-- A round of the loop of `register_events`. -/
def registerRound (t ii n : ℕ) : PollSys :=
  match PollData.isConditionMet (s.ev (t, ii)).type (s.obj (s.ev (t, ii)).obj).data with
  | some state =>
    (s.setEv (t, ii) ((s.ev (t, ii)).setReady state)).setThr t
      { s.thr t with isPolling := false, pc := .registering (ii + 1) n }
  | none =>
    if (s.thr t).timeout ≠ .ticks 0 ∧ (s.thr t).isPolling then
      (s.registerEvent (t, ii) t).goto t (.registering (ii + 1) (n + 1))
    else s.goto t (.registering (ii + 1) n)

/-- Section of `k_poll` after `register_events`. -/
def checkPolling (t n : ℕ) : PollSys :=
  if ¬(s.thr t).isPolling then s.clearSection t 0 n
  else
    s.setThr t
      { s.thr t with
        isPolling := false
        pc := if (s.thr t).timeout = .ticks 0 then .returned (- EAGAIN) else .pended n }

/-- The next section of `z_impl_k_poll`. -/
def advance (t : ℕ) : Option PollSys :=
  match (s.thr t).pc with
  | .registering ii n =>
    if ii < (s.thr t).numEvents then some (s.registerRound t ii n) else some (s.checkPolling t n)
  | .woken n swapRc => some (s.clearSection t swapRc n)
  | .clearing n rc => some (s.clearSection t rc n)
  | _ => none

/-- Call of `k_poll`, with events on objects of their types. -/
def poll (t : ℕ) (events : List PollEvent) (timeout : KTimeout) : Option PollSys :=
  if (s.thr t).pc.out ∧ ∀ x ∈ events, x.type = .ignore ∨ (s.obj x.obj).data.kind = x.type then
    some
      { s with
        ev := fun e => if e.1 = t then events.getD e.2 default else s.ev e
        thr := Function.update s.thr t ⟨events.length, timeout, true, .registering 0 0⟩ }
  else none

def expire (t : ℕ) : Option PollSys :=
  match (s.thr t).pc with
  | .pended n => if (s.thr t).timeout = .forever then none else some (s.goto t (.woken n (- EAGAIN)))
  | _ => none

/-- What the operation that holds the lock of an object does next. -/
def doTodo (o : ℕ) : Option PollSys :=
  match (s.obj o).todo with
  | [] => none
  | .handle caller :: todo =>
    some ((s.setObj o { s.obj o with todo := todo }).handleObjPollEvents o caller.state)
  | .ringBufPut len :: todo =>
    some (s.setObj o { s.obj o with data := (s.obj o).data.ringBufPut len, todo := todo })

/-- First part of an operation, under the lock of the object. -/
def applyOp (o : ℕ) (op : PollObjOp) : Option PollSys :=
  if (s.obj o).todo = [] then
    ((s.obj o).data.apply op).map fun x =>
      s.setObj o { s.obj o with data := x.1, todo := x.2 }
  else none

/-- `z_impl_k_poll_signal_raise`, all of it under the lock of `poll.c`. -/
def signalRaise (o : ℕ) (result : ℤ) : Option PollSys :=
  if (s.obj o).data.kind = .signal then
    some ((s.setObj o { s.obj o with data := .signal 1 result }).handleObjPollEvents o .signaled)
  else none

def step : PollStep → Option PollSys
  | .poll t events timeout => s.poll t events timeout
  | .advance t => s.advance t
  | .expire t => s.expire t
  | .apply o op => s.applyOp o op
  | .todo o => s.doTodo o
  | .queueRemove o => some (s.setObj o { s.obj o with data := (s.obj o).data.queueRemove })
  | .signalRaise o result => s.signalRaise o result
  | .signalReset o => some (s.setObj o { s.obj o with data := (s.obj o).data.signalReset })
  | .prioritySet t prio => some { s with prio := Function.update s.prio t prio }

/-- No call, no event registered and no operation going on. -/
structure Initial (s : PollSys) : Prop where
  pc : ∀ t, (s.thr t).pc = .idle
  pollEvents : ∀ o, (s.obj o).pollEvents = []
  todo : ∀ o, (s.obj o).todo = []

inductive Reachable : PollSys → Prop
  | init {s : PollSys} (h : s.Initial) : Reachable s
  | step {s s' : PollSys} (op : PollStep) (h : Reachable s) (hs : s.step op = some s') :
      Reachable s'

end PollSys

/-- A call of `k_poll` in a run whose steps meet `ok`: the number of its sections, its states so
far, the last one first, and the state. -/
inductive PollCall (ok : PollSys → PollStep → Prop) (t : ℕ) (events : List PollEvent)
    (timeout : KTimeout) : ℕ → List PollSys → PollSys → Prop
  | start {s s' : PollSys} (h : s.Reachable) (hs : s.step (.poll t events timeout) = some s') :
      PollCall ok t events timeout 0 [s'] s'
  | own {k : ℕ} {seen : List PollSys} {s s' : PollSys} (h : PollCall ok t events timeout k seen s)
      (hok : ok s (.advance t)) (hs : s.step (.advance t) = some s') :
      PollCall ok t events timeout (k + 1) (s' :: seen) s'
  | other {k : ℕ} {seen : List PollSys} {s s' : PollSys} (op : PollStep)
      (h : PollCall ok t events timeout k seen s) (hin : (s.thr t).pc.out = false)
      (hop : op ≠ .advance t) (hok : ok s op) (hs : s.step op = some s') :
      PollCall ok t events timeout k (s' :: seen) s'

/-! ### What the objects keep -/

namespace PollData

variable {data : PollData} {state : PollState}

theorem state_of_has (h : data.has state = true) : data.kind.state = some state := by
  cases data <;> cases state <;> first | rfl | simp [has] at h

/-- **What `is_condition_met` finds is there, except in a pipe.** -/
theorem has_of_isConditionMet {type : PollType}
    (h : isConditionMet type data = some state) (hpipe : type = .pipe → data.has .pipeDataAvailable) :
    type.state = some state ∧ data.has state = true := by
  cases type with
  | ignore => cases h
  | pipe =>
    cases h
    exact ⟨rfl, hpipe rfl⟩
  | _ =>
    cases data <;> simp only [isConditionMet, reduceCtorEq, Option.ite_none_right_eq_some] at h
    all_goals
      obtain ⟨hmet, hstate⟩ := h
      cases hstate
      exact ⟨rfl, by simpa [has] using hmet⟩

theorem isConditionMet_pipe (data : PollData) :
    isConditionMet .pipe data = some .pipeDataAvailable := rfl

theorem kind_ne_ignore (data : PollData) : data.kind ≠ .ignore := by
  cases data <;> nofun

@[simp]
theorem kind_ringBufPut (len : ℕ) (data : PollData) : (data.ringBufPut len).kind = data.kind := by
  cases data <;> rfl

@[simp]
theorem kind_queueRemove (data : PollData) : data.queueRemove.kind = data.kind := by
  cases data <;> rfl

@[simp]
theorem kind_signalReset (data : PollData) : data.signalReset.kind = data.kind := by
  cases data <;> rfl

end PollData

/-- What the object still has when an event is to be signalled. A queue makes no promise, since
`k_queue_remove` does not take the lock. -/
def PollTodo.Promise (data : PollData) : PollTodo → Prop
  | .handle .semGive => data.has .semAvailable = true
  | .handle .msgqPut => data.has .msgqDataAvailable = true
  | .handle .pipeWrite => data.kind = .pipe
  | _ => True

namespace PollData

theorem promise_apply {data data' : PollData} {op : PollObjOp} {todo : List PollTodo}
    (h : data.apply op = some (data', todo)) :
    data'.kind = data.kind ∧ ∀ x ∈ todo, x.Promise data' := by
  cases data with
  | sem s =>
    obtain ⟨x, hx, hout⟩ := Option.map_eq_some_iff.1 h
    cases hout
    refine ⟨rfl, fun y hy => ?_⟩
    cases op <;> simp only [PollSem.apply, reduceCtorEq] at hx
    case semGive =>
      by_cases hw : s.waiters ≠ 0
      · rw [if_pos hw] at hx
        cases hx
        simp at hy
      rw [if_neg hw] at hx
      cases hx
      obtain rfl := List.mem_singleton.1 hy
      have := s.limit_pos
      simp only [PollTodo.Promise, has, decide_eq_true_eq]
      split_ifs <;> omega
    case semTake wait =>
      split_ifs at hx <;> cases hx <;> simp at hy
    case semReset =>
      cases hx
      obtain rfl := List.mem_singleton.1 hy
      trivial
    case giveUp =>
      cases hx
      simp at hy
  | signal _ _ => cases h
  | queue items waiters =>
    cases op <;> simp only [apply, applyQueue, reduceCtorEq] at h
    all_goals
      try split_ifs at h
      all_goals
        cases h
        exact ⟨rfl, by simp [PollTodo.Promise]⟩
  | msgq usedMsgs maxMsgs waiters =>
    cases op <;> simp only [apply, applyMsgq, reduceCtorEq] at h
    all_goals
      try split_ifs at h
      all_goals
        cases h
        exact ⟨rfl, by simp [PollTodo.Promise, has]⟩
  | pipe used size =>
    cases op <;> simp only [apply, applyPipe, reduceCtorEq] at h
    all_goals
      try split_ifs at h
      all_goals
        cases h
        exact ⟨rfl, by simp [PollTodo.Promise, kind]⟩

end PollData

namespace PollTodo.Promise

variable {data : PollData} {x : PollTodo}

theorem of_kind {data' : PollData} (h : x.Promise data) (hkind : data'.kind = data.kind)
    (hsem : data.kind ≠ .sem) (hmsgq : data.kind ≠ .msgq) : x.Promise data' := by
  rcases x with caller | len
  · cases caller with
    | semGive =>
      have hstate := PollData.state_of_has h
      cases data <;> first | exact absurd rfl hsem | cases hstate
    | msgqPut =>
      have hstate := PollData.state_of_has h
      cases data <;> first | exact absurd rfl hmsgq | cases hstate
    | pipeWrite => exact hkind.trans h
    | _ => trivial
  · trivial

theorem ringBufPut (h : x.Promise data) (len : ℕ) : x.Promise (data.ringBufPut len) := by
  cases data with
  | pipe used size => exact h.of_kind rfl nofun nofun
  | _ => exact h

theorem queueRemove (h : x.Promise data) : x.Promise data.queueRemove := by
  cases data with
  | queue items waiters => exact h.of_kind rfl nofun nofun
  | _ => exact h

theorem signalReset (h : x.Promise data) : x.Promise data.signalReset := by
  cases data with
  | signal signaled result => exact h.of_kind rfl nofun nofun
  | _ => exact h

end PollTodo.Promise

end TlZephyr
