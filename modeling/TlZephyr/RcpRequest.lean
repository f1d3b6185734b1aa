import TlZephyr.RcpReceive
import TlZephyr.RcpTransmit

/-!
# Requests to the Radio Co-Processor and Their Answers

Any number of threads call the `openthread_rcp_*` request functions while the reception thread
hands on what the radio sends. A call sends its request under `tx_lock`, counts itself as a waiter,
takes the first response from the one message queue all calls share, stops counting itself and
evaluates what it took. A received response is put into the queue if the counter is positive, and
thrown away otherwise. Nothing looks at transaction ids before the evaluation.

The system is a step function over these parties. Only the observer knows which call a response
answers.
-/

namespace TlZephyr

open List Option

/-! ### Evaluation -/

inductive RcpOutput
  | none
  | eui64 (bytes : List UInt8)
  | caps (bits : ℕ)
  | frame (transmitted : RcpTransmitted)
  deriving DecidableEq, Repr

structure RcpEvaluated where
  result : ℤ
  output : RcpOutput
  deriving DecidableEq, Repr

/-- End of most calls: 0 if the check says yes. -/
def RcpEvaluated.ofBool (ok : Bool) : RcpEvaluated := ⟨if ok then 0 else -EINVAL, .none⟩

def RcpEvaluated.ofOption {α : Type} (output : α → RcpOutput) (value : Option α) : RcpEvaluated :=
  value.elim ⟨-EINVAL, .none⟩ fun v => ⟨0, output v⟩

/-- Evaluation of a response. Nobody waits for the answer of the time synchronisation. -/
def SpinelRequest.evaluate (drv : SpinelDrv) (spinelId : UInt8) (frameMax : UInt16)
    (mallocOk : Bool) (response : List UInt8) : SpinelRequest → Option RcpEvaluated
  | reset _ => (spinelDrvCheckReset drv (rcpAnswerBytes response)).map .ofBool
  | getIeeeEui64 =>
    (spinelDrvCheckGetIeeeEui64 drv spinelId (rcpAnswerBytes response)).map (.ofOption .eui64)
  | getCapabilities =>
    (spinelDrvCheckGetCapabilities drv spinelId (rcpAnswerBytes response)).map (.ofOption .caps)
  | enableSrcMatch enable =>
    (spinelDrvCheckEnableSrcMatch drv spinelId (rcpAnswerBytes response) enable).map .ofBool
  | ackFpb addr enable =>
    (spinelDrvCheckAckFpb drv spinelId (rcpAnswerBytes response) addr enable).map .ofBool
  | ackFpbExt addr enable =>
    (spinelDrvCheckAckFpbExt drv spinelId (rcpAnswerBytes response) addr enable).map .ofBool
  | ackFpbClear => (spinelDrvCheckAckFpbClear drv spinelId (rcpAnswerBytes response)).map .ofBool
  | ackFpbExtClear =>
    (spinelDrvCheckAckFpbExtClear drv spinelId (rcpAnswerBytes response)).map .ofBool
  | macFrameCounter _ _ =>
    (spinelDrvCheckMacFrameCounter drv spinelId (rcpAnswerBytes response)).map .ofBool
  | panid panId => (spinelDrvCheckPanid drv spinelId (rcpAnswerBytes response) panId).map .ofBool
  | shortAddr addr =>
    (spinelDrvCheckShortAddr drv spinelId (rcpAnswerBytes response) addr).map .ofBool
  | extAddr addr => (spinelDrvCheckExtAddr drv spinelId (rcpAnswerBytes response) addr).map .ofBool
  | txPower pwrDbm =>
    (spinelDrvCheckTxPower drv spinelId (rcpAnswerBytes response) pwrDbm).map .ofBool
  | rcpEnable enable =>
    (spinelDrvCheckRcpEnable drv spinelId (rcpAnswerBytes response) enable).map .ofBool
  | receiveEnable enable =>
    (spinelDrvCheckReceiveEnable drv spinelId (rcpAnswerBytes response) enable).map .ofBool
  | channel chan => (spinelDrvCheckChannel drv spinelId (rcpAnswerBytes response) chan).map .ofBool
  | transmitFrame frame =>
    (openthreadRcpTransmitAnswer drv spinelId response frame frameMax mallocOk).map
      fun t => ⟨t.result, .frame t⟩
  | linkMetrics _ _ _ =>
    (spinelDrvCheckLinkMetrics drv spinelId (rcpAnswerBytes response)).map .ofBool
  | macKeys _ => (spinelDrvCheckMacKeys drv spinelId (rcpAnswerBytes response)).map .ofBool
  | getTimestamp => none

theorem SpinelRequest.send_inst (req : SpinelRequest) (drv : SpinelDrv) (sent : SpinelSent)
    (h : req.send drv = some sent) : sent.drv.inst = drv.inst := by
  by_cases hreset : ∃ type, req = .reset type
  · obtain ⟨type, rfl⟩ := hreset
    simp only [SpinelRequest.send, spinelDrvSendReset, bind_eq_bind,
      bind_eq_some_iff, Option.some.injEq] at h
    obtain ⟨packed, -, rfl⟩ := h
    rfl
  · obtain ⟨fmt, args, hsend⟩ := req.send_cmd drv fun type he => hreset ⟨type, he⟩
    rw [(spinelDrvSendCmd_tid (hsend ▸ h)).1]
    rfl

theorem RcpLink.request_inst {bufSize : ℕ} (link : RcpLink bufSize) (req : SpinelRequest)
    (fills : List ℤ) (out : RcpOutcome bufSize) (h : link.request req fills = some out) :
    out.link.drv.inst = link.drv.inst := by
  simp only [RcpLink.request, bind_eq_bind, bind_eq_some_iff] at h
  obtain ⟨sent, hsent, h⟩ := h
  have hinst := req.send_inst link.drv sent hsent
  split at h
  · obtain rfl := Option.some.inj h
    exact hinst
  · simp only [RcpLink.processStart, bind_eq_bind, bind_eq_some_iff, Prod.exists,
      Option.some.injEq] at h
    obtain ⟨_, _, _, -, rfl⟩ := h
    exact hinst

/-! ### System -/

/-- A received frame in its buffer, and the call it answers. -/
structure RcpResponse where
  buffer : ℕ
  payload : List UInt8
  answers : Option ℕ
  deriving DecidableEq, Repr

/-- How far a call has come: sent, counted in `rx_msgq_waiters`, pending, back from `k_msgq_get`, no
longer counted, returned. -/
inductive RcpCallState
  | idle
  | sent (spinelId : UInt8)
  | counted (spinelId : UInt8)
  | pending (spinelId : UInt8)
  | got (spinelId : UInt8) (income : Option RcpResponse)
  | left (spinelId : UInt8) (income : Option RcpResponse)
  | done (spinelId : UInt8) (income : Option RcpResponse) (result : RcpEvaluated)
  deriving DecidableEq, Repr

/-- What does not change, with the request of every call and the priority of its thread. -/
structure RcpSysConfig where
  rx : RcpRxConfig
  queueMax : ℕ
  queuePos : 0 < queueMax
  request : ℕ → SpinelRequest
  prio : ℕ → ℤ

/-- The shared state. `blocked` is a response that waits for a full queue. The last field is for the
observer: the answer that came while the call was awaiting one. -/
structure RcpSys (bufSize : ℕ) where
  link : RcpLink bufSize
  waiters : ℤ
  queue : List RcpResponse
  waitq : List ℕ
  blocked : Option RcpResponse
  calls : ℕ → RcpCallState
  buffers : ℕ
  freed : List ℕ
  answered : ℕ → Option RcpResponse

inductive RcpStep
  | send (c : ℕ) (fills : List ℤ)
  | sync (fills : List ℤ)
  | inc (c : ℕ)
  | get (c : ℕ) (expired : Bool)
  | timeout (c : ℕ)
  | dec (c : ℕ)
  | evaluate (c : ℕ) (mallocOk : Bool)
  | receive (payload : List UInt8) (answers : Option ℕ)

def RcpCallState.awaiting : RcpCallState → Bool
  | .sent _ | .counted _ | .pending _ => true
  | _ => false

/-- A thread is inserted behind those of its own or a higher priority. -/
def insertWaiter (prio : ℕ → ℤ) (c : ℕ) : List ℕ → List ℕ
  | [] => [c]
  | d :: ds => if prio c < prio d then c :: d :: ds else d :: insertWaiter prio c ds

def RcpCallState.wake (f : RcpResponse) : RcpCallState → RcpCallState
  | .pending spinelId => .got spinelId (some f)
  | state => state

namespace RcpSys

variable {bufSize : ℕ}

def init : RcpSys bufSize where
  link := .init
  waiters := 0
  queue := []
  waitq := []
  blocked := none
  calls := fun _ => .idle
  buffers := 0
  freed := []
  answered := fun _ => none

def setCall (s : RcpSys bufSize) (c : ℕ) (state : RcpCallState) : RcpSys bufSize :=
  { s with calls := Function.update s.calls c state }

/-- `k_msgq_put` with `K_FOREVER`. -/
def kMsgqPut (cfg : RcpSysConfig) (s : RcpSys bufSize) (f : RcpResponse) : RcpSys bufSize :=
  if s.queue.length < cfg.queueMax then
    match s.waitq with
    | c :: waitq => { s.setCall c ((s.calls c).wake f) with waitq := waitq }
    | [] => { s with queue := s.queue ++ [f] }
  else { s with blocked := some f }

/-- `k_msgq_get`; `expired` says that the time is already up. -/
def kMsgqGet (cfg : RcpSysConfig) (s : RcpSys bufSize) (c : ℕ) (spinelId : UInt8)
    (expired : Bool) : RcpSys bufSize :=
  match s.queue with
  | f :: queue =>
    { s.setCall c (.got spinelId (some f)) with
      queue := queue ++ s.blocked.toList
      blocked := none }
  | [] =>
    if expired then s.setCall c (.got spinelId none)
    else { s.setCall c (.pending spinelId) with waitq := insertWaiter cfg.prio c s.waitq }

def note (s : RcpSys bufSize) (f : RcpResponse) : RcpSys bufSize :=
  { s with
    buffers := s.buffers + 1
    answered := fun c =>
      if f.answers = some c ∧ (s.calls c).awaiting then some f else s.answered c }

/-- The driver's answer to a response: which receiver it is for, with a request waiting. -/
def dispatch (cfg : RcpSysConfig) (s : RcpSys bufSize) (waiting : Bool) (payload : List UInt8) :
    Option RcpRxDelivery :=
  rcpRxDispatch { cfg.rx with drv := s.link.drv } waiting payload

/-- End of `openthread_rcp_reception_done`. -/
def receive (cfg : RcpSysConfig) (s : RcpSys bufSize) (payload : List UInt8)
    (answers : Option ℕ) : Option (RcpSys bufSize) := do
  let f : RcpResponse := ⟨s.buffers, payload, answers⟩
  let dest ← s.dispatch cfg (0 < s.waiters) payload
  if dest = .queued then some ((s.note f).kMsgqPut cfg f)
  else some { s.note f with freed := s.freed ++ [f.buffer] }

/-- End of a call. A response without bytes is not freed. -/
def evaluate (cfg : RcpSysConfig) (s : RcpSys bufSize) (c : ℕ) (spinelId : UInt8)
    (income : Option RcpResponse) (mallocOk : Bool) : Option (RcpSys bufSize) :=
  match income with
  | none => some (s.setCall c (.done spinelId income ⟨-ETIMEDOUT, .none⟩))
  | some f =>
    if f.payload = [] then some (s.setCall c (.done spinelId income ⟨-EINVAL, .none⟩))
    else do
      let r ← (cfg.request c).evaluate s.link.drv spinelId cfg.rx.frameMax mallocOk f.payload
      some { s.setCall c (.done spinelId income r) with freed := s.freed ++ [f.buffer] }

def send (cfg : RcpSysConfig) (s : RcpSys bufSize) (c : ℕ) (fills : List ℤ) :
    Option (RcpSys bufSize) := do
  let sent ← (cfg.request c).send s.link.drv
  let out ← s.link.request (cfg.request c) fills
  if out.ret < 0 then some { s.setCall c (.done 0 none ⟨out.ret, .none⟩) with link := out.link }
  else some { s.setCall c (.sent (UInt8.ofNat sent.ret.toNat)) with link := out.link }

/-- One step; `none` when it is not possible. -/
def step (cfg : RcpSysConfig) (s : RcpSys bufSize) : RcpStep → Option (RcpSys bufSize)
  | .send c fills => match s.calls c with
    | .idle => s.send cfg c fills
    | _ => none
  | .sync fills => do
    let out ← s.link.request .getTimestamp fills
    some { s with link := out.link }
  | .inc c => match s.calls c with
    | .sent spinelId => some { s.setCall c (.counted spinelId) with waiters := s.waiters + 1 }
    | _ => none
  | .get c expired => match s.calls c with
    | .counted spinelId => some (s.kMsgqGet cfg c spinelId expired)
    | _ => none
  | .timeout c => match s.calls c with
    | .pending spinelId =>
      some { s.setCall c (.got spinelId none) with waitq := s.waitq.erase c }
    | _ => none
  | .dec c => match s.calls c with
    | .got spinelId income =>
      some { s.setCall c (.left spinelId income) with
        waiters := if 0 < s.waiters then s.waiters - 1 else s.waiters }
    | _ => none
  | .evaluate c mallocOk => match s.calls c with
    | .left spinelId income => s.evaluate cfg c spinelId income mallocOk
    | _ => none
  | .receive payload answers =>
    if s.blocked.isSome then none else s.receive cfg payload answers

def run (cfg : RcpSysConfig) (s : RcpSys bufSize) (steps : List RcpStep) :
    Option (RcpSys bufSize) :=
  steps.foldlM (step cfg) s

/-! ### Own answers -/

end RcpSys

/-- The response a call has taken and not freed yet. -/
def RcpCallState.holds : RcpCallState → Option RcpResponse
  | .got _ income | .left _ income => income
  | _ => none

/-- A call that has taken a response, now or before. -/
def RcpCallState.Took (f : RcpResponse) (state : RcpCallState) : Prop :=
  state.holds = some f ∨ ∃ spinelId r, state = .done spinelId (some f) r

namespace RcpSys

variable {bufSize : ℕ}

/-- A call that evaluated a response evaluated its own answer. An answer that came while its call
was awaiting one is the next the call takes, or was taken by it. And every buffer was freed once, or
is on its way. -/
structure OwnAnswers (cfg : RcpSysConfig) (s : RcpSys bufSize) : Prop where
  own : ∀ c spinelId f r, s.calls c = .done spinelId (some f) r → f.answers = some c ∧
    ∃ drv mallocOk, drv.inst = 0 ∧
      (cfg.request c).evaluate drv spinelId cfg.rx.frameMax mallocOk f.payload = some r
  reached : ∀ c f, s.answered c = some f →
    (∃ spinelId, s.calls c = .counted spinelId ∧ s.queue = [f]) ∨ (s.calls c).Took f
  freed_once : s.freed.Nodup
  freed_or_held : ∀ b, b < s.buffers ↔
    b ∈ s.freed ∨ (∃ f ∈ s.queue, f.buffer = b) ∨ ∃ c f, (s.calls c).holds = some f ∧ f.buffer = b
  freed_gone : ∀ b ∈ s.freed,
    (∀ f ∈ s.queue, f.buffer ≠ b) ∧ ∀ c f, (s.calls c).holds = some f → f.buffer ≠ b

/-- Call that takes the next response: the first in the wait queue, or the only one between
`atomic_inc` and `k_msgq_get`. -/
def NextToTake (s : RcpSys bufSize) (c : ℕ) : Prop :=
  s.waitq.head? = some c ∨
    s.waitq = [] ∧ s.queue = [] ∧ (∃ spinelId, s.calls c = .counted spinelId) ∧
      ∀ d spinelId, s.calls d = .counted spinelId → d = c

/-- Steps on which the calls can rely: a response that comes while the counter is positive is
for the call that takes the next one; any other comes to a call that no longer awaits it; and no
call starts to be counted while a response is queued. -/
def Calm (cfg : RcpSysConfig) (s : RcpSys bufSize) : RcpStep → Prop
  | .inc _ => s.queue = []
  | .receive payload answers =>
    if 0 < s.waiters ∧ s.dispatch cfg true payload = some .queued then
      payload ≠ [] ∧ ∃ c, answers = some c ∧ s.NextToTake c
    else ∀ c, answers = some c → (s.calls c).awaiting = false
  | _ => True

structure Inv (cfg : RcpSysConfig) (s : RcpSys bufSize) : Prop extends OwnAnswers cfg s where
  inst : s.link.drv.inst = 0
  blocked : s.blocked = none
  waitq_pending : ∀ c ∈ s.waitq, ∃ spinelId, s.calls c = .pending spinelId
  waitq_nodup : s.waitq.Nodup
  queued : ∀ f ∈ s.queue, s.waitq = [] ∧ s.queue = [f] ∧ f.payload ≠ [] ∧
    ∃ c spinelId, f.answers = some c ∧ s.calls c = .counted spinelId ∧ s.answered c = some f ∧
      ∀ d spinelId', s.calls d = .counted spinelId' → d = c
  held : ∀ c f, (s.calls c).holds = some f →
    f.answers = some c ∧ f.payload ≠ [] ∧ s.answered c = some f
  held_apart : ∀ f ∈ s.queue, ∀ c g, (s.calls c).holds = some g → g.buffer ≠ f.buffer
  held_unique : ∀ c d f g, (s.calls c).holds = some f → (s.calls d).holds = some g →
    f.buffer = g.buffer → c = d

theorem init_inv (cfg : RcpSysConfig) : (init : RcpSys bufSize).Inv cfg where
  own := by simp [init]
  reached := by simp [init]
  freed_once := by simp [init]
  freed_or_held := by simp [init, RcpCallState.holds]
  freed_gone := by simp [init]
  inst := rfl
  blocked := rfl
  waitq_pending := by simp [init]
  waitq_nodup := by simp [init]
  queued := by simp [init]
  held := by simp [init, RcpCallState.holds]
  held_apart := by simp [init]
  held_unique := by simp [init, RcpCallState.holds]

/-! ### Steps -/

variable {cfg : RcpSysConfig} {s s' : RcpSys bufSize}

attribute [local simp] RcpCallState.holds RcpCallState.Took

@[simp] theorem setCall_calls (s : RcpSys bufSize) (c d : ℕ) (state : RcpCallState) :
    (s.setCall c state).calls d = if d = c then state else s.calls d :=
  Function.update_apply s.calls c state d

@[simp] theorem setCall_queue (s : RcpSys bufSize) (c : ℕ) (state : RcpCallState) :
    (s.setCall c state).queue = s.queue := rfl

@[simp] theorem note_queue (s : RcpSys bufSize) (f : RcpResponse) :
    (s.note f).queue = s.queue := rfl

@[simp] theorem note_waitq (s : RcpSys bufSize) (f : RcpResponse) :
    (s.note f).waitq = s.waitq := rfl

@[simp] theorem note_calls (s : RcpSys bufSize) (f : RcpResponse) :
    (s.note f).calls = s.calls := rfl

section

variable (h : s.Inv cfg)
include h

variable (c : ℕ) (spinelId : UInt8) (new : RcpCallState) (waitq : List ℕ) (waiters : ℤ)

theorem Inv.move (link : RcpLink bufSize)
    (hinst : link.drv.inst = 0) (hholds : new.holds = (s.calls c).holds)
    (hcounted : ∀ spinelId, new = .counted spinelId → s.queue = [])
    (hqueue : ∀ spinelId, s.calls c = .counted spinelId → s.queue = [])
    (hdone : ∀ spinelId f r, new ≠ .done spinelId (some f) r)
    (hreached : ∀ f, s.answered c = some f → new.holds = some f)
    (hpending : ∀ d ∈ waitq, (d = c ∧ ∃ spinelId, new = .pending spinelId) ∨
      d ≠ c ∧ d ∈ s.waitq) (hnodup : waitq.Nodup) (hwait : s.queue ≠ [] → waitq = []) :
    Inv cfg { s.setCall c new with waitq := waitq, waiters := waiters, link := link } := by
  have hholdsAll : ∀ d, ((s.setCall c new).calls d).holds = (s.calls d).holds := by
    intro d
    rw [setCall_calls]
    split
    · next hd => rw [hholds, hd]
    · rfl
  refine ⟨⟨?_, ?_, h.freed_once, ?_, ?_⟩, hinst, h.blocked, ?_, hnodup, ?_, ?_, ?_, ?_⟩
  · intro d spinelId f r hd
    simp only [setCall_calls] at hd
    split at hd
    · exact absurd hd (hdone spinelId f r)
    · exact h.own d spinelId f r hd
  · intro d f hd
    simp only [setCall_calls]
    split
    · next hdc => exact .inr (.inl (hreached f (hdc ▸ hd)))
    · exact h.reached d f hd
  · intro b
    simp only [hholdsAll]
    exact h.freed_or_held b
  · intro b hb
    simp only [hholdsAll]
    exact h.freed_gone b hb
  · intro d hd
    simp only [setCall_calls]
    rcases hpending d hd with ⟨rfl, hnew⟩ | ⟨hne, hmem⟩
    · simpa using hnew
    · simpa [hne] using h.waitq_pending d hmem
  · intro f hf
    have hne : s.queue ≠ [] := ne_nil_of_mem hf
    obtain ⟨-, hsingle, hpayload, e, spinelId, hans, hcount, hansd, honly⟩ := h.queued f hf
    have hec : e ≠ c := by
      rintro rfl
      exact hne (hqueue spinelId hcount)
    refine ⟨hwait hne, hsingle, hpayload, e, spinelId, hans, by simp [hec, hcount], hansd, ?_⟩
    intro d spinelId' hd
    simp only [setCall_calls] at hd
    split at hd
    · exact absurd (hcounted spinelId' hd) hne
    · exact honly d spinelId' hd
  · intro d f hd
    exact h.held d f (hholdsAll d ▸ hd)
  · intro f hf d g hd
    exact h.held_apart f hf d g (hholdsAll d ▸ hd)
  · intro d e f g hd he
    exact h.held_unique d e f g (hholdsAll d ▸ hd) (hholdsAll e ▸ he)

/-- A call that has not taken anything has not been answered, unless its answer is in the
queue. -/
theorem Inv.not_answered (hnot : ∀ f, ¬ (s.calls c).Took f)
    (hqueue : ∀ spinelId, s.calls c = .counted spinelId → s.queue = []) : s.answered c = none := by
  by_contra hne
  obtain ⟨f, hf⟩ := ne_none_iff_exists'.mp hne
  rcases h.reached c f hf with ⟨spinelId, hcounted, hsingle⟩ | htook
  · simp [hqueue spinelId hcounted] at hsingle
  · exact hnot f htook

theorem Inv.not_mem_waitq
    (hnot : ∀ spinelId, s.calls c ≠ .pending spinelId) : ∀ d ∈ s.waitq, d ≠ c ∧ d ∈ s.waitq := by
  refine fun d hd => ⟨?_, hd⟩
  rintro rfl
  obtain ⟨spinelId, hpending⟩ := h.waitq_pending d hd
  exact hnot spinelId hpending

theorem Inv.waitq_nil (hne : s.queue ≠ []) : s.waitq = [] := by
  obtain ⟨f, hf⟩ := exists_mem_of_ne_nil _ hne
  exact (h.queued f hf).1

theorem Inv.moveOn
    (link : RcpLink bufSize) (hinst : link.drv.inst = 0) (hnot : ∀ f, ¬ (s.calls c).Took f)
    (hnew : ∀ f, ¬ new.Took f) (hcounted : ∀ spinelId, new = .counted spinelId → s.queue = [])
    (hqueue : ∀ spinelId, s.calls c = .counted spinelId → s.queue = [])
    (hpending : ∀ d ∈ waitq, (d = c ∧ ∃ spinelId, new = .pending spinelId) ∨
      d ≠ c ∧ d ∈ s.waitq) (hnodup : waitq.Nodup) (hwait : s.queue ≠ [] → waitq = []) :
    Inv cfg { s.setCall c new with waitq := waitq, waiters := waiters, link := link } := by
  refine h.move c new waitq waiters link hinst ?_ hcounted hqueue
    (fun spinelId f r hd => hnew f (.inr ⟨spinelId, r, hd⟩)) ?_ hpending hnodup hwait
  · rw [eq_none_iff_forall_ne_some.mpr fun f hf => hnew f (.inl hf),
      eq_none_iff_forall_ne_some.mpr fun f hf => hnot f (.inl hf)]
  · simp [h.not_answered c hnot hqueue]

theorem Inv.send
    (hidle : s.calls c = .idle) (fills : List ℤ) (hstep : s.send cfg c fills = some s') :
    s'.Inv cfg := by
  simp only [RcpSys.send, bind_eq_bind, bind_eq_some_iff] at hstep
  obtain ⟨sent, -, out, hout, hstep⟩ := hstep
  have hinst : out.link.drv.inst = 0 := (s.link.request_inst _ fills out hout).trans h.inst
  have hwaitq := h.not_mem_waitq c (by simp [hidle])
  split at hstep <;> obtain rfl := Option.some.inj hstep
  all_goals
    exact h.moveOn c _ s.waitq s.waiters out.link hinst (by simp [hidle]) (by simp) (by simp)
      (by simp [hidle]) (fun d hd => .inr (hwaitq d hd)) h.waitq_nodup h.waitq_nil

theorem Inv.inc (hsent : s.calls c = .sent spinelId) (hqueue : s.queue = []) :
    Inv cfg { s.setCall c (.counted spinelId) with waiters := s.waiters + 1 } := by
  have hwaitq := h.not_mem_waitq c (by simp [hsent])
  exact h.moveOn c _ s.waitq (s.waiters + 1) s.link h.inst (by simp [hsent]) (by simp)
    (fun _ _ => hqueue) (by simp [hsent]) (fun d hd => .inr (hwaitq d hd)) h.waitq_nodup
    h.waitq_nil

theorem Inv.timeout (hpending : s.calls c = .pending spinelId) :
    Inv cfg { s.setCall c (.got spinelId none) with waitq := s.waitq.erase c } := by
  refine h.moveOn c _ (s.waitq.erase c) s.waiters s.link h.inst (by simp [hpending]) (by simp)
    (by simp) (by simp [hpending]) ?_ (h.waitq_nodup.erase c)
    (fun hne => by simp [h.waitq_nil hne])
  intro d hd
  obtain ⟨hne, hmem⟩ := (List.Nodup.mem_erase_iff h.waitq_nodup).mp hd
  exact .inr ⟨hne, hmem⟩

theorem Inv.dec (income : Option RcpResponse) (hgot : s.calls c = .got spinelId income)
    (waiters : ℤ) :
    Inv cfg { s.setCall c (.left spinelId income) with waiters := waiters } := by
  have hwaitq := h.not_mem_waitq c (by simp [hgot])
  refine h.move c _ s.waitq waiters s.link h.inst (by simp [hgot]) (by simp)
    (by simp [hgot]) (by simp) ?_ (fun d hd => .inr (hwaitq d hd)) h.waitq_nodup h.waitq_nil
  intro f hf
  rcases h.reached c f hf with ⟨spinelId', hcounted, -⟩ | hholds | ⟨spinelId', r, hdone⟩
  · simp [hgot] at hcounted
  · simpa [hgot] using hholds
  · simp [hgot] at hdone

end

variable (prio : ℕ → ℤ) (c : ℕ)

theorem mem_insertWaiter (d : ℕ) (waitq : List ℕ) :
    d ∈ insertWaiter prio c waitq ↔ d = c ∨ d ∈ waitq := by
  induction waitq with
  | nil => simp [insertWaiter]
  | cons e waitq ih =>
    simp only [insertWaiter]
    split
    · simp
    · simp only [mem_cons, ih]
      tauto

theorem nodup_insertWaiter (waitq : List ℕ) (h : waitq.Nodup)
    (hc : c ∉ waitq) : (insertWaiter prio c waitq).Nodup := by
  induction waitq with
  | nil => simp [insertWaiter]
  | cons e waitq ih =>
    obtain ⟨he, hrest⟩ := nodup_cons.mp h
    obtain ⟨hce, hc'⟩ : c ≠ e ∧ c ∉ waitq := by simpa using hc
    simp only [insertWaiter]
    split
    · simp [hce, hc', he, hrest]
    refine nodup_cons.mpr ⟨?_, ih hrest hc'⟩
    rw [mem_insertWaiter]
    rintro (rfl | hmem)
    · exact hce rfl
    · exact he hmem

theorem holds_got {c : ℕ} (hold : (s.calls c).holds = none) (spinelId : UInt8) (f : RcpResponse)
    (d : ℕ) (g : RcpResponse) :
    ((s.setCall c (.got spinelId (some f))).calls d).holds = some g ↔
      d = c ∧ g = f ∨ (s.calls d).holds = some g := by
  rw [setCall_calls]
  split
  · next hd =>
    subst hd
    rw [hold]
    simpa using eq_comm
  · next hd => simp [hd]

section

variable (h : s.Inv cfg)
include h

variable (c : ℕ) (spinelId : UInt8) (f : RcpResponse)

/-- **A call gets a response** that was freed by none and is held by no other. -/
theorem Inv.gets {c : ℕ} {f : RcpResponse} {waitq : List ℕ} {queue : List RcpResponse}
    {blocked : Option RcpResponse} {buffers : ℕ} {answered : ℕ → Option RcpResponse}
    (spinelId : UInt8) (hans : f.answers = some c) (hpayload : f.payload ≠ [])
    (hold : (s.calls c).holds = none)
    (hanswered : ∀ d, answered d = if d = c then some f else s.answered d)
    (hreached : ∀ d g, d ≠ c → s.answered d = some g → (s.calls d).Took g)
    (hfreed : ∀ b ∈ s.freed, f.buffer ≠ b)
    (hapart : ∀ d g, (s.calls d).holds = some g → g.buffer ≠ f.buffer)
    (hbuffers : ∀ b, b < buffers ↔ b ∈ s.freed ∨ f.buffer = b ∨
      ∃ d g, (s.calls d).holds = some g ∧ g.buffer = b)
    (hwaitq : ∀ d ∈ waitq, d ∈ s.waitq ∧ d ≠ c) (hnodup : waitq.Nodup) (hqueue : queue = [])
    (hblocked : blocked = none) :
    Inv cfg { s.setCall c (.got spinelId (some f)) with
      waitq := waitq, queue := queue, blocked := blocked, buffers := buffers,
      answered := answered } := by
  subst hqueue hblocked
  have hholds := holds_got hold spinelId f
  refine ⟨⟨?_, ?_, h.freed_once, ?_, ?_⟩, h.inst, rfl, ?_, hnodup, by simp, ?_, by simp, ?_⟩
  · intro d spinelId' g r hd
    simp only [setCall_calls] at hd
    split at hd
    · simp at hd
    · exact h.own d spinelId' g r hd
  · intro d g hd
    replace hd : (if d = c then some f else s.answered d) = some g := (hanswered d).symm.trans hd
    refine .inr ?_
    by_cases hdc : d = c
    · rw [if_pos hdc] at hd
      obtain rfl := Option.some.inj hd
      exact .inl ((hholds d f).mpr (.inl ⟨hdc, rfl⟩))
    · rw [if_neg hdc] at hd
      simpa [hdc] using hreached d g hdc hd
  · intro b
    rw [hbuffers]
    simp only [hholds]
    constructor
    · rintro (hb | hb | ⟨d, g, hd, hb⟩)
      exacts [.inl hb, .inr (.inr ⟨c, f, .inl ⟨rfl, rfl⟩, hb⟩), .inr (.inr ⟨d, g, .inr hd, hb⟩)]
    · rintro (hb | ⟨g, hg, -⟩ | ⟨d, g, ⟨-, rfl⟩ | hd, hb⟩)
      exacts [.inl hb, absurd hg (by simp), .inr (.inl hb), .inr (.inr ⟨d, g, hd, hb⟩)]
  · intro b hb
    refine ⟨by simp, fun d g hd => ?_⟩
    rcases (hholds d g).mp hd with ⟨-, rfl⟩ | hd
    exacts [hfreed b hb, (h.freed_gone b hb).2 d g hd]
  · intro d hd
    obtain ⟨hmem, hdc⟩ := hwaitq d hd
    simpa [hdc] using h.waitq_pending d hmem
  · intro d g hd
    rcases (hholds d g).mp hd with ⟨rfl, rfl⟩ | hd'
    · exact ⟨hans, hpayload, (hanswered d).trans (if_pos rfl)⟩
    have hdc : d ≠ c := by
      intro hdc
      rw [hdc, hold] at hd'
      cases hd'
    obtain ⟨h1, h2, h3⟩ := h.held d g hd'
    exact ⟨h1, h2, ((hanswered d).trans (if_neg hdc)).trans h3⟩
  intro d e g g' hd he hb
  rcases (hholds d g).mp hd with ⟨hdc, hg⟩ | hd' <;>
    rcases (hholds e g').mp he with ⟨hec, hg'⟩ | he'
  · exact hdc.trans hec.symm
  · exact absurd (hg ▸ hb.symm) (hapart e g' he')
  · exact absurd (hg' ▸ hb) (hapart d g hd')
  · exact h.held_unique d e g g' hd' he' hb

theorem Inv.take (hcounted : s.calls c = .counted spinelId) (f : RcpResponse)
    (hqueue : s.queue = [f]) :
    Inv cfg { s.setCall c (.got spinelId (some f)) with queue := [], blocked := none } := by
  have hmem : f ∈ s.queue := by simp [hqueue]
  obtain ⟨hwaitq, -, hpayload, e, spinelId', hans, hcount, hansd, honly⟩ := h.queued f hmem
  obtain rfl : c = e := honly c spinelId hcounted
  refine h.gets spinelId hans hpayload (by simp [hcounted]) (fun d => ?_) (fun d g hdc hd => ?_)
    (fun b hb => (h.freed_gone b hb).1 f hmem) (h.held_apart f hmem) (fun b => ?_)
    (by simp [setCall, hwaitq]) h.waitq_nodup rfl rfl
  · split_ifs with hdc
    exacts [hdc ▸ hansd, rfl]
  · rcases h.reached d g hd with ⟨spinelId'', hd', -⟩ | htook
    exacts [absurd (honly d spinelId'' hd') hdc, htook]
  · have hb := h.freed_or_held b
    simp only [hqueue, mem_singleton, exists_eq_left] at hb
    exact hb

theorem Inv.get (hcounted : s.calls c = .counted spinelId) (expired : Bool) :
    Inv cfg (s.kMsgqGet cfg c spinelId expired) := by
  have hwaitq := h.not_mem_waitq c (by simp [hcounted])
  cases hqueue : s.queue with
  | cons f queue =>
    have hsingle := (h.queued f (by simp [hqueue])).2.1
    obtain rfl : queue = [] := by simpa [hqueue] using hsingle
    simp only [kMsgqGet, hqueue, h.blocked, toList_none, append_nil]
    exact h.take c spinelId hcounted f hqueue
  | nil =>
    simp only [kMsgqGet, hqueue]
    cases expired with
    | true =>
      exact h.moveOn c _ s.waitq s.waiters s.link h.inst (by simp [hcounted]) (by simp) (by simp)
        (fun _ _ => hqueue) (fun d hd => .inr (hwaitq d hd)) h.waitq_nodup h.waitq_nil
    | false =>
      refine h.moveOn c _ (insertWaiter cfg.prio c s.waitq) s.waiters s.link h.inst
        (by simp [hcounted]) (by simp) (by simp) (fun _ _ => hqueue) ?_
        (nodup_insertWaiter _ c _ h.waitq_nodup fun hc => (hwaitq c hc).1 rfl)
        (fun hne => absurd hqueue hne)
      intro d hd
      rcases (mem_insertWaiter cfg.prio c d s.waitq).mp hd with rfl | hmem
      · exact .inl ⟨rfl, spinelId, rfl⟩
      · exact .inr (hwaitq d hmem)

theorem Inv.freed_append {b : ℕ} (hb : b ∉ s.freed) : (s.freed ++ [b]).Nodup := by
  rw [nodup_append_comm]
  exact nodup_cons.mpr ⟨hb, h.freed_once⟩

theorem Inv.free (hleft : s.calls c = .left spinelId (some f)) (r : RcpEvaluated) (mallocOk : Bool)
    (hr : (cfg.request c).evaluate s.link.drv spinelId cfg.rx.frameMax mallocOk f.payload =
      some r) :
    Inv cfg { s.setCall c (.done spinelId (some f) r) with freed := s.freed ++ [f.buffer] } := by
  have hold : (s.calls c).holds = some f := by simp [hleft]
  obtain ⟨hans, -, hansd⟩ := h.held c f hold
  have hholds : ∀ d g, ((s.setCall c (.done spinelId (some f) r)).calls d).holds = some g ↔
      d ≠ c ∧ (s.calls d).holds = some g := by
    intro d g
    rw [setCall_calls]
    by_cases hd : d = c <;> simp [hd]
  have hwaitq := h.not_mem_waitq c (by simp [hleft])
  refine ⟨⟨?_, ?_, ?_, ?_, ?_⟩, h.inst, h.blocked, ?_, h.waitq_nodup, ?_, ?_, ?_, ?_⟩
  · intro d spinelId' g r' hd
    simp only [setCall_calls] at hd
    split at hd
    · next hdc =>
        obtain ⟨rfl, hg, rfl⟩ : spinelId = spinelId' ∧ some f = some g ∧ r = r' := by
          simpa using hd
        obtain rfl := Option.some.inj hg
        exact ⟨hdc ▸ hans, s.link.drv, mallocOk, h.inst, hdc ▸ hr⟩
    · exact h.own d spinelId' g r' hd
  · intro d g hd
    by_cases hdc : d = c
    · subst hdc
      obtain rfl : f = g := Option.some.inj (hansd.symm.trans hd)
      exact .inr (.inr ⟨spinelId, r, by simp⟩)
    · simpa [hdc] using h.reached d g hd
  · exact h.freed_append fun hb => (h.freed_gone _ hb).2 c f hold rfl
  · intro b
    refine (h.freed_or_held b).trans ?_
    simp only [hholds, mem_append, mem_singleton]
    constructor
    · rintro (hfreed | hqueue | ⟨d, g, hd, hb⟩)
      · exact .inl (.inl hfreed)
      · exact .inr (.inl hqueue)
      by_cases hdc : d = c
      · subst hdc
        obtain rfl : f = g := Option.some.inj (hold.symm.trans hd)
        exact .inl (.inr hb.symm)
      · exact .inr (.inr ⟨d, g, ⟨hdc, hd⟩, hb⟩)
    rintro ((hfreed | hb) | hqueue | ⟨d, g, ⟨-, hd⟩, hb⟩)
    · exact .inl hfreed
    · exact .inr (.inr ⟨c, f, hold, hb.symm⟩)
    · exact .inr (.inl hqueue)
    · exact .inr (.inr ⟨d, g, hd, hb⟩)
  · intro b hb
    rcases mem_append.mp hb with hfreed | hb
    · exact ⟨(h.freed_gone b hfreed).1, fun d g hd =>
        (h.freed_gone b hfreed).2 d g ((hholds d g).mp hd).2⟩
    · obtain rfl : b = f.buffer := by simpa using hb
      refine ⟨fun g hg heq => h.held_apart g hg c f hold heq.symm, fun d g hd heq => ?_⟩
      obtain ⟨hdc, hd'⟩ := (hholds d g).mp hd
      exact hdc (h.held_unique d c g f hd' hold heq)
  · intro d hd
    simpa [(hwaitq d hd).1] using h.waitq_pending d hd
  · intro g hg
    obtain ⟨hnil, hsingle, hpayload, e, spinelId', hans', hcount, hansd', honly⟩ := h.queued g hg
    have hec : e ≠ c := by
      rintro rfl
      simp [hleft] at hcount
    refine ⟨hnil, hsingle, hpayload, e, spinelId', hans', by simp [hec, hcount], hansd', ?_⟩
    intro d spinelId'' hd
    simp only [setCall_calls] at hd
    split at hd
    · simp at hd
    · exact honly d spinelId'' hd
  · exact fun d g hd => h.held d g ((hholds d g).mp hd).2
  · exact fun g hg d g' hd => h.held_apart g hg d g' ((hholds d g').mp hd).2
  · exact fun d e g g' hd he =>
      h.held_unique d e g g' ((hholds d g).mp hd).2 ((hholds e g').mp he).2

theorem Inv.evaluate (income : Option RcpResponse) (hleft : s.calls c = .left spinelId income)
    (mallocOk : Bool) (hstep : s.evaluate cfg c spinelId income mallocOk = some s') :
    s'.Inv cfg := by
  cases income with
  | none =>
    obtain rfl := Option.some.inj hstep
    have hwaitq := h.not_mem_waitq c (by simp [hleft])
    exact h.moveOn c _ s.waitq s.waiters s.link h.inst (by simp [hleft]) (by simp) (by simp)
      (by simp [hleft]) (fun d hd => .inr (hwaitq d hd)) h.waitq_nodup h.waitq_nil
  | some f =>
    have hpayload := (h.held c f (by simp [hleft])).2.1
    simp only [RcpSys.evaluate, hpayload, if_false, bind_eq_bind,
      bind_eq_some_iff, Option.some.injEq] at hstep
    obtain ⟨r, hr, rfl⟩ := hstep
    exact h.free c spinelId f hleft r mallocOk hr

/-! ### Reception -/

theorem Inv.fresh : s.buffers ∉ s.freed ∧ (∀ f ∈ s.queue, f.buffer ≠ s.buffers) ∧
      ∀ c f, (s.calls c).holds = some f → f.buffer ≠ s.buffers := by
  have hnot := mt (h.freed_or_held s.buffers).mpr (lt_irrefl _)
  push Not at hnot
  exact ⟨hnot.1, hnot.2.1, fun c f hc => hnot.2.2 c f hc⟩

theorem Inv.drop
    (hf : f.buffer = s.buffers) (hlate : ∀ c, f.answers = some c → (s.calls c).awaiting = false) :
    Inv cfg { s.note f with freed := s.freed ++ [f.buffer] } := by
  obtain ⟨hfreed, hqueue, hheld⟩ := h.fresh
  have hanswered : (s.note f).answered = s.answered := by
    funext c
    refine if_neg ?_
    rintro ⟨hans, hawait⟩
    simp [hlate c hans] at hawait
  refine ⟨⟨h.own, ?_, ?_, ?_, ?_⟩, h.inst, h.blocked, h.waitq_pending, h.waitq_nodup, ?_, ?_,
    h.held_apart, h.held_unique⟩
  · intro c g hg
    exact h.reached c g (hanswered ▸ hg)
  · exact h.freed_append (hf ▸ hfreed)
  · intro b
    change b < s.buffers + 1 ↔ b ∈ s.freed ++ [f.buffer] ∨ _
    rw [Nat.lt_succ_iff_lt_or_eq, h.freed_or_held b, mem_append, mem_singleton, hf]
    exact or_right_comm
  · intro b hb
    rcases mem_append.mp hb with hb | hb
    · exact h.freed_gone b hb
    · obtain rfl : b = f.buffer := by simpa using hb
      exact ⟨fun g hg => hf ▸ hqueue g hg, fun c g hg => hf ▸ hheld c g hg⟩
  · intro g hg
    simpa only [hanswered, note_queue, note_waitq, note_calls] using h.queued g hg
  · intro c g hg
    simpa only [hanswered] using h.held c g hg

end

theorem note_answered {f : RcpResponse} {c : ℕ} (hans : f.answers = some c)
    (hawait : (s.calls c).awaiting = true) (d : ℕ) :
    (s.note f).answered d = if d = c then some f else s.answered d := by
  simp only [note, hans, Option.some.injEq]
  by_cases hd : d = c
  · subst hd
    simp [hawait]
  · simp [hd, Ne.symm hd]

theorem Inv.wake (h : s.Inv cfg) (f : RcpResponse)
    (hf : f.buffer = s.buffers) (hpayload : f.payload ≠ []) (c : ℕ) (waitq : List ℕ)
    (hans : f.answers = some c) (hwaitq : s.waitq = c :: waitq) :
    Inv cfg { (s.note f).setCall c ((s.calls c).wake f) with waitq := waitq } := by
  obtain ⟨hfreed, -, hheld⟩ := h.fresh
  obtain ⟨spinelId, hpending⟩ := h.waitq_pending c (by simp [hwaitq])
  have hnil : s.queue = [] := by
    by_contra hne
    simp [h.waitq_nil hne] at hwaitq
  have hwake : (s.calls c).wake f = .got spinelId (some f) := by
    simp [hpending, RcpCallState.wake]
  obtain ⟨hcnot, hnodup⟩ := nodup_cons.mp (hwaitq ▸ h.waitq_nodup)
  rw [hwake]
  refine h.gets spinelId hans hpayload (by simp [hpending])
    (note_answered hans (by simp [hpending, RcpCallState.awaiting])) (fun d g _ hd => ?_)
    (fun b hb heq => hfreed (hf ▸ heq ▸ hb)) (fun d g hd => hf ▸ hheld d g hd) (fun b => ?_)
    (fun d hd => ⟨hwaitq ▸ mem_cons_of_mem c hd, fun hdc => hcnot (hdc ▸ hd)⟩) hnodup hnil
    h.blocked
  · rcases h.reached d g hd with ⟨spinelId', -, hsingle⟩ | htook
    · simp [hnil] at hsingle
    · exact htook
  · change b < s.buffers + 1 ↔ _
    rw [Nat.lt_succ_iff_lt_or_eq, h.freed_or_held b, hnil, hf, eq_comm]
    simp only [not_mem_nil, false_and, exists_false, false_or]
    exact or_right_comm.trans or_assoc

theorem Inv.put (h : s.Inv cfg) (f : RcpResponse)
    (hf : f.buffer = s.buffers) (hpayload : f.payload ≠ []) (c : ℕ) (spinelId : UInt8)
    (hans : f.answers = some c) (hwaitq : s.waitq = []) (hnil : s.queue = [])
    (hcounted : s.calls c = .counted spinelId)
    (honly : ∀ d spinelId, s.calls d = .counted spinelId → d = c) :
    Inv cfg { s.note f with queue := [f] } := by
  obtain ⟨hfreed, hqueue, hheld⟩ := h.fresh
  have hanswered := note_answered (s := s) hans (by simp [hcounted, RcpCallState.awaiting])
  refine ⟨⟨h.own, ?_, h.freed_once, ?_, ?_⟩, h.inst, h.blocked, h.waitq_pending, h.waitq_nodup, ?_,
    ?_, ?_, h.held_unique⟩
  · intro d g hd
    have hd' : (if d = c then some f else s.answered d) = some g := (hanswered d).symm.trans hd
    by_cases hdc : d = c
    · rw [if_pos hdc] at hd'
      obtain rfl := Option.some.inj hd'
      exact .inl ⟨spinelId, hdc ▸ hcounted, rfl⟩
    · rw [if_neg hdc] at hd'
      rcases h.reached d g hd' with ⟨spinelId', -, hsingle⟩ | htook
      · simp [hnil] at hsingle
      · exact .inr htook
  · intro b
    change b < s.buffers + 1 ↔ b ∈ s.freed ∨ (∃ g ∈ [f], g.buffer = b) ∨ _
    rw [Nat.lt_succ_iff_lt_or_eq, h.freed_or_held b, hnil]
    simp only [not_mem_nil, false_and, exists_false, false_or, mem_singleton, exists_eq_left, hf]
    constructor
    · rintro ((hb | hb) | hb)
      · exact .inl hb
      · exact .inr (.inr hb)
      · exact .inr (.inl hb.symm)
    · rintro (hb | hb | hb)
      · exact .inl (.inl hb)
      · exact .inr hb.symm
      · exact .inl (.inr hb)
  · intro b hb
    refine ⟨?_, (h.freed_gone b hb).2⟩
    intro g hg
    obtain rfl : g = f := by simpa using hg
    rintro rfl
    exact hfreed (hf ▸ hb)
  · intro g hg
    obtain rfl : g = f := by simpa using hg
    exact ⟨hwaitq, rfl, hpayload, c, spinelId, hans, hcounted, (hanswered c).trans (if_pos rfl),
      honly⟩
  · intro d g hd
    have hdc : d ≠ c := by
      rintro rfl
      have : (s.calls d).holds = some g := hd
      simp [hcounted] at this
    obtain ⟨h1, h2, h3⟩ := h.held d g hd
    exact ⟨h1, h2, ((hanswered d).trans (if_neg hdc)).trans h3⟩
  · intro g hg d g' hd
    obtain rfl : g = f := by simpa using hg
    rw [hf]
    exact hheld d g' hd

theorem rcpRxDispatch_queued (cfg : RcpRxConfig) (waiting : Bool) (payload : List UInt8) :
    rcpRxDispatch cfg waiting payload = some .queued ↔
      waiting = true ∧ rcpRxDispatch cfg true payload = some .queued := by
  cases waiting with
  | true => simp
  | false =>
    simp only [Bool.false_eq_true, false_and, iff_false]
    unfold rcpRxDispatch
    simp only [bind_eq_bind, bind_eq_some_iff, not_exists, not_and]
    rintro ⟨isFrame, frame⟩ -
    cases isFrame with
    | true => cases cfg.reception <;> simp
    | false =>
      simp only [Bool.false_eq_true, if_false]
      cases cfg.timestamps with
      | false => simp
      | true =>
        simp only [if_true, bind_eq_some_iff, not_exists, not_and]
        rintro (_ | time) - <;> simp

theorem Inv.receive (h : s.Inv cfg)
    (payload : List UInt8) (answers : Option ℕ) (hcalm : s.Calm cfg (.receive payload answers))
    (hstep : s.receive cfg payload answers = some s') : s'.Inv cfg := by
  simp only [RcpSys.receive, bind_eq_bind, bind_eq_some_iff] at hstep
  obtain ⟨dest, hdest, hstep⟩ := hstep
  have hiff : dest = .queued ↔ 0 < s.waiters ∧ s.dispatch cfg true payload = some .queued := by
    rw [← some_inj, ← hdest]
    simpa [dispatch] using rcpRxDispatch_queued { cfg.rx with drv := s.link.drv }
      (decide (0 < s.waiters)) payload
  by_cases hqueued : dest = .queued
  · simp only [Calm, if_pos (hiff.mp hqueued)] at hcalm
    obtain ⟨hpayload, c, rfl, hnext⟩ := hcalm
    rw [if_pos hqueued] at hstep
    obtain rfl := Option.some.inj hstep
    rcases hnext with hhead | ⟨hwaitq, hnil, ⟨spinelId, hcounted⟩, honly⟩
    · obtain ⟨waitq, hwaitq⟩ : ∃ waitq, s.waitq = c :: waitq := by
        cases hw : s.waitq with
        | nil => simp [hw] at hhead
        | cons d waitq => exact ⟨waitq, by simpa [hw] using hhead⟩
      have hroom : s.queue.length < cfg.queueMax := by
        by_cases hne : s.queue = []
        · simpa [hne] using cfg.queuePos
        · simp [h.waitq_nil hne] at hwaitq
      have hput := h.wake ⟨s.buffers, payload, some c⟩ rfl hpayload c waitq rfl hwaitq
      simpa [kMsgqPut, note, hroom, hwaitq] using hput
    · have hput := h.put ⟨s.buffers, payload, some c⟩ rfl hpayload c spinelId rfl hwaitq hnil
        hcounted honly
      simpa [kMsgqPut, note, cfg.queuePos, hwaitq, hnil] using hput
  · simp only [Calm, if_neg (fun hc => hqueued (hiff.mpr hc))] at hcalm
    rw [if_neg hqueued] at hstep
    obtain rfl := Option.some.inj hstep
    exact h.drop ⟨s.buffers, payload, answers⟩ rfl hcalm

/-- **A calm step keeps the invariant.** -/
theorem step_inv (h : s.Inv cfg) (e : RcpStep)
    (hcalm : s.Calm cfg e) (hstep : s.step cfg e = some s') : s'.Inv cfg := by
  cases e with
  | send c fills =>
    cases hc : s.calls c <;> simp only [step, hc, reduceCtorEq] at hstep
    exact h.send c hc fills hstep
  | sync fills =>
    simp only [step, bind_eq_bind, bind_eq_some_iff, Option.some.injEq] at hstep
    obtain ⟨out, hout, rfl⟩ := hstep
    have hinst : out.link.drv.inst = 0 := (s.link.request_inst _ fills out hout).trans h.inst
    exact { h with inst := hinst }
  | inc c =>
    cases hc : s.calls c <;> simp only [step, hc, reduceCtorEq, Option.some.injEq] at hstep
    exact hstep ▸ h.inc c _ hc hcalm
  | get c expired =>
    cases hc : s.calls c <;> simp only [step, hc, reduceCtorEq, Option.some.injEq] at hstep
    subst hstep
    exact h.get c _ hc expired
  | timeout c =>
    cases hc : s.calls c <;> simp only [step, hc, reduceCtorEq, Option.some.injEq] at hstep
    subst hstep
    exact h.timeout c _ hc
  | dec c =>
    cases hc : s.calls c <;> simp only [step, hc, reduceCtorEq, Option.some.injEq] at hstep
    subst hstep
    exact h.dec c _ _ hc _
  | evaluate c mallocOk =>
    cases hc : s.calls c <;> simp only [step, hc, reduceCtorEq] at hstep
    exact h.evaluate c _ _ hc mallocOk hstep
  | receive payload answers =>
    simp only [step, h.blocked, isSome_none, Bool.false_eq_true, if_false] at hstep
    exact h.receive payload answers hcalm hstep

inductive CalmReaches (cfg : RcpSysConfig) : RcpSys bufSize → Prop
  | init : CalmReaches cfg init
  | step {s s' : RcpSys bufSize} (e : RcpStep) (h : CalmReaches cfg s) (hcalm : s.Calm cfg e)
      (hstep : s.step cfg e = some s') : CalmReaches cfg s'

theorem CalmReaches.inv (h : s.CalmReaches cfg) : s.Inv cfg := by
  induction h with
  | init => exact init_inv cfg
  | step e h hcalm hstep ih => exact step_inv ih e hcalm hstep

end RcpSys

/-- **Every call gets its own answer** in every state calm runs reach. -/
theorem rcpSys_own_answers {bufSize : ℕ} (cfg : RcpSysConfig) (s : RcpSys bufSize)
    (h : s.CalmReaches cfg) : s.OwnAnswers cfg :=
  h.inv.toOwnAnswers

/-! ### Runs -/

namespace RcpSys

variable {bufSize : ℕ} {cfg : RcpSysConfig} {s s' : RcpSys bufSize}

/-- Calm steps in which responses come to the call that waits first. -/
def calmAtHead (cfg : RcpSysConfig) (s : RcpSys bufSize) : RcpStep → Bool
  | .inc _ => s.queue.isEmpty
  | .receive payload answers =>
    decide (0 < s.waiters) && s.dispatch cfg true payload == some .queued && !payload.isEmpty &&
      answers.isSome && s.waitq.head? == answers
  | _ => true

def calmRun (cfg : RcpSysConfig) (s : RcpSys bufSize) : List RcpStep → Bool
  | [] => true
  | e :: steps => s.calmAtHead cfg e && (s.step cfg e).all fun s' => s'.calmRun cfg steps

theorem calm_of_calmAtHead {e : RcpStep} (h : s.calmAtHead cfg e = true) : s.Calm cfg e := by
  cases e with
  | inc c => exact List.isEmpty_iff.mp h
  | receive payload answers =>
    simp only [calmAtHead, Bool.and_eq_true, decide_eq_true_eq, beq_iff_eq,
      Bool.not_eq_eq_eq_not, Bool.not_true, isEmpty_eq_false_iff] at h
    obtain ⟨⟨⟨⟨hwaiters, hdest⟩, hpayload⟩, hsome⟩, hhead⟩ := h
    obtain ⟨c, rfl⟩ := isSome_iff_exists.mp hsome
    simp only [Calm, if_pos (And.intro hwaiters hdest)]
    exact ⟨hpayload, c, rfl, .inl hhead⟩
  | _ => trivial

theorem CalmReaches.run (h : s.CalmReaches cfg)
    (steps : List RcpStep) (hcalm : s.calmRun cfg steps = true)
    (hrun : s.run cfg steps = some s') : s'.CalmReaches cfg := by
  induction steps generalizing s with
  | nil => exact Option.some.inj hrun ▸ h
  | cons e steps ih =>
    obtain ⟨hhead, htail⟩ := Bool.and_eq_true_iff.mp hcalm
    obtain ⟨s₁, hstep, hrest⟩ := bind_eq_some_iff.mp hrun
    rw [hstep] at htail
    exact ih (.step e h (calm_of_calmAtHead hhead) hstep) htail hrest

end RcpSys

/-- Two calls that set the network id, the second by a thread of higher priority. -/
def rcpSysExample : RcpSysConfig where
  rx := rcpRxExample 64
  queueMax := 4
  queuePos := by decide
  request c := .panid (0x1234 + UInt16.ofNat c)
  prio c := -c

def rcpAnswerExample (c : ℕ) : List UInt8 :=
  [0x81 + UInt8.ofNat c, 6, 0x36, 0x34 + UInt8.ofNat c, 0x12]

/-- A call up to its wait, and from there to its end. -/
def rcpCallBegins (c : ℕ) : List RcpStep := [.send c (List.replicate 16 1), .inc c, .get c false]
def rcpCallEnds (c : ℕ) : List RcpStep := [.dec c, .evaluate c true]

/-- Two calls wait at the same time, and the one that waits first is answered first. -/
theorem rcpSys_own_answers_in_order : ∃ s : RcpSys 64, s.OwnAnswers rcpSysExample ∧
      s.calls 0 = .done 1 (some ⟨1, rcpAnswerExample 0, some 0⟩) ⟨0, .none⟩ ∧
      s.calls 1 = .done 2 (some ⟨0, rcpAnswerExample 1, some 1⟩) ⟨0, .none⟩ := by
  have hrun : ((RcpSys.init : RcpSys 64).run rcpSysExample (rcpCallBegins 0 ++ rcpCallBegins 1 ++
      [.receive (rcpAnswerExample 1) (some 1), .receive (rcpAnswerExample 0) (some 0)] ++
      rcpCallEnds 0 ++ rcpCallEnds 1)).map (fun s => (s.calls 0, s.calls 1)) =
        some (.done 1 (some ⟨1, rcpAnswerExample 0, some 0⟩) ⟨0, .none⟩,
          .done 2 (some ⟨0, rcpAnswerExample 1, some 1⟩) ⟨0, .none⟩) := by decide +kernel
  obtain ⟨s, hs, hcalls⟩ := map_eq_some_iff.mp hrun
  have hreach : s.CalmReaches rcpSysExample :=
    RcpSys.CalmReaches.init.run _ (by decide +kernel) hs
  exact ⟨s, rcpSys_own_answers rcpSysExample s hreach, (Prod.mk.inj hcalls).1,
    (Prod.mk.inj hcalls).2⟩

/-- Three ways to a wrong answer: it comes before the call is counted; two calls are answered in the
order of their requests; or it comes late, to the next call. -/
theorem rcpSys_wrong_answers :
    ((RcpSys.init : RcpSys 64).run rcpSysExample ([.send 0 (List.replicate 16 1),
        .receive (rcpAnswerExample 0) (some 0), .inc 0, .get 0 false, .timeout 0] ++
        rcpCallEnds 0)).map (fun s => (s.calls 0, s.answered 0)) =
      some (.done 1 none ⟨-ETIMEDOUT, .none⟩, some ⟨0, rcpAnswerExample 0, some 0⟩) ∧
    ((RcpSys.init : RcpSys 64).run rcpSysExample (rcpCallBegins 0 ++ rcpCallBegins 1 ++
        [.receive (rcpAnswerExample 0) (some 0), .receive (rcpAnswerExample 1) (some 1)] ++
        rcpCallEnds 0 ++ rcpCallEnds 1)).map (fun s => (s.calls 0, s.calls 1)) =
      some (.done 1 (some ⟨1, rcpAnswerExample 1, some 1⟩) ⟨-EINVAL, .none⟩,
        .done 2 (some ⟨0, rcpAnswerExample 0, some 0⟩) ⟨-EINVAL, .none⟩) ∧
    ((RcpSys.init : RcpSys 64).run rcpSysExample (rcpCallBegins 0 ++ [.timeout 0] ++
        rcpCallEnds 0 ++ rcpCallBegins 1 ++ [.receive (rcpAnswerExample 0) (some 0)] ++
        rcpCallEnds 1)).map (fun s => s.calls 1) =
      some (.done 2 (some ⟨0, rcpAnswerExample 0, some 0⟩) ⟨-EINVAL, .none⟩) := by
  refine ⟨?_, ?_, ?_⟩ <;> decide +kernel

end TlZephyr
