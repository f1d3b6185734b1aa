import TlZephyr.Timeout

/-!
# Kernel Timers

Model of `timer.c` over the timeout queue of `TlZephyr.Timeout`: `k_timer_start`,
`k_timer_stop` and the handler that `sys_clock_announce` calls when the timeout of the timer
expires. The timeout is taken off the list first and the handler runs later, so other code may
start or stop the timer in between; and the handler calls `expiry_fn` after releasing the lock.
Other timeouts are added, aborted and fired at any time.

`k_timer_stop` only takes the timeout off the list. While a handler waits for the lock there is
nothing to take off, and the handler then arms a periodic timer again.
-/

namespace TlZephyr

open DeltaList List TimeoutQueue TimeoutEvent

/-! ### Model -/

/-- A period that is neither `K_NO_WAIT` nor `K_FOREVER`. -/
def KTimeout.periodic (period : KTimeout) : Bool :=
  period ≠ .ticks 0 && period ≠ .forever

/-- `MAX(next.ticks - 1, 0)`; the ticks of an absolute timeout are negative. -/
def KTimeout.lessOne : KTimeout → ℕ
  | .ticks n => n - 1
  | _ => 0

/-- Duration that `k_timer_start` passes on. -/
def KTimeout.startTicks : KTimeout → KTimeout
  | .ticks n => .ticks (n - 1)
  | timeout => timeout

/-- Timeout queue and a timer, with the calls whose handlers have had the lock, those that found
the timer expired, and those whose `expiry_fn` was invoked. -/
structure TimerSys where
  sys : TimeoutSys
  period : KTimeout
  status : ℕ
  ran : List ℕ
  expired : List ℕ
  invoked : List ℕ
deriving DecidableEq, Repr

/-- Sections that concern the timer and those of other code. -/
inductive TimerOp
  | start (duration period : KTimeout) (sysClockElapsed : ℕ)
  | stop
  | handler (which sysClockElapsed : ℕ)
  | expiryFn (which : ℕ)
  | announce (ticks : ℕ)
  | callbackReturn (which : ℕ)
  | addOther (node : ℕ) (timeout : KTimeout) (sysClockElapsed : ℕ)
  | abortOther (node : ℕ)
deriving DecidableEq, Repr

namespace TimerOp

def isStart : TimerOp → Bool
  | .start .. => true
  | _ => false

def isStop : TimerOp → Bool
  | .stop => true
  | _ => false

end TimerOp

namespace TimerSys

/-- `k_timer_init`. -/
def init : TimerSys := ⟨.init, .ticks 0, 0, [], [], []⟩

section model

variable (node : ℕ) (timeout64 smp : Bool)

/-- `k_timer_start`. -/
def start (s : TimerSys) (duration period : KTimeout) (sysClockElapsed : ℕ) : TimerSys :=
  if duration = .forever then s
  else
    { s with
      sys := (s.sys.abort node).add node duration.startTicks sysClockElapsed
      period := period
      status := 0 }

/-- `k_timer_stop`. -/
def stop (s : TimerSys) : TimerSys := { s with sys := s.sys.abort node }

/-- Timeout with which the handler arms a periodic timer again. -/
def next (s : TimerSys) (sysClockElapsed : ℕ) : KTimeout :=
  if timeout64 then
    .absTicks (s.sys.queue.currTick + s.sys.queue.elapsed sysClockElapsed + 1 +
      s.period.lessOne).toNat
  else .ticks s.period.lessOne

/-- `z_timer_expiration_handler` up to its call of `expiry_fn`, for the timeout of `call`. -/
def expirationHandler (s : TimerSys) (call sysClockElapsed : ℕ) : TimerSys :=
  if (s.sys.queue.linked node).isSome then { s with ran := call :: s.ran }
  else
    { s with
      sys :=
        if s.period.periodic then
          s.sys.add node (s.next timeout64 sysClockElapsed) sysClockElapsed
        else s.sys
      status := s.status + 1
      ran := call :: s.ran
      expired := s.expired ++ [call] }

/-- The callback is the handler of the timer and waits for the lock. -/
def waits (s : TimerSys) (c : Timeout × ℤ) : Bool := c.1.node == node && c.1.call ∉ s.ran

/-- The callback is the handler of the timer and is about to call `expiry_fn`. -/
def invokes (s : TimerSys) (c : Timeout × ℤ) : Bool :=
  c.1.node == node && c.1.call ∈ s.expired && c.1.call ∉ s.invoked

def handlerWaits (s : TimerSys) : Bool := s.sys.callbacks.any (s.waits node)

def inFlight (s : TimerSys) : Bool :=
  s.sys.callbacks.any fun c => s.waits node c || s.invokes node c

def step (s : TimerSys) : TimerOp → TimerSys
  | .start duration period sysClockElapsed => s.start node duration period sysClockElapsed
  | .stop => s.stop node
  | .handler which sysClockElapsed =>
    match s.sys.callbacks[which]? with
    | none => s
    | some c =>
      if s.waits node c then s.expirationHandler node timeout64 c.1.call sysClockElapsed else s
  | .expiryFn which =>
    match s.sys.callbacks[which]? with
    | none => s
    | some c =>
      if s.invokes node c then { s with invoked := s.invoked ++ [c.1.call] } else s
  | .announce ticks => { s with sys := s.sys.announce smp ticks }
  | .callbackReturn which =>
    -- the handler of the timer returns when it has done its work
    if (s.sys.callbacks[which]?).any fun c => s.waits node c || s.invokes node c then s
    else { s with sys := s.sys.callbackReturn which }
  | .addOther other timeout sysClockElapsed =>
    if other = node then s else { s with sys := s.sys.add other timeout sysClockElapsed }
  | .abortOther other =>
    if other = node then s else { s with sys := s.sys.abort other }

def run (s : TimerSys) (ops : List TimerOp) : TimerSys := ops.foldl (step node timeout64 smp) s

/-- No loop of `sys_clock_announce` is entered while another runs (`TimeoutOp.OneLoop`). -/
def OneLoopStep (s : TimerSys) (op : TimerOp) : Prop :=
  ∀ ticks, op = .announce ticks → TimeoutOp.OneLoop smp s.sys (.announce ticks)

def OneLoop (s : TimerSys) : List TimerOp → Prop
  | [] => True
  | op :: ops => OneLoopStep smp s op ∧ OneLoop (s.step node timeout64 smp op) ops

end model

/-! ### Timer in the list of timeouts -/

/-- Calls of one timer among the timeouts of a list. -/
def callsOf (node : ℕ) (l : List Timeout) : List ℕ :=
  (l.filter fun t => t.node == node).map Timeout.call

/-- Calls with which the timer is in the list. -/
def scheduled (node : ℕ) (q : TimeoutQueue) : List ℕ := callsOf node (q.timeoutList.map Prod.fst)

end TimerSys

open TimerSys

section queue

variable {node : ℕ}

theorem scheduled_eq_nil {q : TimeoutQueue} : scheduled node q = [] ↔ q.linked node = none := by
  rw [scheduled, callsOf, map_eq_nil_iff, filter_eq_nil_iff, linked, List.find?_eq_none]
  simp

theorem callsOf_cons (t : Timeout) (l : List Timeout) :
    callsOf node (t :: l) = if t.node = node then t.call :: callsOf node l else callsOf node l := by
  by_cases h : t.node = node
  · rw [if_pos h, callsOf, filter_cons_of_pos (by simpa using h), map_cons, callsOf]
  · rw [if_neg h, callsOf, filter_cons_of_neg (by simpa using h), callsOf]

theorem callsOf_remove (l : List (Timeout × ℤ)) (other : ℕ) :
    callsOf node ((remove (fun t => t.node == other) l).map Prod.fst) =
      if other = node then (callsOf node (l.map Prod.fst)).tail
      else callsOf node (l.map Prod.fst) := by
  have hkeys : (remove (fun t : Timeout => t.node == other) l).map Prod.fst =
      (l.map Prod.fst).eraseP fun t => t.node == other := by
    rw [← map_fst_times 0 (remove _ l), times_remove, ← map_fst_times 0 l, eraseP_map]
    rfl
  rw [hkeys]
  induction l.map Prod.fst with
  | nil => simp [callsOf]
  | cons t keys ih =>
    by_cases ht : t.node = other
    · rw [eraseP_cons_of_pos (by simpa using ht), callsOf_cons]
      by_cases hother : other = node
      · rw [if_pos hother, if_pos (ht.trans hother), tail_cons]
      · rw [if_neg hother, if_neg (by rwa [ht])]
    rw [eraseP_cons_of_neg (by simpa using ht), callsOf_cons, callsOf_cons, ih]
    by_cases hnode : t.node = node
    · have hne : other ≠ node := fun h => ht (hnode.trans h.symm)
      simp only [if_neg hne]
    · simp only [if_neg hnode]

theorem perm_callsOf_insertDelta (node : ℕ) (x : Timeout × ℤ) (l : List (Timeout × ℤ)) :
    (callsOf node ((insertDelta x l).map Prod.fst)).Perm
      (callsOf node (x.1 :: l.map Prod.fst)) := by
  have h := (perm_place (x.1, 0 + x.2) (times 0 l)).map Prod.fst
  rw [← times_insertDelta, map_fst_times, map_cons, map_fst_times] at h
  exact (h.filter _).map _

theorem scheduled_abort (s : TimeoutSys) (other : ℕ) :
    scheduled node (s.abort other).queue =
      if other = node then (scheduled node s.queue).tail else scheduled node s.queue := by
  cases hl : s.queue.linked other with
  | none =>
    simp only [TimeoutSys.abort, hl]
    by_cases h : other = node
    · rw [if_pos h, scheduled_eq_nil.mpr (h ▸ hl), tail_nil]
    · rw [if_neg h]
  | some x =>
    simp only [TimeoutSys.abort, hl, zAbortTimeout, Option.isSome_some, if_true]
    exact callsOf_remove _ _

theorem scheduled_add (s : TimeoutSys) {timeout : KTimeout} (sysClockElapsed : ℕ)
    (hne : timeout ≠ .forever) (h : scheduled node s.queue = []) :
    scheduled node (s.add node timeout sysClockElapsed).queue = [s.calls] := by
  have hl := scheduled_eq_nil.mp h
  rw [TimeoutSys.add, if_neg (by simp [hl, hne])]
  simp only [zAddTimeout, if_neg hne]
  have hperm := perm_callsOf_insertDelta node
    (⟨node, s.calls⟩, s.queue.dticks sysClockElapsed timeout) s.queue.timeoutList
  rw [callsOf_cons, if_pos rfl, ← scheduled, h] at hperm
  exact perm_singleton.mp hperm

theorem scheduled_add_other (s : TimeoutSys) {other : ℕ} (h : other ≠ node) (timeout : KTimeout)
    (sysClockElapsed : ℕ) (hone : (scheduled node s.queue).length ≤ 1) :
    scheduled node (s.add other timeout sysClockElapsed).queue = scheduled node s.queue := by
  by_cases hskip : (s.queue.linked other).isSome ∨ timeout = .forever
  · rw [TimeoutSys.add, if_pos hskip]
  rw [TimeoutSys.add, if_neg hskip]
  rw [not_or] at hskip
  simp only [zAddTimeout, if_neg hskip.2]
  have hperm := perm_callsOf_insertDelta node
    (⟨other, s.calls⟩, s.queue.dticks sysClockElapsed timeout) s.queue.timeoutList
  rw [callsOf_cons, if_neg h, ← scheduled] at hperm
  -- a permutation of at most one call
  rcases hs : scheduled node s.queue with _ | ⟨c, _ | ⟨c', l⟩⟩
  · rw [hs] at hperm
    exact perm_nil.mp hperm
  · rw [hs] at hperm
    exact perm_singleton.mp hperm
  · rw [hs] at hone
    simp at hone

/-- **A turn of the loop** fires the first timeout of the list, or fires none. -/
theorem turn_cases (s : TimeoutSys) (node : ℕ) :
    (s.turn.callbacks = s.callbacks ∧ s.turn.fired = s.fired ∧
      scheduled node s.turn.queue = scheduled node s.queue) ∨
    ∃ x, s.turn.callbacks = s.callbacks ++ [x] ∧ x.1.call ∈ s.pending ∧
      (∃ tick, s.turn.fired = s.fired ++ [(x.1.call, tick)]) ∧
      scheduled node s.queue = if x.1.node = node then x.1.call :: scheduled node s.turn.queue
        else scheduled node s.turn.queue := by
  rcases hlist : s.queue.timeoutList with _ | ⟨x, l⟩
  · left
    simp [TimeoutSys.turn, announceTurn, hlist, scheduled, TimeoutSys.fired]
  by_cases hfire : x.2 ≤ s.queue.announceRemaining
  · right
    refine ⟨x, ?_, ?_, ⟨s.queue.currTick + x.2, ?_⟩, ?_⟩
    · simp [TimeoutSys.turn, announceTurn, hlist, hfire]
    · simp [TimeoutSys.pending, hlist]
    · simp [TimeoutSys.turn, announceTurn, hlist, hfire, TimeoutSys.fired, fired?]
    · simp only [TimeoutSys.turn, announceTurn, hlist, if_pos hfire, scheduled,
        carry_zero, map_cons]
      exact callsOf_cons _ _
  · left
    simp [TimeoutSys.turn, announceTurn, hlist, hfire, scheduled, TimeoutSys.fired]

end queue

/-! ### What a step does to the timer -/

/-- What can be seen of a timer: the calls that are in the list, wait for the lock or are about to
call `expiry_fn`, its period, and the calls that expired and were invoked. -/
structure TimerView where
  scheduled : List ℕ
  waiting : List ℕ
  calling : List ℕ
  period : KTimeout
  expired : List ℕ
  invoked : List ℕ

/-- Steps other than start and stop; `fresh` is the call by which a handler rearms the timer. -/
inductive TimerView.Moves (fresh : ℕ) : TimerView → TimerView → Prop
  | quiet (v : TimerView) : Moves fresh v v
  | fire {v : TimerView} {call : ℕ} (hs : v.scheduled = [call]) (hw : v.waiting = [])
      (hc : v.calling = []) : Moves fresh v { v with scheduled := [], waiting := [call] }
  | skip {v : TimerView} {call : ℕ} (hs : v.scheduled ≠ []) (hw : v.waiting = [call]) :
      Moves fresh v { v with waiting := [] }
  | expire {v : TimerView} {call : ℕ} (hs : v.scheduled = []) (hw : v.waiting = [call])
      (hc : v.calling = []) :
      Moves fresh v { v with
        scheduled := if v.period.periodic then [fresh] else []
        waiting := []
        calling := [call]
        expired := v.expired ++ [call] }
  | invoke {v : TimerView} {call : ℕ} (hw : v.waiting = []) (hc : v.calling = [call]) :
      Moves fresh v { v with calling := [], invoked := v.invoked ++ [call] }

namespace TimerSys

variable {node : ℕ} {s s' : TimerSys}

def view (node : ℕ) (s : TimerSys) : TimerView where
  scheduled := scheduled node s.sys.queue
  waiting := (s.sys.callbacks.filter (s.waits node)).map fun c => c.1.call
  calling := (s.sys.callbacks.filter (s.invokes node)).map fun c => c.1.call
  period := s.period
  expired := s.expired
  invoked := s.invoked

/-- Every handler that has run was called for a timeout that fired. -/
structure Inv (node : ℕ) (s : TimerSys) : Prop where
  sys : s.sys.Inv
  one : (scheduled node s.sys.queue).length ≤ 1
  callbacks : ∀ c ∈ s.sys.callbacks, c.1.call ∈ s.sys.fired.map Prod.fst
  ran : ∀ call ∈ s.ran, call ∈ s.sys.fired.map Prod.fst
  expired : ∀ call ∈ s.expired, call ∈ s.ran
  invoked : ∀ call ∈ s.invoked, call ∈ s.expired

theorem inv_init : Inv node init where
  sys := TimeoutSys.inv_init
  one := by simp [init, TimeoutSys.init, scheduled, callsOf]
  callbacks := by simp [init, TimeoutSys.init]
  ran := by simp [init]
  expired := by simp [init]
  invoked := by simp [init]

theorem fired_abort (sys : TimeoutSys) (other : ℕ) : (sys.abort other).fired = sys.fired := by
  cases hl : sys.queue.linked other <;>
    simp [TimeoutSys.abort, hl, TimeoutSys.fired, fired?]

theorem callbacks_abort (sys : TimeoutSys) (other : ℕ) :
    (sys.abort other).callbacks = sys.callbacks := by
  cases hl : sys.queue.linked other <;> simp [TimeoutSys.abort, hl]

theorem calls_abort (sys : TimeoutSys) (other : ℕ) : (sys.abort other).calls = sys.calls := by
  cases hl : sys.queue.linked other <;> simp [TimeoutSys.abort, hl]

theorem fired_add (sys : TimeoutSys) (other : ℕ) (timeout : KTimeout) (sysClockElapsed : ℕ) :
    (sys.add other timeout sysClockElapsed).fired = sys.fired := by
  by_cases hskip : (sys.queue.linked other).isSome ∨ timeout = .forever
  · rw [TimeoutSys.add, if_pos hskip]
  · rw [TimeoutSys.add, if_neg hskip]
    simp [TimeoutSys.fired, fired?]

theorem callbacks_add (sys : TimeoutSys) (other : ℕ) (timeout : KTimeout) (sysClockElapsed : ℕ) :
    (sys.add other timeout sysClockElapsed).callbacks = sys.callbacks := by
  by_cases hskip : (sys.queue.linked other).isSome ∨ timeout = .forever
  · rw [TimeoutSys.add, if_pos hskip]
  · rw [TimeoutSys.add, if_neg hskip]

variable {c : Timeout × ℤ}

theorem Inv.not_invokes (h : Inv node s) (hw : s.waits node c = true) :
    s.invokes node c = false := by
  by_contra hi
  simp only [waits, invokes, Bool.and_eq_true, decide_eq_true_eq, Bool.not_eq_false] at hw hi
  exact hw.2 (h.expired _ hi.1.2)

theorem Inv.congr (h : Inv node s) (hsys : s'.sys.Inv)
    (hone : (scheduled node s'.sys.queue).length ≤ 1)
    (hcallbacks : s'.sys.callbacks = s.sys.callbacks) (hfired : s'.sys.fired = s.sys.fired)
    (hran : s'.ran = s.ran) (hexpired : s'.expired = s.expired)
    (hinvoked : s'.invoked = s.invoked) : Inv node s' := by
  refine ⟨hsys, hone, ?_, ?_, ?_, ?_⟩
  · rw [hcallbacks, hfired]
    exact h.callbacks
  · rw [hran, hfired]
    exact h.ran
  · rw [hexpired, hran]
    exact h.expired
  · rw [hinvoked, hexpired]
    exact h.invoked

theorem view_congr (s s' : TimerSys) (hcallbacks : s'.sys.callbacks = s.sys.callbacks) (hran : s'.ran = s.ran)
    (hexpired : s'.expired = s.expired) (hinvoked : s'.invoked = s.invoked) :
    view node s' = { view node s with
      scheduled := scheduled node s'.sys.queue
      period := s'.period } := by
  have hwaits : s'.waits node = s.waits node := by
    funext c
    rw [waits, hran, waits]
  have hinvokes : s'.invokes node = s.invokes node := by
    funext c
    rw [invokes, hexpired, hinvoked, invokes]
  rw [view, hcallbacks, hwaits, hinvokes, hexpired, hinvoked]
  rfl

theorem Inv.stop (h : Inv node s) :
    Inv node (s.stop node) ∧ view node (s.stop node) = { view node s with scheduled := [] } := by
  have hnil : scheduled node (s.stop node).sys.queue = [] := by
    rw [TimerSys.stop, scheduled_abort, if_pos rfl]
    exact eq_nil_of_length_eq_zero (by
      rw [length_tail]
      have := h.one
      omega)
  have hcallbacks := callbacks_abort s.sys node
  refine ⟨h.congr (h.sys.abort node) (by simp [hnil]) hcallbacks (fired_abort _ _) rfl rfl rfl, ?_⟩
  rw [view_congr s (s.stop node) hcallbacks rfl rfl rfl, hnil]
  rfl

variable {duration : KTimeout} {sys : TimeoutSys} {smp timeout64 : Bool} {fresh : ℕ} {v v' :
  TimerView}

theorem Inv.start (h : Inv node s) (period : KTimeout)
    (sysClockElapsed : ℕ) (hne : duration ≠ .forever) :
    Inv node (s.start node duration period sysClockElapsed) ∧
      view node (s.start node duration period sysClockElapsed) =
        { view node s with scheduled := [s.sys.calls], period := period } := by
  obtain ⟨hstop, hview⟩ := h.stop
  have hnil : scheduled node (s.sys.abort node).queue = [] := congrArg TimerView.scheduled hview
  have hne' : duration.startTicks ≠ .forever := by
    cases duration <;> simp_all [KTimeout.startTicks]
  have hone := scheduled_add (s.sys.abort node) sysClockElapsed hne' hnil
  rw [calls_abort] at hone
  have hcallbacks := (callbacks_add (s.sys.abort node) node duration.startTicks
    sysClockElapsed).trans (callbacks_abort s.sys node)
  have hstart : s.start node duration period sysClockElapsed =
      ⟨(s.sys.abort node).add node duration.startTicks sysClockElapsed, period, 0, s.ran,
        s.expired, s.invoked⟩ := by rw [TimerSys.start, if_neg hne]
  rw [hstart]
  refine ⟨h.congr (hstop.sys.add node _ sysClockElapsed) (by simp [hone]) hcallbacks
    ((fired_add _ _ _ _).trans (fired_abort _ _)) rfl rfl rfl, ?_⟩
  rw [view_congr s ⟨(s.sys.abort node).add node duration.startTicks sysClockElapsed, period, 0,
    s.ran, s.expired, s.invoked⟩ hcallbacks rfl rfl rfl, hone]

theorem Inv.others (h : Inv node s) (hsys : sys.Inv)
    (hsched : scheduled node sys.queue = scheduled node s.sys.queue)
    (hcallbacks : sys.callbacks = s.sys.callbacks) (hfired : sys.fired = s.sys.fired)
    (fresh : ℕ) : Inv node { s with sys := sys } ∧
      TimerView.Moves fresh (view node s) (view node { s with sys := sys }) := by
  refine ⟨h.congr hsys (hsched ▸ h.one) hcallbacks hfired rfl rfl rfl, ?_⟩
  rw [view_congr s { s with sys := sys } hcallbacks rfl rfl rfl, hsched]
  exact .quiet _

/-- **A loop of `sys_clock_announce` goes on** when no handler is in flight. -/
theorem Inv.turn (h : Inv node s) (hinv : sys.turn.Inv)
    (hwaiting : (view node s).waiting = []) (hcalling : (view node s).calling = [])
    (hcallbacks : sys.callbacks = [])
    (hlist : sys.queue.timeoutList = s.sys.queue.timeoutList) (hlog : sys.log = s.sys.log)
    (fresh : ℕ) : Inv node { s with sys := sys.turn } ∧
      TimerView.Moves fresh (view node s) (view node { s with sys := sys.turn }) := by
  have hfired : sys.fired = s.sys.fired := by rw [TimeoutSys.fired, hlog, ← TimeoutSys.fired]
  have hsched : scheduled node sys.queue = scheduled node s.sys.queue := by
    rw [scheduled, hlist, ← scheduled]
  have hw : (s.sys.callbacks.filter (s.waits node)).map (fun c => c.1.call) = [] := hwaiting
  have hi : (s.sys.callbacks.filter (s.invokes node)).map (fun c => c.1.call) = [] := hcalling
  rcases turn_cases sys node with ⟨hc, hf, hs⟩ | ⟨x, hc, hpending, ⟨tick, hf⟩, hs⟩
  · rw [hcallbacks] at hc
    rw [hfired] at hf
    rw [hsched] at hs
    refine ⟨⟨hinv, hs ▸ h.one, by simp [hc], by simpa only [hf] using h.ran, h.expired,
      h.invoked⟩, ?_⟩
    have hview : view node { s with sys := sys.turn } = view node s := by
      rw [view, view, hc, hs, hw, hi]
      rfl
    rw [hview]
    exact .quiet _
  rw [hcallbacks, nil_append] at hc
  rw [hfired] at hf
  rw [hsched] at hs
  -- the call that fires has not fired before, so no handler has run for it
  have hnew : x.1.call ∉ s.sys.fired.map Prod.fst := by
    have hnodup := h.sys.accounted.nodup_iff.mpr nodup_range
    rw [append_assoc] at hnodup
    refine fun hmem => disjoint_of_nodup_append hnodup ?_ (mem_append_right _ hmem)
    rwa [TimeoutSys.pending, hlist, ← TimeoutSys.pending] at hpending
  have hran : x.1.call ∉ s.ran := fun hmem => hnew (h.ran _ hmem)
  have hexpired : x.1.call ∉ s.expired := fun hmem => hran (h.expired _ hmem)
  have hlen : (scheduled node sys.turn.queue).length ≤ 1 := by
    have := h.one
    rw [hs] at this
    split at this
    · rw [length_cons] at this
      omega
    · exact this
  refine ⟨⟨hinv, hlen, ?_, ?_, h.expired, h.invoked⟩, ?_⟩
  · simp [hc, hf]
  · intro call hcall
    rw [hf, map_append]
    exact mem_append_left _ (h.ran call hcall)
  by_cases hnode : x.1.node = node
  · rw [if_pos hnode] at hs
    have hone := h.one
    rw [hs, length_cons] at hone
    have hnil : scheduled node sys.turn.queue = [] :=
      eq_nil_of_length_eq_zero (by omega)
    rw [hnil] at hs
    have hview : view node { s with sys := sys.turn } =
        { view node s with scheduled := [], waiting := [x.1.call] } := by
      rw [view, view, hc, hnil, hw, hi]
      simp [waits, invokes, hnode, hran, hexpired]
    rw [hview]
    exact .fire hs hwaiting hcalling
  rw [if_neg hnode] at hs
  have hview : view node { s with sys := sys.turn } = view node s := by
    rw [view, view, hc, hs, hw, hi]
    simp [waits, invokes, hnode]
  rw [hview]
  exact .quiet _

theorem Inv.callbacks_eq (h : Inv node s) {which : ℕ}
    (hget : s.sys.callbacks[which]? = some c) : s.sys.callbacks = [c] := by
  have hmem := mem_of_getElem? hget
  rcases h.sys.clock with ⟨hnil, -⟩ | ⟨c', hc, -⟩
  · rw [hnil] at hmem
    cases hmem
  · rw [hc] at hmem
    rw [hc, mem_singleton.mp hmem]

theorem view_of_waits (h : Inv node s) (hc : s.sys.callbacks = [c])
    (hwaits : s.waits node c = true) :
    (view node s).waiting = [c.1.call] ∧ (view node s).calling = [] := by
  simp [view, hc, hwaits, h.not_invokes hwaits]

theorem Inv.mem_fired_of_mem_ran (h : Inv node s) (hc : s.sys.callbacks = [c]) :
    ∀ call ∈ c.1.call :: s.ran, call ∈ s.sys.fired.map Prod.fst := by
  intro call hcall
  rcases mem_cons.mp hcall with rfl | hcall
  · exact h.callbacks c (by simp [hc])
  · exact h.ran call hcall

/-- **The handler finds that the timer was started again**, and returns. -/
theorem Inv.handler_linked (h : Inv node s) (timeout64 : Bool)
    (sysClockElapsed : ℕ) (hc : s.sys.callbacks = [c])
    (hlinked : scheduled node s.sys.queue ≠ []) :
    Inv node (s.expirationHandler node timeout64 c.1.call sysClockElapsed) ∧
      view node (s.expirationHandler node timeout64 c.1.call sysClockElapsed) =
        { view node s with waiting := [] } := by
  have hsome : (s.sys.queue.linked node).isSome = true := by
    rw [Option.isSome_iff_ne_none]
    exact fun hnone => hlinked (scheduled_eq_nil.mpr hnone)
  rw [expirationHandler, if_pos hsome]
  refine ⟨⟨h.sys, h.one, h.callbacks, h.mem_fired_of_mem_ran hc, fun call hcall => ?_, h.invoked⟩,
    ?_⟩
  · exact mem_cons_of_mem _ (h.expired call hcall)
  · simp only [view, hc, TimerView.mk.injEq, true_and, and_true]
    exact ⟨by simp [waits], rfl⟩

/-- **The handler finds the timer expired**, and arms a periodic timer again. -/
theorem Inv.handler_expired (h : Inv node s) (timeout64 : Bool)
    (sysClockElapsed : ℕ) (hc : s.sys.callbacks = [c]) (hwaits : s.waits node c = true)
    (hnil : scheduled node s.sys.queue = []) :
    Inv node (s.expirationHandler node timeout64 c.1.call sysClockElapsed) ∧
      view node (s.expirationHandler node timeout64 c.1.call sysClockElapsed) = { view node s with
          scheduled := if s.period.periodic then [s.sys.calls] else []
          waiting := []
          calling := [c.1.call]
          expired := s.expired ++ [c.1.call] } := by
  rw [expirationHandler, if_neg (by simp [scheduled_eq_nil.mp hnil])]
  -- the queue after the handler
  obtain ⟨sys, hsys, hcb, hfired, hsched, heq⟩ : ∃ sys : TimeoutSys, sys.Inv ∧
      sys.callbacks = s.sys.callbacks ∧ sys.fired = s.sys.fired ∧
      scheduled node sys.queue = (if s.period.periodic then [s.sys.calls] else []) ∧
      (if s.period.periodic then
        s.sys.add node (s.next timeout64 sysClockElapsed) sysClockElapsed else s.sys) = sys := by
    by_cases hp : s.period.periodic = true
    · refine ⟨_, h.sys.add node _ sysClockElapsed, callbacks_add _ _ _ _, fired_add _ _ _ _, ?_,
        if_pos hp⟩
      rw [if_pos hp]
      refine scheduled_add _ _ ?_ hnil
      rw [next]
      split <;> simp
    · exact ⟨s.sys, h.sys, rfl, rfl, by rw [if_neg hp, hnil], if_neg hp⟩
  rw [heq]
  simp only [waits, Bool.and_eq_true, beq_iff_eq, decide_eq_true_eq] at hwaits
  have hinvoked : c.1.call ∉ s.invoked :=
    fun hmem => hwaits.2 (h.expired _ (h.invoked _ hmem))
  refine ⟨⟨hsys, ?_, ?_, ?_, fun call hcall => ?_, fun call hcall => ?_⟩, ?_⟩
  · rw [hsched]
    split <;> simp
  · rw [hcb, hfired]
    exact h.callbacks
  · rw [hfired]
    exact h.mem_fired_of_mem_ran hc
  · rcases mem_append.mp hcall with hcall | hcall
    · exact mem_cons_of_mem _ (h.expired call hcall)
    · rw [mem_singleton.mp hcall]
      exact mem_cons_self
  · exact mem_append_left _ (h.invoked call hcall)
  · rw [view, hsched, hcb, hc]
    simp [view, waits, invokes, hwaits.1, hinvoked]

theorem Inv.expiryFn (h : Inv node s) (hc : s.sys.callbacks = [c])
    (hinvokes : s.invokes node c = true) :
    Inv node { s with invoked := s.invoked ++ [c.1.call] } ∧
      view node { s with invoked := s.invoked ++ [c.1.call] } =
        { view node s with calling := [], invoked := s.invoked ++ [c.1.call] } := by
  have hi := hinvokes
  simp only [invokes, Bool.and_eq_true, beq_iff_eq, decide_eq_true_eq] at hi
  refine ⟨⟨h.sys, h.one, h.callbacks, h.ran, h.expired, fun call hcall => ?_⟩, ?_⟩
  · rcases mem_append.mp hcall with hcall | hcall
    · exact h.invoked call hcall
    · rw [mem_singleton.mp hcall]
      exact hi.1.2
  · simp only [view, hc, TimerView.mk.injEq, true_and, and_true]
    exact ⟨rfl, by simp [invokes]⟩

/-- **One step** other than `k_timer_start` and `k_timer_stop`. -/
theorem Inv.moves (h : Inv node s) (timeout64 smp : Bool) (op : TimerOp)
    (hop : OneLoopStep smp s op) (hstart : op.isStart = false) (hstop : op.isStop = false) :
    Inv node (s.step node timeout64 smp op) ∧
      TimerView.Moves s.sys.calls (view node s) (view node (s.step node timeout64 smp op)) := by
  have hsame : Inv node s ∧ TimerView.Moves s.sys.calls (view node s) (view node s) :=
    ⟨h, .quiet _⟩
  cases op with
  | start duration period sysClockElapsed => cases hstart
  | stop => cases hstop
  | handler which sysClockElapsed =>
    rcases hget : s.sys.callbacks[which]? with _ | c
    · simpa only [step, hget] using hsame
    by_cases hwaits : s.waits node c = true
    · have hc := h.callbacks_eq hget
      obtain ⟨hw, hi⟩ := view_of_waits h hc hwaits
      simp only [step, hget, if_pos hwaits]
      by_cases hnil : scheduled node s.sys.queue = []
      · obtain ⟨hinv, hview⟩ := h.handler_expired timeout64 sysClockElapsed hc hwaits hnil
        refine ⟨hinv, ?_⟩
        rw [hview]
        exact .expire hnil hw hi
      · obtain ⟨hinv, hview⟩ := h.handler_linked timeout64 sysClockElapsed hc hnil
        refine ⟨hinv, ?_⟩
        rw [hview]
        exact .skip hnil hw
    · simpa only [step, hget, if_neg hwaits] using hsame
  | expiryFn which =>
    rcases hget : s.sys.callbacks[which]? with _ | c
    · simpa only [step, hget] using hsame
    by_cases hinvokes : s.invokes node c = true
    · have hc := h.callbacks_eq hget
      obtain ⟨hinv, hview⟩ := h.expiryFn hc hinvokes
      simp only [step, hget, if_pos hinvokes]
      refine ⟨hinv, ?_⟩
      rw [hview]
      refine .invoke ?_ (by simp [view, hc, hinvokes])
      have hwaits : s.waits node c = false := by
        by_contra hw
        rw [h.not_invokes (Bool.not_eq_false _ ▸ hw)] at hinvokes
        cases hinvokes
      simp [view, hc, hwaits]
    · simpa only [step, hget, if_neg hinvokes] using hsame
  | announce ticks =>
    rw [step]
    by_cases hidle : s.sys.callbacks = []
    · have hinv : (s.sys.announce smp ticks).Inv := h.sys.announce (hop ticks rfl)
      have hr : s.sys.queue.announceRemaining = 0 := by
        rcases h.sys.clock with ⟨-, hr, -⟩ | ⟨c, hc, -⟩
        · exact hr
        · rw [hidle] at hc
          cases hc
      rw [TimeoutSys.announce, if_neg (by simp [hr])] at hinv ⊢
      exact h.turn hinv (by simp [view, hidle]) (by simp [view, hidle]) hidle rfl rfl _
    · have hloop := hop ticks rfl hidle
      have hinv : (s.sys.announce smp ticks).Inv := h.sys.announce fun _ => hloop
      rw [TimeoutSys.announce, if_pos hloop] at hinv ⊢
      exact h.others hinv rfl rfl rfl _
  | callbackReturn which =>
    rw [step]
    split_ifs with hbusy
    · exact hsame
    rcases hget : s.sys.callbacks[which]? with _ | c
    · simpa only [TimeoutSys.callbackReturn, hget] using hsame
    have hinv := h.sys.callbackReturn which
    rw [hget, Option.any_some, Bool.or_eq_true, not_or] at hbusy
    have hc := h.callbacks_eq hget
    simp only [TimeoutSys.callbackReturn, hget] at hinv ⊢
    refine h.turn hinv (by simp [view, hc, hbusy.1]) (by simp [view, hc, hbusy.2]) ?_ rfl rfl _
    rw [hc] at hget ⊢
    cases which with
    | zero => rfl
    | succ which => cases hget
  | addOther other timeout sysClockElapsed =>
    rw [step]
    split_ifs with hnode
    · exact hsame
    · exact h.others (h.sys.add other timeout sysClockElapsed)
        (scheduled_add_other _ hnode _ _ h.one) (callbacks_add _ _ _ _) (fired_add _ _ _ _) _
  | abortOther other =>
    rw [step]
    split_ifs with hnode
    · exact hsame
    · refine h.others (h.sys.abort other) ?_ (callbacks_abort _ _) (fired_abort _ _) _
      rw [scheduled_abort, if_neg hnode]

/-! ### Runs -/

theorem Inv.step (h : Inv node s) (timeout64 smp : Bool) (op : TimerOp)
    (hop : OneLoopStep smp s op) : Inv node (s.step node timeout64 smp op) := by
  cases op with
  | start duration period sysClockElapsed =>
    by_cases hne : duration = .forever
    · rw [TimerSys.step, TimerSys.start, if_pos hne]
      exact h
    · exact (h.start period sysClockElapsed hne).1
  | stop => exact h.stop.1
  | _ => exact (h.moves timeout64 smp _ hop rfl rfl).1

theorem Inv.run (ops : List TimerOp) (h : Inv node s)
    (hops : OneLoop node timeout64 smp s ops) : Inv node (s.run node timeout64 smp ops) := by
  induction ops generalizing s with
  | nil => exact h
  | cons op ops ih => exact ih (h.step timeout64 smp op hops.1) hops.2

/-- **What the steps of a run keep**, the run keeps: the rule for runs without
`k_timer_start`. -/
theorem Inv.run_view {ops : List TimerOp} (h : Inv node s)
    (hops : OneLoop node timeout64 smp s ops) (hstart : ∀ op ∈ ops, op.isStart = false)
    (P : TimerView → Prop) (hP : P (view node s))
    (hmoves : ∀ fresh v v', P v → TimerView.Moves fresh v v' → P v')
    (hstop : (∃ op ∈ ops, op.isStop = true) → ∀ v, P v → P { v with scheduled := [] }) :
    P (view node (s.run node timeout64 smp ops)) := by
  induction ops generalizing s with
  | nil => exact hP
  | cons op ops ih =>
    refine ih (h.step timeout64 smp op hops.1) hops.2 (fun op' h' => hstart op' (by simp [h'])) ?_
      fun ⟨op', h', hs⟩ => hstop ⟨op', by simp [h'], hs⟩
    by_cases hs : op.isStop = true
    · have hview : view node (s.step node timeout64 smp op) =
          { view node s with scheduled := [] } := by
        cases op <;> first | exact h.stop.2 | cases hs
      rw [hview]
      exact hstop ⟨op, by simp, hs⟩ _ hP
    · exact hmoves _ _ _ hP
        (h.moves timeout64 smp op hops.1 (hstart op (by simp)) (Bool.not_eq_true _ ▸ hs)).2

/-- A stopped timer: it is not in the list and will not be, and few more `expiry_fn` come. -/
def Stopped (bound : ℕ) (v : TimerView) : Prop :=
  v.scheduled = [] ∧ (v.waiting = [] ∨ v.period.periodic = false) ∧
    v.invoked.length + v.waiting.length + v.calling.length ≤ bound

theorem Stopped.moves {bound : ℕ} (h : Stopped bound v)
    (hv : TimerView.Moves fresh v v') : Stopped bound v' := by
  obtain ⟨hnil, hperiod, hbound⟩ := h
  cases hv with
  | quiet => exact ⟨hnil, hperiod, hbound⟩
  | fire hs => exact absurd (hnil.symm.trans hs) (by simp)
  | skip hs => exact absurd hnil hs
  | expire hs hw hc =>
    rcases hperiod with hw' | hp
    · exact absurd (hw'.symm.trans hw) (by simp)
    · refine ⟨by simp [hp], .inl rfl, ?_⟩
      simp only [hw, hc, length_nil, length_singleton] at hbound ⊢
      omega
  | invoke hw hc =>
    refine ⟨hnil, hperiod, ?_⟩
    simp only [hc, length_nil, length_singleton, length_append] at hbound ⊢
    omega

/-- The first expiry after `before`, if there is one, is that of `call`. -/
def Started (before : List ℕ) (call : ℕ) (v : TimerView) : Prop :=
  v.expired = before ∧ v.scheduled = [call] ∨
  v.expired = before ∧ v.scheduled = [] ∧ v.waiting = [call] ∨
  ∃ rest, v.expired = before ++ call :: rest

theorem Started.moves {before : List ℕ} {call : ℕ}
    (h : Started before call v) (hv : TimerView.Moves fresh v v') : Started before call v' := by
  rcases h with ⟨he, hs⟩ | ⟨he, hs, hw⟩ | ⟨rest, he⟩
  · cases hv with
    | quiet => exact .inl ⟨he, hs⟩
    | fire hs' =>
      obtain rfl : call = _ := by simpa using hs.symm.trans hs'
      exact .inr (.inl ⟨he, rfl, rfl⟩)
    | skip => exact .inl ⟨he, hs⟩
    | expire hs' => exact absurd (hs.symm.trans hs') (by simp)
    | invoke => exact .inl ⟨he, hs⟩
  · cases hv with
    | quiet => exact .inr (.inl ⟨he, hs, hw⟩)
    | fire hs' => exact absurd (hs.symm.trans hs') (by simp)
    | skip hs' => exact absurd hs hs'
    | expire _ hw' =>
      obtain rfl : call = _ := by simpa using hw.symm.trans hw'
      exact .inr (.inr ⟨[], by simp [he]⟩)
    | invoke hw' => exact absurd (hw.symm.trans hw') (by simp)
  right
  right
  cases hv with
  | quiet => exact ⟨rest, he⟩
  | fire => exact ⟨rest, he⟩
  | skip => exact ⟨rest, he⟩
  | expire => exact ⟨rest ++ [_], by rw [he, append_assoc, cons_append]⟩
  | invoke => exact ⟨rest, he⟩

theorem Inv.length_view_le (h : Inv node s) :
    (view node s).waiting.length + (view node s).calling.length ≤ 1 := by
  rcases h.sys.clock with ⟨hc, -⟩ | ⟨c, hc, -⟩
  · simp [view, hc]
  · by_cases hw : s.waits node c = true
    · simp [view, hc, hw, h.not_invokes hw]
    · by_cases hi : s.invokes node c = true <;> simp [view, hc, hw, hi]

theorem waiting_eq_nil : (view node s).waiting = [] ↔ s.handlerWaits node = false := by
  simp [view, handlerWaits, filter_eq_nil_iff]

theorem inFlight_eq_false :
    s.inFlight node = false ↔ (view node s).waiting = [] ∧ (view node s).calling = [] := by
  simp only [view, inFlight, map_eq_nil_iff, filter_eq_nil_iff, any_eq_false,
    Bool.or_eq_true, not_or, Bool.not_eq_true]
  exact forall₂_and

/-- **A periodic timer that is stopped while its handler waits** comes back to the list. -/
theorem Inv.linked_after_stop (h : Inv node s) (timeout64 smp : Bool)
    (hwaits : s.handlerWaits node = true) (hperiodic : s.period.periodic = true) :
    let e := (s.stop node).run node timeout64 smp [.handler 0 0, .expiryFn 0]
    e.inFlight node = false ∧ e.sys.queue.linked node ≠ none := by
  obtain ⟨hinv, hview⟩ := h.stop
  obtain ⟨c, hmem, hw⟩ := any_eq_true.mp hwaits
  have hc : (s.stop node).sys.callbacks = [c] := by
    rw [TimerSys.stop, callbacks_abort]
    obtain ⟨which, hget⟩ := List.getElem?_of_mem hmem
    exact h.callbacks_eq hget
  obtain ⟨hinv₁, hview₁⟩ := hinv.handler_expired timeout64 0 hc hw
    (congrArg TimerView.scheduled hview)
  have hstep₁ : (s.stop node).step node timeout64 smp (.handler 0 0) =
      (s.stop node).expirationHandler node timeout64 c.1.call 0 := by
    simp only [TimerSys.step, hc, List.getElem?_cons_zero]
    exact if_pos hw
  set s₁ := (s.stop node).expirationHandler node timeout64 c.1.call 0
  have hcalling : (view node s₁).calling = [c.1.call] := by rw [hview₁]
  -- the callback that runs is still that of the handler
  obtain ⟨c₁, hmem₁, hi₁⟩ : ∃ c₁ ∈ s₁.sys.callbacks, s₁.invokes node c₁ = true := by
    obtain ⟨c₁, hc₁, -⟩ := mem_map.mp (show c.1.call ∈ (view node s₁).calling by simp [hcalling])
    exact ⟨c₁, mem_filter.mp hc₁⟩
  obtain ⟨which, hget⟩ := List.getElem?_of_mem hmem₁
  have hc₁ := hinv₁.callbacks_eq hget
  obtain ⟨-, hview₂⟩ := hinv₁.expiryFn hc₁ hi₁
  have hstep₂ : s₁.step node timeout64 smp (.expiryFn 0) =
      { s₁ with invoked := s₁.invoked ++ [c₁.1.call] } := by
    simp only [TimerSys.step, hc₁, List.getElem?_cons_zero]
    exact if_pos hi₁
  intro e
  have he : e = { s₁ with invoked := s₁.invoked ++ [c₁.1.call] } := by
    rw [← hstep₂, ← hstep₁]
    rfl
  rw [he]
  constructor
  · rw [inFlight_eq_false, hview₂, hview₁]
    exact ⟨rfl, rfl⟩
  rw [Ne, ← scheduled_eq_nil]
  have hsched : scheduled node s₁.sys.queue =
      if (s.stop node).period.periodic then [(s.stop node).sys.calls] else [] :=
    congrArg TimerView.scheduled hview₁
  rw [hsched, if_pos (show (s.stop node).period.periodic = true from hperiodic)]
  simp

theorem added_start (s : TimerSys) (period : KTimeout)
    (sysClockElapsed : ℕ) (h : Inv node s) (hne : duration ≠ .forever) :
    (s.start node duration period sysClockElapsed).sys.added = s.sys.added ++ [(s.sys.calls,
        s.sys.queue.currTick + s.sys.queue.dticks sysClockElapsed duration.startTicks)] := by
  have hne' : duration.startTicks ≠ .forever := by
    cases duration <;> simp_all [KTimeout.startTicks]
  have hnil : scheduled node (s.sys.abort node).queue = [] := congrArg TimerView.scheduled h.stop.2
  have hlinked := scheduled_eq_nil.mp hnil
  have hexpires := ((s.sys.abort node).queue.zAddTimeout_spec ⟨node, (s.sys.abort node).calls⟩
    sysClockElapsed hlinked hne').1
  have habort : (s.sys.abort node).added = s.sys.added ∧
      (s.sys.abort node).queue.currTick = s.sys.queue.currTick ∧
      (s.sys.abort node).queue.announceRemaining = s.sys.queue.announceRemaining := by
    cases hl : s.sys.queue.linked node <;>
      simp [TimeoutSys.abort, hl, TimeoutSys.added, added?, zAbortTimeout]
  have hdticks : (s.sys.abort node).queue.dticks sysClockElapsed duration.startTicks =
      s.sys.queue.dticks sysClockElapsed duration.startTicks := by
    cases duration.startTicks <;>
      simp only [dticks, elapsed, habort.2.1, habort.2.2]
  rw [TimerSys.start, if_neg hne]
  simp only [TimeoutSys.add, hlinked, hne', Option.isSome_none, Bool.false_eq_true, or_self,
    if_false]
  rw [TimeoutSys.added, filterMap_append, ← TimeoutSys.added, habort.1]
  simp only [filterMap_cons, added?, filterMap_nil]
  rw [hexpires, calls_abort, habort.2.1, hdticks]

end TimerSys

end TlZephyr
