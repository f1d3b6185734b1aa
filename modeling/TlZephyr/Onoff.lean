import TlZephyr.Errno

/-!
# On-Off Services

Model of `onoff.c`. A step is a section under the lock of the manager, or an action that
`process_event` takes after it has released it: the notification of a client, or the call of a
transition. In between anything may happen, in callbacks or in other threads; a transition may
complete before its function returns, or at any time later.

At most one call of `process_event` is in its loop; events that occur while it has released the
lock are recorded as the flags `COMPLETE` and `RECHECK`. Accepted clients are numbered, and call
`onoff_release` once, after they have been notified that the service is on.

The reference count has 16 bits. `onoff_request` checks it, but the clients that wait for a
service to start are counted when it is on: with more than 65535 of them it wraps around.
-/

namespace TlZephyr

open List Option

/-! ### Model -/

/-- `ONOFF_STATE_*`. -/
inductive OnoffState
  | off
  | on
  | error
  | toOn
  | toOff
  | resetting
deriving DecidableEq, Repr

/-- `struct onoff_transitions`. -/
inductive OnoffTransition
  | start
  | stop
  | reset
deriving DecidableEq, Repr

namespace OnoffState

/-- Bits of a state, which the functions return. -/
def value : OnoffState → ℤ
  | .off => 0
  | .error => 1
  | .on => 2
  | .toOff => 4
  | .resetting => 5
  | .toOn => 6

def transition? : OnoffState → Option OnoffTransition
  | .toOn => some .start
  | .toOff => some .stop
  | .resetting => some .reset
  | _ => none

end OnoffState

namespace OnoffTransition

/-- State in which a transition is to be invoked. -/
def source : OnoffTransition → OnoffState
  | .start => .off
  | .stop => .on
  | .reset => .error

def target : OnoffTransition → OnoffState
  | .start => .toOn
  | .stop => .toOff
  | .reset => .resetting

end OnoffTransition

/-- `SERVICE_REFS_MAX`. -/
def serviceRefsMax : ℕ := 65535

/-- `refs += 1U`. -/
@[irreducible] def refsInc (refs : ℕ) : ℕ := (refs + 1) % 2 ^ 16

/-- `refs -= 1U`. -/
@[irreducible] def refsDec (refs : ℕ) : ℕ := (refs + (2 ^ 16 - 1)) % 2 ^ 16

/-- `struct onoff_manager`; the flags apart from the state are `processing`, `complete` and
`recheck`. -/
structure OnoffManager where
  clients : List ℕ
  refs : ℕ
  state : OnoffState
  processing : Bool
  complete : Bool
  recheck : Bool
  lastRes : ℤ
deriving DecidableEq, Repr

/-- What `process_event` has still to do when it has released the lock: the clients to notify, and
the transition to call, with the state it was decided in. -/
structure OnoffLoop where
  clients : List ℕ
  state : OnoffState
  res : ℤ
  transit : Option (OnoffTransition × OnoffState)
deriving DecidableEq, Repr

/-- The manager, the call of `process_event` that has released the lock, the transition in progress,
and the clients that `onoff_request` is about to notify. The other fields are for the record. -/
structure OnoffSys where
  mgr : OnoffManager
  loop : Option OnoffLoop
  inProgress : Option OnoffTransition
  direct : List ℕ
  accepted : ℕ
  notified : List (ℕ × OnoffState × ℤ)
  cancelled : List ℕ
  holders : List ℕ
  invoked : List (OnoffTransition × OnoffState × Option OnoffTransition)
deriving DecidableEq, Repr

namespace OnoffManager

def processRecheck (m : OnoffManager) : Option OnoffTransition :=
  if m.state = .off ∧ m.clients ≠ [] then some .start
  else if m.state = .on ∧ m.refs = 0 then some .stop
  else if m.state = .error ∧ m.clients ≠ [] then some .reset
  else none

/-- `RECHECK` is set where `process_recheck` would do something. -/
def flagRecheck (m : OnoffManager) : OnoffManager :=
  if m.processRecheck = none then m else { m with recheck := true }

/-- `process_complete`, with the clients to notify. -/
def processComplete (m : OnoffManager) (res : ℤ) : OnoffManager × List ℕ :=
  if res < 0 then ({ m with clients := [], state := .error }, m.clients)
  else if m.state = .toOn then
    (flagRecheck { m with
      clients := [], refs := (m.refs + m.clients.length) % 2 ^ 16, state := .on }, m.clients)
  else if m.state = .resetting then
    (flagRecheck { m with clients := [], state := .off }, m.clients)
  else if m.state = .toOff then (flagRecheck { m with state := .off }, [])
  else (m, [])

end OnoffManager

/-- Events of `process_event` that come from outside. -/
inductive OnoffEvent
  | complete
  | recheck

/-- Sections and actions; `monitors` says whether there are any. -/
inductive OnoffOp
  | request (monitors : Bool)
  | release (client : ℕ) (monitors : Bool)
  | reset (monitors : Bool)
  | cancel (client : ℕ)
  | notifyDirect (which : ℕ)
  | notifyNext
  | invoke
  | complete (res : ℤ) (monitors : Bool)
  | relock (monitors : Bool)

open OnoffLoop

namespace OnoffSys

/-- `ONOFF_MANAGER_INITIALIZER`. -/
def init : OnoffSys := ⟨⟨[], 0, .off, false, false, false, 0⟩, none, none, [], 0, [], [], [], []⟩

/-- A turn of `process_event` for `EVT_RECHECK`: it ends the loop or decides on a transition. -/
def recheckTurn (s : OnoffSys) : OnoffSys :=
  match s.mgr.processRecheck with
  | none => s
  | some t =>
    { s with
      mgr := { s.mgr with state := t.target, processing := true }
      loop := some ⟨[], t.target, 0, some (t, s.mgr.state)⟩ }

/-- A turn for `EVT_COMPLETE`, and whether it releases the lock. -/
def completeTurn (monitors : Bool) (s : OnoffSys) : OnoffSys × Bool :=
  let res := s.mgr.lastRes
  let r := s.mgr.processComplete res
  let holders := if s.mgr.state = .toOn ∧ 0 ≤ res then s.holders ++ r.2 else s.holders
  if (s.mgr.state ≠ r.1.state ∧ monitors = true) ∨ r.2 ≠ [] then
    ({ s with
        mgr := { r.1 with processing := true }
        loop := some ⟨r.2, r.1.state, res, none⟩
        holders := holders }, true)
  else ({ s with mgr := r.1, holders := holders }, false)

/-- The next event: completion takes priority over recheck. -/
def takeDeferred (s : OnoffSys) : OnoffSys × Option OnoffEvent :=
  if s.mgr.complete then ({ s with mgr := { s.mgr with complete := false } }, some .complete)
  else if s.mgr.recheck then ({ s with mgr := { s.mgr with recheck := false } }, some .recheck)
  else (s, none)

/-- Loop of `process_event` until it releases the lock or ends, which takes a few turns. -/
def turns (monitors : Bool) : ℕ → OnoffSys → Option OnoffEvent → OnoffSys
  | 0, s, _ => s
  | _ + 1, s, none => s
  | _ + 1, s, some .recheck => s.recheckTurn
  | n + 1, s, some .complete =>
    let r := s.completeTurn monitors
    if r.2 then r.1 else turns monitors n r.1.takeDeferred.1 r.1.takeDeferred.2

def processEvent (monitors : Bool) (evt : OnoffEvent) (s : OnoffSys) : OnoffSys :=
  if s.mgr.processing then
    match evt with
    | .complete => { s with mgr := { s.mgr with complete := true } }
    | .recheck => { s with mgr := { s.mgr with recheck := true } }
  else turns monitors 3 s (some evt)

/-- A client is appended to the list of the manager. -/
def enqueue (s : OnoffSys) : OnoffSys :=
  { s with
    mgr := { s.mgr with clients := s.mgr.clients ++ [s.accepted] }
    accepted := s.accepted + 1 }

def counted (s : OnoffSys) : OnoffSys :=
  { s with
    mgr := { s.mgr with refs := refsInc s.mgr.refs }
    direct := s.direct ++ [s.accepted]
    holders := s.holders ++ [s.accepted]
    accepted := s.accepted + 1 }

def released (s : OnoffSys) (client : ℕ) : OnoffSys :=
  { s with
    mgr := { s.mgr with refs := refsDec s.mgr.refs }
    holders := s.holders.erase client }

/-- `onoff_request`, up to the notification of a client that finds the service on. -/
def onoffRequest (monitors : Bool) (s : OnoffSys) : OnoffSys × ℤ :=
  if s.mgr.refs = serviceRefsMax then (s, -EAGAIN)
  else
    match s.mgr.state with
    | .on => (s.counted, s.mgr.state.value)
    | .off => (processEvent monitors .recheck s.enqueue, s.mgr.state.value)
    | .toOff | .toOn => (s.enqueue, s.mgr.state.value)
    | .resetting => (s, -ENOTSUP)
    | .error => (s, - EIO)

/-- `onoff_release`, by a client that holds a reference. -/
def onoffRelease (monitors : Bool) (client : ℕ) (s : OnoffSys) : OnoffSys × ℤ :=
  match s.mgr.state with
  | .on =>
    let s' := s.released client
    (if s'.mgr.refs = 0 then processEvent monitors .recheck s' else s', s.mgr.state.value)
  | .error => (s, - EIO)
  | _ => (s, -ENOTSUP)

def onoffReset (hasReset monitors : Bool) (s : OnoffSys) : OnoffSys × ℤ :=
  if hasReset = false then (s, -ENOTSUP)
  else
    match s.mgr.state with
    | .error => (processEvent monitors .recheck s.enqueue, s.mgr.state.value)
    | .resetting => (s.enqueue, s.mgr.state.value)
    | _ => (s, -EALREADY)

def onoffCancel (client : ℕ) (s : OnoffSys) : OnoffSys × ℤ :=
  if client ∈ s.mgr.clients then
    ({ s with
      mgr := { s.mgr with clients := s.mgr.clients.erase client }
      cancelled := s.cancelled ++ [client] }, s.mgr.state.value)
  else (s, -EALREADY)

/-- A client holds a reference: it was counted, notified, and has not released it. -/
def Holds (s : OnoffSys) (client : ℕ) : Prop :=
  client ∈ s.holders ∧ client ∈ s.notified.map Prod.fst

instance (s : OnoffSys) (client : ℕ) : Decidable (s.Holds client) :=
  inferInstanceAs (Decidable (_ ∧ _))

/-- A section or an action. What is not possible in a state leaves it as it is. -/
def step (hasReset : Bool) (s : OnoffSys) : OnoffOp → OnoffSys
  | .request monitors => (s.onoffRequest monitors).1
  | .release client monitors => if s.Holds client then (s.onoffRelease monitors client).1 else s
  | .reset monitors => (s.onoffReset hasReset monitors).1
  | .cancel client => (s.onoffCancel client).1
  | .notifyDirect which =>
    match s.direct[which]? with
    | none => s
    | some client =>
      { s with
        direct := s.direct.eraseIdx which
        notified := s.notified ++ [(client, .on, 0)] }
  | .notifyNext =>
    match s.loop with
    | some ⟨client :: clients, state, res, transit⟩ =>
      { s with
        loop := some ⟨clients, state, res, transit⟩
        notified := s.notified ++ [(client, state, res)] }
    | _ => s
  | .invoke =>
    match s.loop with
    | some ⟨[], state, res, some (t, source)⟩ =>
      { s with
        loop := some ⟨[], state, res, none⟩
        inProgress := some t
        invoked := s.invoked ++ [(t, source, s.inProgress)] }
    | _ => s
  | .complete res monitors =>
    if s.inProgress = none then s
    else
      processEvent monitors .complete
        { s with inProgress := none, mgr := { s.mgr with lastRes := res } }
  | .relock monitors =>
    match s.loop with
    | some ⟨[], _, _, none⟩ =>
      let s' := { s with mgr := { s.mgr with processing := false }, loop := none }
      turns monitors 3 s'.takeDeferred.1 s'.takeDeferred.2
    | _ => s

def run (hasReset : Bool) (s : OnoffSys) (ops : List OnoffOp) : OnoffSys :=
  ops.foldl (step hasReset) s

/-- Clients that `process_event` is about to notify. -/
def notifying (s : OnoffSys) : List ℕ := (s.loop.map clients).getD []

/-- Transition that `process_event` is about to call. -/
def pending (s : OnoffSys) : Option (OnoffTransition × OnoffState) := s.loop.bind transit

end OnoffSys

/-! ### Invariant -/

variable {refs : ℕ}

theorem refsInc_eq (h : refs < serviceRefsMax) : refsInc refs = refs + 1 := by
  rw [serviceRefsMax] at h
  unfold refsInc
  omega

theorem refsDec_eq (hpos : 0 < refs) (h : refs ≤ serviceRefsMax) : refsDec refs = refs - 1 := by
  rw [serviceRefsMax] at h
  unfold refsDec
  omega

namespace OnoffManager

variable {m : OnoffManager} {t : OnoffTransition}

theorem state_of_processRecheck (h : m.processRecheck = some t) :
    m.state = t.source ∧ (t = .stop → m.refs = 0) := by
  rw [processRecheck] at h
  split_ifs at h with h₁ h₂ h₃
  · obtain rfl := Option.some.inj h
    exact ⟨h₁.1, nofun⟩
  · obtain rfl := Option.some.inj h
    exact ⟨h₂.1, fun _ => h₂.2⟩
  · obtain rfl := Option.some.inj h
    exact ⟨h₃.1, nofun⟩

theorem processRecheck_eq_none (h : m.state.transition? ≠ none) : m.processRecheck = none := by
  rcases hm : m.processRecheck with _ | t
  · rfl
  · rw [(state_of_processRecheck hm).1] at h
    cases t <;> exact absurd rfl h

/-- In a stable state, nothing is decided if nobody waits and the service is used while on. -/
theorem processRecheck_eq_none_iff :
    m.processRecheck = none ↔ ((m.state = .off ∨ m.state = .error) → m.clients = []) ∧
      (m.state = .on → m.refs ≠ 0) := by
  rw [processRecheck]
  rcases hs : m.state <;> by_cases hc : m.clients = [] <;> simp [hc]

end OnoffManager

/-- Where a transition is: decided on, in progress, or completed, by the state, what `process_event`
is about to call, what is in progress, and the flags. -/
inductive OnoffPhase : Option OnoffTransition → Option (OnoffTransition × OnoffState) →
    Option OnoffTransition → Bool → Bool → Prop
  | stable (recheck : Bool) : OnoffPhase none none none false recheck
  | decided (t : OnoffTransition) : OnoffPhase (some t) (some (t, t.source)) none false false
  | running (t : OnoffTransition) : OnoffPhase (some t) none (some t) false false
  | completed (t : OnoffTransition) : OnoffPhase (some t) none none true false

namespace OnoffPhase

variable {tr i : Option OnoffTransition} {p : Option (OnoffTransition × OnoffState)} {c r : Bool}
  {t : OnoffTransition} {source : OnoffState}

theorem of_stable (h : OnoffPhase none p i c r) : p = none ∧ i = none ∧ c = false := by
  cases h
  exact ⟨rfl, rfl, rfl⟩

theorem of_decided (h : OnoffPhase tr (some (t, source)) i c r) :
    tr = some t ∧ source = t.source ∧ i = none ∧ c = false ∧ r = false := by
  cases h
  exact ⟨rfl, rfl, rfl, rfl, rfl⟩

theorem of_running (h : OnoffPhase tr p (some t) c r) :
    tr = some t ∧ p = none ∧ c = false ∧ r = false := by
  cases h
  exact ⟨rfl, rfl, rfl, rfl⟩

theorem of_returned (h : OnoffPhase tr none i c r) :
    (tr = none ∧ i = none ∧ c = false) ∨ (∃ t, tr = some t ∧ i = some t ∧ c = false ∧ r = false) ∨
      ∃ t, tr = some t ∧ i = none ∧ c = true ∧ r = false := by
  cases h with
  | stable => exact .inl ⟨rfl, rfl, rfl⟩
  | running t => exact .inr (.inl ⟨t, rfl, rfl, rfl, rfl⟩)
  | completed t => exact .inr (.inr ⟨t, rfl, rfl, rfl, rfl⟩)

end OnoffPhase

namespace OnoffSys

/-- The books: references and holders, the queue, and where each accepted client is. -/
structure Core (s : OnoffSys) : Prop where
  refs : s.mgr.refs = s.holders.length
  refs_le : s.holders.length ≤ serviceRefsMax
  holders : s.mgr.state ≠ .on → s.holders = []
  queue : s.mgr.state = .off ∨ s.mgr.state = .toOn ∨ s.mgr.state = .toOff →
    s.mgr.clients.length ≤ serviceRefsMax
  queueOn : s.mgr.state = .on → s.mgr.clients = []
  account : (s.mgr.clients ++ s.notifying ++ s.direct ++ s.notified.map Prod.fst ++
    s.cancelled).Perm (List.range s.accepted)
  invoked : ∀ x ∈ s.invoked, x.2.1 = x.1.source ∧ x.2.2 = none

/-- The books, the loop of `process_event`, and the transition. -/
structure Inv (s : OnoffSys) : Prop extends Core s where
  active : s.mgr.processing = s.loop.isSome
  quiet : s.loop = none → s.mgr.complete = false ∧ s.mgr.recheck = false
  phase : OnoffPhase s.mgr.state.transition? s.pending s.inProgress s.mgr.complete s.mgr.recheck
  rechecked : s.mgr.processRecheck ≠ none → s.mgr.recheck = true

/-- `process_event` has the lock, and no event is recorded. -/
structure Locked (s : OnoffSys) : Prop extends Core s where
  loop : s.loop = none
  processing : s.mgr.processing = false
  complete : s.mgr.complete = false
  recheck : s.mgr.recheck = false
  inProgress : s.inProgress = none

variable {s : OnoffSys}

theorem inv_init : Inv init where
  refs := rfl
  refs_le := by decide
  holders := fun _ => rfl
  queue := fun _ => by decide
  queueOn := fun _ => rfl
  account := .nil
  invoked := nofun
  active := rfl
  quiet := fun _ => ⟨rfl, rfl⟩
  phase := .stable _
  rechecked := fun h => absurd rfl h

theorem Core.holders_eq_nil (h : Core s) (hrefs : s.mgr.refs = 0) : s.holders = [] :=
  eq_nil_of_length_eq_zero (h.refs ▸ hrefs)

theorem Locked.recheckTurn (h : Locked s) (hstate : s.mgr.state.transition? = none) :
    Inv s.recheckTurn := by
  rcases ht : s.mgr.processRecheck with _ | t
  · simp only [OnoffSys.recheckTurn, ht]
    refine ⟨h.toCore, ?_, fun _ => ⟨h.complete, h.recheck⟩, ?_, fun hne => absurd ht hne⟩
    · rw [h.processing, h.loop]
      rfl
    · rw [hstate, pending, h.loop, h.inProgress, h.complete]
      exact .stable _
  obtain ⟨hsource, hrefs⟩ := OnoffManager.state_of_processRecheck ht
  have hholders : s.holders = [] := by
    by_cases hon : s.mgr.state = .on
    · refine h.holders_eq_nil (hrefs ?_)
      rw [hon] at hsource
      cases t <;> first | rfl | cases hsource
    · exact h.holders hon
  have htarget : t.target.transition? = some t := by cases t <;> rfl
  simp only [OnoffSys.recheckTurn, ht]
  refine ⟨⟨h.refs, h.refs_le, fun _ => hholders, fun hq => ?_, fun hon => ?_, ?_, h.invoked⟩, rfl,
    nofun, ?_, fun hne => absurd (OnoffManager.processRecheck_eq_none ?_) hne⟩
  · cases t with
    | start => exact h.queue (.inl hsource)
    | stop => simp [h.queueOn hsource]
    | reset => rcases hq with hq | hq | hq <;> cases hq
  · cases t <;> cases hon
  · have := h.account
    rw [notifying, h.loop] at this
    exact this
  · simp only [htarget, pending, bind_some, hsource, h.inProgress, h.complete, h.recheck]
    exact .decided t
  · simp only [htarget]
    simp

theorem flagRecheck_fields (m : OnoffManager) :
    m.flagRecheck.clients = m.clients ∧ m.flagRecheck.state = m.state ∧
      m.flagRecheck.refs = m.refs ∧ m.flagRecheck.processing = m.processing ∧
      m.flagRecheck.complete = m.complete := by
  rw [OnoffManager.flagRecheck]
  split_ifs <;> exact ⟨rfl, rfl, rfl, rfl, rfl⟩

theorem processComplete_clients (m : OnoffManager) (res : ℤ) :
    (m.processComplete res).1.clients ++ (m.processComplete res).2 = m.clients := by
  rw [OnoffManager.processComplete]
  split_ifs <;> simp [flagRecheck_fields]

variable {m : OnoffManager} {t : OnoffTransition}

theorem flagRecheck_spec (hrecheck : m.recheck = false) :
    m.flagRecheck.processRecheck ≠ none ↔ m.flagRecheck.recheck = true := by
  by_cases hm : m.processRecheck = none
  · simp [OnoffManager.flagRecheck, hm, hrecheck]
  · have hflag : m.flagRecheck = { m with recheck := true } := if_neg hm
    rw [hflag]
    exact ⟨fun _ => rfl, fun _ => hm⟩

/-- Clients that hold a reference after a completion. -/
def holdersAfter (s : OnoffSys) : List ℕ :=
  if s.mgr.state = .toOn ∧ 0 ≤ s.mgr.lastRes then
    s.holders ++ (s.mgr.processComplete s.mgr.lastRes).2
  else s.holders

/-- What is known of the manager when a transition has completed, with the clients to notify. -/
structure Completed (s : OnoffSys) (r : OnoffManager × List ℕ) : Prop where
  state : r.1.state.transition? = none
  processing : r.1.processing = false
  complete : r.1.complete = false
  rechecked : r.1.processRecheck ≠ none ↔ r.1.recheck = true
  core : ∀ processing loop, (loop.map clients).getD [] = r.2 → Core { s with
      mgr := { r.1 with processing := processing }, loop := loop, holders := s.holdersAfter }

theorem Locked.account_after (h : Locked s) {r : OnoffManager × List ℕ}
    (hr : r = s.mgr.processComplete s.mgr.lastRes) (loop : Option OnoffLoop)
    (hloop : (loop.map clients).getD [] = r.2) :
    (r.1.clients ++ (loop.map clients).getD [] ++ s.direct ++
      s.notified.map Prod.fst ++ s.cancelled).Perm (List.range s.accepted) := by
  have hclients := processComplete_clients s.mgr s.mgr.lastRes
  have := h.account
  rw [← hr] at hclients
  rwa [notifying, h.loop, map_none, getD_none, append_nil, ← hclients, ← hloop] at this

theorem Locked.completed_flag (h : Locked s) {clients : List ℕ}
    (hr : (m.flagRecheck, clients) = s.mgr.processComplete s.mgr.lastRes)
    (hstate : m.state.transition? = none) (hprocessing : m.processing = false)
    (hcomplete : m.complete = false) (hrecheck : m.recheck = false)
    (hrefs : m.refs = s.holdersAfter.length) (hle : s.holdersAfter.length ≤ serviceRefsMax)
    (hholders : m.state ≠ .on → s.holdersAfter = [])
    (hqueue : m.clients.length ≤ serviceRefsMax) (hqueueOn : m.state = .on → m.clients = []) :
    Completed s (m.flagRecheck, clients) := by
  obtain ⟨hcl, hst, hre, hpr, hco⟩ := flagRecheck_fields m
  refine ⟨by rwa [hst], by rwa [hpr], by rwa [hco], flagRecheck_spec hrecheck, fun p loop hloop =>
    ⟨by rwa [hre], hle, ?_, fun _ => by rwa [hcl], ?_, h.account_after hr loop hloop, h.invoked⟩⟩
  · rwa [hst]
  · rwa [hst, hcl]

theorem Locked.processComplete (h : Locked s) (ht : s.mgr.state.transition? = some t) :
    Completed s (s.mgr.processComplete s.mgr.lastRes) := by
  have hholders : s.holders = [] := by
    refine h.holders fun hon => ?_
    rw [hon] at ht
    cases ht
  have hrefs : s.mgr.refs = 0 := by rw [h.refs, hholders, length_nil]
  by_cases hres : s.mgr.lastRes < 0
  · have hafter : s.holdersAfter = [] := by
      rw [holdersAfter, if_neg fun hc => absurd hc.2 (by omega), hholders]
    have hr : ({ s.mgr with clients := [], state := .error }, s.mgr.clients) =
        s.mgr.processComplete s.mgr.lastRes := by
      rw [OnoffManager.processComplete, if_pos hres]
    rw [← hr]
    refine ⟨rfl, h.processing, h.complete, ?_, fun p loop hloop => ⟨by rw [hafter, hrefs]; rfl,
      by rw [hafter]; simp, fun _ => hafter, fun _ => by simp, fun _ => rfl,
      h.account_after hr loop hloop, h.invoked⟩⟩
    simp [OnoffManager.processRecheck, h.recheck]
  have hoff : ∀ clients out : List ℕ,
      (OnoffManager.flagRecheck { s.mgr with clients := clients, state := .off }, out) =
        s.mgr.processComplete s.mgr.lastRes → s.mgr.state ≠ .toOn →
      clients.length ≤ serviceRefsMax → Completed s (s.mgr.processComplete s.mgr.lastRes) := by
    intro clients out hr hne hle
    have hafter : s.holdersAfter = [] := by
      rw [holdersAfter, if_neg fun hc => hne hc.1, hholders]
    rw [← hr]
    exact h.completed_flag hr rfl h.processing h.complete h.recheck (by rw [hafter, hrefs]; rfl)
      (by rw [hafter]; simp) (fun _ => hafter) hle nofun
  cases t with
  | start =>
    have hstate : s.mgr.state = .toOn := by
      rcases hs : s.mgr.state <;> rw [hs] at ht <;> first | rfl | cases ht
    have hle := h.queue (.inr (.inl hstate))
    have hr : (OnoffManager.flagRecheck { s.mgr with
        clients := [], refs := (s.mgr.refs + s.mgr.clients.length) % 2 ^ 16, state := .on },
        s.mgr.clients) = s.mgr.processComplete s.mgr.lastRes := by
      rw [OnoffManager.processComplete, if_neg hres, if_pos hstate]
    have hafter : s.holdersAfter = s.mgr.clients := by
      rw [holdersAfter, if_pos ⟨hstate, by omega⟩, hholders, nil_append, ← hr]
    rw [← hr]
    refine h.completed_flag hr rfl h.processing h.complete h.recheck ?_ (hafter ▸ hle)
      (fun hne => absurd rfl hne) (Nat.zero_le _) fun _ => rfl
    rw [hafter, hrefs, zero_add]
    exact Nat.mod_eq_of_lt (Nat.lt_succ_of_le hle)
  | stop =>
    have hstate : s.mgr.state = .toOff := by
      rcases hs : s.mgr.state <;> rw [hs] at ht <;> first | rfl | cases ht
    refine hoff s.mgr.clients [] ?_ (by simp [hstate]) (h.queue (.inr (.inr hstate)))
    rw [OnoffManager.processComplete, if_neg hres, hstate]
    rfl
  | reset =>
    have hstate : s.mgr.state = .resetting := by
      rcases hs : s.mgr.state <;> rw [hs] at ht <;> first | rfl | cases ht
    refine hoff [] s.mgr.clients ?_ (by simp [hstate]) (Nat.zero_le _)
    rw [OnoffManager.processComplete, if_neg hres, hstate]
    rfl

theorem Locked.complete_turns (h : Locked s)
    (ht : s.mgr.state.transition? = some t) (monitors : Bool) (n : ℕ) :
    Inv (turns monitors (n + 2) s (some .complete)) := by
  obtain ⟨hstate, hprocessing, hcomplete, hcheck, hcore⟩ := h.processComplete ht
  set r := s.mgr.processComplete s.mgr.lastRes with hr
  by_cases hunlock : (s.mgr.state ≠ r.1.state ∧ monitors = true) ∨ r.2 ≠ []
  · have hturn : s.completeTurn monitors = ({ s with
        mgr := { r.1 with processing := true }
        loop := some ⟨r.2, r.1.state, s.mgr.lastRes, none⟩
        holders := s.holdersAfter }, true) := by
      rw [completeTurn, ← hr]
      exact if_pos hunlock
    rw [turns, hturn, if_pos rfl]
    refine ⟨hcore true _ rfl, rfl, nofun, ?_, hcheck.mp⟩
    simp only [pending, bind_some, hstate, h.inProgress, hcomplete]
    exact .stable _
  have hturn : s.completeTurn monitors =
      ({ s with mgr := r.1, holders := s.holdersAfter }, false) := by
    rw [completeTurn, ← hr]
    exact if_neg hunlock
  rw [not_or, not_not] at hunlock
  rw [turns, hturn, if_neg (by simp)]
  have hcore' : Core { s with mgr := r.1, holders := s.holdersAfter } := by
    have := hcore false s.loop (by rw [h.loop, hunlock.2]; rfl)
    rw [← hprocessing] at this
    exact this
  by_cases hrecheck : r.1.recheck = true
  · have hdeferred : takeDeferred { s with mgr := r.1, holders := s.holdersAfter } =
        ({ s with mgr := { r.1 with recheck := false }, holders := s.holdersAfter },
          some .recheck) := by
      simp [takeDeferred, hcomplete, hrecheck]
    rw [hdeferred, turns]
    refine Locked.recheckTurn ⟨?_, h.loop, hprocessing, hcomplete, rfl, h.inProgress⟩ hstate
    exact ⟨hcore'.refs, hcore'.refs_le, hcore'.holders, hcore'.queue, hcore'.queueOn,
      hcore'.account, hcore'.invoked⟩
  have hdeferred : takeDeferred { s with mgr := r.1, holders := s.holdersAfter } =
      ({ s with mgr := r.1, holders := s.holdersAfter }, none) := by
    simp [takeDeferred, hcomplete, hrecheck]
  rw [hdeferred, turns]
  refine ⟨hcore', ?_, fun _ => ⟨hcomplete, by simpa using hrecheck⟩, ?_, hcheck.mp⟩
  · rw [hprocessing, h.loop]
    rfl
  · simp only [pending, h.loop, hstate, h.inProgress, hcomplete]
    exact .stable _

/-! ### Every step -/

theorem Core.processEvent_recheck (h : Core s) (hactive : s.mgr.processing = s.loop.isSome)
    (hquiet : s.loop = none → s.mgr.complete = false ∧ s.mgr.recheck = false)
    (hphase : OnoffPhase s.mgr.state.transition? s.pending s.inProgress s.mgr.complete
      s.mgr.recheck) (hstate : s.mgr.state.transition? = none) (monitors : Bool) :
    Inv (s.processEvent monitors .recheck) := by
  rw [hstate] at hphase
  obtain ⟨hp, hi, hc⟩ := hphase.of_stable
  rcases hl : s.loop with _ | l
  · have hproc : s.mgr.processing = false := by rw [hactive, hl]; rfl
    rw [processEvent, if_neg (by simp [hproc]), turns]
    exact Locked.recheckTurn ⟨h, hl, hproc, hc, (hquiet hl).2, hi⟩ hstate
  have hproc : s.mgr.processing = true := by rw [hactive, hl]; rfl
  rw [processEvent, if_pos hproc]
  refine ⟨⟨h.refs, h.refs_le, h.holders, h.queue, h.queueOn, h.account, h.invoked⟩, hactive, ?_,
    ?_, fun _ => rfl⟩
  · intro hnone
    cases hl.symm.trans hnone
  · change OnoffPhase s.mgr.state.transition? s.pending s.inProgress s.mgr.complete true
    rw [hstate, hp, hi, hc]
    exact .stable _

theorem Core.processEvent_complete (h : Core s)
    (hactive : s.mgr.processing = s.loop.isSome) (hstate : s.mgr.state.transition? = some t)
    (hpending : s.pending = none) (hprogress : s.inProgress = none)
    (hcomplete : s.mgr.complete = false) (hrecheck : s.mgr.recheck = false) (monitors : Bool) :
    Inv (s.processEvent monitors .complete) := by
  rcases hl : s.loop with _ | l
  · have hproc : s.mgr.processing = false := by rw [hactive, hl]; rfl
    rw [processEvent, if_neg (by simp [hproc])]
    exact Locked.complete_turns ⟨h, hl, hproc, hcomplete, hrecheck, hprogress⟩ hstate monitors 1
  have hproc : s.mgr.processing = true := by rw [hactive, hl]; rfl
  rw [processEvent, if_pos hproc]
  refine ⟨⟨h.refs, h.refs_le, h.holders, h.queue, h.queueOn, h.account, h.invoked⟩, hactive, ?_,
    ?_, fun hne => absurd (OnoffManager.processRecheck_eq_none ?_) hne⟩
  · intro hnone
    cases hl.symm.trans hnone
  · change OnoffPhase s.mgr.state.transition? s.pending s.inProgress true s.mgr.recheck
    rw [hstate, hpending, hprogress, hrecheck]
    exact .completed t
  · rw [hstate]
    exact some_ne_none t

theorem Core.enqueue (h : Core s) (hon : s.mgr.state ≠ .on)
    (hq : s.mgr.state = .off ∨ s.mgr.state = .toOn ∨ s.mgr.state = .toOff →
      s.mgr.clients.length < serviceRefsMax) : Core s.enqueue := by
  refine ⟨h.refs, h.refs_le, h.holders, fun hs => ?_, fun hs => absurd hs hon, ?_, h.invoked⟩
  · rw [OnoffSys.enqueue, length_append, length_singleton]
    exact hq hs
  simp only [OnoffSys.enqueue, range_succ]
  refine List.Perm.trans ?_ (h.account.append_right [s.accepted])
  rw [perm_iff_count]
  intro a
  simp only [notifying, count_append]
  omega

/-- **`onoff_request`**, made while fewer than 65535 clients wait. -/
theorem Inv.onoffRequest (h : Inv s) (monitors : Bool)
    (hq : s.mgr.clients.length < serviceRefsMax) : Inv (s.onoffRequest monitors).1 := by
  by_cases hmax : s.mgr.refs = serviceRefsMax
  · rw [OnoffSys.onoffRequest, if_pos hmax]
    exact h
  have hqueue : ∀ t, s.mgr.state.transition? = some t → s.mgr.state ≠ .on → Inv s.enqueue := by
    intro t ht hon
    refine ⟨h.toCore.enqueue hon fun _ => hq, h.active, h.quiet, h.phase,
      fun hne => absurd (OnoffManager.processRecheck_eq_none ?_) hne⟩
    rw [show s.enqueue.mgr.state = s.mgr.state from rfl, ht]
    simp
  rw [OnoffSys.onoffRequest, if_neg hmax]
  rcases hs : s.mgr.state
  case on =>
    have hrefs := h.refs
    have hle := h.refs_le
    have hinc : s.counted.mgr.refs = s.mgr.refs + 1 := refsInc_eq (by omega)
    have hlen : s.counted.holders.length = s.holders.length + 1 := by
      rw [counted, length_append, length_singleton]
    refine ⟨⟨?_, ?_, fun hne => absurd hs hne, fun _ => ?_, fun _ => h.queueOn hs, ?_, h.invoked⟩,
      h.active, h.quiet, h.phase, fun hne => absurd ?_ hne⟩
    · rw [hinc, hlen, hrefs]
    · rw [hlen]
      omega
    · exact (congrArg List.length (h.queueOn hs)).trans_le (Nat.zero_le _)
    · simp only [counted, range_succ]
      refine List.Perm.trans ?_ (h.account.append_right [s.accepted])
      rw [perm_iff_count]
      intro a
      simp only [notifying, count_append]
      omega
    · rw [OnoffManager.processRecheck_eq_none_iff, hinc, show s.counted.mgr.state = .on from hs]
      simp
  case off =>
    refine (h.toCore.enqueue (by simp [hs]) fun _ => hq).processEvent_recheck h.active h.quiet
      h.phase ?_ monitors
    rw [show s.enqueue.mgr.state = s.mgr.state from rfl, hs]
    rfl
  case toOn => exact hqueue .start (by rw [hs]; rfl) (by simp [hs])
  case toOff => exact hqueue .stop (by rw [hs]; rfl) (by simp [hs])
  case resetting => exact h
  case error => exact h

/-- **`onoff_release`** by a client that holds a reference. -/
theorem Inv.onoffRelease (h : Inv s) (monitors : Bool) {client : ℕ} (hc : client ∈ s.holders) :
    Inv (s.onoffRelease monitors client).1 := by
  have hs : s.mgr.state = .on := by
    by_contra hne
    rw [h.holders hne] at hc
    cases hc
  have hpos := length_pos_of_mem hc
  have hrefs := h.refs
  have hle := h.refs_le
  have hdec : (s.released client).mgr.refs = s.mgr.refs - 1 := by
    rw [← hrefs] at hpos hle
    exact refsDec_eq hpos hle
  have hlen : (s.released client).holders.length = s.holders.length - 1 :=
    length_erase_of_mem hc
  have hs' : (s.released client).mgr.state = .on := hs
  have hcore : Core (s.released client) := by
    refine ⟨?_, ?_, fun hne => absurd hs hne, h.queue, h.queueOn, h.account, h.invoked⟩
    · rw [hdec, hlen, hrefs]
    · rw [hlen]
      omega
  simp only [OnoffSys.onoffRelease, hs]
  split_ifs with hzero
  · exact hcore.processEvent_recheck h.active h.quiet h.phase (by rw [hs']; rfl) monitors
  · refine ⟨hcore, h.active, h.quiet, h.phase, fun hne => absurd ?_ hne⟩
    rw [OnoffManager.processRecheck_eq_none_iff]
    simp [hs', hzero]

theorem Inv.onoffReset (h : Inv s) (hasReset monitors : Bool) :
    Inv (s.onoffReset hasReset monitors).1 := by
  by_cases hreset : hasReset = false
  · rw [OnoffSys.onoffReset, if_pos hreset]
    exact h
  rw [OnoffSys.onoffReset, if_neg hreset]
  rcases hs : s.mgr.state
  case error =>
    refine (h.toCore.enqueue (by simp [hs]) (by simp [hs])).processEvent_recheck h.active h.quiet
      h.phase ?_ monitors
    rw [show s.enqueue.mgr.state = s.mgr.state from rfl, hs]
    rfl
  case resetting =>
    refine ⟨h.toCore.enqueue (by simp [hs]) (by simp [hs]), h.active, h.quiet, h.phase,
      fun hne => absurd (OnoffManager.processRecheck_eq_none ?_) hne⟩
    rw [show s.enqueue.mgr.state = s.mgr.state from rfl, hs]
    simp [OnoffState.transition?]
  all_goals exact h

theorem Inv.onoffCancel (h : Inv s) (client : ℕ) : Inv (s.onoffCancel client).1 := by
  rw [OnoffSys.onoffCancel]
  split_ifs with hc
  · have hperm := perm_cons_erase hc
    refine ⟨⟨h.refs, h.refs_le, h.holders, fun hq => ?_, fun hon => ?_, ?_, h.invoked⟩, h.active,
      h.quiet, h.phase, fun hne => h.rechecked fun hnone => hne ?_⟩
    · exact (length_erase_le).trans (h.queue hq)
    · rw [h.queueOn hon] at hc
      cases hc
    · refine List.Perm.trans ?_ h.account
      have hcount := perm_iff_count.mp hperm
      rw [perm_iff_count]
      intro a
      have := hcount a
      simp only [notifying, count_append, count_cons, count_nil] at this ⊢
      omega
    · rw [OnoffManager.processRecheck_eq_none_iff] at hnone ⊢
      refine ⟨fun hor => ?_, hnone.2⟩
      rw [hnone.1 hor] at hc
      cases hc
  · exact h

theorem Inv.notify (h : Inv s) {s' : OnoffSys} (hmgr : s'.mgr = s.mgr)
    (hloop : s'.loop.isSome = s.loop.isSome) (hpending : s'.pending = s.pending)
    (hprogress : s'.inProgress = s.inProgress) (hholders : s'.holders = s.holders)
    (hinvoked : s'.invoked = s.invoked)
    (haccount : (s'.mgr.clients ++ s'.notifying ++ s'.direct ++ s'.notified.map Prod.fst ++
      s'.cancelled).Perm (List.range s'.accepted)) : Inv s' := by
  refine ⟨⟨?_, ?_, ?_, ?_, ?_, haccount, ?_⟩, ?_, ?_, ?_, ?_⟩
  · rw [hmgr, hholders, h.refs]
  · rw [hholders]
    exact h.refs_le
  · rw [hmgr, hholders]
    exact h.holders
  · rw [hmgr]
    exact h.queue
  · rw [hmgr]
    exact h.queueOn
  · rw [hinvoked]
    exact h.invoked
  · rw [hmgr, hloop, h.active]
  · intro hnone
    rw [hmgr]
    refine h.quiet ?_
    rwa [hnone, isSome_none, eq_comm, isSome_eq_false_iff, isNone_iff_eq_none] at hloop
  · rw [hmgr, hpending, hprogress]
    exact h.phase
  · rw [hmgr]
    exact h.rechecked

theorem Inv.notifyDirect (h : Inv s) (hasReset : Bool) (which : ℕ) :
    Inv (s.step hasReset (.notifyDirect which)) := by
  rcases hget : s.direct[which]? with _ | client
  · simp only [step, hget]
    exact h
  simp only [step, hget]
  refine h.notify rfl rfl rfl rfl rfl rfl (List.Perm.trans ?_ h.account)
  obtain ⟨hlt, hclient⟩ := List.getElem?_eq_some_iff.mp hget
  have hperm := getElem_cons_eraseIdx_perm hlt
  rw [hclient] at hperm
  have hcount := perm_iff_count.mp hperm
  rw [perm_iff_count]
  intro a
  have := hcount a
  simp only [notifying, map_append, map_cons, map_nil, count_append,
    count_cons, count_nil] at this ⊢
  omega

theorem Inv.notifyNext (h : Inv s) (hasReset : Bool) : Inv (s.step hasReset .notifyNext) := by
  rcases hl : s.loop with _ | ⟨_ | ⟨client, clients⟩, state, res, transit⟩
  · simp only [step, hl]
    exact h
  · simp only [step, hl]
    exact h
  simp only [step, hl]
  refine h.notify rfl (by rw [hl]; rfl) ?_ rfl rfl rfl (List.Perm.trans ?_ h.account)
  · rw [pending, pending, hl]
    rfl
  rw [perm_iff_count]
  intro a
  simp only [notifying, hl, map_some, getD_some, map_append, map_cons,
    map_nil, count_append, count_cons, count_nil]
  omega

theorem Inv.invoke (h : Inv s) (hasReset : Bool) : Inv (s.step hasReset .invoke) := by
  rcases hl : s.loop with _ | ⟨_ | ⟨client, clients⟩, state, res, _ | ⟨t, source⟩⟩
  case some.nil.some =>
    simp only [step, hl]
    have hpending : s.pending = some (t, source) := by rw [pending, hl, bind_some]
    have hphase := h.phase
    rw [hpending] at hphase
    obtain ⟨hst, rfl, hi, hc, hr⟩ := hphase.of_decided
    refine ⟨⟨h.refs, h.refs_le, h.holders, h.queue, h.queueOn, ?_, fun x hx => ?_⟩, ?_, nofun, ?_,
      h.rechecked⟩
    · have := h.account
      rw [notifying, hl] at this
      exact this
    · rcases mem_append.mp hx with hx | hx
      · exact h.invoked x hx
      · rw [mem_singleton.mp hx]
        exact ⟨rfl, hi⟩
    · rw [h.active, hl]
      rfl
    · change OnoffPhase s.mgr.state.transition? none (some t) s.mgr.complete s.mgr.recheck
      rw [hst, hc, hr]
      exact .running t
  all_goals
    simp only [step, hl]
    exact h

/-- **A transition completes**, before its function returns or later. -/
theorem Inv.complete (h : Inv s) (hasReset : Bool) (res : ℤ) (monitors : Bool) :
    Inv (s.step hasReset (.complete res monitors)) := by
  rcases hi : s.inProgress with _ | t
  · simp only [step, hi, if_true]
    exact h
  have hphase := h.phase
  rw [hi] at hphase
  obtain ⟨hst, hp, hc, hr⟩ := hphase.of_running
  rw [step, if_neg (by simp [hi])]
  have hcore : Core { s with inProgress := none, mgr := { s.mgr with lastRes := res } } :=
    ⟨h.refs, h.refs_le, h.holders, h.queue, h.queueOn, h.account, h.invoked⟩
  exact hcore.processEvent_complete h.active hst hp rfl hc hr monitors

theorem Inv.relock (h : Inv s) (hasReset : Bool) (monitors : Bool) :
    Inv (s.step hasReset (.relock monitors)) := by
  rcases hl : s.loop with _ | ⟨_ | ⟨client, clients⟩, state, res, _ | ⟨t, source⟩⟩
  case some.nil.none =>
    simp only [step, hl]
    have hcore : ∀ c r : Bool, Core { s with
        mgr := { s.mgr with processing := false, complete := c, recheck := r }, loop := none } := by
      intro c r
      refine ⟨h.refs, h.refs_le, h.holders, h.queue, h.queueOn, ?_, h.invoked⟩
      have := h.account
      rw [notifying, hl] at this
      exact this
    have hphase := h.phase
    rw [show s.pending = none by rw [pending, hl, bind_some]] at hphase
    rcases hphase.of_returned with ⟨hst, hi, hc⟩ | ⟨t, hst, hi, hc, hr⟩ | ⟨t, hst, hi, hc, hr⟩
    · by_cases hr : s.mgr.recheck = true
      · simp only [takeDeferred, hc, hr, Bool.false_eq_true, if_false, if_true, turns]
        exact Locked.recheckTurn ⟨hcore false false, rfl, rfl, rfl, rfl, hi⟩ hst
      rw [Bool.not_eq_true] at hr
      simp only [takeDeferred, hc, hr, Bool.false_eq_true, if_false, turns]
      refine ⟨hcore false false, rfl, fun _ => ⟨rfl, rfl⟩, ?_, fun hne => ?_⟩
      · change OnoffPhase s.mgr.state.transition? none s.inProgress false false
        rw [hst, hi]
        exact .stable _
      · exact (hr ▸ h.rechecked hne :)
    · simp only [takeDeferred, hc, hr, Bool.false_eq_true, if_false, turns]
      refine ⟨hcore false false, rfl, fun _ => ⟨rfl, rfl⟩, ?_, fun hne => ?_⟩
      · change OnoffPhase s.mgr.state.transition? none s.inProgress false false
        rw [hst, hi]
        exact .running t
      · exact (hr ▸ h.rechecked hne :)
    · simp only [takeDeferred, hc, hr, if_true]
      exact Locked.complete_turns ⟨hcore false false, rfl, rfl, rfl, rfl, hi⟩ hst monitors 1
  all_goals
    simp only [step, hl]
    exact h

def RequestFits (s : OnoffSys) : OnoffOp → Prop
  | .request _ => s.mgr.clients.length < serviceRefsMax
  | _ => True

def RequestsFit (hasReset : Bool) (s : OnoffSys) : List OnoffOp → Prop
  | [] => True
  | op :: ops => s.RequestFits op ∧ RequestsFit hasReset (s.step hasReset op) ops

/-- **Every section and every action** keeps the invariant. -/
theorem Inv.step (h : Inv s) (hasReset : Bool) {op : OnoffOp} (hop : s.RequestFits op) :
    Inv (s.step hasReset op) := by
  cases op with
  | request monitors => exact h.onoffRequest monitors hop
  | release client monitors =>
    rw [OnoffSys.step]
    split_ifs with hc
    · exact h.onoffRelease monitors hc.1
    · exact h
  | reset monitors => exact h.onoffReset hasReset monitors
  | cancel client => exact h.onoffCancel client
  | notifyDirect which => exact h.notifyDirect hasReset which
  | notifyNext => exact h.notifyNext hasReset
  | invoke => exact h.invoke hasReset
  | complete res monitors => exact h.complete hasReset res monitors
  | relock monitors => exact h.relock hasReset monitors

theorem Inv.run {hasReset : Bool} (ops : List OnoffOp) (h : Inv s)
    (hops : RequestsFit hasReset s ops) : Inv (s.run hasReset ops) := by
  induction ops generalizing s with
  | nil => exact h
  | cons op ops ih => exact ih (h.step hasReset hops.1) hops.2

/-! ### Many clients -/

/-- State in which the clients from 0 to `n` wait for a service that starts. -/
def starting (n : ℕ) : OnoffSys :=
  ⟨⟨List.range (n + 1), 0, .toOn, false, false, false, 0⟩, none, some .start, [], n + 1, [], [], [],
    [(.start, .off, none)]⟩

theorem run_append (hasReset : Bool) (s : OnoffSys) (ops ops' : List OnoffOp) :
    s.run hasReset (ops ++ ops') = (s.run hasReset ops).run hasReset ops' :=
  foldl_append

theorem run_starting (hasReset : Bool) (n : ℕ) :
    (starting 0).run hasReset (List.replicate n (.request false)) = starting n := by
  induction n with
  | zero => rfl
  | succ n ih =>
    rw [replicate_succ', run_append, ih]
    simp [OnoffSys.run, starting, OnoffSys.step, OnoffSys.onoffRequest, OnoffSys.enqueue, serviceRefsMax,
      range_succ]

theorem complete_starting (n : ℕ) :
    ((starting n).step true (.complete 0 false)).mgr.state = .on ∧
      ((starting n).step true (.complete 0 false)).mgr.refs = (n + 1) % 2 ^ 16 ∧
      ((starting n).step true (.complete 0 false)).holders.length = n + 1 := by
  simp [OnoffSys.step, starting, processEvent, turns, completeTurn, OnoffManager.processComplete,
    flagRecheck_fields]

end OnoffSys

open OnoffSys

/-- **The on-off protocol**, in every run in which no request is made while 65535 clients wait. Each
accepted client waits, is about to be notified, was notified, or was cancelled, exactly one of these
and once. While the service is on, `refs` counts the clients that were not released. A transition is
called when no other is in progress, in the state it leads out of. When nothing is active, the
service is on and used, or off or in error, and nobody waits. -/
theorem onoff_protocol (hasReset : Bool) (ops : List OnoffOp) (s : OnoffSys)
    (hs : s = init.run hasReset ops) (hfit : RequestsFit hasReset init ops) :
    (s.mgr.clients ++ s.notifying ++ s.direct ++ s.notified.map Prod.fst ++ s.cancelled).Perm
      (List.range s.accepted) ∧
    (s.mgr.state = .on → s.mgr.refs = s.holders.length) ∧
    (∀ x ∈ s.invoked, x.2.1 = x.1.source ∧ x.2.2 = none) ∧
    (s.loop = none → s.inProgress = none →
      (s.mgr.state = .on ∧ 0 < s.mgr.refs ∨ s.mgr.state = .off ∨ s.mgr.state = .error) ∧
      s.mgr.clients = [] ∧
      (s.direct ++ s.notified.map Prod.fst ++ s.cancelled).Perm (List.range s.accepted)) := by
  have h : Inv s := hs ▸ inv_init.run ops hfit
  refine ⟨h.account, fun _ => h.refs, h.invoked, fun hloop hprogress => ?_⟩
  obtain ⟨hcomplete, hrecheck⟩ := h.quiet hloop
  have hnone : s.mgr.processRecheck = none := by
    by_contra hne
    rw [h.rechecked hne] at hrecheck
    cases hrecheck
  obtain ⟨hwaits, hused⟩ := OnoffManager.processRecheck_eq_none_iff.mp hnone
  have hphase := h.phase
  rw [pending, hloop, hprogress, hcomplete, bind_none] at hphase
  have hclients : s.mgr.clients = [] ∧
      (s.mgr.state = .on ∧ 0 < s.mgr.refs ∨ s.mgr.state = .off ∨ s.mgr.state = .error) := by
    generalize hst : s.mgr.state.transition? = tr at hphase
    cases hphase
    rcases hstate : s.mgr.state <;> rw [hstate] at hst <;> cases hst
    · exact ⟨hwaits (.inl hstate), .inr (.inl rfl)⟩
    · exact ⟨h.queueOn hstate, .inl ⟨rfl, Nat.pos_of_ne_zero (hused hstate)⟩⟩
    · exact ⟨hwaits (.inr hstate), .inr (.inr rfl)⟩
  have haccount := h.account
  rw [hclients.1, notifying, hloop] at haccount
  exact ⟨hclients.2, hclients.1, haccount⟩

/-- The theorem on a service that is requested, starts, and is released in a callback. -/
theorem onoff_protocol_release : ∃ s : OnoffSys,
    s = init.run true [.request false, .invoke, .complete 0 false, .relock false, .notifyNext,
      .release 0 false, .relock false, .invoke, .relock false, .complete 0 false] ∧
    s.mgr.state = .off ∧ s.invoked.map Prod.fst = [.start, .stop] ∧
    (s.direct ++ s.notified.map Prod.fst ++ s.cancelled).Perm (List.range s.accepted) :=
  ⟨_, rfl, by decide +kernel, by decide +kernel, ((onoff_protocol true _ _ rfl (by
    simp only [RequestsFit, RequestFits, and_true]
    decide +kernel)).2.2.2 (by decide +kernel) (by decide +kernel)).2.2⟩

/-- **The reference count wraps around** when 65536 clients wait for the service to start. -/
theorem onoff_refs_wrap : ∃ ops : List OnoffOp,
    (init.run true ops).mgr.state = .on ∧ (init.run true ops).mgr.refs = 0 ∧
      (init.run true ops).holders.length = 65536 := by
  refine ⟨[.request false, .invoke, .relock false] ++ List.replicate 65535 (.request false) ++
    [.complete 0 false], ?_⟩
  have hstart : init.run true [.request false, .invoke, .relock false] = starting 0 := by
    decide +kernel
  have hrun : init.run true ([.request false, .invoke, .relock false] ++
      List.replicate 65535 (.request false) ++ [.complete 0 false]) =
      (starting 65535).step true (.complete 0 false) := by
    rw [run_append, run_append, hstart, run_starting, OnoffSys.run, foldl_cons, foldl_nil]
  rw [hrun]
  obtain ⟨hon, hrefs, hholders⟩ := complete_starting 65535
  exact ⟨hon, hrefs.trans (by norm_num), hholders⟩

end TlZephyr
