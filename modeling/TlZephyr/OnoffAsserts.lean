import TlZephyr.Onoff

/-!
# Assertions of On-Off Services

The assertions of `onoff.c`, where they are reached. `onoff_cancel` asserts that a client it finds
waits for a transition. A client that arrives in `OFF` or `ERROR` while `process_event` has released
the lock waits for none yet.
-/

namespace TlZephyr

namespace OnoffSys

/-- Assertions of a turn for `EVT_RECHECK`. The functions `start` and `stop` are not `NULL`. -/
def recheckAsserts (hasReset : Bool) (s : OnoffSys) : Prop :=
  match s.mgr.processRecheck with
  | none => True
  | some .start => s.mgr.state = .off ∧ s.mgr.clients ≠ []
  | some .stop => s.mgr.state = .on ∧ s.mgr.refs = 0
  | some .reset => s.mgr.state = .error ∧ s.mgr.clients ≠ [] ∧ hasReset = true

/-- Those of `process_complete`. -/
def completeAsserts (s : OnoffSys) : Prop :=
  s.mgr.lastRes < 0 ∨ s.mgr.state = .toOn ∨ s.mgr.state = .resetting ∨ s.mgr.state = .toOff

/-- Those of the loop of `process_event`, turn by turn as in `turns`. -/
def turnsAssert (hasReset monitors : Bool) : ℕ → OnoffSys → Option OnoffEvent → Prop
  | 0, _, _ => True
  | _ + 1, _, none => True
  | _ + 1, s, some .recheck => s.recheckAsserts hasReset
  | n + 1, s, some .complete =>
    let r := s.completeTurn monitors
    s.completeAsserts ∧
      (r.2 = false → turnsAssert hasReset monitors n r.1.takeDeferred.1 r.1.takeDeferred.2)

def processEventAsserts (hasReset monitors : Bool) (evt : OnoffEvent) (s : OnoffSys) : Prop :=
  s.mgr.processing = false → turnsAssert hasReset monitors 3 s (some evt)

def Asserts (hasReset : Bool) (s : OnoffSys) : OnoffOp → Prop
  | .request monitors => s.mgr.refs ≠ serviceRefsMax → s.mgr.state = .off →
      s.enqueue.processEventAsserts hasReset monitors .recheck
  | .release client monitors => s.Holds client → s.mgr.state = .on →
      0 < s.mgr.refs ∧ ((s.released client).mgr.refs = 0 →
        (s.released client).processEventAsserts hasReset monitors .recheck)
  | .reset monitors => hasReset = true → s.mgr.state = .error →
      s.enqueue.processEventAsserts hasReset monitors .recheck
  | .cancel client => client ∈ s.mgr.clients →
      s.mgr.state = .toOn ∨ s.mgr.state = .toOff ∨ s.mgr.state = .resetting
  | .complete res monitors => s.inProgress ≠ none →
      processEventAsserts hasReset monitors .complete
        { s with inProgress := none, mgr := { s.mgr with lastRes := res } }
  | .relock monitors =>
    match s.loop with
    | some ⟨[], _, _, none⟩ =>
      let s' := { s with mgr := { s.mgr with processing := false }, loop := none }
      turnsAssert hasReset monitors 3 s'.takeDeferred.1 s'.takeDeferred.2
    | _ => True
  | _ => True

/-- A client is cancelled that waits while no transition has been decided on. -/
def CancelsEarly (s : OnoffSys) : OnoffOp → Prop
  | .cancel client => client ∈ s.mgr.clients ∧ (s.mgr.state = .off ∨ s.mgr.state = .error)
  | _ => False

/-- Nobody waits for a reset of a service that has none. -/
def NoReset (hasReset : Bool) (s : OnoffSys) : Prop :=
  hasReset = false → s.mgr.state = .error → s.mgr.clients = []

variable {s : OnoffSys} {hasReset : Bool}

theorem NoReset.of_ne (h : s.mgr.state ≠ .error) : NoReset hasReset s := fun _ he => absurd he h

theorem NoReset.recheckAsserts (h : NoReset hasReset s) : s.recheckAsserts hasReset := by
  rw [OnoffSys.recheckAsserts, OnoffManager.processRecheck]
  split_ifs with hstart hstop hreset
  · exact hstart
  · exact hstop
  · refine ⟨hreset.1, hreset.2, ?_⟩
    by_contra hno
    exact hreset.2 (h (by simpa using hno) hreset.1)
  · trivial

theorem NoReset.recheckTurn (h : NoReset hasReset s) : NoReset hasReset s.recheckTurn := by
  rw [OnoffSys.recheckTurn]
  cases s.mgr.processRecheck with
  | none => exact h
  | some t => exact .of_ne (by cases t <;> simp [OnoffTransition.target])

/-- **A completion** leaves nobody waiting in `ERROR`, and does not set `COMPLETE`. -/
theorem NoReset.processComplete (h : NoReset hasReset s) (res : ℤ) :
    (hasReset = false → (s.mgr.processComplete res).1.state = .error →
      (s.mgr.processComplete res).1.clients = []) ∧
    (s.mgr.processComplete res).1.complete = s.mgr.complete := by
  rw [OnoffManager.processComplete]
  split_ifs
  · exact ⟨fun _ _ => rfl, rfl⟩
  · simp [flagRecheck_fields]
  · simp [flagRecheck_fields]
  · simp [flagRecheck_fields]
  · exact ⟨h, rfl⟩

theorem NoReset.completeTurn (h : NoReset hasReset s) (monitors : Bool) :
    NoReset hasReset (s.completeTurn monitors).1 ∧
      (s.completeTurn monitors).1.mgr.complete = s.mgr.complete := by
  rw [OnoffSys.completeTurn]
  split_ifs <;> exact h.processComplete _

theorem NoReset.takeDeferred (h : NoReset hasReset s) : NoReset hasReset s.takeDeferred.1 := by
  rw [OnoffSys.takeDeferred]
  split_ifs <;> exact h

theorem NoReset.turns (h : NoReset hasReset s) (monitors : Bool) (n : ℕ)
    (evt : Option OnoffEvent) : NoReset hasReset (turns monitors n s evt) := by
  induction n generalizing s evt with
  | zero => exact h
  | succ n ih =>
    rcases evt with _ | _ | _
    · exact h
    · rw [OnoffSys.turns]
      split_ifs
      · exact (h.completeTurn monitors).1
      · exact ih (h.completeTurn monitors).1.takeDeferred _
    · exact h.recheckTurn

/-- **The turns of `process_event`**, where a completion finds a transition in progress. -/
theorem NoReset.turnsAssert (h : NoReset hasReset s) (monitors : Bool) (n : ℕ)
    {evt : Option OnoffEvent}
    (hevt : evt = some .complete → s.completeAsserts ∧ s.mgr.complete = false) :
    OnoffSys.turnsAssert hasReset monitors n s evt := by
  induction n generalizing s evt with
  | zero => trivial
  | succ n ih =>
    rcases evt with _ | _ | _
    · trivial
    · obtain ⟨hasserts, hcomplete⟩ := hevt rfl
      obtain ⟨hturn, hflag⟩ := h.completeTurn monitors
      refine ⟨hasserts, fun _ => ih hturn.takeDeferred fun hdeferred => ?_⟩
      -- the flag is clear, so the next event is not a completion
      simp only [OnoffSys.takeDeferred, hflag, hcomplete, Bool.false_eq_true, if_false] at hdeferred
      split_ifs at hdeferred
      cases hdeferred
    · exact h.recheckAsserts

theorem NoReset.processEvent (h : NoReset hasReset s) (monitors : Bool) (evt : OnoffEvent) :
    NoReset hasReset (s.processEvent monitors evt) := by
  unfold OnoffSys.processEvent
  split_ifs
  · cases evt <;> exact h
  · exact h.turns monitors 3 _

theorem NoReset.step (h : NoReset hasReset s) (op : OnoffOp) :
    NoReset hasReset (s.step hasReset op) := by
  cases op with
  | request monitors =>
    simp only [OnoffSys.step, onoffRequest]
    split_ifs
    · exact h
    rcases hs : s.mgr.state
    case off => exact .processEvent (.of_ne (by simp [enqueue, hs])) monitors _
    case resetting => exact h
    case error => exact h
    all_goals exact .of_ne (by simp [enqueue, counted, hs])
  | release client monitors =>
    rw [OnoffSys.step]
    split_ifs
    · rw [onoffRelease]
      rcases hs : s.mgr.state
      case on =>
        have hrel : NoReset hasReset (s.released client) := .of_ne (by simp [released, hs])
        dsimp only
        split_ifs
        · exact hrel.processEvent monitors _
        · exact hrel
      all_goals exact h
    · exact h
  | reset monitors =>
    intro hno
    simp only [OnoffSys.step, onoffReset, hno, if_true]
    exact h hno
  | cancel client =>
    simp only [OnoffSys.step, onoffCancel]
    split_ifs
    · intro hno he
      rw [h hno he, List.erase_nil]
    · exact h
  | notifyDirect | notifyNext | invoke =>
    simp only [OnoffSys.step]
    split <;> exact h
  | complete res monitors =>
    rw [OnoffSys.step]
    split_ifs
    · exact h
    · exact .processEvent (s := { s with
        inProgress := none, mgr := { s.mgr with lastRes := res } }) h monitors _
  | relock monitors =>
    simp only [OnoffSys.step]
    split
    · refine .turns (.takeDeferred ?_) monitors 3 _
      exact h
    · exact h

theorem NoReset.run (ops : List OnoffOp) (h : NoReset hasReset s) :
    NoReset hasReset (s.run hasReset ops) := by
  induction ops generalizing s with
  | nil => exact h
  | cons op ops ih => exact ih (h.step op)

theorem completeAsserts_of_transition {t : OnoffTransition}
    (h : s.mgr.state.transition? = some t) : s.completeAsserts := by
  rw [completeAsserts]
  cases hs : s.mgr.state <;> rw [hs] at h <;> first | cases h; done | simp

/-- **Which assertions hold** in a section. -/
theorem Inv.asserts_iff (h : Inv s) (hr : NoReset hasReset s) (op : OnoffOp) :
    s.Asserts hasReset op ↔ ¬ s.CancelsEarly op := by
  cases op with
  | request monitors =>
    exact iff_of_true (fun _ hs _ =>
      NoReset.turnsAssert (.of_ne (by simp [enqueue, hs])) monitors 3 (by simp)) not_false
  | release client monitors =>
    refine iff_of_true (fun hc hs => ⟨?_, fun _ _ =>
      NoReset.turnsAssert (.of_ne (by simp [released, hs])) monitors 3 (by simp)⟩) not_false
    rw [h.refs]
    exact List.length_pos_of_mem hc.1
  | reset monitors =>
    refine iff_of_true (fun hyes _ _ => NoReset.turnsAssert ?_ monitors 3 (by simp)) not_false
    rintro rfl
    cases hyes
  | cancel client =>
    rw [Asserts, CancelsEarly]
    by_cases hc : client ∈ s.mgr.clients
    · have hon : s.mgr.state ≠ .on := by
        intro hon
        rw [h.queueOn hon] at hc
        cases hc
      cases hs : s.mgr.state <;> simp_all
    · exact iff_of_true (absurd · hc) fun hearly => hc hearly.1
  | complete res monitors =>
    refine iff_of_true (fun hi _ => ?_) not_false
    obtain ⟨t, ht⟩ := Option.ne_none_iff_exists'.mp hi
    have hphase := h.phase
    rw [ht] at hphase
    obtain ⟨hst, -, hc, -⟩ := hphase.of_running
    refine NoReset.turnsAssert ?_ monitors 3 fun _ => ⟨completeAsserts_of_transition hst, hc⟩
    exact hr
  | relock monitors =>
    refine iff_of_true ?_ not_false
    simp only [Asserts]
    split
    · rename_i hl
      have hphase := h.phase
      rw [pending, hl, Option.bind_some] at hphase
      refine NoReset.turnsAssert (.takeDeferred ?_) monitors 3 ?_
      · exact hr
      rcases hphase.of_returned with ⟨-, -, hc⟩ | ⟨t, -, -, hc, -⟩ | ⟨t, hst, -, hc, -⟩
      · simp only [takeDeferred, hc, Bool.false_eq_true, if_false]
        split_ifs <;> simp
      · simp only [takeDeferred, hc, Bool.false_eq_true, if_false]
        split_ifs <;> simp
      · simp only [takeDeferred, hc, if_true]
        exact fun _ => ⟨completeAsserts_of_transition hst, trivial⟩
    · trivial
  | _ => exact iff_of_true trivial not_false

end OnoffSys

open OnoffSys

/-- **The assertions of `onoff.c`**, in every run in which no request is made while 65535 clients
wait: they all hold in the next section, unless it cancels a client that waits in `OFF` or
`ERROR`. -/
theorem onoff_asserts_iff (hasReset : Bool) (ops : List OnoffOp)
    (hfit : RequestsFit hasReset init ops) (op : OnoffOp) :
    (init.run hasReset ops).Asserts hasReset op ↔ ¬ (init.run hasReset ops).CancelsEarly op :=
  (inv_init.run ops hfit).asserts_iff (NoReset.run ops fun _ _ => rfl) op

theorem onoff_asserts_iff_complete :
    (init.run true [.request true, .invoke]).Asserts true (.complete 0 true) :=
  (onoff_asserts_iff true _ (by simp only [RequestsFit, RequestFits, and_true]; decide) _).mpr
    not_false

/-- **A cancellation whose assertion fails.** The service has stopped and a monitor is told. It
requests the service, which is `OFF` and not processed yet, and cancels the request. -/
theorem onoff_cancel_assert_fails : ∃ s : OnoffSys,
    s = init.run true [.request true, .invoke, .complete 0 true, .relock true, .notifyNext,
      .release 0 true, .relock true, .invoke, .relock true, .complete 0 true, .request true] ∧
    s.mgr.state = .off ∧ s.mgr.clients = [1] ∧ ¬ s.Asserts true (.cancel 1) := by
  refine ⟨_, rfl, by decide +kernel, by decide +kernel, fun h => ?_⟩
  exact absurd (h (by decide +kernel)) (by decide +kernel)

end TlZephyr
