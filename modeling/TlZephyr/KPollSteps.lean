import TlZephyr.KPoll

/-!
# What a Step of a Poll Changes

`k_poll` clears the registrations of its events by their number, and they are signalled by other
threads meanwhile. The events in the lists are always among the first events of their calls, as
many as the call will clear.
-/

namespace TlZephyr

open List Option Function PollData

/-! ### What the steps change -/

namespace Poller

@[simp]
theorem registered_signal (p : Poller) (state : PollState) :
    (p.signal state).pc.registered = p.pc.registered := by
  obtain ⟨num, timeout, polling, pc⟩ := p
  cases pc <;> rfl

@[simp]
theorem out_signal (p : Poller) (state : PollState) : (p.signal state).pc.out = p.pc.out := by
  obtain ⟨num, timeout, polling, pc⟩ := p
  cases pc <;> rfl

end Poller

namespace PollSys

variable (s : PollSys)

@[simp] theorem setObj_ev (o : ℕ) (x : PollObj) : (s.setObj o x).ev = s.ev := rfl
@[simp] theorem setEv_obj (e : ℕ × ℕ) (x : PollEvent) : (s.setEv e x).obj = s.obj := rfl
@[simp] theorem setEv_thr (e : ℕ × ℕ) (x : PollEvent) : (s.setEv e x).thr = s.thr := rfl
@[simp] theorem setThr_obj (t : ℕ) (x : Poller) : (s.setThr t x).obj = s.obj := rfl
@[simp] theorem goto_ev (t : ℕ) (pc : PollPc) : (s.goto t pc).ev = s.ev := rfl

theorem setObj_obj (o : ℕ) (x : PollObj) : (s.setObj o x).obj = Function.update s.obj o x := rfl

theorem setEv_ev (e : ℕ × ℕ) (x : PollEvent) : (s.setEv e x).ev = Function.update s.ev e x := rfl

theorem setThr_thr (t : ℕ) (x : Poller) : (s.setThr t x).thr = Function.update s.thr t x := rfl

theorem goto_thr (t : ℕ) (pc : PollPc) :
    (s.goto t pc).thr = Function.update s.thr t { s.thr t with pc := pc } := rfl

def states (t i : ℕ) : Finset PollState := (s.ev (t, i)).state

@[simp]
theorem registerEvent_thr (e : ℕ × ℕ) (t : ℕ) : (s.registerEvent e t).thr = s.thr := by
  unfold registerEvent
  split_ifs <;> rfl

theorem registerEvent_ev (e : ℕ × ℕ) (t : ℕ) :
    (s.registerEvent e t).ev = Function.update s.ev e { s.ev e with poller := some t } := by
  unfold registerEvent
  split_ifs <;> rfl

@[simp]
theorem clearEventRegistration_thr (e : ℕ × ℕ) : (s.clearEventRegistration e).thr = s.thr := by
  unfold clearEventRegistration
  split_ifs <;> rfl

theorem clearEventRegistration_ev (e : ℕ × ℕ) :
    (s.clearEventRegistration e).ev = Function.update s.ev e { s.ev e with poller := none } := by
  unfold clearEventRegistration
  split_ifs <;> rfl

theorem states_eq_of_ev {s s' : PollSys} {e : ℕ × ℕ} {x : PollEvent}
    (h : s'.ev = Function.update s.ev e x) (hx : x.state = (s.ev e).state) (t : ℕ) :
    s'.states t = s.states t := by
  funext i
  rw [states, states, h]
  by_cases he : (t, i) = e
  · rw [he, update_self, hx]
  · rw [update_of_ne he]

theorem states_of_setReady {s s' : PollSys} {t i : ℕ} {state : PollState}
    (h : s'.ev = Function.update s.ev (t, i) ((s.ev (t, i)).setReady state)) :
    s'.states t = Function.update (s.states t) i (insert state (s.states t i)) := by
  funext j
  rw [states, h]
  by_cases hj : j = i
  · rw [hj, update_self, update_self]
    rfl
  · rw [update_of_ne hj, update_of_ne fun h => hj (congrArg Prod.snd h), states]

theorem states_of_ev_ne {s s' : PollSys} {e : ℕ × ℕ} {x : PollEvent}
    (h : s'.ev = Function.update s.ev e x) {t : ℕ} (ht : t ≠ e.1) : s'.states t = s.states t := by
  funext j
  rw [states, states, h, update_of_ne fun h => ht (congrArg Prod.fst h)]

/-! ### Registered events -/

/-- An event in the list of an object is one that its thread's call will clear. -/
structure Registered (s : PollSys) (o : ℕ) (e : ℕ × ℕ) : Prop where
  poller : (s.ev e).poller = some e.1
  obj : (s.ev e).obj = o
  type : (s.ev e).type = (s.obj o).data.kind
  noPipe : (s.ev e).type ≠ .pipe
  lt : e.2 < (s.thr e.1).pc.registered

def Ready (t : ℕ) : Prop := ∃ i < (s.thr t).numEvents, s.states t i ≠ ∅

end PollSys

/-- Which events are registered where a thread is in `k_poll`, and when one is ready. -/
def Poller.Wf (p : Poller) (ready : Prop) : Prop :=
  match p.pc with
  | .idle => True
  | .registering ii n =>
    ii ≤ p.numEvents ∧ n ≤ ii ∧ (p.timeout ≠ .ticks 0 → p.isPolling = true → n = ii) ∧
      (p.timeout = .ticks 0 → n = 0) ∧ (p.isPolling = false → ready)
  | .pended n => n ≤ p.numEvents
  | .woken n rc => n ≤ p.numEvents ∧ (rc = 0 → ready)
  | .clearing n rc => n ≤ p.numEvents ∧ (rc = 0 → ready)
  | .returned rc => rc = 0 → ready

/-- Invariant of the objects and of the events in their lists. -/
structure PollSys.Lists (s : PollSys) : Prop where
  linked : ∀ o, ∀ e ∈ (s.obj o).pollEvents, s.Registered o e
  nodup : ∀ o, (s.obj o).pollEvents.Nodup
  typed : ∀ t i, (s.thr t).pc.out = false →
    (s.ev (t, i)).type = .ignore ∨ (s.obj (s.ev (t, i)).obj).data.kind = (s.ev (t, i)).type
  promise : ∀ o, ∀ x ∈ (s.obj o).todo, x.Promise (s.obj o).data

structure PollSys.Inv (s : PollSys) : Prop extends s.Lists where
  wf : ∀ t, (s.thr t).Wf (s.Ready t)

/-- Sections of a call that set no event ready. -/
inductive PollGoes (p : Poller) : Poller → Prop
  | registers (ii n : ℕ) (hpc : p.pc = .registering ii n) (hlt : ii < p.numEvents)
      (hwait : p.timeout ≠ .ticks 0) (hpolling : p.isPolling = true) :
      PollGoes p { p with pc := .registering (ii + 1) (n + 1) }
  | skips (ii n : ℕ) (hpc : p.pc = .registering ii n) (hlt : ii < p.numEvents)
      (hskip : p.timeout = .ticks 0 ∨ p.isPolling = false) :
      PollGoes p { p with pc := .registering (ii + 1) n }
  | stops (ii n : ℕ) (hpc : p.pc = .registering ii n) (hlt : ¬ii < p.numEvents)
      (hpolling : p.isPolling = false) : PollGoes p { p with pc := .cleared 0 n }
  | givesUp (ii n : ℕ) (hpc : p.pc = .registering ii n) (hlt : ¬ii < p.numEvents)
      (hpolling : p.isPolling = true) (hwait : p.timeout = .ticks 0) :
      PollGoes p { p with isPolling := false, pc := .returned (- EAGAIN) }
  | pends (ii n : ℕ) (hpc : p.pc = .registering ii n) (hlt : ¬ii < p.numEvents)
      (hwait : p.timeout ≠ .ticks 0) : PollGoes p { p with isPolling := false, pc := .pended n }
  | clears (n : ℕ) (rc : ℤ) (hpc : p.pc = .woken n rc ∨ p.pc = .clearing n rc) :
      PollGoes p { p with pc := .cleared rc n }

inductive PollCause (s : PollSys) (op : PollStep) (o : ℕ) (e : ℕ × ℕ) : PollState → Prop
  | raise (result : ℤ) (hop : op = .signalRaise o result) : PollCause s op o e .signaled
  | handle (caller : PollCaller) (todo : List PollTodo) (events : List (ℕ × ℕ))
      (hop : op = .todo o) (htodo : (s.obj o).todo = .handle caller :: todo)
      (hevents : (s.obj o).pollEvents = e :: events) : PollCause s op o e caller.state

inductive PollMoves (t : ℕ) (s s' : PollSys) (op : PollStep) : Prop
  | stays (hop : op ≠ .advance t) (hthr : s'.thr t = s.thr t) (hst : s'.states t = s.states t)
  | starts (events : List PollEvent) (timeout : KTimeout) (hop : op = .poll t events timeout)
      (hout : (s.thr t).pc.out = true)
      (hthr : s'.thr t = ⟨events.length, timeout, true, .registering 0 0⟩)
  | ready (ii n : ℕ) (state : PollState) (hop : op = .advance t)
      (hpc : (s.thr t).pc = .registering ii n) (hlt : ii < (s.thr t).numEvents)
      (hmet : isConditionMet (s.ev (t, ii)).type (s.obj (s.ev (t, ii)).obj).data = some state)
      (hthr : s'.thr t = { s.thr t with isPolling := false, pc := .registering (ii + 1) n })
      (hst : s'.states t = Function.update (s.states t) ii (insert state (s.states t ii)))
  | goes (hop : op = .advance t) (hgoes : PollGoes (s.thr t) (s'.thr t))
      (hst : s'.states t = s.states t)
  | expires (n : ℕ) (hop : op = .expire t) (hpc : (s.thr t).pc = .pended n)
      (hthr : s'.thr t = { s.thr t with pc := .woken n (- EAGAIN) })
      (hst : s'.states t = s.states t)
  | signalled (o i : ℕ) (state : PollState) (hmem : (t, i) ∈ (s.obj o).pollEvents)
      (hcause : PollCause s op o (t, i) state) (hop : op ≠ .advance t)
      (hthr : s'.thr t = (s.thr t).signal state)
      (hst : s'.states t = Function.update (s.states t) i (insert state (s.states t i)))

namespace PollSys

variable {s s' : PollSys} {op : PollStep}

theorem clearSection_states (s : PollSys) (t : ℕ) (rc : ℤ) (n u : ℕ) :
    (s.clearSection t rc n).states u = s.states u := by
  cases n with
  | zero => rfl
  | succ n => exact states_eq_of_ev (s.clearEventRegistration_ev (t, n)) rfl u

theorem clearSection_thr (s : PollSys) (t : ℕ) (rc : ℤ) (n : ℕ) :
    (s.clearSection t rc n).thr = Function.update s.thr t { s.thr t with pc := .cleared rc n } := by
  cases n with
  | zero => rfl
  | succ n => simp only [clearSection, goto_thr, clearEventRegistration_thr, PollPc.cleared]

theorem advance_frame {t u : ℕ} (h : s.advance t = some s') (hu : u ≠ t) :
    s'.thr u = s.thr u ∧ s'.states u = s.states u := by
  have hclear : ∀ rc n, (s.clearSection t rc n).thr u = s.thr u ∧
      (s.clearSection t rc n).states u = s.states u := fun rc n =>
    ⟨by rw [clearSection_thr, update_of_ne hu], s.clearSection_states t rc n u⟩
  unfold advance at h
  split at h
  · split at h
    · cases h
      unfold registerRound
      split
      · exact ⟨update_of_ne hu _ _, states_of_ev_ne (e := (t, _)) rfl hu⟩
      · split
        · refine ⟨?_, states_eq_of_ev (s.registerEvent_ev _ t) rfl u⟩
          rw [goto_thr, update_of_ne hu, registerEvent_thr]
        · exact ⟨update_of_ne hu _ _, rfl⟩
    cases h
    unfold checkPolling
    split
    · exact hclear _ _
    · exact ⟨update_of_ne hu _ _, rfl⟩
  · cases h
    exact hclear _ _
  · cases h
    exact hclear _ _
  · cases h

theorem moves_advance {t : ℕ} (h : s.advance t = some s') : PollMoves t s s' (.advance t) := by
  have hclear : ∀ rc n, (s.clearSection t rc n).thr t = { s.thr t with pc := .cleared rc n } :=
    fun rc n => by rw [clearSection_thr, update_self]
  unfold advance at h
  split at h
  next ii n hpc =>
    split at h
    next hlt =>
      cases h
      unfold registerRound
      split
      next state hmet =>
        exact .ready ii n state rfl hpc hlt hmet (update_self ..) (states_of_setReady rfl)
      next =>
        split
        next hwait =>
          refine .goes rfl ?_ (states_eq_of_ev (s.registerEvent_ev _ t) rfl t)
          rw [goto_thr, update_self, registerEvent_thr]
          exact .registers ii n hpc hlt hwait.1 hwait.2
        next hskip =>
          refine .goes rfl ?_ rfl
          rw [goto_thr, update_self]
          refine .skips ii n hpc hlt ((not_and_or.1 hskip).imp not_not.1 ?_)
          exact Bool.eq_false_of_not_eq_true
    next hlt =>
      cases h
      unfold checkPolling
      split
      next hpolling =>
        refine .goes rfl ?_ (s.clearSection_states t 0 n t)
        rw [hclear]
        exact .stops ii n hpc hlt (Bool.eq_false_of_not_eq_true hpolling)
      next hpolling =>
        refine .goes rfl ?_ rfl
        rw [setThr_thr, update_self]
        split
        next hwait => exact .givesUp ii n hpc hlt (not_not.1 hpolling) hwait
        next hwait => exact .pends ii n hpc hlt hwait
  next n rc hpc =>
    cases h
    refine .goes rfl ?_ (s.clearSection_states t rc n t)
    rw [hclear]
    exact .clears n rc (.inl hpc)
  next n rc hpc =>
    cases h
    refine .goes rfl ?_ (s.clearSection_states t rc n t)
    rw [hclear]
    exact .clears n rc (.inr hpc)
  next => cases h

/-- The first event of the list is taken off it and set ready, and its thread is signalled. -/
theorem handleObjPollEvents_cons {o : ℕ} {e : ℕ × ℕ} {events : List (ℕ × ℕ)} (state : PollState)
    (hevents : (s.obj o).pollEvents = e :: events) (hpoller : (s.ev e).poller = some e.1) :
    (s.handleObjPollEvents o state).obj =
        Function.update s.obj o { s.obj o with pollEvents := events } ∧
      (s.handleObjPollEvents o state).ev = Function.update s.ev e ((s.ev e).setReady state) ∧
      (s.handleObjPollEvents o state).thr =
        Function.update s.thr e.1 ((s.thr e.1).signal state) := by
  unfold handleObjPollEvents
  rw [hevents]
  simp only [signalPollEvent, setObj_ev, hpoller, elim_some]
  exact ⟨rfl, rfl, rfl⟩

theorem handleObjPollEvents_nil {o : ℕ} {state : PollState}
    (hevents : (s.obj o).pollEvents = []) : s.handleObjPollEvents o state = s := by
  unfold handleObjPollEvents
  rw [hevents]

theorem moves_handle (hl : s.Lists) {o : ℕ} {x : PollObj} {state : PollState}
    (hx : x.pollEvents = (s.obj o).pollEvents) (t : ℕ) (hop : op ≠ .advance t)
    (hcause : ∀ e events, (s.obj o).pollEvents = e :: events → PollCause s op o e state) :
    PollMoves t s ((s.setObj o x).handleObjPollEvents o state) op := by
  have hself : ((s.setObj o x).obj o).pollEvents = (s.obj o).pollEvents := by
    rw [setObj_obj, update_self, hx]
  rcases hevents : (s.obj o).pollEvents with _ | ⟨e, events⟩
  · rw [handleObjPollEvents_nil (hself.trans hevents)]
    exact .stays hop rfl rfl
  have hmem : e ∈ (s.obj o).pollEvents := hevents ▸ mem_cons_self
  obtain ⟨-, hev, hthr⟩ := handleObjPollEvents_cons state (hself.trans hevents)
    (hl.linked o e hmem).poller
  by_cases ht : t = e.1
  · obtain ⟨u, i⟩ := e
    cases ht
    refine .signalled o i state hmem (hcause _ _ hevents) hop ?_ (states_of_setReady hev)
    rw [hthr, update_self]
    rfl
  · refine .stays hop ?_ (states_of_ev_ne hev ht)
    rw [hthr, update_of_ne ht]
    rfl

/-- **Every step moves a call in one of these ways.** -/
theorem moves (hl : s.Lists) (h : s.step op = some s') (t : ℕ) : PollMoves t s s' op := by
  cases op with
  | poll u events timeout =>
    simp only [step, poll, ite_none_right_eq_some] at h
    obtain ⟨⟨hout, -⟩, hs⟩ := h
    cases hs
    by_cases ht : t = u
    · subst ht
      exact .starts events timeout rfl hout (update_self ..)
    · refine .stays nofun (update_of_ne ht _ _) ?_
      funext i
      exact congrArg PollEvent.state (if_neg ht)
  | advance u =>
    by_cases ht : t = u
    · subst ht
      exact moves_advance h
    · obtain ⟨hthr, hst⟩ := advance_frame h ht
      refine .stays (fun hop => ht ?_) hthr hst
      cases hop
      rfl
  | expire u =>
    simp only [step, expire] at h
    split at h
    next n hpc =>
      split at h
      · cases h
      cases h
      by_cases ht : t = u
      · subst ht
        exact .expires n rfl hpc (update_self ..) rfl
      · exact .stays nofun (update_of_ne ht _ _) rfl
    next => cases h
  | apply o op =>
    simp only [step, applyOp, ite_none_right_eq_some] at h
    obtain ⟨-, h⟩ := h
    obtain ⟨x, -, rfl⟩ := map_eq_some_iff.1 h
    exact .stays nofun rfl rfl
  | todo o =>
    simp only [step, doTodo] at h
    split at h
    next => cases h
    next caller todo htodo =>
      cases h
      refine moves_handle hl ?_ t ?_ fun e events hevents =>
        .handle caller todo events rfl htodo hevents
      · rfl
      · nofun
    next =>
      cases h
      exact .stays nofun rfl rfl
  | queueRemove o =>
    cases h
    exact .stays nofun rfl rfl
  | signalRaise o result =>
    simp only [step, signalRaise, ite_none_right_eq_some] at h
    obtain ⟨-, hs⟩ := h
    cases hs
    refine moves_handle hl ?_ t ?_ fun e events _ => .raise result rfl
    · rfl
    · nofun
  | signalReset o =>
    cases h
    exact .stays nofun rfl rfl
  | prioritySet u prio =>
    cases h
    exact .stays nofun rfl rfl

/-! ### Invariant of the lists -/

namespace Registered

theorem frame {o : ℕ} {e : ℕ × ℕ} (h : s.Registered o e) (hev : s'.ev e = s.ev e)
    (hkind : (s'.obj o).data.kind = (s.obj o).data.kind)
    (hlt : e.2 < (s'.thr e.1).pc.registered) : s'.Registered o e where
  poller := by rw [hev, h.poller]
  obj := by rw [hev, h.obj]
  type := by rw [hev, h.type, hkind]
  noPipe := by rw [hev]; exact h.noPipe
  lt := hlt

end Registered

namespace Lists

theorem eq_obj (hl : s.Lists) {o : ℕ} {e : ℕ × ℕ} (he : e ∈ (s.obj o).pollEvents) :
    o = (s.ev e).obj :=
  (hl.linked o e he).obj.symm

theorem setObj (hl : s.Lists) {o : ℕ} {x : PollObj} (hx : ∀ e ∈ x.pollEvents, s.Registered o e)
    (hnodup : x.pollEvents.Nodup) (hkind : x.data.kind = (s.obj o).data.kind)
    (hpromise : ∀ y ∈ x.todo, y.Promise x.data) : (s.setObj o x).Lists := by
  have hkinds : ∀ o', ((s.setObj o x).obj o').data.kind = (s.obj o').data.kind := by
    intro o'
    rw [setObj_obj]
    by_cases ho : o' = o
    · rw [ho, update_self, hkind]
    · rw [update_of_ne ho]
  have hobj : ∀ {P : ℕ → PollObj → Prop}, P o x → (∀ o', P o' (s.obj o')) →
      ∀ o', P o' ((s.setObj o x).obj o') := by
    intro P hPx hP o'
    rw [setObj_obj]
    by_cases ho : o' = o
    · rw [ho, update_self]
      exact hPx
    · rw [update_of_ne ho]
      exact hP o'
  refine ⟨?_, hobj (P := fun _ y => y.pollEvents.Nodup) hnodup hl.nodup, fun t i hout => ?_,
    hobj (P := fun _ y => ∀ z ∈ y.todo, z.Promise y.data) hpromise hl.promise⟩
  · have h := hobj (P := fun o' y => ∀ e ∈ y.pollEvents, s.Registered o' e) hx hl.linked
    exact fun o' e he => (h o' e he).frame rfl (hkinds o') (h o' e he).lt
  · rw [hkinds]
    exact hl.typed t i hout

theorem setData (hl : s.Lists) {o : ℕ} {x : PollObj} (hx : x.pollEvents = (s.obj o).pollEvents)
    (hkind : x.data.kind = (s.obj o).data.kind) (hpromise : ∀ y ∈ x.todo, y.Promise x.data) :
    (s.setObj o x).Lists :=
  hl.setObj (by rw [hx]; exact hl.linked o) (by rw [hx]; exact hl.nodup o) hkind hpromise

theorem setThr (hl : s.Lists) {t : ℕ} {p : Poller}
    (hlt : ∀ o i, (t, i) ∈ (s.obj o).pollEvents → i < p.pc.registered)
    (hout : p.pc.out = false → (s.thr t).pc.out = false) : (s.setThr t p).Lists := by
  refine ⟨fun o e he => ?_, hl.nodup, fun u i hu => hl.typed u i ?_, hl.promise⟩
  · have h := hl.linked o e he
    refine h.frame rfl rfl ?_
    rw [setThr_thr]
    by_cases ht : e.1 = t
    · rw [ht, update_self]
      exact hlt o e.2 (by rw [← ht]; exact he)
    · rw [update_of_ne ht]
      exact h.lt
  rw [setThr_thr] at hu
  by_cases ht : u = t
  · rw [ht, update_self] at hu
    rw [ht]
    exact hout hu
  · rwa [update_of_ne ht] at hu

theorem setEv (hl : s.Lists) {e : ℕ × ℕ} {x : PollEvent}
    (hfree : ∀ o, e ∉ (s.obj o).pollEvents) (htype : x.type = (s.ev e).type)
    (hobj : x.obj = (s.ev e).obj) : (s.setEv e x).Lists := by
  refine ⟨fun o e' he => ?_, hl.nodup, fun t i hout => ?_, hl.promise⟩
  · have h := hl.linked o e' he
    refine h.frame (update_of_ne ?_ _ _) rfl h.lt
    rintro rfl
    exact hfree o he
  rw [setEv_ev]
  by_cases he : (t, i) = e
  · rw [he, update_self, htype, hobj, ← he]
    exact hl.typed t i hout
  · rw [update_of_ne he]
    exact hl.typed t i hout

theorem remove (hl : s.Lists) {o : ℕ} {e : ℕ × ℕ} {events : List (ℕ × ℕ)}
    (hperm : (s.obj o).pollEvents.Perm (e :: events)) :
    (s.setObj o { s.obj o with pollEvents := events }).Lists ∧
      ∀ o', e ∉ ((s.setObj o { s.obj o with pollEvents := events }).obj o').pollEvents := by
  have hmem : ∀ e' ∈ e :: events, e' ∈ (s.obj o).pollEvents := fun _ => hperm.mem_iff.2
  obtain ⟨hnot, hnodup⟩ := nodup_cons.1 (hperm.nodup_iff.1 (hl.nodup o))
  refine ⟨hl.setObj (fun e' he => hl.linked o e' (hmem e' (mem_cons_of_mem _ he))) hnodup rfl
    (hl.promise o), fun o' he => ?_⟩
  rw [setObj_obj] at he
  by_cases ho : o' = o
  · rw [ho, update_self] at he
    exact hnot he
  · rw [update_of_ne ho] at he
    exact ho ((hl.eq_obj he).trans (hl.eq_obj (hmem e mem_cons_self)).symm)

theorem handle (hl : s.Lists) (o : ℕ) (state : PollState) : (s.handleObjPollEvents o state).Lists := by
  rcases hevents : (s.obj o).pollEvents with _ | ⟨e, events⟩
  · rwa [handleObjPollEvents_nil hevents]
  have hperm : (s.obj o).pollEvents.Perm (e :: events) := by rw [hevents]
  obtain ⟨hrest, hfree⟩ := hl.remove hperm
  have hpoller := (hl.linked o e (hevents ▸ mem_cons_self)).poller
  simp only [handleObjPollEvents, hevents, signalPollEvent, setObj_ev, hpoller, elim_some]
  refine (hrest.setThr (fun o' i hi => ?_) ?_).setEv hfree rfl rfl
  · rw [Poller.registered_signal]
    exact (hrest.linked o' _ hi).lt
  · rw [Poller.out_signal]
    exact id

theorem perm_addEvent (s : PollSys) (events : List (ℕ × ℕ)) (e : ℕ × ℕ) (t : ℕ) :
    (s.addEvent events e t).Perm (e :: events) := by
  unfold addEvent
  split_ifs
  · exact perm_append_singleton e events
  · refine perm_middle.trans (List.Perm.cons e ?_)
    rw [takeWhile_append_dropWhile]

theorem register (hl : s.Lists) {e : ℕ × ℕ} (hfree : ∀ o, e ∉ (s.obj o).pollEvents)
    (htyped : (s.ev e).type = .ignore ∨ (s.obj (s.ev e).obj).data.kind = (s.ev e).type)
    (hpipe : (s.ev e).type ≠ .pipe) (hlt : e.2 < (s.thr e.1).pc.registered) :
    (s.registerEvent e e.1).Lists := by
  have hset : (s.setEv e { s.ev e with poller := some e.1 }).Lists := hl.setEv hfree rfl rfl
  unfold registerEvent
  by_cases hignore : (s.ev e).type = .ignore
  · rwa [if_pos hignore]
  rw [if_neg hignore]
  have hperm := perm_addEvent s (s.obj (s.ev e).obj).pollEvents e e.1
  refine hset.setObj (fun e' he' => ?_) ?_ rfl (hl.promise _)
  · rcases mem_cons.1 (hperm.mem_iff.1 he') with rfl | he'
    · constructor <;> simp only [setEv_ev, setEv_obj, setEv_thr, update_self]
      · exact (htyped.resolve_left hignore).symm
      · exact hpipe
      · exact hlt
    · exact hset.linked _ e' he'
  · exact hperm.nodup_iff.2 (nodup_cons.2 ⟨hfree _, hl.nodup _⟩)

theorem clear (hl : s.Lists) (e : ℕ × ℕ) : (s.clearEventRegistration e).Lists ∧
      ∀ o, e ∉ ((s.clearEventRegistration e).obj o).pollEvents := by
  unfold clearEventRegistration
  by_cases hmem : e ∈ (s.obj (s.ev e).obj).pollEvents
  · have h := hl.linked _ e hmem
    have hignore : (s.ev e).type ≠ .ignore := by
      rw [h.type]
      exact kind_ne_ignore _
    obtain ⟨hrest, hfree⟩ := hl.remove (perm_cons_erase hmem)
    rw [if_neg hignore]
    exact ⟨hrest.setEv hfree rfl rfl, hfree⟩
  have hfree : ∀ o, e ∉ (s.obj o).pollEvents := by
    intro o he
    rw [hl.eq_obj he] at he
    exact hmem he
  have hset : (s.setEv e { s.ev e with poller := none }).Lists := hl.setEv hfree rfl rfl
  split_ifs
  · exact ⟨hset, hfree⟩
  rw [erase_of_not_mem hmem]
  have hsame : s.setObj (s.ev e).obj (s.obj (s.ev e).obj) = s := by
    rw [PollSys.setObj, update_eq_self]
  refine ⟨?_, ?_⟩
  · change ((s.setObj (s.ev e).obj (s.obj (s.ev e).obj)).setEv e _).Lists
    rwa [hsame]
  · change ∀ o, e ∉ ((s.setObj (s.ev e).obj (s.obj (s.ev e).obj)).obj o).pollEvents
    rwa [hsame]

theorem free (hl : s.Lists) {t i : ℕ} (hi : (s.thr t).pc.registered ≤ i) (o : ℕ) :
    (t, i) ∉ (s.obj o).pollEvents := by
  intro he
  exact absurd (hl.linked o _ he).lt (Nat.not_lt.2 hi)

theorem goto (hl : s.Lists) {t : ℕ} {p : Poller} (hreg : (s.thr t).pc.registered ≤ p.pc.registered)
    (hout : p.pc.out = false → (s.thr t).pc.out = false) : (s.setThr t p).Lists :=
  hl.setThr (fun o _ he => lt_of_lt_of_le (hl.linked o _ he).lt hreg) hout

theorem clearSection (hl : s.Lists) {t n : ℕ} (rc : ℤ) (hreg : (s.thr t).pc.registered = n)
    (hout : (s.thr t).pc.out = false) : (s.clearSection t rc n).Lists := by
  rcases n with _ | n
  · exact hl.goto (by rw [hreg]; exact Nat.zero_le _) nofun
  obtain ⟨hclear, hfree⟩ := hl.clear (t, n)
  refine hclear.setThr (fun o i he => ?_) fun _ => by rwa [clearEventRegistration_thr]
  have hlt : i < n + 1 := by
    rw [← hreg, ← s.clearEventRegistration_thr (t, n)]
    exact (hclear.linked o _ he).lt
  have hne : i ≠ n := by
    rintro rfl
    exact hfree o he
  exact Nat.lt_of_le_of_ne (Nat.le_of_lt_succ hlt) hne

end Lists

theorem Inv.lists_registerRound (hi : s.Inv) {t ii n : ℕ} (hpc : (s.thr t).pc = .registering ii n) :
    (s.registerRound t ii n).Lists := by
  have hl := hi.toLists
  have hwf := hi.wf t
  simp only [Poller.Wf, hpc] at hwf
  obtain ⟨-, hle, hall, -⟩ := hwf
  have hreg : (s.thr t).pc.registered = n := by rw [hpc]; rfl
  have hout : (s.thr t).pc.out = false := by rw [hpc]; rfl
  have hfree : ∀ o, (t, ii) ∉ (s.obj o).pollEvents := hl.free (by rw [hreg]; exact hle)
  unfold registerRound
  split
  · refine (hl.setEv hfree ?_ ?_).goto ?_ fun _ => hout
    · rfl
    · rfl
    · rw [setEv_thr, hreg]
      exact Nat.le_refl _
  next hmet =>
    split
    next hwait =>
      -- the thread goes on first, so that the event is one of those that it will clear
      have hgoto : (s.goto t (.registering (ii + 1) (n + 1))).Lists :=
        hl.goto (by rw [hreg]; exact Nat.le_succ _) fun _ => hout
      have hcomm : (s.registerEvent (t, ii) t).goto t (.registering (ii + 1) (n + 1)) =
          (s.goto t (.registering (ii + 1) (n + 1))).registerEvent (t, ii) t := by
        unfold registerEvent
        by_cases hignore : (s.ev (t, ii)).type = .ignore
        · rw [if_pos hignore, goto_ev, if_pos hignore]
          rfl
        · rw [if_neg hignore, goto_ev, if_neg hignore]
          rfl
      rw [hcomm]
      refine hgoto.register (e := (t, ii)) hfree (hl.typed t ii hout) ?_ ?_
      · rintro hpipe
        rw [goto_ev] at hpipe
        rw [hpipe, isConditionMet_pipe] at hmet
        cases hmet
      · rw [goto_thr, update_self, ← hall hwait.1 hwait.2]
        exact Nat.lt_succ_self _
    next =>
      exact hl.goto (by rw [hreg]; exact Nat.le_refl _) fun _ => hout

theorem Inv.lists_advance (hi : s.Inv) {t : ℕ} (h : s.advance t = some s') : s'.Lists := by
  have hl := hi.toLists
  have hwf := hi.wf t
  unfold advance at h
  split at h
  next ii n hpc =>
    have hreg : (s.thr t).pc.registered = n := by rw [hpc]; rfl
    have hout : (s.thr t).pc.out = false := by rw [hpc]; rfl
    split at h
    next => exact Option.some.inj h ▸ hi.lists_registerRound hpc
    next =>
      cases h
      unfold checkPolling
      split
      next => exact hl.clearSection 0 hreg hout
      next =>
        refine hl.goto ?_ fun _ => hout
        rw [hreg]
        split
        next hwait =>
          simp only [Poller.Wf, hpc] at hwf
          exact Nat.le_of_eq (hwf.2.2.2.1 hwait)
        next => exact Nat.le_refl _
  next n rc hpc =>
    cases h
    exact hl.clearSection rc (by rw [hpc]; rfl) (by rw [hpc]; rfl)
  next n rc hpc =>
    cases h
    exact hl.clearSection rc (by rw [hpc]; rfl) (by rw [hpc]; rfl)
  next => cases h

/-- **Every step keeps the lists.** -/
theorem Inv.lists_step (hi : s.Inv) (h : s.step op = some s') : s'.Lists := by
  have hl := hi.toLists
  cases op with
  | poll t events timeout =>
    simp only [step, poll, ite_none_right_eq_some] at h
    obtain ⟨⟨hout, htyped⟩, hs⟩ := h
    cases hs
    have hreg : (s.thr t).pc.registered = 0 := by
      cases hpc : (s.thr t).pc <;> rw [hpc] at hout <;> first | rfl | cases hout
    refine ⟨fun o e he => ?_, hl.nodup, fun u i hu => ?_, hl.promise⟩
    · have hne : e.1 ≠ t := by
        rintro rfl
        exact hl.free (i := e.2) (by rw [hreg]; exact Nat.zero_le _) o he
      refine (hl.linked o e he).frame (if_neg hne) rfl ?_
      simp only [update_of_ne hne]
      exact (hl.linked o e he).lt
    by_cases ht : u = t
    · subst ht
      simp only [if_pos]
      rw [getD_eq_getElem?_getD]
      cases hx : events[i]? with
      | none => exact .inl rfl
      | some x => exact htyped x (mem_of_getElem? hx)
    · simp only [if_neg ht]
      simp only [update_of_ne ht] at hu
      exact hl.typed u i hu
  | advance t => exact hi.lists_advance h
  | expire t =>
    simp only [step, expire] at h
    split at h
    next n hpc =>
      split at h
      · cases h
      · cases h
        exact hl.goto (by rw [hpc]; exact Nat.le_refl _) fun _ => by rw [hpc]; rfl
    next => cases h
  | apply o op =>
    simp only [step, applyOp, ite_none_right_eq_some] at h
    obtain ⟨-, h⟩ := h
    obtain ⟨x, hx, rfl⟩ := map_eq_some_iff.1 h
    obtain ⟨hkind, hpromise⟩ := promise_apply hx
    exact hl.setData rfl hkind hpromise
  | todo o =>
    simp only [step, doTodo] at h
    split at h
    next => cases h
    next caller todo htodo =>
      cases h
      refine (hl.setData ?_ ?_ fun y hy => ?_).handle o caller.state
      · rfl
      · rfl
      · exact hl.promise o y (htodo ▸ mem_cons_of_mem _ hy)
    next len todo htodo =>
      cases h
      refine hl.setData rfl (kind_ringBufPut ..) fun y hy => ?_
      exact (hl.promise o y (htodo ▸ mem_cons_of_mem _ hy)).ringBufPut len
  | queueRemove o =>
    cases h
    exact hl.setData rfl (kind_queueRemove _) fun y hy => (hl.promise o y hy).queueRemove
  | signalRaise o result =>
    simp only [step, signalRaise, ite_none_right_eq_some] at h
    obtain ⟨hkind, hs⟩ := h
    cases hs
    refine (hl.setData ?_ ?_ fun y hy => ?_).handle o .signaled
    · rfl
    · exact hkind.symm
    · exact (hl.promise o y hy).of_kind hkind.symm (by rw [hkind]; nofun) (by rw [hkind]; nofun)
  | signalReset o =>
    cases h
    exact hl.setData rfl (kind_signalReset _) fun y hy => (hl.promise o y hy).signalReset
  | prioritySet u prio =>
    cases h
    exact ⟨fun o e he => (hl.linked o e he).frame rfl rfl (hl.linked o e he).lt, hl.nodup, hl.typed,
      hl.promise⟩

end PollSys

end TlZephyr
