import TlZephyr.KPollSteps

/-!
# Calls of `k_poll`

What a call reports, in every run. Some operations signal an event although there is nothing to
get: `k_sem_reset`, `k_queue_cancel_wait`, and a `k_queue_append_list` whose items all go to waiting
threads; and an event of a pipe is found ready whether or not the pipe has data.
-/

namespace TlZephyr

open List Option Function

namespace PollSys

variable {s s' : PollSys} {op : PollStep}

/-! ### Invariant -/

theorem Ready.mono {t : ℕ} (h : s.Ready t) (hnum : (s'.thr t).numEvents = (s.thr t).numEvents)
    (hst : ∀ i, s.states t i ⊆ s'.states t i) : s'.Ready t := by
  obtain ⟨i, hi, hne⟩ := h
  refine ⟨i, hnum ▸ hi, fun hempty => hne ?_⟩
  exact Finset.subset_empty.1 (hempty ▸ hst i)

end PollSys

namespace Poller.Wf

variable {p p' : Poller} {ready ready' : Prop}

theorem mono (h : p.Wf ready) (hr : ready → ready') : p.Wf ready' := by
  obtain ⟨num, timeout, polling, pc⟩ := p
  cases pc with
  | idle => trivial
  | registering ii n => exact ⟨h.1, h.2.1, h.2.2.1, h.2.2.2.1, fun hp => hr (h.2.2.2.2 hp)⟩
  | pended n => exact h
  | woken n rc => exact ⟨h.1, fun hrc => hr (h.2 hrc)⟩
  | clearing n rc => exact ⟨h.1, fun hrc => hr (h.2 hrc)⟩
  | returned rc => exact fun hrc => hr (h hrc)

theorem signal (h : p.Wf ready) (hr : ready') (state : PollState) : (p.signal state).Wf ready' := by
  obtain ⟨num, timeout, polling, pc⟩ := p
  cases pc with
  | idle => trivial
  | registering ii n => exact ⟨h.1, h.2.1, fun _ h => by (cases h), h.2.2.2.1, fun _ => hr⟩
  | pended n => exact ⟨h, fun _ => hr⟩
  | woken n rc => exact ⟨h.1, fun _ => hr⟩
  | clearing n rc => exact ⟨h.1, fun _ => hr⟩
  | returned rc => exact fun _ => hr

theorem registered_le (h : p.Wf ready) : p.pc.registered ≤ p.numEvents := by
  obtain ⟨num, timeout, polling, pc⟩ := p
  cases pc with
  | idle => exact Nat.zero_le _
  | registering ii n => exact h.2.1.trans h.1
  | pended n => exact h
  | woken n rc => exact h.1
  | clearing n rc => exact h.1
  | returned rc => exact Nat.zero_le _

theorem cleared {n : ℕ} {rc : ℤ} (hn : n ≤ p.numEvents) (hr : rc = 0 → ready) :
    ({ p with pc := .cleared rc n } : Poller).Wf ready := by
  cases n with
  | zero => exact hr
  | succ n => exact ⟨Nat.le_of_succ_le hn, hr⟩

theorem goes (h : p.Wf ready) (hg : PollGoes p p') : p'.Wf ready := by
  cases hg with
  | registers ii n hpc hlt hwait hpolling =>
    simp only [Wf, hpc] at h
    obtain ⟨-, hle, hall, hnone, hready⟩ := h
    refine ⟨hlt, Nat.succ_le_succ hle, fun _ _ => ?_, fun h => absurd h hwait, hready⟩
    exact congrArg (· + 1) (hall hwait hpolling)
  | skips ii n hpc hlt hskip =>
    simp only [Wf, hpc] at h
    obtain ⟨-, hle, -, hnone, hready⟩ := h
    refine ⟨hlt, hle.trans (Nat.le_succ ii), fun hwait hpolling => ?_, hnone, hready⟩
    rcases hskip with hskip | hskip
    · exact absurd hskip hwait
    · rw [hskip] at hpolling
      cases hpolling
  | stops ii n hpc hlt hpolling =>
    simp only [Wf, hpc] at h
    exact cleared (h.2.1.trans h.1) fun _ => h.2.2.2.2 hpolling
  | givesUp ii n hpc hlt hpolling hwait => exact fun h => absurd h (by decide)
  | pends ii n hpc hlt hwait =>
    simp only [Wf, hpc] at h
    exact h.2.1.trans h.1
  | clears n rc hpc =>
    rcases hpc with hpc | hpc <;> simp only [Wf, hpc] at h <;> exact cleared h.1 h.2

end Poller.Wf

namespace PollSys

variable {s s' : PollSys} {op : PollStep}

theorem numEvents_goes {p p' : Poller} (h : PollGoes p p') : p'.numEvents = p.numEvents := by
  cases h <;> rfl

/-- **Every step keeps the invariant.** -/
theorem Inv.step (hi : s.Inv) (h : s.step op = some s') : s'.Inv := by
  refine ⟨hi.lists_step h, fun t => ?_⟩
  have hwf := hi.wf t
  -- an event with a state more is ready
  have hnew : ∀ {i : ℕ} {state : PollState}, (s'.thr t).numEvents = (s.thr t).numEvents →
      i < (s.thr t).numEvents →
      s'.states t = Function.update (s.states t) i (insert state (s.states t i)) → s'.Ready t := by
    intro i state hnum hlt hst
    refine ⟨i, hnum ▸ hlt, ?_⟩
    rw [hst, update_self]
    exact Finset.insert_ne_empty _ _
  cases moves hi.toLists h t with
  | stays _ hthr hst =>
    rw [hthr]
    exact hwf.mono fun hr => hr.mono (by rw [hthr]) fun i => by rw [hst]
  | starts events timeout hop hout hthr =>
    rw [hthr]
    exact ⟨Nat.zero_le _, Nat.le_refl _, fun _ _ => rfl, fun _ => rfl, fun h => by cases h⟩
  | ready ii n state hop hpc hlt hmet hthr hst =>
    have hr := hnew (by rw [hthr]) hlt hst
    simp only [Poller.Wf, hpc] at hwf
    obtain ⟨-, hle, -, hnone, -⟩ := hwf
    rw [hthr]
    exact ⟨hlt, hle.trans (Nat.le_succ ii), fun _ h => by (cases h), hnone, fun _ => hr⟩
  | goes hop hgoes hst =>
    exact (hwf.goes hgoes).mono fun hr => hr.mono (numEvents_goes hgoes) fun i => by rw [hst]
  | expires n hop hpc hthr hst =>
    simp only [Poller.Wf, hpc] at hwf
    rw [hthr]
    exact ⟨hwf, fun h => absurd h (by decide)⟩
  | signalled o i state hmem hcause hop hthr hst =>
    have hlt : i < (s.thr t).numEvents :=
      lt_of_lt_of_le (hi.linked o _ hmem).lt hwf.registered_le
    have hr := hnew (by rw [hthr]; rfl) hlt hst
    rw [hthr]
    exact hwf.signal hr state

/-- **The invariant holds in every reachable state.** -/
theorem Reachable.inv (h : s.Reachable) : s.Inv := by
  induction h with
  | init h =>
    refine ⟨⟨fun o e he => ?_, fun o => ?_, fun t i hout => ?_, fun o x hx => ?_⟩, fun t => ?_⟩
    · rw [h.pollEvents] at he
      cases he
    · rw [h.pollEvents]
      exact nodup_nil
    · rw [h.pc] at hout
      cases hout
    · rw [h.todo] at hx
      cases hx
    · simp only [Poller.Wf, h.pc]
  | step op _ hs ih => exact ih.step hs

theorem event_of_ev {e : ℕ × ℕ} {x : PollEvent} (h : s'.ev = Function.update s.ev e x)
    (htype : x.type = (s.ev e).type) (hobj : x.obj = (s.ev e).obj) (e' : ℕ × ℕ) :
    (s'.ev e').type = (s.ev e').type ∧ (s'.ev e').obj = (s.ev e').obj := by
  rw [h]
  by_cases he : e' = e
  · rw [he, update_self]
    exact ⟨htype, hobj⟩
  · rw [update_of_ne he]
    exact ⟨rfl, rfl⟩

theorem event_clearSection (s : PollSys) (t : ℕ) (rc : ℤ) (n : ℕ) (e : ℕ × ℕ) :
    ((s.clearSection t rc n).ev e).type = (s.ev e).type ∧
      ((s.clearSection t rc n).ev e).obj = (s.ev e).obj := by
  cases n with
  | zero => exact ⟨rfl, rfl⟩
  | succ n => exact event_of_ev (s.clearEventRegistration_ev (t, n)) rfl rfl e

theorem event_handle (s : PollSys) (o : ℕ) (state : PollState) (e : ℕ × ℕ) :
    ((s.handleObjPollEvents o state).ev e).type = (s.ev e).type ∧
      ((s.handleObjPollEvents o state).ev e).obj = (s.ev e).obj := by
  unfold handleObjPollEvents
  split
  next => exact ⟨rfl, rfl⟩
  next e' events hevents =>
    refine event_of_ev (e := e') (x := (s.ev e').setReady state) ?_ rfl rfl e
    unfold signalPollEvent
    cases hpoller : ((s.setObj o { s.obj o with pollEvents := events }).ev e').poller <;> rfl

theorem event_step {t : ℕ} (h : s.step op = some s') (hin : (s.thr t).pc.out = false) (i : ℕ) :
    (s'.ev (t, i)).type = (s.ev (t, i)).type ∧ (s'.ev (t, i)).obj = (s.ev (t, i)).obj := by
  cases op with
  | poll u events timeout =>
    simp only [step, poll, ite_none_right_eq_some] at h
    obtain ⟨⟨hout, -⟩, hs⟩ := h
    cases hs
    have ht : t ≠ u := by
      rintro rfl
      rw [hin] at hout
      cases hout
    simp only [if_neg ht, and_self]
  | advance u =>
    simp only [step, advance] at h
    split at h
    · split at h
      · cases h
        unfold registerRound
        split
        · exact event_of_ev (s.setEv_ev (u, _) ((s.ev (u, _)).setReady _)) rfl rfl (t, i)
        · split
          · exact event_of_ev (s.registerEvent_ev (u, _) u) rfl rfl (t, i)
          · exact ⟨rfl, rfl⟩
      cases h
      unfold checkPolling
      split
      · exact s.event_clearSection u _ _ (t, i)
      · exact ⟨rfl, rfl⟩
    · cases h
      exact s.event_clearSection u _ _ (t, i)
    · cases h
      exact s.event_clearSection u _ _ (t, i)
    · cases h
  | expire u =>
    simp only [step, expire] at h
    split at h
    · split at h
      · cases h
      · cases h
        exact ⟨rfl, rfl⟩
    · cases h
  | apply o op =>
    simp only [step, applyOp, ite_none_right_eq_some] at h
    obtain ⟨x, -, rfl⟩ := map_eq_some_iff.1 h.2
    exact ⟨rfl, rfl⟩
  | todo o =>
    simp only [step, doTodo] at h
    split at h
    · cases h
    · cases h
      exact event_handle _ o _ (t, i)
    · cases h
      exact ⟨rfl, rfl⟩
  | signalRaise o result =>
    simp only [step, signalRaise, ite_none_right_eq_some] at h
    obtain ⟨-, hs⟩ := h
    cases hs
    exact event_handle _ o _ (t, i)
  | queueRemove o =>
    cases h
    exact ⟨rfl, rfl⟩
  | signalReset o =>
    cases h
    exact ⟨rfl, rfl⟩
  | prioritySet u prio =>
    cases h
    exact ⟨rfl, rfl⟩

theorem has_signalRaise {o : ℕ} {result : ℤ} (h : s.signalRaise o result = some s') :
    (s.obj o).data.kind = .signal ∧ (s'.obj o).data.has .signaled = true := by
  simp only [signalRaise, ite_none_right_eq_some] at h
  obtain ⟨hkind, hs⟩ := h
  cases hs
  refine ⟨hkind, ?_⟩
  unfold handleObjPollEvents
  split
  · rw [setObj_obj, update_self]
    rfl
  unfold signalPollEvent
  simp only [setEv_obj]
  cases ((((s.setObj o _).setObj o _).ev _).poller) <;>
    simp only [elim_none, elim_some, setThr_obj, setObj_obj, update_self] <;>
    rfl

end PollSys

/-! ### Calls -/

/-- Steps that do not mislead the call: it checks no empty pipe, and its events are not
signalled by `k_sem_reset`, `k_queue_cancel_wait` or for a queue whose items were taken. -/
def PollHonest (t : ℕ) (s : PollSys) : PollStep → Prop
  | .advance u => u = t → ∀ ii n, (s.thr t).pc = .registering ii n → (s.ev (t, ii)).type = .pipe →
      (s.obj (s.ev (t, ii)).obj).data.has .pipeDataAvailable = true
  | .todo o => ∀ caller todo e events, (s.obj o).todo = .handle caller :: todo →
      (s.obj o).pollEvents = e :: events → e.1 = t →
      caller ≠ .semReset ∧ caller ≠ .queueCancelWait ∧
        (caller = .queueInsert ∨ caller = .queueAppendList →
          (s.obj o).data.has .dataAvailable = true)
  | _ => True

/-- What the event waits for was there in one of the states. -/
def PollSeen (events : List PollEvent) (seen : List PollSys) (i : ℕ) (state : PollState) : Prop :=
  (events.getD i default).type.state = some state ∧
    ∃ s ∈ seen, (s.obj (events.getD i default).obj).data.has state = true

namespace PollSys

variable {s s' : PollSys} {op : PollStep}

/-- **An event is signalled for what its object has**, by steps that do not mislead. -/
theorem has_of_cause (hi : s.Inv) (h : s.step op = some s') {t o i : ℕ} {state : PollState}
    (hmem : (t, i) ∈ (s.obj o).pollEvents) (hcause : PollCause s op o (t, i) state)
    (hok : PollHonest t s op) :
    (s.ev (t, i)).type.state = some state ∧
      ((s.obj o).data.has state = true ∨ (s'.obj o).data.has state = true) := by
  have hreg := hi.linked o _ hmem
  cases hcause with
  | raise result hop =>
    subst hop
    obtain ⟨hkind, hhas⟩ := has_signalRaise h
    refine ⟨?_, .inr hhas⟩
    rw [hreg.type, hkind]
    rfl
  | handle caller todo events hop htodo hevents =>
    subst hop
    obtain ⟨hreset, hcancel, hqueue⟩ := hok caller todo _ events htodo hevents rfl
    have hpromise := hi.promise o _ (htodo ▸ mem_cons_self)
    have hhas : (s.obj o).data.has caller.state = true := by
      cases caller with
      | semGive => exact hpromise
      | semReset => exact absurd rfl hreset
      | queueInsert => exact hqueue (.inl rfl)
      | queueAppendList => exact hqueue (.inr rfl)
      | queueCancelWait => exact absurd rfl hcancel
      | msgqPut => exact hpromise
      | pipeWrite => exact absurd (hreg.type.trans hpromise) hreg.noPipe
    exact ⟨by rw [hreg.type]; exact PollData.state_of_has hhas, .inl hhas⟩

end PollSys

variable {events : List PollEvent} {seen : List PollSys} {s : PollSys} {t : ℕ}

theorem PollSeen.cons {i : ℕ} {state : PollState}
    (h : PollSeen events seen i state) (s : PollSys) : PollSeen events (s :: seen) i state := by
  obtain ⟨htype, σ, hσ, hhas⟩ := h
  exact ⟨htype, σ, mem_cons_of_mem _ hσ, hhas⟩

/-- Where a call with `K_NO_WAIT` is after `k` of its sections. -/
def PollNoWait (t : ℕ) (events : List PollEvent) (k : ℕ) (seen : List PollSys) (s : PollSys) :
    Prop :=
  (s.thr t).pc = .registering k 0 ∧ k ≤ events.length ∧
      ((s.thr t).isPolling = false → ∃ i state, PollSeen events seen i state) ∨
    k = events.length + 1 ∧ ∃ rc, (s.thr t).pc = .returned rc ∧
      (rc = - EAGAIN ∨ ∃ i state, PollSeen events seen i state)

/-- What holds all along a call, after `k` of its sections. -/
structure PollFacts (t : ℕ) (events : List PollEvent) (timeout : KTimeout) (k : ℕ)
    (seen : List PollSys) (s : PollSys) : Prop where
  inv : s.Inv
  mem : s ∈ seen
  event : ∀ i, (s.ev (t, i)).type = (events.getD i default).type ∧
    (s.ev (t, i)).obj = (events.getD i default).obj
  num : (s.thr t).numEvents = events.length
  wait : (s.thr t).timeout = timeout
  truthful : ∀ i, ∀ state ∈ s.states t i,
    state ∈ (events.getD i default).state ∨ PollSeen events seen i state
  noWait : timeout = .ticks 0 → PollNoWait t events k seen s

open PollSys

namespace PollFacts

variable {t k : ℕ} {events : List PollEvent} {timeout : KTimeout} {seen : List PollSys}
  {s s' : PollSys} {op : PollStep}

theorem start (hi : s.Inv) (h : s.step (.poll t events timeout) = some s') :
    PollFacts t events timeout 0 [s'] s' := by
  have hi' := hi.step h
  simp only [step, poll, ite_none_right_eq_some] at h
  obtain ⟨-, hs⟩ := h
  cases hs
  refine ⟨hi', mem_singleton_self _, fun i => ?_, ?_, ?_, fun i state hstate => .inl ?_, fun _ => ?_⟩
  · simp only [if_pos, and_self]
  · simp only [update_self]
  · simp only [update_self]
  · simpa only [states, if_pos] using hstate
  · refine .inl ⟨?_, Nat.zero_le _, fun h => ?_⟩
    · simp only [update_self]
    · simp only [update_self, reduceCtorEq] at h

theorem seen_of_has (hf : PollFacts t events timeout k seen s) {i : ℕ} {state : PollState}
    (htype : (s.ev (t, i)).type.state = some state)
    (hhas : (s.obj (s.ev (t, i)).obj).data.has state = true ∨
      (s'.obj (s.ev (t, i)).obj).data.has state = true) :
    PollSeen events (s' :: seen) i state := by
  rw [(hf.event i).1] at htype
  rw [(hf.event i).2] at hhas
  rcases hhas with hhas | hhas
  · exact ⟨htype, s, mem_cons_of_mem _ hf.mem, hhas⟩
  · exact ⟨htype, s', mem_cons_self, hhas⟩

theorem truthful_step (hf : PollFacts t events timeout k seen s) (h : s.step op = some s')
    (hok : PollHonest t s op) (hin : (s.thr t).pc.out = false) (i : ℕ) :
    ∀ state ∈ s'.states t i,
      state ∈ (events.getD i default).state ∨ PollSeen events (s' :: seen) i state := by
  have hold : ∀ j, ∀ state ∈ s.states t j,
      state ∈ (events.getD j default).state ∨ PollSeen events (s' :: seen) j state :=
    fun j state hstate => (hf.truthful j state hstate).imp_right fun h => h.cons s'
  have hnew : ∀ {j : ℕ} {new : PollState}, PollSeen events (s' :: seen) j new →
      s'.states t = Function.update (s.states t) j (insert new (s.states t j)) →
      ∀ state ∈ s'.states t i,
        state ∈ (events.getD i default).state ∨ PollSeen events (s' :: seen) i state := by
    intro j new hseen hst state hstate
    rw [hst] at hstate
    by_cases hij : i = j
    · subst hij
      rw [update_self] at hstate
      rcases Finset.mem_insert.1 hstate with rfl | hstate
      · exact .inr hseen
      · exact hold i state hstate
    · rw [update_of_ne hij] at hstate
      exact hold i state hstate
  cases moves hf.inv.toLists h t with
  | stays _ _ hst => rw [hst]; exact hold i
  | starts _ _ _ hout _ =>
    rw [hin] at hout
    cases hout
  | ready ii n state hop hpc hlt hmet hthr hst =>
    subst hop
    obtain ⟨htype, hhas⟩ := PollData.has_of_isConditionMet hmet (hok rfl ii n hpc)
    exact hnew (hf.seen_of_has htype (.inl hhas)) hst
  | goes _ _ hst => rw [hst]; exact hold i
  | expires _ _ _ _ hst => rw [hst]; exact hold i
  | signalled o j state hmem hcause _ _ hst =>
    obtain ⟨htype, hhas⟩ := has_of_cause hf.inv h hmem hcause hok
    rw [← (hf.inv.linked o _ hmem).obj] at hhas
    exact hnew (hf.seen_of_has htype hhas) hst

theorem noWait_step (hf : PollFacts t events timeout k seen s) (h : s.step op = some s')
    (hok : PollHonest t s op) (hin : (s.thr t).pc.out = false) (hwait : timeout = .ticks 0) :
    ∃ k', (op = .advance t ∧ k' = k + 1 ∨ op ≠ .advance t ∧ k' = k) ∧
      PollNoWait t events k' (s' :: seen) s' := by
  unfold PollNoWait
  have hcons : (∃ i state, PollSeen events seen i state) →
      ∃ i state, PollSeen events (s' :: seen) i state := by
    rintro ⟨i, state, hseen⟩
    exact ⟨i, state, hseen.cons s'⟩
  rcases hf.noWait hwait with ⟨hpc, hle, hseen⟩ | ⟨-, rc, hpc, -⟩
  · cases moves hf.inv.toLists h t with
    | stays hop hthr _ =>
      refine ⟨k, .inr ⟨hop, rfl⟩, .inl ?_⟩
      rw [hthr]
      exact ⟨hpc, hle, fun hp => hcons (hseen hp)⟩
    | starts _ _ _ hout _ =>
      rw [hin] at hout
      cases hout
    | ready ii n state hop hpc' hlt hmet hthr hst =>
      subst hop
      obtain ⟨htype, hhas⟩ := PollData.has_of_isConditionMet hmet (hok rfl ii n hpc')
      rw [hpc] at hpc'
      cases hpc'
      rw [hf.num] at hlt
      refine ⟨k + 1, .inl ⟨rfl, rfl⟩, .inl ?_⟩
      rw [hthr]
      exact ⟨rfl, hlt, fun _ => ⟨k, state, hf.seen_of_has htype (.inl hhas)⟩⟩
    | goes hop hgoes _ =>
      refine ⟨k + 1, .inl ⟨hop, rfl⟩, ?_⟩
      generalize s'.thr t = p' at hgoes ⊢
      cases hgoes with
      | registers ii n hpc' hlt hwait' hpolling => exact absurd (hf.wait.trans hwait) hwait'
      | skips ii n hpc' hlt hskip =>
        rw [hpc] at hpc'
        cases hpc'
        rw [hf.num] at hlt
        exact .inl ⟨rfl, hlt, fun hp => hcons (hseen hp)⟩
      | stops ii n hpc' hlt hpolling =>
        rw [hpc] at hpc'
        cases hpc'
        rw [hf.num] at hlt
        exact .inr ⟨by omega, 0, rfl, .inr (hcons (hseen hpolling))⟩
      | givesUp ii n hpc' hlt hpolling hwait' =>
        rw [hpc] at hpc'
        cases hpc'
        rw [hf.num] at hlt
        exact .inr ⟨by omega, - EAGAIN, rfl, .inl rfl⟩
      | pends ii n hpc' hlt hwait' => exact absurd (hf.wait.trans hwait) hwait'
      | clears n rc hpc' =>
        rw [hpc] at hpc'
        rcases hpc' with hpc' | hpc' <;> cases hpc'
    | expires n _ hpc' _ _ =>
      rw [hpc] at hpc'
      cases hpc'
    | signalled o j state hmem hcause _ _ _ =>
      have hlt := (hf.inv.linked o _ hmem).lt
      rw [hpc] at hlt
      exact absurd hlt (Nat.not_lt_zero _)
  · rw [hpc] at hin
    cases hin

theorem step (hf : PollFacts t events timeout k seen s) (h : s.step op = some s')
    (hok : PollHonest t s op) (hin : (s.thr t).pc.out = false) :
    ∃ k', (op = .advance t ∧ k' = k + 1 ∨ op ≠ .advance t ∧ k' = k) ∧
      PollFacts t events timeout k' (s' :: seen) s' := by
  have hkeep : (s'.thr t).numEvents = (s.thr t).numEvents ∧
      (s'.thr t).timeout = (s.thr t).timeout := by
    cases moves hf.inv.toLists h t with
    | stays _ hthr _ => rw [hthr]; exact ⟨rfl, rfl⟩
    | starts _ _ _ hout _ =>
      rw [hin] at hout
      cases hout
    | ready _ _ _ _ _ _ _ hthr _ => rw [hthr]; exact ⟨rfl, rfl⟩
    | goes _ hgoes _ =>
      generalize s'.thr t = p' at hgoes ⊢
      cases hgoes <;> exact ⟨rfl, rfl⟩
    | expires _ _ _ hthr _ => rw [hthr]; exact ⟨rfl, rfl⟩
    | signalled _ _ _ _ _ _ hthr _ => rw [hthr]; exact ⟨rfl, rfl⟩
  have hfacts : ∀ k', (timeout = .ticks 0 → PollNoWait t events k' (s' :: seen) s') →
      PollFacts t events timeout k' (s' :: seen) s' := fun k' hw =>
      { inv := hf.inv.step h
        mem := mem_cons_self
        event := fun i => by
          obtain ⟨htype, hobj⟩ := event_step h hin i
          rw [htype, hobj]
          exact hf.event i
        num := hkeep.1.trans hf.num
        wait := hkeep.2.trans hf.wait
        truthful := fun i => hf.truthful_step h hok hin i
        noWait := hw }
  by_cases hwait : timeout = .ticks 0
  · obtain ⟨k', hk, hw⟩ := hf.noWait_step h hok hin hwait
    exact ⟨k', hk, hfacts k' fun _ => hw⟩
  · by_cases hop : op = .advance t
    · exact ⟨k + 1, .inl ⟨hop, rfl⟩, hfacts (k + 1) fun h => absurd h hwait⟩
    · exact ⟨k, .inr ⟨hop, rfl⟩, hfacts k fun h => absurd h hwait⟩

end PollFacts

theorem PollSys.out_of_advance {s' : PollSys} (h : s.step (.advance t) = some s') :
    (s.thr t).pc.out = false := by
  simp only [step, advance] at h
  cases hpc : (s.thr t).pc <;> simp only [hpc, reduceCtorEq] at h <;> rfl

theorem PollCall.facts {k : ℕ} {timeout : KTimeout}
    (h : PollCall (PollHonest t) t events timeout k seen s) :
    PollFacts t events timeout k seen s := by
  induction h with
  | start h hs => exact .start h.inv hs
  | own h hok hs ih =>
    obtain ⟨k', ⟨-, rfl⟩ | ⟨hop, -⟩, hf⟩ := ih.step hs hok (out_of_advance hs)
    · exact hf
    · exact absurd rfl hop
  | other op h hin hop hok hs ih =>
    obtain ⟨k', ⟨hop', -⟩ | ⟨-, rfl⟩, hf⟩ := ih.step hs hok hin
    · exact absurd hop' hop
    · exact hf

/-- **`k_poll` reports truthfully**, if no step misleads it: if it returns 0, an event is ready; a
state that was set was true during the call; with `K_NO_WAIT` it returns after one section for each
event and one more; and no event is left in a list. -/
theorem k_poll_truthful {t k : ℕ} {events : List PollEvent} {timeout : KTimeout}
    {seen : List PollSys} {s : PollSys} (h : PollCall (PollHonest t) t events timeout k seen s) :
    (∀ rc, (s.thr t).pc = .returned rc → (rc = 0 → ∃ i < events.length, (s.ev (t, i)).state ≠ ∅) ∧
      (∀ i, ∀ state ∈ (s.ev (t, i)).state, state ∉ (events.getD i default).state →
        PollSeen events seen i state) ∧
      (timeout = .ticks 0 → (∀ i state, ¬PollSeen events seen i state) → rc = - EAGAIN) ∧
      ∀ o i, (t, i) ∉ (s.obj o).pollEvents) ∧
    (timeout = .ticks 0 →
      k ≤ events.length + 1 ∧ (k = events.length + 1 ↔ ∃ rc, (s.thr t).pc = .returned rc) ∧
        ((s.thr t).pc.out = false → ∃ s', s.step (.advance t) = some s')) := by
  have hf := h.facts
  refine ⟨fun rc hrc => ⟨fun h0 => ?_, fun i state hstate hnew => ?_, fun hwait hnone => ?_,
    fun o i => ?_⟩, fun hwait => ?_⟩
  · have hwf := hf.inv.wf t
    simp only [Poller.Wf, hrc] at hwf
    obtain ⟨i, hi, hne⟩ := hwf h0
    exact ⟨i, hf.num ▸ hi, hne⟩
  · exact (hf.truthful i state hstate).resolve_left hnew
  · rcases hf.noWait hwait with ⟨hpc, -⟩ | ⟨-, rc', hpc, hrc'⟩
    · rw [hrc] at hpc
      cases hpc
    rw [hrc] at hpc
    cases hpc
    rcases hrc' with hrc' | ⟨i, state, hseen⟩
    · exact hrc'
    · exact absurd hseen (hnone i state)
  · exact hf.inv.free (by rw [hrc]; exact Nat.zero_le _) o
  rcases hf.noWait hwait with ⟨hpc, hle, -⟩ | ⟨hk, rc, hpc, -⟩
  · refine ⟨hle.trans (Nat.le_succ _), ⟨fun hk => ?_, ?_⟩, fun _ => ?_⟩
    · omega
    · rintro ⟨rc, hrc⟩
      rw [hpc] at hrc
      cases hrc
    · simp only [step, advance, hpc]
      split_ifs
      · exact ⟨_, rfl⟩
      · exact ⟨_, rfl⟩
  · refine ⟨Nat.le_of_eq hk, ⟨fun _ => ⟨rc, hpc⟩, fun _ => hk⟩, fun hin => ?_⟩
    rw [hpc] at hin
    cases hin

def pollIdle (data : PollData) : PollSys where
  prio := fun _ => 0
  obj := fun _ => ⟨data, [], []⟩
  ev := fun _ => default
  thr := fun _ => ⟨0, .forever, false, .idle⟩

theorem initial_pollIdle (data : PollData) : (pollIdle data).Initial :=
  ⟨fun _ => rfl, fun _ => rfl, fun _ => rfl⟩

def takenSem : PollSem := ⟨0, 1, 0, Nat.one_pos⟩

/-- A thread that polls a semaphore until another one gives it. -/
theorem k_poll_truthful_give :
    ∃ seen s, PollCall (PollHonest 0) 0 [⟨.sem, 0, ∅, none⟩] .forever 4 seen s ∧
      (s.thr 0).pc = .returned 0 ∧ PollSeen [⟨.sem, 0, ∅, none⟩] seen 0 .semAvailable := by
  have h0 : PollCall (PollHonest 0) 0 [⟨.sem, 0, ∅, none⟩] .forever 0 _ _ :=
    .start (.init (initial_pollIdle (.sem takenSem))) rfl
  have h1 := h0.own (fun _ ii n hpc htype => by cases hpc; cases htype) rfl
  have h2 := h1.own (fun _ ii n hpc htype => by cases hpc; cases htype) rfl
  have h3 := h2.other (.apply 0 .semGive) rfl nofun trivial rfl
  have h4 := h3.other (.todo 0) rfl nofun
    (fun caller todo e events htodo _ _ => by cases htodo; exact ⟨nofun, nofun, nofun⟩) rfl
  have h5 := h4.own (fun _ ii n hpc => by cases hpc) rfl
  have h6 := h5.own (fun _ ii n hpc => by cases hpc) rfl
  exact ⟨_, _, h6, rfl, ((k_poll_truthful h6).1 0 rfl).2.1 0 .semAvailable (by decide) (by decide)⟩

/-- A poll of an empty pipe, and one of a semaphore that is reset, return 0. -/
theorem k_poll_empty_pipe :
    (∃ seen s, PollCall (fun _ _ => True) 0 [⟨.pipe, 0, ∅, none⟩] (.ticks 0) 2 seen s ∧
      (s.thr 0).pc = .returned 0 ∧ (s.ev (0, 0)).state = {.pipeDataAvailable} ∧
      ∀ i state, ¬PollSeen [⟨.pipe, 0, ∅, none⟩] seen i state) ∧
    ∃ seen s, PollCall (fun _ _ => True) 0 [⟨.sem, 0, ∅, none⟩] .forever 4 seen s ∧
      (s.thr 0).pc = .returned 0 ∧ (s.ev (0, 0)).state = {.semAvailable} ∧
      ∀ i state, ¬PollSeen [⟨.sem, 0, ∅, none⟩] seen i state := by
  constructor
  · have h0 : PollCall (fun _ _ => True) 0 [⟨.pipe, 0, ∅, none⟩] (.ticks 0) 0 _ _ :=
      .start (.init (initial_pollIdle (.pipe 0 16))) rfl
    have h1 := h0.own trivial rfl
    have h2 := h1.own trivial rfl
    refine ⟨_, _, h2, rfl, by decide, ?_⟩
    rintro i state ⟨-, σ, hσ, hhas⟩
    simp only [mem_cons, not_mem_nil, or_false] at hσ
    rcases hσ with rfl | rfl | rfl <;> cases state <;> cases hhas
  have h0 : PollCall (fun _ _ => True) 0 [⟨.sem, 0, ∅, none⟩] .forever 0 _ _ :=
    .start (.init (initial_pollIdle (.sem takenSem))) rfl
  have h1 := h0.own trivial rfl
  have h2 := h1.own trivial rfl
  have h3 := h2.other (.apply 0 .semReset) rfl nofun trivial rfl
  have h4 := h3.other (.todo 0) rfl nofun trivial rfl
  have h5 := h4.own trivial rfl
  have h6 := h5.own trivial rfl
  refine ⟨_, _, h6, rfl, by decide, ?_⟩
  rintro (_ | i) state ⟨htype, σ, hσ, hhas⟩
  · simp only [mem_cons, not_mem_nil, or_false] at hσ
    rcases hσ with rfl | rfl | rfl | rfl | rfl | rfl | rfl <;> cases htype <;> cases hhas
  · cases htype

end TlZephyr
