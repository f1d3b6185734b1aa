import TlZephyr.KPollCall

/-!
# Poll Notifications

An operation on an object notifies the owner of the first event in its list. This is wasted if the
call of the owner has timed out, or was cancelled, and has not removed its events yet.
-/

namespace TlZephyr

open List Option

/-- Event that a step takes off the list of an object, and the state that it sets. -/
def PollSys.consumed (s : PollSys) : PollStep → Option ((ℕ × ℕ) × PollState)
  | .todo o =>
    match (s.obj o).todo with
    | .handle caller :: _ => (s.obj o).pollEvents.head?.map (·, caller.state)
    | _ => none
  | .signalRaise o _ => (s.obj o).pollEvents.head?.map (·, .signaled)
  | _ => none

/-- The call has not failed yet, and does not with an event that is taken for `state`. -/
def Poller.Open (p : Poller) (state : PollState) : Prop :=
  match p.pc with
  | .registering _ _ => True
  | .pended _ => state ≠ .cancelled
  | .woken _ rc => rc = 0
  | .clearing _ rc => rc = 0
  | _ => False

def PollSys.run (s : PollSys) (ops : List PollStep) : Option PollSys := ops.foldlM PollSys.step s

def PollStep.isAdvance (t : ℕ) : PollStep → Bool
  | .advance u => u = t
  | _ => false

def PollStep.NoCall (t : ℕ) : PollStep → Prop
  | .poll u _ _ => u ≠ t
  | _ => True

/-- The call of a thread will return `rc`, after `k` more of its sections. -/
def Poller.Returns (p : Poller) (rc : ℤ) (k : ℕ) : Prop :=
  match p.pc with
  | .registering ii n => p.isPolling = false ∧ rc = 0 ∧ ii ≤ p.numEvents ∧
      k = p.numEvents - ii + 1 + n
  | .woken n swapRc => rc = swapRc ∧ k = n + 1
  | .clearing n swapRc => rc = swapRc ∧ k = n + 1
  | .returned swapRc => rc = swapRc ∧ k = 0
  | _ => False

namespace Poller

variable {p : Poller} {rc : ℤ} {k : ℕ}

theorem Returns.cleared (p : Poller) (rc : ℤ) (n : ℕ) :
    ({ p with pc := .cleared rc n } : Poller).Returns rc n := by
  cases n with
  | zero => exact ⟨rfl, rfl⟩
  | succ n => exact ⟨rfl, rfl⟩

theorem Returns.signal (h : p.Returns rc k) (state : PollState) :
    (p.signal state).Returns rc k := by
  obtain ⟨num, timeout, polling, pc⟩ := p
  cases pc with
  | registering ii n => exact ⟨rfl, h.2⟩
  | pended n => exact h.elim
  | _ => exact h

theorem Returns.of_signal {ready : Prop} (hwf : p.Wf ready) (hreg : 0 < p.pc.registered)
    (state : PollState) : ∃ rc k, (rc = 0 ↔ p.Open state) ∧ (p.signal state).Returns rc k := by
  obtain ⟨num, timeout, polling, pc⟩ := p
  cases pc with
  | idle => cases hreg
  | returned rc => cases hreg
  | registering ii n => exact ⟨0, _, by simp [Open], rfl, rfl, hwf.1, rfl⟩
  | pended n =>
    refine ⟨_, _, ?_, rfl, rfl⟩
    split_ifs with hcancel
    · exact iff_of_false (by decide) (not_not.mpr hcancel)
    · exact iff_of_true rfl hcancel
  | woken n rc => exact ⟨rc, _, Iff.rfl, rfl, rfl⟩
  | clearing n rc => exact ⟨rc, _, Iff.rfl, rfl, rfl⟩

theorem Returns.returned_iff (h : p.Returns rc k) : p.pc = .returned rc ↔ k = 0 := by
  obtain ⟨num, timeout, polling, pc⟩ := p
  cases pc with
  | idle => exact h.elim
  | registering ii n => exact iff_of_false nofun (by have := h.2.2.2; omega)
  | pended n => exact h.elim
  | woken n swapRc => exact iff_of_false nofun (by have := h.2; omega)
  | clearing n swapRc => exact iff_of_false nofun (by have := h.2; omega)
  | returned swapRc => exact iff_of_true (by rw [h.1]) h.2

end Poller

namespace PollSys

variable {s s' : PollSys} {op : PollStep} {t k : ℕ} {rc : ℤ}

/-- **A section of a call** brings it nearer to its return. -/
theorem returns_advance (h : (s.thr t).Returns rc (k + 1)) :
    ∃ s', s.step (.advance t) = some s' ∧ (s'.thr t).Returns rc k := by
  have hclear : ∀ rc n, ((s.clearSection t rc n).thr t).Returns rc n := by
    intro rc n
    rw [clearSection_thr, Function.update_self]
    exact .cleared _ rc n
  simp only [step, advance]
  cases hpc : (s.thr t).pc with
  | idle => simp only [Poller.Returns, hpc] at h
  | pended n => simp only [Poller.Returns, hpc] at h
  | returned swapRc =>
    simp only [Poller.Returns, hpc] at h
    omega
  | woken n swapRc =>
    simp only [Poller.Returns, hpc] at h
    obtain ⟨rfl, hk⟩ := h
    obtain rfl : k = n := by omega
    exact ⟨_, rfl, hclear rc k⟩
  | clearing n swapRc =>
    simp only [Poller.Returns, hpc] at h
    obtain ⟨rfl, hk⟩ := h
    obtain rfl : k = n := by omega
    exact ⟨_, rfl, hclear rc k⟩
  | registering ii n =>
    simp only [Poller.Returns, hpc] at h
    obtain ⟨hpolling, rfl, hle, hk⟩ := h
    dsimp only
    by_cases hlt : ii < (s.thr t).numEvents
    · rw [if_pos hlt]
      refine ⟨_, rfl, ?_⟩
      rw [registerRound]
      split
      · rw [setThr_thr, Function.update_self]
        exact ⟨rfl, rfl, hlt, by dsimp only; omega⟩
      · rw [if_neg (by simp [hpolling]), goto_thr, Function.update_self]
        exact ⟨hpolling, rfl, hlt, by dsimp only; omega⟩
    · rw [if_neg hlt, checkPolling, if_pos (by simp [hpolling])]
      obtain rfl : k = n := by omega
      exact ⟨_, rfl, hclear 0 k⟩

theorem returns_other (hi : s.Inv) (hs : s.step op = some s') (h : (s.thr t).Returns rc k)
    (hcall : op.NoCall t) (hop : op ≠ .advance t) : (s'.thr t).Returns rc k := by
  cases moves hi.toLists hs t with
  | stays _ hthr => rwa [hthr]
  | starts events timeout hop' =>
    subst hop'
    exact absurd rfl hcall
  | ready _ _ _ hop' => exact absurd hop' hop
  | goes hop' => exact absurd hop' hop
  | expires n _ hpc => simp only [Poller.Returns, hpc] at h
  | signalled _ _ state _ _ _ hthr =>
    rw [hthr]
    exact h.signal state

theorem returns_run {ops : List PollStep} (hi : s.Inv) (hrun : s.run ops = some s')
    (h : (s.thr t).Returns rc k) (hcall : ∀ op ∈ ops, op.NoCall t) :
    ops.countP (PollStep.isAdvance t) ≤ k ∧ s'.Inv ∧
      (s'.thr t).Returns rc (k - ops.countP (PollStep.isAdvance t)) := by
  induction ops generalizing s k with
  | nil =>
    cases hrun
    exact ⟨Nat.zero_le k, hi, h⟩
  | cons op ops ih =>
    rw [run, foldlM_cons] at hrun
    obtain ⟨s₁, hs, hrun₁⟩ := bind_eq_some_iff.mp hrun
    rw [forall_mem_cons] at hcall
    by_cases hop : op = .advance t
    · subst hop
      rcases k with _ | k
      · -- a call that has returned has no more sections
        have hpc := h.returned_iff.mpr rfl
        simp only [step, advance, hpc, reduceCtorEq] at hs
      obtain ⟨s₂, hs₂, h₂⟩ := returns_advance h
      cases hs.symm.trans hs₂
      obtain ⟨hle, hi', h'⟩ := ih (hi.step hs) hrun₁ h₂ hcall.2
      rw [countP_cons_of_pos (by simp [PollStep.isAdvance]), Nat.add_sub_add_right]
      exact ⟨Nat.succ_le_succ hle, hi', h'⟩
    · have hno : ¬ op.isAdvance t = true := by
        cases op with
        | advance u => simpa [PollStep.isAdvance] using hop
        | _ => simp [PollStep.isAdvance]
      rw [countP_cons_of_neg hno]
      exact ih (hi.step hs) hrun₁ (returns_other hi hs h hcall.1 hop) hcall.2

/-- **The owner of an event that is taken** has a result from then on. -/
theorem returns_of_consumed (hi : s.Inv) (hs : s.step op = some s') {i : ℕ} {state : PollState}
    (hc : s.consumed op = some ((t, i), state)) :
    ∃ rc k, (rc = 0 ↔ (s.thr t).Open state) ∧ (s'.thr t).Returns rc k := by
  obtain ⟨o, events, hevents, hthr⟩ : ∃ o events, (s.obj o).pollEvents = (t, i) :: events ∧
      s'.thr t = (s.thr t).signal state := by
    have hhandle : ∀ {o : ℕ} {x : PollObj} {state' : PollState},
        s' = (s.setObj o x).handleObjPollEvents o state' → x.pollEvents = (s.obj o).pollEvents →
        (s.obj o).pollEvents.head?.map (·, state') = some ((t, i), state) → ∃ o events,
          (s.obj o).pollEvents = (t, i) :: events ∧ s'.thr t = (s.thr t).signal state := by
      rintro o x state' rfl hx hhead
      obtain ⟨e, he, hpair⟩ := map_eq_some_iff.mp hhead
      cases hpair
      obtain ⟨events, hevents⟩ := head?_eq_some_iff.mp he
      have hreg := hi.linked o (t, i) (by rw [hevents]; exact mem_cons_self)
      refine ⟨o, events, hevents, ?_⟩
      rw [(handleObjPollEvents_cons (s := s.setObj o x) state
        (by rw [setObj_obj, Function.update_self, hx, hevents]) hreg.poller).2.2,
        Function.update_self]
      rfl
    cases op with
    | todo o =>
      simp only [consumed] at hc
      simp only [step, doTodo] at hs
      rcases htodo : (s.obj o).todo with _ | ⟨caller | len, todo⟩ <;>
        simp only [htodo, reduceCtorEq] at hc hs
      exact hhandle (some.inj hs).symm rfl hc
    | signalRaise o result =>
      simp only [step, signalRaise, ite_none_right_eq_some] at hs
      exact hhandle (some.inj hs.2).symm rfl hc
    | _ => cases hc
  rw [hthr]
  have hlt := (hi.linked o (t, i) (by rw [hevents]; exact mem_cons_self)).lt
  exact Poller.Returns.of_signal (hi.wf t) (Nat.zero_lt_of_lt hlt) state

end PollSys

open PollSys

/-- **Which notifications are not wasted.** When a step takes an event off the list of an object,
the call of its owner returns after a fixed number of its own sections, whatever else happens, and
it returns 0 if and only if it was not over when the event was taken. -/
theorem k_poll_notified {s s' : PollSys} (h : s.Reachable) {op : PollStep}
    (hs : s.step op = some s') {t i : ℕ} {state : PollState}
    (hc : s.consumed op = some ((t, i), state)) :
    ∃ rc k, (rc = 0 ↔ (s.thr t).Open state) ∧ ∀ ops s'', s'.run ops = some s'' →
      (∀ op ∈ ops, op.NoCall t) → ops.countP (PollStep.isAdvance t) ≤ k ∧
        ((s''.thr t).pc = .returned rc ↔ ops.countP (PollStep.isAdvance t) = k) ∧
        (ops.countP (PollStep.isAdvance t) < k → (s''.step (.advance t)).isSome) := by
  obtain ⟨rc, k, hopen, hret⟩ := returns_of_consumed h.inv hs hc
  refine ⟨rc, k, hopen, fun ops s'' hrun hcall => ?_⟩
  obtain ⟨hle, -, hret'⟩ := returns_run (h.inv.step hs) hrun hret hcall
  refine ⟨hle, hret'.returned_iff.trans (by omega), fun hlt => ?_⟩
  obtain ⟨j, hj⟩ : ∃ j, k - ops.countP (PollStep.isAdvance t) = j + 1 :=
    ⟨_, (Nat.sub_add_cancel (by omega)).symm⟩
  rw [hj] at hret'
  obtain ⟨s₃, hs₃, -⟩ := returns_advance hret'
  rw [hs₃]
  rfl

/-- Two threads that poll a semaphore, the first one for five ticks. -/
def pollTwo : List PollStep :=
  [.poll 0 [⟨.sem, 0, ∅, none⟩] (.ticks 5), .advance 0, .advance 0,
    .poll 1 [⟨.sem, 0, ∅, none⟩] .forever, .advance 1, .advance 1]

theorem reachable_run {s s' : PollSys} {ops : List PollStep} (h : s.Reachable)
    (hrun : s.run ops = some s') : s'.Reachable := by
  induction ops generalizing s with
  | nil =>
    cases hrun
    exact h
  | cons op ops ih =>
    rw [run, foldlM_cons] at hrun
    obtain ⟨s₁, hs, hrun⟩ := bind_eq_some_iff.mp hrun
    exact ih (h.step op hs) hrun

theorem k_poll_notified_two : ∃ s s' : PollSys,
    (pollIdle (.sem takenSem)).run (pollTwo ++ [.apply 0 .semGive]) = some s ∧
    s.step (.todo 0) = some s' ∧ ∃ k, ∀ ops s'', s'.run ops = some s'' →
      (∀ op ∈ ops, op.NoCall 0) →
        ((s''.thr 0).pc = .returned 0 ↔ ops.countP (PollStep.isAdvance 0) = k) := by
  refine ⟨_, _, rfl, rfl, ?_⟩
  have hreach := reachable_run (.init (initial_pollIdle (.sem takenSem)))
    (rfl : PollSys.run _ (pollTwo ++ [.apply 0 .semGive]) = _)
  obtain ⟨rc, k, hrc, hret⟩ := k_poll_notified hreach (rfl : PollSys.step _ (.todo 0) = _)
    (rfl : _ = some ((0, 0), _))
  obtain rfl := hrc.mpr nofun
  exact ⟨k, fun ops s'' hrun hcall => (hret ops s'' hrun hcall).2.1⟩

/-- **No event outlives its call**: in every reachable state an event in the list of an object is
there once, is for this object and belongs to a thread inside of `k_poll`. -/
theorem k_poll_no_dangling {s : PollSys} (h : s.Reachable) (o : ℕ) :
    (s.obj o).pollEvents.Nodup ∧ ∀ e ∈ (s.obj o).pollEvents,
      (s.ev e).obj = o ∧ (s.thr e.1).pc.out = false ∧ e.2 < (s.thr e.1).numEvents := by
  refine ⟨h.inv.nodup o, fun e he => ?_⟩
  have hreg := h.inv.linked o e he
  have hlt := hreg.lt
  refine ⟨hreg.obj, ?_, hlt.trans_le (h.inv.wf e.1).registered_le⟩
  cases hpc : (s.thr e.1).pc <;> simp_all [PollPc.registered, PollPc.out]

theorem k_poll_no_dangling_two : ∃ s : PollSys,
    (pollIdle (.sem takenSem)).run pollTwo = some s ∧ (s.obj 0).pollEvents = [(0, 0), (1, 0)] ∧
      (s.thr 1).pc.out = false := by
  refine ⟨_, rfl, rfl, ?_⟩
  have hreach := reachable_run (.init (initial_pollIdle (.sem takenSem)))
    (rfl : PollSys.run _ pollTwo = _)
  exact ((k_poll_no_dangling hreach 0).2 (1, 0) (.tail _ (.head _))).2.1

/-- **A notification that is wasted.** The first thread has timed out when the semaphore is given,
takes the notification and returns `-EAGAIN`. The second one is still pended, with the semaphore
available and nothing left to do. -/
theorem k_poll_notification_wasted : ∃ s : PollSys,
    (pollIdle (.sem takenSem)).run (pollTwo ++ [.expire 0, .apply 0 .semGive, .todo 0, .advance 0,
      .advance 0]) = some s ∧ (s.thr 0).pc = .returned (- EAGAIN) ∧ (s.thr 1).pc = .pended 1 ∧
    (s.obj 0).data.has .semAvailable = true ∧ (s.obj 0).todo = [] :=
  ⟨_, rfl, rfl, rfl, rfl, rfl⟩

end TlZephyr
