import TlZephyr.WorkCancel

/-!
# Delayed Work

A delayable item of `work.c` and its timeout. `sys_clock_announce` takes an expired timeout off its
list, releases its lock and calls `work_timeout`, which takes the lock of `work.c`: two steps, with
other calls between them. The callback only asks whether `K_WORK_DELAYED` is set, and so takes a
delay that was started in between for the one that is over.
-/

namespace TlZephyr

/-- `k_timeout_t`. -/
inductive Delay
  | noWait
  | forever
  | ticks (n : ℕ)
  | abs (tick : ℕ)
deriving DecidableEq, Repr

namespace Delay

def deadline (now : ℕ) : Delay → Option ℕ
  | noWait => some now
  | forever => none
  | ticks n => some (now + n)
  | abs tick => some tick

/-- When a timeout that `z_add_timeout` adds expires. A relative one starts with the next tick. -/
def expiry (now : ℕ) : Delay → Option ℕ
  | ticks n => some (now + n + 1)
  | abs tick => some tick
  | _ => none

end Delay

/-- The flags of an item, the tick its timeout expires at while it is on the list, whether it was
taken off to call `work_timeout`, and when the item is due after the last call that took effect. -/
structure DelayedWork where
  flags : WorkFlags
  now : ℕ
  timeout : Option ℕ
  dequeued : Bool
  due : Option ℕ

/-- Sections under a lock; the last one changes the other flags. -/
inductive DelayedOp
  | tick
  | schedule (delay : Delay) (accepted : Bool)
  | reschedule (delay : Delay) (accepted : Bool)
  | cancel
  | announce
  | workTimeout (accepted : Bool)
  | other (flags : WorkFlags)

namespace DelayedWork

/-- `k_work_init_delayable` -/
def init : DelayedWork := ⟨⟨false, false, false, false, false⟩, 0, none, false, none⟩

/-- `unschedule_locked` -/
def unschedule (s : DelayedWork) : DelayedWork :=
  if s.flags.delayed then { s with flags.delayed := false, timeout := none } else s

/-- `schedule_for_queue_locked` -/
def scheduleForQueue (s : DelayedWork) (delay : Delay) (accepted : Bool) : DelayedWork :=
  if delay = .noWait then
    { s with flags := s.flags.submit accepted, due := delay.deadline s.now }
  else
    { s with
      flags.delayed := true
      timeout := delay.expiry s.now <|> s.timeout
      due := delay.deadline s.now }

/-- Whether `work_timeout` submits the item when it runs now. -/
def submits (s : DelayedWork) : Bool := s.dequeued && s.flags.delayed

def step (s : DelayedWork) : DelayedOp → DelayedWork
  | .tick => { s with now := s.now + 1 }
  | .schedule delay accepted =>
    if { s.flags with running := false }.busy then s else s.scheduleForQueue delay accepted
  | .reschedule delay accepted => s.unschedule.scheduleForQueue delay accepted
  | .cancel => { s.unschedule with flags := s.unschedule.flags.cancelAsync, due := none }
  | .announce =>
    -- one callback at a time
    if s.dequeued = false ∧ (∃ t ∈ s.timeout, t ≤ s.now) then
      { s with timeout := none, dequeued := true }
    else s
  | .workTimeout accepted =>
    if s.submits then
      { s with dequeued := false, flags := { s.flags with delayed := false }.submit accepted }
    else { s with dequeued := false }
  | .other flags => { s with flags := { flags with delayed := s.flags.delayed } }

def run (s : DelayedWork) (ops : List DelayedOp) : DelayedWork := ops.foldl step s

/-- The item is due when the callback of a delayed item runs, and not after its timeout expires. -/
structure Inv (s : DelayedWork) : Prop where
  dequeued : s.dequeued = true → s.timeout = none
  submits : s.submits = true → ∃ d, s.due = some d ∧ d ≤ s.now
  timeout : ∀ t, s.timeout = some t → s.flags.delayed = true ∧ ∃ d, s.due = some d ∧ d ≤ t

end DelayedWork

/-- No delay is started while the callback of an old one is still to run. -/
def DelayedOp.Outside (s : DelayedWork) : DelayedOp → Prop
  | .schedule delay _ => s.dequeued = true → delay = .noWait
  | .reschedule delay _ => s.dequeued = true → delay = .noWait
  | _ => True

def DelayedWork.Outside (s : DelayedWork) : List DelayedOp → Prop
  | [] => True
  | op :: ops => op.Outside s ∧ (s.step op).Outside ops

/-! ### Invariant -/

theorem WorkFlags.delayed_submit (f : WorkFlags) (accepted : Bool) :
    (f.submit accepted).delayed = f.delayed := by
  rw [submit]
  split_ifs <;> rfl

theorem WorkFlags.delayed_cancelAsync (f : WorkFlags) : f.cancelAsync.delayed = f.delayed := by
  rw [cancelAsync]
  split_ifs <;> rfl

theorem Delay.deadline_le_expiry {delay : Delay} {now t : ℕ} (h : delay.expiry now = some t) :
    ∃ d, delay.deadline now = some d ∧ d ≤ t := by
  cases delay with
  | noWait => cases h
  | forever => cases h
  | ticks n =>
    cases h
    exact ⟨now + n, rfl, Nat.le_succ _⟩
  | abs tick =>
    cases h
    exact ⟨t, rfl, le_rfl⟩

namespace DelayedWork

variable {s : DelayedWork}

theorem Inv.idle (hdelayed : s.flags.delayed = false) (htimeout : s.timeout = none) : s.Inv := by
  refine ⟨fun _ => htimeout, fun h => ?_, fun t ht => ?_⟩
  · rw [DelayedWork.submits, hdelayed, Bool.and_false] at h
    cases h
  · rw [htimeout] at ht
    cases ht

theorem Inv.waiting (hdequeued : s.dequeued = false)
    (h : ∀ t, s.timeout = some t → s.flags.delayed = true ∧ ∃ d, s.due = some d ∧ d ≤ t) : s.Inv := by
  refine ⟨fun hd => absurd hd ?_, fun hs => absurd hs ?_, h⟩
  · simp [hdequeued]
  · simp [DelayedWork.submits, hdequeued]

theorem Inv.timeout_none (hi : s.Inv) (h : s.flags.delayed = false) : s.timeout = none := by
  refine Option.eq_none_iff_forall_ne_some.mpr fun t ht => ?_
  rw [(hi.timeout t ht).1] at h
  cases h

theorem Inv.unschedule (hi : s.Inv) : s.unschedule.flags.delayed = false ∧
    s.unschedule.timeout = none ∧ s.unschedule.dequeued = s.dequeued := by
  rw [DelayedWork.unschedule]
  split_ifs with h
  · exact ⟨rfl, rfl, rfl⟩
  · exact ⟨Bool.eq_false_iff.mpr h, hi.timeout_none (Bool.eq_false_iff.mpr h), rfl⟩

theorem Inv.scheduleForQueue {delay : Delay} (hdelayed : s.flags.delayed = false)
    (htimeout : s.timeout = none) (hout : s.dequeued = true → delay = .noWait) (accepted : Bool) :
    (s.scheduleForQueue delay accepted).Inv := by
  rw [DelayedWork.scheduleForQueue]
  split_ifs with h
  · exact .idle ((WorkFlags.delayed_submit _ _).trans hdelayed) htimeout
  · have hdequeued : s.dequeued = false := Bool.eq_false_iff.mpr fun hd => h (hout hd)
    refine .waiting hdequeued fun t ht => ⟨rfl, Delay.deadline_le_expiry ?_⟩
    simpa [htimeout] using ht

/-- **One step** keeps the invariant. -/
theorem Inv.step (hi : s.Inv) (op : DelayedOp) (hop : op.Outside s) : (s.step op).Inv := by
  cases op with
  | tick =>
    refine ⟨hi.dequeued, fun h => ?_, hi.timeout⟩
    obtain ⟨d, hd, hle⟩ := hi.submits h
    exact ⟨d, hd, hle.trans (Nat.le_succ _)⟩
  | schedule delay accepted =>
    simp only [DelayedWork.step]
    split_ifs with hbusy
    · exact hi
    · have hdelayed : s.flags.delayed = false := by
        simp only [WorkFlags.busy, Bool.not_eq_true, Bool.or_eq_false_iff] at hbusy
        exact hbusy.1.2
      exact .scheduleForQueue hdelayed (hi.timeout_none hdelayed) hop accepted
  | reschedule delay accepted =>
    obtain ⟨hdelayed, htimeout, hdequeued⟩ := hi.unschedule
    exact .scheduleForQueue hdelayed htimeout (fun h => hop (hdequeued ▸ h)) accepted
  | cancel =>
    obtain ⟨hdelayed, htimeout, -⟩ := hi.unschedule
    exact .idle ((WorkFlags.delayed_cancelAsync _).trans hdelayed) htimeout
  | announce =>
    simp only [DelayedWork.step]
    split_ifs with h
    · refine ⟨fun _ => rfl, fun _ => ?_, fun t ht => by cases ht⟩
      obtain ⟨-, t, ht, hle⟩ := h
      obtain ⟨-, d, hd, hdt⟩ := hi.timeout t ht
      exact ⟨d, hd, hdt.trans hle⟩
    · exact hi
  | workTimeout accepted =>
    simp only [DelayedWork.step]
    split_ifs with h
    · have htimeout := hi.dequeued (Bool.and_eq_true_iff.mp h).1
      exact .idle (WorkFlags.delayed_submit _ _) htimeout
    · exact .waiting rfl hi.timeout
  | other flags => exact ⟨hi.dequeued, hi.submits, hi.timeout⟩

theorem Inv.run (hi : s.Inv) (ops : List DelayedOp) (hops : s.Outside ops) : (s.run ops).Inv := by
  induction ops generalizing s with
  | nil => exact hi
  | cons op ops ih => exact ih (hi.step op hops.1) hops.2

end DelayedWork

/-- **Delayed work is not early**, in every run in which no delay is started between the removal of
the item's timeout and its `work_timeout`: the deadline of the last call has been reached, and that
was no cancel. -/
theorem work_never_early (ops : List DelayedOp) (s : DelayedWork) (hs : s = DelayedWork.init.run ops)
    (hout : DelayedWork.init.Outside ops) (h : s.submits = true) :
    ∃ d, s.due = some d ∧ d ≤ s.now := by
  have hinit : DelayedWork.init.Inv := .idle rfl rfl
  have hi : s.Inv := hs ▸ hinit.run ops hout
  exact hi.submits h

theorem work_never_early_tick : ∃ s : DelayedWork,
    s = DelayedWork.init.run [.schedule (.ticks 1) true, .tick, .tick, .announce] ∧
      s.submits = true ∧ ∃ d, s.due = some d ∧ d ≤ s.now :=
  ⟨_, rfl, by decide, work_never_early [.schedule (.ticks 1) true, .tick, .tick, .announce] _ rfl
    ⟨fun h => (by cases h), trivial, trivial, trivial, trivial⟩ (by decide)⟩

/-- **An item that is rescheduled after its timeout was taken off the list** is submitted early. -/
theorem rescheduled_work_early : ∃ s : DelayedWork,
    s = DelayedWork.init.run [.schedule (.ticks 1) true, .tick, .tick, .announce,
        .reschedule (.ticks 100) true] ∧
      s.submits = true ∧ s.due = some 102 ∧ s.now = 2 ∧
      (s.step (.workTimeout true)).flags.queued = true :=
  ⟨_, rfl, by decide, by decide, by decide, by decide⟩

end TlZephyr
