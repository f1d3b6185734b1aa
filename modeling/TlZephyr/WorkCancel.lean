import Mathlib

/-!
# Cancellation of Work Items

The flags of the work items of `work.c` and the threads that wait in `k_work_cancel_sync` or
`k_work_cancel_delayable_sync`. A step is a section under the lock. Calls that wait are numbered; a
call is in `pending_cancels` with the item it cancels until `finalize_cancel_locked` gives its
semaphore. Of the queues the model keeps which items are queued and which run.

`finalize_cancel_locked` stops at the first canceller of the item, and clears `K_WORK_CANCELING` for
all.
-/

namespace TlZephyr

open List

/-- Dynamic flags of `struct k_work`. -/
structure WorkFlags where
  running : Bool
  canceling : Bool
  queued : Bool
  delayed : Bool
  flushing : Bool
deriving DecidableEq, Repr

namespace WorkFlags

/-- `work_busy_get_locked` is not 0. -/
def busy (f : WorkFlags) : Bool := f.running || f.canceling || f.queued || f.delayed || f.flushing

/-- `submit_to_queue_locked`, with what `queue_submit_locked` decides. -/
def submit (f : WorkFlags) (accepted : Bool) : WorkFlags :=
  if f.canceling then f else if f.queued then f else { f with queued := accepted }

/-- `cancel_async_locked`: the item is taken off its queue, and if it is still busy it is marked. -/
def cancelAsync (f : WorkFlags) : WorkFlags :=
  let f' := if f.canceling then f else { f with queued := false }
  if f'.busy then { f' with canceling := true } else f'

end WorkFlags

/-- Flags of the items, the waiting cancellers with their items, the calls whose semaphores were
given, and the number of calls that had to wait. -/
structure WorkSys where
  flags : ℕ → WorkFlags
  pendingCancels : List (ℕ × ℕ)
  given : List ℕ
  calls : ℕ

inductive WorkOp
  | submit (work : ℕ) (accepted : Bool)
  | schedule (work : ℕ)
  | unschedule (work : ℕ)
  | timeout (work : ℕ) (accepted : Bool)
  | flush (work flusher : ℕ)
  | take (work : ℕ)
  | complete (work : ℕ)
  | cancel (work : ℕ)
  | cancelDelayable (work : ℕ)
  | cancelSync (work : ℕ)
  | cancelDelayableSync (work : ℕ)
deriving DecidableEq, Repr

namespace WorkSys

def init : WorkSys := ⟨fun _ => ⟨false, false, false, false, false⟩, [], [], 0⟩

def set (s : WorkSys) (work : ℕ) (f : WorkFlags) : WorkSys :=
  { s with flags := Function.update s.flags work f }

/-- `finalize_cancel_locked` -/
def finalizeCancel (s : WorkSys) (work : ℕ) : WorkSys :=
  { s with
    flags := Function.update s.flags work { s.flags work with canceling := false }
    pendingCancels := s.pendingCancels.eraseP fun wc => wc.2 == work
    given := s.given ++ ((s.pendingCancels.find? fun wc => wc.2 == work).map Prod.fst).toList }

/-- Section of `work_queue_main` after the handler. -/
def complete (s : WorkSys) (work : ℕ) : WorkSys :=
  let s' := s.set work { s.flags work with running := false, flushing := false }
  if (s.flags work).canceling then s'.finalizeCancel work else s'

/-- `k_work_cancel_sync` up to the wait, with the flags after the part of a delayable item. -/
def cancelSync (s : WorkSys) (work : ℕ) (f : WorkFlags) : WorkSys :=
  if (s.flags work).busy then
    let s' := s.set work f.cancelAsync
    if f.cancelAsync.canceling then
      { s' with pendingCancels := s.pendingCancels ++ [(s.calls, work)], calls := s.calls + 1 }
    else s'
  else s

/-- A section; one that cannot be entered changes nothing. -/
def step (s : WorkSys) : WorkOp → WorkSys
  | .submit work accepted => s.set work ((s.flags work).submit accepted)
  | .schedule work => s.set work { s.flags work with delayed := true }
  | .unschedule work => s.set work { s.flags work with delayed := false }
  | .timeout work accepted =>
    if (s.flags work).delayed then
      s.set work ({ s.flags work with delayed := false }.submit accepted)
    else s
  | .flush work flusher =>
    if ((s.flags work).queued || (s.flags work).running) && !(s.flags flusher).busy then
      s.set flusher { s.flags flusher with queued := true, flushing := true }
    else s
  | .take work =>
    if (s.flags work).queued then
      s.set work { s.flags work with running := true, queued := false }
    else s
  | .complete work => if (s.flags work).running then s.complete work else s
  | .cancel work => s.set work (s.flags work).cancelAsync
  | .cancelDelayable work => s.set work { s.flags work with delayed := false }.cancelAsync
  | .cancelSync work => s.cancelSync work (s.flags work)
  | .cancelDelayableSync work => s.cancelSync work { s.flags work with delayed := false }

def run (s : WorkSys) (ops : List WorkOp) : WorkSys := ops.foldl step s

/-- Every canceller that waits cancels an item that is marked, and no two the same one. -/
structure Inv (s : WorkSys) : Prop where
  canceling : ∀ wc ∈ s.pendingCancels, (s.flags wc.2).canceling = true
  one : (s.pendingCancels.map Prod.snd).Nodup

end WorkSys

/-- An item is not cancelled by a second thread while one waits. -/
def WorkOp.OneCanceller (s : WorkSys) : WorkOp → Prop
  | .cancelSync work => work ∉ s.pendingCancels.map Prod.snd
  | .cancelDelayableSync work => work ∉ s.pendingCancels.map Prod.snd
  | _ => True

def WorkSys.OneCanceller (s : WorkSys) : List WorkOp → Prop
  | [] => True
  | op :: ops => op.OneCanceller s ∧ (s.step op).OneCanceller ops

/-! ### Invariant -/

namespace WorkFlags

variable {f : WorkFlags}

theorem canceling_submit (h : f.canceling = true) (accepted : Bool) :
    (f.submit accepted).canceling = true := by
  rw [submit, if_pos h]
  exact h

theorem canceling_cancelAsync (h : f.canceling = true) : f.cancelAsync.canceling = true := by
  have hbusy : f.busy = true := by simp [busy, h]
  rw [cancelAsync, if_pos h, if_pos hbusy]

end WorkFlags

namespace WorkSys

variable {s : WorkSys}

variable {work : ℕ} {f : WorkFlags} {wc : ℕ × ℕ}

theorem Inv.set (hi : s.Inv)
    (hf : (s.flags work).canceling = true → f.canceling = true) : (s.set work f).Inv := by
  refine ⟨fun wc hwc => ?_, hi.one⟩
  have h := hi.canceling wc hwc
  simp only [WorkSys.set]
  by_cases hw : wc.2 = work
  · rw [hw, Function.update_self]
    rw [hw] at h
    exact hf h
  · rw [Function.update_of_ne hw]
    exact h

theorem Inv.cancelSync (hi : s.Inv) (hf : (s.flags work).canceling = true → f.canceling = true)
    (hone : work ∉ s.pendingCancels.map Prod.snd) : (s.cancelSync work f).Inv := by
  have hset : (s.set work f.cancelAsync).Inv :=
    hi.set fun h => WorkFlags.canceling_cancelAsync (hf h)
  unfold WorkSys.cancelSync
  split_ifs with hbusy hmark
  · refine ⟨fun wc hwc => ?_, ?_⟩
    · rcases mem_append.1 hwc with hwc | hwc
      · exact hset.canceling wc hwc
      · obtain rfl := mem_singleton.1 hwc
        exact (congrArg WorkFlags.canceling (Function.update_self ..)).trans hmark
    rw [map_append, nodup_append]
    refine ⟨hi.one, nodup_singleton _, ?_⟩
    rintro w hw _ hw' rfl
    obtain rfl : w = work := mem_singleton.1 hw'
    exact hone hw
  · exact hset
  · exact hi

theorem mem_finalizeCancel (h : wc ∈ (s.finalizeCancel work).pendingCancels)
    (hone : (s.pendingCancels.map Prod.snd).Nodup) : wc ∈ s.pendingCancels ∧ wc.2 ≠ work := by
  have hmem := mem_of_mem_eraseP h
  refine ⟨hmem, fun hw => ?_⟩
  obtain ⟨wc', l₁, l₂, -, hwc', hl, herase⟩ :=
    exists_of_eraseP (p := fun x : ℕ × ℕ => x.2 == work) hmem (beq_iff_eq.2 hw)
  rw [hl, map_append, map_cons, nodup_middle, nodup_cons] at hone
  refine hone.1 ?_
  rw [finalizeCancel, herase] at h
  rw [← map_append, beq_iff_eq.1 hwc', ← hw]
  exact mem_map_of_mem h

theorem Inv.complete (hi : s.Inv) (work : ℕ) : (s.complete work).Inv := by
  have hset := hi.set (f := { s.flags work with running := false, flushing := false }) id
  unfold WorkSys.complete
  split_ifs with hmark
  · refine ⟨fun wc hwc => ?_, hi.one.sublist (eraseP_sublist.map Prod.snd)⟩
    obtain ⟨hmem, hne⟩ := mem_finalizeCancel hwc hset.one
    simp only [finalizeCancel, Function.update_of_ne hne]
    exact hset.canceling wc hmem
  · exact hset

/-- **One step** keeps the invariant. -/
theorem Inv.step (hi : s.Inv) (op : WorkOp) (hop : op.OneCanceller s) : (s.step op).Inv := by
  cases op with
  | submit work accepted => exact hi.set fun h => WorkFlags.canceling_submit h accepted
  | schedule work => exact hi.set id
  | unschedule work => exact hi.set id
  | timeout work accepted =>
    simp only [WorkSys.step]
    split_ifs
    · refine hi.set fun h => WorkFlags.canceling_submit ?_ accepted
      exact h
    · exact hi
  | flush work flusher =>
    simp only [WorkSys.step]
    split_ifs
    · exact hi.set id
    · exact hi
  | take work =>
    simp only [WorkSys.step]
    split_ifs
    · exact hi.set id
    · exact hi
  | complete work =>
    simp only [WorkSys.step]
    split_ifs
    · exact hi.complete work
    · exact hi
  | cancel work => exact hi.set WorkFlags.canceling_cancelAsync
  | cancelDelayable work => exact hi.set fun h => WorkFlags.canceling_cancelAsync h
  | cancelSync work => exact hi.cancelSync id hop
  | cancelDelayableSync work => exact hi.cancelSync id hop

theorem Inv.run (hi : s.Inv) (ops : List WorkOp) (hops : s.OneCanceller ops) : (s.run ops).Inv := by
  induction ops generalizing s with
  | nil => exact hi
  | cons op ops ih => exact ih (hi.step op hops.1) hops.2

theorem Inv.given_complete (hi : s.Inv) (h : wc ∈ s.pendingCancels) :
    wc.1 ∈ (s.complete wc.2).given ∧ ∀ wc' ∈ (s.complete wc.2).pendingCancels, wc'.2 ≠ wc.2 := by
  unfold WorkSys.complete
  rw [if_pos (hi.canceling wc h)]
  refine ⟨?_, fun wc' hwc' => (mem_finalizeCancel hwc' hi.one).2⟩
  have hfind : s.pendingCancels.find? (fun x => x.2 == wc.2) = some wc := by
    obtain ⟨x, hx⟩ := Option.isSome_iff_exists.1
      (List.find?_isSome.2 ⟨wc, h, beq_iff_eq.2 rfl⟩ :
        (s.pendingCancels.find? fun x => x.2 == wc.2).isSome)
    have heq := List.find?_some (p := fun x : ℕ × ℕ => x.2 == wc.2) hx
    rw [hx, inj_on_of_nodup_map hi.one (mem_of_find?_eq_some hx) h (beq_iff_eq.1 heq)]
  simp only [finalizeCancel, WorkSys.set, hfind, Option.map_some, Option.toList_some, mem_append,
    mem_singleton, or_true]

end WorkSys

/-- **No canceller is left behind**, in every run in which no item is cancelled by a second thread
while one waits: it waits for an item that is marked, and when the handler completes, its semaphore
is given. -/
theorem no_canceller_left (ops : List WorkOp) (s : WorkSys) (hs : s = WorkSys.init.run ops)
    (hone : WorkSys.init.OneCanceller ops) :
    ∀ wc ∈ s.pendingCancels, (s.flags wc.2).canceling = true ∧
      wc.1 ∈ (s.complete wc.2).given ∧ ∀ wc' ∈ (s.complete wc.2).pendingCancels, wc'.2 ≠ wc.2 := by
  have hinit : WorkSys.init.Inv := ⟨fun _ h => absurd h not_mem_nil, nodup_nil⟩
  have hi : s.Inv := hs ▸ hinit.run ops hone
  exact fun wc hwc => ⟨hi.canceling wc hwc, hi.given_complete hwc⟩

/-- A thread that cancels an item while it runs. -/
theorem no_canceller_left_one : ∃ s : WorkSys,
    s = WorkSys.init.run [.submit 0 true, .take 0, .cancelSync 0] ∧ (0, 0) ∈ s.pendingCancels ∧
      0 ∈ (s.complete 0).given :=
  ⟨_, rfl, by decide, (no_canceller_left [.submit 0 true, .take 0, .cancelSync 0] _ rfl
    ⟨trivial, trivial, not_mem_nil, trivial⟩ (0, 0) (by decide)).2.1⟩

/-- **The second of two threads that cancel an item while it runs** is left in `pending_cancels`. -/
theorem second_canceller_left : ∃ s : WorkSys,
    s = WorkSys.init.run [.submit 0 true, .take 0, .cancelSync 0, .cancelSync 0, .complete 0] ∧
      s.pendingCancels = [(1, 0)] ∧ s.given = [0] ∧ (s.flags 0).canceling = false :=
  ⟨_, rfl, by decide, by decide, by decide⟩

end TlZephyr
