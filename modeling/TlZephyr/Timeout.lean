import TlZephyr.Errno
import TlZephyr.Lib.DeltaList

/-!
# Timeout Queue

Model of `timeout.c`: the list of pending timeouts as a delta list, the current tick and
the ticks `sys_clock_announce` has still to process. A step is a section under `timeout_lock`:
`z_add_timeout`, `z_abort_timeout`, the start of `sys_clock_announce` up to its first callback
or its end, and the return of a callback up to the next one. Several calls of `sys_clock_announce`
may be inside callbacks at once, each with the ticks it took off the list; between two sections
anything may happen, so a callback may add and abort what it likes.

Calls of `z_add_timeout` are numbered, and the log says which was added with which expiry, aborted,
or fired at which tick. Ticks are unbounded.
-/

namespace TlZephyr

open DeltaList List

/-! ### Queue -/

/-- A timeout in the list: its `struct _timeout`, and the call that added it. -/
structure Timeout where
  node : ℕ
  call : ℕ
deriving DecidableEq, Repr

/-- `k_timeout_t`: `K_FOREVER`, a number of ticks, or (with `CONFIG_TIMEOUT_64BIT`) a tick. -/
inductive KTimeout
  | forever
  | ticks (ticks : ℕ)
  | absTicks (tick : ℕ)
deriving DecidableEq, Repr

/-- Static data of `timeout.c`. -/
structure TimeoutQueue where
  currTick : ℤ
  timeoutList : List (Timeout × ℤ)
  announceRemaining : ℤ
deriving DecidableEq, Repr

namespace TimeoutQueue

/-- `elapsed`, where `sys_clock_elapsed` is what the timer driver returns. -/
def elapsed (q : TimeoutQueue) (sysClockElapsed : ℕ) : ℤ :=
  if q.announceRemaining = 0 then sysClockElapsed else 0

/-- Ticks from `curr_tick` to the expiry of a timeout to add. -/
def dticks (q : TimeoutQueue) (sysClockElapsed : ℕ) : KTimeout → ℤ
  | .forever => 0
  | .ticks ticks => ticks + 1 + q.elapsed sysClockElapsed
  | .absTicks tick => max 1 (tick - q.currTick)

def zAddTimeout (q : TimeoutQueue) (t : Timeout) (timeout : KTimeout) (sysClockElapsed : ℕ) :
    TimeoutQueue :=
  if timeout = .forever then q
  else { q with timeoutList := insertDelta (t, q.dticks sysClockElapsed timeout) q.timeoutList }

/-- Whether a `struct _timeout` is in the list. -/
def linked (q : TimeoutQueue) (node : ℕ) : Option (Timeout × ℤ) :=
  q.timeoutList.find? fun x => x.1.node == node

def zAbortTimeout (q : TimeoutQueue) (node : ℕ) : TimeoutQueue × ℤ :=
  if (q.linked node).isSome then
    ({ q with timeoutList := remove (fun t => t.node == node) q.timeoutList }, 0)
  else (q, -EINVAL)

def timeoutRem (node : ℕ) : List (Timeout × ℤ) → ℤ
  | [] => 0
  | x :: l => if x.1.node = node then x.2 else x.2 + timeoutRem node l

def zTimeoutExpires (q : TimeoutQueue) (node : ℕ) : ℤ :=
  if (q.linked node).isSome then q.currTick + timeoutRem node q.timeoutList else q.currTick

/-- Loop of `sys_clock_announce` up to the next callback, with the timeout that fires and its
`dt`, or to its end. -/
def announceTurn (q : TimeoutQueue) : TimeoutQueue × Option (Timeout × ℤ) :=
  match q.timeoutList with
  | [] => ({ q with currTick := q.currTick + q.announceRemaining, announceRemaining := 0 }, none)
  | x :: l =>
    if x.2 ≤ q.announceRemaining then
      -- its `dticks` are cleared before `remove_timeout`, so the next one takes over nothing
      ({ q with currTick := q.currTick + x.2, timeoutList := carry 0 l }, some x)
    else
      ({ currTick := q.currTick + q.announceRemaining
         timeoutList := (x.1, x.2 - q.announceRemaining) :: l
         announceRemaining := 0 }, none)

end TimeoutQueue

/-! ### Runs -/

inductive TimeoutEvent
  | added (call : ℕ) (expiry : ℤ)
  | aborted (call : ℕ)
  | fired (call : ℕ) (tick : ℤ)
deriving DecidableEq, Repr

namespace TimeoutEvent

def added? : TimeoutEvent → Option (ℕ × ℤ)
  | .added call expiry => some (call, expiry)
  | _ => none

def aborted? : TimeoutEvent → Option ℕ
  | .aborted call => some call
  | _ => none

def fired? : TimeoutEvent → Option (ℕ × ℤ)
  | .fired call tick => some (call, tick)
  | _ => none

end TimeoutEvent

/-- A section under `timeout_lock`. -/
inductive TimeoutOp
  | add (node : ℕ) (timeout : KTimeout) (sysClockElapsed : ℕ)
  | abort (node : ℕ)
  | announce (ticks : ℕ)
  | callbackReturn (which : ℕ)
deriving DecidableEq, Repr

/-- The queue, the running callbacks with their `dt`, how many timeouts were added and ticks
announced, and the log. -/
structure TimeoutSys where
  queue : TimeoutQueue
  callbacks : List (Timeout × ℤ)
  calls : ℕ
  announced : ℤ
  log : List TimeoutEvent
deriving DecidableEq, Repr

open TimeoutEvent

namespace TimeoutSys

def init : TimeoutSys := ⟨⟨0, [], 0⟩, [], 0, 0, []⟩

/-- A loop of `sys_clock_announce` goes on. -/
def turn (s : TimeoutSys) : TimeoutSys :=
  match s.queue.announceTurn with
  | (q, none) => { s with queue := q }
  | (q, some x) =>
    { s with
      queue := q
      callbacks := s.callbacks ++ [x]
      log := s.log ++ [.fired x.1.call q.currTick] }

/-- `z_add_timeout`, of a `struct _timeout` that is not in the list. -/
def add (s : TimeoutSys) (node : ℕ) (timeout : KTimeout) (sysClockElapsed : ℕ) : TimeoutSys :=
  if (s.queue.linked node).isSome ∨ timeout = .forever then s
  else
    let q := s.queue.zAddTimeout ⟨node, s.calls⟩ timeout sysClockElapsed
    { s with
      queue := q
      calls := s.calls + 1
      log := s.log ++ [.added s.calls (q.zTimeoutExpires node)] }

/-- `z_abort_timeout`. -/
def abort (s : TimeoutSys) (node : ℕ) : TimeoutSys :=
  match s.queue.linked node with
  | none => s
  | some x =>
    { s with queue := (s.queue.zAbortTimeout node).1, log := s.log ++ [.aborted x.1.call] }

/-- `sys_clock_announce` up to its first callback. -/
def announce (smp : Bool) (s : TimeoutSys) (ticks : ℕ) : TimeoutSys :=
  let s := { s with announced := s.announced + ticks }
  if smp = true ∧ s.queue.announceRemaining ≠ 0 then
    { s with queue := { s.queue with announceRemaining := s.queue.announceRemaining + ticks } }
  else turn { s with queue := { s.queue with announceRemaining := ticks } }

def callbackReturn (s : TimeoutSys) (which : ℕ) : TimeoutSys :=
  match s.callbacks[which]? with
  | none => s
  | some x =>
    turn { s with
      callbacks := s.callbacks.eraseIdx which
      queue := { s.queue with announceRemaining := s.queue.announceRemaining - x.2 } }

def step (smp : Bool) (s : TimeoutSys) : TimeoutOp → TimeoutSys
  | .add node timeout sysClockElapsed => s.add node timeout sysClockElapsed
  | .abort node => s.abort node
  | .announce ticks => s.announce smp ticks
  | .callbackReturn which => s.callbackReturn which

def run (smp : Bool) (s : TimeoutSys) (ops : List TimeoutOp) : TimeoutSys :=
  ops.foldl (step smp) s

def added (s : TimeoutSys) : List (ℕ × ℤ) := s.log.filterMap added?

/-- Timeouts for which `z_abort_timeout` returned 0. -/
def aborted (s : TimeoutSys) : List ℕ := s.log.filterMap aborted?

/-- Timeouts whose callbacks ran, each with `curr_tick` at that moment. -/
def fired (s : TimeoutSys) : List (ℕ × ℤ) := s.log.filterMap fired?

def pending (s : TimeoutSys) : List ℕ := s.queue.timeoutList.map fun x => x.1.call

end TimeoutSys

/-- The order in which timeouts are due: by expiry, and in the order of the calls. -/
def TimeoutBefore (x y : ℕ × ℤ) : Prop := x.2 < y.2 ∨ x.2 = y.2 ∧ x.1 < y.1

instance (x y : ℕ × ℤ) : Decidable (TimeoutBefore x y) :=
  inferInstanceAs (Decidable (_ ∨ _))

/-- `sys_clock_announce` is not entered while another call is in a callback, unless that will see
the new ticks (`CONFIG_SMP`). -/
def TimeoutOp.OneLoop (smp : Bool) (s : TimeoutSys) : TimeoutOp → Prop
  | .announce _ => s.callbacks ≠ [] → smp = true ∧ s.queue.announceRemaining ≠ 0
  | _ => True

def TimeoutSys.OneLoop (smp : Bool) (s : TimeoutSys) : List TimeoutOp → Prop
  | [] => True
  | op :: ops => op.OneLoop smp s ∧ (s.step smp op).OneLoop smp ops

/-! ### Invariant -/

namespace TimeoutQueue

/-- Pending timeouts with the ticks at which they expire. -/
def expiries (q : TimeoutQueue) : List (Timeout × ℤ) := times q.currTick q.timeoutList

theorem one_le_dticks (q : TimeoutQueue) (sysClockElapsed : ℕ) {timeout : KTimeout}
    (h : timeout ≠ .forever) : 1 ≤ q.dticks sysClockElapsed timeout := by
  cases timeout with
  | forever => exact absurd rfl h
  | ticks ticks =>
    simp only [dticks, elapsed]
    split <;> omega
  | absTicks tick => exact le_max_left _ _

theorem timeoutRem_insertDelta (t : Timeout) (d : ℤ) (l : List (Timeout × ℤ))
    (h : ∀ x ∈ l, x.1.node ≠ t.node) : timeoutRem t.node (insertDelta (t, d) l) = d := by
  induction l generalizing d with
  | nil => simp [insertDelta, timeoutRem]
  | cons x l ih =>
    by_cases hlt : d < x.2
    · rw [insertDelta, if_pos hlt, timeoutRem, if_pos rfl]
    · rw [insertDelta, if_neg hlt, timeoutRem, if_neg (h x (by simp)),
        ih (d - x.2) fun y hy => h y (by simp [hy])]
      omega

theorem mem_insertDelta (t : Timeout) (d : ℤ) (l : List (Timeout × ℤ)) :
    ∃ e, (t, e) ∈ insertDelta (t, d) l := by
  induction l generalizing d with
  | nil => exact ⟨d, by simp [insertDelta]⟩
  | cons x l ih =>
    by_cases hlt : d < x.2
    · exact ⟨d, by simp [insertDelta, hlt]⟩
    · obtain ⟨e, he⟩ := ih (d - x.2)
      exact ⟨e, by simp [insertDelta, hlt, he]⟩

/-- **The expiry of an added timeout** is its distance; it is queued behind those that are not
later. -/
theorem zAddTimeout_spec (q : TimeoutQueue) (t : Timeout) {timeout : KTimeout}
    (sysClockElapsed : ℕ) (hnew : q.linked t.node = none) (h : timeout ≠ .forever) :
    (q.zAddTimeout t timeout sysClockElapsed).zTimeoutExpires t.node =
        q.currTick + q.dticks sysClockElapsed timeout ∧
      (q.zAddTimeout t timeout sysClockElapsed).expiries =
        place (t, q.currTick + q.dticks sysClockElapsed timeout) q.expiries := by
  have hfresh : ∀ x ∈ q.timeoutList, x.1.node ≠ t.node := by
    intro x hx
    simpa using List.find?_eq_none.mp hnew x hx
  rw [zAddTimeout, if_neg h]
  constructor
  · obtain ⟨e, he⟩ := mem_insertDelta t (q.dticks sysClockElapsed timeout) q.timeoutList
    rw [zTimeoutExpires, if_pos, timeoutRem_insertDelta t _ _ hfresh]
    rw [linked, List.find?_isSome]
    exact ⟨_, he, by simp⟩
  · exact times_insertDelta _ _ _

theorem expiries_zAbortTimeout (q : TimeoutQueue) (node : ℕ) :
    (q.zAbortTimeout node).1.expiries = q.expiries.eraseP fun x => x.1.node == node := by
  by_cases hlinked : (q.linked node).isSome = true
  · rw [zAbortTimeout, if_pos hlinked]
    exact times_remove _ _ _
  rw [zAbortTimeout, if_neg hlinked, eraseP_of_forall_not]
  intro x hx
  have hfst : x.1 ∈ q.timeoutList.map Prod.fst := by
    rw [← map_fst_times q.currTick]
    exact mem_map_of_mem hx
  obtain ⟨y, hy, hyx⟩ := mem_map.mp hfst
  simp only [linked, Option.not_isSome_iff_eq_none, List.find?_eq_none] at hlinked
  rw [← hyx]
  exact hlinked y hy

end TimeoutQueue

open TimeoutQueue

namespace TimeoutSys

/-- A pending timeout as the pair of its call and its expiry. -/
def due (x : Timeout × ℤ) : ℕ × ℤ := (x.1.call, x.2)

/-- What the log and the list say about each other. -/
structure Books (s : TimeoutSys) : Prop where
  added : s.added.map Prod.fst = List.range s.calls
  accounted : (s.pending ++ s.aborted ++ s.fired.map Prod.fst).Perm (List.range s.calls)
  pendingAdded : ∀ x ∈ s.queue.expiries, due x ∈ s.added
  firedAdded : ∀ x ∈ s.fired, x ∈ s.added
  order : s.queue.expiries.Pairwise fun x y => TimeoutBefore (due x) (due y)
  firedOrder : s.fired.Pairwise TimeoutBefore
  firedFirst : ∀ x ∈ s.fired, ∀ y ∈ s.queue.expiries, TimeoutBefore x (due y)
  past : ∀ x ∈ s.fired, x.2 ≤ s.queue.currTick

/-- The clock outside `sys_clock_announce`, and while one loop of it is inside a callback. -/
structure Inv (s : TimeoutSys) : Prop extends Books s where
  clock : (s.callbacks = [] ∧ s.queue.announceRemaining = 0 ∧ s.queue.currTick = s.announced ∧
      ∀ x ∈ s.queue.expiries, s.queue.currTick < x.2) ∨
    ∃ c, s.callbacks = [c] ∧ 0 ≤ c.2 ∧ c.2 ≤ s.queue.announceRemaining ∧
      s.queue.currTick + s.queue.announceRemaining - c.2 = s.announced ∧
      ∀ x ∈ s.queue.expiries, s.queue.currTick ≤ x.2

theorem pending_eq (s : TimeoutSys) : s.pending = s.queue.expiries.map fun x => x.1.call := by
  have h := congrArg (List.map Timeout.call) (map_fst_times s.queue.currTick s.queue.timeoutList)
  rw [map_map, map_map] at h
  exact h.symm

theorem inv_init : init.Inv where
  added := rfl
  accounted := .nil
  pendingAdded := by simp [init, expiries]
  firedAdded := by simp [init, fired]
  order := .nil
  firedOrder := .nil
  firedFirst := by simp [init, fired]
  past := by simp [init, fired]
  clock := .inl ⟨rfl, rfl, rfl, by simp [init, expiries]⟩

namespace Books

variable {s : TimeoutSys}

theorem congr (h : s.Books) {s' : TimeoutSys} (hlog : s'.log = s.log) (hcalls : s'.calls = s.calls)
    (hexp : s'.queue.expiries = s.queue.expiries)
    (htick : s.queue.currTick ≤ s'.queue.currTick) : s'.Books := by
  have hadded : s'.added = s.added := by rw [TimeoutSys.added, hlog, ← TimeoutSys.added]
  have haborted : s'.aborted = s.aborted := by rw [aborted, hlog, ← aborted]
  have hfired : s'.fired = s.fired := by rw [fired, hlog, ← fired]
  have hpending : s'.pending = s.pending := by rw [pending_eq, hexp, ← pending_eq]
  refine ⟨?_, ?_, ?_, ?_, ?_, ?_, ?_, fun x hx => ?_⟩
  · rw [hadded, hcalls, h.added]
  · rw [hpending, haborted, hfired, hcalls]
    exact h.accounted
  · rw [hexp, hadded]
    exact h.pendingAdded
  · rw [hfired, hadded]
    exact h.firedAdded
  · rw [hexp]
    exact h.order
  · rw [hfired]
    exact h.firedOrder
  · rw [hfired, hexp]
    exact h.firedFirst
  · rw [hfired] at hx
    exact (h.past x hx).trans htick

/-- **The first timeout fires** at its expiry. -/
theorem fire (h : s.Books) {x : Timeout × ℤ} {l : List (Timeout × ℤ)}
    (hlist : s.queue.timeoutList = x :: l) (hnonneg : 0 ≤ x.2) {s' : TimeoutSys}
    (hq : s'.queue.expiries = times (s.queue.currTick + x.2) l)
    (htick : s'.queue.currTick = s.queue.currTick + x.2) (hcalls : s'.calls = s.calls)
    (hlog : s'.log = s.log ++ [.fired x.1.call (s.queue.currTick + x.2)]) : s'.Books := by
  have hexp : s.queue.expiries = (x.1, s.queue.currTick + x.2) :: s'.queue.expiries := by
    rw [hq, expiries, hlist, times_cons]
  have hadded : s'.added = s.added := by
    simp [TimeoutSys.added, hlog, added?]
  have haborted : s'.aborted = s.aborted := by
    simp [aborted, hlog, aborted?]
  have hfired : s'.fired = s.fired ++ [(x.1.call, s.queue.currTick + x.2)] := by
    simp [fired, hlog, fired?]
  have hpending : s.pending = x.1.call :: s'.pending := by
    rw [pending_eq, hexp, map_cons, pending_eq]
  have horder := h.order
  rw [hexp] at horder
  obtain ⟨hfirst, hrest⟩ := pairwise_cons.mp horder
  refine ⟨?_, ?_, fun y hy => ?_, fun y hy => ?_, hrest, ?_, fun y hy z hz => ?_, fun y hy => ?_⟩
  · rw [hadded, hcalls, h.added]
  · have := h.accounted
    rw [hpending] at this
    rw [haborted, hfired, hcalls, map_append, map_singleton, ← append_assoc]
    exact perm_append_comm.trans this
  · rw [hadded]
    exact h.pendingAdded y (by simp [hexp, hy])
  · rw [hfired] at hy
    rw [hadded]
    rcases mem_append.mp hy with hy | hy
    · exact h.firedAdded y hy
    · obtain rfl := mem_singleton.mp hy
      exact h.pendingAdded (x.1, s.queue.currTick + x.2) (by simp [hexp])
  · rw [hfired]
    refine pairwise_append.mpr ⟨h.firedOrder, pairwise_singleton _ _, fun y hy z hz => ?_⟩
    obtain rfl := mem_singleton.mp hz
    exact h.firedFirst y hy (x.1, s.queue.currTick + x.2) (by simp [hexp])
  · rw [hfired] at hy
    rcases mem_append.mp hy with hy | hy
    · exact h.firedFirst y hy z (by simp [hexp, hz])
    · obtain rfl := mem_singleton.mp hy
      exact hfirst z hz
  rw [hfired] at hy
  rw [htick]
  rcases mem_append.mp hy with hy | hy
  · have := h.past y hy
    omega
  · obtain rfl := mem_singleton.mp hy
    exact le_rfl

/-- **A timeout is added** with an expiry after the current tick. -/
theorem add (h : s.Books) (node : ℕ) {expiry : ℤ} (hexpiry : s.queue.currTick < expiry)
    {s' : TimeoutSys} (hq : s'.queue.expiries = place (⟨node, s.calls⟩, expiry) s.queue.expiries)
    (htick : s'.queue.currTick = s.queue.currTick) (hcalls : s'.calls = s.calls + 1)
    (hlog : s'.log = s.log ++ [.added s.calls expiry]) : s'.Books := by
  have hadded : s'.added = s.added ++ [(s.calls, expiry)] := by
    simp [TimeoutSys.added, hlog, added?]
  have haborted : s'.aborted = s.aborted := by
    simp [aborted, hlog, aborted?]
  have hfired : s'.fired = s.fired := by
    simp [fired, hlog, fired?]
  have hmem : ∀ y ∈ s'.queue.expiries, y = (⟨node, s.calls⟩, expiry) ∨ y ∈ s.queue.expiries := by
    intro y hy
    rw [hq] at hy
    exact mem_cons.mp ((perm_place _ _).mem_iff.mp hy)
  have hpending : s'.pending.Perm (s.calls :: s.pending) := by
    rw [pending_eq, pending_eq, hq]
    exact (perm_place _ _).map _
  -- a call in the list is an earlier one
  have hcall : ∀ y ∈ s.queue.expiries, y.1.call < s.calls := by
    intro y hy
    have : y.1.call ∈ s.added.map Prod.fst := mem_map_of_mem (h.pendingAdded y hy)
    rw [h.added] at this
    exact mem_range.mp this
  refine ⟨?_, ?_, fun y hy => ?_, fun y hy => ?_, ?_, ?_, fun y hy z hz => ?_, fun y hy => ?_⟩
  · rw [hadded, map_append, h.added, hcalls, range_succ]
    rfl
  · rw [haborted, hfired, hcalls, range_succ]
    have hcons : (s'.pending ++ s.aborted ++ s.fired.map Prod.fst).Perm
        (s.calls :: (s.pending ++ s.aborted ++ s.fired.map Prod.fst)) :=
      (hpending.append_right _).append_right _
    exact hcons.trans ((h.accounted.cons _).trans (perm_append_singleton _ _).symm)
  · rw [hadded]
    rcases hmem y hy with rfl | hy
    · exact mem_append_right _ (mem_singleton.mpr rfl)
    · exact mem_append_left _ (h.pendingAdded y hy)
  · rw [hfired] at hy
    rw [hadded]
    exact mem_append_left _ (h.firedAdded y hy)
  · rw [hq]
    refine pairwise_place (fun y z hyz => ?_) h.order (fun y hy hle => ?_) fun y hy hlt => .inl hlt
    · rcases hyz with hlt | ⟨heq, -⟩
      exacts [hlt.le, heq.le]
    · rcases lt_or_eq_of_le hle with hlt | heq
      exacts [.inl hlt, .inr ⟨heq, hcall y hy⟩]
  · rw [hfired]
    exact h.firedOrder
  · rw [hfired] at hy
    rcases hmem z hz with rfl | hz
    · exact .inl (lt_of_le_of_lt (h.past y hy) hexpiry)
    · exact h.firedFirst y hy z hz
  · rw [hfired] at hy
    rw [htick]
    exact h.past y hy

/-- **A pending timeout is aborted.** -/
theorem abort (h : s.Books) {node : ℕ} {x : Timeout × ℤ} {s' : TimeoutSys}
    (hx : s.queue.expiries.find? (fun x => x.1.node == node) = some x)
    (hq : s'.queue.expiries = s.queue.expiries.eraseP fun x => x.1.node == node)
    (htick : s'.queue.currTick = s.queue.currTick) (hcalls : s'.calls = s.calls)
    (hlog : s'.log = s.log ++ [.aborted x.1.call]) : s'.Books := by
  have hadded : s'.added = s.added := by
    simp [TimeoutSys.added, hlog, added?]
  have haborted : s'.aborted = s.aborted ++ [x.1.call] := by
    simp [aborted, hlog, aborted?]
  have hfired : s'.fired = s.fired := by
    simp [fired, hlog, fired?]
  have hmem : ∀ y ∈ s'.queue.expiries, y ∈ s.queue.expiries := by
    intro y hy
    rw [hq] at hy
    exact mem_of_mem_eraseP hy
  have hpending : s.pending.Perm (x.1.call :: s'.pending) := by
    rw [pending_eq, pending_eq, hq]
    exact (perm_cons_eraseP hx).map _
  refine ⟨?_, ?_, fun y hy => ?_, ?_, ?_, ?_, fun y hy z hz => ?_, ?_⟩
  · rw [hadded, hcalls, h.added]
  · rw [haborted, hfired, hcalls]
    refine List.Perm.trans ?_ h.accounted
    refine List.Perm.append_right _ ?_
    rw [← append_assoc]
    exact perm_append_comm.trans (hpending.symm.append_right _)
  · rw [hadded]
    exact h.pendingAdded y (hmem y hy)
  · rw [hfired, hadded]
    exact h.firedAdded
  · rw [hq]
    exact h.order.sublist (eraseP_sublist)
  · rw [hfired]
    exact h.firedOrder
  · rw [hfired] at hy
    exact h.firedFirst y hy z (hmem z hz)
  · rw [hfired, htick]
    exact h.past

/-- **A loop of `sys_clock_announce` goes on**: it fires the first timeout, or ends. -/
theorem turn (h : s.Books) (hcallbacks : s.callbacks = [])
    (hremaining : 0 ≤ s.queue.announceRemaining)
    (hclock : s.queue.currTick + s.queue.announceRemaining = s.announced)
    (hdue : ∀ x ∈ s.queue.expiries, s.queue.currTick ≤ x.2) : s.turn.Inv := by
  rcases hlist : s.queue.timeoutList with _ | ⟨x, l⟩
  · simp only [TimeoutSys.turn, announceTurn, hlist]
    refine ⟨h.congr rfl rfl ?_ ?_, .inl ⟨hcallbacks, rfl, hclock, ?_⟩⟩
    · simp only [expiries, hlist, times_nil]
    · simp only
      omega
    · simp [expiries]
  have hexp : s.queue.expiries =
      (x.1, s.queue.currTick + x.2) :: times (s.queue.currTick + x.2) l := by
    rw [expiries, hlist, times_cons]
  have horder := h.order
  rw [hexp] at horder hdue
  have hx := hdue _ (mem_cons_self)
  -- whatever comes later is not due before the first
  have hlater : ∀ y ∈ times (s.queue.currTick + x.2) l, s.queue.currTick + x.2 ≤ y.2 := by
    intro y hy
    rcases (pairwise_cons.mp horder).1 y hy with hlt | ⟨heq, -⟩
    exacts [hlt.le, heq.le]
  by_cases hfire : x.2 ≤ s.queue.announceRemaining
  · simp only [TimeoutSys.turn, announceTurn, hlist, if_pos hfire, carry_zero]
    refine ⟨h.fire hlist (by simpa using hx) rfl rfl rfl rfl, .inr ⟨x, ?_, ?_, hfire, ?_, hlater⟩⟩
    · simp only [hcallbacks, nil_append]
    · simpa using hx
    · simp only
      omega
  simp only [TimeoutSys.turn, announceTurn, hlist, if_neg hfire]
  have hsame : times (s.queue.currTick + s.queue.announceRemaining)
      ((x.1, x.2 - s.queue.announceRemaining) :: l) = s.queue.expiries := by
    have hmoved := times_add_carry_neg s.queue.currTick s.queue.announceRemaining (x :: l)
    rw [carry, ← sub_eq_add_neg] at hmoved
    rw [hmoved, expiries, hlist]
  refine ⟨h.congr rfl rfl hsame ?_, .inl ⟨hcallbacks, rfl, hclock, ?_⟩⟩
  · simp only
    omega
  intro y hy
  have hy' : y ∈ s.queue.expiries := hsame ▸ hy
  rw [hexp] at hy'
  simp only
  rcases mem_cons.mp hy' with rfl | hy'
  · simp only
    omega
  · have := hlater y hy'
    omega

end Books

namespace Inv

variable {s : TimeoutSys}

theorem of_books (h : s.Inv) {s' : TimeoutSys} (hbooks : s'.Books)
    (hcallbacks : s'.callbacks = s.callbacks)
    (hremaining : s'.queue.announceRemaining = s.queue.announceRemaining)
    (htick : s'.queue.currTick = s.queue.currTick) (hannounced : s'.announced = s.announced)
    (hdue : ∀ x ∈ s'.queue.expiries, x ∈ s.queue.expiries ∨ s.queue.currTick < x.2) :
    s'.Inv := by
  refine ⟨hbooks, ?_⟩
  rw [hcallbacks, hremaining, htick, hannounced]
  rcases h.clock with ⟨hc, hr, ht, hlt⟩ | ⟨c, hc, h0, hle, ht, hlt⟩
  · exact .inl ⟨hc, hr, ht, fun x hx => (hdue x hx).elim (hlt x) id⟩
  · exact .inr ⟨c, hc, h0, hle, ht, fun x hx => (hdue x hx).elim (hlt x) le_of_lt⟩

theorem add (h : s.Inv) (node : ℕ) (timeout : KTimeout) (sysClockElapsed : ℕ) :
    (s.add node timeout sysClockElapsed).Inv := by
  by_cases hskip : (s.queue.linked node).isSome = true ∨ timeout = .forever
  · rw [TimeoutSys.add, if_pos hskip]
    exact h
  rw [TimeoutSys.add, if_neg hskip]
  rw [not_or, Option.not_isSome_iff_eq_none] at hskip
  obtain ⟨hexpires, hexp⟩ := s.queue.zAddTimeout_spec ⟨node, s.calls⟩ sysClockElapsed hskip.1
    hskip.2
  have hpos := s.queue.one_le_dticks sysClockElapsed hskip.2
  have hq : (s.queue.zAddTimeout ⟨node, s.calls⟩ timeout sysClockElapsed).currTick =
        s.queue.currTick ∧
      (s.queue.zAddTimeout ⟨node, s.calls⟩ timeout sysClockElapsed).announceRemaining =
        s.queue.announceRemaining := by
    rw [zAddTimeout, if_neg hskip.2]
    exact ⟨rfl, rfl⟩
  refine h.of_books (h.toBooks.add node ?_ hexp hq.1 rfl ?_) rfl hq.2 hq.1 rfl fun x hx => ?_
  · omega
  · exact congrArg (fun expiry => s.log ++ [.added s.calls expiry]) hexpires
  rw [hexp] at hx
  rcases mem_cons.mp ((perm_place _ _).mem_iff.mp hx) with rfl | hx
  · right
    simp only
    omega
  · exact .inl hx

theorem abort (h : s.Inv) (node : ℕ) : (s.abort node).Inv := by
  rcases hlinked : s.queue.linked node with _ | y
  · simp only [TimeoutSys.abort, hlinked]
    exact h
  obtain ⟨x, hx, hxy⟩ : ∃ x, s.queue.expiries.find? (fun x => x.1.node == node) = some x ∧
      x.1 = y.1 := by
    have hfind := map_fst_find?_times (fun t : Timeout => t.node == node) s.queue.currTick
      s.queue.timeoutList
    rw [linked] at hlinked
    rw [hlinked, Option.map_some] at hfind
    exact Option.map_eq_some_iff.mp hfind
  have hq := s.queue.expiries_zAbortTimeout node
  have htick : (s.queue.zAbortTimeout node).1.currTick = s.queue.currTick ∧
      (s.queue.zAbortTimeout node).1.announceRemaining = s.queue.announceRemaining := by
    simp only [zAbortTimeout, hlinked, Option.isSome_some, if_true, and_self]
  simp only [TimeoutSys.abort, hlinked]
  refine h.of_books (h.toBooks.abort hx hq htick.1 rfl ?_) rfl htick.2 htick.1 rfl fun z hz => ?_
  · rw [hxy]
  · rw [hq] at hz
    exact .inl (mem_of_mem_eraseP hz)

theorem announce (h : s.Inv) {smp : Bool} {ticks : ℕ}
    (hone : s.callbacks ≠ [] → smp = true ∧ s.queue.announceRemaining ≠ 0) :
    (s.announce smp ticks).Inv := by
  rcases h.clock with ⟨hc, hr, ht, hlt⟩ | ⟨c, hc, h0, hle, ht, hlt⟩
  · rw [TimeoutSys.announce, if_neg (by simp [hr])]
    refine Books.turn (h.toBooks.congr rfl rfl rfl le_rfl) hc (Int.natCast_nonneg ticks) ?_
      fun x hx => (hlt x hx).le
    simp only
    omega
  obtain ⟨hsmp, hne⟩ := hone (by simp [hc])
  rw [TimeoutSys.announce, if_pos ⟨hsmp, hne⟩]
  refine ⟨h.toBooks.congr rfl rfl rfl le_rfl, .inr ⟨c, hc, h0, ?_, ?_, hlt⟩⟩
  · simp only
    omega
  · simp only
    omega

theorem callbackReturn (h : s.Inv) (which : ℕ) : (s.callbackReturn which).Inv := by
  rcases hget : s.callbacks[which]? with _ | c
  · simp only [TimeoutSys.callbackReturn, hget]
    exact h
  simp only [TimeoutSys.callbackReturn, hget]
  rcases h.clock with ⟨hc, -⟩ | ⟨c', hc, h0, hle, ht, hlt⟩
  · simp [hc] at hget
  obtain ⟨rfl, rfl⟩ : which = 0 ∧ c = c' := by
    rw [hc] at hget
    cases which with
    | zero => exact ⟨rfl, by simpa using hget.symm⟩
    | succ which => simp at hget
  refine Books.turn (h.toBooks.congr rfl rfl rfl le_rfl) (by simp [hc]) ?_ ?_ hlt
  · simp only
    omega
  · simp only
    omega

/-- **One step** keeps the invariant. -/
theorem step (h : s.Inv) {smp : Bool} (op : TimeoutOp) (hop : op.OneLoop smp s) :
    (s.step smp op).Inv := by
  cases op with
  | add node timeout sysClockElapsed => exact h.add node timeout sysClockElapsed
  | abort node => exact h.abort node
  | announce ticks => exact h.announce hop
  | callbackReturn which => exact h.callbackReturn which

theorem run {smp : Bool} (ops : List TimeoutOp) (h : s.Inv) (hops : s.OneLoop smp ops) :
    (s.run smp ops).Inv := by
  induction ops generalizing s with
  | nil => exact h
  | cons op ops ih => exact ih (h.step op hops.1) hops.2

end Inv

end TimeoutSys

/-- **Timeouts are delivered once, in time and in order**, while one loop of `sys_clock_announce`
runs at a time. Every call of `z_add_timeout` is pending, was aborted or fired, exactly one of these
and once; a timeout fires at the expiry fixed when it was added; they fire by expiry, and then in
the order of the calls; and when no loop is running, `curr_tick` is the sum of all announced ticks
and every timeout due was aborted or has fired. -/
theorem timeout_delivery (smp : Bool) (ops : List TimeoutOp) (s : TimeoutSys)
    (hs : s = TimeoutSys.init.run smp ops) (hone : TimeoutSys.init.OneLoop smp ops) :
    s.added.map Prod.fst = List.range s.calls ∧
    (s.pending ++ s.aborted ++ s.fired.map Prod.fst).Perm (List.range s.calls) ∧
    (∀ x ∈ s.fired, x ∈ s.added) ∧
    s.fired.Pairwise TimeoutBefore ∧
    (s.callbacks = [] → s.queue.currTick = s.announced ∧
      ∀ x ∈ s.added, x.2 ≤ s.queue.currTick → x.1 ∈ s.aborted ∨ x.1 ∈ s.fired.map Prod.fst) := by
  have h : s.Inv := hs ▸ TimeoutSys.inv_init.run ops hone
  refine ⟨h.added, h.accounted, h.firedAdded, h.firedOrder, fun hidle => ?_⟩
  rcases h.clock with ⟨-, -, htick, hdue⟩ | ⟨c, hc, -⟩
  · refine ⟨htick, fun x hx hle => ?_⟩
    have hcall : x.1 ∈ s.pending ++ s.aborted ++ s.fired.map Prod.fst := by
      rw [h.accounted.mem_iff, ← h.added]
      exact mem_map_of_mem hx
    rw [append_assoc, mem_append] at hcall
    rcases hcall with hpending | hcall
    · -- a pending timeout is not due yet
      rw [TimeoutSys.pending_eq] at hpending
      obtain ⟨y, hy, hyx⟩ := mem_map.mp hpending
      have heq : TimeoutSys.due y = x :=
        inj_on_of_nodup_map (h.added ▸ nodup_range) (h.pendingAdded y hy) hx hyx
      have hlt := hdue y hy
      rw [← heq] at hle
      exact absurd hle (not_le.mpr hlt)
    · exact mem_append.mp hcall
  · rw [hidle] at hc
    cases hc

/-- The theorem on a run with a tie, an abort, and an announcement during a callback. -/
theorem timeout_delivery_tie : ∃ s : TimeoutSys,
    s = TimeoutSys.init.run true [.add 0 (.ticks 4) 0, .add 1 (.ticks 4) 0, .add 2 (.absTicks 7) 0,
      .announce 5, .abort 2, .announce 3, .callbackReturn 0, .callbackReturn 0] ∧
    s.fired = [(0, 5), (1, 5)] ∧ s.queue.currTick = s.announced :=
  ⟨_, rfl, by decide +kernel, ((timeout_delivery true _ _ rfl
    (by simp [TimeoutSys.OneLoop, TimeoutOp.OneLoop]; decide +kernel)).2.2.2.2 (by decide +kernel)).1⟩

/-- **Two loops at once fire timeouts out of order**: the first spends the ticks of the second, and
a timeout due at tick 24 fires when 15 were announced. -/
theorem timeout_order_broken : ∃ ops : List TimeoutOp,
    ¬ (TimeoutSys.init.run true ops).fired.Pairwise TimeoutBefore :=
  ⟨[.add 0 (.ticks 4) 0, .add 1 (.ticks 4) 0, .add 2 (.ticks 13) 0, .add 3 (.ticks 23) 0,
    .announce 5, .callbackReturn 0, .announce 10, .callbackReturn 0, .callbackReturn 1,
    .callbackReturn 0, .add 4 (.ticks 0) 0, .announce 1], by decide +kernel⟩

/-! ### Timeouts that callbacks add -/

namespace TimeoutSys

variable {s : TimeoutSys} (smp : Bool)

theorem log_turn (s : TimeoutSys) {log : List TimeoutEvent} (h : s.log = log) :
    log <+: s.turn.log := by
  rw [← h]
  unfold turn
  split
  · exact prefix_refl _
  · exact prefix_append _ _

theorem log_step (s : TimeoutSys) (op : TimeoutOp) : s.log <+: (s.step smp op).log := by
  cases op with
  | add node timeout sysClockElapsed =>
    simp only [step, add]
    split_ifs
    · exact prefix_refl _
    · exact prefix_append _ _
  | abort node =>
    simp only [step, abort]
    split
    · exact prefix_refl _
    · exact prefix_append _ _
  | announce ticks =>
    simp only [step, announce]
    split_ifs
    · exact prefix_refl _
    · exact log_turn _ rfl
  | callbackReturn which =>
    simp only [step, callbackReturn]
    split
    · exact prefix_refl _
    · exact log_turn _ rfl

theorem log_run (ops : List TimeoutOp) (s : TimeoutSys) : s.log <+: (s.run smp ops).log := by
  induction ops generalizing s with
  | nil => exact prefix_refl _
  | cons op ops ih => exact (s.log_step smp op).trans (ih _)

variable {smp}

/-- The timeouts whose callbacks run fired at the current tick. -/
def Firing (s : TimeoutSys) : Prop := ∀ c ∈ s.callbacks, (c.1.call, s.queue.currTick) ∈ s.fired

theorem firing_turn (h : s.callbacks = []) : s.turn.Firing := by
  intro c hc
  unfold turn at hc ⊢
  split at hc
  next => simp [h] at hc
  next q x hx =>
    simp only [h, nil_append, mem_singleton] at hc
    subst hc
    simp [fired, fired?]

theorem Firing.of_eq (h : s.Firing) {s' : TimeoutSys} (hcallbacks : s'.callbacks = s.callbacks)
    (htick : s'.queue.currTick = s.queue.currTick) (hlog : s.log <+: s'.log) : s'.Firing := by
  intro c hc
  rw [hcallbacks] at hc
  rw [htick]
  exact (hlog.filterMap fired?).subset (h c hc)

theorem Firing.step (h : s.Firing) (hi : s.Inv) (op : TimeoutOp) (hop : op.OneLoop smp s) :
    (s.step smp op).Firing := by
  have hlog := s.log_step smp op
  cases op with
  | add node timeout sysClockElapsed =>
    refine h.of_eq ?_ ?_ hlog
    · simp only [TimeoutSys.step, add]
      split_ifs <;> rfl
    · simp only [TimeoutSys.step, add, zAddTimeout]
      split_ifs <;> rfl
  | abort node =>
    refine h.of_eq ?_ ?_ hlog
    · simp only [TimeoutSys.step, abort]
      split <;> rfl
    · simp only [TimeoutSys.step, abort, zAbortTimeout]
      split
      · rfl
      · split_ifs <;> rfl
  | announce ticks =>
    by_cases hc : s.callbacks = []
    · rcases hi.clock with ⟨-, hr, -⟩ | ⟨c, hc', -⟩
      · simp only [TimeoutSys.step, announce]
        rw [if_neg (by simp [hr])]
        exact firing_turn hc
      · rw [hc] at hc'
        cases hc'
    refine h.of_eq ?_ ?_ hlog
    · simp only [TimeoutSys.step, announce]
      rw [if_pos (hop hc)]
    · simp only [TimeoutSys.step, announce]
      rw [if_pos (hop hc)]
  | callbackReturn which =>
    cases hget : s.callbacks[which]? with
    | none =>
      simp only [TimeoutSys.step, callbackReturn, hget]
      exact h
    | some c =>
      simp only [TimeoutSys.step, callbackReturn, hget]
      refine firing_turn ?_
      rcases hi.clock with ⟨hc, -⟩ | ⟨c', hc, -⟩
      · simp [hc] at hget
      · rw [hc] at hget ⊢
        cases which with
        | zero => rfl
        | succ which => simp at hget

theorem Firing.run (ops : List TimeoutOp) (h : s.Firing) (hi : s.Inv) (hops : s.OneLoop smp ops) :
    (s.run smp ops).Firing := by
  induction ops generalizing s with
  | nil => exact h
  | cons op ops ih => exact ih (h.step hi op hops.1) (hi.step op hops.1) hops.2

theorem added_add {node n e : ℕ} (hnew : s.queue.linked node = none) :
    (s.add node (.ticks n) e).queue.zTimeoutExpires node =
        s.queue.currTick + (n + 1 + s.queue.elapsed e) ∧
      (s.calls, s.queue.currTick + (n + 1 + s.queue.elapsed e)) ∈ (s.add node (.ticks n) e).added := by
  have hticks : KTimeout.ticks n ≠ .forever := nofun
  obtain ⟨hexpires, -⟩ := s.queue.zAddTimeout_spec ⟨node, s.calls⟩ e hnew hticks
  have hadd : ¬((s.queue.linked node).isSome ∨ KTimeout.ticks n = .forever) := by simp [hnew]
  simp only [add, if_neg hadd]
  refine ⟨hexpires, ?_⟩
  simp only [added, filterMap_append, mem_append]
  refine .inr ?_
  simp only [added?, filterMap_cons, filterMap_nil, mem_singleton]
  exact congrArg _ hexpires.symm

end TimeoutSys

open TimeoutSys (init added_add step inv_init Firing log_run)

/-- **A timeout that a callback adds is relative to the firing timeout** iff `announce_remaining` is
not 0 or no ticks have elapsed. It is 0 if this is the last announced tick and another timeout fired
there before; and if the new timeout fires, it fires as its expiry says. -/
theorem callback_relative (smp : Bool) (ops : List TimeoutOp) (s s' : TimeoutSys)
    (hs : s = init.run smp ops) (node n e : ℕ) (hnew : s.queue.linked node = none)
    (hs' : s' = s.step smp (.add node (.ticks n) e)) :
    (s'.queue.zTimeoutExpires node = s.queue.currTick + n + 1 ↔
      s.queue.announceRemaining ≠ 0 ∨ e = 0) ∧
    (init.OneLoop smp ops → ∀ c, s.callbacks = [c] → (c.1.call, s.queue.currTick) ∈ s.fired ∧
      (s.queue.announceRemaining = 0 ↔ s.queue.currTick = s.announced ∧ c.2 = 0) ∧
      ∀ ops', s'.OneLoop smp ops' → ∀ tick, (s.calls, tick) ∈ (s'.run smp ops').fired →
        (tick = s.queue.currTick + n + 1 ↔ s.queue.announceRemaining ≠ 0 ∨ e = 0)) := by
  subst hs'
  obtain ⟨hexpires, hadded⟩ := added_add (n := n) (e := e) hnew
  have hiff : s.queue.currTick + (n + 1 + s.queue.elapsed e) = s.queue.currTick + n + 1 ↔
      s.queue.announceRemaining ≠ 0 ∨ e = 0 := by
    simp only [elapsed]
    split_ifs with h0
    · simp only [h0, ne_eq, not_true_eq_false, false_or]
      omega
    · simp only [h0, ne_eq, not_false_eq_true, true_or, iff_true]
      omega
  refine ⟨by rw [← hiff, step, hexpires], fun hone c hc => ?_⟩
  have hi : s.Inv := hs ▸ inv_init.run ops hone
  have hfiring : s.Firing := by
    rw [hs]
    exact Firing.run ops nofun inv_init hone
  refine ⟨hfiring c (by simp [hc]), ?_, fun ops' hone' tick hfired => ?_⟩
  · rcases hi.clock with ⟨hc', -⟩ | ⟨c', hc', h0, hle, ht, -⟩
    · simp [hc] at hc'
    · obtain rfl : c = c' := by simpa [hc] using hc'
      omega
  have hi' := (hi.step (.add node (.ticks n) e) trivial).run ops' hone'
  have hadded' := ((log_run smp ops' _).filterMap added?).subset hadded
  have heq := inj_on_of_nodup_map (hi'.added ▸ nodup_range)
    (hi'.firedAdded _ hfired) hadded' rfl
  rw [← hiff, (Prod.mk.inj heq).2]

/-- A callback with ticks left to announce. -/
theorem callback_relative_first : ∃ s : TimeoutSys,
    s = init.run false [.add 0 (.ticks 0) 0, .announce 1] ∧ s.callbacks = [(⟨0, 0⟩, 1)] ∧
      (s.step false (.add 2 (.ticks 5) 3)).queue.zTimeoutExpires 2 =
        s.queue.currTick + (5 : ℕ) + 1 :=
  ⟨_, rfl, by decide +kernel, (callback_relative false _ _ _ rfl 2 5 3 (by decide +kernel) rfl).1.2
    (by decide +kernel)⟩

/-- **The second of two timeouts due at the last announced tick** fires with no ticks left. -/
theorem callback_not_relative :
    ∃ s : TimeoutSys, s = init.run false
        [.add 0 (.ticks 0) 0, .add 1 (.ticks 0) 0, .announce 1, .callbackReturn 0] ∧
      s.callbacks = [(⟨1, 1⟩, 0)] ∧ s.queue.currTick = 1 ∧
      (s.step false (.add 2 (.ticks 5) 3)).queue.zTimeoutExpires 2 = 10 :=
  ⟨_, rfl, by decide +kernel, by decide +kernel, by decide +kernel⟩

end TlZephyr
