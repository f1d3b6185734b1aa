import TlZephyr.Errno

/-!
# Queued Data of a TCP Connection

The sending side of an established connection of `tcp.c` and its two timers. `send_data_timer` sends
queued data again, `persist_timer` probes a zero window. A step is what is done under the lock of
the connection, or what the kernel does with a timer.

`tcp_resend_data` does not start its timer again when the window leaves nothing to send. It relies
on `persist_timer`, which the segment that opens the window cancels.
-/

namespace TlZephyr

/-- State of a `k_work_delayable`. -/
structure TcpTimer where
  delayed : Bool
  queued : Bool
  running : Bool

namespace TcpTimer

/-- `k_work_delayable_is_pending`. -/
def pending (t : TcpTimer) : Bool := t.delayed || t.queued || t.running

/-- `k_work_reschedule_for_queue`. -/
def reschedule (t : TcpTimer) : TcpTimer := { t with delayed := true }

/-- `k_work_cancel_delayable`. -/
def cancel (t : TcpTimer) : TcpTimer := { t with delayed := false, queued := false }

end TcpTimer

/-- Part of `struct tcp` that queued data depends on. `resend` is `TCP_DATA_MODE_RESEND`;
`asserted`: the assertion of `tcp_in` has failed. -/
structure TcpConn where
  sendDataTotal : ℕ
  unackedLen : ℕ
  sendWin : ℕ
  sendWinMax : ℕ
  cwnd : ℕ
  sendDataRetries : ℕ
  resend : Bool
  inClose : Bool
  tcpNodelay : Bool
  sendDataTimer : TcpTimer
  persistTimer : TcpTimer
  asserted : Bool

/-- The steps. `outs` are the results of sending, `cwnd` is the window that congestion control
leaves, `lenAcked` what a segment acknowledges. -/
inductive TcpOp
  | queue (len : ℕ) (outs : List ℤ)
  | segment (win : ℕ) (lenAcked : ℤ) (cwnd : ℕ) (outs : List ℤ)
  | put
  | expire (persist : Bool)
  | start (persist : Bool)
  | resendData (cwnd : ℕ) (out : ℤ)
  | sendZwp

namespace TcpConn

variable (mss tcpRetries : ℕ) (conn : TcpConn)

def tcpWindowFull : Bool := conn.sendWin ≤ conn.sendDataTotal || conn.cwnd ≤ conn.sendDataTotal

def tcpUnsentLen : ℤ :=
  if conn.sendDataTotal < conn.unackedLen then -ERANGE
  else if conn.sendWin ≤ conn.unackedLen ∨ conn.cwnd ≤ conn.unackedLen then 0
  else (min conn.sendDataTotal (min conn.sendWin conn.cwnd) - conn.unackedLen : ℕ)

/-- `tcp_send_data`, for a packet that is sent with the result `out`: the result and `unacked_len`. -/
def tcpSendData (out : ℤ) : ℤ × ℕ :=
  let len := min conn.tcpUnsentLen mss
  if len < 0 then (len, conn.unackedLen)
  else if len = 0 then (-ENODATA, conn.unackedLen)
  else (out, if out = 0 then conn.unackedLen + len.toNat else conn.unackedLen)

/-- The loop of `tcp_send_queued_data` goes on, and Nagle's algorithm does not wait for more. -/
def sendsMore : Bool :=
  0 < conn.tcpUnsentLen &&
    (conn.tcpNodelay || conn.unackedLen = 0 || (mss : ℤ) ≤ conn.tcpUnsentLen)

/-- Loop of `tcp_send_queued_data`, if `outs` has a result for every packet. -/
def sendLoop (conn : TcpConn) : List ℤ → Option (ℤ × ℕ)
  | [] => if conn.sendsMore mss then none else some (0, conn.unackedLen)
  | out :: outs =>
    if conn.sendsMore mss then
      let (ret, unackedLen) := conn.tcpSendData mss out
      if ret < 0 then some (ret, unackedLen) else sendLoop { conn with unackedLen } outs
    else some (0, conn.unackedLen)

def tcpSendQueuedData (outs : List ℤ) : Option (ℤ × TcpConn) :=
  if conn.resend then some (0, conn)
  else do
    let (ret, unackedLen) ← conn.sendLoop mss outs
    let conn := { conn with unackedLen }
    if 0 < conn.sendDataTotal ∧ conn.sendDataTimer.delayed = false then
      return (ret, { conn with
        sendDataRetries := 0
        sendDataTimer := conn.sendDataTimer.reschedule })
    else return (ret, conn)

/-- Sends queued data; any error but `-ENOBUFS` closes the connection. -/
def sendOrClose (outs : List ℤ) : Option TcpConn := do
  let (ret, conn) ← conn.tcpSendQueuedData mss outs
  if ret < 0 ∧ ret ≠ -ENOBUFS then none else return conn

/-- `net_tcp_queue`, when `len` bytes can be appended to `send_data`. -/
def netTcpQueue (len : ℕ) (outs : List ℤ) : Option TcpConn :=
  if conn.tcpWindowFull then some conn
  else
    { conn with
      sendDataTotal := conn.sendDataTotal + min (conn.sendWin - conn.sendDataTotal) len
      }.sendOrClose mss outs

/-- `tcp_in` up to the state machine: the window of the segment and the probes. -/
def updateWindow (win : ℕ) : TcpConn :=
  let sendWin := min win conn.sendWinMax
  { conn with
    sendWin
    persistTimer :=
      if sendWin ≠ 0 then conn.persistTimer.cancel
      else if conn.persistTimer.pending then conn.persistTimer else conn.persistTimer.reschedule }

/-- `NET_ASSERT` on the subscription of `send_data_timer`. -/
def netAssert : TcpConn :=
  { conn with
    asserted := conn.asserted || !(conn.sendDataTotal = 0 || conn.sendDataTimer.pending) }

/-- `tcp_in`: a segment that acknowledges `lenAcked` bytes. -/
def acknowledge (lenAcked cwnd : ℕ) (outs : List ℤ) : Option TcpConn :=
  if conn.sendDataTotal < lenAcked then none
  else
    let total := conn.sendDataTotal - lenAcked
    if conn.inClose ∧ total = 0 then none
    else
      { conn with
        sendDataTotal := total
        unackedLen := if conn.resend then 0 else conn.unackedLen - lenAcked
        cwnd
        sendDataRetries := 0
        resend := false
        sendDataTimer := if 0 < total then conn.sendDataTimer.reschedule else conn.sendDataTimer
        }.sendOrClose mss outs

/-- End of the case of an established connection in `tcp_in`. -/
def unsubscribe : TcpConn :=
  if conn.sendDataTotal = 0 then
    { conn with sendDataRetries := 0, sendDataTimer := conn.sendDataTimer.cancel }
  else conn

/-- `tcp_in` for a segment that leaves the connection established. -/
def tcpIn (win : ℕ) (lenAcked : ℤ) (cwnd : ℕ) (outs : List ℤ) : Option TcpConn :=
  let conn := (conn.updateWindow win).netAssert
  if 0 < lenAcked then (conn.acknowledge mss lenAcked.toNat cwnd outs).map unsubscribe
  else some { conn with cwnd }.unsubscribe

/-- `net_tcp_put` while data is queued. -/
def netTcpPut : Option TcpConn :=
  if 0 < conn.sendDataTotal then
    some { conn with inClose := true, sendDataTimer := conn.sendDataTimer.reschedule }
  else none

/-- `tcp_resend_data`, the handler of `send_data_timer`. -/
def tcpResendData (cwnd : ℕ) (out : ℤ) : Option TcpConn :=
  if tcpRetries ≤ conn.sendDataRetries then none
  else
    let conn := { conn with
      cwnd := if conn.sendDataRetries = 0 then cwnd else conn.cwnd
      sendDataTimer := { conn.sendDataTimer with running := false }
      unackedLen := 0 }
    let (ret, unackedLen) := conn.tcpSendData mss out
    let conn := { conn with unackedLen, sendDataRetries := conn.sendDataRetries + 1 }
    if ret = -ENODATA then some { conn with resend := false }
    else some { conn with resend := true, sendDataTimer := conn.sendDataTimer.reschedule }

/-- `tcp_send_zwp`, the handler of `persist_timer`. -/
def tcpSendZwp : TcpConn :=
  let timer := { conn.persistTimer with running := false }
  { conn with persistTimer := if conn.sendWin = 0 then timer.reschedule else timer }

def onTimer (persist : Bool) (f : TcpTimer → TcpTimer) : TcpConn :=
  if persist then { conn with persistTimer := f conn.persistTimer }
  else { conn with sendDataTimer := f conn.sendDataTimer }

/-- A step, if it can be taken and the connection stays established. -/
def step : TcpOp → Option TcpConn
  | .queue len outs => conn.netTcpQueue mss len outs
  | .segment win lenAcked cwnd outs => conn.tcpIn mss win lenAcked cwnd outs
  | .put => conn.netTcpPut
  | .expire persist => some (conn.onTimer persist fun t =>
      if t.delayed then { t with delayed := false, queued := true } else t)
  | .start persist => some (conn.onTimer persist fun t =>
      if t.queued && !t.running then { t with queued := false, running := true } else t)
  | .resendData cwnd out =>
    if conn.sendDataTimer.running then conn.tcpResendData mss tcpRetries cwnd out else none
  | .sendZwp => if conn.persistTimer.running then some conn.tcpSendZwp else none

def run : TcpConn → List TcpOp → Option TcpConn
  | conn, [] => some conn
  | conn, op :: ops => do run (← conn.step mss tcpRetries op) ops

/-- An established connection without data to send. -/
def Fresh : Prop := conn.sendDataTotal = 0 ∧ conn.resend = false ∧ conn.asserted = false

/-- A timer looks after queued data, or after the window that keeps it from being sent. -/
def Attended : Prop :=
  0 < conn.sendDataTotal →
    conn.sendDataTimer.pending = true ∨ conn.sendWin = 0 ∧ conn.persistTimer.pending = true

/-- `tcp_resend_data` does not run while there is data that no window has room for. -/
def StepOk : TcpOp → Prop
  | .resendData cwnd out => 0 < conn.sendDataTotal →
    conn.sendWin ≠ 0 ∧ (if conn.sendDataRetries = 0 then cwnd else conn.cwnd) ≠ 0 ∧ out ≠ -ENODATA
  | _ => True

def RunOk : TcpConn → List TcpOp → Prop
  | _, [] => True
  | conn, op :: ops =>
    conn.StepOk op ∧ ∀ conn' ∈ conn.step mss tcpRetries op, RunOk conn' ops

structure Inv : Prop where
  timer : 0 < conn.sendDataTotal → conn.sendDataTimer.pending = true
  resend : conn.resend = true → 0 < conn.sendDataTotal
  asserted : conn.asserted = false

/-! ### Invariant -/

variable {mss tcpRetries conn} {conn' : TcpConn} {outs : List ℤ}

theorem tcpSendData_fst (hmss : 0 < mss) (hun : conn.unackedLen = 0) (out : ℤ) :
    (conn.tcpSendData mss out).1 =
      if conn.sendDataTotal = 0 ∨ conn.sendWin = 0 ∨ conn.cwnd = 0 then -ENODATA else out := by
  rw [tcpSendData, tcpUnsentLen, hun]
  grind

/-- **After queued data was sent, its timer is pending.** -/
theorem Inv.sendOrClose (h : conn.sendOrClose mss outs = some conn')
    (htimer : conn.resend = true → conn.sendDataTimer.pending = true)
    (hresend : conn.resend = true → 0 < conn.sendDataTotal) (hassert : conn.asserted = false) :
    conn'.Inv := by
  simp only [TcpConn.sendOrClose, Option.bind_eq_bind, Option.bind_eq_some_iff,
    Option.ite_none_left_eq_some, Option.pure_def, Option.some.injEq] at h
  obtain ⟨⟨ret, c⟩, h, -, rfl⟩ := h
  rw [tcpSendQueuedData] at h
  split_ifs at h with hr
  · cases h
    exact ⟨fun _ => htimer hr, hresend, hassert⟩
  · simp only [Option.bind_eq_bind, Option.bind_eq_some_iff] at h
    obtain ⟨⟨ret', unackedLen⟩, -, h⟩ := h
    dsimp only at h
    split_ifs at h with hsub
    · cases h
      exact ⟨fun _ => rfl, hresend, hassert⟩
    · cases h
      refine ⟨fun hpos => ?_, hresend, hassert⟩
      have hdelayed : conn.sendDataTimer.delayed = true := by
        simpa using fun hd => hsub ⟨hpos, hd⟩
      simp [TcpTimer.pending, hdelayed]

theorem Inv.onTimer (h : conn.Inv) {f : TcpTimer → TcpTimer} (persist : Bool)
    (hf : ∀ t, t.pending = true → (f t).pending = true) : (conn.onTimer persist f).Inv := by
  cases persist with
  | true => exact ⟨h.timer, h.resend, h.asserted⟩
  | false => exact ⟨fun hpos => hf _ (h.timer hpos), h.resend, h.asserted⟩

theorem Inv.unsubscribe (h : conn.Inv) : conn.unsubscribe.Inv := by
  rw [TcpConn.unsubscribe]
  split_ifs with hzero
  · exact ⟨fun hpos => absurd hpos (by simp [hzero]), h.resend, h.asserted⟩
  · exact h

/-- **A segment** finds the timer pending, so the assertion holds. -/
theorem Inv.tcpIn (h : conn.Inv) {win cwnd : ℕ} {lenAcked : ℤ}
    (hstep : conn.tcpIn mss win lenAcked cwnd outs = some conn') : conn'.Inv := by
  have hassert : (conn.updateWindow win).netAssert.asserted = false := by
    rcases Nat.eq_zero_or_pos conn.sendDataTotal with hzero | hpos
    · simp [netAssert, updateWindow, h.asserted, hzero]
    · simp [netAssert, updateWindow, h.asserted, h.timer hpos]
  simp only [TcpConn.tcpIn] at hstep
  split_ifs at hstep
  · obtain ⟨c, hc, rfl⟩ := Option.map_eq_some_iff.mp hstep
    simp only [acknowledge, Option.ite_none_left_eq_some] at hc
    obtain ⟨-, -, hc⟩ := hc
    exact (Inv.sendOrClose hc nofun nofun hassert).unsubscribe
  · cases hstep
    exact Inv.unsubscribe ⟨h.timer, h.resend, hassert⟩

/-- **One step.** -/
theorem Inv.step (hmss : 0 < mss) (h : conn.Inv) {op : TcpOp} (hok : conn.StepOk op)
    (hstep : conn.step mss tcpRetries op = some conn') : conn'.Inv := by
  cases op with
  | queue len outs =>
    rw [TcpConn.step, netTcpQueue] at hstep
    split_ifs at hstep
    · exact Option.some.inj hstep ▸ h
    · exact .sendOrClose hstep (fun hr => h.timer (h.resend hr))
        (fun hr => Nat.add_pos_left (h.resend hr) _) h.asserted
  | segment win lenAcked cwnd outs => exact h.tcpIn hstep
  | put =>
    rw [TcpConn.step, netTcpPut] at hstep
    split_ifs at hstep
    cases hstep
    exact ⟨fun _ => rfl, h.resend, h.asserted⟩
  | expire persist =>
    cases hstep
    refine h.onTimer persist fun t ht => ?_
    split_ifs
    · simp [TcpTimer.pending]
    · exact ht
  | start persist =>
    cases hstep
    refine h.onTimer persist fun t ht => ?_
    split_ifs
    · simp [TcpTimer.pending]
    · exact ht
  | resendData cwnd out =>
    simp only [TcpConn.step, tcpResendData, Option.ite_none_right_eq_some,
      Option.ite_none_left_eq_some, tcpSendData_fst hmss] at hstep
    obtain ⟨-, -, hstep⟩ := hstep
    by_cases hpos : 0 < conn.sendDataTotal
    · obtain ⟨hwin, hcwnd, hout⟩ := hok hpos
      rw [if_neg (not_or.mpr ⟨hpos.ne', not_or.mpr ⟨hwin, hcwnd⟩⟩), if_neg hout] at hstep
      cases hstep
      exact ⟨fun _ => rfl, fun _ => hpos, h.asserted⟩
    · rw [if_pos (if_pos (Or.inl (Nat.eq_zero_of_not_pos hpos)))] at hstep
      cases hstep
      exact ⟨fun h' => absurd h' hpos, nofun, h.asserted⟩
  | sendZwp =>
    rw [TcpConn.step] at hstep
    split_ifs at hstep
    cases hstep
    exact ⟨h.timer, h.resend, h.asserted⟩

theorem Inv.run (hmss : 0 < mss) (h : conn.Inv) {ops : List TcpOp} (hok : RunOk mss tcpRetries conn ops)
    (hrun : run mss tcpRetries conn ops = some conn') : conn'.Inv := by
  induction ops generalizing conn with
  | nil => exact Option.some.inj hrun ▸ h
  | cons op ops ih =>
    obtain ⟨c, hc, hrun⟩ := Option.bind_eq_some_iff.mp hrun
    exact ih (h.step hmss hok.1 hc) (hok.2 c hc) hrun

end TcpConn

/-- **Queued data is never stranded** in a run in which `tcp_resend_data` finds room in the windows:
its timer is pending whenever the lock is free, and the assertion of `tcp_in` has not failed. -/
theorem tcp_never_strands (mss tcpRetries : ℕ) (hmss : 0 < mss) (conn conn' : TcpConn)
    (hfresh : conn.Fresh) (ops : List TcpOp) (hok : TcpConn.RunOk mss tcpRetries conn ops)
    (hrun : TcpConn.run mss tcpRetries conn ops = some conn') :
    conn'.Attended ∧ conn'.asserted = false := by
  obtain ⟨htotal, hresend, hassert⟩ := hfresh
  have hinit : conn.Inv :=
    ⟨fun hpos => absurd hpos (by simp [htotal]), fun hr => absurd hr (by simp [hresend]), hassert⟩
  have hinv := hinit.run hmss hok hrun
  exact ⟨fun hpos => .inl (hinv.timer hpos), hinv.asserted⟩

def tcpExample : TcpConn where
  sendDataTotal := 0
  unackedLen := 0
  sendWin := 1000
  sendWinMax := 1000
  cwnd := 1000
  sendDataRetries := 0
  resend := false
  inClose := false
  tcpNodelay := true
  sendDataTimer := ⟨false, false, false⟩
  persistTimer := ⟨false, false, false⟩
  asserted := false

theorem tcp_never_strands_resend :
    ∃ conn, TcpConn.run 100 9 tcpExample [.queue 10 [0], .expire false, .start false,
      .resendData 100 0] = some conn ∧ 0 < conn.sendDataTotal ∧ conn.Attended ∧
      conn.asserted = false :=
  ⟨_, rfl, by decide, tcp_never_strands 100 9 (by decide) tcpExample _ ⟨rfl, rfl, rfl⟩
    [.queue 10 [0], .expire false, .start false, .resendData 100 0]
    ⟨trivial, fun _ h => Option.some.inj h ▸ ⟨trivial, fun _ h => Option.some.inj h ▸
      ⟨trivial, fun _ h => Option.some.inj h ▸ ⟨fun _ => by decide, fun _ _ => trivial⟩⟩⟩⟩ rfl⟩

/-- **Data is stranded by a window that closes and opens again**: no timer is pending, and the
assertion fails. -/
theorem tcp_strands :
    ∃ conn, TcpConn.run 100 9 tcpExample [.queue 10 [0], .segment 0 0 100 [], .expire false,
      .start false, .resendData 100 0, .segment 500 0 100 []] = some conn ∧
      ¬ conn.Attended ∧ conn.asserted = true :=
  ⟨_, rfl, by simp only [TcpConn.Attended]; decide, by decide⟩

end TlZephyr
