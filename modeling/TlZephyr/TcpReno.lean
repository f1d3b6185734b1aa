import Mathlib

/-!
# Congestion Window of TCP

New Reno as in `tcp.c`: the congestion window, the threshold and the bytes still to be acknowledged
in a fast recovery are 16 bits wide. A duplicate acknowledgment and an acknowledgment outside of a
recovery cap the window at `UINT16_MAX`. The start of a recovery and a partial acknowledgment do
not, so the sum or the difference may wrap.
-/

namespace TlZephyr

/-- `struct tcp_collision_avoidance_reno`. -/
structure TcpReno where
  cwnd : ℕ
  ssthresh : ℕ
  pendingFastRetransmitBytes : ℕ
deriving DecidableEq

/-- The calls of the congestion control, with the `unacked_len` they read. -/
inductive RenoEvent
  | init
  | fastRetransmit (unackedLen : ℕ)
  | timeout (unackedLen : ℕ)
  | dupAck
  | pktsAcked (ackedLen : ℕ)

/-- What is outstanding fits the 16 bits of the send window, and something is acknowledged. -/
def RenoEvent.Possible : RenoEvent → Prop
  | fastRetransmit unackedLen | timeout unackedLen => unackedLen < 2 ^ 16
  | pktsAcked ackedLen => 1 ≤ ackedLen ∧ ackedLen < 2 ^ 16
  | _ => True

namespace TcpReno

variable (mss : ℕ) (s : TcpReno)

def tcpNewRenoInit : TcpReno := ⟨mss * 1 % 2 ^ 16, mss * 3 % 2 ^ 16, 0⟩

def tcpNewRenoFastRetransmit (unackedLen : ℕ) : TcpReno :=
  if s.pendingFastRetransmitBytes = 0 then
    let ssthresh := max (mss * 2) (unackedLen / 2) % 2 ^ 16
    ⟨(mss * 3 + ssthresh) % 2 ^ 16, ssthresh, unackedLen % 2 ^ 16⟩
  else s

/-- `tcp_new_reno_timeout`, which leaves a recovery pending. -/
def tcpNewRenoTimeout (unackedLen : ℕ) : TcpReno :=
  { s with ssthresh := max (mss * 2) (unackedLen / 2) % 2 ^ 16, cwnd := mss % 2 ^ 16 }

def tcpNewRenoDupAck : TcpReno := { s with cwnd := min (s.cwnd + mss) 65535 }

def tcpNewRenoPktsAcked (ackedLen : ℕ) : TcpReno :=
  let winInc := min ackedLen mss
  if s.pendingFastRetransmitBytes = 0 then
    let newWin :=
      if s.cwnd < s.ssthresh then s.cwnd + winInc
      else s.cwnd + (winInc * winInc + s.cwnd - 1) / s.cwnd
    { s with cwnd := min newWin 65535 }
  else if s.pendingFastRetransmitBytes ≤ ackedLen then
    { s with pendingFastRetransmitBytes := 0, cwnd := s.ssthresh }
  else
    { s with
      pendingFastRetransmitBytes := s.pendingFastRetransmitBytes - ackedLen
      cwnd := (s.cwnd + 2 ^ 16 - ackedLen) % 2 ^ 16 }

def step : RenoEvent → TcpReno
  | .init => tcpNewRenoInit mss
  | .fastRetransmit unackedLen => tcpNewRenoFastRetransmit mss s unackedLen
  | .timeout unackedLen => tcpNewRenoTimeout mss s unackedLen
  | .dupAck => tcpNewRenoDupAck mss s
  | .pktsAcked ackedLen => tcpNewRenoPktsAcked mss s ackedLen

/-- The acknowledgment of a part of what is to be recovered. -/
def IsPartial : RenoEvent → Prop
  | .pktsAcked ackedLen => ackedLen < s.pendingFastRetransmitBytes
  | _ => False

/-! ### What the values should be -/

def idealCwnd : RenoEvent → ℤ
  | .init => mss
  | .fastRetransmit unackedLen =>
    if s.pendingFastRetransmitBytes = 0 then mss * 3 + max (mss * 2) (unackedLen / 2) else s.cwnd
  | .timeout _ => mss
  | .dupAck => s.cwnd + mss
  | .pktsAcked ackedLen =>
    if s.pendingFastRetransmitBytes = 0 then
      if s.cwnd < s.ssthresh then s.cwnd + min ackedLen mss
      -- the quotient is rounded up
      else s.cwnd + (min ackedLen mss * min ackedLen mss + s.cwnd - 1 : ℕ) / s.cwnd
    else if s.pendingFastRetransmitBytes ≤ ackedLen then s.ssthresh
    else s.cwnd - ackedLen

def idealSsthresh : RenoEvent → ℤ
  | .init => mss * 3
  | .fastRetransmit unackedLen =>
    if s.pendingFastRetransmitBytes = 0 then max (mss * 2) (unackedLen / 2) else s.ssthresh
  | .timeout unackedLen => max (mss * 2) (unackedLen / 2)
  | _ => s.ssthresh

/-- The values are right, capped at 65535, a partial acknowledgment does not enlarge the window, and
outside of a recovery nothing is divided by zero. -/
def Exact (e : RenoEvent) : Prop :=
  ((step mss s e).cwnd : ℤ) = min (idealCwnd mss s e) 65535 ∧
    ((step mss s e).ssthresh : ℤ) = min (idealSsthresh mss s e) 65535 ∧
    (s.IsPartial e → (step mss s e).cwnd ≤ s.cwnd) ∧
    (s.pendingFastRetransmitBytes = 0 → s.cwnd ≠ 0)

/-- The window that a recovery starts with fits, and so does a partial acknowledgment into the
window. -/
def NoWrap : RenoEvent → Prop
  | .fastRetransmit unackedLen =>
    s.pendingFastRetransmitBytes = 0 → mss * 3 + max (mss * 2) (unackedLen / 2) < 2 ^ 16
  | .pktsAcked ackedLen => ackedLen < s.pendingFastRetransmitBytes → ackedLen ≤ s.cwnd
  | _ => True

/-- Every event of a sequence has a property, in the state it finds. -/
def Along (P : TcpReno → RenoEvent → Prop) : TcpReno → List RenoEvent → Prop
  | _, [] => True
  | s, e :: es => P s e ∧ Along P (step mss s e) es

/-- The values fit their 16 bits, and the window is zero only in a recovery. -/
structure Fits : Prop where
  cwnd : s.cwnd < 2 ^ 16
  ssthresh : s.ssthresh < 2 ^ 16 ∧ s.ssthresh ≠ 0
  ne_zero : s.pendingFastRetransmitBytes = 0 → s.cwnd ≠ 0

variable {mss s}

theorem fits_init (hpos : 0 < mss) (hmss : 3 * mss ≤ 65535) : (tcpNewRenoInit mss).Fits := by
  refine ⟨Nat.mod_lt _ (by decide), ⟨Nat.mod_lt _ (by decide), ?_⟩, fun _ => ?_⟩
  · show mss * 3 % 2 ^ 16 ≠ 0
    omega
  · show mss * 1 % 2 ^ 16 ≠ 0
    omega

variable {e : RenoEvent}

theorem Fits.step (hpos : 0 < mss) (hmss : 3 * mss ≤ 65535) (h : s.Fits)
    (he : e.Possible) (hn : s.NoWrap mss e) : (step mss s e).Fits := by
  obtain ⟨hc, ht, hz⟩ := h
  cases e with
  | init => exact fits_init hpos hmss
  | fastRetransmit unackedLen =>
    simp only [RenoEvent.Possible, NoWrap] at he hn
    rw [TcpReno.step, tcpNewRenoFastRetransmit]
    split_ifs with hp
    · have hfits := hn hp
      exact ⟨by grind, by grind, by grind⟩
    · exact ⟨hc, ht, hz⟩
  | timeout unackedLen =>
    simp only [RenoEvent.Possible] at he
    simp only [TcpReno.step, tcpNewRenoTimeout]
    exact ⟨by grind, by grind, by grind⟩
  | dupAck =>
    simp only [TcpReno.step, tcpNewRenoDupAck]
    exact ⟨by grind, ht, by grind⟩
  | pktsAcked ackedLen =>
    simp only [TcpReno.step, tcpNewRenoPktsAcked]
    split_ifs with hp hlt hle
    · exact ⟨by grind, ht, by grind⟩
    · exact ⟨by grind, ht, by grind⟩
    · exact ⟨ht.1, ht, fun _ => ht.2⟩
    · exact ⟨Nat.mod_lt _ (by decide), ht, by grind⟩

/-- **When an event leaves the values it should.** -/
theorem exact_iff (hmss : 3 * mss ≤ 65535) (h : s.Fits) (he : e.Possible) :
    s.Exact mss e ↔ s.NoWrap mss e := by
  obtain ⟨hc, ht, hz⟩ := h
  cases e with
  | init =>
    simp only [Exact, step, tcpNewRenoInit, idealCwnd, idealSsthresh, IsPartial, NoWrap]
    grind
  | fastRetransmit unackedLen =>
    simp only [RenoEvent.Possible] at he
    simp only [Exact, step, tcpNewRenoFastRetransmit, idealCwnd, idealSsthresh, IsPartial, NoWrap]
    grind
  | timeout unackedLen =>
    simp only [RenoEvent.Possible] at he
    simp only [Exact, step, tcpNewRenoTimeout, idealCwnd, idealSsthresh, IsPartial, NoWrap]
    grind
  | dupAck =>
    simp only [Exact, step, tcpNewRenoDupAck, idealCwnd, idealSsthresh, IsPartial, NoWrap]
    grind
  | pktsAcked ackedLen =>
    simp only [RenoEvent.Possible] at he
    simp only [Exact, step, tcpNewRenoPktsAcked, idealCwnd, idealSsthresh, IsPartial, NoWrap]
    grind

end TcpReno

/-- **The congestion window is exact if and only if nothing wraps**, over every sequence of events.
-/
theorem tcp_new_reno_exact (mss : ℕ) (hpos : 0 < mss) (hmss : 3 * mss ≤ 65535) (es : List RenoEvent)
    (hes : ∀ e ∈ es, e.Possible) :
    TcpReno.Along mss (TcpReno.Exact mss) (TcpReno.tcpNewRenoInit mss) es ↔
      TcpReno.Along mss (TcpReno.NoWrap mss) (TcpReno.tcpNewRenoInit mss) es := by
  have hfits := TcpReno.fits_init hpos hmss
  generalize TcpReno.tcpNewRenoInit mss = s at hfits ⊢
  induction es generalizing s with
  | nil => exact Iff.rfl
  | cons e es ih =>
    rw [List.forall_mem_cons] at hes
    rw [TcpReno.Along, TcpReno.Along, TcpReno.exact_iff hmss hfits hes.1]
    exact and_congr_right fun hn => ih hes.2 _ (hfits.step hpos hmss hes.1 hn)

theorem tcp_new_reno_exact_recovery :
    TcpReno.Along 100 (TcpReno.Exact 100) (TcpReno.tcpNewRenoInit 100)
      [.dupAck, .fastRetransmit 1000, .pktsAcked 400, .pktsAcked 600] :=
  (tcp_new_reno_exact 100 (by decide) (by decide) _ (by simp [RenoEvent.Possible])).mpr
    ⟨trivial, fun _ => by decide, fun _ => by decide, fun h => absurd h (by decide), trivial⟩

/-- **A partial acknowledgment of more than the window**: a window of 800 becomes 65337. -/
theorem tcp_new_reno_wraps :
    ¬ TcpReno.Along 100 (TcpReno.Exact 100) (TcpReno.tcpNewRenoInit 100)
      [.fastRetransmit 1000, .pktsAcked 999] ∧
    (((TcpReno.tcpNewRenoInit 100).tcpNewRenoFastRetransmit 100 1000).tcpNewRenoPktsAcked 100
      999).cwnd = 65337 := by
  refine ⟨fun h => ?_, by decide⟩
  have hpartial : ((TcpReno.tcpNewRenoInit 100).step 100 (.fastRetransmit 1000)).IsPartial
      (.pktsAcked 999) := show 999 < 1000 by decide
  exact absurd (h.2.1.2.2.1 hpartial) (by decide)

end TlZephyr
