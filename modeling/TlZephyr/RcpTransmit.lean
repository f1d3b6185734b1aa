import TlZephyr.RcpLink
import TlZephyr.SpinelRead

/-!
# Transmission Results of the Radio Co-Processor

`openthread_rcp_transmit` from the request to its result, for any bytes taken from the response
queue, and when its result can be trusted.

A result of 0 should mean that the answer carries the request's transaction id and reports
the status OK, and, when the frame asked for one, that an acknowledgement of the frame came with it.
Three things stand in the way. Without an acknowledgement request the answer is not looked at,
unless it is for someone else. A transaction id of 0 passes for every request. And the
acknowledgement is copied over the frame, whatever the frame's length, and compared there: a short
one leaves the sequence number of the frame itself in place.
-/

namespace TlZephyr

open Option

/-! ### Function -/

/-- `openthread_rcp_process_continue`, given what `k_msgq_get` delivers. -/
def openthreadRcpProcessContinue (income : Option (List UInt8)) : ℤ :=
  match income with
  | none => -ETIMEDOUT
  | some [] => -EINVAL
  | some _ => 0

/-- The result, the frame, and how many bytes were written over the caller's buffer. -/
structure RcpTransmitted where
  result : ℤ
  frame : SpinelFrameData
  written : ℕ
  deriving DecidableEq, Repr

/-- End of `openthread_rcp_transmit`, once a response was taken from the queue. -/
def openthreadRcpTransmitAnswer (drv : SpinelDrv) (spinelId : UInt8) (response : List UInt8)
    (frame : SpinelFrameData) (frameMax : UInt16) (mallocOk : Bool) : Option RcpTransmitted := do
  let check ← spinelDrvCheckTransmitFrame drv spinelId (rcpAnswerBytes response) frame frameMax
  if check.ok then
    match check.frame.data with
    | some mem =>
      if check.frame.dataLength ≠ 0 then
        if mallocOk then
          some ⟨0, { check.frame with data := some (mem.take check.frame.dataLength) },
            check.written⟩
        else some ⟨-ENOMEM, { check.frame with data := none, dataLength := 0 }, check.written⟩
      else some ⟨0, check.frame, check.written⟩
    -- The result is still the 0 of `openthread_rcp_process_continue`.
    | none => some ⟨0, check.frame, check.written⟩
  else some ⟨-EINVAL, check.frame, check.written⟩

def openthreadRcpTransmit {bufSize : ℕ} (link : RcpLink bufSize) (frame : SpinelFrameData)
    (frameMax : UInt16) (fills : List ℤ) (income : Option (List UInt8)) (mallocOk : Bool) :
    Option RcpTransmitted := do
  let sent ← spinelDrvSendTransmitFrame link.drv frame
  if sent.ret < 0 then some ⟨sent.ret, frame, 0⟩
  else
    let spinelId := UInt8.ofNat sent.ret.toNat
    let start ← (({ link with drv := sent.drv }).spinelTransmission sent.out).processStart fills
    if start.ret < 0 then some ⟨start.ret, frame, 0⟩
    else
      let result := openthreadRcpProcessContinue income
      if result < 0 then some ⟨result, frame, 0⟩
      else openthreadRcpTransmitAnswer sent.drv spinelId (income.getD []) frame frameMax mallocOk

/-! ### What the result should mean -/

/-- What a frame's pointer points to, from there on. -/
def SpinelFrameData.mem (frame : SpinelFrameData) : List UInt8 := frame.data.getD []

/-- Whether a frame, given by its bytes, asks for an acknowledgement. -/
def FrameAckRequested (mem : List UInt8) : Prop := mem.headD 0 &&& frameAckReqMask ≠ 0

/-- An acknowledgement of the frame with a sequence number. -/
def FrameIsAck (ack : List UInt8) (seqNumb : UInt8) : Prop :=
  ∃ fc0 fc1 rest, ack = fc0 :: fc1 :: seqNumb :: rest ∧ fc0 &&& frameTypeMask = frameTypeAck

/-- The answer is to this request: its instance, its transaction id, the last status. -/
def SpinelAnswer.IsStatusFor (drv : SpinelDrv) (spinelId : UInt8) (a : SpinelAnswer) : Prop :=
  a.iid = drv.inst ∧ a.tid = spinelId ∧ a.cmd = spinelCmdPropValueIs ∧ a.prop = spinelPropLastStatus

/-- The status in the parameters of an answer is OK. -/
def SpinelStatusIsOk (param : List UInt8) : Prop :=
  ∃ rest, readPacked param = some (spinelStatusOk, rest)

/-- The acknowledgement an answer with status OK carries, and what follows it. -/
def readAck (param : List UInt8) : Option (List UInt8 × List UInt8) := do
  let (status, rest) ← readTxResult param
  if status = spinelStatusOk then readBlock rest else none

open SpinelAnswer

/-- A truthful transmission: 0 only for an answer to this request with status OK, with the
acknowledgement it asked for; and no write past the frame. -/
def RcpTransmitted.Truthful (drv : SpinelDrv) (spinelId : UInt8) (income : Option (List UInt8))
    (frame : SpinelFrameData) (t : RcpTransmitted) : Prop :=
  (t.result = 0 → ∃ response a, income = some response ∧ read (rcpAnswerBytes response) = some a ∧
    a.IsStatusFor drv spinelId ∧ SpinelStatusIsOk a.param ∧
    (FrameAckRequested frame.mem → ∃ ack rest, readAck a.param = some (ack, rest) ∧
      FrameIsAck ack (frame.mem.getD 2 0) ∧ t.frame.data = some ack ∧
      t.frame.dataLength = ack.length)) ∧
  t.written ≤ frame.dataLength

/-! ### When it is truthful -/

/-- The checks on an acknowledgement, made on the transmitted frame it was copied over. -/
def AckPasses (mem ack rest : List UInt8) : Prop :=
  (∃ m, RadioMeta.read rest = some m ∧ m.err = 0) ∧ ack ≠ [] ∧
    (ack ++ mem.drop ack.length).getD 0 0 &&& frameTypeMask = frameTypeAck ∧
    (ack ++ mem.drop ack.length).getD 2 0 = mem.getD 2 0

/-- The answers to trust. Without an acknowledgement request: one for someone else, or the OK answer
to this request. With one: an acknowledgement that is copied fits, and one that passes the checks
has this transaction id and a sequence number of its own. -/
def TransmitTrusted (drv : SpinelDrv) (spinelId : UInt8) (response : List UInt8)
    (frame : SpinelFrameData) (frameMax : UInt16) (mallocOk : Bool) : Prop :=
  (¬ FrameAckRequested frame.mem → ∃ a, read (rcpAnswerBytes response) = some a ∧
    (a.Foreign drv spinelId spinelCmdPropValueIs spinelPropLastStatus ∨
      a.IsStatusFor drv spinelId ∧ SpinelStatusIsOk a.param)) ∧
  (FrameAckRequested frame.mem → ∀ a ack rest, read (rcpAnswerBytes response) = some a →
    a.Accepted drv spinelId spinelCmdPropValueIs spinelPropLastStatus →
    readAck a.param = some (ack, rest) → ack.length ≤ frameMax.toNat →
    ack.length ≤ frame.dataLength ∧
      (AckPasses frame.mem ack rest → mallocOk = true → a.tid = spinelId ∧ 3 ≤ ack.length))

/-! ### Result in terms of the answer -/

variable {drv : SpinelDrv} {spinelId : UInt8} {a : SpinelAnswer} {param rest : List UInt8}

theorem SpinelAnswer.Accepted.not_foreign {cmd prop : ℕ} (h : a.Accepted drv spinelId cmd prop) :
    ¬ a.Foreign drv spinelId cmd prop := by
  rintro (hiid | ⟨-, hcmd | hprop⟩)
  · exact hiid h.1
  · exact hcmd h.2.2.1
  · exact hprop h.2.2.2

theorem SpinelStatusIsOk.ne_nil (h : SpinelStatusIsOk param) : param ≠ [] := by
  rintro rfl
  obtain ⟨rest, h⟩ := h
  have hnil : readPacked [] = none := by decide
  rw [hnil] at h
  simp at h

theorem SpinelStatusIsOk.of_readTxResult
    (h : readTxResult param = some (spinelStatusOk, rest)) : SpinelStatusIsOk param := by
  simp only [readTxResult, bind_eq_bind, bind_eq_some_iff, Prod.exists,
    Option.some.injEq, Prod.mk.injEq] at h
  obtain ⟨status, rest₁, hread, -, -, -, -, -, -, rfl, -⟩ := h
  exact ⟨rest₁, hread⟩

/-- An acknowledgement with a sequence number of its own is the one that was checked. -/
theorem AckPasses.frameIsAck {mem ack : List UInt8} (h : AckPasses mem ack rest)
    (hlen : 3 ≤ ack.length) : FrameIsAck ack (mem.getD 2 0) := by
  obtain ⟨-, -, htype, hseq⟩ := h
  match ack, hlen with
  | fc0 :: fc1 :: seq :: ack, _ => exact ⟨fc0, fc1, ack, by simpa using hseq, by simpa using htype⟩

section Answer

variable (drv : SpinelDrv) (spinelId : UInt8) (response : List UInt8) (frame : SpinelFrameData)
  (frameMax : UInt16) (mallocOk : Bool)

/-- Without an acknowledgement request only a foreign answer is not taken for success. -/
theorem openthreadRcpTransmitAnswer_noAck (hack : ¬ FrameAckRequested frame.mem)
    (t : RcpTransmitted)
    (h : openthreadRcpTransmitAnswer drv spinelId response frame frameMax mallocOk = some t) :
    t.written = 0 ∧ (t.result ≠ 0 ↔ ∃ a, read (rcpAnswerBytes response) = some a ∧
        a.Foreign drv spinelId spinelCmdPropValueIs spinelPropLastStatus) := by
  -- Every verdict but `-EPERM` ends in the same place.
  have hpass : ∀ got, spinelDrvGetCmd drv spinelId spinelCmdPropValueIs spinelPropLastStatus
      (rcpAnswerBytes response) = some got → got.ret ≠ -EPERM → t = ⟨0, .zero, 0⟩ := by
    intro got hgot hne
    simp only [openthreadRcpTransmitAnswer, spinelDrvCheckTransmitFrame, hgot, hne, if_false,
      bind_eq_bind, bind_some] at h
    rcases hdata : frame.data with _ | mem
    · simp [hdata] at h
    rcases mem with _ | ⟨fc0, mem⟩
    · simp [hdata] at h
    have hbit : fc0 &&& frameAckReqMask = 0 := by
      simpa [FrameAckRequested, SpinelFrameData.mem, hdata] using hack
    simp only [hdata, bind_some, List.getElem?_cons_zero, hbit, if_true] at h
    exact (Option.some.inj h).symm
  rcases spinelDrvGetCmd_eq drv spinelId spinelCmdPropValueIs spinelPropLastStatus
    (rcpAnswerBytes response) with ⟨a, hread, hforeign, hget⟩ | ⟨a, hread, haccepted, hget⟩ |
      ⟨hneither, e, -, hne, hget⟩
  · have ht : some ⟨-EINVAL, frame, 0⟩ = some t := by
      rw [← h]
      simp [openthreadRcpTransmitAnswer, spinelDrvCheckTransmitFrame, hget]
    obtain rfl := Option.some.inj ht
    exact ⟨rfl, fun _ => ⟨a, hread, hforeign⟩, fun _ => by simp [EINVAL]⟩
  · obtain rfl := hpass _ hget (by simp [EPERM])
    refine ⟨rfl, fun hne => absurd rfl hne, ?_⟩
    rintro ⟨b, hb, hforeign⟩
    obtain rfl : a = b := Option.some.inj (hread.symm.trans hb)
    exact absurd hforeign haccepted.not_foreign
  · obtain rfl := hpass _ hget hne
    refine ⟨rfl, fun hne => absurd rfl hne, ?_⟩
    rintro ⟨b, hb, hforeign⟩
    exact absurd hforeign (hneither b hb).1

/-- With an acknowledgement request the check goes on behind an accepted answer with status OK. -/
theorem spinelDrvCheckTransmitFrame_ack (data : List UInt8)
    (hack : FrameAckRequested frame.mem) :
    (∃ a rest, read data = some a ∧
      a.Accepted drv spinelId spinelCmdPropValueIs spinelPropLastStatus ∧
      readTxResult a.param = some (spinelStatusOk, rest) ∧
      spinelDrvCheckTransmitFrame drv spinelId data frame frameMax =
        frame.mem[2]?.bind (spinelDrvCheckAck rest frame frameMax)) ∨
    (∀ a, read data = some a → a.Accepted drv spinelId spinelCmdPropValueIs spinelPropLastStatus →
      readAck a.param = none) ∧
      spinelDrvCheckTransmitFrame drv spinelId data frame frameMax = some ⟨false, frame, 0⟩ := by
  obtain ⟨fc0, mem, hdata, hbit⟩ : ∃ fc0 mem, frame.data = some (fc0 :: mem) ∧
      fc0 &&& frameAckReqMask ≠ 0 := by
    unfold FrameAckRequested SpinelFrameData.mem at hack
    rcases hdata : frame.data with _ | mem
    · simp [hdata] at hack
    cases mem with
    | nil => simp [hdata] at hack
    | cons fc0 mem => exact ⟨fc0, mem, rfl, by simpa [hdata] using hack⟩
  have hmem : frame.mem = fc0 :: mem := by simp [SpinelFrameData.mem, hdata]
  rcases spinelDrvGetCmd_eq drv spinelId spinelCmdPropValueIs spinelPropLastStatus data with
    ⟨a, hread, hforeign, hget⟩ | ⟨a, hread, haccepted, hget⟩ | ⟨hneither, e, -, hne, hget⟩
  · refine .inr ⟨?_, by simp [spinelDrvCheckTransmitFrame, hget]⟩
    intro b hb haccepted
    obtain rfl : a = b := Option.some.inj (hread.symm.trans hb)
    exact absurd hforeign haccepted.not_foreign
  · have hcheck : spinelDrvCheckTransmitFrame drv spinelId data frame frameMax =
        if a.param = [] then some ⟨false, frame, 0⟩
        else spinelDrvCheckTxResult a.param frame.mem frame frameMax := by
      have hperm : (0 : ℤ) ≠ -EPERM := by decide
      simp only [spinelDrvCheckTransmitFrame, hget, hperm, if_false, hdata, hmem, hbit,
        bind_eq_bind, bind_some, List.getElem?_cons_zero, lt_irrefl, false_or]
    have hfail : readAck a.param = none →
        spinelDrvCheckTransmitFrame drv spinelId data frame frameMax = some ⟨false, frame, 0⟩ →
        (∀ b, read data = some b →
          b.Accepted drv spinelId spinelCmdPropValueIs spinelPropLastStatus →
          readAck b.param = none) ∧
        spinelDrvCheckTransmitFrame drv spinelId data frame frameMax = some ⟨false, frame, 0⟩ := by
      refine fun hnone hres => ⟨fun b hb _ => ?_, hres⟩
      obtain rfl : a = b := Option.some.inj (hread.symm.trans hb)
      exact hnone
    simp only [hcheck, spinelDrvCheckTxResult] at hfail ⊢
    rcases (spinelUnpack_txResult a.param).elim with
      ⟨r, htx, hr, hneg, -⟩ | ⟨⟨status, rest⟩, r, htx, hr, ret, p, u, hdrop, rfl⟩
    · exact .inr (hfail (by simp [readAck, htx]) (by simp [hr, hneg]))
    have hpos : ¬ (ret : ℤ) < 0 := by omega
    by_cases hok : status = spinelStatusOk
    · subst hok
      refine .inl ⟨a, rest, hread, haccepted, htx, ?_⟩
      rw [if_neg (SpinelStatusIsOk.of_readTxResult htx).ne_nil]
      simp [hr, hpos, hdrop]
    · exact .inr (hfail (by simp [readAck, htx, hok]) (by simp [hr, hpos, hok]))
  · refine .inr ⟨fun b hb haccepted => absurd haccepted (hneither b hb).2, ?_⟩
    simp [spinelDrvCheckTransmitFrame, hget, hne, hdata, hbit]

theorem spinelDrvCheckAck_eq (rest mem : List UInt8) (hdata : frame.data = some mem)
    (hmem : 3 ≤ mem.length) (c : SpinelTxCheck)
    (h : spinelDrvCheckAck rest frame frameMax (mem.getD 2 0) = some c) :
    match readBlock rest with
    | none => c.ok = false ∧ c.written = 0
    | some (ack, rest') =>
      if frameMax.toNat < ack.length then c.ok = false ∧ c.written = 0
      else c.written = ack.length ∧ c.frame.data = some (ack ++ mem.drop ack.length) ∧
        c.frame.dataLength = ack.length ∧ (c.ok = true ↔ AckPasses mem ack rest') := by
  obtain ⟨g, hg, hfields⟩ := spinelDrvGetRadioFrame_copy rest frame mem hdata frameMax
  simp only [spinelDrvCheckAck, hg, bind_eq_bind, bind_some] at h
  have hfail : g.ret < 0 → c = ⟨false, g.frame, g.written⟩ := by
    intro hneg
    rw [if_pos (.inl hneg)] at h
    exact (Option.some.inj h).symm
  rcases hblock : readBlock rest with _ | ⟨ack, rest'⟩ <;> rw [hblock] at hfields
  · obtain rfl := hfail hfields.1
    exact ⟨rfl, hfields.2⟩
  dsimp only at hfields ⊢
  by_cases hcap : frameMax.toNat < ack.length
  · rw [if_pos hcap] at hfields ⊢
    obtain rfl := hfail hfields.1
    exact ⟨rfl, hfields.2⟩
  rw [if_neg hcap] at hfields ⊢
  obtain ⟨hwritten, hlength, hcopied, hret⟩ := hfields
  by_cases hbad : g.ret < 0 ∨ g.frame.dataLength = 0
  · rw [if_pos hbad] at h
    obtain rfl := (Option.some.inj h).symm
    refine ⟨hwritten, hcopied, hlength, by simp, ?_⟩
    rintro ⟨hmeta, hne, -⟩
    have hnonneg := hret.mpr hmeta
    have hpos := List.length_pos_of_ne_nil hne
    omega
  have hlen : 3 ≤ (ack ++ mem.drop ack.length).length := by simp; omega
  have hat : ∀ i < 3, (ack ++ mem.drop ack.length)[i]? =
      some ((ack ++ mem.drop ack.length).getD i 0) := by
    intro i hi
    rw [List.getD, List.getElem?_eq_getElem (by omega), getD_some]
  rw [if_neg hbad, hcopied, bind_some, hat 0 (by omega), hat 2 (by omega),
    bind_some, bind_some] at h
  obtain rfl := (Option.some.inj h).symm
  refine ⟨hwritten, hcopied, hlength, ?_⟩
  have hne : ack ≠ [] := List.ne_nil_of_length_pos (by omega)
  have hmeta := hret.mp (by omega)
  simp [AckPasses, hmeta, hne]

/-- With an acknowledgement request nothing succeeds or is written without a copied acknowledgement.
-/
theorem openthreadRcpTransmitAnswer_ack (hack : FrameAckRequested frame.mem)
    (t : RcpTransmitted)
    (h : openthreadRcpTransmitAnswer drv spinelId response frame frameMax mallocOk = some t) :
    (∃ a ack rest, read (rcpAnswerBytes response) = some a ∧
      a.Accepted drv spinelId spinelCmdPropValueIs spinelPropLastStatus ∧
      readAck a.param = some (ack, rest) ∧ ack.length ≤ frameMax.toNat ∧
      t.written = ack.length ∧
      (t.result = 0 ↔ AckPasses frame.mem ack rest ∧ mallocOk = true) ∧
      (t.result = 0 → t.frame.data = some ack ∧ t.frame.dataLength = ack.length)) ∨
    (∀ a ack rest, read (rcpAnswerBytes response) = some a →
      a.Accepted drv spinelId spinelCmdPropValueIs spinelPropLastStatus →
      readAck a.param = some (ack, rest) → ¬ ack.length ≤ frameMax.toNat) ∧
      t.result ≠ 0 ∧ t.written = 0 := by
  have hinval : -EINVAL ≠ 0 := by decide
  have hnomem : -ENOMEM ≠ 0 := by decide
  simp only [openthreadRcpTransmitAnswer, bind_eq_bind, bind_eq_some_iff] at h
  obtain ⟨c, hc, h⟩ := h
  have hfail : c.ok = false → c.written = 0 → t.result ≠ 0 ∧ t.written = 0 := by
    intro hok hwritten
    rw [hok] at h
    obtain rfl := Option.some.inj h
    exact ⟨hinval, hwritten⟩
  rcases spinelDrvCheckTransmitFrame_ack drv spinelId frame frameMax (rcpAnswerBytes response)
    hack with ⟨a, rest, hread, haccepted, htx, hcheck⟩ | ⟨hnone, hcheck⟩
  case inr =>
    obtain rfl : _ = c := Option.some.inj (hcheck.symm.trans hc)
    refine .inr ⟨?_, hfail rfl rfl⟩
    intro a ack rest hread haccepted hsome
    simp [hnone a hread haccepted] at hsome
  rw [hcheck, bind_eq_some_iff] at hc
  obtain ⟨seq, hseq, hc⟩ := hc
  have hmem : 3 ≤ frame.mem.length := by
    have := (List.getElem?_eq_some_iff.mp hseq).1
    omega
  have hdata : frame.data = some frame.mem := by
    unfold SpinelFrameData.mem at hmem ⊢
    cases hdata : frame.data with
    | none => simp [hdata] at hmem
    | some mem => rfl
  obtain rfl : frame.mem.getD 2 0 = seq := by simp [List.getD, hseq]
  have hack' : readAck a.param = readBlock rest := by simp [readAck, htx]
  have hcases := spinelDrvCheckAck_eq frame frameMax rest frame.mem hdata hmem c hc
  have hunique : ∀ (P : List UInt8 → List UInt8 → Prop),
      (∀ ack rest', readBlock rest = some (ack, rest') → P ack rest') →
      ∀ b ack rest', read (rcpAnswerBytes response) = some b →
        b.Accepted drv spinelId spinelCmdPropValueIs spinelPropLastStatus →
        readAck b.param = some (ack, rest') → P ack rest' := by
    intro P hP b ack rest' hb _ hsome
    obtain rfl : a = b := Option.some.inj (hread.symm.trans hb)
    exact hP ack rest' (hack'.symm.trans hsome)
  rcases hblock : readBlock rest with _ | ⟨ack, rest'⟩ <;> rw [hblock] at hcases
  · exact .inr ⟨hunique (fun ack _ => ¬ ack.length ≤ frameMax.toNat) (by simp [hblock]),
      hfail hcases.1 hcases.2⟩
  dsimp only at hcases
  by_cases hcap : frameMax.toNat < ack.length
  · rw [if_pos hcap] at hcases
    refine .inr ⟨hunique (fun ack _ => ¬ ack.length ≤ frameMax.toNat) ?_, hfail hcases.1 hcases.2⟩
    intro ack' rest'' hblock'
    obtain ⟨rfl, rfl⟩ := Prod.mk.inj (Option.some.inj (hblock.symm.trans hblock'))
    exact not_le.mpr hcap
  rw [if_neg hcap] at hcases
  obtain ⟨hwritten, hcopied, hlength, hok⟩ := hcases
  refine .inl ⟨a, ack, rest', hread, haccepted, hack'.trans hblock, not_lt.mp hcap, ?_⟩
  by_cases hpass : AckPasses frame.mem ack rest'
  · have hne : c.frame.dataLength ≠ 0 := by
      rw [hlength]
      exact fun h0 => hpass.2.1 (List.eq_nil_of_length_eq_zero h0)
    rw [if_pos (hok.mpr hpass), hcopied] at h
    dsimp only at h
    rw [if_pos hne] at h
    cases mallocOk with
    | false =>
      obtain rfl := Option.some.inj h
      exact ⟨hwritten, by simp [hnomem], fun h0 => absurd h0 hnomem⟩
    | true =>
      obtain rfl := Option.some.inj h
      exact ⟨hwritten, by simp [hpass], fun _ => ⟨by simp [hlength], hlength⟩⟩
  · rw [if_neg (fun h => hpass (hok.mp h))] at h
    obtain rfl := Option.some.inj h
    exact ⟨hwritten, by simp [hpass, hinval], fun h0 => absurd h0 hinval⟩

theorem openthreadRcpTransmitAnswer_truthful_iff (t : RcpTransmitted)
    (h : openthreadRcpTransmitAnswer drv spinelId response frame frameMax mallocOk = some t) :
    t.Truthful drv spinelId (some response) frame ↔
      TransmitTrusted drv spinelId response frame frameMax mallocOk := by
  by_cases hack : FrameAckRequested frame.mem
  · rcases openthreadRcpTransmitAnswer_ack drv spinelId response frame frameMax mallocOk hack t h
      with ⟨a, ack, rest, hread, haccepted, hreadAck, hle, hwritten, hresult, hframe⟩ |
        ⟨hnone, hresult, hwritten⟩
    · constructor
      · rintro ⟨htrue, hfits⟩
        refine ⟨fun hno => absurd hack hno, fun _ b ack' rest' hb _ hreadAck' _ => ?_⟩
        obtain rfl : a = b := Option.some.inj (hread.symm.trans hb)
        obtain ⟨rfl, rfl⟩ := Prod.mk.inj (Option.some.inj (hreadAck.symm.trans hreadAck'))
        refine ⟨hwritten ▸ hfits, fun hpass hmalloc => ?_⟩
        obtain ⟨response', b, hresp, hb, hstatus, -, hackOf⟩ := htrue (hresult.mpr ⟨hpass, hmalloc⟩)
        obtain rfl := Option.some.inj hresp
        obtain rfl : a = b := Option.some.inj (hread.symm.trans hb)
        obtain ⟨ack', rest', hreadAck', ⟨fc0, fc1, tail, rfl, -⟩, -⟩ := hackOf hack
        obtain ⟨rfl, rfl⟩ := Prod.mk.inj (Option.some.inj (hreadAck.symm.trans hreadAck'))
        exact ⟨hstatus.2.1, by simp⟩
      rintro ⟨-, htrusted⟩
      obtain ⟨hfits, hown⟩ := htrusted hack a ack rest hread haccepted hreadAck hle
      refine ⟨fun h0 => ?_, hwritten ▸ hfits⟩
      obtain ⟨hpass, hmalloc⟩ := hresult.mp h0
      obtain ⟨htid, hlen⟩ := hown hpass hmalloc
      refine ⟨response, a, rfl, hread, ⟨haccepted.1, htid, haccepted.2.2⟩, ?_,
        fun _ => ⟨ack, rest, hreadAck, hpass.frameIsAck hlen, hframe h0⟩⟩
      simp only [readAck, bind_eq_bind, bind_eq_some_iff, Prod.exists] at hreadAck
      obtain ⟨status, rest', htx, hblock⟩ := hreadAck
      split at hblock
      case isTrue hok => exact .of_readTxResult (hok ▸ htx)
      case isFalse => simp at hblock
    · refine ⟨fun _ => ⟨fun hno => absurd hack hno, ?_⟩, fun _ => ⟨fun h0 => absurd h0 hresult, ?_⟩⟩
      · exact fun _ a ack rest hread haccepted hreadAck hle =>
          absurd hle (hnone a ack rest hread haccepted hreadAck)
      · omega
  obtain ⟨hwritten, hresult⟩ :=
    openthreadRcpTransmitAnswer_noAck drv spinelId response frame frameMax mallocOk hack t h
  constructor
  · rintro ⟨htrue, -⟩
    refine ⟨fun _ => ?_, fun hyes => absurd hyes hack⟩
    by_cases h0 : t.result = 0
    · obtain ⟨response', a, hresp, hread, hstatus, hok, -⟩ := htrue h0
      obtain rfl := Option.some.inj hresp
      exact ⟨a, hread, .inr ⟨hstatus, hok⟩⟩
    · obtain ⟨a, hread, hforeign⟩ := hresult.mp h0
      exact ⟨a, hread, .inl hforeign⟩
  rintro ⟨htrusted, -⟩
  refine ⟨fun h0 => ?_, by omega⟩
  obtain ⟨a, hread, hforeign | ⟨hstatus, hok⟩⟩ := htrusted hack
  · exact absurd h0 (hresult.mpr ⟨a, hread, hforeign⟩)
  · exact ⟨response, a, rfl, hread, hstatus, hok, fun hyes => absurd hyes hack⟩

end Answer

/-! ### Whole call -/

theorem RcpTransmitted.truthful_of_neg (drv : SpinelDrv) (spinelId : UInt8)
    (income : Option (List UInt8)) (frame : SpinelFrameData) (ret : ℤ) (hneg : ret < 0) :
    (⟨ret, frame, 0⟩ : RcpTransmitted).Truthful drv spinelId income frame :=
  ⟨fun h0 => absurd h0 hneg.ne, Nat.zero_le _⟩

open RcpTransmitted

def transmitExampleFrame (fc0 : UInt8) : SpinelFrameData where
  data := some [fc0, 0x88, 5, 1, 2]
  dataLength := 5
  channel := 11
  tx := ⟨0, 0, false, false, false, true⟩
  rx := ⟨0, 0, 0, false, false⟩

def transmitExampleMeta : List UInt8 :=
  [0, 0, 0, 0, 10, 0, 11, 200, 1, 0, 0, 0, 0, 0, 0, 0, 1, 0, 0]

/-- A first transmission on a fresh link, with transaction id 1, and its response. -/
def transmitExample (fc0 : UInt8) (response : List UInt8) : Option RcpTransmitted :=
  openthreadRcpTransmit (RcpLink.init : RcpLink 64) (transmitExampleFrame fc0) 127
    (List.replicate 64 1) (some response) true

/-- A transmission is not truthful when it returns 0 on an answer that is not the OK answer
to it. -/
theorem RcpTransmitted.not_truthful_of_answer
    {response : List UInt8} {frame : SpinelFrameData} {t : RcpTransmitted}
    (hresult : t.result = 0) (hread : read (rcpAnswerBytes response) = some a)
    (ha : a.tid ≠ spinelId ∨ (readPacked a.param).map (·.1) ≠ some spinelStatusOk) :
    ¬ t.Truthful drv spinelId (some response) frame := by
  rintro ⟨htrue, -⟩
  obtain ⟨response', b, hresp, hb, hstatus, ⟨rest, hok⟩, -⟩ := htrue hresult
  obtain rfl := Option.some.inj hresp
  obtain rfl : a = b := Option.some.inj (hread.symm.trans hb)
  rcases ha with htid | hpacked
  · exact htid hstatus.2.1
  · exact hpacked (by rw [hok]; rfl)

end TlZephyr
