import TlZephyr.Hdlc
import TlZephyr.SpinelRead

/-!
# Link to the Radio Co-Processor: Reception

The decoder hands every byte of a frame to `openthread_rcp_reception_byte`, which collects
them in a buffer from `malloc`, and at each flag calls `openthread_rcp_reception_done` with
its verdict. A valid frame is taken out of the buffer, without the check bytes, and given to
one of its receivers; an invalid one is not touched, and is still in the buffer when the next
frame begins.

The stream comes with what the environment does at every byte: whether `malloc` would
succeed, and whether a request is waiting for an answer.
-/

namespace TlZephyr

open List Option

/-! ### Buffers and receivers -/

/-- Where a valid frame goes: to the callback, to the time synchronisation, into the queue of
responses, or nowhere. -/
inductive RcpRxDelivery
  | reception (frame : SpinelFrameData)
  | timestamp (rcpTime : ℕ)
  | queued
  | dropped
  deriving DecidableEq, Repr

/-- A frame that was handed on: the number of its buffer, the bytes and the receiver. -/
structure RcpRxHandled where
  id : ℕ
  payload : List UInt8
  dest : RcpRxDelivery
  deriving DecidableEq, Repr

/-- Receiving part of `struct openthread_rcp_data`: the buffer, as its number and its filled
part, the number of allocations, and what was handed on. -/
structure RcpRx where
  rxBuffer : Option (ℕ × List UInt8)
  allocs : ℕ
  handled : List RcpRxHandled
  deriving DecidableEq, Repr

/-- After `openthread_rcp_init`. -/
def RcpRx.init : RcpRx := ⟨none, 0, []⟩

structure RcpRxConfig where
  drv : SpinelDrv
  bufSize : ℕ
  frameMax : UInt16
  timestamps : Bool
  reception : Bool

/-- Branches of `openthread_rcp_reception_done` on a payload. -/
def rcpRxDispatch (cfg : RcpRxConfig) (waiting : Bool) (payload : List UInt8) :
    Option RcpRxDelivery := do
  let (isFrame, frame) ←
    spinelDrvCheckReceiveFrame cfg.drv (rcpAnswerBytes payload) .zero cfg.frameMax
  if isFrame then some (if cfg.reception then .reception frame else .dropped)
  else
    let time ← if cfg.timestamps then
        spinelDrvCheckGetTimestamp cfg.drv 0 (rcpAnswerBytes payload)
      else some none
    some (time.elim (if waiting then .queued else .dropped) .timestamp)

/-- `openthread_rcp_reception_byte`; `memOk` says whether `malloc` would succeed. -/
def openthreadRcpReceptionByte (cfg : RcpRxConfig) (memOk : Bool) (bt : UInt8) (s : RcpRx) :
    RcpRx :=
  let s := if s.rxBuffer.isNone ∧ memOk then
      { s with rxBuffer := some (s.allocs, []), allocs := s.allocs + 1 }
    else s
  match s.rxBuffer with
  | some (id, data) =>
    if data.length < cfg.bufSize then { s with rxBuffer := some (id, data ++ [bt]) } else s
  | none => s

/-- `openthread_rcp_reception_done`; `none` if `data_size` wraps around. -/
def openthreadRcpReceptionDone (cfg : RcpRxConfig) (waiting dataValid : Bool) (s : RcpRx) :
    Option RcpRx :=
  if dataValid then
    match s.rxBuffer with
    | some (id, data) =>
      if data.length < hdlcCoderLengthCrc then none
      else do
        let payload := data.take (data.length - hdlcCoderLengthCrc)
        let dest ← rcpRxDispatch cfg waiting payload
        some { s with rxBuffer := none, handled := s.handled ++ [⟨id, payload, dest⟩] }
    | none => some s
  else some s

/-! ### Stream -/

/-- A byte from the radio, and what the environment does at that time. -/
structure RcpRxInput where
  bt : UInt8
  memOk : Bool
  waiting : Bool
  deriving DecidableEq, Repr

structure RcpRxCtx where
  memOk : Bool
  waiting : Bool
  rx : Option RcpRx

def rcpRxCoder (cfg : RcpRxConfig) : HdlcCoder RcpRxCtx :=
  hdlcCoderInpFinishSet
    (hdlcCoderInpDataSet (hdlcCoderInit _) fun bt c =>
      { c with rx := c.rx.map (openthreadRcpReceptionByte cfg c.memOk bt) })
    fun valid c => { c with rx := c.rx.bind (openthreadRcpReceptionDone cfg c.waiting valid) }

/-- `openthread_rcp_reception_handler`, for one byte. -/
def openthreadRcpReceptionHandler (inp : HdlcInp RcpRxCtx) (rx : Option RcpRx) (i : RcpRxInput) :
    HdlcInp RcpRxCtx × Option RcpRx :=
  let r := hdlcCoderInpPoll inp i.bt ⟨i.memOk, i.waiting, rx⟩
  (r.1, r.2.rx)

def openthreadRcpReceive (cfg : RcpRxConfig) (inputs : List RcpRxInput) : Option RcpRx :=
  (inputs.foldl (fun s i => openthreadRcpReceptionHandler s.1 s.2 i)
    ((rcpRxCoder cfg).inp, some .init)).2

/-! ### Frames -/

/-- A frame as the decoder reports it: its bytes, each with whether `malloc` would succeed there,
the verdict, and whether a request was waiting. -/
structure RcpRxFrame where
  bytes : List (UInt8 × Bool)
  valid : Bool
  waiting : Bool

namespace RcpRxFrame

def payload (f : RcpRxFrame) : List UInt8 :=
  (f.bytes.map Prod.fst).take (f.bytes.length - hdlcCoderLengthCrc)

def NoMemory (f : RcpRxFrame) : Prop := ∀ b ∈ f.bytes, b.2 = false

def GotMemory (f : RcpRxFrame) : Prop := ∃ b rest, f.bytes = (b, true) :: rest

instance (f : RcpRxFrame) : Decidable f.NoMemory := inferInstanceAs (Decidable (∀ b ∈ f.bytes, _))

instance (f : RcpRxFrame) : Decidable f.GotMemory :=
  decidable_of_iff (f.bytes.head?.map Prod.snd = some true) (by
    unfold GotMemory
    rcases f.bytes with _ | ⟨⟨b, m⟩, rest⟩ <;> simp)

end RcpRxFrame

/-- A handler call with what the environment does at that time. -/
structure RcpRxEvent where
  event : HdlcEvent
  memOk : Bool
  waiting : Bool

def rcpRxEvents (rx : HdlcRx) : List RcpRxInput → List RcpRxEvent
  | [] => []
  | i :: inputs =>
    (rx.events i.bt).map (⟨·, i.memOk, i.waiting⟩) ++ rcpRxEvents (rx.next i.bt) inputs

/-- Frames in a series of handler calls, with the open frame so far. -/
def rcpRxFramesFrom (pending : List (UInt8 × Bool)) : List RcpRxEvent → List RcpRxFrame
  | [] => []
  | ⟨.data bt, memOk, _⟩ :: events => rcpRxFramesFrom (pending ++ [(bt, memOk)]) events
  | ⟨.finish valid, _, waiting⟩ :: events => ⟨pending, valid, waiting⟩ :: rcpRxFramesFrom [] events

def rcpRxFrames (inputs : List RcpRxInput) : List RcpRxFrame :=
  rcpRxFramesFrom [] (rcpRxEvents .clean inputs)

/-- Frames to be handed on: valid, not too long for the buffer, memory available. -/
def RcpRxFrame.Due (bufSize : ℕ) (f : RcpRxFrame) : Prop :=
  f.valid = true ∧ f.bytes.length ≤ bufSize ∧ f.GotMemory

instance (bufSize : ℕ) (f : RcpRxFrame) : Decidable (f.Due bufSize) :=
  inferInstanceAs (Decidable (_ ∧ _ ∧ _))

/-- Streams on which reception works: a valid frame finds memory at no byte, or at its first one
and fits; and none comes behind an invalid one that found memory. -/
def RcpRxClean (bufSize : ℕ) : List RcpRxFrame → Prop
  | [] => True
  | f :: frames =>
    if f.valid then
      (f.NoMemory ∨ f.GotMemory ∧ f.bytes.length ≤ bufSize) ∧ RcpRxClean bufSize frames
    else f.NoMemory ∧ RcpRxClean bufSize frames ∨ ∀ g ∈ frames, g.valid = false

instance decidableRcpRxClean (bufSize : ℕ) :
    (frames : List RcpRxFrame) → Decidable (RcpRxClean bufSize frames)
  | [] => .isTrue trivial
  | f :: frames =>
    haveI := decidableRcpRxClean bufSize frames
    inferInstanceAs (Decidable (if f.valid then
      (f.NoMemory ∨ f.GotMemory ∧ f.bytes.length ≤ bufSize) ∧ RcpRxClean bufSize frames
    else f.NoMemory ∧ RcpRxClean bufSize frames ∨ ∀ g ∈ frames, g.valid = false))

/-! ### A stream is the fold of its handler calls -/

section Run

variable (cfg : RcpRxConfig)

def rcpRxApply (rx : Option RcpRx) (e : RcpRxEvent) : Option RcpRx :=
  match e.event with
  | .data bt => rx.map (openthreadRcpReceptionByte cfg e.memOk bt)
  | .finish valid => rx.bind (openthreadRcpReceptionDone cfg e.waiting valid)

def rcpRxRun (rx : Option RcpRx) (events : List RcpRxEvent) : Option RcpRx :=
  events.foldl (rcpRxApply cfg) rx

variable (events : List RcpRxEvent) (drv : SpinelDrv) (pending : List (UInt8 × Bool)) (waiting memOk
  : Bool) (spinelId : UInt8) (data : List UInt8) (inputs : List RcpRxInput) (bt : UInt8) (s : RcpRx)

theorem rcpRxRun_none : rcpRxRun cfg none events = none := by
  induction events with
  | nil => rfl
  | cons e events ih =>
    obtain ⟨event, memOk, waiting⟩ := e
    cases event <;> exact ih

theorem openthreadRcpReceptionHandler_eq (regs : HdlcRx) (rx : Option RcpRx) (i : RcpRxInput) :
    openthreadRcpReceptionHandler { (rcpRxCoder cfg).inp with toHdlcRx := regs } rx i =
      ({ (rcpRxCoder cfg).inp with toHdlcRx := regs.next i.bt },
        rcpRxRun cfg rx ((regs.events i.bt).map (⟨·, i.memOk, i.waiting⟩))) := by
  have hcalls : ∀ (events : List HdlcEvent) (c : RcpRxCtx), c.memOk = i.memOk →
      c.waiting = i.waiting →
      (events.foldl (HdlcInp.handle { (rcpRxCoder cfg).inp with toHdlcRx := regs }) c).rx =
        rcpRxRun cfg c.rx (events.map (⟨·, i.memOk, i.waiting⟩)) := by
    intro events
    induction events with
    | nil => exact fun c _ _ => rfl
    | cons e events ih =>
      intro c hmem hwait
      obtain ⟨memOk, waiting, rx⟩ := c
      obtain rfl : memOk = i.memOk := hmem
      obtain rfl : waiting = i.waiting := hwait
      cases e <;> exact ih _ rfl rfl
  rw [openthreadRcpReceptionHandler, hdlcCoderInpPoll_eq]
  exact Prod.ext rfl (hcalls _ _ rfl rfl)

theorem openthreadRcpReceive_eq :
    openthreadRcpReceive cfg inputs = rcpRxRun cfg (some .init) (rcpRxEvents .clean inputs) := by
  have hrun : ∀ (regs : HdlcRx) (rx : Option RcpRx),
      (inputs.foldl (fun s i => openthreadRcpReceptionHandler s.1 s.2 i)
        ({ (rcpRxCoder cfg).inp with toHdlcRx := regs }, rx)).2 =
      rcpRxRun cfg rx (rcpRxEvents regs inputs) := by
    induction inputs with
    | nil => exact fun regs rx => rfl
    | cons i inputs ih =>
      intro regs rx
      rw [foldl_cons, openthreadRcpReceptionHandler_eq, ih, rcpRxEvents, rcpRxRun,
        rcpRxRun, rcpRxRun, foldl_append]
  exact hrun .clean (some .init)

theorem rcpRxFrames_valid_length :
    ∀ f ∈ rcpRxFrames inputs, f.valid = true → hdlcCoderLengthCrc ≤ f.bytes.length := by
  -- The register `cnt` counts the bytes of the open frame.
  have hframes : ∀ (regs : HdlcRx) (pending : List (UInt8 × Bool)), regs.cnt = pending.length →
      ∀ f ∈ rcpRxFramesFrom pending (rcpRxEvents regs inputs), f.valid = true →
        hdlcCoderLengthCrc ≤ f.bytes.length := by
    induction inputs with
    | nil => simp [rcpRxEvents, rcpRxFramesFrom]
    | cons i inputs ih =>
      intro regs pending hcnt
      have htook : ∀ bt memOk, (regs.took bt).cnt = (pending ++ [(bt, memOk)]).length := by
        intro bt memOk
        rw [length_append, ← hcnt]
        rfl
      rw [rcpRxEvents]
      by_cases hflag : i.bt = hdlcCoderFlagSequence
      · by_cases hzero : regs.cnt = 0
        · have hnil : pending = [] := eq_nil_of_length_eq_zero (hcnt ▸ hzero)
          subst hnil
          simpa [HdlcRx.events, HdlcRx.next, hflag, hzero] using ih .clean [] rfl
        simp only [HdlcRx.events, HdlcRx.next, hflag, hzero, if_true, if_false, map_cons,
          map_nil, cons_append, nil_append, rcpRxFramesFrom, mem_cons,
          forall_eq_or_imp]
        refine ⟨fun hvalid => ?_, ih .clean [] rfl⟩
        rw [← hcnt]
        simpa using (Bool.and_eq_true_iff.mp hvalid).1
      by_cases hesc : regs.escape = true
      · simpa [HdlcRx.events, HdlcRx.next, hflag, hesc, rcpRxFramesFrom] using
          ih _ _ (htook (i.bt ^^^ hdlcCoderEscapeSymbol) i.memOk)
      by_cases hseq : i.bt = hdlcCoderEscapeSequence
      · rw [hseq] at hflag ⊢
        simpa [HdlcRx.events, HdlcRx.next, hflag, hesc] using
          ih { regs with escape := true } pending hcnt
      · simpa [HdlcRx.events, HdlcRx.next, hflag, hesc, hseq, rcpRxFramesFrom] using
          ih _ _ (htook i.bt i.memOk)
  exact hframes .clean [] rfl

/-! ### Buffers -/

/-- Every allocated buffer was given away once, in order, but for the one in use. -/
def RcpRx.Owned (s : RcpRx) : Prop :=
  s.handled.map (·.id) ++ (s.rxBuffer.map Prod.fst).toList = List.range s.allocs

theorem openthreadRcpReceptionByte_owned
    (h : s.Owned) : (openthreadRcpReceptionByte cfg memOk bt s).Owned := by
  obtain ⟨buffer, allocs, handled⟩ := s
  unfold RcpRx.Owned at h ⊢
  rcases buffer with _ | ⟨id, data⟩
  · cases memOk with
    | false => simpa [openthreadRcpReceptionByte] using h
    | true =>
      by_cases hroom : 0 < cfg.bufSize <;>
        simp_all [openthreadRcpReceptionByte, range_succ]
  · by_cases hroom : data.length < cfg.bufSize <;>
      simpa [openthreadRcpReceptionByte, hroom] using h

theorem openthreadRcpReceptionDone_owned (valid : Bool) (s s' : RcpRx) (h : s.Owned)
    (hdone : openthreadRcpReceptionDone cfg waiting valid s = some s') : s'.Owned := by
  cases valid with
  | false =>
    obtain rfl := Option.some.inj hdone
    exact h
  | true =>
    obtain ⟨buffer, allocs, handled⟩ := s
    rcases buffer with _ | ⟨id, data⟩
    · obtain rfl := Option.some.inj hdone
      exact h
    by_cases hlen : data.length < hdlcCoderLengthCrc
    · simp [openthreadRcpReceptionDone, hlen] at hdone
    · simp only [openthreadRcpReceptionDone, if_true, hlen, if_false, bind_eq_bind,
        bind_eq_some_iff, Option.some.injEq] at hdone
      obtain ⟨dest, -, rfl⟩ := hdone
      simpa [RcpRx.Owned] using h

/-- **Every buffer is given away exactly once**, on every series of calls. -/
theorem rcpRxRun_owned (s' : RcpRx) (h : s.Owned)
    (hrun : rcpRxRun cfg (some s) events = some s') : s'.Owned := by
  induction events generalizing s with
  | nil => exact Option.some.inj hrun ▸ h
  | cons e events ih =>
    obtain ⟨event, memOk, waiting⟩ := e
    cases event with
    | data bt => exact ih _ (openthreadRcpReceptionByte_owned cfg memOk bt s h) hrun
    | finish valid =>
      have hstep : rcpRxRun cfg (some s) (⟨.finish valid, memOk, waiting⟩ :: events) =
          rcpRxRun cfg (openthreadRcpReceptionDone cfg waiting valid s) events := rfl
      rw [hstep] at hrun
      rcases hdone : openthreadRcpReceptionDone cfg waiting valid s with _ | s''
      · rw [hdone, rcpRxRun_none] at hrun
        simp at hrun
      · rw [hdone] at hrun
        exact ih s'' (openthreadRcpReceptionDone_owned cfg waiting valid s s'' h hdone) hrun

/-! ### Totality of the checks -/

theorem spinelDrvAnswer_isSome (cmd prop : ℕ) (data : List UInt8) (sizeOk : ℕ → Bool) :
    ∃ r, spinelDrvAnswer drv spinelId cmd prop data sizeOk = some r := by
  rcases spinelDrvGetCmd_eq drv spinelId cmd prop data with
    ⟨a, -, -, hget⟩ | ⟨a, -, -, hget⟩ | ⟨-, e, -, -, hget⟩
  · exact ⟨none, by simp [spinelDrvAnswer, hget]⟩
  · by_cases hsize : sizeOk a.param.length = false
    · exact ⟨none, by simp [spinelDrvAnswer, hget, hsize]⟩
    · exact ⟨some a.param, by simp [spinelDrvAnswer, hget, hsize]⟩
  · exact ⟨none, by simp [spinelDrvAnswer, hget]⟩

theorem spinelDrvCheckReceiveFrame_isSome (frame : SpinelFrameData) (frameMax : UInt16) :
    ∃ r, spinelDrvCheckReceiveFrame drv data frame frameMax = some r := by
  obtain ⟨answer, hanswer⟩ := spinelDrvAnswer_isSome drv 0 spinelCmdPropValueIs
    spinelPropStreamRaw data (· != 0)
  rcases answer with _ | param
  · exact ⟨(false, frame), by simp [spinelDrvCheckReceiveFrame, hanswer]⟩
  obtain ⟨g, hg⟩ := spinelDrvGetRadioFrame_ptr param frame frameMax
  exact ⟨_, by rw [spinelDrvCheckReceiveFrame, hanswer]; simp only [bind_eq_bind,
    bind_some, hg]; rfl⟩

theorem spinelDrvCheckGetTimestamp_isSome
    : ∃ r, spinelDrvCheckGetTimestamp drv spinelId data = some r := by
  obtain ⟨answer, hanswer⟩ := spinelDrvAnswer_isSome drv spinelId spinelCmdPropValueIs
    spinelPropRcpTimestamp data (· != 0)
  rcases answer with _ | param
  · exact ⟨none, by simp [spinelDrvCheckGetTimestamp, spinelDrvGetValue, hanswer]⟩
  have hunpack : Unpacks (spinelDatatypeVunpack param param.length true ['X'] [.scalar (some 0)])
      (readUint 8 param >>= some) fun p u => 0 ≤ u.ret ∧ u.stores = [.uint p.1] :=
    .ofLoop (.uint .uint64 fun _ _ _ => ⟨_, rfl, by change (0 : ℤ) ≤ 0 + 8; decide, rfl⟩)
  rcases hunpack.elim with ⟨u, -, hu, hneg, -⟩ | ⟨p, u, -, hu, hpos, hstores⟩
  · exact ⟨none, by simp [spinelDrvCheckGetTimestamp, spinelDrvGetValue, hanswer, hu, hneg]⟩
  · exact ⟨some p.1, by simp [spinelDrvCheckGetTimestamp, spinelDrvGetValue, hanswer, hu,
      not_lt.mpr hpos, hstores, SpinelStore.getUint]⟩

theorem rcpRxDispatch_isSome (payload : List UInt8) :
    ∃ dest, rcpRxDispatch cfg waiting payload = some dest := by
  obtain ⟨⟨isFrame, frame⟩, hframe⟩ := spinelDrvCheckReceiveFrame_isSome cfg.drv
    (rcpAnswerBytes payload) .zero cfg.frameMax
  obtain ⟨time, htime⟩ := spinelDrvCheckGetTimestamp_isSome cfg.drv 0 (rcpAnswerBytes payload)
  simp only [rcpRxDispatch, hframe, bind_eq_bind, bind_some]
  cases isFrame with
  | true => exact ⟨_, rfl⟩
  | false => cases cfg.timestamps <;> simp [htime]

/-! ### Frames in and frames out -/

/-- Bytes of an open frame, collected from a state. -/
def rcpRxCollect (s : RcpRx) (pending : List (UInt8 × Bool)) : RcpRx :=
  pending.foldl (fun s b => openthreadRcpReceptionByte cfg b.2 b.1 s) s

theorem rcpRxCollect_noMemory (hs : s.rxBuffer = none)
    (pending : List (UInt8 × Bool)) (h : ∀ b ∈ pending, b.2 = false) :
    rcpRxCollect cfg s pending = s := by
  induction pending with
  | nil => rfl
  | cons b pending ih =>
    have hb : b.2 = false := h b (by simp)
    have hstep : openthreadRcpReceptionByte cfg b.2 b.1 s = s := by
      simp [openthreadRcpReceptionByte, hs, hb]
    rw [rcpRxCollect, foldl_cons, hstep]
    exact ih fun b' hb' => h b' (by simp [hb'])

theorem rcpRxCollect_append (id : ℕ) (data : List UInt8) (s : RcpRx)
    (hs : s.rxBuffer = some (id, data)) (pending : List (UInt8 × Bool))
    (h : data.length + pending.length ≤ cfg.bufSize) :
    rcpRxCollect cfg s pending =
      { s with rxBuffer := some (id, data ++ pending.map Prod.fst) } := by
  induction pending generalizing s data with
  | nil => simp [rcpRxCollect, ← hs]
  | cons b pending ih =>
    rw [length_cons] at h
    have hroom : data.length < cfg.bufSize := by omega
    have hstep : openthreadRcpReceptionByte cfg b.2 b.1 s =
        { s with rxBuffer := some (id, data ++ [b.1]) } := by
      simp [openthreadRcpReceptionByte, hs, hroom]
    rw [rcpRxCollect, foldl_cons, hstep]
    refine (ih (data ++ [b.1]) _ rfl (by simp; omega)).trans ?_
    simp

theorem rcpRxCollect_gotMemory (hs : s.rxBuffer = none) (f : RcpRxFrame)
    (hmem : f.GotMemory) (hfits : f.bytes.length ≤ cfg.bufSize) :
    rcpRxCollect cfg s f.bytes =
      { s with rxBuffer := some (s.allocs, f.bytes.map Prod.fst), allocs := s.allocs + 1 } := by
  obtain ⟨b, rest, hbytes⟩ := hmem
  rw [hbytes, length_cons] at hfits
  have hroom : 0 < cfg.bufSize := by omega
  have hstep : openthreadRcpReceptionByte cfg true b s =
      { s with rxBuffer := some (s.allocs, [b]), allocs := s.allocs + 1 } := by
    simp [openthreadRcpReceptionByte, hs, hroom]
  rw [hbytes, rcpRxCollect, foldl_cons, hstep]
  exact rcpRxCollect_append cfg s.allocs [b] _ rfl rest (by simp; omega)

theorem openthreadRcpReceptionByte_handled :
    (openthreadRcpReceptionByte cfg memOk bt s).handled = s.handled := by
  obtain ⟨_ | ⟨id, data⟩, allocs, handled⟩ := s
  · cases memOk with
    | false => rfl
    | true => by_cases hroom : 0 < cfg.bufSize <;> simp [openthreadRcpReceptionByte, hroom]
  · by_cases hroom : data.length < cfg.bufSize <;> simp [openthreadRcpReceptionByte, hroom]

theorem rcpRxCollect_handled (pending : List (UInt8 × Bool)) :
    (rcpRxCollect cfg s pending).handled = s.handled := by
  induction pending generalizing s with
  | nil => rfl
  | cons b pending ih => exact (ih _).trans (openthreadRcpReceptionByte_handled cfg b.2 b.1 s)

theorem rcpRxRun_noValid (h : ∀ f ∈ rcpRxFramesFrom pending events, f.valid = false) :
    ∃ s', rcpRxRun cfg (some s) events = some s' ∧ s'.handled = s.handled := by
  induction events generalizing pending s with
  | nil => exact ⟨s, rfl, rfl⟩
  | cons e events ih =>
    obtain ⟨event, memOk, waiting⟩ := e
    cases event with
    | data bt =>
      obtain ⟨s', hs', hhandled⟩ := ih _ (openthreadRcpReceptionByte cfg memOk bt s) h
      exact ⟨s', hs', hhandled.trans (openthreadRcpReceptionByte_handled cfg memOk bt s)⟩
    | finish valid =>
      rw [rcpRxFramesFrom, forall_mem_cons] at h
      obtain ⟨hvalid, hrest⟩ := h
      obtain rfl : valid = false := hvalid
      exact ih [] s hrest

/-- What is handed on for a frame that is due: its own payload, to the receiver that
payload asks for. -/
def RcpRxFrame.delivery (f : RcpRxFrame) : List UInt8 × Option RcpRxDelivery :=
  (f.payload, rcpRxDispatch cfg f.waiting f.payload)

def RcpRx.deliveries (s : RcpRx) : List (List UInt8 × Option RcpRxDelivery) :=
  s.handled.map fun d => (d.payload, some d.dest)

theorem openthreadRcpReceptionDone_due (hs : s.rxBuffer = none) (f : RcpRxFrame)
    (hlen : hdlcCoderLengthCrc ≤ f.bytes.length) (hmem : f.GotMemory)
    (hfits : f.bytes.length ≤ cfg.bufSize) :
    ∃ s', openthreadRcpReceptionDone cfg f.waiting true (rcpRxCollect cfg s f.bytes) = some s' ∧
      s'.rxBuffer = none ∧ s'.deliveries = s.deliveries ++ [f.delivery cfg] := by
  obtain ⟨dest, hdest⟩ := rcpRxDispatch_isSome cfg f.waiting f.payload
  rw [rcpRxCollect_gotMemory cfg s hs f hmem hfits]
  refine ⟨⟨none, s.allocs + 1, s.handled ++ [⟨s.allocs, f.payload, dest⟩]⟩, ?_, rfl, ?_⟩
  · simp only [openthreadRcpReceptionDone, if_true, length_map, not_lt.mpr hlen, if_false]
    rw [← RcpRxFrame.payload, hdest]
    rfl
  · simp [RcpRx.deliveries, RcpRxFrame.delivery, hdest]

/-- The run from an empty buffer: by induction over the calls, each frame is decided at its end. -/
theorem rcpRxRun_clean (hs : s.rxBuffer = none)
    (hlen : ∀ f ∈ rcpRxFramesFrom pending events, f.valid = true →
      hdlcCoderLengthCrc ≤ f.bytes.length)
    (hclean : RcpRxClean cfg.bufSize (rcpRxFramesFrom pending events)) :
    ∃ s', rcpRxRun cfg (some (rcpRxCollect cfg s pending)) events = some s' ∧
      s'.deliveries = s.deliveries ++
        ((rcpRxFramesFrom pending events).filter (·.Due cfg.bufSize)).map (·.delivery cfg) := by
  induction events generalizing pending s with
  | nil =>
    refine ⟨_, rfl, ?_⟩
    simp [RcpRx.deliveries, rcpRxCollect_handled, rcpRxFramesFrom]
  | cons e events ih =>
    obtain ⟨event, memOk, waiting⟩ := e
    cases event with
    | data bt =>
      have hcollect : openthreadRcpReceptionByte cfg memOk bt (rcpRxCollect cfg s pending) =
          rcpRxCollect cfg s (pending ++ [(bt, memOk)]) := by
        simp [rcpRxCollect]
      obtain ⟨s', hs', hdel⟩ := ih (pending ++ [(bt, memOk)]) s hs hlen hclean
      exact ⟨s', (congrArg (rcpRxRun cfg · events) (congrArg some hcollect)).trans hs', hdel⟩
    | finish valid =>
      rw [rcpRxFramesFrom] at hlen hclean ⊢
      rw [forall_mem_cons] at hlen
      obtain ⟨hhead, htail⟩ := hlen
      have hskip : ∀ (f : RcpRxFrame), ¬ f.Due cfg.bufSize → ∀ fs : List RcpRxFrame,
          (f :: fs).filter (·.Due cfg.bufSize) = fs.filter (·.Due cfg.bufSize) := by
        intro f hf fs
        simp [hf]
      cases valid with
      | false =>
        have hnot : ¬ (⟨pending, false, waiting⟩ : RcpRxFrame).Due cfg.bufSize :=
          fun hdue => absurd hdue.1 (by simp)
        rw [hskip _ hnot]
        rcases hclean with ⟨hnone, hclean⟩ | hnone
        · obtain ⟨s', hs', hdel⟩ := ih [] s hs htail hclean
          rw [rcpRxCollect_noMemory cfg s hs pending hnone]
          exact ⟨s', hs', hdel⟩
        obtain ⟨s', hs', hhandled⟩ := rcpRxRun_noValid cfg events []
          (rcpRxCollect cfg s pending) hnone
        refine ⟨s', hs', ?_⟩
        have hfilter : (rcpRxFramesFrom [] events).filter (·.Due cfg.bufSize) = [] := by
          refine filter_eq_nil_iff.mpr fun f hf hdue => ?_
          have hvalid := (of_decide_eq_true hdue).1
          rw [hnone f hf] at hvalid
          simp at hvalid
        simp [RcpRx.deliveries, hhandled, rcpRxCollect_handled, hfilter]
      | true =>
        obtain ⟨hnone | ⟨hmem, hfits⟩, hclean⟩ := hclean
        · have hnot : ¬ (⟨pending, true, waiting⟩ : RcpRxFrame).Due cfg.bufSize := by
            rintro ⟨-, -, b, rest, hbytes⟩
            exact absurd (hnone (b, true) (hbytes ▸ mem_cons_self)) (by simp)
          obtain ⟨s', hs', hdel⟩ := ih [] s hs htail hclean
          rw [hskip _ hnot, rcpRxCollect_noMemory cfg s hs pending hnone]
          refine ⟨s', ?_, hdel⟩
          rw [← hs', rcpRxRun, foldl_cons, rcpRxApply]
          simp [openthreadRcpReceptionDone, hs, rcpRxRun, rcpRxCollect]
        obtain ⟨s₁, hdone, hempty, hdel₁⟩ := openthreadRcpReceptionDone_due cfg s hs
          ⟨pending, true, waiting⟩ (hhead rfl) hmem hfits
        obtain ⟨s', hs', hdel⟩ := ih [] s₁ hempty htail hclean
        have hdue : (⟨pending, true, waiting⟩ : RcpRxFrame).Due cfg.bufSize :=
          ⟨rfl, hfits, hmem⟩
        refine ⟨s', ?_, ?_⟩
        · rw [← hs', rcpRxRun, foldl_cons, rcpRxApply]
          exact congrArg (List.foldl (rcpRxApply cfg) · events) hdone
        · rw [hdel, hdel₁]
          simp [hdue]

/-- **Reception on clean streams.** `data_size` never underflows, exactly the frames that are due
are handed on, in order, each as its own payload, and every buffer is given away once. -/
theorem openthreadRcpReceive_whole (inputs : List RcpRxInput)
    (hclean : RcpRxClean cfg.bufSize (rcpRxFrames inputs)) :
    ∃ s, openthreadRcpReceive cfg inputs = some s ∧ s.deliveries =
        ((rcpRxFrames inputs).filter (·.Due cfg.bufSize)).map (·.delivery cfg) ∧
      s.Owned := by
  obtain ⟨s, hs, hdel⟩ := rcpRxRun_clean cfg (rcpRxEvents .clean inputs) [] .init rfl
    (rcpRxFrames_valid_length inputs) hclean
  rw [openthreadRcpReceive_eq]
  exact ⟨s, hs, hdel, rcpRxRun_owned cfg _ .init s rfl hs⟩

/-- **No buffer is lost or given away twice** on a stream, unless `data_size` wraps around. -/
theorem openthreadRcpReceive_owned (inputs : List RcpRxInput) :
    (openthreadRcpReceive cfg inputs).elim True RcpRx.Owned := by
  rw [openthreadRcpReceive_eq]
  cases hs : rcpRxRun cfg (some .init) _ with
  | none => trivial
  | some s => exact rcpRxRun_owned cfg _ .init s rfl hs

end Run

/-- A stream during which the environment does not change. -/
def rcpRxStream (memOk waiting : Bool) (bts : List UInt8) : List RcpRxInput :=
  bts.map (⟨·, memOk, waiting⟩)

def rcpRxExample (bufSize : ℕ) : RcpRxConfig := ⟨spinelDrvInit 0, bufSize, 127, false, true⟩

/-- Two answers with a broken frame between them for which there is no memory, and another
behind them. -/
def rcpRxCleanExample : List RcpRxInput :=
  rcpRxStream true true (hdlcEncode [0x81, 6, 0, 0]) ++ rcpRxStream false true [1, 2, 3, 0x7e] ++
    rcpRxStream true false (hdlcEncode [0x82, 6, 0, 0]) ++ rcpRxStream true true [1, 2, 3, 0x7e]

/-- Both answers are handed on, one to a waiting request and one to nobody. -/
theorem openthreadRcpReceive_whole_answers :
    RcpRxClean 64 (rcpRxFrames rcpRxCleanExample) ∧
      ∃ s, openthreadRcpReceive (rcpRxExample 64) rcpRxCleanExample = some s ∧ s.deliveries =
          [([0x81, 6, 0, 0], some .queued), ([0x82, 6, 0, 0], some .dropped)] := by
  have hclean : RcpRxClean 64 (rcpRxFrames rcpRxCleanExample) := by decide +kernel
  obtain ⟨s, hs, hdel, -⟩ := openthreadRcpReceive_whole (rcpRxExample 64) rcpRxCleanExample hclean
  exact ⟨hclean, s, hs, hdel.trans (by decide +kernel)⟩

/-- Behind a broken frame an answer comes with its bytes in front. A frame longer than the buffer is
cut. And when only the last byte finds memory, `data_size` wraps around. -/
theorem openthreadRcpReceive_torn :
    (openthreadRcpReceive (rcpRxExample 64) (rcpRxStream true true
        ([0x7e, 1, 2] ++ hdlcEncode [0x81, 6, 0, 0]))).map (·.handled.map (·.payload)) =
      some [[1, 2, 0x81, 6, 0, 0]] ∧
    (rcpRxFrames (rcpRxStream true true ([0x7e, 1, 2] ++ hdlcEncode [0x81, 6, 0, 0]))).map
        (fun f => (f.valid, f.payload)) = [(false, []), (true, [0x81, 6, 0, 0])] ∧
    (openthreadRcpReceive (rcpRxExample 4) (rcpRxStream true true
        (hdlcEncode [1, 2, 3, 4]))).map (·.handled.map (·.payload)) = some [[1, 2]] ∧
    openthreadRcpReceive (rcpRxExample 64) (rcpRxStream false true
        ((hdlcEncode [1, 2, 3, 4]).take 6) ++ rcpRxStream true true
        ((hdlcEncode [1, 2, 3, 4]).drop 6)) = none := by
  refine ⟨?_, ?_, ?_, ?_⟩ <;> decide +kernel

end TlZephyr
