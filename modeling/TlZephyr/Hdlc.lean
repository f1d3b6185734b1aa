import TlZephyr.Crc16

/-!
# HDLC Coder of the Radio Co-Processor Link

`hdlc_coder.c`: the outgoing half turns the bytes of a frame into flag, escaped contents, escaped
check bytes and flag; the incoming half undoes it and reports every unescaped byte and, at each
flag, whether the frame was valid. Both halves call out through function pointers with a context.
Here a handler is an optional state transformer of the context type `σ`, so the coder runs both
against a recorder and against the driver's own state.
-/

namespace TlZephyr

open List

def hdlcCoderInitCrc : UInt16 := 0xffff
def hdlcCoderValidCrc : UInt16 := 0xf0b8
def hdlcCoderLengthCrc : ℕ := 2

def hdlcCoderFlagXon : UInt8 := 0x11
def hdlcCoderFlagXoff : UInt8 := 0x13
def hdlcCoderEscapeSymbol : UInt8 := 0x20
def hdlcCoderFlagSequence : UInt8 := 0x7e
def hdlcCoderEscapeSequence : UInt8 := 0x7d
def hdlcCoderFlagSpecial : UInt8 := 0xf8

/-- Outgoing half of `struct hdlc_coder`. -/
structure HdlcOut (σ : Type*) where
  dataHandler : Option (UInt8 → σ → σ)
  crc : UInt16
  finish : Bool

/-- Decoding state of the incoming half. `cnt` counts the bytes of one frame. -/
structure HdlcRx where
  crc : UInt16
  cnt : ℕ
  escape : Bool

/-- Incoming half of `struct hdlc_coder`. -/
structure HdlcInp (σ : Type*) extends HdlcRx where
  dataHandler : Option (UInt8 → σ → σ)
  finishHandler : Option (Bool → σ → σ)

/-- `struct hdlc_coder` without the context pointer, which is passed along instead. -/
structure HdlcCoder (σ : Type*) where
  out : HdlcOut σ
  inp : HdlcInp σ

def hdlcCoderInit (σ : Type*) : HdlcCoder σ where
  out := { dataHandler := none, crc := hdlcCoderInitCrc, finish := true }
  inp := { dataHandler := none, finishHandler := none, crc := hdlcCoderInitCrc,
           cnt := 0, escape := false }

/-- `hdlc_coder_escape`: the bytes that never appear inside a frame as they are. -/
def hdlcCoderEscape (bt : UInt8) : Bool :=
  bt == hdlcCoderFlagXon || bt == hdlcCoderFlagXoff || bt == hdlcCoderFlagSequence ||
    bt == hdlcCoderEscapeSequence || bt == hdlcCoderFlagSpecial

section Coder

variable {σ : Type*}

def hdlcCoderOutDataSet (coder : HdlcCoder σ) (handler : UInt8 → σ → σ) : HdlcCoder σ :=
  { coder with out := { coder.out with dataHandler := some handler } }

def hdlcCoderInpDataSet (coder : HdlcCoder σ) (handler : UInt8 → σ → σ) : HdlcCoder σ :=
  { coder with inp := { coder.inp with dataHandler := some handler } }

def hdlcCoderInpFinishSet (coder : HdlcCoder σ) (handler : Bool → σ → σ) : HdlcCoder σ :=
  { coder with inp := { coder.inp with finishHandler := some handler } }

/-- Bytes that stand for one byte: itself, or the escape and the byte with bit 5 flipped. -/
def hdlcEscaped (bt : UInt8) : List UInt8 :=
  if hdlcCoderEscape bt then [hdlcCoderEscapeSequence, bt ^^^ hdlcCoderEscapeSymbol]
  else [bt]

/-- Calls of the outgoing data handler, in order; a missing handler loses the bytes. -/
def HdlcOut.emit (out : HdlcOut σ) (bts : List UInt8) (ctx : σ) : σ :=
  match out.dataHandler with
  | some handler => bts.foldl (fun c bt => handler bt c) ctx
  | none => ctx

/-- `hdlc_coder_out_finish`. The argument `data_ok` is ignored by the code. -/
def hdlcCoderOutFinish (out : HdlcOut σ) (ctx : σ) : HdlcOut σ × σ :=
  let ctx :=
    if !out.finish then
      let crc := out.crc ^^^ 0xffff
      let crcH := (crc >>> 8).toUInt8
      let crcL := crc.toUInt8
      let ctx := out.emit (hdlcEscaped crcL) ctx
      let ctx := out.emit (hdlcEscaped crcH) ctx
      out.emit [hdlcCoderFlagSequence] ctx
    else ctx
  ({ out with crc := hdlcCoderInitCrc, finish := true }, ctx)

def hdlcCoderOutPoll (out : HdlcOut σ) (bt : UInt8) (ctx : σ) : HdlcOut σ × σ :=
  let ctx := if out.finish then out.emit [hdlcCoderFlagSequence] ctx else ctx
  let ctx := out.emit (hdlcEscaped bt) ctx
  ({ out with crc := crc16Ccitt out.crc [bt], finish := false }, ctx)

/-- Common tail of the two data branches of `hdlc_coder_inp_poll`. -/
def HdlcInp.take (inp : HdlcInp σ) (bt : UInt8) (ctx : σ) : HdlcInp σ × σ :=
  let ctx := match inp.dataHandler with
    | some handler => handler bt ctx
    | none => ctx
  ({ inp with crc := crc16Ccitt inp.crc [bt], cnt := inp.cnt + 1, escape := false }, ctx)

def hdlcCoderInpPoll (inp : HdlcInp σ) (bt : UInt8) (ctx : σ) : HdlcInp σ × σ :=
  if bt = hdlcCoderFlagSequence then
    let ctx :=
      if inp.cnt ≠ 0 then
        match inp.finishHandler with
        | some handler =>
          handler (decide (hdlcCoderLengthCrc ≤ inp.cnt) && inp.crc == hdlcCoderValidCrc) ctx
        | none => ctx
      else ctx
    ({ inp with crc := hdlcCoderInitCrc, escape := false, cnt := 0 }, ctx)
  else if inp.escape then
    inp.take (bt ^^^ hdlcCoderEscapeSymbol) ctx
  else if bt = hdlcCoderEscapeSequence then
    ({ inp with escape := true }, ctx)
  else
    inp.take bt ctx

def hdlcCoderOutPolls (out : HdlcOut σ) (bts : List UInt8) (ctx : σ) : HdlcOut σ × σ :=
  bts.foldl (fun s bt => hdlcCoderOutPoll s.1 bt s.2) (out, ctx)

def hdlcCoderInpPolls (inp : HdlcInp σ) (bts : List UInt8) (ctx : σ) : HdlcInp σ × σ :=
  bts.foldl (fun s bt => hdlcCoderInpPoll s.1 bt s.2) (inp, ctx)

/-- One frame: a poll for every byte, then the finish. -/
def hdlcCoderOutFrame (out : HdlcOut σ) (bts : List UInt8) (ctx : σ) : HdlcOut σ × σ :=
  let s := hdlcCoderOutPolls out bts ctx
  hdlcCoderOutFinish s.1 s.2

end Coder

/-! ### Encoder -/

open HdlcOut

section Encoder

variable {σ : Type*}

/-- The wire form of a frame: flag, escaped contents and check bytes, flag. -/
def hdlcEncode (bts : List UInt8) : List UInt8 :=
  hdlcCoderFlagSequence ::
    ((bts ++ crc16CheckBytes bts).flatMap hdlcEscaped ++ [hdlcCoderFlagSequence])

@[simp] theorem HdlcOut.emit_nil (out : HdlcOut σ) (ctx : σ) : out.emit [] ctx = ctx := by
  unfold emit
  cases out.dataHandler <;> rfl

theorem HdlcOut.emit_append (out : HdlcOut σ) (as bs : List UInt8) (ctx : σ) :
    out.emit (as ++ bs) ctx = out.emit bs (out.emit as ctx) := by
  unfold emit
  cases out.dataHandler with
  | none => rfl
  | some handler => exact foldl_append

theorem HdlcOut.emit_cons (out : HdlcOut σ) (b : UInt8) (bs : List UInt8) (ctx : σ) :
    out.emit (b :: bs) ctx = out.emit bs (out.emit [b] ctx) :=
  out.emit_append [b] bs ctx

@[simp] theorem HdlcOut.emit_mk (out : HdlcOut σ) (crc : UInt16) (fin : Bool) :
    (HdlcOut.mk out.dataHandler crc fin).emit = out.emit := rfl

theorem hdlcCoderOutPolls_cons (out : HdlcOut σ) (bt : UInt8) (bts : List UInt8) (ctx : σ) :
    hdlcCoderOutPolls out (bt :: bts) ctx =
      (⟨out.dataHandler, crc16Ccitt out.crc (bt :: bts), false⟩,
        out.emit ((if out.finish then [hdlcCoderFlagSequence] else []) ++
          (bt :: bts).flatMap hdlcEscaped) ctx) := by
  induction bts generalizing out bt ctx with
  | nil =>
    cases hfin : out.finish <;> simp [hdlcCoderOutPolls, hdlcCoderOutPoll, hfin]
    rw [← emit_cons]
  | cons b bs ih =>
    have hstep : hdlcCoderOutPolls out (bt :: b :: bs) ctx =
        hdlcCoderOutPolls (hdlcCoderOutPoll out bt ctx).1 (b :: bs)
          (hdlcCoderOutPoll out bt ctx).2 := rfl
    rw [hstep, ih]
    cases hfin : out.finish <;>
      simp [hdlcCoderOutPoll, hfin, emit_append]
    rw [emit_cons out hdlcCoderFlagSequence (_ ++ _), emit_append, emit_append]

theorem hdlcCoderOutFinish_open (out : HdlcOut σ) (ctx : σ) (h : out.finish = false)
    (bts : List UInt8) (hcrc : out.crc = crc16Ccitt hdlcCoderInitCrc bts) :
    hdlcCoderOutFinish out ctx = (⟨out.dataHandler, hdlcCoderInitCrc, true⟩,
        out.emit ((crc16CheckBytes bts).flatMap hdlcEscaped ++ [hdlcCoderFlagSequence])
          ctx) := by
  simp [hdlcCoderOutFinish, h, hcrc, crc16CheckBytes, hdlcCoderInitCrc, emit_append]

/-- **The encoder emits the wire form** from a frame boundary, and returns to a boundary. -/
theorem hdlcCoderOutFrame_emit (out : HdlcOut σ) (bts : List UInt8) (ctx : σ)
    (hne : bts ≠ []) (hfin : out.finish = true) (hcrc : out.crc = hdlcCoderInitCrc) :
    hdlcCoderOutFrame out bts ctx = (out, out.emit (hdlcEncode bts) ctx) := by
  obtain ⟨bt, rest, rfl⟩ := exists_cons_of_ne_nil hne
  simp only [hdlcCoderOutFrame, hdlcCoderOutPolls_cons]
  rw [hdlcCoderOutFinish_open _ _ rfl (bt :: rest) (by rw [hcrc])]
  rw [emit_mk, ← emit_append]
  refine Prod.ext ?_ ?_
  · cases out
    simp_all
  · simp [hfin, hdlcEncode]

end Encoder

/-! ### Decoder -/

inductive HdlcEvent
  | data (bt : UInt8)
  | finish (valid : Bool)
  deriving DecidableEq, Repr

/-- Decoding state after `hdlc_coder_init` and after every flag. -/
def HdlcRx.clean : HdlcRx := ⟨hdlcCoderInitCrc, 0, false⟩

def HdlcRx.took (rx : HdlcRx) (bt : UInt8) : HdlcRx :=
  ⟨crc16Ccitt rx.crc [bt], rx.cnt + 1, false⟩

def HdlcRx.next (rx : HdlcRx) (bt : UInt8) : HdlcRx :=
  if bt = hdlcCoderFlagSequence then HdlcRx.clean
  else if rx.escape then rx.took (bt ^^^ hdlcCoderEscapeSymbol)
  else if bt = hdlcCoderEscapeSequence then { rx with escape := true }
  else rx.took bt

/-- The handler calls one byte of the stream causes. -/
def HdlcRx.events (rx : HdlcRx) (bt : UInt8) : List HdlcEvent :=
  if bt = hdlcCoderFlagSequence then
    if rx.cnt = 0 then []
    else [.finish (decide (hdlcCoderLengthCrc ≤ rx.cnt) && rx.crc == hdlcCoderValidCrc)]
  else if rx.escape then [.data (bt ^^^ hdlcCoderEscapeSymbol)]
  else if bt = hdlcCoderEscapeSequence then []
  else [.data bt]

def HdlcRx.run (rx : HdlcRx) (bts : List UInt8) : HdlcRx := bts.foldl HdlcRx.next rx

def HdlcRx.eventsOf (rx : HdlcRx) : List UInt8 → List HdlcEvent
  | [] => []
  | bt :: bts => rx.events bt ++ (rx.next bt).eventsOf bts

section Decoder

variable {σ : Type*}

def HdlcInp.handle (inp : HdlcInp σ) (ctx : σ) : HdlcEvent → σ
  | .data bt => match inp.dataHandler with
    | some handler => handler bt ctx
    | none => ctx
  | .finish ok => match inp.finishHandler with
    | some handler => handler ok ctx
    | none => ctx

theorem hdlcCoderInpPoll_eq (inp : HdlcInp σ) (bt : UInt8) (ctx : σ) :
    hdlcCoderInpPoll inp bt ctx = ({ inp with toHdlcRx := inp.toHdlcRx.next bt },
        (inp.toHdlcRx.events bt).foldl inp.handle ctx) := by
  unfold hdlcCoderInpPoll HdlcRx.next HdlcRx.events HdlcInp.take
  by_cases hflag : bt = hdlcCoderFlagSequence
  · by_cases hcnt : inp.cnt = 0 <;> simp [hflag, hcnt, HdlcRx.clean, HdlcInp.handle]
  by_cases hesc : inp.escape = true
  · simp [hflag, hesc, HdlcRx.took, HdlcInp.handle]
  · by_cases hseq : bt = hdlcCoderEscapeSequence
    · subst hseq
      simp [hflag, hesc]
    · simp [hflag, hesc, hseq, HdlcRx.took, HdlcInp.handle]

theorem hdlcCoderInpPolls_eq (inp : HdlcInp σ) (bts : List UInt8) (ctx : σ) :
    hdlcCoderInpPolls inp bts ctx = ({ inp with toHdlcRx := inp.toHdlcRx.run bts },
        (inp.toHdlcRx.eventsOf bts).foldl inp.handle ctx) := by
  induction bts generalizing inp ctx with
  | nil => rfl
  | cons bt bts ih =>
    have hstep : hdlcCoderInpPolls inp (bt :: bts) ctx =
        hdlcCoderInpPolls (hdlcCoderInpPoll inp bt ctx).1 bts (hdlcCoderInpPoll inp bt ctx).2 := rfl
    rw [hstep, hdlcCoderInpPoll_eq, ih, HdlcRx.eventsOf, foldl_append]
    rfl

end Decoder

variable (rx : HdlcRx) (xs raw : List UInt8) (frames : List (List UInt8)) (bts rest : List UInt8)

theorem HdlcRx.eventsOf_append (as bs : List UInt8) :
    rx.eventsOf (as ++ bs) = rx.eventsOf as ++ (rx.run as).eventsOf bs := by
  induction as generalizing rx with
  | nil => rfl
  | cons a as ih => simp only [cons_append, eventsOf, ih, append_assoc]; rfl

@[simp] theorem HdlcRx.next_flag : rx.next hdlcCoderFlagSequence = clean := by
  simp [next]

theorem HdlcRx.run_flag : rx.run (bts ++ [hdlcCoderFlagSequence]) = clean := by
  simp [run]

/-- Undoing the escapes of a stream; the flag says that an escape is pending. -/
def hdlcUnescape : Bool → List UInt8 → List UInt8
  | _, [] => []
  | true, bt :: bts => (bt ^^^ hdlcCoderEscapeSymbol) :: hdlcUnescape false bts
  | false, bt :: bts =>
    if bt = hdlcCoderEscapeSequence then hdlcUnescape true bts
    else bt :: hdlcUnescape false bts

/-- Between flags the decoder reports the unescaped bytes and keeps their CRC and count. -/
theorem HdlcRx.run_noFlag (hraw : hdlcCoderFlagSequence ∉ raw) :
    rx.eventsOf raw = (hdlcUnescape rx.escape raw).map .data ∧
      (rx.run raw).crc = crc16Ccitt rx.crc (hdlcUnescape rx.escape raw) ∧
      (rx.run raw).cnt = rx.cnt + (hdlcUnescape rx.escape raw).length := by
  induction raw generalizing rx with
  | nil => simp [eventsOf, run, hdlcUnescape]
  | cons bt raw ih =>
    obtain ⟨hne, hrest⟩ : bt ≠ hdlcCoderFlagSequence ∧ hdlcCoderFlagSequence ∉ raw := by
      simpa [eq_comm] using hraw
    obtain ⟨hev, hcrc, hcnt⟩ := ih (rx.next bt) hrest
    have hrun : rx.run (bt :: raw) = (rx.next bt).run raw := rfl
    rw [hrun, eventsOf, hev, hcrc, hcnt]
    -- The three ways of reading a byte that is not a flag.
    cases hesc : rx.escape
    · by_cases hseq : bt = hdlcCoderEscapeSequence
      · subst hseq
        simp [next, events, hne, hesc, hdlcUnescape]
      · simp [next, events, hne, hesc, hseq, hdlcUnescape, took]
        omega
    · simp [next, events, hne, hesc, hdlcUnescape, took]
      omega

/-- Whether the contents of a frame end in their own check bytes. -/
def hdlcContentsValid (xs : List UInt8) : Bool :=
  decide (hdlcCoderLengthCrc ≤ xs.length) && crc16Ccitt hdlcCoderInitCrc xs == hdlcCoderValidCrc

theorem hdlcContentsValid_iff :
    hdlcContentsValid xs = true ↔ ∃ bs, xs = bs ++ crc16CheckBytes bs := by
  simp only [hdlcContentsValid, Bool.and_eq_true, decide_eq_true_eq, beq_iff_eq]
  constructor
  · rintro ⟨hlen, hres⟩
    exact (crc16Ccitt_residue_iff xs hlen).mp hres
  · rintro ⟨bs, rfl⟩
    exact ⟨by simp [hdlcCoderLengthCrc], crc16Ccitt_append_checkBytes bs⟩

/-- What is reported for the contents of one frame: every byte and the verdict, if there are any. -/
def hdlcFrameReports (xs : List UInt8) : List HdlcEvent :=
  if xs = [] then [] else xs.map .data ++ [.finish (hdlcContentsValid xs)]

/-- **One segment.** The bytes up to the next flag are reported as one frame of unescaped contents.
-/
theorem HdlcRx.eventsOf_segment (hraw : hdlcCoderFlagSequence ∉ raw) :
    clean.eventsOf (raw ++ hdlcCoderFlagSequence :: rest) =
      hdlcFrameReports (hdlcUnescape false raw) ++ clean.eventsOf rest := by
  obtain ⟨hev, hcrc, hcnt⟩ := clean.run_noFlag raw hraw
  rw [eventsOf_append, eventsOf, next_flag, hev]
  rw [← append_assoc]
  congr 1
  have hcrc' : (clean.run raw).crc = crc16Ccitt hdlcCoderInitCrc (hdlcUnescape false raw) :=
    hcrc
  have hcnt' : (clean.run raw).cnt = (hdlcUnescape false raw).length := by
    simpa [clean] using hcnt
  by_cases hnil : hdlcUnescape false raw = []
  · simp [hdlcFrameReports, hnil, events, hcnt', show clean.escape = false from rfl]
  · simp [hdlcFrameReports, hnil, events, hcnt', hcrc', hdlcContentsValid,
      show clean.escape = false from rfl]

/-! ### Escaping -/

theorem flag_not_mem_hdlcEscaped : ∀ bt : UInt8, hdlcCoderFlagSequence ∉ hdlcEscaped bt := by
  decide +kernel

private theorem hdlcEscape_undo :
    ∀ bt : UInt8, hdlcCoderEscape bt = false → bt ≠ hdlcCoderEscapeSequence := by
  decide +kernel

theorem hdlcUnescape_escaped_append (bt : UInt8) (rest : List UInt8) :
    hdlcUnescape false (hdlcEscaped bt ++ rest) = bt :: hdlcUnescape false rest := by
  unfold hdlcEscaped
  cases hesc : hdlcCoderEscape bt
  · simp [hdlcUnescape, hdlcEscape_undo bt hesc]
  · simp [hdlcUnescape]

theorem hdlcUnescape_flatMap_escaped : hdlcUnescape false (xs.flatMap hdlcEscaped) = xs := by
  induction xs with
  | nil => rfl
  | cons x xs ih => rw [flatMap_cons, hdlcUnescape_escaped_append, ih]

theorem flag_not_mem_flatMap_escaped : hdlcCoderFlagSequence ∉ xs.flatMap hdlcEscaped := by
  simp only [mem_flatMap, not_exists, not_and]
  exact fun x _ => flag_not_mem_hdlcEscaped x

/-- Reports for a frame that was encoded: its bytes, its check bytes, `finish(true)`. -/
def hdlcValidReports (bts : List UInt8) : List HdlcEvent :=
  (bts ++ crc16CheckBytes bts).map .data ++ [.finish true]

/-- **One frame.** The wire form of a string is reported as it with its check bytes, valid. -/
theorem HdlcRx.eventsOf_encode :
    clean.eventsOf (hdlcEncode bts ++ rest) = hdlcValidReports bts ++ clean.eventsOf rest := by
  set xs := bts ++ crc16CheckBytes bts with hxs
  have hne : xs ≠ [] := by simp [hxs, crc16CheckBytes]
  have hvalid : hdlcContentsValid xs = true := (hdlcContentsValid_iff xs).mpr ⟨bts, hxs⟩
  have hopen : clean.eventsOf (hdlcEncode bts ++ rest) =
      clean.eventsOf (xs.flatMap hdlcEscaped ++ hdlcCoderFlagSequence :: rest) := by
    -- The leading flag closes an empty frame, which is not reported.
    have := HdlcRx.eventsOf_segment [] (xs.flatMap hdlcEscaped ++ hdlcCoderFlagSequence :: rest)
      (by simp)
    simpa [hdlcEncode, hxs, hdlcUnescape, hdlcFrameReports] using this
  rw [hopen, eventsOf_segment _ _ (flag_not_mem_flatMap_escaped xs), hdlcUnescape_flatMap_escaped]
  simp [hdlcFrameReports, hne, hvalid, hdlcValidReports, ← hxs]

/-! ### Round trip -/

/-- Coder with recording handlers on both sides. -/
def hdlcRecorder : HdlcCoder (List UInt8 × List HdlcEvent) :=
  hdlcCoderInpFinishSet
    (hdlcCoderInpDataSet
      (hdlcCoderOutDataSet (hdlcCoderInit _) fun bt log => (log.1 ++ [bt], log.2))
      fun bt log => (log.1, log.2 ++ [.data bt]))
    fun ok log => (log.1, log.2 ++ [.finish ok])

/-- The bytes the encoder emits for a sequence of frames. -/
def hdlcSent (frames : List (List UInt8)) : List UInt8 :=
  (frames.foldl (fun s bts => hdlcCoderOutFrame s.1 bts s.2) (hdlcRecorder.out, ([], []))).2.1

/-- The handler calls the decoder makes on a stream. -/
def hdlcReports (stream : List UInt8) : List HdlcEvent :=
  (hdlcCoderInpPolls hdlcRecorder.inp stream ([], [])).2.2

theorem hdlcReports_eq (stream : List UInt8) :
    hdlcReports stream = HdlcRx.clean.eventsOf stream := by
  have hfold : ∀ (evs : List HdlcEvent) (log : List UInt8 × List HdlcEvent),
      evs.foldl hdlcRecorder.inp.handle log = (log.1, log.2 ++ evs) := by
    intro evs
    induction evs with
    | nil => simp
    | cons ev evs ih =>
      intro log
      rw [foldl_cons, ih]
      cases ev <;> simp [HdlcInp.handle, hdlcRecorder, hdlcCoderInpFinishSet, hdlcCoderInpDataSet]
  rw [hdlcReports, hdlcCoderInpPolls_eq, hfold]
  rfl

theorem hdlcSent_eq (hne : ∀ bts ∈ frames, bts ≠ []) :
    hdlcSent frames = frames.flatMap hdlcEncode := by
  have hemit : ∀ (bts : List UInt8) (log : List UInt8 × List HdlcEvent),
      hdlcRecorder.out.emit bts log = (log.1 ++ bts, log.2) := by
    intro bts
    induction bts with
    | nil => simp
    | cons b bts ih =>
      intro log
      rw [emit_cons, ih]
      simp [emit, hdlcRecorder, hdlcCoderOutDataSet, hdlcCoderInpDataSet, hdlcCoderInpFinishSet]
  have hrun : ∀ (frames : List (List UInt8)) (log : List UInt8 × List HdlcEvent),
      (∀ bts ∈ frames, bts ≠ []) →
      frames.foldl (fun s bts => hdlcCoderOutFrame s.1 bts s.2) (hdlcRecorder.out, log) =
        (hdlcRecorder.out, (log.1 ++ frames.flatMap hdlcEncode, log.2)) := by
    intro frames
    induction frames with
    | nil => simp
    | cons bts frames ih =>
      intro log h
      rw [foldl_cons, hdlcCoderOutFrame_emit _ _ _ (h bts (by simp)) rfl rfl, hemit,
        ih _ fun bts hb => h bts (mem_cons_of_mem _ hb)]
      simp
  rw [hdlcSent, hrun frames _ hne]
  simp

/-- A frame boundary: the start of the stream, or just after a flag. -/
def hdlcBoundary (lead : List UInt8) : Prop :=
  lead = [] ∨ ∃ garbage, lead = garbage ++ [hdlcCoderFlagSequence]

theorem hdlcReports_append (lead rest : List UInt8) (h : hdlcBoundary lead) :
    hdlcReports (lead ++ rest) = hdlcReports lead ++ hdlcReports rest := by
  rw [hdlcReports_eq, hdlcReports_eq, hdlcReports_eq, HdlcRx.eventsOf_append]
  rcases h with rfl | ⟨garbage, rfl⟩
  · rfl
  · rw [HdlcRx.run_flag]

theorem hdlcReports_encodes :
    hdlcReports (frames.flatMap hdlcEncode) = frames.flatMap hdlcValidReports := by
  rw [hdlcReports_eq]
  induction frames with
  | nil => rfl
  | cons bts frames ih => rw [flatMap_cons, HdlcRx.eventsOf_encode, ih, flatMap_cons]

/-- Where a `finish(true)` can stand in the reports of one frame and what follows it. -/
theorem hdlcFrameReports_append_eq {xs : List UInt8} {rest pre post : List HdlcEvent}
    (h : hdlcFrameReports xs ++ rest = pre ++ .finish true :: post) :
    (pre = xs.map .data ∧ hdlcContentsValid xs = true) ∨
      ∃ pre', pre = hdlcFrameReports xs ++ pre' ∧ rest = pre' ++ .finish true :: post := by
  by_cases hnil : xs = []
  · exact .inr ⟨pre, by simp [hdlcFrameReports, hnil], by simpa [hdlcFrameReports, hnil] using h⟩
  have hsplit : ∀ (xs : List UInt8) (ok : Bool) (pre : List HdlcEvent),
      xs.map .data ++ .finish ok :: rest = pre ++ .finish true :: post →
      (pre = xs.map .data ∧ ok = true) ∨ ∃ pre', pre = xs.map .data ++ .finish ok :: pre' ∧
          rest = pre' ++ .finish true :: post := by
    intro xs ok
    induction xs with
    | nil =>
      intro pre h
      rcases pre with _ | ⟨ev, pre⟩
      · exact .inl (by simpa using And.left (List.cons.inj h))
      simp only [map_nil, nil_append, cons_append, List.cons.injEq] at h
      obtain ⟨rfl, h⟩ := h
      exact .inr ⟨pre, rfl, h⟩
    | cons x xs ih =>
      intro pre h
      rcases pre with _ | ⟨ev, pre⟩
      · simp at h
      simp only [map_cons, cons_append, List.cons.injEq] at h
      obtain ⟨rfl, h⟩ := h
      rcases ih pre h with ⟨rfl, hok⟩ | ⟨pre', rfl, hrest⟩
      · exact .inl ⟨rfl, hok⟩
      · exact .inr ⟨pre', by simp, hrest⟩
  simp only [hdlcFrameReports, hnil, if_false, append_assoc, cons_append, nil_append] at h ⊢
  exact hsplit xs _ pre h

theorem hdlcReports_finish_true {stream : List UInt8} {pre post : List HdlcEvent}
    (h : hdlcReports stream = pre ++ .finish true :: post) :
    ∃ lead raw rest, stream = lead ++ raw ++ hdlcCoderFlagSequence :: rest ∧
      hdlcBoundary lead ∧ hdlcCoderFlagSequence ∉ raw ∧
      pre = hdlcReports lead ++ (hdlcUnescape false raw).map .data ∧
      hdlcContentsValid (hdlcUnescape false raw) = true := by
  -- Induction on what is left of the stream, one segment at a time.
  induction hlen : stream.length using Nat.strongRecOn generalizing stream pre with
  | ind n ih =>
    by_cases hflag : hdlcCoderFlagSequence ∈ stream
    · obtain ⟨raw, rest, rfl, hraw⟩ := eq_append_cons_of_mem hflag
      rw [hdlcReports_eq, HdlcRx.eventsOf_segment raw rest hraw, ← hdlcReports_eq] at h
      rcases hdlcFrameReports_append_eq h with ⟨rfl, hvalid⟩ | ⟨pre', rfl, hrest⟩
      · exact ⟨[], raw, rest, by simp, .inl rfl, hraw, by simp [hdlcReports_eq,
          HdlcRx.eventsOf], hvalid⟩
      obtain ⟨lead, raw', rest', rfl, hlead, hraw', rfl, hvalid⟩ :=
        ih rest.length (by simp [← hlen]; omega) hrest rfl
      refine ⟨raw ++ hdlcCoderFlagSequence :: lead, raw', rest', by simp, ?_, hraw', ?_, hvalid⟩
      · rcases hlead with rfl | ⟨garbage, rfl⟩
        · exact .inr ⟨raw, rfl⟩
        · exact .inr ⟨raw ++ hdlcCoderFlagSequence :: garbage, by simp⟩
      · rw [hdlcReports_eq (raw ++ _), HdlcRx.eventsOf_segment raw lead hraw,
          ← hdlcReports_eq, append_assoc]
    exfalso
    rw [hdlcReports_eq, (HdlcRx.clean.run_noFlag stream hflag).1] at h
    have : HdlcEvent.finish true ∈ (hdlcUnescape HdlcRx.clean.escape stream).map .data := by
      rw [h]; simp
    simp at this

/-- **HDLC framing round-trips.** Behind any garbage closed by a flag, the decoder reports the
encoded strings in order, each with `finish(true)`. On any stream, `finish(true)` is reported only
at a flag whose segment unescapes to a string with its own CRC. -/
theorem hdlcCoder_roundTrip :
    (∀ (frames : List (List UInt8)) (lead : List UInt8), (∀ bts ∈ frames, bts ≠ []) →
      hdlcBoundary lead →
      hdlcReports (lead ++ hdlcSent frames) = hdlcReports lead ++
          frames.flatMap fun bts => (bts ++ crc16CheckBytes bts).map .data ++ [.finish true]) ∧
    (∀ (stream : List UInt8) (pre post : List HdlcEvent),
      hdlcReports stream = pre ++ .finish true :: post →
      ∃ lead raw rest bts, stream = lead ++ raw ++ hdlcCoderFlagSequence :: rest ∧
        hdlcBoundary lead ∧ hdlcCoderFlagSequence ∉ raw ∧
        hdlcUnescape false raw = bts ++ crc16CheckBytes bts ∧
        pre = hdlcReports lead ++ (bts ++ crc16CheckBytes bts).map .data) := by
  constructor
  · intro frames lead hne hlead
    rw [hdlcSent_eq frames hne, hdlcReports_append lead _ hlead, hdlcReports_encodes]
    rfl
  · intro stream pre post h
    obtain ⟨lead, raw, rest, hstream, hlead, hraw, hpre, hvalid⟩ := hdlcReports_finish_true h
    obtain ⟨bts, hbts⟩ := (hdlcContentsValid_iff _).mp hvalid
    exact ⟨lead, raw, rest, bts, hstream, hlead, hraw, hbts, hbts ▸ hpre⟩

/-- Two frames with bytes that need escapes, behind a torn frame. -/
theorem hdlcCoder_roundTrip_after_noise :
    hdlcReports ([0x01, 0x7d, 0x7e] ++ hdlcSent [[0x7e, 0x02], [0x11]]) =
      hdlcReports [0x01, 0x7d, 0x7e] ++ [[0x7e, 0x02], [0x11]].flatMap fun bts =>
          (bts ++ crc16CheckBytes bts).map .data ++ [.finish true] :=
  hdlcCoder_roundTrip.1 [[0x7e, 0x02], [0x11]] [0x01, 0x7d, 0x7e] (by simp)
    (.inr ⟨[0x01, 0x7d], rfl⟩)

end TlZephyr
