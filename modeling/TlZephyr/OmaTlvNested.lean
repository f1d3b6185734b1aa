import TlZephyr.Lib.Fuel
import TlZephyr.OmaTlvWrite

/-!
# Visiting One Resource

What `do_write_op_tlv_item` does to the payload outside of block transfers. At a complete header
every path through the write handler ends the whole operation or takes the TLV; lookups that fail
and resources without data skip it with a dummy read. At an incomplete header the operation ends or
the rest of the payload is skipped.

A callback may return `-EACCES` or `-ENOENT`, which the code takes for errors of its own and
answers with a dummy read of the TLV behind, or `-ENOTSUP` in the middle of an opaque value.
`Resource.Good` rules this out; then a visit takes exactly one TLV.
-/

namespace TlZephyr.OmaTlv

open Fuel List Option In

/-! ### Complete headers -/

/-- Header at the start of `rest` and its length, if it is complete. -/
def header? : List UInt8 → Option (Tlv × ℕ)
  | [] => none
  | b0 :: bs =>
    if headerLen b0 ≤ (b0 :: bs).length then some (decodeHeader b0 bs, headerLen b0) else none

theorem beValue_lt (bs : List UInt8) : beValue bs < 256 ^ bs.length := by
  suffices h : ∀ n, bs.foldl (fun len b => len <<< 8 ||| b.toNat) n < (n + 1) * 256 ^ bs.length by
    simpa [beValue] using h 0
  induction bs with
  | nil => simp
  | cons b bs ih =>
    intro n
    have hb := b.toNat_lt
    rw [foldl_cons, length_cons, pow_succ]
    calc _ < ((n <<< 8 ||| b.toNat) + 1) * 256 ^ bs.length := ih _
      _ ≤ _ := by
        rw [shiftLeft_or_toNat, mul_comm (256 ^ bs.length), ← mul_assoc]
        exact Nat.mul_le_mul_right _ (by omega)

theorem length_decodeHeader_lt (b0 : UInt8) (bs : List UInt8) :
    (decodeHeader b0 bs).length < 2 ^ 24 := by
  have hlt : lenType b0 ≤ 3 := by unfold lenType; exact Nat.and_le_right
  unfold decodeHeader
  dsimp only
  split_ifs
  · exact lt_of_le_of_lt Nat.and_le_right (by decide)
  · refine lt_of_lt_of_le (beValue_lt _) ?_
    calc 256 ^ ((bs.drop (idLen b0)).take (lenType b0)).length ≤ 256 ^ 3 :=
          Nat.pow_le_pow_right (by decide) (le_trans (length_take_le _ _) hlt)
      _ = 2 ^ 24 := by norm_num

variable {t : Tlv} {hl dataLen : ℕ} {inp inp' : In} {res : Resource} {good : Prop} {ret : ℤ}
  {msg : Msg}

theorem header?_bounds {rest : List UInt8} (h : header? rest = some (t, hl)) :
    2 ≤ hl ∧ hl ≤ rest.length ∧ t.length < 2 ^ 24 := by
  rcases rest with _ | ⟨b0, bs⟩
  · simp [header?] at h
  rw [header?] at h
  split_ifs at h with hle
  obtain ⟨rfl, rfl⟩ := Prod.mk.inj (some_inj.mp h)
  refine ⟨?_, hle, length_decodeHeader_lt b0 bs⟩
  rcases idLen_eq b0 with hi | hi <;> rw [headerLen, hi] <;> omega

theorem omaTlvGet_some (h : header? inp.rest = some (t, hl)) (tlv : Tlv) (d : Bool) :
    omaTlvGet tlv inp d = ((hl : ℤ) + (t.length : ℤ), t, advance inp d (inp.skip hl)) := by
  rcases hr : inp.rest with _ | ⟨b0, bs⟩
  · simp [hr, header?] at h
  rw [hr, header?] at h
  split_ifs at h with hle
  obtain ⟨rfl, rfl⟩ := Prod.mk.inj (some_inj.mp h)
  exact omaTlvGet_full hr hle tlv d

theorem omaTlvGet_none (h : header? inp.rest = none) (tlv : Tlv) (d : Bool) :
    (omaTlvGet tlv inp d).1 = -ENODATA ∧ (omaTlvGet tlv inp d).2.1.length = tlv.length ∧
      (omaTlvGet tlv inp d).2.2 = advance inp d (inp.skip inp.rest.length) := by
  apply omaTlvGet_short
  intro b0 bs hr
  rw [hr, header?] at h
  by_contra hle
  rw [if_pos (by omega)] at h
  exact absurd h (by simp)

variable {tlv : Tlv} {ctx : OpaqueContext} {n : ℕ}

theorem length_omaTlvGet_lt (h : tlv.length < 2 ^ 32) (inp : In) (d : Bool) :
    (omaTlvGet tlv inp d).2.1.length < 2 ^ 32 := by
  rcases hh : header? inp.rest with _ | p
  · rwa [(omaTlvGet_none hh tlv d).2.1]
  obtain ⟨t, hl⟩ := p
  have := (header?_bounds hh).2.2
  rw [omaTlvGet_some hh]
  dsimp only
  omega

/-! ### What the readers consume -/

theorem rest_skipBytes (n : ℕ) : ∀ inp : In, (skipBytes n inp).rest = inp.rest.drop n := by
  induction n with
  | zero => simp [skipBytes]
  | succ n ih =>
    intro inp
    cases hr : inp.rest with
    | nil => simp [skipBytes, bufReadU8_nil hr, hr]
    | cons b bs => simp [skipBytes, bufReadU8_cons hr, ih, hr]

theorem bufRead_cases (inp : In) (n : ℕ) :
    bufRead inp n = (-ENODATA, [], inp) ∨ ∃ bs, bufRead inp n = (0, bs, inp.skip (n % 65536)) := by
  unfold bufRead
  by_cases h : inp.offset + n % 65536 > inp.data.length
  · exact .inl (if_pos h)
  · exact .inr ⟨_, if_neg h⟩

/-- An error that ends the whole operation, whatever its kind. -/
def Ending (ret : ℤ) : Prop :=
  ret < 0 ∧ ret ≠ -ENOTSUP ∧ ret ≠ -EACCES ∧ ret ≠ -ENOENT

instance (ret : ℤ) : Decidable (Ending ret) := inferInstanceAs (Decidable (_ ∧ _))

theorem ending_ENODATA : Ending (-ENODATA) := by decide

theorem ending_ENOMEM : Ending (-ENOMEM) := by decide

theorem ending_EBADMSG : Ending (-EBADMSG) := by decide

theorem ending_EINVAL : Ending (-EINVAL) := by decide

theorem ending_EEXIST : Ending (-EEXIST) := by decide

/-- What a reader of one value does: it fails at an incomplete header and takes at least a complete
one, and if `good` holds the whole value. -/
structure Reads (good : Prop) (inp : In) (ret : ℤ) (inp' : In) : Prop where
  data : inp'.data = inp.data
  rest : inp'.rest.length ≤ inp.rest.length
  short : header? inp.rest = none → Ending ret
  full : ∀ t hl, header? inp.rest = some (t, hl) → inp'.rest.length + hl ≤ inp.rest.length ∧
      (good → Ending ret ∨ 0 ≤ ret ∧ inp'.rest = inp.rest.drop (hl + t.length))

section Reads

variable {good : Prop} {inp inp' : In} {ret : ℤ} {t : Tlv} {hl : ℕ}

theorem Reads.ofShort (hh : header? inp.rest = none) (tlv : Tlv) (hret : Ending ret) :
    Reads good inp ret (omaTlvGet tlv inp false).2.2 := by
  rw [(omaTlvGet_none hh tlv false).2.2]
  exact ⟨rfl, by simp, fun _ => hret, fun t hl h => by simp [hh] at h⟩

theorem Reads.ofFull {n : ℕ} (hh : header? inp.rest = some (t, hl))
    (hgood : good → Ending ret ∨ 0 ≤ ret ∧ n = t.length) :
    Reads good inp ret ((inp.skip hl).skip n) := by
  refine ⟨rfl, by simp, fun h => by simp [hh] at h, fun t' hl' hh' => ?_⟩
  obtain ⟨rfl, rfl⟩ := Prod.mk.inj (some_inj.mp (hh.symm.trans hh'))
  have := (header?_bounds hh).2.1
  rw [skip_skip, rest_skip, length_drop]
  exact ⟨by omega, fun hg => (hgood hg).imp_right fun h => ⟨h.1, by rw [h.2]⟩⟩

theorem Reads.ofHeader (hh : header? inp.rest = some (t, hl)) (hret : Ending ret) :
    Reads good inp ret (inp.skip hl) :=
  .ofFull (n := 0) hh fun _ => .inl hret

end Reads

theorem omaTlvGet_neg (h : header? inp.rest = none) (tlv : Tlv) :
    (omaTlvGet tlv inp false).1 < 0 := by
  rw [(omaTlvGet_none h tlv false).1]
  decide

theorem reads_getNumber (good : Prop) (inp : In) {maxLen : ℕ} (hmax : maxLen < 65536)
    (tlv : Tlv) (temp : BitVec 64) :
    Reads good inp (getNumber inp maxLen tlv temp).1 (getNumber inp maxLen tlv temp).2.2 := by
  unfold getNumber
  rcases hh : header? inp.rest with _ | p
  · dsimp only
    rw [if_pos (omaTlvGet_neg hh tlv), (omaTlvGet_none hh tlv false).1]
    exact .ofShort hh tlv ending_ENODATA
  obtain ⟨t, hl⟩ := p
  rw [omaTlvGet_some hh, advance_false]
  dsimp only
  rw [if_neg (by omega)]
  by_cases hlen : t.length > maxLen
  · rw [if_pos hlen]
    exact .ofHeader hh ending_ENOMEM
  have hmod : t.length % 65536 = t.length := Nat.mod_eq_of_lt (by omega)
  rw [if_neg hlen]
  obtain hb | ⟨bs, hb⟩ := bufRead_cases (inp.skip hl) t.length
  · rw [hb]
    exact .ofHeader hh ending_ENODATA
  rw [hb]
  dsimp only
  rw [if_neg (by decide)]
  cases numberOfTemp t.length (readTemp temp bs) with
  | none => exact .ofFull hh fun _ => .inl ending_EBADMSG
  | some v => exact .ofFull hh fun _ => .inr ⟨by dsimp only; omega, hmod⟩

theorem reads_getString (inp : In) (buflen : ℕ) (tlv : Tlv) :
    Reads (buflen ≤ 65536) inp (getString inp buflen tlv).1 (getString inp buflen tlv).2.2 := by
  unfold getString
  rcases hh : header? inp.rest with _ | p
  · dsimp only
    rw [if_pos (omaTlvGet_neg hh tlv), (omaTlvGet_none hh tlv false).1]
    exact .ofShort hh tlv ending_ENODATA
  obtain ⟨t, hl⟩ := p
  rw [omaTlvGet_some hh, advance_false]
  dsimp only
  rw [if_neg (by omega)]
  by_cases hlen : buflen ≤ t.length
  · rw [if_pos hlen]
    exact .ofHeader hh ending_ENOMEM
  rw [if_neg hlen]
  obtain hb | ⟨bs, hb⟩ := bufRead_cases (inp.skip hl) t.length
  · rw [hb]
    exact .ofHeader hh ending_ENODATA
  · rw [hb]
    dsimp only
    rw [if_neg (by decide)]
    exact .ofFull hh fun hg => .inr ⟨by dsimp only; omega, Nat.mod_eq_of_lt (by omega)⟩

theorem reads_getFloat (inp : In) (conv : ℤ) (tlv : Tlv) :
    Reads (0 ≤ conv ∨ Ending conv) inp (getFloat inp conv tlv).1 (getFloat inp conv tlv).2 := by
  unfold getFloat
  rcases hh : header? inp.rest with _ | p
  · dsimp only
    rw [if_pos (omaTlvGet_neg hh tlv), (omaTlvGet_none hh tlv false).1]
    exact .ofShort hh tlv ending_ENODATA
  obtain ⟨t, hl⟩ := p
  rw [omaTlvGet_some hh, advance_false]
  dsimp only
  rw [if_neg (by omega)]
  by_cases hlen : t.length ≠ 4 ∧ t.length ≠ 8
  · rw [if_pos hlen]
    exact .ofHeader hh ending_EBADMSG
  have hmod : t.length % 65536 = t.length := Nat.mod_eq_of_lt (by omega)
  rw [if_neg hlen]
  obtain hb | ⟨bs, hb⟩ := bufRead_cases (inp.skip hl) t.length
  · rw [hb]
    exact .ofHeader hh ending_ENODATA
  rw [hb]
  dsimp only
  rw [if_neg (by decide)]
  by_cases hc : conv < 0
  · rw [if_pos hc]
    exact .ofFull hh fun hg => hg.symm.imp_right fun h => absurd h (by omega)
  · rw [if_neg hc]
    exact .ofFull hh fun _ => .inr ⟨by dsimp only; omega, hmod⟩

/-- Buffers of at most 64 kB, and callbacks that do not return errors that this code takes for its
own. -/
structure Resource.Good (res : Resource) : Prop where
  dataLen : res.dataLen ≤ 65536
  validate : ∀ n f, res.validate = some (n, f) → 0 < n ∧ n ≤ 65536
  postWrite : ∀ f, res.postWrite = some f → ∀ k, 0 ≤ f k ∨ Ending (f k)
  toFloat : 0 ≤ res.toFloat ∨ Ending res.toFloat

theorem Resource.Good.postWriteRet (h : res.Good) (k : ℕ) :
    0 ≤ res.postWriteRet k ∨ Ending (res.postWriteRet k) := by
  unfold Resource.postWriteRet
  cases hp : res.postWrite with
  | none => exact .inl le_rfl
  | some f => exact h.postWrite f hp k

theorem Reads.imp {good' : Prop} (h : good' → good)
    (hr : Reads good inp ret inp') : Reads good' inp ret inp' :=
  ⟨hr.data, hr.rest, hr.short, fun t hl hh => ⟨(hr.full t hl hh).1, fun hg => (hr.full t hl hh).2 (h hg)⟩⟩

theorem Reads.code {ret' : ℤ} (hr : Reads good inp ret inp')
    (hret : 0 ≤ ret) (h : good → 0 ≤ ret' ∨ Ending ret') : Reads good inp ret' inp' := by
  refine ⟨hr.data, hr.rest, fun hh => absurd hret (not_le.mpr (hr.short hh).1), fun t hl hh =>
    ⟨(hr.full t hl hh).1, fun hg => ?_⟩⟩
  rcases (hr.full t hl hh).2 hg with hend | ⟨-, hdrop⟩
  · exact absurd hret (not_le.mpr hend.1)
  · exact (h hg).symm.imp_right fun h0 => ⟨h0, hdrop⟩

/-- **Every type is read as a reader should**, but for the two that `readValue` leaves to its
caller. -/
theorem reads_readValue (hne : res.type ≠ .opaqueData)
    (hne' : res.type ≠ .unknown) (dataLen buflen : ℕ) (inp : In) (tlv : Tlv) :
    Reads (res.Good ∧ buflen ≤ 65536) inp (readValue res dataLen buflen inp tlv).1
      (readValue res dataLen buflen inp tlv).2.2 := by
  unfold readValue
  cases htype : res.type with
  | string => exact (reads_getString inp buflen tlv).imp And.right
  | time =>
    have h : Reads (res.Good ∧ buflen ≤ 65536) inp (getNumber inp 8 tlv 0).1
        (getNumber inp 8 tlv 0).2.2 := reads_getNumber _ inp (by decide) tlv 0
    dsimp only
    split_ifs with h1 h2 h3
    · exact h
    · exact h
    · exact h
    · exact h.code (not_lt.mp h1) fun _ => .inr ending_EINVAL
  | float => exact (reads_getFloat inp res.toFloat tlv).imp fun h => h.1.toFloat
  | opaqueData => exact absurd htype hne
  | unknown => exact absurd htype hne'
  | _ => exact reads_getNumber _ inp (by decide) tlv 0

/-! ### Opaque values -/

/-- Number of bytes that a round of an opaque value takes. -/
def chunk (inp : In) (buflen : ℕ) (ctx : OpaqueContext) : ℕ :=
  min (min (ctx.len - ctx.offset) buflen) inp.rest.length

theorem getOpaqueMore_eq (hsize : inp.data.length < 65536)
    (hle : ctx.offset ≤ ctx.len) (hlt : ctx.len < 2 ^ 32) (buflen : ℕ) :
    ∃ last, getOpaqueMore inp buflen ctx =
        ((chunk inp buflen ctx : ℤ), last, ctx, inp.skip (chunk inp buflen ctx)) ∧
      (0 < chunk inp buflen ctx → last = decide (ctx.offset + chunk inp buflen ctx ≥ ctx.len)) := by
  have hw : (((ctx.len : ℤ) - ctx.offset) % 2 ^ 32).toNat = ctx.len - ctx.offset := by
    rw [Int.emod_eq_of_lt (by omega) (by omega)]
    omega
  have hr : inp.data.length - inp.offset = inp.rest.length := by simp [rest]
  have hc : chunk inp buflen ctx < 65536 := by
    have : chunk inp buflen ctx ≤ inp.rest.length := Nat.min_le_right _ _
    omega
  unfold getOpaqueMore
  rw [hw, hr]
  dsimp only
  rw [show min (min (ctx.len - ctx.offset) buflen) inp.rest.length = chunk inp buflen ctx from rfl,
    bufRead, Nat.mod_eq_of_lt hc]
  by_cases hroom : inp.offset + chunk inp buflen ctx > inp.data.length
  · have h0 : chunk inp buflen ctx = 0 := by
      have : chunk inp buflen ctx ≤ inp.rest.length := Nat.min_le_right _ _
      omega
    rw [if_pos hroom]
    exact ⟨true, by simp [h0, ENODATA], by omega⟩
  · rw [if_neg hroom]
    exact ⟨_, rfl, fun _ => rfl⟩

theorem opaqueLoop_round {c : OpaqueContext} {len : ℤ} {last : Bool} (hblock : msg.block = none)
    (hget : getOpaque msg.inp (min dataLen (res.bufLen dataLen)) ctx tlv = (len, last, c, inp))
    (fuel k : ℕ) (written : ℤ) :
    opaqueLoop res dataLen tlv (fuel + 1) msg ctx k written =
      if len ≤ 0 then some (if len < 0 then len else written, { msg with inp := inp })
      else if res.validateRet k < 0 then some (-EEXIST, { msg with inp := inp })
      else if res.postWriteRet k < 0 then some (res.postWriteRet k, { msg with inp := inp })
      else if last then some (written + len, { msg with inp := inp })
      else opaqueLoop res dataLen tlv fuel { msg with inp := inp }
        { c with offset := c.offset + len.toNat } (k + 1) (written + len) := by
  obtain ⟨minp, path, block, b, cr, tick, read⟩ := msg
  obtain rfl : block = none := hblock
  rw [opaqueLoop]
  dsimp only at hget ⊢
  rw [hget]
  cases last <;> rfl

/-- Each round of an opaque value takes a chunk, until the value or the payload ends or a callback
fails. -/
theorem opaqueLoop_ends (res : Resource) (dataLen : ℕ) (tlv : Tlv) (n : ℕ) :
    ∀ (msg : Msg) (ctx : OpaqueContext) (inp : In) (c : OpaqueContext) (k : ℕ) (written : ℤ),
      inp.rest.length = n → msg.block = none → inp.data.length < 65536 → c.offset ≤ c.len →
      c.len < 2 ^ 32 → 0 ≤ written →
      getOpaque msg.inp (min dataLen (res.bufLen dataLen)) ctx tlv =
        getOpaqueMore inp (min dataLen (res.bufLen dataLen)) c →
      ∃ ret inp', Ends (fun f => opaqueLoop res dataLen tlv f msg ctx k written)
          (ret, { msg with inp := inp' }) ∧ inp'.rest.length ≤ inp.rest.length ∧
        inp'.data = inp.data ∧
        (res.Good → 0 < min dataLen (res.bufLen dataLen) →
          Ending ret ∨ 0 ≤ ret ∧ inp'.rest = inp.rest.drop (c.len - c.offset)) := by
  induction n using Nat.strongRecOn with
  | ind n ih =>
    intro msg ctx inp c k written hn hblock hsize hle hlt hw hget
    obtain ⟨last, hmore, hlast⟩ :=
      getOpaqueMore_eq hsize hle hlt (min dataLen (res.bufLen dataLen))
    have hround := opaqueLoop_round hblock (hget.trans hmore)
    have hrest : (inp.skip (chunk inp (min dataLen (res.bufLen dataLen)) c)).rest.length ≤
        inp.rest.length := by simp
    have hchunk : chunk inp (min dataLen (res.bufLen dataLen)) c =
      min (min (c.len - c.offset) (min dataLen (res.bufLen dataLen))) inp.rest.length := rfl
    generalize chunk inp (min dataLen (res.bufLen dataLen)) c = m at *
    generalize min dataLen (res.bufLen dataLen) = buflen at *
    by_cases hm : m = 0
    · -- nothing was read: the value or the payload has ended
      refine ⟨written, inp.skip m, .last fun f => ?_, hrest, rfl, fun _ hb => .inr ⟨hw, ?_⟩⟩
      · rw [hround, if_pos (by omega), if_neg (by omega)]
      · rw [hm, skip_zero]
        rcases Nat.eq_zero_or_pos inp.rest.length with h | h
        · rw [length_eq_zero_iff.mp h, drop_nil]
        · rw [show c.len - c.offset = 0 by omega, drop_zero]
    by_cases hv : res.validateRet k < 0
    · refine ⟨-EEXIST, inp.skip m, .last fun f => ?_, hrest, rfl, fun _ _ => .inl ending_EEXIST⟩
      rw [hround, if_neg (by omega), if_pos hv]
    by_cases hp : res.postWriteRet k < 0
    · refine ⟨res.postWriteRet k, inp.skip m, .last fun f => ?_, hrest, rfl,
        fun hg _ => .inl ?_⟩
      · rw [hround, if_neg (by omega), if_neg hv, if_pos hp]
      · exact (hg.postWriteRet k).resolve_left (by omega)
    have hlen := hlast (by omega)
    cases last with
    | true =>
      refine ⟨written + m, inp.skip m, .last fun f => ?_, hrest, rfl,
        fun _ _ => .inr ⟨by omega, ?_⟩⟩
      · rw [hround, if_neg (by omega), if_neg hv, if_neg hp, if_pos rfl]
      · have : c.offset + m ≥ c.len := of_decide_eq_true hlen.symm
        rw [rest_skip, show c.len - c.offset = m by omega]
    | false =>
      have hmore : ¬ c.offset + m ≥ c.len := of_decide_eq_false hlen.symm
      obtain ⟨ret, inp', hends, hle', hdata, hgood⟩ := ih (inp.skip m).rest.length
        (by rw [rest_skip, length_drop]; omega)
        { msg with inp := inp.skip m } { c with offset := c.offset + m } (inp.skip m)
        { c with offset := c.offset + m } (k + 1) (written + m) rfl hblock hsize (by dsimp only; omega) hlt (by omega)
        (by rw [getOpaque, if_neg (by dsimp only; omega)])
      refine ⟨ret, inp', .round (fun f => ?_) hends, hle'.trans hrest, hdata,
        fun hg hb => (hgood hg hb).imp_right fun h => ⟨h.1, ?_⟩⟩
      · rw [hround, if_neg (by omega), if_neg hv, if_neg hp, if_neg (by decide)]
        rfl
      · rw [h.2, rest_skip, drop_drop]
        congr 1
        dsimp only
        omega

/-! ### Write handler -/

structure Single (msg : Msg) : Prop where
  block : msg.block = none
  size : msg.inp.data.length < 65536

theorem Resource.Good.bufLen (h : res.Good) (hle : dataLen ≤ res.dataLen) (hpos : 0 < dataLen) :
    0 < res.bufLen dataLen ∧ res.bufLen dataLen ≤ 65536 := by
  unfold Resource.bufLen
  cases hv : res.validate with
  | none => exact ⟨hpos, hle.trans h.dataLen⟩
  | some p => exact h.validate p.1 p.2 hv

theorem writeHandlerOpaque_ends (hle : dataLen ≤ res.dataLen)
    (hpos : 0 < dataLen) (tlv : Tlv) (hs : Single msg) :
    ∃ ret inp', Ends (fun f => writeHandlerOpaque res dataLen tlv f msg)
        (ret, { msg with inp := inp' }) ∧ Reads res.Good msg.inp ret inp' := by
  have hctx : (msg.block.map Block.context).getD ⟨0, 0⟩ = ⟨0, 0⟩ := by rw [hs.block]; rfl
  unfold writeHandlerOpaque
  rw [hctx]
  rcases hh : header? msg.inp.rest with _ | p
  · have hget : getOpaque msg.inp (min dataLen (res.bufLen dataLen)) ⟨0, 0⟩ tlv =
        ((omaTlvGet tlv msg.inp false).1, false, ⟨0, 0⟩, (omaTlvGet tlv msg.inp false).2.2) := by
      rw [getOpaque, if_pos rfl, if_pos (omaTlvGet_neg hh tlv)]
    have hneg := omaTlvGet_neg hh tlv
    refine ⟨_, _, .last fun f => ?_, .ofShort hh tlv ending_ENODATA⟩
    rw [opaqueLoop_round hs.block hget, if_pos hneg.le, if_pos hneg, (omaTlvGet_none hh tlv false).1]
  obtain ⟨t, hl⟩ := p
  have hb := header?_bounds hh
  obtain ⟨ret, inp', hends, hlen, hdata, hgood⟩ := opaqueLoop_ends res dataLen tlv _ msg
    ⟨0, 0⟩ (msg.inp.skip hl) ⟨t.length, 0⟩ 0 0 rfl hs.block hs.size (Nat.zero_le _) (by dsimp only; omega) le_rfl
    (by rw [getOpaque, if_pos rfl, omaTlvGet_some hh, if_neg (by dsimp only; omega)]; rfl)
  rw [rest_skip, length_drop] at hlen
  refine ⟨ret, inp', hends, hdata, by omega, fun h => by simp [hh] at h, fun t' hl' hh' => ?_⟩
  obtain ⟨rfl, rfl⟩ := Prod.mk.inj (some_inj.mp (hh.symm.trans hh'))
  refine ⟨by omega, fun hg => (hgood hg ?_).imp_right fun h => ⟨h.1, ?_⟩⟩
  · exact lt_min hpos (hg.bufLen hle hpos).1
  · rw [h.2, rest_skip, drop_drop]
    rfl

theorem writeHandler_none (res : Resource) (tlv : Tlv) (hblock : msg.block = none) (fuel : ℕ) :
    writeHandler res tlv fuel msg = if res.readOnly then some (-EACCES, msg)
      else if ¬ (res.hasData = true ∧ res.dataLen > 0) then some (-ENOENT, msg)
      else if res.type = .opaqueData then writeHandlerOpaque res res.dataLen tlv fuel msg
      else
        let r := readValue res res.dataLen (res.bufLen res.dataLen) msg.inp tlv
        let msg := { msg with inp := r.2.2 }
        if r.1 < 0 then some (r.1, msg)
        else if res.validateRet 0 < 0 then some (-EEXIST, msg)
        else if res.validate.isSome ∧ r.2.1 > res.dataLen then some (-ENOMEM, msg)
        else some (if res.postWrite.isSome then res.postWriteRet 0 else r.1, msg) := by
  simp [writeHandler, hblock]

/-- **The write handler without a block transfer** ends: it leaves the payload alone, or reads the
value. -/
theorem writeHandler_ends (res : Resource) (tlv : Tlv) (hs : Single msg) :
    ∃ ret inp', Ends (fun f => writeHandler res tlv f msg) (ret, { msg with inp := inp' }) ∧
      ((ret = -EACCES ∨ ret = -ENOENT ∨ Ending ret) ∧ inp' = msg.inp ∨
        Reads res.Good msg.inp ret inp') := by
  simp only [writeHandler_none res tlv hs.block]
  by_cases hro : res.readOnly = true
  · simp only [if_pos hro]
    exact ⟨_, msg.inp, .const _, .inl ⟨.inl rfl, rfl⟩⟩
  by_cases hdata : res.hasData = true ∧ res.dataLen > 0
  · by_cases hop : res.type = .opaqueData
    · obtain ⟨ret, inp', hends, hreads⟩ :=
        writeHandlerOpaque_ends (le_refl res.dataLen) hdata.2 tlv hs
      simp only [if_neg hro, if_neg (not_not.mpr hdata), if_pos hop]
      exact ⟨ret, inp', hends, .inr hreads⟩
    simp only [if_neg hro, if_neg (not_not.mpr hdata), if_neg hop]
    by_cases hun : res.type = .unknown
    · refine ⟨-EINVAL, msg.inp, .congr (fun _ => ?_) (.const _),
        .inl ⟨.inr (.inr ending_EINVAL), rfl⟩⟩
      simp [readValue, hun, EINVAL]
    have hr : Reads res.Good msg.inp _ _ :=
      (reads_readValue hop hun res.dataLen (res.bufLen res.dataLen) msg.inp tlv).imp
        fun hg => ⟨hg, (hg.bufLen le_rfl hdata.2).2⟩
    generalize readValue res res.dataLen (res.bufLen res.dataLen) msg.inp tlv = r at hr ⊢
    by_cases hneg : r.1 < 0
    · simp only [if_pos hneg]
      exact ⟨_, _, .const _, .inr hr⟩
    have h0 := not_lt.mp hneg
    simp only [if_neg hneg]
    by_cases hv : res.validateRet 0 < 0
    · simp only [if_pos hv]
      exact ⟨_, _, .const _, .inr (hr.code h0 fun _ => .inr ending_EEXIST)⟩
    by_cases hm : res.validate.isSome = true ∧ r.2.1 > res.dataLen
    · simp only [if_neg hv, if_pos hm]
      exact ⟨_, _, .const _, .inr (hr.code h0 fun _ => .inr ending_ENOMEM)⟩
    simp only [if_neg hv, if_neg hm]
    refine ⟨_, _, .const _, .inr (hr.code h0 fun hg => ?_)⟩
    split_ifs
    · exact hg.postWriteRet 0
    · exact .inl h0
  · simp only [if_neg hro, if_pos hdata]
    exact ⟨_, msg.inp, .const _, .inl ⟨.inr (.inl rfl), rfl⟩⟩

/-! ### One resource -/

/-- The callbacks of every resource keep to the rules. -/
def Env.Good (env : Env) : Prop := ∀ n, (env.answer n).res.Good

/-- Every lookup succeeds and finds a read-only resource. -/
structure Env.ReadOnly (env : Env) : Prop where
  good : env.Good
  createObj : ∀ n, 0 ≤ (env.answer n).createObj
  getObj : ∀ n, 0 ≤ (env.answer n).getObj
  access : ∀ n, 0 ≤ (env.answer n).access
  getRes : ∀ n, 0 ≤ (env.answer n).getRes
  readOnly : ∀ n, (env.answer n).res.readOnly = true

/-- What every part of a write without a block transfer keeps. -/
structure Keeps (msg msg' : Msg) : Prop where
  block : msg'.block = none
  data : msg'.inp.data = msg.inp.data
  ignores : msg'.ignores = msg.ignores
  level : 2 ≤ msg.path.level → 2 ≤ msg'.path.level
  read : msg'.read = true → msg.read = true
  rest : msg'.inp.rest.length ≤ msg.inp.rest.length

theorem Keeps.single {msg' : Msg} (h : Keeps msg msg') (hs : Single msg) : Single msg' :=
  ⟨h.block, h.data ▸ hs.size⟩

theorem Keeps.trans {a b c : Msg} (h : Keeps a b) (h' : Keeps b c) : Keeps a c :=
  ⟨h'.block, h'.data.trans h.data, h'.ignores.trans h.ignores, h'.level ∘ h.level,
    h.read ∘ h'.read, h'.rest.trans h.rest⟩

/-- What a visit of one resource does, unless it stops: at an incomplete header it goes to the end
of the payload, else it takes at least the header. With well-behaved callbacks it takes one TLV. -/
structure Visit (env : Env) (msg msg' : Msg) (stop : Prop) : Prop where
  keeps : Keeps msg msg'
  short : header? msg.inp.rest = none → stop ∨ msg'.inp.rest = []
  full : ∀ t hl, header? msg.inp.rest = some (t, hl) →
    stop ∨ msg'.inp.rest.length + hl ≤ msg.inp.rest.length
  good : env.Good → ∀ t hl, header? msg.inp.rest = some (t, hl) →
    (msg.read = true → msg'.read = true) ∧
      (stop ∨ msg'.inp.rest = msg.inp.rest.drop (hl + t.length))
  lost : env.ReadOnly → header? msg.inp.rest = none → msg'.read = false

variable {env : Env} {msg msg' : Msg} {stop : Prop}

theorem Visit.imp {stop' : Prop} (hv : Visit env msg msg' stop)
    (h : stop → stop') : Visit env msg msg' stop' :=
  ⟨hv.keeps, fun hh => (hv.short hh).imp_left h, fun t hl hh => (hv.full t hl hh).imp_left h,
    fun hg t hl hh => ⟨(hv.good hg t hl hh).1, (hv.good hg t hl hh).2.imp_left h⟩, hv.lost⟩

theorem data_skipBytes (n : ℕ) : ∀ inp : In, (skipBytes n inp).data = inp.data := by
  induction n with
  | zero => simp [skipBytes]
  | succ n ih =>
    intro inp
    cases hr : inp.rest with
    | nil => simp [skipBytes, bufReadU8_nil hr]
    | cons b bs => simp [skipBytes, bufReadU8_cons hr, ih, skip]

theorem dummyRead_some (hh : header? msg.inp.rest = some (t, hl)) (tlv : Tlv) :
    ∃ inp', dummyRead tlv msg = { msg with inp := inp' } ∧ inp'.data = msg.inp.data ∧
      inp'.rest = msg.inp.rest.drop (hl + t.length) := by
  have h0 : (0 : ℤ) ≤ hl + t.length := by omega
  refine ⟨skipBytes t.length (msg.inp.skip hl), ?_, data_skipBytes _ _, ?_⟩
  · rw [dummyRead, omaTlvGet_some hh]
    simp [Msg.act, h0]
  · rw [rest_skipBytes, rest_skip, drop_drop]

theorem dummyRead_none (hh : header? msg.inp.rest = none) (tlv : Tlv) :
    ∃ inp', dummyRead tlv msg = { msg with inp := inp', read := false } ∧
      inp'.data = msg.inp.data ∧ inp'.rest = [] := by
  obtain ⟨h1, -, h3⟩ := omaTlvGet_none hh tlv false
  refine ⟨skipBytes (omaTlvGet tlv msg.inp false).2.1.length (omaTlvGet tlv msg.inp false).2.2, ?_, ?_, ?_⟩
  · rw [dummyRead, h1]
    simp [Msg.act, ENODATA]
  · rw [data_skipBytes, h3]
    rfl
  · rw [rest_skipBytes, h3, advance_false, rest_skip, drop_length, drop_nil]

theorem visit_dummyRead (env : Env) (msg : Msg) (hblock : msg.block = none) (tlv : Tlv)
    (stop : Prop) : Visit env msg (dummyRead tlv msg) stop := by
  cases hh : header? msg.inp.rest with
  | none =>
    obtain ⟨inp', heq, hdata, hrest⟩ := dummyRead_none hh tlv
    rw [heq]
    refine ⟨⟨hblock, hdata, rfl, id, by simp, by simp [hrest]⟩, fun _ => .inr hrest,
      fun t hl h => by simp [hh] at h, fun _ t hl h => by simp [hh] at h, fun _ _ => rfl⟩
  | some p =>
    obtain ⟨t, hl⟩ := p
    have hb := header?_bounds hh
    obtain ⟨inp', heq, hdata, hrest⟩ := dummyRead_some hh tlv
    rw [heq]
    refine ⟨⟨hblock, hdata, rfl, id, id, by simp [hrest]⟩, fun h => by simp [hh] at h,
      fun t' hl' hh' => .inr ?_, fun _ t' hl' hh' => ⟨id, .inr ?_⟩, fun _ h => by simp [hh] at h⟩
    · obtain ⟨rfl, rfl⟩ := Prod.mk.inj (some_inj.mp (hh.symm.trans hh'))
      rw [hrest, length_drop]
      omega
    · obtain ⟨rfl, rfl⟩ := Prod.mk.inj (some_inj.mp (hh.symm.trans hh'))
      exact hrest

theorem visit_dummyRead_after
    (hblock : msg.block = none) (hr : Reads good msg.inp ret inp') (hgood : env.Good → good)
    (hret : ret < 0) (hnot : ¬ Ending ret) (hro : ¬ env.ReadOnly) (tlv : Tlv) (stop : Prop) :
    Visit env msg (dummyRead tlv { msg with inp := inp' }) stop := by
  have hk := (visit_dummyRead env { msg with inp := inp' } hblock tlv stop).keeps
  rcases hh : header? msg.inp.rest with _ | p
  · exact absurd (hr.short hh) hnot
  obtain ⟨t, hl⟩ := p
  have hf := hr.full t hl hh
  have hrest := hk.rest
  refine ⟨⟨hk.block, hk.data.trans hr.data, hk.ignores, hk.level, hk.read, ?_⟩,
    fun h => by simp [hh] at h, fun t' hl' hh' => .inr ?_, fun hg => ?_, fun h => absurd h hro⟩
  · dsimp only at hrest
    omega
  · obtain ⟨rfl, rfl⟩ := Prod.mk.inj (some_inj.mp (hh.symm.trans hh'))
    dsimp only at hrest
    omega
  · rcases hf.2 (hgood hg) with hend | ⟨h0, -⟩
    · exact absurd hend hnot
    · exact absurd h0 (not_le.mpr hret)

theorem visit_reads
    (hblock : msg.block = none) (hr : Reads good msg.inp ret inp') (hgood : env.Good → good)
    (hro : ¬ env.ReadOnly) : Visit env msg { msg with inp := inp' } (Ending ret) :=
  ⟨⟨hblock, hr.data, rfl, id, id, hr.rest⟩, fun hh => .inl (hr.short hh),
    fun t hl hh => .inr (hr.full t hl hh).1,
    fun hg t hl hh => ⟨id, ((hr.full t hl hh).2 (hgood hg)).imp_right And.right⟩,
    fun h => absurd h hro⟩

theorem visit_stop (hblock : msg.block = none)
    (hstop : stop) (hro : ¬ env.ReadOnly) : Visit env msg msg stop :=
  ⟨⟨hblock, rfl, rfl, id, id, le_rfl⟩, fun _ => .inl hstop, fun _ _ _ => .inl hstop,
    fun _ _ _ _ => ⟨id, .inl hstop⟩, fun h => absurd h hro⟩

theorem Visit.ofTick (h : Visit env { msg with tick := n } msg' stop) : Visit env msg msg' stop :=
  ⟨⟨h.keeps.block, h.keeps.data, h.keeps.ignores, h.keeps.level, h.keeps.read, h.keeps.rest⟩,
    h.short, h.full, h.good, h.lost⟩

theorem handler_visit (tlv : Tlv) (hs : Single msg) :
    ∃ ret msg', Ends (fun f => (writeHandler (env.answer n).res tlv f msg).bind fun r =>
        if r.1 = -EACCES ∨ r.1 = -ENOENT then some (0, dummyRead tlv r.2) else some r)
        (ret, msg') ∧
      Visit env msg msg' (Ending ret) ∧ (env.ReadOnly → ret = 0) := by
  have hblock := hs.block
  have hdummy := visit_dummyRead env msg hblock tlv
  by_cases hro : (env.answer n).res.readOnly = true
  · refine ⟨0, _, .congr (fun f => ?_) (.const _), hdummy _, fun _ => rfl⟩
    rw [writeHandler_none _ _ hblock, if_pos hro, bind_some, if_pos (.inl rfl)]
  have hne : ¬ env.ReadOnly := fun h => hro (h.readOnly n)
  have hgood : env.Good → (env.answer n).res.Good := fun h => h n
  obtain ⟨ret, inp', hends, hcases⟩ :=
    writeHandler_ends (env.answer n).res tlv hs
  by_cases hret : ret = -EACCES ∨ ret = -ENOENT
  · have hnot : ¬ Ending ret := fun h => hret.elim h.2.2.1 h.2.2.2
    have hneg : ret < 0 := by rcases hret with rfl | rfl <;> decide
    refine ⟨0, _, hends.bind (.congr (fun f => if_pos hret) (.const _)), ?_, fun h => absurd h hne⟩
    rcases hcases with ⟨-, rfl⟩ | hr
    · exact hdummy _
    · exact visit_dummyRead_after hblock hr hgood hneg hnot hne _ _
  refine ⟨ret, _, hends.bind (.congr (fun f => if_neg hret) (.const _)), ?_, fun h => absurd h hne⟩
  rcases hcases with ⟨hend, rfl⟩ | hr
  · refine visit_stop hblock ?_ hne
    rcases hend with h | h | h
    · exact absurd (.inl h) hret
    · exact absurd (.inr h) hret
    · exact h
  · exact visit_reads hblock hr hgood hne

/-- **One resource without a block transfer.** -/
theorem item_visit (env : Env) (hs : Single msg) :
    ∃ ret msg', Ends (fun f => item env f msg) (ret, msg') ∧ Visit env msg msg' (Ending ret) ∧
      (env.ReadOnly → ret = 0) := by
  have hdummy (stop : Prop) : Visit env msg _ stop :=
    (visit_dummyRead env { msg with tick := msg.tick + 1 } hs.block (env.stack msg.tick) stop).ofTick
  unfold item
  dsimp only
  by_cases h1 : (env.answer msg.tick).getObj < 0
  · simp only [if_pos h1]
    exact ⟨_, _, .const _, hdummy _, fun h => absurd (h.getObj msg.tick) (not_le.mpr h1)⟩
  by_cases h2 : (env.answer msg.tick).access < 0
  · simp only [if_neg h1, if_pos h2]
    exact ⟨_, _, .const _, hdummy _, fun h => absurd (h.access msg.tick) (not_le.mpr h2)⟩
  by_cases h3 : (env.answer msg.tick).getRes < 0
  · simp only [if_neg h1, if_neg h2, if_pos h3]
    exact ⟨_, _, .const _, hdummy _, fun h => absurd (h.getRes msg.tick) (not_le.mpr h3)⟩
  · simp only [if_neg h1, if_neg h2, if_neg h3]
    have hs' : Single { msg with tick := msg.tick + 1 } := ⟨hs.block, hs.size⟩
    obtain ⟨ret, msg', hends, hv, h0⟩ := handler_visit (env.stack msg.tick) hs'
    exact ⟨ret, msg', hends, hv.ofTick, h0⟩

end TlZephyr.OmaTlv
