import TlZephyr.Errno
import TlZephyr.Lib.Checked
import TlZephyr.Lib.DeltaOptions
import TlZephyr.Lib.Fuel

/-!
# Parsing CoAP Messages

`coap_packet_parse` of `subsys/net/lib/coap/coap.c`, without options to fill, and the messages
that it accepts. They are the well-formed ones, but for one thing: a field with an extension of
two bytes is kept in sixteen bits, so 269 is added to the extension modulo 2 ^ 16. A difference
or a length of 2 ^ 16 or more is taken for a small one.
-/

namespace TlZephyr.CoapParse

open Checked DeltaOptions Fuel List

/-! ### Code -/

/-- `read_u8`: the byte, the position behind it and what is left. -/
def readU8 (data : List UInt8) (offset maxLen : ℕ) : Checked (UInt8 × ℕ × ℤ) :=
  if (maxLen : ℤ) - offset < 1 then .err (-EINVAL)
  else do
    let value ← byteAt data offset
    .ok (value, offset + 1, (maxLen : ℤ) - (offset + 1 : ℕ))

def readBe16 (data : List UInt8) (offset maxLen : ℕ) : Checked (ℕ × ℕ × ℤ) :=
  if (maxLen : ℤ) - offset < 2 then .err (-EINVAL)
  else do
    let hi ← byteAt data offset
    let lo ← byteAt data (offset + 1)
    .ok (hi.toNat <<< 8 ||| lo.toNat, offset + 2, (maxLen : ℤ) - (offset + 2 : ℕ))

/-- `decode_delta`: the field, the length of its extension, the position behind it and what is left.
-/
def decodeDelta (data : List UInt8) (offset maxLen opt : ℕ) : Checked ((ℕ × ℕ) × ℕ × ℤ) :=
  if opt = 13 then do
    let (val, pos, ret) ← readU8 data offset maxLen
    .ok ((val.toNat + 13, 1), pos, ret)
  else if opt = 14 then do
    let (val, pos, ret) ← readBe16 data offset maxLen
    -- the sum is kept in an `uint16_t`
    .ok (((val + 269) % 2 ^ 16, 2), pos, ret)
  else if opt = 15 then .err (-EINVAL)
  else .ok ((opt, 0), offset, 0)

/-- `u16_add_overflow`, with an error at an overflow. -/
def u16Add (a b : ℕ) : Checked ℕ := if a + b < 2 ^ 16 then .ok (a + b) else .err (-EINVAL)

/-- A field of an option that may have an extension; `more` says that another one follows. -/
def extend (data : List UInt8) (maxLen nib : ℕ) (more : Bool) (optLen pos : ℕ) (r : ℤ) :
    Checked (ℕ × ℕ × ℕ × ℤ) :=
  if nib > 12 then do
    let ((val, hdrLen), pos, r) ← decodeDelta data pos maxLen nib
    if r = 0 ∧ more = true then .err (-EINVAL)
    else do
      let optLen ← u16Add optLen hdrLen
      .ok (val, optLen, pos, r)
  else .ok (nib, optLen, pos, r)

/-- Variables of the loop of `coap_packet_parse`. -/
structure Opts where
  offset : ℕ
  delta : ℕ
  optLen : ℕ
  deriving DecidableEq

/-- `parse_option`, where `marker` is what it does at the marker of a payload, and `value` what it
does behind the header of an option. -/
def parseOptionWith {α : Type} (data : List UInt8) (maxLen : ℕ) (s : Opts) (marker : ℕ → Checked α)
    (value : ℕ → ℕ → ℕ → ℕ → ℤ → Checked α) : Checked α := do
  let (opt, pos, r) ← readU8 data s.offset maxLen
  if opt = 0xFF then
    if r > 0 then marker pos else .err (-EINVAL)
  else
    let optLen := (s.optLen + 1) % 2 ^ 16
    let delta := opt.toNat / 16
    let len := opt.toNat % 16
    if r = 0 ∧ delta > 12 then .err (-EINVAL)
    else do
      let (delta, optLen, pos, r) ← extend data maxLen delta (decide (len > 12)) optLen pos r
      let (len, optLen, pos, r) ← extend data maxLen len false optLen pos r
      value delta len optLen pos r

/-- `parse_option` without an option to fill: its result, and the variables behind the
option. -/
def skipOption (data : List UInt8) (maxLen : ℕ) (s : Opts) : Checked (ℤ × Opts) := do
  let (opt, pos, r) ← readU8 data s.offset maxLen
  if opt = 0xFF then
    if r > 0 then .ok (0, { s with offset := pos }) else .err (-EINVAL)
  else
    let optLen := (s.optLen + 1) % 2 ^ 16
    let delta := opt.toNat / 16
    let len := opt.toNat % 16
    if r = 0 ∧ delta > 12 then .err (-EINVAL)
    else do
      let (delta, optLen, pos, r) ← extend data maxLen delta (decide (len > 12)) optLen pos r
      let (len, optLen, pos, r) ← extend data maxLen len false optLen pos r
      let optDelta ← u16Add s.delta delta
      let optLen ← u16Add optLen len
      if r = 0 ∧ len ≠ 0 then .err (-EINVAL)
      else do
        let pos ← u16Add pos len
        .ok ((maxLen : ℤ) - pos, ⟨pos, optDelta, optLen⟩)

/-- Lengths that `coap_packet_parse` stores in the packet. -/
structure Parsed where
  hdrLen : ℕ
  optLen : ℕ
  delta : ℕ
  deriving DecidableEq

/-- One round of the loop of `coap_packet_parse`. -/
def parseRound (data : List UInt8) (hdrLen : ℕ) (s : Opts) : Opts ⊕ Checked Parsed :=
  match skipOption data data.length s with
  | .fault => .inr .fault
  | .err _ => .inr (.err (-EILSEQ))
  | .ok (ret, s) =>
    if ret < 0 then .inr (.err (-EILSEQ))
    else if ret = 0 then .inr (.ok ⟨hdrLen, s.optLen, s.delta⟩)
    else .inl s

/-- `coap_packet_parse` with `opt_num` zero. -/
def coapPacketParse (data : List UInt8) (fuel : ℕ) : Option (Checked Parsed) :=
  if data.length < 4 then some (.err (-EINVAL))
  else
    match byteAt data 0 with
    | .ok b =>
      let tkl := b.toNat % 16
      if tkl > 8 then some (.err (-EBADMSG))
      else if 4 + tkl > data.length then some (.err (-EBADMSG))
      else if 4 + tkl = data.length then some (.ok ⟨4 + tkl, 0, 0⟩)
      else loop (parseRound data (4 + tkl)) fuel ⟨4 + tkl, 0, 0⟩
    | .err e => some (.err e)
    | .fault => some .fault

/-! ### Well-formed messages -/

/-- First option of some bytes: its difference, its length, and the bytes behind its
header. -/
def optionAt : List UInt8 → Option (ℕ × ℕ × List UInt8)
  | [] => none
  | b :: bs =>
    (field (b.toNat / 16) bs).bind fun d =>
      (field (b.toNat % 16) d.2).map fun l => (d.1, l.1, l.2)

/-- Options after one with the number `prev`: their length and the last number. -/
inductive Options : ℕ → List UInt8 → ℕ → ℕ → Prop
  | nil {prev : ℕ} : Options prev [] 0 prev
  | payload {prev : ℕ} {b : UInt8} {bs : List UInt8} : Options prev (0xFF :: b :: bs) 0 prev
  | option {prev delta len optLen last : ℕ} {bs rest : List UInt8} :
      optionAt bs = some (delta, len, rest) → prev + delta ≤ 65535 → len ≤ rest.length →
      Options (prev + delta) (rest.drop len) optLen last →
      Options prev bs (bs.length - (rest.drop len).length + optLen) last

/-- Length of the header of a message, with its token. -/
def headerLen (msg : List UInt8) : ℕ := 4 + (msg.headD 0).toNat % 16

/-- A well-formed message: the length of its options and the last number. -/
def WellFormed (msg : List UInt8) (optLen delta : ℕ) : Prop :=
  headerLen msg ≤ 4 + 8 ∧ headerLen msg ≤ msg.length ∧
    Options 0 (msg.drop (headerLen msg)) optLen delta

/-- Options whose fields are read modulo 2 ^ 16. `wraps` says that this makes a difference. -/
inductive OptionsMod : ℕ → List UInt8 → ℕ → ℕ → Bool → Prop
  | nil {prev : ℕ} : OptionsMod prev [] 0 prev false
  | payload {prev : ℕ} {b : UInt8} {bs : List UInt8} :
      OptionsMod prev (0xFF :: b :: bs) 0 prev false
  | option {prev delta len optLen last : ℕ} {bs rest : List UInt8} {wraps : Bool} :
      optionAt bs = some (delta, len, rest) → prev + delta % 2 ^ 16 < 2 ^ 16 →
      len % 2 ^ 16 ≤ rest.length →
      OptionsMod (prev + delta % 2 ^ 16) (rest.drop (len % 2 ^ 16)) optLen last wraps →
      OptionsMod prev bs (bs.length - (rest.drop (len % 2 ^ 16)).length + optLen) last
        (decide (2 ^ 16 ≤ delta) || decide (2 ^ 16 ≤ len) || wraps)

/-- A message with a field that wraps, and that would be well-formed with the wrapped one. -/
def Wraps (msg : List UInt8) : Prop :=
  headerLen msg ≤ 4 + 8 ∧ headerLen msg ≤ msg.length ∧
    ∃ optLen delta, OptionsMod 0 (msg.drop (headerLen msg)) optLen delta true

variable {nib delta len last optLen prev hdrLen : ℕ} {bs rest : List UInt8} {b : UInt8} {s : Opts}

theorem field_length {n : ℕ} (h : field nib bs = some (n, rest)) : rest.length ≤ bs.length := by
  rw [field.eq_def] at h
  split_ifs at h
  · cases h
    exact le_rfl
  · cases bs with
    | nil => cases h
    | cons b bs =>
      cases h
      exact Nat.le_succ _
  rcases bs with _ | ⟨b, bs⟩
  · cases h
  rcases bs with _ | ⟨c, bs⟩
  · cases h
  cases h
  simp only [length_cons]
  omega

theorem optionAt_length (h : optionAt bs = some (delta, len, rest)) : rest.length < bs.length := by
  rcases bs with _ | ⟨b, bs⟩
  · cases h
  rw [optionAt] at h
  obtain ⟨⟨d, bs₁⟩, hd, h⟩ := Option.bind_eq_some_iff.mp h
  obtain ⟨⟨l, bs₂⟩, hl, h⟩ := Option.map_eq_some_iff.mp h
  cases h
  have hle : bs₁.length ≤ bs.length := field_length hd
  have hle' : bs₂.length ≤ bs₁.length := field_length hl
  simp only [length_cons]
  omega

theorem options_iff (hbs : bs.length < 2 ^ 16) :
    Options prev bs optLen last ↔ OptionsMod prev bs optLen last false := by
  constructor
  · intro h
    induction h with
    | nil => exact .nil
    | payload => exact .payload
    | @option prev delta len optLen last bs rest hat hdelta hlen _ ih =>
      have hlt := optionAt_length hat
      have hd : delta % 2 ^ 16 = delta := Nat.mod_eq_of_lt (by omega)
      have hl : len % 2 ^ 16 = len := Nat.mod_eq_of_lt (by omega)
      have hrest := ih (by rw [length_drop]; omega)
      rw [← hl, ← hd] at hrest
      have := OptionsMod.option hat (by omega) (by omega) hrest
      rwa [hl, decide_eq_false (by omega), decide_eq_false (by omega)] at this
  intro h
  generalize hw : false = w at h
  induction h with
  | nil => exact .nil
  | payload => exact .payload
  | @option prev delta len optLen last bs rest wraps hat hdelta hlen _ ih =>
    have hlt := optionAt_length hat
    obtain ⟨⟨hd, hl⟩, hwr⟩ : (¬ 2 ^ 16 ≤ delta ∧ ¬ 2 ^ 16 ≤ len) ∧ wraps = false := by
      simpa using hw.symm
    have hrest := ih (by rw [length_drop]; omega) hwr.symm
    rw [Nat.mod_eq_of_lt (by omega), Nat.mod_eq_of_lt (by omega)] at hrest
    rw [Nat.mod_eq_of_lt (by omega)] at hdelta hlen ⊢
    exact .option hat (by omega) hlen hrest

variable {w : Bool}

theorem OptionsMod.unique
    (h : OptionsMod prev bs optLen last w) : ∀ {optLen' last' : ℕ} {w' : Bool},
      OptionsMod prev bs optLen' last' w' → optLen = optLen' ∧ last = last' ∧ w = w' := by
  induction h with
  | nil =>
    intro _ _ _ h'
    cases h' with
    | nil => exact ⟨rfl, rfl, rfl⟩
    | option hat => cases hat
  | payload =>
    intro _ _ _ h'
    cases h' with
    | payload => exact ⟨rfl, rfl, rfl⟩
    | option hat => cases hat
  | option hat _ _ _ ih =>
    intro _ _ _ h'
    cases h' with
    | nil => cases hat
    | payload => cases hat
    | option hat' _ _ hrest' =>
      cases hat.symm.trans hat'
      obtain ⟨rfl, rfl, rfl⟩ := ih hrest'
      exact ⟨rfl, rfl, rfl⟩

theorem OptionsMod.option_inv
    (h : OptionsMod prev bs optLen last w) (hat : optionAt bs = some (delta, len, rest)) :
    ∃ optLen' w', optLen = bs.length - (rest.drop (len % 2 ^ 16)).length + optLen' ∧
      prev + delta % 2 ^ 16 < 2 ^ 16 ∧ len % 2 ^ 16 ≤ rest.length ∧
      OptionsMod (prev + delta % 2 ^ 16) (rest.drop (len % 2 ^ 16)) optLen' last w' := by
  cases h with
  | nil => cases hat
  | payload => cases hat
  | option hat' hd hl h' =>
    cases hat.symm.trans hat'
    exact ⟨_, _, rfl, hd, hl, h'⟩

/-! ### Reading fields -/

variable {msg : List UInt8} {pos : ℕ}

theorem length_of_drop (h : msg.drop pos = b :: bs) : msg.length = pos + (bs.length + 1) := by
  have := congrArg List.length h
  rw [length_drop, length_cons] at this
  omega

theorem drop_succ (h : msg.drop pos = b :: bs) : msg.drop (pos + 1) = bs := by
  rw [← drop_drop, h, drop_succ_cons, drop_zero]

theorem readU8_cons (h : msg.drop pos = b :: bs) :
    readU8 msg pos msg.length = .ok (b, pos + 1, bs.length) := by
  have hlen := length_of_drop h
  rw [readU8, if_neg (by omega), byteAt_of_drop h, ok_bind]
  congr 3
  omega

theorem readU8_nil (h : msg.drop pos = []) : readU8 msg pos msg.length = .err (-EINVAL) := by
  have := congrArg List.length h
  rw [length_drop, length_nil] at this
  rw [readU8, if_pos (by omega)]

theorem readBe16_cons {c : UInt8} (h : msg.drop pos = b :: c :: bs) :
    readBe16 msg pos msg.length = .ok (b.toNat * 256 + c.toNat, pos + 2, bs.length) := by
  have hlen := length_of_drop h
  rw [length_cons] at hlen
  rw [readBe16, if_neg (by omega), byteAt_of_drop h, ok_bind, byteAt_of_drop (drop_succ h),
    ok_bind, ← Nat.shiftLeft_add_eq_or_of_lt c.toNat_lt, Nat.shiftLeft_eq]
  congr 3
  omega

theorem readBe16_short (h : (msg.drop pos).length < 2) :
    readBe16 msg pos msg.length = .err (-EINVAL) := by
  rw [length_drop] at h
  rw [readBe16, if_pos (by omega)]

theorem decodeDelta_spec (h12 : 12 < nib) (h16 : nib < 16) :
    (field nib (msg.drop pos) = none → decodeDelta msg pos msg.length nib = .err (-EINVAL)) ∧
      ∀ v rest, field nib (msg.drop pos) = some (v, rest) →
        ∃ k ≤ 2, pos + k + rest.length = msg.length ∧ rest = msg.drop (pos + k) ∧
          decodeDelta msg pos msg.length nib = .ok ((v % 2 ^ 16, k), pos + k, rest.length) := by
  obtain rfl | rfl | rfl : nib = 13 ∨ nib = 14 ∨ nib = 15 := by omega
  · rcases h : msg.drop pos with _ | ⟨b, bs⟩
    · refine ⟨fun _ => ?_, fun v rest hf => (by cases hf)⟩
      rw [decodeDelta, if_pos rfl, readU8_nil h, err_bind]
    refine ⟨fun hf => (by cases hf), fun v rest hf => ?_⟩
    obtain ⟨rfl, rfl⟩ := Prod.mk.inj (Option.some_inj.mp hf)
    have hlen := length_of_drop h
    have hb := b.toNat_lt
    refine ⟨1, by omega, by omega, (drop_succ h).symm, ?_⟩
    rw [decodeDelta, if_pos rfl, readU8_cons h, ok_bind, Nat.mod_eq_of_lt (by omega)]
  · rcases h : msg.drop pos with _ | ⟨b, _ | ⟨c, bs⟩⟩
    · refine ⟨fun _ => ?_, fun v rest hf => (by cases hf)⟩
      rw [decodeDelta, if_neg (by omega), if_pos rfl, readBe16_short (by simp [h]), err_bind]
    · refine ⟨fun _ => ?_, fun v rest hf => (by cases hf)⟩
      rw [decodeDelta, if_neg (by omega), if_pos rfl, readBe16_short (by simp [h]), err_bind]
    refine ⟨fun hf => (by cases hf), fun v rest hf => ?_⟩
    obtain ⟨rfl, rfl⟩ := Prod.mk.inj (Option.some_inj.mp hf)
    have hlen := length_of_drop h
    rw [length_cons] at hlen
    refine ⟨2, le_rfl, by omega, (drop_succ (drop_succ h)).symm, ?_⟩
    rw [decodeDelta, if_neg (by omega), if_pos rfl, readBe16_cons h, ok_bind]
  · exact ⟨fun _ => rfl, fun v rest hf => (by cases hf)⟩

theorem extend_spec (h16 : nib < 16) (more : Bool)
    (hpos : pos ≤ msg.length) (hmsg : msg.length < 2 ^ 16) (hopt : hdrLen + optLen = pos) {r : ℤ}
    (hr : r = (msg.drop pos).length) :
    (field nib (msg.drop pos) = none →
        extend msg msg.length nib more optLen pos r = .err (-EINVAL)) ∧
      ∀ v rest, field nib (msg.drop pos) = some (v, rest) → (rest = [] → more = true → 12 < nib →
          extend msg msg.length nib more optLen pos r = .err (-EINVAL)) ∧
        (¬ (rest = [] ∧ more = true ∧ 12 < nib) →
          ∃ k, pos + k + rest.length = msg.length ∧ rest = msg.drop (pos + k) ∧
            extend msg msg.length nib more optLen pos r =
              .ok (v % 2 ^ 16, optLen + k, pos + k, rest.length)) := by
  by_cases h12 : 12 < nib
  · obtain ⟨hnone, hsome⟩ := decodeDelta_spec h12 h16
    constructor
    · intro hf
      rw [extend, if_pos h12, hnone hf, err_bind]
    intro v rest hf
    obtain ⟨k, hk, hlen, hrest, hd⟩ := hsome v rest hf
    rw [extend, if_pos h12, hd, ok_bind]
    dsimp only
    constructor
    · intro hnil hmore _
      rw [if_pos ⟨by rw [hnil]; rfl, hmore⟩]
    intro hne
    have hzero : ¬ ((rest.length : ℤ) = 0 ∧ more = true) := by
      rintro ⟨h0, hmore⟩
      exact hne ⟨length_eq_zero_iff.mp (by omega), hmore, h12⟩
    refine ⟨k, hlen, hrest, ?_⟩
    rw [if_neg hzero, u16Add, if_pos (by omega), ok_bind]
  have hf : field nib (msg.drop pos) = some (nib, msg.drop pos) := by
    rw [field.eq_def, if_pos (by omega)]
  constructor
  · intro hnone
    rw [hf] at hnone
    cases hnone
  intro v rest hsome
  cases hf.symm.trans hsome
  refine ⟨fun _ _ h => absurd h h12, fun _ => ⟨0, ?_, rfl, ?_⟩⟩
  · rw [length_drop]
    omega
  · rw [extend, if_neg h12, Nat.mod_eq_of_lt (by omega), hr]
    rfl

theorem field_nil (h : 12 < nib) : field nib [] = none := by
  rw [field.eq_def, if_neg (by omega)]
  split_ifs <;> rfl

/-! ### Reading options -/

/-- `parse_option` fails, with an error or a negative remainder. -/
def Fails (x : Checked (ℤ × Opts)) : Prop :=
  (∃ e, x = .err e) ∨ ∃ r s, x = .ok (r, s) ∧ r < 0

theorem skipOption_marker (h : msg.drop s.offset = 0xFF :: bs) :
    skipOption msg msg.length s =
      if bs = [] then .err (-EINVAL) else .ok (0, { s with offset := s.offset + 1 }) := by
  rw [skipOption, readU8_cons h, ok_bind]
  dsimp only
  rw [if_pos rfl]
  cases bs with
  | nil => rfl
  | cons c cs => rw [if_pos (by simp), if_neg (cons_ne_nil _ _)]

/-- End of `parse_option` without an option to fill, behind the header of an option. -/
def skipValue (maxLen : ℕ) (s : Opts) (delta len optLen pos : ℕ) (r : ℤ) : Checked (ℤ × Opts) := do
  let optDelta ← u16Add s.delta delta
  let optLen ← u16Add optLen len
  if r = 0 ∧ len ≠ 0 then .err (-EINVAL)
  else do
    let pos ← u16Add pos len
    .ok ((maxLen : ℤ) - pos, ⟨pos, optDelta, optLen⟩)

theorem skipValue_spec (s : Opts)
    (hrest : rest = msg.drop pos) (hpos : pos + rest.length = msg.length)
    (hmsg : msg.length < 2 ^ 16) (hopt : hdrLen + optLen = pos) :
    let x := skipValue msg.length s delta len optLen pos rest.length
    (¬ (s.delta + delta < 2 ^ 16 ∧ len ≤ rest.length) → Fails x) ∧
      (s.delta + delta < 2 ^ 16 → len ≤ rest.length → msg.drop (pos + len) = rest.drop len ∧
          x = .ok ((rest.length - len : ℕ), ⟨pos + len, s.delta + delta, optLen + len⟩)) := by
  dsimp only
  rw [skipValue]
  by_cases hd : s.delta + delta < 2 ^ 16
  · rw [u16Add, if_pos hd, ok_bind]
    by_cases ho : optLen + len < 2 ^ 16
    · rw [u16Add, if_pos ho, ok_bind]
      by_cases hz : (rest.length : ℤ) = 0 ∧ len ≠ 0
      · rw [if_pos hz]
        exact ⟨fun _ => .inl ⟨_, rfl⟩, fun _ hl => absurd hl (by omega)⟩
      rw [if_neg hz]
      by_cases hp : pos + len < 2 ^ 16
      · rw [u16Add, if_pos hp, ok_bind]
        constructor
        · intro hne
          exact .inr ⟨_, _, rfl, by omega⟩
        · intro _ hl
          refine ⟨by rw [hrest, drop_drop], ?_⟩
          congr 2
          omega
      · rw [u16Add, if_neg hp, err_bind]
        exact ⟨fun _ => .inl ⟨_, rfl⟩, fun _ hl => absurd hl (by omega)⟩
    · rw [u16Add, if_neg ho, err_bind]
      exact ⟨fun _ => .inl ⟨_, rfl⟩, fun _ hl => absurd hl (by omega)⟩
  · rw [u16Add, if_neg hd, err_bind]
    exact ⟨fun _ => .inl ⟨_, rfl⟩, fun h _ => absurd h hd⟩

theorem parseOptionWith_spec {α : Type}
    (marker : ℕ → Checked α) (value : ℕ → ℕ → ℕ → ℕ → ℤ → Checked α)
    (h : msg.drop s.offset = b :: bs) (hb : b ≠ 0xFF) (hmsg : msg.length < 2 ^ 16)
    (hopt : hdrLen + s.optLen = s.offset) :
    (optionAt (b :: bs) = none →
        parseOptionWith msg msg.length s marker value = .err (-EINVAL)) ∧
      ∀ delta len rest, optionAt (b :: bs) = some (delta, len, rest) →
        ∃ pos optLen, pos + rest.length = msg.length ∧ rest = msg.drop pos ∧
          hdrLen + optLen = pos ∧ parseOptionWith msg msg.length s marker value =
            value (delta % 2 ^ 16) (len % 2 ^ 16) optLen pos rest.length := by
  have hlen := length_of_drop h
  have hnib : b.toNat / 16 < 16 := by have := b.toNat_lt; omega
  have hnib' : b.toNat % 16 < 16 := Nat.mod_lt _ (by omega)
  rw [parseOptionWith, readU8_cons h, ok_bind]
  dsimp only
  rw [if_neg hb, Nat.mod_eq_of_lt (show s.optLen + 1 < 2 ^ 16 by omega), optionAt]
  by_cases h0 : (bs.length : ℤ) = 0 ∧ b.toNat / 16 > 12
  · have hnil : bs = [] := length_eq_zero_iff.mp (by omega)
    rw [if_pos h0, hnil, field_nil h0.2]
    exact ⟨fun _ => rfl, nofun⟩
  rw [if_neg h0]
  have hbs : msg.drop (s.offset + 1) = bs := drop_succ h
  obtain ⟨hnone, hsome⟩ := extend_spec hnib (decide (b.toNat % 16 > 12))
    (show s.offset + 1 ≤ msg.length by omega) hmsg
    (show hdrLen + (s.optLen + 1) = s.offset + 1 by omega) (r := (bs.length : ℤ)) (by rw [hbs])
  rw [hbs] at hnone hsome
  rcases hf : field (b.toNat / 16) bs with _ | ⟨delta, bs₁⟩
  · rw [hnone hf, err_bind]
    exact ⟨fun _ => rfl, nofun⟩
  rw [Option.bind_some]
  by_cases hmore : bs₁ = [] ∧ decide (b.toNat % 16 > 12) = true ∧ 12 < b.toNat / 16
  · rw [(hsome delta bs₁ hf).1 hmore.1 hmore.2.1 hmore.2.2, err_bind, hmore.1,
      field_nil (of_decide_eq_true hmore.2.1)]
    exact ⟨fun _ => rfl, nofun⟩
  obtain ⟨k, hk, hbs₁, he⟩ := (hsome delta bs₁ hf).2 hmore
  rw [he, ok_bind]
  dsimp only
  obtain ⟨hnone', hsome'⟩ := extend_spec hnib' false
    (show s.offset + 1 + k ≤ msg.length by omega) hmsg
    (show hdrLen + (s.optLen + 1 + k) = s.offset + 1 + k by omega)
    (r := (bs₁.length : ℤ)) (by rw [← hbs₁])
  rw [← hbs₁] at hnone' hsome'
  rcases hf' : field (b.toNat % 16) bs₁ with _ | ⟨len, rest⟩
  · rw [hnone' hf', err_bind]
    exact ⟨fun _ => rfl, nofun⟩
  obtain ⟨k', hk', hrest, he'⟩ := (hsome' len rest hf').2 (by simp)
  rw [he', ok_bind]
  refine ⟨nofun, fun delta' len' rest' hat => ?_⟩
  cases hat
  exact ⟨s.offset + 1 + k + k', s.optLen + 1 + k + k', hk', hrest, by omega, rfl⟩

theorem skipOption_spec
    (h : msg.drop s.offset = b :: bs) (hb : b ≠ 0xFF) (hmsg : msg.length < 2 ^ 16)
    (hopt : hdrLen + s.optLen = s.offset) :
    (optionAt (b :: bs) = none → Fails (skipOption msg msg.length s)) ∧
      ∀ delta len rest, optionAt (b :: bs) = some (delta, len, rest) →
        (¬ (s.delta + delta % 2 ^ 16 < 2 ^ 16 ∧ len % 2 ^ 16 ≤ rest.length) →
          Fails (skipOption msg msg.length s)) ∧
        (s.delta + delta % 2 ^ 16 < 2 ^ 16 → len % 2 ^ 16 ≤ rest.length →
          ∃ s' : Opts, hdrLen + s'.optLen = s'.offset ∧ s'.delta = s.delta + delta % 2 ^ 16 ∧
            s'.offset + (rest.length - len % 2 ^ 16) = msg.length ∧
            msg.drop s'.offset = rest.drop (len % 2 ^ 16) ∧
            skipOption msg msg.length s = .ok ((rest.length - len % 2 ^ 16 : ℕ), s')) := by
  have hwith : skipOption msg msg.length s = parseOptionWith msg msg.length s
      (fun pos => .ok (0, { s with offset := pos })) (skipValue msg.length s) := rfl
  rw [hwith]
  obtain ⟨hnone, hsome⟩ := parseOptionWith_spec _ _ h hb hmsg hopt
  refine ⟨fun hat => .inl ⟨_, hnone hat⟩, fun delta len rest hat => ?_⟩
  obtain ⟨pos, optLen, hpos, hrest, hopt', heq⟩ := hsome delta len rest hat
  rw [heq]
  obtain ⟨hfail, hok⟩ := skipValue_spec s hrest hpos hmsg hopt'
  refine ⟨hfail, fun hd hl => ?_⟩
  obtain ⟨hdrop, hx⟩ := hok hd hl
  exact ⟨_, by dsimp only; omega, rfl, by dsimp only; omega, hdrop, hx⟩

/-! ### Loop -/

theorem parseRound_fails (h : Fails (skipOption msg msg.length s)) :
    parseRound msg hdrLen s = .inr (.err (-EILSEQ)) := by
  rw [parseRound]
  rcases h with ⟨e, he⟩ | ⟨r, s', he, hr⟩
  · rw [he]
  · rw [he]
    exact if_pos hr

/-- The loop from `s` on ends with `r`, and this is what can be read modulo 2 ^ 16 there. -/
structure Reads (msg : List UInt8) (hdrLen : ℕ) (s : Opts) (r : Checked Parsed) : Prop where
  safe : r ≠ .fault
  accepts : ∀ p, r = .ok p ↔ p.hdrLen = hdrLen ∧ ∃ k w, p.optLen = s.optLen + k ∧
    OptionsMod s.delta (msg.drop s.offset) k p.delta w

section reads

variable {hdrLen : ℕ} {s s' : Opts} {r : Checked Parsed}

theorem Reads.err (hno : ∀ k last w, ¬ OptionsMod s.delta (msg.drop s.offset) k last w) (e : ℤ) :
    Reads msg hdrLen s (.err e) where
  safe := by simp
  accepts p := by
    refine ⟨fun he => (by cases he), ?_⟩
    rintro ⟨-, k, w, -, hk⟩
    exact absurd hk (hno k p.delta w)

theorem Reads.ok {k last : ℕ} {w : Bool}
    (h : OptionsMod s.delta (msg.drop s.offset) k last w) :
    Reads msg hdrLen s (.ok ⟨hdrLen, s.optLen + k, last⟩) where
  safe := by simp
  accepts p := by
    constructor
    · intro he
      cases he
      exact ⟨rfl, k, w, rfl, h⟩
    · rintro ⟨rfl, k', w', hk, hm⟩
      obtain ⟨rfl, rfl, -⟩ := hm.unique h
      rw [← hk]

theorem Reads.option {delta len : ℕ} {bs rest : List UInt8} (h : msg.drop s.offset = bs)
    (hat : optionAt bs = some (delta, len, rest)) (hd : s.delta + delta % 2 ^ 16 < 2 ^ 16)
    (hl : len % 2 ^ 16 ≤ rest.length) (hdelta : s'.delta = s.delta + delta % 2 ^ 16)
    (hdrop : msg.drop s'.offset = rest.drop (len % 2 ^ 16))
    (hopt : s'.optLen = s.optLen + (bs.length - (rest.drop (len % 2 ^ 16)).length))
    (hr : Reads msg hdrLen s' r) : Reads msg hdrLen s r where
  safe := hr.safe
  accepts p := by
    rw [hr.accepts, h, hdrop, hdelta]
    refine and_congr_right fun _ => ⟨?_, ?_⟩
    · rintro ⟨k, w, hk, hm⟩
      exact ⟨_, _, by rw [hk, hopt, Nat.add_assoc], .option hat hd hl hm⟩
    · rintro ⟨k, w, hk, hm⟩
      obtain ⟨k', w', rfl, -, -, hm'⟩ := hm.option_inv hat
      exact ⟨k', w', by rw [hk, hopt, Nat.add_assoc], hm'⟩

end reads

/-- The loop over the options ends, stays in the message and accepts what can be read modulo
2 ^ 16. -/
theorem parseLoop_ends (hmsg : msg.length < 2 ^ 16) (n : ℕ) : ∀ s : Opts,
    hdrLen + s.optLen = s.offset → (msg.drop s.offset).length = n → 0 < n →
      ∃ r, Ends (fun f => loop (parseRound msg hdrLen) f s) r ∧ Reads msg hdrLen s r := by
  induction n using Nat.strong_induction_on with
  | _ n ih =>
    intro s hopt hn hpos
    obtain ⟨b, bs, h⟩ : ∃ b bs, msg.drop s.offset = b :: bs :=
      exists_cons_of_length_pos (hn ▸ hpos)
    have hfail : (∀ k last w, ¬ OptionsMod s.delta (msg.drop s.offset) k last w) →
        Fails (skipOption msg msg.length s) →
        ∃ r, Ends (fun f => loop (parseRound msg hdrLen) f s) r ∧ Reads msg hdrLen s r :=
      fun hno hf => ⟨_, (ends_loop_inr (parseRound_fails hf)).mpr rfl, .err hno _⟩
    by_cases hb : b = 0xFF
    · subst hb
      have hmark := skipOption_marker h
      cases bs with
      | nil =>
        rw [if_pos rfl] at hmark
        refine hfail (fun k last w hk => ?_) (.inl ⟨_, hmark⟩)
        rw [h] at hk
        cases hk with
        | option hat => cases hat
      | cons c cs =>
        rw [if_neg (cons_ne_nil _ _)] at hmark
        have hround : parseRound msg hdrLen s = .inr (.ok ⟨hdrLen, s.optLen + 0, s.delta⟩) := by
          rw [parseRound, hmark]
          rfl
        exact ⟨_, (ends_loop_inr hround).mpr rfl, .ok (w := false) (by rw [h]; exact .payload)⟩
    obtain ⟨hnone, hsome⟩ := skipOption_spec h hb hmsg hopt
    rcases hat : optionAt (b :: bs) with _ | q
    · refine hfail (fun k last w hk => ?_) (hnone hat)
      rw [h] at hk
      cases hk with
      | payload => exact hb rfl
      | option hat' => cases hat.symm.trans hat'
    obtain ⟨delta, len, rest⟩ := q
    by_cases hok : s.delta + delta % 2 ^ 16 < 2 ^ 16 ∧ len % 2 ^ 16 ≤ rest.length
    · obtain ⟨s', hopt', hdelta, hoff, hdrop, hskip⟩ :=
        (hsome delta len rest hat).2 hok.1 hok.2
      have hlt := optionAt_length hat
      have hlen := length_of_drop h
      have hrest : (msg.drop s'.offset).length = rest.length - len % 2 ^ 16 := by
        rw [hdrop, length_drop]
      -- the rest is read by the loop, or it is empty
      suffices hr : ∃ r, Ends (fun f => loop (parseRound msg hdrLen) f s) r ∧
          Reads msg hdrLen s' r by
        obtain ⟨r, hr, hreads⟩ := hr
        refine ⟨r, hr, .option h hat hok.1 hok.2 hdelta hdrop ?_ hreads⟩
        rw [length_drop]
        rw [length_cons] at hlt ⊢
        omega
      by_cases hzero : rest.length - len % 2 ^ 16 = 0
      · have hround : parseRound msg hdrLen s = .inr (.ok ⟨hdrLen, s'.optLen + 0, s'.delta⟩) := by
          rw [parseRound, hskip, hzero]
          rfl
        have hnil : msg.drop s'.offset = [] :=
          length_eq_zero_iff.mp (hrest.trans hzero)
        exact ⟨_, (ends_loop_inr hround).mpr rfl, .ok (w := false) (by rw [hnil]; exact .nil)⟩
      have hround : parseRound msg hdrLen s = .inl s' := by
        rw [parseRound, hskip]
        dsimp only
        rw [if_neg (by omega), if_neg (by omega)]
      rw [h] at hn
      obtain ⟨r, hr, hreads⟩ := ih _ (by omega) s' hopt' hrest (by omega)
      exact ⟨r, (ends_loop_inl hround).mpr hr, hreads⟩
    · refine hfail (fun k last w hk => ?_) ((hsome delta len rest hat).1 hok)
      rw [h] at hk
      obtain ⟨_, _, -, hd, hl, -⟩ := hk.option_inv hat
      exact hok ⟨hd, hl⟩

/-! ### Messages -/

theorem coapPacketParse_ends (hmsg : msg.length < 2 ^ 16) :
    ∃ r, Ends (coapPacketParse msg) r ∧ r ≠ .fault ∧
      ∀ p, r = .ok p ↔ p.hdrLen = headerLen msg ∧ headerLen msg ≤ 4 + 8 ∧
        headerLen msg ≤ msg.length ∧
        ∃ w, OptionsMod 0 (msg.drop (headerLen msg)) p.optLen p.delta w := by
  rcases msg with _ | ⟨b, bs⟩
  · refine ⟨.err (-EINVAL), .const _, by simp, fun p => ⟨fun he => (by cases he), ?_⟩⟩
    rintro ⟨-, -, hle, -⟩
    exact absurd hle (by decide)
  set msg := b :: bs with hdef
  have hhdr : headerLen msg = 4 + b.toNat % 16 := rfl
  have herr : ∀ e, (∀ f, coapPacketParse msg f = some (.err e)) →
      ¬ (headerLen msg ≤ 4 + 8 ∧ headerLen msg ≤ msg.length) →
      ∃ r, Ends (coapPacketParse msg) r ∧ r ≠ .fault ∧
        ∀ p, r = .ok p ↔ p.hdrLen = headerLen msg ∧ headerLen msg ≤ 4 + 8 ∧
          headerLen msg ≤ msg.length ∧
          ∃ w, OptionsMod 0 (msg.drop (headerLen msg)) p.optLen p.delta w := by
    intro e he hno
    refine ⟨.err e, .congr he (.const _), by simp, fun p => ⟨fun h => (by cases h), ?_⟩⟩
    rintro ⟨-, h8, hle, -⟩
    exact absurd ⟨h8, hle⟩ hno
  by_cases h4 : msg.length < 4
  · exact herr _ (fun _ => if_pos h4) (by omega)
  have hparse : ∀ f, coapPacketParse msg f = if b.toNat % 16 > 8 then some (.err (-EBADMSG))
      else if 4 + b.toNat % 16 > msg.length then some (.err (-EBADMSG))
      else if 4 + b.toNat % 16 = msg.length then some (.ok ⟨4 + b.toNat % 16, 0, 0⟩)
      else loop (parseRound msg (4 + b.toNat % 16)) f ⟨4 + b.toNat % 16, 0, 0⟩ :=
    fun f => if_neg h4
  rw [← hhdr] at hparse
  by_cases h8 : b.toNat % 16 > 8
  · exact herr _ (fun f => (hparse f).trans (if_pos h8)) (by omega)
  by_cases hle : headerLen msg > msg.length
  · exact herr _ (fun f => (hparse f).trans ((if_neg h8).trans (if_pos hle))) (by omega)
  have hreads : ∃ r, Ends (coapPacketParse msg) r ∧
      Reads msg (headerLen msg) ⟨headerLen msg, 0, 0⟩ r := by
    by_cases heq : headerLen msg = msg.length
    · refine ⟨.ok ⟨headerLen msg, 0 + 0, 0⟩, .congr (fun f => (hparse f).trans
        ((if_neg h8).trans ((if_neg hle).trans (if_pos heq)))) (.const _), .ok (w := false) ?_⟩
      rw [heq, drop_length]
      exact .nil
    · obtain ⟨r, hr, hreads⟩ := parseLoop_ends hmsg _ ⟨headerLen msg, 0, 0⟩ rfl rfl
        (by rw [length_drop]; dsimp only; omega)
      exact ⟨r, .congr (fun f => (hparse f).trans
        ((if_neg h8).trans ((if_neg hle).trans (if_neg heq)))) hr, hreads⟩
  obtain ⟨r, hr, hreads⟩ := hreads
  refine ⟨r, hr, hreads.safe, fun p => ?_⟩
  rw [hreads.accepts]
  refine and_congr_right fun _ => ?_
  constructor
  · rintro ⟨k, w, hk, hm⟩
    obtain rfl : p.optLen = k := by simpa using hk
    exact ⟨by omega, by omega, w, hm⟩
  · rintro ⟨-, -, w, hm⟩
    exact ⟨p.optLen, w, (Nat.zero_add _).symm, hm⟩

/-- **Parsing CoAP messages.** `coap_packet_parse` reads inside of the message only, and accepts
exactly the well-formed messages, unless a field wraps. -/
theorem coap_parse_exact (msg : List UInt8) (hmsg : msg.length < 2 ^ 16) :
    ∃ r, Ends (coapPacketParse msg) r ∧ r ≠ .fault ∧
      ((∀ p, r = .ok p ↔ p.hdrLen = headerLen msg ∧ WellFormed msg p.optLen p.delta) ↔
        ¬ Wraps msg) := by
  obtain ⟨r, hr, hsafe, haccepts⟩ := coapPacketParse_ends hmsg
  refine ⟨r, hr, hsafe, ?_⟩
  have hiff : ∀ {optLen last : ℕ}, Options 0 (msg.drop (headerLen msg)) optLen last ↔
      OptionsMod 0 (msg.drop (headerLen msg)) optLen last false :=
    options_iff (by rw [length_drop]; omega)
  constructor
  · rintro h ⟨h8, hle, optLen, delta, hm⟩
    have hok := (haccepts ⟨headerLen msg, optLen, delta⟩).mpr ⟨rfl, h8, hle, true, hm⟩
    obtain ⟨-, -, -, hwf⟩ := (h _).mp hok
    exact absurd (hm.unique (hiff.mp hwf)).2.2 (by decide)
  intro hno p
  rw [haccepts]
  refine and_congr_right fun _ => and_congr_right fun h8 => and_congr_right fun hle => ?_
  rw [hiff]
  constructor
  · rintro ⟨w, hm⟩
    cases w with
    | false => exact hm
    | true => exact absurd ⟨h8, hle, _, _, hm⟩ hno
  · intro hm
    exact ⟨false, hm⟩

/-- A message with an option and a payload. -/
theorem coap_parse_exact_option :
    [0x40, 1, 0, 1, 0xb1, 97, 0xff, 0].length < 2 ^ 16 ∧
      ∃ r, Ends (coapPacketParse [0x40, 1, 0, 1, 0xb1, 97, 0xff, 0]) r ∧ r ≠ .fault ∧
        ((∀ p, r = .ok p ↔ p.hdrLen = headerLen [0x40, 1, 0, 1, 0xb1, 97, 0xff, 0] ∧
            WellFormed [0x40, 1, 0, 1, 0xb1, 97, 0xff, 0] p.optLen p.delta) ↔
          ¬ Wraps [0x40, 1, 0, 1, 0xb1, 97, 0xff, 0]) :=
  ⟨by decide, coap_parse_exact _ (by decide)⟩

/-- A difference of 65804 is taken for 268. -/
theorem coap_parse_wraps :
    coapPacketParse [0x40, 1, 0, 1, 0xe0, 0xff, 0xff] 2 = some (.ok ⟨4, 3, 268⟩) ∧
      ¬ ∃ optLen delta, WellFormed [0x40, 1, 0, 1, 0xe0, 0xff, 0xff] optLen delta := by
  refine ⟨by decide, ?_⟩
  rintro ⟨optLen, delta, -, -, h⟩
  cases h with
  | option hat hd =>
    cases hat
    exact absurd hd (by decide)

end TlZephyr.CoapParse
