import TlZephyr.CoapParse

/-!
# Finding CoAP Options

`coap_find_options` of `subsys/net/lib/coap/coap.c`. The options are read one by one into the next
free entry of the array of the caller, which is then compared with the code. At the marker of a
payload nothing is read, and the comparison is with what the entry held before.
-/

namespace TlZephyr.CoapParse

open Checked DeltaOptions Fuel List

/-! ### Code -/

/-- `struct coap_option`, with the bytes of the value that were written. -/
structure CoapOption where
  delta : ℕ
  len : ℕ
  value : List UInt8

/-- `read`. -/
def read (data : List UInt8) (offset maxLen len : ℕ) : Checked (List UInt8 × ℕ × ℤ) :=
  if (maxLen : ℤ) - offset < len then .err (-EINVAL)
  else if offset + len ≤ data.length then
    .ok ((data.drop offset).take len, offset + len, (maxLen : ℤ) - (offset + len : ℕ))
  else .fault

/-- `parse_option` with an option to fill, whose value has room for `cap` bytes. -/
def fillOption (cap : ℕ) (data : List UInt8) (maxLen : ℕ) (s : Opts) (option : CoapOption) :
    Checked (ℤ × Opts × CoapOption) :=
  parseOptionWith data maxLen s (fun pos => .ok (0, { s with offset := pos }, option))
    fun delta len optLen pos r => do
      let optDelta ← u16Add s.delta delta
      let optLen ← u16Add optLen len
      if r = 0 ∧ len ≠ 0 then .err (-EINVAL)
      else if len > cap then .err (-EINVAL)
      else do
        let (value, pos, r) ← read data pos maxLen len
        .ok (r, ⟨pos, optDelta, optLen⟩, ⟨optDelta, len, value⟩)

/-- Variables of the loop of `coap_find_options`. -/
structure Find where
  opts : Opts
  num : ℕ
  options : ℕ → CoapOption

def findRound (cap : ℕ) (data : List UInt8) (code veclen : ℕ) (f : Find) :
    Find ⊕ Checked (ℕ × (ℕ → CoapOption)) :=
  if f.opts.delta ≤ code ∧ f.num < veclen then
    match fillOption cap data data.length f.opts (f.options f.num) with
    | .fault => .inr .fault
    | .err _ => .inr (.err (-EINVAL))
    | .ok (r, opts, option) =>
      let options := Function.update f.options f.num option
      let num := if code = option.delta then (f.num + 1) % 2 ^ 8 else f.num
      if r < 0 then .inr (.err (-EINVAL))
      else if r = 0 then .inr (.ok (num, options))
      else .inl ⟨opts, num, options⟩
  else .inr (.ok (f.num, f.options))

/-- `coap_find_options`, for a packet that was parsed: its `max_len` is the length of the data. -/
def coapFindOptions (cap : ℕ) (data : List UInt8) (hdrLen code : ℕ) (options : ℕ → CoapOption)
    (veclen fuel : ℕ) : Option (Checked (ℕ × (ℕ → CoapOption))) :=
  if hdrLen = data.length then some (.ok (0, options))
  else loop (findRound cap data code veclen) fuel ⟨⟨hdrLen, 0, 0⟩, 0, options⟩

/-! ### Options of a message -/

/-- Options after one with the number `prev`, and whether a payload follows. -/
inductive Listed : ℕ → List UInt8 → List Opt → Bool → Prop
  | nil {prev : ℕ} : Listed prev [] [] false
  | payload {prev : ℕ} {b : UInt8} {bs : List UInt8} : Listed prev (0xFF :: b :: bs) [] true
  | option {prev delta len : ℕ} {bs rest : List UInt8} {opts : List Opt} {payload : Bool} :
      optionAt bs = some (delta, len, rest) → prev + delta % 2 ^ 16 < 2 ^ 16 →
      len % 2 ^ 16 ≤ rest.length →
      Listed (prev + delta % 2 ^ 16) (rest.drop (len % 2 ^ 16)) opts payload →
      Listed prev bs ((prev + delta % 2 ^ 16, rest.take (len % 2 ^ 16)) :: opts) payload

def withCode (code : ℕ) (opts : List Opt) : List Opt := opts.filter fun o => o.1 = code

/-- What `parse_option` writes for an option. -/
def CoapOption.ofOpt (o : Opt) : CoapOption := ⟨o.1, o.2.length, o.2⟩

/-- The entries are the options with the code, or the first `veclen` of them. -/
def FindsExactly (opts : List Opt) (code veclen : ℕ) (r : Checked (ℕ × (ℕ → CoapOption))) : Prop :=
  ∃ num options, r = .ok (num, options) ∧
    (range num).map options = ((withCode code opts).take veclen).map .ofOpt

/-- The entry compared at the payload marker is one the caller left there, and it has the code. -/
def Stale (opts : List Opt) (payload : Bool) (code veclen : ℕ) (options : ℕ → CoapOption) : Prop :=
  payload = true ∧ (opts = [] ∨ lastNum 0 opts = code) ∧ (withCode code opts).length < veclen ∧
    (options (withCode code opts).length).delta = code

/-! ### Reading an option -/

section

variable {msg : List UInt8} {cap code veclen : ℕ}

variable {s : Opts} {bs : List UInt8} {prev : ℕ}

variable {hdrLen : ℕ} {b : UInt8} {o : Opt}

theorem fillOption_option {delta len : ℕ} {rest : List UInt8}
    (option : CoapOption) (h : msg.drop s.offset = b :: bs) (hb : b ≠ 0xFF)
    (hmsg : msg.length < 2 ^ 16) (hopt : hdrLen + s.optLen = s.offset)
    (hat : optionAt (b :: bs) = some (delta, len, rest)) (hd : s.delta + delta % 2 ^ 16 < 2 ^ 16)
    (hl : len % 2 ^ 16 ≤ rest.length) (hcap : len % 2 ^ 16 ≤ cap) :
    ∃ s' : Opts, hdrLen + s'.optLen = s'.offset ∧ s'.delta = s.delta + delta % 2 ^ 16 ∧
      msg.drop s'.offset = rest.drop (len % 2 ^ 16) ∧
      fillOption cap msg msg.length s option = .ok ((rest.drop (len % 2 ^ 16)).length, s',
        .ofOpt (s.delta + delta % 2 ^ 16, rest.take (len % 2 ^ 16))) := by
  obtain ⟨pos, optLen, hpos, hrest, hopt', heq⟩ :=
    (parseOptionWith_spec _ _ h hb hmsg hopt).2 delta len rest hat
  have hvalue : ¬ ((rest.length : ℤ) = 0 ∧ len % 2 ^ 16 ≠ 0) := by omega
  have hleft : (msg.length : ℤ) - (pos + len % 2 ^ 16 : ℕ) = (rest.length - len % 2 ^ 16 : ℕ) := by
    omega
  refine ⟨⟨pos + len % 2 ^ 16, s.delta + delta % 2 ^ 16, optLen + len % 2 ^ 16⟩, by dsimp only; omega,
    rfl, by rw [hrest, drop_drop], ?_⟩
  rw [fillOption, heq, u16Add, if_pos hd, ok_bind, u16Add, if_pos (by omega), ok_bind, if_neg hvalue,
    if_neg (not_lt.mpr hcap), read, if_neg (by omega), if_pos (by omega), ok_bind, ← hrest,
    CoapOption.ofOpt, length_take, length_drop, min_eq_left hl]
  simp only [hleft]

/-! ### Loop -/

theorem Listed.le {opts : List Opt} {payload : Bool}
    (h : Listed prev bs opts payload) : ∀ o ∈ opts, prev ≤ o.1 := by
  induction h with
  | nil => simp
  | payload => simp
  | option _ _ _ _ ih =>
    rw [forall_mem_cons]
    exact ⟨Nat.le_add_right _ _, fun o ho => (Nat.le_add_right _ _).trans (ih o ho)⟩

/-- Variables of the loop once it has read the options `before`. -/
structure Found (code : ℕ) (old : ℕ → CoapOption) (before : List Opt) (f : Find) : Prop where
  num : f.num = (withCode code before).length
  delta : f.opts.delta = lastNum 0 before
  entries : (range f.num).map f.options = (withCode code before).map .ofOpt
  rest : ∀ i, f.num < i → f.options i = old i
  slot : (f.options f.num).delta = code ↔
    (old f.num).delta = code ∧ (before = [] ∨ lastNum 0 before = code)

variable {f : Find} {old : ℕ → CoapOption} {before opts : List Opt} {payload : Bool}

theorem Found.step (h : Found code old before f) (hs : s.delta = o.1) :
    Found code old (before ++ [o]) ⟨s, if code = o.1 then f.num + 1 else f.num,
      Function.update f.options f.num (.ofOpt o)⟩ := by
  have hlast : lastNum 0 (before ++ [o]) = o.1 := by simp [lastNum]
  have hentries : (range f.num).map (Function.update f.options f.num (.ofOpt o)) =
      (withCode code before).map .ofOpt := by
    rw [← h.entries]
    exact map_congr_left fun i hi => Function.update_of_ne (mem_range.mp hi).ne ..
  by_cases hcode : code = o.1
  · have hwith : withCode code (before ++ [o]) = withCode code before ++ [o] := by
      simp [withCode, hcode]
    rw [if_pos hcode]
    refine ⟨?_, hs.trans hlast.symm, ?_, fun i hi => ?_, ?_⟩
    · rw [hwith, length_append, ← h.num, length_singleton]
    · dsimp only
      rw [hwith, range_succ, map_append, hentries, map_append, map_singleton, map_singleton,
        Function.update_self]
    · exact (Function.update_of_ne (Nat.lt_of_succ_lt hi).ne' ..).trans (h.rest i (Nat.lt_of_succ_lt hi))
    · dsimp only
      rw [Function.update_of_ne (Nat.succ_ne_self _), h.rest _ (Nat.lt_succ_self _), hlast]
      simp [hcode]
  · have hwith : withCode code (before ++ [o]) = withCode code before := by
      simp [withCode, Ne.symm hcode]
    rw [if_neg hcode]
    refine ⟨by rw [hwith, h.num], hs.trans hlast.symm, by rw [hwith, hentries], fun i hi => ?_, ?_⟩
    · exact (Function.update_of_ne (ne_of_gt hi) ..).trans (h.rest i hi)
    · dsimp only
      rw [Function.update_self, hlast]
      simp [CoapOption.ofOpt, Ne.symm hcode]

theorem Found.ends (h : Found code old opts f) (hnum : f.num ≤ veclen) :
    FindsExactly opts code veclen (.ok (f.num, f.options)) := by
  refine ⟨_, _, rfl, ?_⟩
  rw [take_of_length_le (h.num ▸ hnum), h.entries]

theorem Found.stop (h : Found code old before f) (hle : ∀ o ∈ opts, f.opts.delta ≤ o.1)
    (hnum : f.num ≤ veclen) (hstop : ¬ (f.opts.delta ≤ code ∧ f.num < veclen)) :
    FindsExactly (before ++ opts) code veclen (.ok (f.num, f.options)) ↔
      ¬ Stale (before ++ opts) payload code veclen old := by
  have hwith : withCode code (before ++ opts) = withCode code before ++ withCode code opts :=
    filter_append ..
  by_cases hlt : f.num < veclen
  · -- the numbers are past the code
    have hdelta : code < f.opts.delta := not_le.mp fun h => hstop ⟨h, hlt⟩
    have hnil : withCode code opts = [] := by
      refine filter_eq_nil_iff.mpr fun o ho => ?_
      have := hle o ho
      simp only [decide_eq_true_eq]
      omega
    rw [hnil, append_nil] at hwith
    refine iff_of_true ⟨_, _, rfl, ?_⟩ fun hstale => ?_
    · rw [hwith, take_of_length_le (h.num ▸ hnum), h.entries]
    · rcases eq_nil_or_concat opts with rfl | ⟨front, o, rfl⟩
      · rw [append_nil] at hstale
        rcases hstale.2.1 with hempty | hlast
        · rw [h.delta, hempty] at hdelta
          cases hdelta
        · exact hdelta.ne' (h.delta.trans hlast)
      · have hlast : o.1 = code := by simpa [lastNum] using hstale.2.1
        have := hle o (by simp)
        omega
  · obtain rfl : f.num = veclen := by omega
    refine iff_of_true ⟨_, _, rfl, ?_⟩ fun hstale => ?_
    · rw [hwith, take_left' h.num.symm, h.entries]
    · have := hstale.2.2.1
      rw [hwith, length_append, ← h.num] at this
      omega

theorem Found.marker (h : Found code old opts f) (hnum : f.num < veclen) :
    FindsExactly opts code veclen (.ok (if code = (f.options f.num).delta then f.num + 1 else f.num,
      f.options)) ↔ ¬ Stale opts true code veclen old := by
  have hstale : Stale opts true code veclen old ↔ code = (f.options f.num).delta := by
    rw [eq_comm, h.slot, Stale, ← h.num]
    tauto
  rw [hstale]
  split_ifs with heq
  · refine iff_of_false ?_ (not_not.mpr heq)
    rintro ⟨num, options, hr, hmap⟩
    cases hr
    have hlen := congrArg List.length hmap
    rw [take_of_length_le (h.num ▸ hnum.le)] at hlen
    simp [← h.num] at hlen
  · exact iff_of_true (h.ends hnum.le) heq

theorem fillOption_marker (option : CoapOption) (h : msg.drop s.offset = 0xFF :: b :: bs) :
    fillOption cap msg msg.length s option = .ok (0, { s with offset := s.offset + 1 }, option) := by
  rw [fillOption, parseOptionWith, readU8_cons h, ok_bind]
  dsimp only
  rw [if_pos rfl, if_pos (by simp)]

theorem findRound_option {opts' : Opts} {n : ℕ} (hveclen : veclen ≤ 255)
    (hgo : f.opts.delta ≤ code ∧ f.num < veclen)
    (hfill : fillOption cap msg msg.length f.opts (f.options f.num) = .ok (n, opts', .ofOpt o)) :
    findRound cap msg code veclen f =
      let f' : Find := ⟨opts', if code = o.1 then f.num + 1 else f.num,
        Function.update f.options f.num (.ofOpt o)⟩
      if n = 0 then .inr (.ok (f'.num, f'.options)) else .inl f' := by
  have hmod : (f.num + 1) % 2 ^ 8 = f.num + 1 := Nat.mod_eq_of_lt (by omega)
  simp only [findRound, if_pos hgo, hfill, hmod, Int.natCast_eq_zero, CoapOption.ofOpt]
  rw [if_neg (by omega)]

/-- **The loop finds the options, unless it compares a stale entry.** -/
theorem findLoop_ends (hmsg : msg.length < 2 ^ 16)
    (hveclen : veclen ≤ 255) (hlisted : Listed prev bs opts payload)
    (hcap : ∀ o ∈ opts, o.2.length ≤ cap) (h : Found code old before f)
    (hdrop : msg.drop f.opts.offset = bs) (hbs : bs ≠ []) (hprev : f.opts.delta = prev)
    (hopt : hdrLen + f.opts.optLen = f.opts.offset) (hnum : f.num ≤ veclen) :
    ∃ r, Ends (fun n => loop (findRound cap msg code veclen) n f) r ∧
      (FindsExactly (before ++ opts) code veclen r ↔
        ¬ Stale (before ++ opts) payload code veclen old) := by
  induction hlisted generalizing before f with
  | nil => exact absurd rfl hbs
  | payload =>
    by_cases hgo : f.opts.delta ≤ code ∧ f.num < veclen
    · have hmod : (f.num + 1) % 2 ^ 8 = f.num + 1 := Nat.mod_eq_of_lt (by omega)
      have hround : findRound cap msg code veclen f = .inr (.ok
          (if code = (f.options f.num).delta then f.num + 1 else f.num, f.options)) := by
        simp only [findRound, if_pos hgo, fillOption_marker _ hdrop, hmod, Function.update_eq_self]
        rfl
      refine ⟨_, (ends_loop_inr hround).mpr rfl, ?_⟩
      rw [append_nil]
      exact h.marker hgo.2
    · exact ⟨_, (ends_loop_inr (by rw [findRound, if_neg hgo])).mpr rfl, h.stop (by simp) hnum hgo⟩
  | @option prev delta len bs rest opts payload hat hd hl hrest ih =>
    have hle := (Listed.option hat hd hl hrest).le
    subst hprev
    by_cases hgo : f.opts.delta ≤ code ∧ f.num < veclen
    · obtain ⟨b, bs, rfl⟩ := exists_cons_of_ne_nil hbs
      have hb : b ≠ 0xFF := by
        rintro rfl
        cases hat
      rw [forall_mem_cons, length_take, min_eq_left hl] at hcap
      obtain ⟨s, hopt', hs, hdrop', hfill⟩ := fillOption_option (f.options f.num) hdrop hb hmsg hopt
        hat hd hl hcap.1
      have hround := findRound_option hveclen hgo hfill
      have hstep := h.step (o := (f.opts.delta + delta % 2 ^ 16, rest.take (len % 2 ^ 16))) hs
      have hnum' : (if code = f.opts.delta + delta % 2 ^ 16 then f.num + 1 else f.num) ≤ veclen := by
        split_ifs
        · exact hgo.2
        · exact hnum
      rw [append_cons]
      by_cases hend : rest.drop (len % 2 ^ 16) = []
      · rw [hend] at hrest hround
        cases hrest with
        | option hat' => cases hat'
        | nil =>
          refine ⟨_, (ends_loop_inr hround).mpr rfl, ?_⟩
          rw [append_nil]
          exact iff_of_true (hstep.ends hnum') fun hstale => by cases hstale.1
      · rw [if_neg (length_pos_iff.mpr hend).ne'] at hround
        obtain ⟨r, hr, hiff⟩ := ih hcap.2 hstep hdrop' hend hs hopt' hnum'
        exact ⟨r, (ends_loop_inl hround).mpr hr, hiff⟩
    · exact ⟨_, (ends_loop_inr (by rw [findRound, if_neg hgo])).mpr rfl, h.stop hle hnum hgo⟩

theorem OptionsMod.listed {optLen last : ℕ} {w : Bool}
    (h : OptionsMod prev bs optLen last w) : ∃ opts payload, Listed prev bs opts payload := by
  induction h with
  | nil => exact ⟨_, _, .nil⟩
  | payload => exact ⟨_, _, .payload⟩
  | option hat hd hl _ ih =>
    obtain ⟨opts, payload, hrest⟩ := ih
    exact ⟨_, _, .option hat hd hl hrest⟩

end

/-- **Finding options.** In a parsed message whose values fit, `coap_find_options` finds exactly the
options with a code if and only if it does not compare a stale entry at the end. -/
theorem coap_find_options_exact (msg : List UInt8) (hmsg : msg.length < 2 ^ 16) (p : Parsed)
    (hparse : Ends (coapPacketParse msg) (.ok p)) (cap code veclen : ℕ) (hveclen : veclen ≤ 255) :
    ∃ opts payload, Listed 0 (msg.drop p.hdrLen) opts payload ∧
      ((∀ o ∈ opts, o.2.length ≤ cap) → ∀ old, ∃ r,
        Ends (coapFindOptions cap msg p.hdrLen code old veclen) r ∧
          (FindsExactly opts code veclen r ↔ ¬ Stale opts payload code veclen old)) := by
  obtain ⟨r, hr, -, haccepts⟩ := coapPacketParse_ends hmsg
  obtain ⟨hhdr, -, hle, w, hmod⟩ := (haccepts p).mp (hr.unique hparse)
  rw [← hhdr] at hmod hle
  obtain ⟨opts, payload, hlisted⟩ := hmod.listed
  refine ⟨opts, payload, hlisted, fun hcap old => ?_⟩
  have hstart : Found code old [] ⟨⟨p.hdrLen, 0, 0⟩, 0, old⟩ :=
    ⟨rfl, rfl, rfl, fun _ _ => rfl, by simp⟩
  by_cases heq : p.hdrLen = msg.length
  · rw [heq, drop_length] at hlisted
    cases hlisted with
    | option hat => cases hat
    | nil =>
      refine ⟨.ok (0, old), .congr (fun _ => if_pos heq) (.const _), iff_of_true ?_ ?_⟩
      · exact hstart.ends (Nat.zero_le _)
      · exact fun hstale => by cases hstale.1
  · obtain ⟨r, hr, hiff⟩ := findLoop_ends hmsg hveclen hlisted hcap hstart rfl (by
      rw [← length_pos_iff, length_drop]
      omega) rfl rfl (Nat.zero_le _)
    exact ⟨r, .congr (fun _ => if_neg heq) hr, hiff⟩

/-- A message with two options and a payload. -/
theorem coap_find_options_exact_two : ∃ opts payload,
    Listed 0 ([0x40, 1, 0, 1, 0xb1, 97, 0x01, 98, 0xff, 0].drop 4) opts payload :=
  have ⟨opts, payload, h, _⟩ := coap_find_options_exact
    [0x40, 1, 0, 1, 0xb1, 97, 0x01, 98, 0xff, 0] (by decide) ⟨4, 4, 11⟩
    (ends_loop_of_eq_some (n := 3) (by decide)) 12 11 2 (by decide)
  ⟨opts, payload, h⟩

/-- **A stale entry is taken for an option**, in a message that has a payload and no options. -/
theorem coap_find_options_stale :
    coapPacketParse [0x40, 1, 0, 1, 0xff, 0] 2 = some (.ok ⟨4, 0, 0⟩) ∧
    Listed 0 ([0x40, 1, 0, 1, 0xff, 0].drop 4) [] true ∧
    ∃ options, coapFindOptions 12 [0x40, 1, 0, 1, 0xff, 0] 4 11 (fun _ => ⟨11, 1, [97]⟩) 1 2 =
        some (.ok (1, options)) ∧ ¬ FindsExactly [] 11 1 (.ok (1, options)) := by
  refine ⟨by decide, .payload, _, rfl, ?_⟩
  rintro ⟨num, options, hr, hmap⟩
  cases hr
  cases hmap

end TlZephyr.CoapParse
