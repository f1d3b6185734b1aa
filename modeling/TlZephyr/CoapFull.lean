import TlZephyr.CoapRoundTrip

/-!
# CoAP Options in a Full Packet

What is left of a packet when `coap_packet_append_option` fails. The parts of an option are written
one by one, each with its own test for space, so a call that fails later on has moved `offset`
already. For an option in the middle, the one behind it was even taken out before the first test.
-/

namespace TlZephyr.Coap

open Memory DeltaOptions

/-- Bytes were added somewhere, and the fields but `offset` are the old ones. -/
structure Grown (n : ℕ) (cpkt cpkt' : CoapPacket) : Prop where
  offset : cpkt'.offset = cpkt.offset + n
  fits : cpkt'.offset ≤ cpkt'.maxLen
  maxLen : cpkt'.maxLen = cpkt.maxLen
  optLen : cpkt'.optLen = cpkt.optLen

/-- What a function does that adds `n` bytes if there is space. -/
def Adds (n : ℕ) (cpkt : CoapPacket) (written : Option CoapPacket) : Prop :=
  (∀ cpkt' ∈ written, Grown n cpkt cpkt') ∧ (written = none → cpkt.maxLen < cpkt.offset + n)

/-- What a function does that adds `n` bytes part by part and then returns `size`. -/
def AddsParts (n size : ℕ) (cpkt : CoapPacket) (written : ℤ × CoapPacket) : Prop :=
  (written.1 = size ∧ Grown n cpkt written.2) ∨
    (written.1 < 0 ∧ cpkt.maxLen < cpkt.offset + n ∧ ∃ k, Grown k cpkt written.2)

/-- The bytes up to `offset` and the fields are the old ones. -/
def Unchanged (cpkt cpkt' : CoapPacket) : Prop :=
  cpkt'.bytes = cpkt.bytes ∧ cpkt'.offset = cpkt.offset ∧ cpkt'.optLen = cpkt.optLen ∧
    cpkt'.delta = cpkt.delta

def Harmless (cap : ℕ) (cpkt : CoapPacket) (code : ℕ) (value : List UInt8) : Prop :=
  ∀ r cpkt', coapPacketAppendOption cap cpkt code value = some (r, cpkt') → r < 0 →
    Unchanged cpkt cpkt'

def optionSize (delta : ℕ) (value : List UInt8) : ℕ := (DeltaOptions.encodeOption delta value).length

/-- Difference to the option before a new one at the end. -/
def appendedDelta (cpkt : CoapPacket) (code : ℕ) : ℕ :=
  if cpkt.optLen ≠ 0 then (if code = cpkt.delta then 0 else code - cpkt.delta) else code

/-- An option at the end fits or finds the buffer full. For one in the middle the options cannot be
read, or it and the option behind it have room. -/
def AppendSafe (cap : ℕ) (cpkt : CoapPacket) (code : ℕ) (value : List UInt8) : Prop :=
  if code < cpkt.delta then
    ∀ w lastOpt lastOffset, insertLoop cap cpkt.data (cpkt.hdrLen + cpkt.optLen) code
      (cpkt.optLen + 1) ⟨cpkt.hdrLen, 0, 0, (0, [])⟩ 0 cpkt.hdrLen =
        some (some (w, lastOpt, lastOffset)) →
      cpkt.offset + optionSize (u16Sub code lastOpt) value +
        optionSize (u16Sub w.option.1 code) w.option.2 ≤ cpkt.maxLen + (w.pos - lastOffset)
  else
    cpkt.offset + optionSize (appendedDelta cpkt code) value ≤ cpkt.maxLen ∨
      cpkt.offset = cpkt.maxLen

section

variable {cap code offset : ℕ} {value : List UInt8} {cpkt cpkt' : CoapPacket} {r : ℤ}

variable {m n lastOffset lastOpt : ℕ}

theorem Grown.trans {cpkt'' : CoapPacket} (h : Grown m cpkt cpkt')
    (h' : Grown n cpkt' cpkt'') : Grown (m + n) cpkt cpkt'' :=
  ⟨by rw [h'.offset, h.offset, Nat.add_assoc], h'.fits, h'.maxLen.trans h.maxLen,
    h'.optLen.trans h.optLen⟩

theorem adds_store (n : ℕ) (data : Mem) (hmax : cpkt.maxLen < 2 ^ 16) :
    Adds n cpkt (if enoughSpace cpkt n then
      some { cpkt with data := data, offset := (cpkt.offset + n) % 2 ^ 16 } else none) := by
  simp only [enoughSpace, decide_eq_true_eq]
  split_ifs with hspace
  · refine ⟨fun c hc => ?_, fun h => by cases h⟩
    cases hc
    have hmod : (cpkt.offset + n) % 2 ^ 16 = cpkt.offset + n := Nat.mod_eq_of_lt (by omega)
    exact ⟨hmod, hmod.trans_le hspace, rfl, rfl⟩
  · exact ⟨fun c hc => (by cases hc), fun _ => not_le.mp hspace⟩

theorem insert_adds (bs : List UInt8) (offset : ℕ) (hmax : cpkt.maxLen < 2 ^ 16) :
    Adds bs.length cpkt (insert cpkt bs offset) :=
  adds_store bs.length _ hmax

theorem insertExtended_adds (n offset : ℕ) (hmax : cpkt.maxLen < 2 ^ 16)
    (hfits : cpkt.offset ≤ cpkt.maxLen) :
    Adds (extension n).length cpkt (insertExtended cpkt (encodeExtendedOption n).1
      (encodeExtendedOption n).2.2 offset) := by
  rw [encodeExtendedOption, extension]
  split_ifs
  · refine ⟨fun c hc => ?_, fun h => by cases h⟩
    cases hc
    exact ⟨rfl, hfits, rfl, rfl⟩
  · exact adds_store 1 _ hmax
  · exact adds_store 2 _ hmax

theorem Adds.parts {size : ℕ} {written : Option CoapPacket} {out : ℤ × CoapPacket}
    (h : Adds m cpkt written) (hfits : cpkt.offset ≤ cpkt.maxLen)
    (hnone : written = none → out = (-EINVAL, cpkt))
    (hsome : ∀ c, written = some c → Grown m cpkt c → AddsParts n size c out) :
    AddsParts (m + n) size cpkt out := by
  cases hw : written with
  | none =>
    rw [hnone hw]
    exact .inr ⟨show -EINVAL < 0 by decide, (h.2 hw).trans_le (by omega), 0, rfl, hfits, rfl, rfl⟩
  | some c =>
    have hg := h.1 c hw
    obtain ⟨hr, hg'⟩ | ⟨hr, hfull, k, hg'⟩ := hsome c hw hg
    · exact .inl ⟨hr, hg.trans hg'⟩
    · rw [hg.maxLen, hg.offset] at hfull
      exact .inr ⟨hr, by omega, m + k, hg.trans hg'⟩

/-- **An option is added if there is space**, and otherwise only a part of it. -/
theorem encodeOption_adds (hmax : cpkt.maxLen < 2 ^ 16) (hfits : cpkt.offset ≤ cpkt.maxLen)
    (h : encodeOption cpkt code value offset = (r, cpkt')) :
    (r = optionSize code value ∧ Grown (optionSize code value) cpkt cpkt') ∨
    (r < 0 ∧ cpkt.maxLen < cpkt.offset + optionSize code value ∧
      (cpkt' = cpkt ∧ cpkt.offset = cpkt.maxLen ∨ ∃ n, Grown (1 + n) cpkt cpkt')) := by
  have hsize : optionSize code value =
      1 + ((extension code).length + ((extension value.length).length + value.length)) := by
    simp only [optionSize, DeltaOptions.encodeOption, List.length_cons, List.length_append]
    omega
  have hlen : 1 + (encodeExtendedOption code).1 + (encodeExtendedOption value.length).1 +
      value.length = optionSize code value := by
    rw [fst_encodeExtendedOption, fst_encodeExtendedOption]
    omega
  simp only [encodeOption, hlen] at h
  cases h₁ : insertU8 cpkt (optionHeader (encodeExtendedOption code).2.1
      (encodeExtendedOption value.length).2.1) offset with
  | none =>
    have hfull := (adds_store 1 _ hmax).2 h₁
    rw [h₁] at h
    cases h
    exact .inr ⟨by decide, by omega, .inl ⟨rfl, by omega⟩⟩
  | some c₁ =>
    have hg₁ := (adds_store 1 _ hmax).1 c₁ h₁
    have hmax₁ := hg₁.maxLen.trans_lt hmax
    simp only [h₁] at h
    have hrest : AddsParts ((extension code).length + ((extension value.length).length +
        value.length)) (optionSize code value) c₁ (r, cpkt') := by
      refine (insertExtended_adds code (offset + 1) hmax₁ hg₁.fits).parts hg₁.fits
        (fun hn => by simpa [hn] using h.symm) fun c₂ h₂ hg₂ => ?_
      have hmax₂ := hg₂.maxLen.trans_lt hmax₁
      simp only [h₂] at h
      refine (insertExtended_adds value.length (offset + 1 + (encodeExtendedOption code).1) hmax₂
        hg₂.fits).parts hg₂.fits (fun hn => by simpa [hn] using h.symm) fun c₃ h₃ hg₃ => ?_
      simp only [h₃] at h
      split_ifs at h with hzero
      · refine (insert_adds value (offset + 1 + (encodeExtendedOption code).1 +
          (encodeExtendedOption value.length).1) (hg₃.maxLen.trans_lt hmax₂)).parts (n := 0)
          hg₃.fits (fun hn => by simpa [hn] using h.symm) fun c₄ h₄ hg₄ => ?_
        simp only [h₄] at h
        cases h
        exact .inl ⟨rfl, rfl, hg₄.fits, rfl, rfl⟩
      · cases h
        rw [not_not.mp hzero]
        exact .inl ⟨rfl, rfl, hg₃.fits, rfl, rfl⟩
    rw [hsize]
    obtain ⟨hr, hg⟩ | ⟨hr, hfull, k, hg⟩ := hrest
    · exact .inl ⟨hsize ▸ hr, hg₁.trans hg⟩
    · rw [hg₁.maxLen, hg₁.offset] at hfull
      exact .inr ⟨hr, by omega, .inr ⟨k, hg₁.trans hg⟩⟩

theorem harmless_iff_of_call (h : coapPacketAppendOption cap cpkt code value = some (r, cpkt')) :
    Harmless cap cpkt code value ↔ (r < 0 → Unchanged cpkt cpkt') := by
  refine ⟨fun hall => hall r cpkt' h, fun hone q c hc => ?_⟩
  cases h.symm.trans hc
  exact hone

theorem append_harmless_iff (hmax : cpkt.maxLen < 2 ^ 16) (hfits : cpkt.offset ≤ cpkt.maxLen)
    (hge : ¬ code < cpkt.delta) :
    Harmless cap cpkt code value ↔ cpkt.offset + optionSize (appendedDelta cpkt code) value ≤
      cpkt.maxLen ∨ cpkt.offset = cpkt.maxLen := by
  rcases hw : encodeOption cpkt (appendedDelta cpkt code) value (cpkt.hdrLen + cpkt.optLen) with
    ⟨r, c⟩
  have hcall := coapPacketAppendOption.eq_1 cap cpkt code value
  simp only [if_neg hge, ← appendedDelta.eq_1, hw] at hcall
  obtain ⟨hr, hg⟩ | ⟨hr, hfull, hpart⟩ := encodeOption_adds hmax hfits hw
  · rw [if_neg (by omega)] at hcall
    exact iff_of_true ((harmless_iff_of_call hcall).mpr fun h => absurd h (by decide))
      (.inl (hg.offset ▸ hg.maxLen ▸ hg.fits))
  rw [if_pos hr] at hcall
  rw [harmless_iff_of_call hcall]
  obtain ⟨rfl, heq⟩ | ⟨n, hg⟩ := hpart
  · exact iff_of_true (fun _ => ⟨rfl, rfl, rfl, rfl⟩) (.inr heq)
  · obtain ⟨hoff, hend, hmax', -⟩ := hg
    refine iff_of_false (fun h => ?_) (by omega)
    have := (h (by decide)).2.1
    omega

theorem insertLoop_found {data : Mem} {optEnd fuel : ℕ} {w : Walk}
    {found : Walk × ℕ × ℕ} (hlast : lastOffset ≤ w.pos) (hend : w.pos ≤ optEnd)
    (h : insertLoop cap data optEnd code fuel w lastOpt lastOffset = some (some found)) :
    found.2.2 ≤ found.1.pos ∧ found.1.pos ≤ optEnd := by
  induction fuel generalizing w lastOpt lastOffset with
  | zero => cases h
  | succ fuel ih =>
    rw [insertLoop] at h
    split_ifs at h with hlt
    · split at h
      · cases h
      · rename_i w' hparse
        obtain ⟨hadv, hle⟩ := parseOption_pos hparse
        have hle' := hle.trans (Nat.mod_le optEnd (2 ^ 16))
        split_ifs at h
        · cases h
          exact ⟨hlast.trans hadv.le, hle'⟩
        · exact ih le_rfl hle' h
    · cases h
      exact ⟨hlast, hend⟩

/-- **A call in the middle that fails changes the packet**, unless that was full. -/
theorem insertBoth_fails {next : Opt} {pos : ℕ} (hmax : cpkt.maxLen < 2 ^ 16)
    (hfits : cpkt.offset ≤ cpkt.maxLen) (hpos : pos ≤ cpkt.offset) (hlen : cpkt.optLen < 2 ^ 16)
    (hle : lastOffset ≤ pos)
    (h : insertBoth (removeOptionData cpkt lastOffset pos) code value next lastOpt lastOffset =
      (r, cpkt')) :
    (r = 0 ∧ cpkt.offset + optionSize (u16Sub code lastOpt) value +
      optionSize (u16Sub next.1 code) next.2 ≤ cpkt.maxLen + (pos - lastOffset)) ∨
    (r < 0 ∧ cpkt.maxLen + (pos - lastOffset) < cpkt.offset +
      optionSize (u16Sub code lastOpt) value + optionSize (u16Sub next.1 code) next.2 ∧
      (cpkt.offset < cpkt.maxLen → ¬ Unchanged cpkt cpkt')) := by
  have hcut : u16Sub pos lastOffset = pos - lastOffset := u16Sub_of_le hle (by omega)
  have hoff₀ : (removeOptionData cpkt lastOffset pos).offset = cpkt.offset - (pos - lastOffset) := by
    rw [removeOptionData, hcut, u16Sub_of_le (by omega) (by omega)]
  have hopt₀ : (removeOptionData cpkt lastOffset pos).optLen =
      u16Sub cpkt.optLen (pos - lastOffset) := by
    rw [removeOptionData, hcut]
  have hmax₀ : (removeOptionData cpkt lastOffset pos).maxLen = cpkt.maxLen := rfl
  generalize removeOptionData cpkt lastOffset pos = c₀ at *
  rw [u16Sub] at hopt₀
  rcases hw : encodeOption c₀ (u16Sub code lastOpt) value lastOffset with ⟨r₁, c₁⟩
  simp only [insertBoth, hw] at h
  obtain ⟨hr, hg⟩ | ⟨hr, hfull, hpart⟩ := encodeOption_adds (hmax₀.trans_lt hmax) (by omega) hw
  · rw [if_neg (by omega)] at h
    obtain ⟨hoff, hend, hmax₁, hopt⟩ := hg
    have hcount : (c₁.optLen + r₁.toNat) % 2 ^ 16 = cpkt.optLen →
        optionSize (u16Sub code lastOpt) value = pos - lastOffset := by omega
    generalize hc : ({ c₁ with optLen := (c₁.optLen + r₁.toNat) % 2 ^ 16 } : CoapPacket) = c at h
    rcases hw' : encodeOption c (u16Sub next.1 code) next.2 (lastOffset + r₁.toNat) with ⟨r₂, c₂⟩
    simp only [hw'] at h
    have hoff' : c.offset = c₁.offset := by rw [← hc]
    have hmax' : c.maxLen = c₁.maxLen := by rw [← hc]
    have hopt' : c.optLen = (c₁.optLen + r₁.toNat) % 2 ^ 16 := by rw [← hc]
    obtain ⟨hr', hg'⟩ | ⟨hr', hfull', hpart'⟩ := encodeOption_adds (by omega) (by omega) hw'
    · rw [if_neg (by omega)] at h
      cases h
      obtain ⟨hoff₂, hend₂, hmax₂, -⟩ := hg'
      exact .inl ⟨rfl, by omega⟩
    · rw [if_pos hr'] at h
      cases h
      refine .inr ⟨by decide, by omega, fun hroom hun => ?_⟩
      obtain ⟨-, ho, hl, -⟩ := hun
      obtain ⟨rfl, heq⟩ | ⟨n, hg₂⟩ := hpart'
      · have := hcount (hopt'.symm.trans hl)
        omega
      · have := hcount (hopt'.symm.trans (hg₂.optLen.symm.trans hl))
        have := hg₂.offset
        omega
  · rw [if_pos hr] at h
    cases h
    refine .inr ⟨by decide, by omega, fun hroom hun => ?_⟩
    obtain ⟨-, ho, hl, -⟩ := hun
    obtain ⟨rfl, heq⟩ | ⟨n, hg⟩ := hpart
    · omega
    · obtain ⟨hoff, -, -, hopt⟩ := hg
      omega

theorem insert_harmless (hmax : cpkt.maxLen < 2 ^ 16) (hfits : cpkt.offset ≤ cpkt.maxLen)
    (hopt : cpkt.hdrLen + cpkt.optLen ≤ cpkt.offset) (hlt : code < cpkt.delta) :
    (AppendSafe cap cpkt code value → Harmless cap cpkt code value) ∧
      (Harmless cap cpkt code value → cpkt.offset < cpkt.maxLen →
        AppendSafe cap cpkt code value) := by
  have hcall := coapPacketAppendOption.eq_1 cap cpkt code value
  rw [if_pos hlt, insertOption] at hcall
  rw [AppendSafe, if_pos hlt]
  rcases hloop : insertLoop cap cpkt.data (cpkt.hdrLen + cpkt.optLen) code (cpkt.optLen + 1)
    ⟨cpkt.hdrLen, 0, 0, (0, [])⟩ 0 cpkt.hdrLen with _ | _ | ⟨w, lastOpt, lastOffset⟩
  · rw [hloop] at hcall
    exact ⟨fun _ _ _ h => (by cases hcall.symm.trans h), fun _ _ _ _ _ h => by cases h⟩
  · rw [hloop] at hcall
    exact ⟨fun _ => (harmless_iff_of_call hcall).mpr fun _ => ⟨rfl, rfl, rfl, rfl⟩,
      fun _ _ _ _ _ h => by cases h⟩
  obtain ⟨hlast, hend⟩ := insertLoop_found (w := ⟨cpkt.hdrLen, 0, 0, (0, [])⟩) le_rfl
    (Nat.le_add_right _ _) hloop
  rcases hboth : insertBoth (removeOptionData cpkt lastOffset w.pos) code value w.option lastOpt
    lastOffset with ⟨r, c⟩
  simp only [hloop, Option.bind_eq_bind, Option.bind_some, Option.pure_def, hboth] at hcall
  rw [harmless_iff_of_call hcall]
  obtain ⟨rfl, hroom⟩ | ⟨hr, hfull, hchanged⟩ := insertBoth_fails hmax hfits
    (hend.trans hopt) (by omega) hlast hboth
  · exact ⟨fun _ h => absurd h (by decide), fun _ _ _ _ _ h => by
      cases h
      exact hroom⟩
  · exact ⟨fun h => absurd (h w lastOpt lastOffset rfl) (not_le.mpr hfull),
      fun h hlt => absurd (h hr) (hchanged hlt)⟩

/-- **When a call that fails is harmless.** The condition is exact unless an option in the middle
finds the buffer full. -/
theorem failed_append_harmless (cap code : ℕ) (value : List UInt8) (cpkt : CoapPacket)
    (hmax : cpkt.maxLen < 2 ^ 16) (hfits : cpkt.offset ≤ cpkt.maxLen)
    (hopt : cpkt.hdrLen + cpkt.optLen ≤ cpkt.offset) :
    (AppendSafe cap cpkt code value → Harmless cap cpkt code value) ∧
      (cpkt.offset < cpkt.maxLen ∨ cpkt.delta ≤ code →
        (Harmless cap cpkt code value ↔ AppendSafe cap cpkt code value)) := by
  by_cases hlt : code < cpkt.delta
  · obtain ⟨hsafe, hexact⟩ := insert_harmless hmax hfits hopt hlt
    exact ⟨hsafe, fun hroom => ⟨fun h => hexact h (hroom.resolve_right (not_le.mpr hlt)), hsafe⟩⟩
  · have hiff : Harmless cap cpkt code value ↔ AppendSafe cap cpkt code value := by
      rw [AppendSafe, if_neg hlt]
      exact append_harmless_iff hmax hfits hlt
    exact ⟨hiff.mpr, fun _ => hiff⟩

end

/-- A call that finds no space at all. -/
theorem failed_append_harmless_full : Harmless 12 ⟨fun _ => 0, 4, 4, 4, 0, 0⟩ 1 [1, 2, 3] :=
  (failed_append_harmless 12 1 [1, 2, 3] ⟨fun _ => 0, 4, 4, 4, 0, 0⟩ (by decide) (by decide)
    (by decide)).1 (.inr rfl)

/-- **A failed call that is not harmless**: the first byte of an option stays in the packet. -/
theorem failed_append_harmful :
    ¬ Harmless 12 ⟨fun _ => 0, 4, 6, 4, 0, 0⟩ 1 [1, 2, 3] ∧
    (coapPacketAppendOption 12 ⟨fun _ => 0, 4, 6, 4, 0, 0⟩ 1 [1, 2, 3]).map
      (fun (r, c) => (r, c.offset, c.optLen)) = some (-EINVAL, 5, 0) := by
  refine ⟨fun h => ?_, by decide⟩
  have hun := h (-EINVAL) _ rfl (by decide)
  exact absurd hun.2.1 (by decide)

end TlZephyr.Coap
