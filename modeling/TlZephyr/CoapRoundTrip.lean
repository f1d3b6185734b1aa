import TlZephyr.Coap

/-!
# CoAP Options Round-Trip

What `coap_packet_append_option` writes, read back by the option format.

A field of two bytes is put at the end of the packet, not where there is room for it. That is the
same place as long as no option follows. `StepOk` says when no such field has to go in the middle.
-/

namespace TlZephyr

open List Option

namespace Coap

open Memory DeltaOptions

/-! ### Writing -/

def CoapPacket.bytes (cpkt : CoapPacket) : List UInt8 := loadBytes cpkt.data 0 cpkt.offset

/-- Bytes were put into a packet, and nothing else changed. -/
structure Spliced (cpkt cpkt' : CoapPacket) (pre bs post : List UInt8) : Prop where
  before : cpkt.bytes = pre ++ post
  after : cpkt'.bytes = pre ++ (bs ++ post)
  fits : cpkt'.offset ≤ cpkt'.maxLen
  maxLen : cpkt'.maxLen = cpkt.maxLen
  hdrLen : cpkt'.hdrLen = cpkt.hdrLen
  optLen : cpkt'.optLen = cpkt.optLen
  delta : cpkt'.delta = cpkt.delta

section writing

variable {cpkt cpkt' cpkt'' : CoapPacket} {pre post as bs : List UInt8} {offset : ℕ}

theorem length_bytes : cpkt.bytes.length = cpkt.offset := length_loadBytes _ _ _

theorem Spliced.refl (h : cpkt.bytes = pre ++ post) (hfits : cpkt.offset ≤ cpkt.maxLen) :
    Spliced cpkt cpkt pre [] post :=
  ⟨h, h, hfits, rfl, rfl, rfl, rfl⟩

theorem Spliced.trans (h : Spliced cpkt cpkt' pre as post)
    (h' : Spliced cpkt' cpkt'' (pre ++ as) bs post) :
    Spliced cpkt cpkt'' pre (as ++ bs) post where
  before := h.before
  after := by
    rw [h'.after]
    simp only [append_assoc]
  fits := h'.fits
  maxLen := h'.maxLen.trans h.maxLen
  hdrLen := h'.hdrLen.trans h.hdrLen
  optLen := h'.optLen.trans h.optLen
  delta := h'.delta.trans h.delta

theorem Spliced.next (h : Spliced cpkt cpkt' pre bs post) : cpkt'.bytes = (pre ++ bs) ++ post := by
  rw [h.after, append_assoc]

theorem Spliced.length (h : Spliced cpkt cpkt' pre bs post) :
    cpkt'.offset = cpkt.offset + bs.length := by
  have hbefore := congrArg List.length h.before
  have hafter := congrArg List.length h.after
  rw [length_bytes, length_append] at hbefore
  rw [length_bytes, length_append, length_append] at hafter
  omega

theorem spliced_of_store (bs : List UInt8) (hbytes : cpkt.bytes = pre ++ post) (hoff : offset = pre.length)
    (hspace : cpkt.offset + bs.length ≤ cpkt.maxLen) (hmax : cpkt.maxLen < 2 ^ 16) :
    Spliced cpkt { cpkt with
      data := storeBytes (moveBytes cpkt.data (offset + bs.length) offset (cpkt.offset - offset))
        offset bs
      offset := (cpkt.offset + bs.length) % 2 ^ 16 } pre bs post where
  before := hbytes
  after := by
    have hlen := congrArg List.length hbytes
    rw [length_bytes, length_append] at hlen
    have hmod : (cpkt.offset + bs.length) % 2 ^ 16 = cpkt.offset + bs.length :=
      Nat.mod_eq_of_lt (by omega)
    simp only [CoapPacket.bytes, hmod]
    rw [loadBytes_insert (by omega), ← CoapPacket.bytes, hbytes, hoff, take_left, drop_left]
  fits := (Nat.mod_le _ _).trans hspace
  maxLen := rfl
  hdrLen := rfl
  optLen := rfl
  delta := rfl

theorem insertU8_spec {x : UInt8} (hbytes : cpkt.bytes = pre ++ post) (hoff : offset = pre.length)
    (hmax : cpkt.maxLen < 2 ^ 16) (h : insertU8 cpkt x offset = some cpkt') :
    Spliced cpkt cpkt' pre [x] post := by
  simp only [insertU8, enoughSpace, decide_eq_true_eq] at h
  split_ifs at h with hspace
  cases h
  exact spliced_of_store [x] hbytes hoff hspace hmax

theorem insert_spec (hbytes : cpkt.bytes = pre ++ post) (hoff : offset = pre.length)
    (hmax : cpkt.maxLen < 2 ^ 16) (h : insert cpkt bs offset = some cpkt') :
    Spliced cpkt cpkt' pre bs post := by
  simp only [insert, enoughSpace, decide_eq_true_eq] at h
  split_ifs at h with hspace
  cases h
  exact spliced_of_store bs hbytes hoff hspace hmax

variable {n : ℕ}

theorem insertBe16_spec (hbytes : cpkt.bytes = pre) (hoff : offset = pre.length)
    (hmax : cpkt.maxLen < 2 ^ 16) (h : insertBe16 cpkt n offset = some cpkt') :
    Spliced cpkt cpkt' pre [UInt8.ofNat (n / 256), UInt8.ofNat n] [] := by
  simp only [insertBe16, enoughSpace, decide_eq_true_eq] at h
  split_ifs at h with hspace
  cases h
  have hlen := congrArg List.length hbytes
  rw [length_bytes, ← hoff] at hlen
  have hsplice := spliced_of_store [UInt8.ofNat (n / 256), UInt8.ofNat n]
    (hbytes.trans (append_nil pre).symm) hoff hspace hmax
  rw [encodeBe16, hlen]
  rw [hlen] at hsplice
  exact hsplice

theorem insertExtended_spec (hbytes : cpkt.bytes = pre ++ post) (hoff : offset = pre.length)
    (hmax : cpkt.maxLen < 2 ^ 16) (hfits : cpkt.offset ≤ cpkt.maxLen) (hend : n < 269 ∨ post = [])
    (h : insertExtended cpkt (encodeExtendedOption n).1 (encodeExtendedOption n).2.2 offset =
      some cpkt') :
    Spliced cpkt cpkt' pre (extension n) post := by
  simp only [encodeExtendedOption] at h
  rw [extension]
  split_ifs at h ⊢ with h13 h269
  · cases h
    exact Spliced.refl hbytes hfits
  · exact insertU8_spec hbytes hoff hmax h
  · rcases hend with hlt | rfl
    · omega
    · exact insertBe16_spec (hbytes.trans (append_nil pre)) hoff hmax h

theorem fst_encodeExtendedOption (n : ℕ) : (encodeExtendedOption n).1 = (extension n).length := by
  rw [encodeExtendedOption, extension]
  split_ifs <;> rfl

theorem optionHeader_eq (delta len : ℕ) :
    optionHeader (encodeExtendedOption delta).2.1 (encodeExtendedOption len).2.1 =
      header delta len := by
  have hnib : ∀ n, (encodeExtendedOption n).2.1 = nibble n := by
    intro n
    rw [encodeExtendedOption, nibble]
    split_ifs <;> rfl
  have hcomb : ∀ d l : Fin 15, optionHeader d l = UInt8.ofNat (d * 16 + l) := by decide
  rw [hnib, hnib, header]
  exact hcomb ⟨nibble delta, nibble_lt delta⟩ ⟨nibble len, nibble_lt len⟩

/-- **An option is written where it should go**, if its fields are short or nothing follows. -/
theorem encodeOption_spec {code : ℕ} {value : List UInt8} {r : ℤ}
    (hbytes : cpkt.bytes = pre ++ post) (hoff : offset = pre.length)
    (hmax : cpkt.maxLen < 2 ^ 16) (hend : (code < 269 ∧ value.length < 269) ∨ post = [])
    (h : encodeOption cpkt code value offset = (r, cpkt')) (hr : ¬ r < 0) :
    r = (DeltaOptions.encodeOption code value).length ∧
      Spliced cpkt cpkt' pre (DeltaOptions.encodeOption code value) post := by
  simp only [encodeOption] at h
  rw [optionHeader_eq] at h
  have hneg : ∀ {c : CoapPacket}, ¬ (-EINVAL, c) = (r, cpkt') := by
    intro c heq
    cases heq
    exact hr (by decide)
  -- each part goes behind the one before it
  rcases h₁ : insertU8 cpkt (header code value.length) offset with _ | c₁
  · rw [h₁] at h
    exact absurd h hneg
  have s₁ := insertU8_spec hbytes hoff hmax h₁
  have hmax₁ := s₁.maxLen.trans_lt hmax
  have hoff₁ : offset + 1 = (pre ++ [header code value.length]).length := by simp [hoff]
  simp only [h₁] at h
  cases h₂ : insertExtended c₁ (encodeExtendedOption code).1 (encodeExtendedOption code).2.2
      (offset + 1) with
  | none =>
    rw [h₂] at h
    exact absurd h hneg
  | some c₂ =>
    have s₂ := s₁.trans (insertExtended_spec s₁.next hoff₁ hmax₁ s₁.fits
      (hend.imp_left And.left) h₂)
    have hmax₂ := s₂.maxLen.trans_lt hmax
    have hoff₂ : offset + 1 + (encodeExtendedOption code).1 =
        (pre ++ ([header code value.length] ++ extension code)).length := by
      simp [hoff, fst_encodeExtendedOption]
      omega
    simp only [h₂] at h
    cases h₃ : insertExtended c₂ (encodeExtendedOption value.length).1
        (encodeExtendedOption value.length).2.2
        (offset + 1 + (encodeExtendedOption code).1) with
    | none =>
      rw [h₃] at h
      exact absurd h hneg
    | some c₃ =>
      have s₃ := s₂.trans (insertExtended_spec s₂.next hoff₂ hmax₂ s₂.fits
        (hend.imp_left And.right) h₃)
      have hmax₃ := s₃.maxLen.trans_lt hmax
      have hlen : ((1 + (encodeExtendedOption code).1 +
          (encodeExtendedOption value.length).1 + value.length : ℕ) : ℤ) =
          (DeltaOptions.encodeOption code value).length := by
        simp only [fst_encodeExtendedOption, DeltaOptions.encodeOption, length_cons, length_append]
        omega
      simp only [h₃] at h
      split_ifs at h with hzero
      · cases h₄ : insert c₃ value (offset + 1 + (encodeExtendedOption code).1 +
            (encodeExtendedOption value.length).1) with
        | none =>
          rw [h₄] at h
          exact absurd h hneg
        | some c₄ =>
          rw [h₄] at h
          cases h
          refine ⟨hlen, ?_⟩
          have s₄ := s₃.trans (insert_spec s₃.next (by
            simp [hoff, fst_encodeExtendedOption]
            omega) hmax₃ h₄)
          simpa [DeltaOptions.encodeOption] using s₄
      · cases h
        refine ⟨hlen, ?_⟩
        have hnil : value = [] := length_eq_zero_iff.mp (not_not.mp hzero)
        simpa [DeltaOptions.encodeOption, hnil] using s₃

end writing

/-! ### Reading -/

def At (data : Mem) (pos maxLen : ℕ) (bs : List UInt8) : Prop :=
  loadBytes data pos bs.length = bs ∧ pos + bs.length ≤ maxLen

section reading

variable {data : Mem} {pos maxLen : ℕ} {as bs rest : List UInt8}

theorem at_append : At data pos maxLen (as ++ bs) ↔
    At data pos maxLen as ∧ At data (pos + as.length) maxLen bs := by
  rw [At, At, At, length_append, loadBytes_add]
  constructor
  · rintro ⟨heq, hle⟩
    obtain ⟨ha, hb⟩ := append_inj heq (length_loadBytes _ _ _)
    exact ⟨⟨ha, by omega⟩, hb, by omega⟩
  · rintro ⟨⟨ha, -⟩, hb, hle⟩
    rw [ha, hb]
    exact ⟨rfl, by omega⟩

variable {b : UInt8}

theorem at_cons : At data pos maxLen (b :: bs) ↔
    (data pos = b ∧ pos + 1 ≤ maxLen) ∧ At data (pos + 1) maxLen bs := by
  rw [← singleton_append, at_append]
  simp [At, loadBytes]

theorem readU8_of_at (h : At data pos maxLen (b :: bs)) :
    readU8 data pos maxLen = some ⟨b, pos + 1, maxLen - (pos + 1)⟩ := by
  obtain ⟨⟨hb, hle⟩, -⟩ := at_cons.mp h
  rw [readU8, if_neg (by omega), hb]

theorem readBe16_of_at {c : UInt8} (h : At data pos maxLen (b :: c :: bs)) :
    readBe16 data pos maxLen = some ⟨b.toNat * 256 + c.toNat, pos + 2, maxLen - (pos + 2)⟩ := by
  obtain ⟨⟨hb, -⟩, h⟩ := at_cons.mp h
  obtain ⟨⟨hc, hle⟩, -⟩ := at_cons.mp h
  rw [readBe16, if_neg (by omega), hb, hc]

theorem read_of_at (h : At data pos maxLen bs) :
    read data pos maxLen bs.length = some ⟨bs, pos + bs.length, maxLen - (pos + bs.length)⟩ := by
  rw [read, if_neg (by have := h.2; omega), h.1]

theorem parseField_spec {n : ℕ} (optLen : ℕ) (more : Bool) (hn : n < 2 ^ 16)
    (h : At data pos maxLen (extension n)) (hlen : optLen + (extension n).length < 2 ^ 16)
    (hmore : more = true → pos + (extension n).length < maxLen) :
    parseField data maxLen pos (maxLen - pos) optLen (nibble n) more =
      some ⟨(n, optLen + (extension n).length), pos + (extension n).length,
        maxLen - (pos + (extension n).length)⟩ := by
  by_cases h13 : n < 13
  · have hext : extension n = [] := if_pos h13
    have hnib : nibble n = n := if_pos h13
    rw [hext, hnib, parseField, if_neg (by omega)]
    rfl
  by_cases h269 : n < 269
  · have hext : extension n = [UInt8.ofNat (n - 13)] := by simp [extension, h13, h269]
    have hnib : nibble n = 13 := by simp [nibble, h13, h269]
    have hb : (UInt8.ofNat (n - 13)).toNat + 13 = n := by
      rw [UInt8.toNat_ofNat']
      omega
    rw [hext] at h hlen hmore ⊢
    rw [length_singleton] at hlen hmore
    have hnot : ¬ (maxLen - (pos + 1) = 0 ∧ more = true) := by
      rintro ⟨hzero, htrue⟩
      have := hmore htrue
      omega
    have hdec : decodeDelta data pos maxLen 13 = some ⟨(n, 1), pos + 1, maxLen - (pos + 1)⟩ := by
      rw [decodeDelta, if_pos rfl, readU8_of_at h]
      simp only [bind_eq_bind, bind_some, Option.pure_def, hb]
    have hadd : u16Add optLen 1 = some (optLen + 1) := if_pos hlen
    simp [hnib, parseField, hdec, hadd, hnot]
  have hext : extension n = [UInt8.ofNat ((n - 269) / 256), UInt8.ofNat (n - 269)] := by
    simp [extension, h13, h269]
  have hnib : nibble n = 14 := by simp [nibble, h13, h269]
  have hb : ((UInt8.ofNat ((n - 269) / 256)).toNat * 256 + (UInt8.ofNat (n - 269)).toNat +
      269) % 2 ^ 16 = n := by
    rw [UInt8.toNat_ofNat', UInt8.toNat_ofNat']
    omega
  rw [hext] at h hlen hmore ⊢
  have hread := readBe16_of_at h
  simp only [length_cons, length_nil, Nat.zero_add, Nat.reduceAdd] at hlen hmore
  have hnot : ¬ (maxLen - (pos + 2) = 0 ∧ more = true) := by
    rintro ⟨hzero, htrue⟩
    have := hmore htrue
    omega
  have hdec : decodeDelta data pos maxLen 14 = some ⟨(n, 2), pos + 2, maxLen - (pos + 2)⟩ := by
    rw [decodeDelta, if_neg (by decide), if_pos rfl, hread]
    simp only [bind_eq_bind, bind_some, Option.pure_def, hb]
  have hadd : u16Add optLen 2 = some (optLen + 2) := if_pos hlen
  simp [hnib, parseField, hdec, hadd, hnot]

variable {cap : ℕ} {w : Walk}

/-- **An option is read where it was written.** -/
theorem parseOption_spec {delta : ℕ} {value : List UInt8}
    (hat : At data w.pos maxLen (DeltaOptions.encodeOption delta value))
    (hdelta : w.optDelta + delta < 2 ^ 16)
    (hlen : w.optLen + (DeltaOptions.encodeOption delta value).length < 2 ^ 16)
    (hcap : value.length ≤ cap) :
    parseOption cap data maxLen w =
      some ⟨w.pos + (DeltaOptions.encodeOption delta value).length, w.optDelta + delta,
        w.optLen + (DeltaOptions.encodeOption delta value).length,
        (w.optDelta + delta, value)⟩ := by
  have hl := nibble_lt value.length
  have hd := nibble_lt delta
  have hheader := toNat_header delta value.length
  rw [DeltaOptions.encodeOption] at hat hlen ⊢
  simp only [length_cons, length_append] at hlen ⊢
  have hread := readU8_of_at hat
  obtain ⟨⟨-, hpos⟩, hat⟩ := at_cons.mp hat
  obtain ⟨hatd, hat⟩ := at_append.mp hat
  obtain ⟨hatl, hatv⟩ := at_append.mp hat
  have hmark : header delta value.length ≠ 0xFF := by
    intro heq
    rw [heq] at hheader
    simp at hheader
    omega
  have hmodlen : (w.optLen + 1) % 2 ^ 16 = w.optLen + 1 := Nat.mod_eq_of_lt (by omega)
  have hnd : (header delta value.length).toNat / 16 = nibble delta := by omega
  have hnl : (header delta value.length).toNat % 16 = nibble value.length := by omega
  -- what the two fields announce is there
  have hext : ∀ {n}, nibble n > 12 → 0 < (extension n).length := by
    intro n hn
    rw [nibble] at hn
    rw [extension]
    split_ifs at hn ⊢ with h13 h269
    · omega
    · simp
    · simp
  have hendl := hatl.2
  have hendv := hatv.2
  have hdleft : ¬ (maxLen - (w.pos + 1) = 0 ∧ nibble delta > 12) := by
    rintro ⟨hzero, hbig⟩
    have := hext hbig
    omega
  have hfd := parseField_spec (w.optLen + 1) (decide (nibble value.length > 12)) (by omega) hatd
    (by omega) (fun hmore => by
      have := hext (of_decide_eq_true hmore)
      omega)
  have hfl := parseField_spec (w.optLen + 1 + (extension delta).length) false (by omega) hatl
    (by omega) (fun hmore => by cases hmore)
  have hvleft : ¬ (maxLen - (w.pos + 1 + (extension delta).length +
      (extension value.length).length) = 0 ∧ value.length ≠ 0) := by omega
  have haddd : u16Add w.optDelta delta = some (w.optDelta + delta) := if_pos hdelta
  have haddl : u16Add (w.optLen + 1 + (extension delta).length + (extension value.length).length)
      value.length = some (w.optLen + 1 + (extension delta).length +
        (extension value.length).length + value.length) := if_pos (by omega)
  rw [parseOption, hread]
  simp only [bind_eq_bind, bind_some, Option.pure_def, hmark, if_false, hmodlen, hnd,
    hnl, hdleft, hfd, hfl, haddd, haddl, hvleft, read_of_at hatv, if_neg (not_lt.mpr hcap),
    Option.some.injEq, Walk.mk.injEq, and_true, true_and]
  omega

/-- **The walk stops at the first option with a larger number.** -/
theorem insertLoop_spec {code optEnd fuel : ℕ} {before after : List Opt} {next : Opt}
    (hbefore : ∀ o ∈ before, o.1 ≤ code) (hnext : code < next.1)
    (hat : At data w.pos optEnd (encode w.optDelta (before ++ next :: after)))
    (henc : Encodable w.optDelta (before ++ next :: after))
    (hcap : ∀ o ∈ before ++ next :: after, o.2.length ≤ cap)
    (hlen : w.optLen + (encode w.optDelta (before ++ next :: after)).length < 2 ^ 16)
    (hend : optEnd < 2 ^ 16) (hfuel : before.length < fuel) :
    ∃ optLen, insertLoop cap data optEnd code fuel w w.optDelta w.pos =
      some (some (⟨w.pos + (encode w.optDelta (before ++ [next])).length, next.1, optLen, next⟩,
        lastNum w.optDelta before, w.pos + (encode w.optDelta before).length)) := by
  induction before generalizing w fuel with
  | nil =>
    rcases fuel with _ | fuel
    · simp at hfuel
    obtain ⟨hprev, hnum, -⟩ := henc.2 next (by simp)
    rw [nil_append, encode] at hat hlen
    have hpos := length_pos_iff.mpr (encodeOption_ne_nil (next.1 - w.optDelta) next.2)
    obtain ⟨hat, -⟩ := at_append.mp hat
    rw [length_append] at hlen
    have hparse := parseOption_spec hat (by omega) (by omega) (hcap next (by simp))
    rw [Nat.add_sub_cancel' hprev] at hparse
    have hmod : optEnd % 2 ^ 16 = optEnd := Nat.mod_eq_of_lt hend
    have hlt : w.pos < optEnd := by
      have := hat.2
      omega
    refine ⟨w.optLen + (DeltaOptions.encodeOption (next.1 - w.optDelta) next.2).length, ?_⟩
    rw [insertLoop, if_pos hlt, hmod, hparse]
    simp only [gt_iff_lt, hnext, if_true]
    simp [encode]
  | cons o before ih =>
    rcases fuel with _ | fuel
    · simp at hfuel
    obtain ⟨hprev, hnum, -⟩ := henc.2 o (by simp)
    have hpos := length_pos_iff.mpr (encodeOption_ne_nil (o.1 - w.optDelta) o.2)
    rw [cons_append, encode] at hat hlen
    obtain ⟨hato, hat⟩ := at_append.mp hat
    rw [length_append] at hlen
    have hparse := parseOption_spec hato (by omega) (by omega) (hcap o (by simp))
    rw [Nat.add_sub_cancel' hprev] at hparse
    have hmod : optEnd % 2 ^ 16 = optEnd := Nat.mod_eq_of_lt hend
    have hlt : w.pos < optEnd := by
      have := hato.2
      omega
    have hfuel' : before.length < fuel := by simpa using hfuel
    obtain ⟨optLen, hrest⟩ := ih (w := ⟨w.pos + (DeltaOptions.encodeOption (o.1 - w.optDelta)
        o.2).length, o.1, w.optLen + (DeltaOptions.encodeOption (o.1 - w.optDelta) o.2).length,
        o⟩) (fun q hq => hbefore q (mem_cons_of_mem _ hq)) hat henc.tail
        (fun q hq => hcap q (mem_cons_of_mem _ hq)) (by simpa [Nat.add_assoc] using hlen)
        hfuel'
    refine ⟨optLen, ?_⟩
    rw [insertLoop, if_pos hlt, hmod, hparse]
    simp only [gt_iff_lt, not_lt.mpr (hbefore o mem_cons_self), if_false]
    rw [hrest]
    simp [encode, Nat.add_assoc]

end reading

/-! ### Options in order -/

/-- Options with one more, behind those with the same number. -/
def stableInsert (o : Opt) (opts : List Opt) : List Opt :=
  opts.takeWhile (fun q => decide (q.1 ≤ o.1)) ++ o :: opts.dropWhile (fun q => decide (q.1 ≤ o.1))

structure Holds (cap : ℕ) (hdr : List UInt8) (cpkt : CoapPacket) (opts : List Opt) : Prop where
  bytes : cpkt.bytes = hdr ++ encode 0 opts
  hdrLen : cpkt.hdrLen = hdr.length
  optLen : cpkt.optLen = (encode 0 opts).length
  delta : cpkt.delta = lastNum 0 opts
  maxLen : cpkt.maxLen < 2 ^ 16
  fits : cpkt.offset ≤ cpkt.maxLen
  encodable : Encodable 0 opts
  cap : ∀ o ∈ opts, o.2.length ≤ cap

section adding

variable {cap code : ℕ} {hdr value : List UInt8} {cpkt cpkt' : CoapPacket} {opts : List Opt}

theorem Holds.offset (h : Holds cap hdr cpkt opts) :
    cpkt.offset = hdr.length + (encode 0 opts).length := by
  rw [← length_bytes, h.bytes, length_append]

theorem lastNum_append (prev : ℕ) (opts opts' : List Opt) :
    lastNum prev (opts ++ opts') = lastNum (lastNum prev opts) opts' := by
  induction opts generalizing prev with
  | nil => rfl
  | cons o opts ih => rw [cons_append, lastNum_cons, lastNum_cons, ih]

/-- **An option with the largest number is appended.** -/
theorem Holds.append (h : Holds cap hdr cpkt opts) (hcode : code < 2 ^ 16)
    (hcap : value.length ≤ cap) (henc : Encodable 0 (opts ++ [(code, value)])) (hge : ¬ code < cpkt.delta)
    (hcall : coapPacketAppendOption cap cpkt code value = some (0, cpkt')) :
    Holds cap hdr cpkt' (opts ++ [(code, value)]) := by
  have hcode' : (if cpkt.optLen ≠ 0 then (if code = cpkt.delta then 0 else code - cpkt.delta)
      else code) = code - lastNum 0 opts := by
    rw [← h.delta]
    split_ifs with hopt heq
    · omega
    · rfl
    have hzero : opts = [] := by
      have hlen := length_le_length_encode 0 opts
      rw [← h.optLen, not_not.mp hopt] at hlen
      exact length_eq_zero_iff.mp (Nat.le_zero.mp hlen)
    rw [h.delta, hzero]
    rfl
  rw [coapPacketAppendOption, if_neg hge] at hcall
  simp only [hcode'] at hcall
  rcases hwrite : encodeOption cpkt (code - lastNum 0 opts) value (cpkt.hdrLen + cpkt.optLen) with
    ⟨r, c⟩
  rw [hwrite] at hcall
  dsimp only at hcall
  split_ifs at hcall with hr
  · cases hcall
  cases hcall
  have hoff : cpkt.hdrLen + cpkt.optLen = (hdr ++ encode 0 opts).length := by
    rw [h.hdrLen, h.optLen, length_append]
  obtain ⟨hlen, hs⟩ := encodeOption_spec (h.bytes.trans (append_nil _).symm) hoff h.maxLen
    (.inr rfl) hwrite hr
  have henc' : encode 0 (opts ++ [(code, value)]) =
      encode 0 opts ++ DeltaOptions.encodeOption (code - lastNum 0 opts) value := by
    rw [encode_append, encode, encode, append_nil]
  have hoffset := hs.length
  have hfits := hs.fits
  have hmax := h.maxLen
  have hstart := h.offset
  have hsmax := hs.maxLen
  refine ⟨?_, hs.hdrLen.trans h.hdrLen, ?_, ?_, hs.maxLen.trans_lt h.maxLen, hs.fits, henc, ?_⟩
  · rw [henc']
    have := hs.after
    rwa [append_nil, append_assoc] at this
  · simp only [hs.optLen, h.optLen, henc', length_append, hlen, Int.toNat_natCast]
    exact Nat.mod_eq_of_lt (by omega)
  · have hle : lastNum 0 opts ≤ code := by
      rw [← h.delta]
      exact not_lt.mp hge
    simp only [hs.delta, h.delta, lastNum_append, lastNum_cons, lastNum_nil,
      Nat.add_sub_cancel' hle]
    exact Nat.mod_eq_of_lt hcode
  intro o ho
  rcases mem_append.mp ho with ho | ho
  · exact h.cap o ho
  · rw [mem_singleton.mp ho]
    exact hcap

variable {after before : List Opt} {next : Opt}

variable {lastOffset : ℕ}

theorem removeOptionData_spec
    (h : Holds cap hdr cpkt (before ++ next :: after)) {pos : ℕ}
    (hpos : pos = hdr.length + (encode 0 (before ++ [next])).length)
    (hlast : lastOffset = hdr.length + (encode 0 before).length) :
    (removeOptionData cpkt lastOffset pos).bytes = (hdr ++ encode 0 before) ++ encode next.1 after ∧
      (removeOptionData cpkt lastOffset pos).optLen =
        (encode 0 before).length + (encode next.1 after).length := by
  have hone : encode 0 (before ++ [next]) =
      encode 0 before ++ DeltaOptions.encodeOption (next.1 - lastNum 0 before) next.2 := by
    rw [encode_append, encode, encode, append_nil]
  have hall : encode 0 (before ++ next :: after) =
      encode 0 (before ++ [next]) ++ encode next.1 after := by
    rw [append_cons, encode_append, lastNum_append, lastNum_cons, lastNum_nil]
  have hoffset := h.offset
  have hmax := h.maxLen
  have hfits := h.fits
  have hopt := h.optLen
  rw [hall, length_append] at hoffset hopt
  have hlen := congrArg List.length hone
  rw [length_append] at hlen
  have hle : lastOffset ≤ pos := by omega
  have hsize : u16Sub pos lastOffset = pos - lastOffset := by
    rw [u16Sub]
    omega
  have hsub : u16Sub cpkt.offset (pos - lastOffset) = cpkt.offset - (pos - lastOffset) := by
    rw [u16Sub]
    omega
  simp only [removeOptionData, hsize]
  constructor
  · rw [CoapPacket.bytes, hsub]
    dsimp only
    rw [loadBytes_remove hle (by omega), ← CoapPacket.bytes, h.bytes, hall]
    congr 1
    · rw [hone, hlast, ← length_append]
      simp only [← append_assoc]
      rw [append_assoc, take_left]
    · rw [hpos, ← length_append, ← append_assoc, drop_left]
  · rw [u16Sub]
    omega

/-- The new option and the one behind it can be written if nothing follows or all fields are
short. -/
def Short (before : List Opt) (o next : Opt) (after : List Opt) : Prop :=
  (o.1 - lastNum 0 before < 269 ∧ o.2.length < 269 ∧ next.1 - o.1 < 269 ∧ next.2.length < 269) ∨
    after = []

theorem u16Sub_of_le {a b : ℕ} (hb : b ≤ a) (ha : a < 2 ^ 16) : u16Sub a b = a - b := by
  rw [u16Sub]
  omega

theorem lastNum_le (h : ∀ o ∈ before, o.1 ≤ code) : lastNum 0 before ≤ code := by
  rcases eq_nil_or_concat before with rfl | ⟨front, o, rfl⟩
  · exact Nat.zero_le _
  · rw [concat_eq_append, lastNum_append, lastNum_cons, lastNum_nil]
    exact h o (by simp)

theorem insertBoth_spec (hbytes : cpkt.bytes = (hdr ++ encode 0 before) ++ encode next.1 after)
    (hmax : cpkt.maxLen < 2 ^ 16)
    (hoptLen : cpkt.optLen = (encode 0 before).length + (encode next.1 after).length)
    (hlast : lastOffset = hdr.length + (encode 0 before).length)
    (hbefore : ∀ o ∈ before, o.1 ≤ code) (hnext : code < next.1) (hnum : next.1 < 2 ^ 16)
    (hshort : Short before (code, value) next after)
    (hcall : insertBoth cpkt code value next (lastNum 0 before) lastOffset = (0, cpkt')) :
    cpkt'.bytes = hdr ++ encode 0 (before ++ (code, value) :: next :: after) ∧
      cpkt'.optLen = (encode 0 (before ++ (code, value) :: next :: after)).length ∧
      cpkt'.offset ≤ cpkt'.maxLen ∧ cpkt'.maxLen = cpkt.maxLen ∧ cpkt'.hdrLen = cpkt.hdrLen ∧
      cpkt'.delta = cpkt.delta := by
  have hlastNum := lastNum_le hbefore
  have henc : encode 0 (before ++ (code, value) :: next :: after) =
      encode 0 before ++ (DeltaOptions.encodeOption (code - lastNum 0 before) value ++
        (DeltaOptions.encodeOption (next.1 - code) next.2 ++ encode next.1 after)) := by
    rw [encode_append, encode, encode]
  have hend : (code - lastNum 0 before < 269 ∧ value.length < 269) ∨ encode next.1 after = [] := by
    rcases hshort with hfields | rfl
    · exact .inl ⟨hfields.1, hfields.2.1⟩
    · exact .inr rfl
  have hend' : (next.1 - code < 269 ∧ next.2.length < 269) ∨ encode next.1 after = [] := by
    rcases hshort with hfields | rfl
    · exact .inl hfields.2.2
    · exact .inr rfl
  rw [insertBoth, u16Sub_of_le hlastNum (by omega), u16Sub_of_le hnext.le hnum] at hcall
  rcases hwrite : encodeOption cpkt (code - lastNum 0 before) value lastOffset with ⟨r, c⟩
  rw [hwrite] at hcall
  dsimp only at hcall
  by_cases hr : r < 0
  · rw [if_pos hr] at hcall
    cases hcall
  rw [if_neg hr] at hcall
  obtain ⟨hlen, hs⟩ := encodeOption_spec hbytes (by rw [hlast, length_append]) hmax hend hwrite hr
  rcases hwrite' : encodeOption { c with optLen := (c.optLen + r.toNat) % 2 ^ 16 }
    (next.1 - code) next.2 (lastOffset + r.toNat) with ⟨r', c'⟩
  rw [hwrite'] at hcall
  dsimp only at hcall
  by_cases hr' : r' < 0
  · rw [if_pos hr'] at hcall
    cases hcall
  rw [if_neg hr'] at hcall
  have hbytes₁ : CoapPacket.bytes { c with optLen := (c.optLen + r.toNat) % 2 ^ 16 } =
      ((hdr ++ encode 0 before) ++
        DeltaOptions.encodeOption (code - lastNum 0 before) value) ++ encode next.1 after :=
    hs.next
  obtain ⟨hlen', hs'⟩ := encodeOption_spec hbytes₁ (by
    rw [hlast, hlen]
    simp only [length_append, Int.toNat_natCast]) (hs.maxLen.trans_lt hmax) hend' hwrite'
    hr'
  cases hcall
  have hfits := hs'.fits
  have hmax' := hs'.maxLen
  have hoffset := hs'.length
  have hoffset₁ := hs.length
  have hstart := congrArg List.length hbytes
  rw [length_bytes] at hstart
  simp only [length_append] at hstart
  refine ⟨?_, ?_, hs'.fits, hs'.maxLen.trans hs.maxLen, hs'.hdrLen.trans hs.hdrLen,
    hs'.delta.trans hs.delta⟩
  · rw [henc]
    have hafter := hs'.after
    simp only [append_assoc] at hafter
    exact hafter
  have hopt := hs'.optLen
  have hmaxc := hs.maxLen
  simp only [hs.optLen, hoptLen, hlen, Int.toNat_natCast] at hopt
  simp only [henc, length_append, hlen', Int.toNat_natCast, hopt]
  dsimp only at hoffset hmax'
  omega

/-- **Any other option is put in the middle.** -/
theorem Holds.insert
    (h : Holds cap hdr cpkt (before ++ next :: after)) (hbefore : ∀ o ∈ before, o.1 ≤ code)
    (hnext : code < next.1) (hcap : value.length ≤ cap)
    (henc : Encodable 0 (before ++ (code, value) :: next :: after))
    (hshort : Short before (code, value) next after)
    (hcall : insertOption cap cpkt code value = some (0, cpkt')) :
    Holds cap hdr cpkt' (before ++ (code, value) :: next :: after) := by
  have hoffset := h.offset
  have hmax := h.maxLen
  have hfits := h.fits
  have hat : At cpkt.data cpkt.hdrLen (cpkt.hdrLen + cpkt.optLen)
      (encode 0 (before ++ next :: after)) := by
    refine ⟨?_, by rw [h.optLen]⟩
    have hbytes := h.bytes
    rw [CoapPacket.bytes, hoffset, loadBytes_add, Nat.zero_add] at hbytes
    rw [h.hdrLen]
    exact (append_inj hbytes (length_loadBytes _ _ _)).2
  have hfuel : before.length < cpkt.optLen + 1 := by
    have hle := length_le_length_encode 0 (before ++ next :: after)
    rw [length_append, length_cons, ← h.optLen] at hle
    omega
  obtain ⟨optLen, hloop⟩ := insertLoop_spec (w := ⟨cpkt.hdrLen, 0, 0, (0, [])⟩) hbefore hnext hat
    h.encodable h.cap (by dsimp only; omega) (by rw [h.hdrLen, h.optLen]; omega) hfuel
  dsimp only at hloop
  rw [insertOption, hloop] at hcall
  simp only [bind_eq_bind, bind_some, Option.pure_def, Option.some.injEq] at hcall
  obtain ⟨hbytes, hoptLen⟩ := removeOptionData_spec h (congrArg (· + _) h.hdrLen)
    (congrArg (· + _) h.hdrLen)
  obtain ⟨hbytes', hoptLen', hfits', hmax', hhdr', hdelta'⟩ := insertBoth_spec hbytes hmax hoptLen
    (congrArg (· + _) h.hdrLen) hbefore hnext (h.encodable.2 next (by simp)).2.1 hshort hcall
  refine ⟨hbytes', hhdr'.trans h.hdrLen, hoptLen', ?_, hmax'.trans_lt hmax, hfits', henc, ?_⟩
  · refine hdelta'.trans (h.delta.trans ?_)
    simp only [lastNum_append, lastNum_cons]
  intro o ho
  rcases mem_append.mp ho with ho | ho
  · exact h.cap o (mem_append_left _ ho)
  · rcases mem_cons.mp ho with rfl | ho
    · exact hcap
    · exact h.cap o (mem_append_right _ ho)

end adding

/-! ### The walk ends -/

section progress

variable {cap maxLen : ℕ} {data : Mem}

variable {pos : ℕ} {r : Read (ℕ × ℕ)} {w : Walk}

theorem decodeDelta_pos_le {opt : ℕ}
    (h : decodeDelta data pos maxLen opt = some r) : pos ≤ r.pos := by
  rw [decodeDelta] at h
  split_ifs at h
  · simp only [readU8, bind_eq_bind, bind_eq_some_iff, Option.pure_def] at h
    obtain ⟨q, hq, h⟩ := h
    split_ifs at hq
    cases hq
    cases h
    exact Nat.le_succ _
  simp only [readBe16, bind_eq_bind, bind_eq_some_iff, Option.pure_def] at h
  obtain ⟨q, hq, h⟩ := h
  split_ifs at hq
  cases hq
  cases h
  exact Nat.le_add_right _ _

theorem parseField_pos_le {left optLen nib : ℕ} {more : Bool}
    (h : parseField data maxLen pos left optLen nib more = some r) : pos ≤ r.pos := by
  rw [parseField] at h
  split_ifs at h
  · simp only [bind_eq_bind, bind_eq_some_iff, Option.pure_def] at h
    obtain ⟨q, hq, h⟩ := h
    simp only [bind_none, ite_none_left_eq_some, bind_eq_some_iff] at h
    obtain ⟨-, l, -, h⟩ := h
    cases h
    have hle := decodeDelta_pos_le hq
    exact hle
  · cases h
    exact le_rfl

theorem parseOption_pos {w' : Walk} (h : parseOption cap data maxLen w = some w') :
    w.pos < w'.pos ∧ w'.pos ≤ maxLen := by
  simp only [parseOption, readU8, bind_eq_bind, bind_eq_some_iff, Option.pure_def,
    bind_none, ite_none_left_eq_some] at h
  obtain ⟨r, ⟨hspace, hr⟩, h⟩ := h
  cases hr
  by_cases hmark : data w.pos = 0xFF
  · rw [if_pos hmark, ite_none_right_eq_some] at h
    obtain ⟨-, h⟩ := h
    cases h
    exact ⟨Nat.lt_succ_self _, not_lt.mp hspace⟩
  rw [if_neg hmark] at h
  simp only [read, ite_none_left_eq_some, bind_eq_some_iff] at h
  obtain ⟨-, d, hd, l, hl, delta, -, len, -, -, -, v, ⟨hroom, hv⟩, h⟩ := h
  cases hv
  cases h
  have hd := parseField_pos_le hd
  have hl := parseField_pos_le hl
  dsimp only at hd hl ⊢
  omega

theorem insertLoop_isSome {optEnd code : ℕ} (fuel : ℕ) (hfuel : optEnd < fuel + w.pos)
    (hpos : 0 < fuel) (lastOpt lastOffset : ℕ) :
    (insertLoop cap data optEnd code fuel w lastOpt lastOffset).isSome := by
  induction fuel generalizing w lastOpt lastOffset with
  | zero => omega
  | succ fuel ih =>
    rw [insertLoop]
    split_ifs with hlt
    · rcases hparse : parseOption cap data (optEnd % 2 ^ 16) w with _ | w'
      · rfl
      obtain ⟨hadv, hle⟩ := parseOption_pos hparse
      have hmod := Nat.mod_le optEnd (2 ^ 16)
      dsimp only
      split_ifs
      · rfl
      · exact ih (by omega) (by omega) _ _
    · rfl

theorem coapPacketAppendOption_isSome (cpkt : CoapPacket) (code : ℕ) (value : List UInt8) :
    (coapPacketAppendOption cap cpkt code value).isSome := by
  rw [coapPacketAppendOption]
  by_cases hlt : code < cpkt.delta
  · have hloop : (insertLoop cap cpkt.data (cpkt.hdrLen + cpkt.optLen) code (cpkt.optLen + 1)
        ⟨cpkt.hdrLen, 0, 0, (0, [])⟩ 0 cpkt.hdrLen).isSome :=
      insertLoop_isSome _ (by dsimp only; omega) (Nat.succ_pos _) _ _
    obtain ⟨found, hfound⟩ := isSome_iff_exists.mp hloop
    rw [if_pos hlt, insertOption, hfound]
    cases found with
    | none => rfl
    | some f => rfl
  rw [if_neg hlt]
  dsimp only
  generalize encodeOption cpkt _ value _ = written
  obtain ⟨r, c⟩ := written
  dsimp only
  by_cases hr : r < 0
  · rw [if_pos hr]
    rfl
  · rw [if_neg hr]
    rfl

end progress

/-! ### Sequences of calls -/

section sorting

variable {o : Opt} {opts : List Opt}

theorem stableInsert_split (o : Opt) (hsorted : (opts.map Prod.fst).Pairwise (· ≤ ·)) :
    (∀ q ∈ opts.takeWhile (fun q => decide (q.1 ≤ o.1)), q.1 ≤ o.1) ∧
      ∀ q ∈ opts.dropWhile (fun q => decide (q.1 ≤ o.1)), o.1 < q.1 := by
  induction opts with
  | nil => simp
  | cons p opts ih =>
    rw [map_cons, pairwise_cons] at hsorted
    by_cases hp : p.1 ≤ o.1
    · simp only [takeWhile_cons, dropWhile_cons, hp, decide_true, if_true]
      obtain ⟨htake, hdrop⟩ := ih hsorted.2
      refine ⟨fun q hq => ?_, hdrop⟩
      rcases mem_cons.mp hq with rfl | hq
      · exact hp
      · exact htake q hq
    simp only [takeWhile_cons, dropWhile_cons, hp, decide_false]
    refine ⟨by simp, fun q hq => ?_⟩
    rcases mem_cons.mp hq with rfl | hq
    · exact not_le.mp hp
    · exact (not_le.mp hp).trans_le (hsorted.1 _ (List.mem_map_of_mem hq))

theorem mem_stableInsert {q : Opt} : q ∈ stableInsert o opts ↔ q = o ∨ q ∈ opts := by
  rw [stableInsert, mem_append, mem_cons]
  nth_rewrite 3 [← takeWhile_append_dropWhile (p := fun q => decide (q.1 ≤ o.1)) (l := opts)]
  rw [mem_append]
  tauto

theorem sorted_stableInsert (hsorted : (opts.map Prod.fst).Pairwise (· ≤ ·)) :
    ((stableInsert o opts).map Prod.fst).Pairwise (· ≤ ·) := by
  obtain ⟨htake, hdrop⟩ := stableInsert_split o hsorted
  rw [pairwise_map] at hsorted ⊢
  rw [← takeWhile_append_dropWhile (p := fun q => decide (q.1 ≤ o.1)) (l := opts),
    pairwise_append] at hsorted
  rw [stableInsert, pairwise_append, pairwise_cons]
  refine ⟨hsorted.1, ⟨fun q hq => (hdrop q hq).le, hsorted.2.1⟩, fun q hq r hr => ?_⟩
  rcases mem_cons.mp hr with rfl | hr
  · exact htake q hq
  · exact (htake q hq).trans (hdrop r hr).le

theorem filter_stableInsert (hsorted : (opts.map Prod.fst).Pairwise (· ≤ ·)) (c : ℕ) :
    (stableInsert o opts).filter (fun q => q.1 = c) =
      opts.filter (fun q => q.1 = c) ++ [o].filter (fun q => q.1 = c) := by
  obtain ⟨-, hdrop⟩ := stableInsert_split o hsorted
  rw [stableInsert, filter_append, ← singleton_append, filter_append]
  nth_rewrite 3 [← takeWhile_append_dropWhile (p := fun q => decide (q.1 ≤ o.1)) (l := opts)]
  rw [filter_append, append_assoc]
  congr 1
  by_cases hc : o.1 = c
  · have hnil : (opts.dropWhile fun q => decide (q.1 ≤ o.1)).filter (fun q => q.1 = c) = [] := by
      rw [filter_eq_nil_iff]
      intro q hq
      have := hdrop q hq
      simp only [decide_eq_true_eq]
      omega
    rw [hnil, append_nil, nil_append]
  · simp [hc]

end sorting

instance (before : List Opt) (o next : Opt) (after : List Opt) :
    Decidable (Short before o next after) :=
  inferInstanceAs (Decidable (_ ∨ _))

/-- The condition on a call, by the options before and behind the place of the new one. -/
def StepOk (opts : List Opt) (o : Opt) : Prop :=
  ∀ next ∈ (opts.dropWhile fun q => decide (q.1 ≤ o.1)).head?,
    Short (opts.takeWhile fun q => decide (q.1 ≤ o.1)) o next
      (opts.dropWhile fun q => decide (q.1 ≤ o.1)).tail

instance (opts : List Opt) (o : Opt) : Decidable (StepOk opts o) :=
  inferInstanceAs (Decidable (∀ next ∈ _, Short _ _ next _))

def RunOk : List Opt → List Opt → Prop
  | _, [] => True
  | opts, o :: ops => StepOk opts o ∧ RunOk (stableInsert o opts) ops

instance decidableRunOk : (opts ops : List Opt) → Decidable (RunOk opts ops)
  | _, [] => isTrue trivial
  | opts, o :: ops =>
    have := decidableRunOk (stableInsert o opts) ops
    inferInstanceAs (Decidable (_ ∧ _))

section runs

variable {cap : ℕ} {hdr : List UInt8} {cpkt cpkt' : CoapPacket} {opts ops : List Opt} {o : Opt}

theorem encodable_stableInsert (h : Encodable 0 opts) (hnum : o.1 < 2 ^ 16)
    (hlen : o.2.length < 2 ^ 16) : Encodable 0 (stableInsert o opts) := by
  refine ⟨sorted_stableInsert h.1, fun q hq => ?_⟩
  rcases mem_stableInsert.mp hq with rfl | hq
  · exact ⟨Nat.zero_le _, hnum, hlen⟩
  · exact h.2 q hq

theorem le_lastNum (h : (opts.map Prod.fst).Pairwise (· ≤ ·)) {q : Opt} (hq : q ∈ opts) :
    q.1 ≤ lastNum 0 opts := by
  obtain ⟨front, last, rfl⟩ := eq_nil_or_concat opts |>.resolve_left (ne_nil_of_mem hq)
  rw [concat_eq_append] at h hq ⊢
  rw [lastNum_append, lastNum_cons, lastNum_nil]
  rw [map_append, pairwise_append] at h
  rcases mem_append.mp hq with hq | hq
  · exact h.2.2 _ (List.mem_map_of_mem hq) _ (by simp)
  · rw [mem_singleton.mp hq]

theorem Holds.step (h : Holds cap hdr cpkt opts) (hnum : o.1 < 2 ^ 16) (hlen : o.2.length ≤ cap)
    (hcap : cap < 2 ^ 16) (hok : StepOk opts o)
    (hcall : coapPacketAppendOption cap cpkt o.1 o.2 = some (0, cpkt')) :
    Holds cap hdr cpkt' (stableInsert o opts) := by
  have henc : Encodable 0 (stableInsert o opts) :=
    encodable_stableInsert h.encodable hnum (hlen.trans_lt hcap)
  obtain ⟨htake, hdrop⟩ := stableInsert_split o h.encodable.1
  have hsplit := takeWhile_append_dropWhile (p := fun q => decide (q.1 ≤ o.1)) (l := opts)
  rw [Coap.stableInsert] at henc ⊢
  rw [StepOk] at hok
  generalize opts.takeWhile (fun q => decide (q.1 ≤ o.1)) = before at *
  generalize opts.dropWhile (fun q => decide (q.1 ≤ o.1)) = after at *
  subst hsplit
  cases after with
  | nil =>
    rw [append_nil] at h
    refine h.append hnum hlen henc ?_ hcall
    rw [h.delta, not_lt]
    exact lastNum_le htake
  | cons next after =>
    have hnext := hdrop next mem_cons_self
    have hlt : o.1 < cpkt.delta := by
      rw [h.delta]
      exact hnext.trans_le (le_lastNum h.encodable.1 (by simp))
    rw [coapPacketAppendOption, if_pos hlt] at hcall
    exact h.insert htake hnext hlen henc (hok next rfl) hcall

theorem Holds.run (h : Holds cap hdr cpkt opts) (hcap : cap < 2 ^ 16)
    (hops : ∀ o ∈ ops, o.1 < 2 ^ 16 ∧ o.2.length ≤ cap) (hok : RunOk opts ops)
    (hrun : appendAll cap cpkt ops = some cpkt') :
    Holds cap hdr cpkt' (ops.foldl (fun sorted o => stableInsert o sorted) opts) := by
  induction ops generalizing cpkt opts with
  | nil =>
    cases hrun
    exact h
  | cons o ops ih =>
    obtain ⟨hnum, hlen⟩ := hops o mem_cons_self
    simp only [appendAll, bind_eq_bind, bind_eq_some_iff] at hrun
    obtain ⟨⟨r, c⟩, hcall, hrest⟩ := hrun
    dsimp only at hrest
    split_ifs at hrest with hr
    rw [hr] at hcall
    exact ih (h.step hnum hlen hcap hok.1 hcall)
      (fun q hq => hops q (mem_cons_of_mem _ hq)) hok.2 hrest

theorem sorted_foldl (h : (opts.map Prod.fst).Pairwise (· ≤ ·)) (c : ℕ) :
    let sorted := ops.foldl (fun sorted o => stableInsert o sorted) opts
    (sorted.map Prod.fst).Pairwise (· ≤ ·) ∧ sorted.filter (fun q => q.1 = c) =
      opts.filter (fun q => q.1 = c) ++ ops.filter (fun q => q.1 = c) := by
  induction ops generalizing opts with
  | nil => exact ⟨h, (append_nil _).symm⟩
  | cons o ops ih =>
    obtain ⟨hsorted, hfilter⟩ := ih (sorted_stableInsert (o := o) h)
    refine ⟨hsorted, hfilter.trans ?_⟩
    rw [filter_stableInsert h, append_assoc, ← filter_append, singleton_append]

theorem lastNum_stableInsert (h : (opts.map Prod.fst).Pairwise (· ≤ ·)) :
    lastNum 0 (stableInsert o opts) = max (lastNum 0 opts) o.1 := by
  obtain ⟨htake, hdrop⟩ := stableInsert_split o h
  have hsplit := takeWhile_append_dropWhile (p := fun q => decide (q.1 ≤ o.1)) (l := opts)
  rw [stableInsert]
  generalize opts.takeWhile (fun q => decide (q.1 ≤ o.1)) = before at *
  generalize opts.dropWhile (fun q => decide (q.1 ≤ o.1)) = after at *
  subst hsplit
  cases after with
  | nil =>
    rw [append_nil, lastNum_append, lastNum_cons, lastNum_nil]
    exact (max_eq_right (lastNum_le htake)).symm
  | cons next after =>
    have hle := (hdrop next mem_cons_self).le.trans (le_lastNum h (q := next) (by simp))
    rw [max_eq_left hle]
    simp only [lastNum_append, lastNum_cons]

theorem lastNum_foldl (h : (opts.map Prod.fst).Pairwise (· ≤ ·)) :
    lastNum 0 (ops.foldl (fun sorted o => stableInsert o sorted) opts) =
      (ops.map Prod.fst).foldl max (lastNum 0 opts) := by
  induction ops generalizing opts with
  | nil => rfl
  | cons o ops ih =>
    rw [foldl_cons, ih (sorted_stableInsert h), lastNum_stableInsert h, map_cons, foldl_cons]

/-- The token is there and the length of the header fits its eight bits. -/
def TokenOk (tokenLen : ℕ) (token : Option (List UInt8)) : Prop :=
  tokenLen < 252 ∧ (tokenLen ≠ 0 → ∃ bytes, token = some bytes ∧ tokenLen ≤ bytes.length)

/-- Fields that only `coap_packet_init` and the options change. -/
structure Fresh (cpkt : CoapPacket) (m n : ℕ) : Prop where
  maxLen : cpkt.maxLen = m
  offset : cpkt.offset = n
  fits : n ≤ m
  hdrLen : cpkt.hdrLen = 0
  optLen : cpkt.optLen = 0
  delta : cpkt.delta = 0

variable {maxLen offset : ℕ}

variable {n : ℕ}

theorem Fresh.grow (h : Fresh cpkt maxLen offset) (hmax : maxLen < 2 ^ 16)
    (data : Mem) (hspace : cpkt.offset + n ≤ cpkt.maxLen) :
    Fresh { cpkt with data := data, offset := (cpkt.offset + n) % 2 ^ 16 } maxLen (offset + n) := by
  rw [h.maxLen, h.offset] at hspace
  refine ⟨h.maxLen, ?_, hspace, h.hdrLen, h.optLen, h.delta⟩
  simp only [h.offset]
  omega

theorem Fresh.appendU8 {x : UInt8} (h : Fresh cpkt maxLen offset)
    (hmax : maxLen < 2 ^ 16) (hcall : appendU8 cpkt x = some cpkt') :
    Fresh cpkt' maxLen (offset + 1) := by
  simp only [Coap.appendU8, enoughSpace, decide_eq_true_eq, ite_none_right_eq_some] at hcall
  obtain ⟨hspace, hcall⟩ := hcall
  cases hcall
  exact h.grow hmax _ hspace

theorem Fresh.appendBe16 (h : Fresh cpkt maxLen offset)
    (hmax : maxLen < 2 ^ 16) (hcall : appendBe16 cpkt n = some cpkt') :
    Fresh cpkt' maxLen (offset + 2) := by
  simp only [Coap.appendBe16, enoughSpace, decide_eq_true_eq, ite_none_right_eq_some] at hcall
  obtain ⟨hspace, hcall⟩ := hcall
  cases hcall
  exact h.grow hmax _ hspace

theorem Fresh.append {bs : List UInt8} (h : Fresh cpkt maxLen offset)
    (hmax : maxLen < 2 ^ 16) (hcall : append cpkt bs = some cpkt') :
    Fresh cpkt' maxLen (offset + bs.length) := by
  simp only [Coap.append, enoughSpace, decide_eq_true_eq, ite_none_right_eq_some] at hcall
  obtain ⟨hspace, hcall⟩ := hcall
  cases hcall
  exact h.grow hmax _ hspace

theorem coapPacketInit_holds {data : Mem} {ver type tokenLen id : ℕ}
    {token : Option (List UInt8)} {code : UInt8} (hmax : maxLen < 2 ^ 16)
    (htoken : TokenOk tokenLen token)
    (hinit : coapPacketInit data maxLen ver type tokenLen token code id = some cpkt) :
    Holds cap cpkt.bytes cpkt [] := by
  simp only [coapPacketInit, bind_eq_bind, bind_eq_some_iff, Option.pure_def,
    bind_none, ite_none_left_eq_some] at hinit
  obtain ⟨hpos, c₁, h₁, c₂, h₂, c₃, h₃, c₄, h₄, hinit⟩ := hinit
  have hstart : Fresh ⟨data, 0, maxLen, 0, 0, 0⟩ maxLen 0 :=
    ⟨rfl, rfl, Nat.zero_le _, rfl, rfl, rfl⟩
  have hthree := ((hstart.appendU8 hmax h₁).appendU8 hmax h₂).appendBe16 hmax h₃
  have hfour : Fresh c₄ maxLen (4 + tokenLen) := by
    rcases Nat.eq_zero_or_pos tokenLen with hzero | hlen
    · have hsame : c₄ = c₃ := by
        cases token with
        | none => exact (Option.some.inj h₄).symm
        | some bytes =>
          rw [appendToken, if_neg (not_not.mpr hzero)] at h₄
          exact (Option.some.inj h₄).symm
      rw [hsame, hzero]
      exact hthree
    · obtain ⟨bytes, rfl, hle⟩ := htoken.2 hlen.ne'
      rw [appendToken, if_pos hlen.ne'] at h₄
      have happ := hthree.append hmax h₄
      rwa [length_take, min_eq_left hle] at happ
  cases hinit
  have hsmall := htoken.1
  have hfits := hfour.fits
  refine ⟨(append_nil _).symm, ?_, hfour.optLen, hfour.delta, hfour.maxLen.trans_lt hmax, ?_,
    ⟨List.Pairwise.nil, by simp⟩, by simp⟩
  · rw [length_bytes, hfour.offset]
    dsimp only
    omega
  · rw [hfour.offset, hfour.maxLen]
    exact hfits

/-- **The options after a sequence of calls.** If no field of two bytes has to go in the middle, the
option area reads as the options added, sorted by number; `opt_len` is its length and `delta` the
largest number. -/
theorem options_round_trip {data : Mem} {maxLen ver type tokenLen id : ℕ}
    {token : Option (List UInt8)} {code : UInt8} (hmax : maxLen < 2 ^ 16) (hcap : cap < 2 ^ 16)
    (htoken : TokenOk tokenLen token)
    (hinit : coapPacketInit data maxLen ver type tokenLen token code id = some cpkt)
    (hops : ∀ o ∈ ops, o.1 < 2 ^ 16 ∧ o.2.length ≤ cap) (hok : RunOk [] ops)
    (hrun : appendAll cap cpkt ops = some cpkt') :
    ∃ sorted, decode cpkt'.optionArea = some sorted ∧ (sorted.map Prod.fst).Pairwise (· ≤ ·) ∧
      (∀ c, sorted.filter (fun q => q.1 = c) = ops.filter (fun q => q.1 = c)) ∧
      cpkt'.optLen = cpkt'.optionArea.length ∧ cpkt'.delta = (ops.map Prod.fst).foldl max 0 := by
  have h := (coapPacketInit_holds hmax htoken hinit).run hcap hops hok hrun
  have hsorted := @sorted_foldl [] ops List.Pairwise.nil
  have harea : cpkt'.optionArea = encode 0 (ops.foldl (fun sorted o => stableInsert o sorted) []) := by
    have hbytes := h.bytes
    rw [CoapPacket.bytes, h.offset, loadBytes_add, Nat.zero_add] at hbytes
    rw [CoapPacket.optionArea, h.offset, h.hdrLen, Nat.add_sub_cancel_left]
    exact (append_inj hbytes (length_loadBytes _ _ _)).2
  refine ⟨_, by rw [harea, decode_encode h.encodable], (hsorted 0).1, fun c => ?_, ?_, ?_⟩
  · simpa using (hsorted c).2
  · rw [harea, h.optLen]
  · rw [h.delta, lastNum_foldl List.Pairwise.nil]
    rfl

/-- Four options in no order, one with a long difference and one with a long value. -/
theorem options_round_trip_four : ∃ cpkt cpkt' sorted,
    coapPacketInit (fun _ => 0) 512 1 0 2 (some [0xA, 0xB]) 1 7 = some cpkt ∧
      appendAll 300 cpkt [(600, [1]), (300, List.replicate 280 2), (600, [3]), (400, [4])] =
        some cpkt' ∧
      decode cpkt'.optionArea = some sorted := by
  have hcalls : ((coapPacketInit (fun _ => 0) 512 1 0 2 (some [0xA, 0xB]) 1 7).bind fun cpkt =>
      appendAll 300 cpkt [(600, [1]), (300, List.replicate 280 2), (600, [3]), (400, [4])]).isSome := by
    decide +kernel
  obtain ⟨cpkt', hcalls⟩ := isSome_iff_exists.mp hcalls
  obtain ⟨cpkt, hinit, hrun⟩ := bind_eq_some_iff.mp hcalls
  obtain ⟨sorted, hdecode, -⟩ := options_round_trip (by decide) (by decide)
    ⟨by decide, fun _ => ⟨_, rfl, by decide⟩⟩ hinit (by decide +kernel) (by decide +kernel) hrun
  exact ⟨cpkt, cpkt', sorted, hinit, hrun, hdecode⟩

end runs

/-- **Three options that cannot be read**: 600, 700 and then 300. All three calls succeed. -/
theorem options_scrambled :
    (do
      let cpkt ← coapPacketInit (fun _ => 0) 64 1 0 0 none 1 7
      let cpkt ← appendAll 12 cpkt [(600, []), (700, []), (300, [])]
      return decode cpkt.optionArea) = some none := by
  decide +kernel

end Coap

end TlZephyr
