import TlZephyr.DnsEnds

/-!
# Names as Text

What `dns_unpack_name` and `dns_unpack_query` read, write and return, compared with names as
RFC 1035 defines them (`Name`). All reads of a name stay inside the message. Three things can
go wrong:

* a label is compared with the space before the first one, so several labels together, or the
  zero behind the text, can be written past the buffer;
* at each pointer the end of the name is set again, so it is wrong behind a second one;
* a length with only one of the two tag bits set is taken for a pointer.

`dns_unpack_query` reads the type and the class behind the name without checking the size of the
message. `Msg.Fits` and `Msg.QuestionFits` describe the messages for which none of this happens,
by a walk over the name.
-/

namespace TlZephyr.Dns

open Fuel List

variable {msg : Msg} {tailroom src : ℕ}

/-! ### Names -/

/-- The name at a position: its labels, the end of its encoding, and the number of pointers. -/
inductive Name (msg : Msg) : ℕ → List (List UInt8) → ℕ → ℕ → Prop
  | root {pos : ℕ} : pos < msg.size → msg.byte pos = 0 → Name msg pos [] (pos + 1) 0
  | label {pos eol hops : ℕ} {labels : List (List UInt8)} : 0 < (msg.byte pos).toNat →
      (msg.byte pos).toNat ≤ 63 → Name msg (pos + 1 + (msg.byte pos).toNat) labels eol hops →
      Name msg pos (msg.slice (pos + 1) (msg.byte pos).toNat :: labels) eol hops
  | pointer {pos eol hops : ℕ} {labels : List (List UInt8)} : 0xc0 ≤ (msg.byte pos).toNat →
      pos + 1 < msg.size → Name msg (msg.target pos) labels eol hops →
      Name msg pos labels (pos + 2) (hops + 1)

/-- Labels of a name as text, each behind a dot. -/
def dotted (labels : List (List UInt8)) : List UInt8 := labels.flatMap (46 :: ·)

variable {eol hops pos : ℕ} {labels : List (List UInt8)} {v : Visit} {buf : NetBuf}

theorem Name.root_inv (h : Name msg pos labels eol hops) (h0 : (msg.byte pos).toNat = 0) :
    labels = [] ∧ eol = pos + 1 ∧ hops = 0 := by
  cases h with
  | root => exact ⟨rfl, rfl, rfl⟩
  | label hpos => omega
  | pointer htag => omega

theorem Name.label_inv (h : Name msg pos labels eol hops) (h0 : 0 < (msg.byte pos).toNat)
    (h63 : (msg.byte pos).toNat ≤ 63) :
    ∃ rest, labels = msg.slice (pos + 1) (msg.byte pos).toNat :: rest ∧
      Name msg (pos + 1 + (msg.byte pos).toNat) rest eol hops := by
  cases h with
  | root _ hz => simp [hz] at h0
  | label _ _ hrest => exact ⟨_, rfl, hrest⟩
  | pointer htag => omega

theorem Name.pointer_inv (h : Name msg pos labels eol hops) (h63 : 63 < (msg.byte pos).toNat) :
    0xc0 ≤ (msg.byte pos).toNat ∧ eol = pos + 2 ∧
      ∃ eol' hops', hops = hops' + 1 ∧ Name msg (msg.target pos) labels eol' hops' := by
  cases h with
  | root _ hz => simp [hz] at h63
  | label _ hle => omega
  | pointer htag _ hrest => exact ⟨htag, rfl, _, _, rfl, hrest⟩

theorem Name.hops_unique
    (h : Name msg pos labels eol hops) : ∀ {labels' : List (List UInt8)} {eol' hops' : ℕ},
      Name msg pos labels' eol' hops' → hops = hops' := by
  induction h with
  | root _ hz =>
    intro _ _ _ h'
    exact ((h'.root_inv (by simp [hz])).2.2).symm
  | label h0 h63 _ ih =>
    intro _ _ _ h'
    obtain ⟨_, -, hrest⟩ := h'.label_inv h0 h63
    exact ih hrest
  | pointer htag _ _ ih =>
    intro _ _ _ h'
    obtain ⟨-, -, _, _, rfl, hrest⟩ := h'.pointer_inv (by omega)
    rw [ih hrest]

/-! ### Walk over a name -/

/-- A place on the walk over a name: the text and the pointers before it, whether one has a reserved
tag, and the end of the first one. -/
structure Visit where
  pos : ℕ
  text : List UInt8
  hops : ℕ
  reserved : Bool
  first : Option ℕ

/-- The walk over the name at `src`: a label has to fit, and pointers are followed as long as fewer
bytes were walked over than the message has. -/
inductive Walk (msg : Msg) (tailroom src : ℕ) : Visit → Prop
  | start : src < msg.size → Walk msg tailroom src ⟨src, [], 0, false, none⟩
  | label {v : Visit} : Walk msg tailroom src v → 0 < (msg.byte v.pos).toNat →
      (msg.byte v.pos).toNat ≤ 63 → (msg.byte v.pos).toNat + 1 < tailroom →
      v.pos + 1 + (msg.byte v.pos).toNat < msg.size →
      Walk msg tailroom src { v with
        pos := v.pos + 1 + (msg.byte v.pos).toNat
        text := v.text ++ 46 :: msg.slice (v.pos + 1) (msg.byte v.pos).toNat }
  | pointer {v : Visit} : Walk msg tailroom src v → 63 < (msg.byte v.pos).toNat →
      v.pos + 1 < msg.size → msg.target v.pos < msg.size →
      v.text.length + 2 * (v.hops + 1) < msg.size →
      Walk msg tailroom src ⟨msg.target v.pos, v.text, v.hops + 1,
        v.reserved || (msg.byte v.pos).toNat < 0xc0, some (v.first.getD (v.pos + 2))⟩

theorem Walk.pos_lt (h : Walk msg tailroom src v) : v.pos < msg.size := by
  cases h <;> assumption

theorem Walk.first (h : Walk msg tailroom src v) :
    (v.hops = 0 ∧ v.first = none) ∨
      (0 < v.hops ∧ ∃ w, Walk msg tailroom src w ∧ w.hops = 0 ∧ v.first = some (w.pos + 2)) := by
  induction h with
  | start => exact .inl ⟨rfl, rfl⟩
  | label _ _ _ _ _ ih => exact ih
  | @pointer v hv _ _ _ _ ih =>
    refine .inr ⟨Nat.succ_pos _, ?_⟩
    rcases ih with ⟨h0, hf⟩ | ⟨-, w, hw, hw0, hf⟩
    · exact ⟨v, hv, h0, by rw [hf]; rfl⟩
    · exact ⟨w, hw, hw0, by rw [hf]; rfl⟩

/-- Without reserved tags, the name at a place of the walk completes the name at its start. -/
theorem Walk.name (h : Walk msg tailroom src v) (hres : v.reserved = false) :
    ∃ before, v.text = dotted before ∧ ∀ {labels eol hops}, Name msg v.pos labels eol hops →
      Name msg src (before ++ labels) (v.first.getD eol) (v.hops + hops) := by
  induction h with
  | start => exact ⟨[], rfl, fun hn => by simpa using hn⟩
  | @label v _ h0 h63 _ _ ih =>
    obtain ⟨before, htext, hname⟩ := ih hres
    refine ⟨before ++ [msg.slice (v.pos + 1) (msg.byte v.pos).toNat], ?_, fun hn => ?_⟩
    · simp [htext, dotted]
    · simpa using hname (.label h0 h63 hn)
  | @pointer v _ h63 hin _ _ ih =>
    obtain ⟨hv, htag⟩ : v.reserved = false ∧ ¬ (msg.byte v.pos).toNat < 0xc0 := by
      simpa using hres
    obtain ⟨before, htext, hname⟩ := ih hv
    refine ⟨before, htext, fun {_ _ hops} hn => ?_⟩
    have := hname (.pointer (by omega) hin hn)
    rwa [show v.hops + (hops + 1) = v.hops + 1 + hops by omega] at this

theorem Walk.of_name (h : Walk msg tailroom src v) (hn : Name msg src labels eol hops) :
    v.reserved = false ∧ ∃ labels' eol' hops', Name msg v.pos labels' eol' hops' ∧
      eol = v.first.getD eol' ∧ hops = v.hops + hops' := by
  induction h with
  | start => exact ⟨rfl, labels, eol, hops, hn, rfl, (Nat.zero_add _).symm⟩
  | label _ h0 h63 _ _ ih =>
    obtain ⟨hres, _, eol', hops', hv, heol, hhops⟩ := ih
    obtain ⟨rest, -, hrest⟩ := hv.label_inv h0 h63
    exact ⟨hres, rest, eol', hops', hrest, heol, hhops⟩
  | pointer _ h63 _ _ _ ih =>
    obtain ⟨hres, _, eol', hops', hv, heol, hhops⟩ := ih
    obtain ⟨htag, rfl, eol'', hops'', rfl, hrest⟩ := hv.pointer_inv h63
    refine ⟨?_, _, eol'', hops'', hrest, heol, by rw [hhops]; dsimp only; omega⟩
    simpa [hres] using htag

/-! ### The run follows the walk -/

/-- State of `dns_unpack_name` at a place of the walk, in a buffer that held `base`. -/
structure Rep (msg : Msg) (tailroom src : ℕ) (base : List UInt8) (s : Unpack) (v : Visit) :
    Prop where
  walk : Walk msg tailroom src v
  curr : s.curr = v.pos
  text : s.text = base ++ v.text
  loopCheck : s.loopCheck = v.text.length + 2 * v.hops
  reads : ∀ i ∈ s.reads, i < msg.size
  endOfLabel : (v.hops = 0 ∧ s.endOfLabel = none) ∨
    ∃ w, Walk msg tailroom src w ∧ w.hops + 1 = v.hops ∧ s.endOfLabel = some (w.pos + 2) ∧
      (w.hops = 0 → v.first = some (w.pos + 2))

variable {base : List UInt8} {s s' : Unpack} {v : Visit} {r : Unpacked}

theorem Rep.label (h : Rep msg tailroom src base s v) (h0 : 0 < (msg.byte v.pos).toNat)
    (h63 : (msg.byte v.pos).toNat ≤ 63) (htail : (msg.byte v.pos).toNat + 1 < tailroom)
    (hsize : v.pos + 1 + (msg.byte v.pos).toNat < msg.size) :
    Rep msg tailroom src base (s.label msg) { v with
      pos := v.pos + 1 + (msg.byte v.pos).toNat
      text := v.text ++ 46 :: msg.slice (v.pos + 1) (msg.byte v.pos).toNat } where
  walk := h.walk.label h0 h63 htail hsize
  curr := by rw [Unpack.label, h.curr]
  text := by rw [Unpack.label, h.curr, h.text, append_assoc]
  loopCheck := by
    rw [Unpack.label, h.loopCheck, h.curr]
    simp only [length_append, length_cons, Msg.length_slice]
    omega
  reads := by
    intro i hi
    rw [Unpack.label, h.curr, mem_append, mem_range'_1, mem_cons] at hi
    rcases hi with hi | rfl | hi
    · omega
    · exact h.walk.pos_lt
    · exact h.reads i hi
  endOfLabel := h.endOfLabel

theorem Rep.follow (h : Rep msg tailroom src base s v) (h63 : 63 < (msg.byte v.pos).toNat)
    (hin : v.pos + 1 < msg.size) (htarget : msg.target v.pos < msg.size)
    (hcheck : v.text.length + 2 * (v.hops + 1) < msg.size) :
    Rep msg tailroom src base (s.follow msg) ⟨msg.target v.pos, v.text, v.hops + 1,
      v.reserved || (msg.byte v.pos).toNat < 0xc0, some (v.first.getD (v.pos + 2))⟩ where
  walk := h.walk.pointer h63 hin htarget hcheck
  curr := by rw [Unpack.follow, h.curr]
  text := h.text
  loopCheck := by
    rw [Unpack.follow, h.loopCheck]
    dsimp only
    omega
  reads := by
    intro i hi
    rw [Unpack.follow, h.curr, mem_cons, mem_cons] at hi
    rcases hi with rfl | rfl | hi
    · exact hin
    · exact h.walk.pos_lt
    · exact h.reads i hi
  endOfLabel := by
    refine .inr ⟨v, h.walk, rfl, by rw [Unpack.follow, h.curr], fun h0 => ?_⟩
    rcases h.walk.first with ⟨-, hf⟩ | ⟨hpos, -⟩
    · rw [hf]
      rfl
    · omega

theorem Rep.step (h : Rep msg tailroom src base s v)
    (hs : unpackRound msg tailroom s = .inl s') :
    ∃ v', Rep msg tailroom src base s' v' ∧ v.text.length ≤ v'.text.length := by
  rcases unpackRound_inl hs with ⟨h63, hin, htarget, hcheck, rfl⟩ | ⟨h0, h63, htail, hsize, rfl⟩
  · rw [h.curr] at h63 hin htarget
    rw [h.loopCheck] at hcheck
    exact ⟨_, h.follow h63 hin htarget (by omega), le_rfl⟩
  · rw [h.curr] at h0 h63 htail hsize
    exact ⟨_, h.label h0 h63 htail hsize, by simp⟩

theorem Walk.rep (hv : Walk msg tailroom src v)
    (hr : Ends (fun n => loop (unpackRound msg tailroom) n ⟨src, none, 0, base, []⟩) r) :
    ∃ s, Rep msg tailroom src base s v ∧ Ends (fun n => loop (unpackRound msg tailroom) n s) r := by
  induction hv with
  | start hsrc =>
    exact ⟨_, ⟨.start hsrc, rfl, (append_nil _).symm, rfl, by simp, .inl ⟨rfl, rfl⟩⟩, hr⟩
  | label hv h0 h63 htail hsize ih =>
    obtain ⟨s, hs, hends⟩ := ih
    refine ⟨_, hs.label h0 h63 htail hsize, ?_⟩
    rw [← hs.curr] at h0 h63 htail hsize
    rcases unpackRound_label tailroom h0 h63 with ⟨-, -, he⟩ | ⟨hne, -⟩
    · exact (ends_loop_inl he).mp hends
    · exact absurd ⟨htail, hsize⟩ hne
  | pointer hv h63 hin htarget hcheck ih =>
    obtain ⟨s, hs, hends⟩ := ih
    refine ⟨_, hs.follow h63 hin htarget hcheck, ?_⟩
    rw [← hs.curr] at h63 hin htarget
    rcases unpackRound_pointer tailroom h63 with ⟨-, -, -, he⟩ | ⟨hne, -⟩
    · exact (ends_loop_inl he).mp hends
    · exact absurd ⟨hin, htarget, by rw [hs.loopCheck]; omega⟩ hne

/-- The end of a run: at an empty label with success, or at another place with an error. -/
structure Final (msg : Msg) (tailroom src : ℕ) (base : List UInt8) (r : Unpacked) (v : Visit) :
    Prop where
  walk : Walk msg tailroom src v
  text : r.text = base ++ v.text
  reads : ∀ i ∈ r.reads, i < msg.size
  done : msg.byte v.pos = 0 → r.ret = r.text.length ∧ r.written = r.text.length + 1 ∧
    ∃ s, Rep msg tailroom src base s v ∧ r.eol = s.endOfLabel.getD (v.pos + 1)
  fail : msg.byte v.pos ≠ 0 → r.ret = -EMSGSIZE ∧ r.written = r.text.length

theorem Rep.final (h : Rep msg tailroom src base s v)
    (hr : unpackRound msg tailroom s = .inr r) : Final msg tailroom src base r v := by
  have hlt := h.walk.pos_lt
  have hfail : s.FailsAs msg r → msg.byte v.pos ≠ 0 → Final msg tailroom src base r v := by
    intro hf h0
    refine ⟨h.walk, hf.text.trans h.text, fun i hi => ?_, fun hz => absurd hz h0,
      fun _ => ⟨hf.ret, hf.written.trans (by rw [hf.text])⟩⟩
    rcases hf.reads i hi with hi | rfl | hi
    · exact hi
    · rwa [h.curr]
    · exact h.reads i hi
  by_cases h0 : msg.byte s.curr = 0
  · rw [unpackRound_root tailroom h0] at hr
    obtain rfl := Sum.inr.inj hr
    refine ⟨h.walk, h.text, fun i hi => ?_, fun _ => ⟨rfl, rfl, s, h, ?_⟩,
      fun hne => absurd (h.curr ▸ h0) hne⟩
    · rcases mem_cons.mp hi with rfl | hi
      · rwa [h.curr]
      · exact h.reads i hi
    · rw [← h.curr]
      rfl
  have hpos : 0 < (msg.byte s.curr).toNat :=
    Nat.pos_of_ne_zero fun hz => h0 (UInt8.toNat_inj.mp hz)
  refine hfail ?_ (h.curr ▸ h0)
  by_cases h63 : 63 < (msg.byte s.curr).toNat
  · rcases unpackRound_pointer tailroom h63 with ⟨-, -, -, he⟩ | ⟨-, r', hf, he⟩
    · cases he.symm.trans hr
    · exact Sum.inr.inj (he.symm.trans hr) ▸ hf
  · rcases unpackRound_label tailroom hpos (by omega) with ⟨-, -, he⟩ | ⟨-, r', hf, he⟩
    · cases he.symm.trans hr
    · exact Sum.inr.inj (he.symm.trans hr) ▸ hf

theorem Rep.run (h : Rep msg tailroom src base s v)
    (hr : Ends (fun n => loop (unpackRound msg tailroom) n s) r) :
    ∃ v', Final msg tailroom src base r v' ∧ v.text.length ≤ v'.text.length := by
  refine Ends.loop_result
    (fun r => ∃ v', Final msg tailroom src base r v' ∧ v.text.length ≤ v'.text.length)
    (fun s => ∃ v', Rep msg tailroom src base s v' ∧ v.text.length ≤ v'.text.length)
    ?_ ?_ ⟨v, h, le_rfl⟩ hr
  · rintro s s' ⟨w, hw, hle⟩ hs
    obtain ⟨w', hw', hle'⟩ := hw.step hs
    exact ⟨w', hw', hle.trans hle'⟩
  · rintro s r ⟨w, hw, hle⟩ hs
    exact ⟨w, hw.final hs, hle⟩

theorem Rep.run_root (h : Rep msg tailroom src base s v) (h0 : msg.byte v.pos = 0)
    (hr : Ends (fun n => loop (unpackRound msg tailroom) n s) r) :
    Final msg tailroom src base r v :=
  have hround := unpackRound_root tailroom (h.curr.symm ▸ h0)
  h.final ((ends_loop_inr hround).mp hr ▸ hround)

/-! ### When unpacking is correct -/

/-- `dns_unpack_name` is correct: it stays inside of the message and the buffer, and on success text
and `eol` are those of the name. -/
structure Unpacked.Correct (msg : Msg) (src : ℕ) (buf : NetBuf) (r : Unpacked) : Prop where
  reads : ∀ i ∈ r.reads, i < msg.size
  writes : r.written ≤ buf.bytes.length + buf.tailroom
  exact : 0 ≤ r.ret → ∃ labels hops, Name msg src labels r.eol hops ∧
    r.text = buf.bytes ++ dotted labels

/-- The name at `src` fits: all text has space, in the end with a byte more, and there is at most
one pointer, without a reserved tag. -/
def Msg.Fits (msg : Msg) (tailroom src : ℕ) : Prop :=
  ∀ v, Walk msg tailroom src v → v.text.length ≤ tailroom ∧
    (msg.byte v.pos = 0 → v.text.length < tailroom ∧ v.hops ≤ 1 ∧ v.reserved = false)

theorem Rep.endOfLabel_eq (h : Rep msg tailroom src base s v) (hle : v.hops ≤ 1) :
    s.endOfLabel = v.first := by
  rcases h.endOfLabel with ⟨h0, he⟩ | ⟨w, -, hw, he, hf⟩
  · rcases h.walk.first with ⟨-, hf⟩ | ⟨hpos, -⟩
    · rw [he, hf]
    · omega
  · rw [he, hf (by omega)]

theorem Rep.hops_le_one (h : Rep msg tailroom src base s v)
    (hn : Name msg src labels (s.endOfLabel.getD (v.pos + 1)) hops) : v.hops ≤ 1 := by
  by_contra hgt
  obtain ⟨-, _, eol', hops', -, heol, hhops⟩ := h.walk.of_name hn
  rcases h.endOfLabel with ⟨hz, -⟩ | ⟨w, hw, hwhops, he, -⟩
  · omega
  rcases h.walk.first with ⟨hz, -⟩ | ⟨-, w₁, hw₁, hw₁0, hf⟩
  · omega
  -- the first and the last pointer are at one position, with different numbers of pointers left
  obtain ⟨-, _, _, k, hk, -, hkhops⟩ := hw.of_name hn
  obtain ⟨-, _, _, k₁, hk₁, -, hk₁hops⟩ := hw₁.of_name hn
  have hpos : w.pos = w₁.pos := by
    rw [he, hf] at heol
    simpa using heol
  rw [hpos] at hk
  have := hk.hops_unique hk₁
  omega

theorem Final.correct_iff (h : Final msg tailroom src buf.bytes r v)
    (htail : buf.tailroom = tailroom) :
    r.Correct msg src buf ↔ v.text.length ≤ tailroom ∧
      (msg.byte v.pos = 0 → v.text.length < tailroom ∧ v.hops ≤ 1 ∧ v.reserved = false) := by
  have hlen : r.text.length = buf.bytes.length + v.text.length := by
    rw [h.text, length_append]
  by_cases h0 : msg.byte v.pos = 0
  · obtain ⟨hret, hwritten, s, hs, heol⟩ := h.done h0
    constructor
    · intro hc
      have hw := hc.writes
      obtain ⟨labels, hops, hn, -⟩ := hc.exact (by omega)
      refine ⟨by omega, fun _ => ⟨by omega, ?_, (hs.walk.of_name hn).1⟩⟩
      exact hs.hops_le_one (heol ▸ hn)
    rintro ⟨-, hroot⟩
    obtain ⟨hlt, hhops, hres⟩ := hroot h0
    refine ⟨h.reads, by omega, fun _ => ?_⟩
    obtain ⟨before, htext, hname⟩ := h.walk.name hres
    have hn := hname (.root h.walk.pos_lt h0)
    rw [append_nil, ← hs.endOfLabel_eq hhops, ← heol] at hn
    exact ⟨before, _, hn, by rw [h.text, htext]⟩
  obtain ⟨hret, hwritten⟩ := h.fail h0
  constructor
  · intro hc
    have hw := hc.writes
    exact ⟨by omega, fun hz => absurd hz h0⟩
  · rintro ⟨hle, -⟩
    refine ⟨h.reads, by omega, fun hpos => ?_⟩
    rw [hret] at hpos
    exact absurd hpos (by decide)

theorem not_walk (hsrc : src ≥ msg.size) (v : Visit) : ¬ Walk msg tailroom src v := by
  intro hv
  induction hv with
  | start h => omega
  | label _ _ _ _ _ ih => exact ih
  | pointer _ _ _ _ _ ih => exact ih

theorem unpackName_loop (hsrc : ¬ src ≥ msg.size) (hr : Ends (dnsUnpackName msg src buf) r) :
    Ends (fun n => loop (unpackRound msg buf.tailroom) n ⟨src, none, 0, buf.bytes, []⟩) r :=
  .congr (fun _ => (if_neg hsrc).symm) hr

theorem unpackName_correct_iff (hr : Ends (dnsUnpackName msg src buf) r) :
    r.Correct msg src buf ↔ msg.Fits buf.tailroom src := by
  by_cases hsrc : src ≥ msg.size
  · refine ⟨fun _ v hv => absurd hv (not_walk hsrc v), fun _ => ?_⟩
    rw [hr.unique (.congr (fun _ => if_pos hsrc) (.const _))]
    exact ⟨by simp [Unpack.fail], Nat.le_add_right _ _,
      fun h => absurd h (show ¬ (0 : ℤ) ≤ -EMSGSIZE by decide)⟩
  replace hr := unpackName_loop hsrc hr
  constructor
  · intro hc v hv
    obtain ⟨s, hs, hends⟩ := hv.rep hr
    obtain ⟨v', hv', hle⟩ := hs.run hends
    refine ⟨hle.trans ((hv'.correct_iff rfl).mp hc).1, fun h0 => ?_⟩
    exact (((hs.run_root h0 hends).correct_iff rfl).mp hc).2 h0
  · intro hf
    obtain ⟨s, hs, hends⟩ := (Walk.start (Nat.lt_of_not_le hsrc)).rep hr
    obtain ⟨v', hv', -⟩ := hs.run hends
    exact (hv'.correct_iff rfl).mpr (hf v' hv'.walk)

theorem unpackName_reads (hr : Ends (dnsUnpackName msg src buf) r) :
    ∀ i ∈ r.reads, i < msg.size := by
  by_cases hsrc : src ≥ msg.size
  · rw [hr.unique (.congr (fun _ => if_pos hsrc) (.const _))]
    simp [Unpack.fail]
  · replace hr := unpackName_loop hsrc hr
    obtain ⟨s, hs, hends⟩ := (Walk.start (Nat.lt_of_not_le hsrc)).rep hr
    obtain ⟨v', hv', -⟩ := hs.run hends
    exact hv'.reads

theorem unpackName_root (hr : Ends (dnsUnpackName msg src buf) r) (hc : r.Correct msg src buf) :
    (0 ≤ r.ret → ∃ v, Walk msg buf.tailroom src v ∧ msg.byte v.pos = 0) ∧
      ∀ v, Walk msg buf.tailroom src v → msg.byte v.pos = 0 →
        0 ≤ r.ret ∧ r.eol = v.first.getD (v.pos + 1) := by
  by_cases hsrc : src ≥ msg.size
  · refine ⟨fun h => ?_, fun v hv => absurd hv (not_walk hsrc v)⟩
    rw [hr.unique (.congr (fun _ => if_pos hsrc) (.const _))] at h
    exact absurd h (show ¬ (0 : ℤ) ≤ -EMSGSIZE by decide)
  replace hr := unpackName_loop hsrc hr
  constructor
  · intro hret
    obtain ⟨s, hs, hends⟩ := (Walk.start (Nat.lt_of_not_le hsrc)).rep hr
    obtain ⟨v', hv', -⟩ := hs.run hends
    refine ⟨v', hv'.walk, ?_⟩
    by_contra h0
    rw [(hv'.fail h0).1] at hret
    exact absurd hret (by decide)
  intro v hv h0
  obtain ⟨s, hs, hends⟩ := hv.rep hr
  have hfinal := hs.run_root h0 hends
  obtain ⟨hret, -, s', hs', heol⟩ := hfinal.done h0
  refine ⟨by omega, ?_⟩
  rw [heol, hs'.endOfLabel_eq (((hfinal.correct_iff rfl).mp hc).2 h0).2.1]

/-! ### Questions -/

/-- `dns_unpack_query` is correct behind the name: it reads inside of the message, and type and
class are right. -/
structure Query.Correct (msg : Msg) (src : ℕ) (q : Query) : Prop where
  reads : ∀ i ∈ q.name.reads, i < msg.size
  exact : 0 ≤ q.name.ret → ∃ labels eol hops, Name msg src labels eol hops ∧
    q.query = some (msg.ntohs eol, msg.ntohs (eol + 2)) ∧ q.queryOffset = eol + 4

/-- Behind the name there is space for the type, and for the class if the type is known. -/
def Msg.QuestionFits (msg : Msg) (tailroom src : ℕ) : Prop :=
  ∀ v, Walk msg tailroom src v → msg.byte v.pos = 0 → v.first.getD (v.pos + 1) + 2 ≤ msg.size ∧
      (msg.ntohs (v.first.getD (v.pos + 1)) ∈ queryTypes → v.first.getD (v.pos + 1) + 4 ≤ msg.size)

theorem question_correct_iff (hr : Ends (dnsUnpackName msg src buf) r)
    (hc : r.Correct msg src buf) :
    (unpackQuestion msg src r).Correct msg src ↔ msg.QuestionFits buf.tailroom src := by
  obtain ⟨hroot, heol⟩ := unpackName_root hr hc
  by_cases hret : r.ret < 0
  · have he : unpackQuestion msg src r = ⟨r, none, src⟩ := if_pos hret
    rw [he]
    constructor
    · intro _ v hv h0
      exact absurd (heol v hv h0).1 (by omega)
    · intro _
      exact ⟨hc.reads, fun h => absurd h (by dsimp only; omega)⟩
  obtain ⟨v, hv, h0⟩ := hroot (by omega)
  obtain ⟨labels, hops, hname, -⟩ := hc.exact (by omega)
  have hfits : msg.QuestionFits buf.tailroom src ↔
      r.eol + 2 ≤ msg.size ∧ (msg.ntohs r.eol ∈ queryTypes → r.eol + 4 ≤ msg.size) := by
    constructor
    · intro h
      rw [(heol v hv h0).2]
      exact h v hv h0
    · intro h w hw hw0
      rwa [← (heol w hw hw0).2]
  rw [hfits, unpackQuestion, if_neg hret]
  dsimp only
  by_cases htype : msg.ntohs r.eol ∉ queryTypes
  · rw [if_pos htype]
    constructor
    · intro h
      have := h.reads (r.eol + 1) (by simp)
      exact ⟨by omega, fun hin => absurd hin htype⟩
    rintro ⟨h2, -⟩
    refine ⟨fun i hi => ?_, fun h => absurd h (show ¬ (0 : ℤ) ≤ -EINVAL by decide)⟩
    simp only [mem_cons] at hi
    rcases hi with rfl | rfl | hi
    · omega
    · omega
    · exact hc.reads i hi
  rw [if_neg htype]
  have hreads : (∀ i ∈ (r.eol + 2) :: (r.eol + 3) :: r.eol :: (r.eol + 1) :: r.reads,
      i < msg.size) ↔ r.eol + 4 ≤ msg.size := by
    constructor
    · intro h
      exact h (r.eol + 3) (by simp)
    intro h i hi
    simp only [mem_cons] at hi
    rcases hi with rfl | rfl | rfl | rfl | hi
    · omega
    · omega
    · omega
    · omega
    · exact hc.reads i hi
  have hiff : r.eol + 2 ≤ msg.size ∧ (msg.ntohs r.eol ∈ queryTypes → r.eol + 4 ≤ msg.size) ↔
      r.eol + 4 ≤ msg.size :=
    ⟨fun h => h.2 (not_not.mp htype), fun h => ⟨by omega, fun _ => h⟩⟩
  rw [hiff, ← hreads]
  by_cases hclass : msg.ntohs (r.eol + 2) &&& 1 ≠ 1
  · rw [if_pos hclass]
    exact ⟨fun h => h.reads, fun h => ⟨h, fun h => absurd h (show ¬ (0 : ℤ) ≤ -EINVAL by decide)⟩⟩
  · rw [if_neg hclass]
    exact ⟨fun h => h.reads, fun h => ⟨h, fun _ => ⟨labels, r.eol, hops, hname, rfl, rfl⟩⟩⟩

/-- **Unpacking names and questions.** `dns_unpack_name` is correct exactly if the name fits, and
`dns_unpack_query` if type and class are inside of the message as well. -/
theorem dns_unpack_correct (msg : Msg) (src : ℕ) (buf : NetBuf) :
    ∃ r q, Ends (dnsUnpackName msg src buf) r ∧ Ends (dnsUnpackQuery msg src buf) q ∧
      (∀ i ∈ r.reads, i < msg.size) ∧
      (r.Correct msg src buf ↔ msg.Fits buf.tailroom src) ∧
      (r.Correct msg src buf ∧ q.Correct msg src ↔
        msg.Fits buf.tailroom src ∧ msg.QuestionFits buf.tailroom src) := by
  obtain ⟨r, hr⟩ := unpackName_ends msg src buf
  have hiff := unpackName_correct_iff hr
  refine ⟨r, unpackQuestion msg src r, hr, hr.map _, unpackName_reads hr, hiff, ?_⟩
  rw [← hiff]
  exact and_congr_right (question_correct_iff hr)

/-- A buffer is overrun; the end of a name is that of its second pointer; the type is read behind
the message. -/
theorem dns_unpack_fails :
    ((dnsUnpackName (.ofList [1, 97, 1, 98, 1, 99, 0]) 0 ⟨[], 4, Nat.zero_le 4⟩ 5).map
        fun r => (r.ret, r.written)) = some (6, 7) ∧
      ((dnsUnpackName (.ofList [0xc0, 2, 0xc0, 4, 0]) 0 ⟨[], 4, Nat.zero_le 4⟩ 5).map
        fun r => (r.ret, r.eol)) = some (0, 4) ∧
      ((dnsUnpackQuery (.ofList [0]) 0 ⟨[], 4, Nat.zero_le 4⟩ 5).map
        fun q => q.name.reads) = some [1, 2, 0] := by
  decide +kernel

end TlZephyr.Dns
