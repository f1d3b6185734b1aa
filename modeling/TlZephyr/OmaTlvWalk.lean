import TlZephyr.OmaTlvNested

/-!
# Well-Nested Payloads

When does `do_write_op_tlv` end, and when does it act only on headers that it has just read?
The loops over an object instance and over a multiple resource ignore the error of `oma_tlv_get`:
at an incomplete header they use the header variable as it is, and add the error code to the
position. Position and length are compared as unsigned numbers, so these rounds end; a run outside
of block transfers always ends.

`WellNested` describes the payloads on which no such round happens, by a walk over the bytes
that knows nothing of the engine. A run follows that walk (`Follows`), each part of the code
its part of the walk, and parts are put together with `Follows.bind`.
-/

namespace TlZephyr.OmaTlv

open Fuel Option

/-! ### The TLVs of a payload -/

/-- How a walk over a container ends: at an incomplete header, at a TLV that is not allowed there,
or behind it. -/
inductive Walk
  | cut
  | stops
  | goesOn (rest : List UInt8)
  deriving DecidableEq

def Walk.bind (w : Walk) (f : List UInt8 → Walk) : Walk :=
  match w with
  | .cut => .cut
  | .stops => .stops
  | .goesOn rest => f rest

theorem Walk.bind_eq_goesOn {w : Walk} {f : List UInt8 → Walk} {r : List UInt8}
    (h : w.bind f = .goesOn r) : ∃ r₁, w = .goesOn r₁ ∧ f r₁ = .goesOn r := by
  cases w with
  | cut => simp [Walk.bind] at h
  | stops => simp [Walk.bind] at h
  | goesOn r₁ => exact ⟨r₁, rfl, h⟩

/-- `walk` goes over the TLVs of a container of `length` bytes, and `round` over one of them. -/
structure Walks (length : ℕ) (round : Tlv → ℕ → List UInt8 → Walk)
    (walk : ℕ → List UInt8 → Walk) : Prop where
  full : ∀ {pos : ℕ}, ¬ pos < length → ∀ rest, walk pos rest = .goesOn rest
  cut : ∀ {pos : ℕ} {rest : List UInt8}, pos < length → header? rest = none → walk pos rest = .cut
  next : ∀ {pos : ℕ} {rest : List UInt8} {t : Tlv} {hl : ℕ}, pos < length →
    header? rest = some (t, hl) →
      walk pos rest = (round t hl rest).bind (walk (pos + (hl + t.length)))

variable {length hl pos : ℕ} {t : Tlv} {rest rest' : List UInt8} {lvl version11 : Bool}
  {len ret : ℤ} {msg msg' : Msg} {env : Env}

theorem Walks.le {round : Tlv → ℕ → List UInt8 → Walk}
    {walk : ℕ → List UInt8 → Walk} (h : Walks length round walk)
    (hround : ∀ {t : Tlv} {hl : ℕ} {rest rest' : List UInt8}, header? rest = some (t, hl) →
      round t hl rest = .goesOn rest' → rest'.length < rest.length) (n : ℕ) :
    ∀ {pos : ℕ} {rest rest' : List UInt8}, rest.length = n → walk pos rest = .goesOn rest' →
      rest'.length ≤ rest.length := by
  induction n using Nat.strongRecOn with
  | ind n ih =>
    intro pos rest rest' hn hw
    by_cases hpos : pos < length
    · rcases hh : header? rest with _ | p
      · simp [h.cut hpos hh] at hw
      rw [h.next hpos hh] at hw
      obtain ⟨rest₁, hr, hw₁⟩ := Walk.bind_eq_goesOn hw
      have hlt := hround hh hr
      exact (ih rest₁.length (by omega) rfl hw₁).trans hlt.le
    · rw [h.full hpos] at hw
      obtain rfl := Walk.goesOn.inj hw
      exact le_rfl

/-- Resource instances of a multiple resource of `length` bytes, from position `pos` on. -/
def walkMulti (length pos : ℕ) (rest : List UInt8) : Walk :=
  if pos < length then
    match _h : header? rest with
    | none => .cut
    | some (t, hl) =>
      if t.type ≠ .resourceInstance then .stops
      else walkMulti length (pos + (hl + t.length)) (rest.drop (hl + t.length))
  else .goesOn rest
termination_by rest.length
decreasing_by
  have := header?_bounds ‹header? rest = some (t, hl)›
  rw [List.length_drop]
  omega

def walkInstance (t : Tlv) (hl : ℕ) (rest : List UInt8) : Walk :=
  if t.type ≠ .resourceInstance then .stops else .goesOn (rest.drop (hl + t.length))

theorem walks_multi (length : ℕ) : Walks length walkInstance (walkMulti length) where
  full h rest := by rw [walkMulti, if_neg h]
  cut h hh := by
    rw [walkMulti, if_pos h]
    split <;> simp_all
  next {pos rest t hl} h hh := by
    rw [walkMulti, if_pos h]
    split
    · simp_all
    · next t' hl' hh' =>
        obtain ⟨rfl, rfl⟩ := Prod.mk.inj (some_inj.mp (hh.symm.trans hh'))
        rw [walkInstance]
        split_ifs <;> rfl

/-- A multiple resource whose header was read. An empty one takes the TLV behind it. -/
def walkMultiResource (multi : Tlv) (rest : List UInt8) : Walk :=
  if multi.length = 0 then
    match header? rest with
    | none => .cut
    | some (t, hl) => .goesOn (rest.drop (hl + t.length))
  else walkMulti multi.length 0 rest

theorem drop_lt (hh : header? rest = some (t, hl))
    (h : Walk.goesOn (rest.drop (hl + t.length)) = .goesOn rest') : rest'.length < rest.length := by
  have hb := header?_bounds hh
  obtain rfl := Walk.goesOn.inj h
  rw [List.length_drop]
  omega

variable {multi : Tlv} {m : Msg}

theorem walkMultiResource_le
    (h : walkMultiResource multi rest = .goesOn rest') : rest'.length ≤ rest.length := by
  unfold walkMultiResource at h
  split_ifs at h
  · cases hh : header? rest with
    | none => simp [hh] at h
    | some p =>
      rw [hh] at h
      exact (drop_lt hh h).le
  · refine (walks_multi _).le (fun hh hr => ?_) _ rfl h
    rw [walkInstance] at hr
    split_ifs at hr
    exact drop_lt hh hr

theorem walkMultiResource_lt
    (hh : header? rest = some (t, hl)) (h : walkMultiResource t (rest.drop hl) = .goesOn rest') :
    rest'.length < rest.length := by
  have hb := header?_bounds hh
  have := walkMultiResource_le h
  rw [List.length_drop] at this
  omega

/-- The TLVs of an object instance of `length` bytes, from position `pos` on. -/
def walkObject (length pos : ℕ) (rest : List UInt8) : Walk :=
  if pos < length then
    match _h : header? rest with
    | none => .cut
    | some (t, hl) =>
      match t.type with
      | .resource => walkObject length (pos + (hl + t.length)) (rest.drop (hl + t.length))
      | .multiResource =>
        match _hm : walkMultiResource t (rest.drop hl) with
        | .goesOn rest' => walkObject length (pos + (hl + t.length)) rest'
        | w => w
      | _ => .stops
  else .goesOn rest
termination_by rest.length
decreasing_by
  · exact drop_lt ‹header? rest = some (t, hl)› rfl
  · exact walkMultiResource_lt ‹header? rest = some (t, hl)› ‹_›

def walkRound (t : Tlv) (hl : ℕ) (rest : List UInt8) : Walk :=
  match t.type with
  | .resource => .goesOn (rest.drop (hl + t.length))
  | .multiResource => walkMultiResource t (rest.drop hl)
  | _ => .stops

theorem walks_object (length : ℕ) : Walks length walkRound (walkObject length) where
  full h rest := by rw [walkObject, if_neg h]
  cut h hh := by
    rw [walkObject, if_pos h]
    split <;> simp_all
  next {pos rest t hl} h hh := by
    rw [walkObject, if_pos h]
    split
    · simp_all
    next t' hl' hh' =>
      obtain ⟨rfl, rfl⟩ := Prod.mk.inj (some_inj.mp (hh.symm.trans hh'))
      unfold walkRound
      cases t.type with
      | multiResource =>
        dsimp only
        cases walkMultiResource t (rest.drop hl) <;> simp [Walk.bind]
      | _ => rfl

theorem walkObject_le
    (h : walkObject length pos rest = .goesOn rest') : rest'.length ≤ rest.length := by
  refine (walks_object length).le (fun hh hr => ?_) _ rfl h
  unfold walkRound at hr
  split at hr
  · exact drop_lt hh hr
  · exact walkMultiResource_lt hh hr
  · simp at hr

/-- One TLV of the payload behind its header: `lvl` says whether the path reaches an object
instance. -/
def walkTlv (version11 lvl : Bool) (t : Tlv) (hl : ℕ) (rest : List UInt8) : Walk :=
  match t.type with
  | .objectInstance => walkObject t.length 0 (rest.drop hl)
  | .resource => if lvl then .goesOn (rest.drop (hl + t.length)) else .stops
  | .multiResource => if lvl then walkMultiResource t (rest.drop hl) else .stops
  | .resourceInstance =>
    if version11 && lvl then .goesOn (rest.drop (hl + t.length)) else .stops

theorem walkTlv_lt
    (hh : header? rest = some (t, hl)) (h : walkTlv version11 lvl t hl rest = .goesOn rest') :
    rest'.length < rest.length := by
  have hb := header?_bounds hh
  unfold walkTlv at h
  split at h
  · have := walkObject_le h
    rw [List.length_drop] at this
    omega
  · split_ifs at h
    exact drop_lt hh h
  · split_ifs at h
    exact walkMultiResource_lt hh h
  · split_ifs at h
    exact drop_lt hh h

/-- The TLVs of a payload. It ends at the first incomplete header. -/
def walkTop (version11 lvl : Bool) (rest : List UInt8) : Walk :=
  match _h : header? rest with
  | none => .goesOn rest
  | some (t, hl) =>
    match _hm : walkTlv version11 lvl t hl rest with
    | .goesOn rest' => walkTop version11 (lvl || decide (0 < t.length)) rest'
    | w => w
termination_by rest.length
decreasing_by
  exact walkTlv_lt ‹_› ‹_›

/-- **Well-nested payloads**: wherever the TLVs of a container do not yet fill it, another complete
header follows. -/
def WellNested (version11 : Bool) (level : ℕ) (payload : List UInt8) : Prop :=
  walkTop version11 (decide (2 ≤ level)) payload ≠ .cut

theorem walkTop_none (hh : header? rest = none) : walkTop version11 lvl rest = .goesOn rest := by
  rw [walkTop]
  split <;> simp_all

theorem walkTop_some (hh : header? rest = some (t, hl)) :
    walkTop version11 lvl rest = (walkTlv version11 lvl t hl rest).bind
      (walkTop version11 (lvl || decide (0 < t.length))) := by
  rw [walkTop]
  split
  · simp_all
  · next t' hl' hh' =>
      obtain ⟨rfl, rfl⟩ := Prod.mk.inj (some_inj.mp (hh.symm.trans hh'))
      cases hm : walkTlv version11 lvl t hl rest <;> simp [Walk.bind]

/-! ### Runs and walks -/

/-- How a run relates to the walk `w` over the same TLVs. With well-behaved callbacks it acts on
complete headers only, unless the walk is cut short. With read-only resources it follows the walk to
its end. -/
structure Follows (env : Env) (msg msg' : Msg) (ret : ℤ) (w : Walk) : Prop where
  read : env.Good → w ≠ .cut → msg.read = true → msg'.read = true
  rest : env.Good → w ≠ .cut → ret = 0 → w = .goesOn msg'.inp.rest
  lost : env.ReadOnly → w = .cut → msg'.read = false
  zero : env.ReadOnly → ∀ r, w = .goesOn r → ret = 0

section Follows

variable {env : Env} {msg msg₁ msg' : Msg} {ret : ℤ} {w w₁ : Walk}

theorem Follows.cut (h : msg'.read = false) : Follows env msg msg' ret .cut :=
  ⟨fun _ h => absurd rfl h, fun _ h => absurd rfl h, fun _ _ => h, fun _ _ h => by cases h⟩

theorem Follows.stop (hro : ¬ env.ReadOnly) (hret : ret ≠ 0)
    (hread : env.Good → msg.read = true → msg'.read = true) : Follows env msg msg' ret w :=
  ⟨fun hg _ => hread hg, fun _ _ h => absurd h hret, fun h => absurd h hro, fun h => absurd h hro⟩

theorem Follows.step (hread : env.Good → msg.read = true → msg₁.read = true)
    (hw : env.Good → w = w₁) (h : Follows env msg₁ msg' ret w₁) : Follows env msg msg' ret w :=
  ⟨fun hg hc hr => h.read hg (hw hg ▸ hc) (hread hg hr),
    fun hg hc h0 => (hw hg).trans (h.rest hg (hw hg ▸ hc) h0),
    fun hro hc => h.lost hro (hw hro.good ▸ hc), fun hro r hr => h.zero hro r (hw hro.good ▸ hr)⟩

variable {f : List UInt8 → Walk}

theorem Walk.ne_cut_of_bind (h : w.bind f ≠ .cut) : w ≠ .cut := by
  rintro rfl
  exact h rfl

theorem Follows.bind_stop (h : Follows env msg msg' ret w)
    (hret : ret ≠ 0) : Follows env msg msg' ret (w.bind f) := by
  refine ⟨fun hg hc => h.read hg (Walk.ne_cut_of_bind hc), fun _ _ h0 => absurd h0 hret,
    fun hro hc => ?_, fun hro r hr => ?_⟩
  · cases w with
    | cut => exact h.lost hro rfl
    | stops => simp [Walk.bind] at hc
    | goesOn r => exact absurd (h.zero hro r rfl) hret
  · obtain ⟨r₁, hr₁, -⟩ := Walk.bind_eq_goesOn hr
    exact h.zero hro r₁ hr₁

theorem Follows.bind (h : Follows env msg msg₁ 0 w)
    (hk : Keeps msg₁ msg') (h' : Follows env msg₁ msg' ret (f msg₁.inp.rest)) :
    Follows env msg msg' ret (w.bind f) := by
  have hw (hg : env.Good) (hc : w ≠ .cut) : w.bind f = f msg₁.inp.rest := by
    rw [h.rest hg hc rfl]
    rfl
  refine ⟨fun hg hc hr => ?_, fun hg hc h0 => ?_, fun hro hc => ?_, fun hro r hr => ?_⟩
  · have hc₁ := Walk.ne_cut_of_bind hc
    exact h'.read hg (hw hg hc₁ ▸ hc) (h.read hg hc₁ hr)
  · have hc₁ := Walk.ne_cut_of_bind hc
    rw [hw hg hc₁]
    exact h'.rest hg (hw hg hc₁ ▸ hc) h0
  · by_cases hc₁ : w = .cut
    · have hread : ¬ msg₁.read = true := by simp [h.lost hro hc₁]
      exact Bool.eq_false_of_not_eq_true fun hr => hread (hk.read hr)
    · exact h'.lost hro (hw hro.good hc₁ ▸ hc)
  · have hc₁ : w ≠ .cut := by
      rintro rfl
      simp [Walk.bind] at hr
    exact h'.zero hro r (hw hro.good hc₁ ▸ hr)

end Follows

/-! ### Clock of the loops at the end of the payload -/

/-- Behind the end of the payload a position goes down by 61 in every round. -/
def Countdown (k pos : ℕ) : Prop := pos < 2 ^ 32 ∧ (pos + 1) % 2 ^ 32 = 61 * k % 2 ^ 32

theorem exists_countdown (h : pos < 2 ^ 32) : ∃ k, Countdown k pos := by
  -- 3238827797 is the inverse of 61
  refine ⟨3238827797 * (pos + 1), h, ?_⟩
  rw [← mul_assoc, Nat.mul_mod, show 61 * 3238827797 % 2 ^ 32 = 1 by norm_num, one_mul, Nat.mod_mod]

theorem Countdown.zero (h : Countdown 0 pos) (hlen : length < 2 ^ 32) : ¬ pos < length := by
  have := h.1
  have := h.2
  omega

theorem addPos_lt (pos : ℕ) (len : ℤ) : addPos pos len < 2 ^ 32 := by
  unfold addPos
  omega

theorem Countdown.succ {k : ℕ} (h : Countdown (k + 1) pos) :
    Countdown k (addPos pos (-ENODATA)) := by
  obtain ⟨h1, h2⟩ := h
  refine ⟨addPos_lt _ _, ?_⟩
  rw [mul_add, mul_one] at h2
  simp only [addPos, ENODATA]
  norm_num at h1 h2 ⊢
  generalize 61 * k = a at h2 ⊢
  by_cases h : pos < 61
  · rw [show ((pos : ℤ) + -61) % 4294967296 = pos + 4294967235 by omega]
    omega
  · rw [show ((pos : ℤ) + -61) % 4294967296 = pos - 61 by omega]
    omega

theorem addPos_of_lt {n : ℕ} (h : pos + n < 2 ^ 32) (hlen : len = n) :
    addPos pos len = pos + n := by
  unfold addPos
  rw [hlen, Int.emod_eq_of_lt (by omega) (by omega)]
  omega

theorem In.rest_le (inp : In) : inp.rest.length ≤ inp.data.length := by
  simp [In.rest]

/-! ### Resources -/

theorem Msg.act_of_nonneg (h : 0 ≤ len) : msg.act len = msg := by
  simp [Msg.act, h]

theorem Msg.act_of_neg (h : len < 0) : msg.act len = { msg with read := false } := by
  simp [Msg.act, not_le.mpr h]

theorem Ending.fatal (h : Ending ret) (msg : Msg) : msg.fatal ret :=
  ⟨h.1, fun h' => h.2.1 h'.1⟩

theorem not_fatal_zero (msg : Msg) : ¬ msg.fatal 0 := fun h => absurd h.1 (lt_irrefl 0)

theorem Visit.ofPath {stop : Prop} (hv : Visit env m msg' stop)
    (msg : Msg) (hinp : m.inp = msg.inp) (hread : m.read = msg.read) (hign : m.ignores = msg.ignores)
    (hlevel : 2 ≤ m.path.level) : Visit env msg msg' stop ∧ 2 ≤ msg'.path.level := by
  obtain ⟨⟨k1, k2, k3, k4, k5, k6⟩, hs, hf, hg, hl⟩ := hv
  rw [hinp] at k2 k6 hs hf hg hl
  rw [hread] at k5 hg
  rw [hign] at k3
  exact ⟨⟨⟨k1, k2, k3, fun _ => k4 hlevel, k5, k6⟩, hs, hf, hg, hl⟩, k4 hlevel⟩

theorem writeTlvResource_visit (env : Env) (hs : Single msg) (tlv : Tlv) :
    ∃ ret msg', Ends (fun f => writeTlvResource env f msg tlv) (ret, msg') ∧
      Visit env msg msg' (ret ≠ 0) ∧ 2 ≤ msg'.path.level ∧ (env.ReadOnly → ret = 0) := by
  have hs' : Single (msg.setResource tlv.id) := ⟨by simp [Msg.setResource, hs.block], hs.size⟩
  obtain ⟨ret, msg', hends, hv, h0⟩ := item_visit env hs'
  obtain ⟨hv', hlevel⟩ := (hv.ofPath msg rfl rfl rfl (by simp [Msg.setResource]))
  refine ⟨_, msg', hends.bind (.const _), hv'.imp fun he => ?_, hlevel, fun hro => ?_⟩
  · rw [if_pos (he.fatal msg')]
    exact ne_of_lt he.1
  · dsimp only
    rw [h0 hro, if_neg (not_fatal_zero msg')]

theorem writeTlvResourceInstance_visit (env : Env) (hs : Single msg) (tlv : Tlv) :
    ∃ ret msg', Ends (fun f => writeTlvResourceInstance env f msg tlv) (ret, msg') ∧
      Visit env msg msg' (ret ≠ 0) ∧ 2 ≤ msg'.path.level ∧ (env.ReadOnly → ret = 0) := by
  unfold writeTlvResourceInstance
  have hs' : Single { msg with
      path := { msg.path with resInstId := tlv.id, level := 4 }
      block := msg.block.map fun b => { b with resInstId := tlv.id } } :=
    ⟨by simp [hs.block], hs.size⟩
  obtain ⟨ret, msg', hends, hv, h0⟩ := item_visit env hs'
  obtain ⟨hv', hlevel⟩ := (hv.ofPath msg rfl rfl rfl (by simp))
  refine ⟨_, msg', hends.bind (.const _), hv'.imp fun he => ?_, hlevel, fun hro => ?_⟩
  · rw [if_pos he.1]
    exact ne_of_lt he.1
  · dsimp only
    rw [h0 hro, if_neg (lt_irrefl 0)]

/-! ### Loops over a container -/

theorem Keeps.refl (h : msg.block = none) : Keeps msg msg :=
  ⟨h, rfl, rfl, id, id, le_rfl⟩

theorem Keeps.unread (h : msg.block = none) : Keeps msg { msg with read := false } :=
  ⟨h, rfl, rfl, id, fun h => by simp at h, le_rfl⟩

theorem Follows.done : Follows env msg msg 0 (.goesOn msg.inp.rest) :=
  ⟨fun _ _ => id, fun _ _ _ => rfl, fun _ h => (by cases h), fun _ _ _ => rfl⟩

theorem Follows.stops (h : ret ≠ 0) : Follows env msg msg ret .stops :=
  ⟨fun _ _ => id, fun _ _ h0 => absurd h0 h, fun _ h => (by cases h), fun _ _ h => (by cases h)⟩

theorem omaTlvGet_none_true {inp : In} (h : header? inp.rest = none) (tlv : Tlv) :
    ∃ t, omaTlvGet tlv inp true = (-ENODATA, t, inp) ∧ t.length = tlv.length := by
  obtain ⟨h1, h2, h3⟩ := omaTlvGet_none h tlv true
  exact ⟨(omaTlvGet tlv inp true).2.1, Prod.ext h1 (Prod.ext rfl h3), h2⟩

/-- `loop` goes over a container of `length` bytes and repeats `round`. -/
structure Loops (length : ℕ) (round : ℕ → Msg → Tlv → Option ((ℤ × Msg) × Option Tlv))
    (loop : ℕ → ℕ → Tlv → Msg → Option (ℤ × Msg)) : Prop where
  done : ∀ {pos : ℕ} {tlv : Tlv} {msg : Msg}, ¬ pos < length →
    Ends (fun f => loop f pos tlv msg) (0, msg)
  step : ∀ {pos : ℕ} {tlv t : Tlv} {msg : Msg} {len : ℤ} {inp : In}, pos < length →
    omaTlvGet tlv msg.inp true = (len, t, inp) → len ≠ 0 → ∀ f, loop (f + 1) pos tlv msg =
      (round f (msg.act len) t).bind fun r =>
        r.2.elim (some r.1) fun t' => loop f (addPos pos len) t' r.1.2

/-- What one round at the header `t` does; it follows a walk over one TLV. -/
structure Round (env : Env) (walkRound : Tlv → ℕ → List UInt8 → Walk) (msg msg' : Msg) (ret : ℤ)
    (next : Option Tlv) (t : Tlv) : Prop where
  keeps : Keeps msg msg'
  length : ∀ t' ∈ next, t'.length < 2 ^ 32
  level : next.isSome ∨ ret = 0 → 2 ≤ msg'.path.level
  last : next = none → ret ≠ 0
  short : header? msg.inp.rest = none → next = none ∨ msg'.inp.rest = []
  full : ∀ hl, header? msg.inp.rest = some (t, hl) →
    (next = none ∨ msg'.inp.rest.length < msg.inp.rest.length) ∧
      Follows env msg msg' (if next.isSome then 0 else ret) (walkRound t hl msg.inp.rest)

def Rounds (env : Env) (walkRound : Tlv → ℕ → List UInt8 → Walk)
    (round : ℕ → Msg → Tlv → Option ((ℤ × Msg) × Option Tlv)) : Prop :=
  ∀ (msg : Msg) (t : Tlv), Single msg → t.length < 2 ^ 32 → ∃ ret msg' next,
    Ends (fun f => round f msg t) ((ret, msg'), next) ∧ Round env walkRound msg msg' ret next t

section Loops

variable {env : Env} {length : ℕ} {walkRound : Tlv → ℕ → List UInt8 → Walk}
  {walk : ℕ → List UInt8 → Walk} {round : ℕ → Msg → Tlv → Option ((ℤ × Msg) × Option Tlv)}
  {loop : ℕ → ℕ → Tlv → Msg → Option (ℤ × Msg)}

theorem Loops.short (hloop : Loops length round loop) (hround : Rounds env walkRound round)
    {pos : ℕ} {msg : Msg} {tlv : Tlv} (htlv : tlv.length < 2 ^ 32) (hpos : pos < length)
    (hh : header? msg.inp.rest = none) (hs : Single msg)
    (hnext : ∀ t msg₁, t.length < 2 ^ 32 → msg₁.inp.rest = [] → Single msg₁ →
      ∃ ret msg', Ends (fun f => loop f (addPos pos (-ENODATA)) t msg₁) (ret, msg') ∧
        Keeps msg₁ msg') :
    ∃ ret msg', Ends (fun f => loop f pos tlv msg) (ret, msg') ∧ Keeps msg msg' ∧
      (ret = 0 → 2 ≤ msg'.path.level) ∧ msg'.read = false := by
  obtain ⟨t, hget, hlen⟩ := omaTlvGet_none_true hh tlv
  have hstep := hloop.step hpos hget (by decide)
  have hact : msg.act (-ENODATA) = { msg with read := false } := Msg.act_of_neg (by decide)
  simp only [hact] at hstep
  have hk := Keeps.unread hs.block
  obtain ⟨ret, msg₁, next, hends, hr⟩ := hround _ t (hk.single hs) (hlen ▸ htlv)
  have hread : ¬ msg₁.read = true := fun h => by simpa using hr.keeps.read h
  cases next with
  | none =>
    exact ⟨ret, msg₁, .round hstep (hends.bind (.const _)), hk.trans hr.keeps,
      fun h => hr.level (.inr h), Bool.eq_false_of_not_eq_true hread⟩
  | some t' =>
    obtain ⟨ret', msg', hends', hk'⟩ := hnext t' msg₁ (hr.length t' rfl)
      ((hr.short hh).resolve_left (some_ne_none t')) ((hk.trans hr.keeps).single hs)
    exact ⟨ret', msg', .round hstep (hends.bind hends'), (hk.trans hr.keeps).trans hk',
      fun _ => hk'.level (hr.level (.inl rfl)),
      Bool.eq_false_of_not_eq_true fun h => hread (hk'.read h)⟩

theorem Loops.atEnd (hloop : Loops length round loop) (hround : Rounds env walkRound round)
    (hlen : length < 2 ^ 32) (k : ℕ) :
    ∀ (pos : ℕ) (tlv : Tlv) (msg : Msg), Countdown k pos → tlv.length < 2 ^ 32 →
      msg.inp.rest = [] → Single msg →
      ∃ ret msg', Ends (fun f => loop f pos tlv msg) (ret, msg') ∧ Keeps msg msg' := by
  induction k with
  | zero =>
    intro pos tlv msg hk htlv hrest hs
    exact ⟨0, msg, hloop.done (hk.zero hlen), .refl hs.block⟩
  | succ k ih =>
    intro pos tlv msg hk htlv hrest hs
    by_cases hpos : pos < length
    · have hh : header? msg.inp.rest = none := by rw [hrest]; rfl
      obtain ⟨ret, msg', hends, hkeeps, -, -⟩ := hloop.short hround htlv hpos hh hs
        fun t msg₁ => ih _ t msg₁ hk.succ
      exact ⟨ret, msg', hends, hkeeps⟩
    · exact ⟨0, msg, hloop.done hpos, .refl hs.block⟩

/-- **A loop over a container ends**, and it follows the walk over its TLVs. -/
theorem Loops.ends (hloop : Loops length round loop) (hwalk : Walks length walkRound walk)
    (hround : Rounds env walkRound round) (hlen : length < 2 ^ 32) (n : ℕ) :
    ∀ (pos : ℕ) (tlv : Tlv) (msg : Msg), tlv.length < 2 ^ 32 → msg.inp.rest.length = n →
      Single msg →
      ∃ ret msg', Ends (fun f => loop f pos tlv msg) (ret, msg') ∧ Keeps msg msg' ∧
        (pos < length → ret = 0 → 2 ≤ msg'.path.level) ∧
        (length < 2 ^ 24 → Follows env msg msg' ret (walk pos msg.inp.rest)) := by
  induction n using Nat.strongRecOn with
  | ind n ih =>
    intro pos tlv msg htlv hn hs
    by_cases hpos : pos < length
    · rcases hh : header? msg.inp.rest with _ | p
      · obtain ⟨k, hk⟩ := exists_countdown (addPos_lt pos (-ENODATA))
        obtain ⟨ret, msg', hends, hkeeps, hlevel, hread⟩ := hloop.short hround htlv hpos hh hs
          fun t msg₁ => hloop.atEnd hround hlen k _ t msg₁ hk
        refine ⟨ret, msg', hends, hkeeps, fun _ => hlevel, fun _ => ?_⟩
        rw [hwalk.cut hpos hh]
        exact .cut hread
      obtain ⟨t, hl⟩ := p
      have hb := header?_bounds hh
      have hstep := hloop.step hpos (omaTlvGet_some hh tlv true) (by omega)
      have hact : msg.act (hl + t.length) = msg := Msg.act_of_nonneg (by omega)
      simp only [hact] at hstep
      rw [hwalk.next hpos hh]
      obtain ⟨ret, msg₁, next, hends, hr⟩ := hround msg t hs (by omega)
      obtain ⟨hless, hfol⟩ := hr.full hl hh
      cases next with
      | none =>
        exact ⟨ret, msg₁, .round hstep (hends.bind (.const _)), hr.keeps,
          fun _ h => hr.level (.inr h), fun _ => hfol.bind_stop (hr.last rfl)⟩
      | some t' =>
        have hlt := hless.resolve_left (some_ne_none t')
        obtain ⟨ret', msg', hends', hk', -, hfol'⟩ := ih msg₁.inp.rest.length (by omega)
          (addPos pos (hl + t.length)) t' msg₁ (hr.length t' rfl) rfl (hr.keeps.single hs)
        refine ⟨ret', msg', .round hstep (hends.bind hends'), hr.keeps.trans hk',
          fun _ _ => hk'.level (hr.level (.inl rfl)), fun h24 => hfol.bind hk' ?_⟩
        have hle := msg.inp.rest_le
        have hsize := hs.size
        rw [← addPos_of_lt (n := hl + t.length) (by omega) (by push_cast; rfl)]
        exact hfol' h24
    · rw [hwalk.full hpos]
      exact ⟨0, msg, hloop.done hpos, .refl hs.block, fun h => absurd h hpos, fun _ => .done⟩

end Loops

/-! ### Multiple resources -/

/-- Message with which the loop of a multiple resource visits an instance. -/
def Msg.setInstance (msg : Msg) (multi tlv : Tlv) : Msg :=
  { msg with path := { msg.path with resId := multi.id, resInstId := tlv.id, level := 4 } }

def multiRound (env : Env) (multi : Tlv) (f : ℕ) (msg : Msg) (t : Tlv) :
    Option ((ℤ × Msg) × Option Tlv) :=
  if t.type ≠ .resourceInstance then some ((-ENOTSUP, msg), none)
  else (item env f (msg.setInstance multi t)).map fun r =>
    (r, if r.2.fatal r.1 then none else some t)

theorem loops_multi (env : Env) (multi : Tlv) :
    Loops multi.length (multiRound env multi) (multiLoop env multi) where
  done h := .last fun f => by
    rw [multiLoop]
    exact if_neg fun h' => h h'.1
  step {pos tlv t msg len inp} h hget h0 f := by
    rw [multiLoop, hget]
    dsimp only
    rw [if_pos ⟨h, h0⟩, multiRound]
    split_ifs with htype
    · rfl
    · rw [bind_map]
      congr 1
      funext r
      by_cases hf : r.2.fatal r.1 <;> simp [hf]

theorem rounds_multi (env : Env) (multi : Tlv) :
    Rounds env walkInstance (multiRound env multi) := by
  intro msg t hs ht
  unfold multiRound
  by_cases htype : t.type ≠ .resourceInstance
  · simp only [if_pos htype]
    refine ⟨_, _, _, .const _, .refl hs.block, by simp, by simp [ENOTSUP], fun _ => by decide,
      fun _ => .inl rfl, fun hl hh => ⟨.inl rfl, ?_⟩⟩
    rw [walkInstance, if_pos htype]
    exact .stops (by decide)
  have hs' : Single (msg.setInstance multi t) := ⟨hs.block, hs.size⟩
  obtain ⟨ret, msg', hends, hv, h0⟩ := item_visit env hs'
  obtain ⟨hv, hlevel⟩ := (hv.imp fun he => he.fatal msg').ofPath msg rfl rfl rfl
    (by simp [Msg.setInstance])
  have hmap := hends.map fun r => (r, if r.2.fatal r.1 then none else some t)
  have hread {hl : ℕ} (hh : header? msg.inp.rest = some (t, hl)) (hg : env.Good) :=
    (hv.good hg t hl hh).1
  simp only [if_neg htype]
  by_cases hf : msg'.fatal ret
  · have hne : ret ≠ 0 := ne_of_lt hf.1
    rw [if_pos hf] at hmap
    exact ⟨ret, msg', _, hmap, hv.keeps, by simp, fun _ => hlevel, fun _ => hne,
      fun _ => .inl rfl, fun hl hh => ⟨.inl rfl,
        .stop (fun hro => not_fatal_zero msg' (h0 hro ▸ hf)) hne (hread hh)⟩⟩
  rw [if_neg hf] at hmap
  refine ⟨ret, msg', _, hmap, hv.keeps, fun t' h => some_inj.mp h ▸ ht, fun _ => hlevel,
    by simp, fun hh => .inr ((hv.short hh).resolve_left hf), fun hl hh => ?_⟩
  have hb := header?_bounds hh
  have hlt := (hv.full t hl hh).resolve_left hf
  rw [walkInstance, if_neg htype]
  refine ⟨.inr (by omega), fun hg _ => hread hh hg, fun hg _ _ => ?_, fun _ h => (by cases h),
    fun _ _ _ => rfl⟩
  rw [(hv.good hg t hl hh).2.resolve_left hf]

theorem Keeps.ofBlock (hk : Keeps m msg') (hinp : m.inp = msg.inp)
    (hpath : m.path.level = msg.path.level) (hread : m.read = msg.read)
    (hign : m.ignores = msg.ignores) : Keeps msg msg' :=
  ⟨hk.block, hinp ▸ hk.data, hign ▸ hk.ignores, hpath ▸ hk.level, hread ▸ hk.read, hinp ▸ hk.rest⟩

theorem Visit.follows (hv : Visit env msg msg' (ret ≠ 0)) (h0 : env.ReadOnly → ret = 0)
    (hh : header? msg.inp.rest = some (t, hl)) :
    Follows env msg msg' ret (.goesOn (msg.inp.rest.drop (hl + t.length))) :=
  ⟨fun hg _ => (hv.good hg t hl hh).1,
    fun hg _ hret => by rw [(hv.good hg t hl hh).2.resolve_left (not_not.mpr hret)],
    fun _ h => (by cases h), fun hro _ _ => h0 hro⟩

theorem multiResource_ends (env : Env) (hlen : multi.length < 2 ^ 32) (hs : Single msg) :
    ∃ ret msg', Ends (fun f => multiResourceTlvParse env f msg multi) (ret, msg') ∧
      Keeps msg msg' ∧ (ret = 0 → 2 ≤ msg'.path.level) ∧
      (multi.length < 2 ^ 24 →
        Follows env msg msg' ret (walkMultiResource multi msg.inp.rest)) := by
  obtain ⟨inp, path, block, b, c, tick, read⟩ := msg
  obtain rfl : block = none := hs.block
  unfold multiResourceTlvParse walkMultiResource
  dsimp only [map_none]
  by_cases h0 : multi.length = 0
  · simp only [if_pos h0]
    obtain ⟨ret, msg', hends, hv, hlevel, hro⟩ := writeTlvResource_visit env ⟨rfl, hs.size⟩ multi
    refine ⟨ret, msg', hends, hv.keeps, fun _ => hlevel, fun _ => ?_⟩
    cases hh : header? inp.rest with
    | none =>
      exact ⟨fun _ h => absurd rfl h, fun _ h => absurd rfl h, fun h _ => hv.lost h hh,
        fun _ _ h => (by cases h)⟩
    | some p => exact hv.follows hro hh
  simp only [if_neg h0]
  obtain ⟨ret, msg', hends, hk, hlevel, hfol⟩ := (loops_multi env multi).ends
    (walks_multi multi.length) (rounds_multi env multi) hlen _ 0 (env.stack tick)
    ⟨inp, path, none, b, c, tick + 1, read⟩ (env.stack_lt tick) rfl ⟨rfl, hs.size⟩
  refine ⟨ret, msg', hends, hk.ofBlock rfl rfl rfl rfl, hlevel (by omega), fun h24 => ?_⟩
  refine Follows.step ?_ ?_ (hfol h24)
  · exact fun _ h => h
  · exact fun _ => rfl

/-! ### Object instances -/

/-- The work of one round of the loop over an object instance. -/
def objectRound (env : Env) (f : ℕ) (msg : Msg) (t : Tlv) : Option ((ℤ × Msg) × Tlv) :=
  match t.type with
  | .resource => (writeTlvResource env f msg t).map fun r => (r, t)
  | .multiResource =>
    let g := omaTlvGet t msg.inp false
    (multiResourceTlvParse env f { msg with inp := g.2.2 } g.2.1).map fun r => (r, g.2.1)
  | _ => some ((-ENOTSUP, msg), t)

theorem loops_object (env : Env) (length : ℕ) :
    Loops length (fun f msg t => (objectRound env f msg t).map fun r =>
      (r.1, if r.1.1 ≠ 0 then none else some r.2)) (objectLoop env length) where
  done h := .last fun f => by
    rw [objectLoop]
    exact if_neg fun h' => h h'.1
  step {pos tlv t msg len inp} h hget h0 f := by
    rw [objectLoop, hget]
    dsimp only
    rw [if_pos ⟨h, h0⟩, objectRound]
    cases t.type with
    | resource | multiResource =>
      simp only [bind_map, map_map]
      congr 1
      funext r
      by_cases hr : r.1 = 0 <;> simp [hr]
    | _ => simp [ENOTSUP]

theorem keeps_header (hblock : msg.block = none) (tlv : Tlv) :
    Keeps msg { msg with inp := (omaTlvGet tlv msg.inp false).2.2 } ∧
      (header? msg.inp.rest = none → (omaTlvGet tlv msg.inp false).2.2.rest = []) := by
  cases hh : header? msg.inp.rest with
  | none =>
    rw [(omaTlvGet_none hh tlv false).2.2, advance_false]
    exact ⟨⟨hblock, rfl, rfl, id, id, by simp⟩, fun _ => by simp⟩
  | some p =>
    rw [omaTlvGet_some hh, advance_false]
    exact ⟨⟨hblock, rfl, rfl, id, id, by simp⟩, fun h => by simp at h⟩

theorem multi_round (env : Env) (hs : Single msg) (ht : t.length < 2 ^ 32) :
    ∃ ret msg', Ends (fun f => multiResourceTlvParse env f
        { msg with inp := (omaTlvGet t msg.inp false).2.2 } (omaTlvGet t msg.inp false).2.1)
        (ret, msg') ∧ Keeps msg msg' ∧ (ret = 0 → 2 ≤ msg'.path.level) ∧
      (header? msg.inp.rest = none → msg'.inp.rest = []) ∧
      (∀ hl, header? msg.inp.rest = some (t, hl) → msg'.inp.rest.length < msg.inp.rest.length ∧
          Follows env msg msg' ret (walkMultiResource t (msg.inp.rest.drop hl))) := by
  obtain ⟨hk, hend⟩ := keeps_header hs.block t
  obtain ⟨ret, msg', hends, hk', hlevel, hfol⟩ :=
    multiResource_ends env (length_omaTlvGet_lt ht msg.inp false) (hk.single hs)
  refine ⟨ret, msg', hends, hk.trans hk', hlevel, fun hh => ?_, fun hl hh => ?_⟩
  · have := hk'.rest
    rw [show (omaTlvGet t msg.inp false).2.2.rest = [] from hend hh] at this
    exact List.length_eq_zero_iff.mp (Nat.le_zero.mp this)
  have hb := header?_bounds hh
  have hrest := hk'.rest
  rw [omaTlvGet_some hh] at hfol hrest
  dsimp only [advance_false] at hrest hfol
  rw [In.rest_skip, List.length_drop] at hrest
  have hf := hfol hb.2.2
  rw [In.rest_skip] at hf
  refine ⟨by omega, Follows.step ?_ ?_ hf⟩
  · exact fun _ h => h
  · exact fun _ => rfl

theorem Round.ofKeeps {t' : Tlv}
    (hk : Keeps msg msg') (ht' : t'.length < 2 ^ 32) (hlevel : ret = 0 → 2 ≤ msg'.path.level)
    (hshort : header? msg.inp.rest = none → ret ≠ 0 ∨ msg'.inp.rest = [])
    (hfull : ∀ hl, header? msg.inp.rest = some (t, hl) →
      (ret ≠ 0 ∨ msg'.inp.rest.length < msg.inp.rest.length) ∧
        Follows env msg msg' ret (walkRound t hl msg.inp.rest)) :
    Round env walkRound msg msg' ret (if ret ≠ 0 then none else some t') t := by
  by_cases h0 : ret = 0
  · subst h0
    exact ⟨hk, fun t₁ h => some_inj.mp h ▸ ht', fun _ => hlevel rfl, by simp,
      fun hh => .inr ((hshort hh).resolve_left (not_not.mpr rfl)),
      fun hl hh => ⟨.inr ((hfull hl hh).1.resolve_left (not_not.mpr rfl)), (hfull hl hh).2⟩⟩
  · rw [if_pos h0]
    exact ⟨hk, by simp, by simpa using hlevel, fun _ => h0, fun _ => .inl rfl,
      fun hl hh => ⟨.inl rfl, (hfull hl hh).2⟩⟩

theorem rounds_object (env : Env) : Rounds env walkRound fun f msg t =>
    (objectRound env f msg t).map fun r => (r.1, if r.1.1 ≠ 0 then none else some r.2) := by
  intro msg t hs ht
  suffices h : ∃ ret msg' t', Ends (fun f => objectRound env f msg t) ((ret, msg'), t') ∧
      Round env walkRound msg msg' ret (if ret ≠ 0 then none else some t') t by
    obtain ⟨ret, msg', t', hends, hr⟩ := h
    exact ⟨ret, msg', _, hends.map _, hr⟩
  unfold objectRound
  cases htype : t.type with
  | resource =>
    obtain ⟨ret, msg', hends, hv, hlevel, hro⟩ := writeTlvResource_visit env hs t
    refine ⟨ret, msg', t, hends.map _, .ofKeeps hv.keeps ht (fun _ => hlevel) hv.short
      fun hl hh => ?_⟩
    have hb := header?_bounds hh
    refine ⟨(hv.full t hl hh).imp_right fun h => by omega, ?_⟩
    simp only [walkRound, htype]
    exact hv.follows hro hh
  | multiResource =>
    obtain ⟨ret, msg', hends, hk, hlevel, hshort, hfull⟩ := multi_round env hs ht
    refine ⟨ret, msg', _, hends.map _, .ofKeeps hk (length_omaTlvGet_lt ht msg.inp false) hlevel
      (fun hh => .inr (hshort hh)) fun hl hh => ⟨.inr (hfull hl hh).1, ?_⟩⟩
    simp only [walkRound, htype]
    exact (hfull hl hh).2
  | _ =>
    refine ⟨-ENOTSUP, msg, t, .const _, .ofKeeps (.refl hs.block) ht (by simp [ENOTSUP])
      (fun _ => .inl (by decide)) fun hl hh => ⟨.inl (by decide), ?_⟩⟩
    simp only [walkRound, htype]
    exact .stops (by decide)

/-! ### Payload -/

structure TopStep (env : Env) (msg msg' : Msg) (ret : ℤ) (t : Tlv) (hl : ℕ) : Prop where
  keeps : Keeps msg msg'
  less : ret = 0 → msg'.inp.rest.length < msg.inp.rest.length
  level : ret = 0 → (decide (2 ≤ msg'.path.level) =
    (decide (2 ≤ msg.path.level) || decide (0 < t.length)))
  follows : Follows env msg msg' ret
    (walkTlv env.version11 (decide (2 ≤ msg.path.level)) t hl msg.inp.rest)

theorem objectInstance_ends (env : Env) (hs : Single msg)
    (htype : t.type = .objectInstance) (hh : header? msg.inp.rest = some (t, hl)) :
    ∃ ret msg', Ends (fun f => objectInstance env f msg t) (ret, msg') ∧
      TopStep env msg msg' ret t hl := by
  have hb := header?_bounds hh
  have hk : Keeps msg { msg with
      inp := msg.inp.skip hl, path := { msg.path with objInstId := t.id } } :=
    ⟨hs.block, rfl, rfl, id, id, by simp⟩
  have hw : walkTlv env.version11 (decide (2 ≤ msg.path.level)) t hl msg.inp.rest =
      walkObject t.length 0 (msg.inp.rest.drop hl) := by simp only [walkTlv, htype]
  unfold objectInstance
  simp only [omaTlvGet_some hh, advance_false]
  by_cases hc : t.length = 0 ∧ (env.answer msg.tick).createObj < 0
  · simp only [if_pos hc]
    refine ⟨_, _, .const _, hk, fun h => ?_, fun h => ?_, .stop (fun hro => ?_) ?_ fun _ h => h⟩
    · omega
    · omega
    · exact absurd (hro.createObj msg.tick) (not_le.mpr hc.2)
    · exact ne_of_lt hc.2
  simp only [if_neg hc]
  obtain ⟨ret, msg', hends, hk', hlevel, hfol⟩ := (loops_object env t.length).ends
    (walks_object t.length) (rounds_object env) (by omega) _ 0 (env.stack msg.tick) { msg with
      inp := msg.inp.skip hl, path := { msg.path with objInstId := t.id }, tick := msg.tick + 1 }
    (env.stack_lt msg.tick) rfl ⟨hs.block, hs.size⟩
  replace hfol := hfol hb.2.2
  have hrest := hk'.rest
  dsimp only at hrest
  rw [In.rest_skip, List.length_drop] at hrest
  refine ⟨ret, msg', hends, hk.trans (hk'.ofBlock rfl rfl rfl rfl), fun _ => by omega,
    fun h0 => ?_, ?_⟩
  · rcases Nat.eq_zero_or_pos t.length with ht | ht
    · have heq := hends.unique ((loops_object env t.length).done (by omega))
      obtain ⟨-, rfl⟩ := Prod.mk.inj heq
      simp [ht]
    · simp [ht, hlevel ht h0]
  rw [hw]
  rw [In.rest_skip] at hfol
  refine Follows.step ?_ ?_ hfol
  · exact fun _ h => h
  · exact fun _ => rfl

theorem TopStep.ofVisit (hv : Visit env msg msg' (ret ≠ 0)) (h0 : env.ReadOnly → ret = 0)
    (hh : header? msg.inp.rest = some (t, hl)) (hlevel : 2 ≤ msg'.path.level)
    (hlevel₀ : 2 ≤ msg.path.level)
    (hw : walkTlv env.version11 (decide (2 ≤ msg.path.level)) t hl msg.inp.rest =
      .goesOn (msg.inp.rest.drop (hl + t.length))) : TopStep env msg msg' ret t hl := by
  have hb := header?_bounds hh
  refine ⟨hv.keeps, fun hret => ?_, fun _ => by simp [hlevel, hlevel₀], hw ▸ hv.follows h0 hh⟩
  have := (hv.full t hl hh).resolve_left (not_not.mpr hret)
  omega

theorem TopStep.ofStops (hblock : msg.block = none) (hret : ret ≠ 0)
    (hw : walkTlv env.version11 (decide (2 ≤ msg.path.level)) t hl msg.inp.rest = .stops) :
    TopStep env msg msg ret t hl :=
  ⟨.refl hblock, fun h => absurd h hret, fun h => absurd h hret, hw ▸ .stops hret⟩

theorem topTlv_ends (env : Env) (hs : Single msg) (hh : header? msg.inp.rest = some (t, hl)) :
    ∃ ret msg', Ends (fun f => topTlv env f msg t) (ret, msg') ∧ TopStep env msg msg' ret t hl := by
  have hb := header?_bounds hh
  unfold topTlv
  cases htype : t.type with
  | objectInstance => exact objectInstance_ends env hs htype hh
  | resource =>
    dsimp only
    by_cases hl2 : msg.path.level < 2
    · simp only [if_pos hl2]
      exact ⟨_, _, .const _, .ofStops hs.block (by decide) (by simp [walkTlv, htype, hl2])⟩
    · simp only [if_neg hl2]
      obtain ⟨ret, msg', hends, hv, hlevel, hro⟩ := writeTlvResource_visit env hs t
      exact ⟨ret, msg', hends, .ofVisit hv hro hh hlevel (not_lt.mp hl2)
        (by simp [walkTlv, htype, not_lt.mp hl2])⟩
  | multiResource =>
    dsimp only
    by_cases hl2 : msg.path.level < 2
    · simp only [if_pos hl2]
      exact ⟨_, _, .const _, .ofStops hs.block (by decide) (by simp [walkTlv, htype, hl2])⟩
    simp only [if_neg hl2]
    have hl2' := not_lt.mp hl2
    obtain ⟨ret, msg', hends, hk, hlevel, -, hfull⟩ :=
      multi_round env hs (show t.length < 2 ^ 32 by omega)
    obtain ⟨hlt, hfol⟩ := hfull hl hh
    refine ⟨ret, msg', hends, hk, fun _ => hlt, fun h => by simp [hlevel h, hl2'], ?_⟩
    simpa [walkTlv, htype, hl2'] using hfol
  | resourceInstance =>
    dsimp only
    by_cases hv11 : env.version11 = false ∨ msg.path.level < 2
    · simp only [if_pos hv11]
      refine ⟨_, _, .const _, .ofStops hs.block (by decide) ?_⟩
      rcases hv11 with h | h <;> simp [walkTlv, htype, h]
    simp only [if_neg hv11]
    have hv1 : env.version11 = true := by
      cases h : env.version11 with
      | false => exact absurd (.inl h) hv11
      | true => rfl
    have hl2 : 2 ≤ msg.path.level := by
      by_contra h
      exact hv11 (.inr (by omega))
    obtain ⟨ret, msg', hends, hv, hlevel, hro⟩ :=
      writeTlvResourceInstance_visit env hs t
    exact ⟨ret, msg', hends, .ofVisit hv hro hh hlevel hl2 (by simp [walkTlv, htype, hl2, hv1])⟩

/-- **The outer loop ends**, and it follows the walk over the payload. -/
theorem topLoop_ends (env : Env) (n : ℕ) : ∀ (tlv : Tlv) (msg : Msg), msg.inp.rest.length = n →
    Single msg →
    ∃ ret msg', Ends (fun f => topLoop env f tlv msg) (ret, msg') ∧ Keeps msg msg' ∧
      Follows env msg msg' ret
        (walkTop env.version11 (decide (2 ≤ msg.path.level)) msg.inp.rest) := by
  induction n using Nat.strongRecOn with
  | ind n ih =>
    intro tlv msg hn hs
    rcases hh : header? msg.inp.rest with _ | p
    · refine ⟨0, msg, .last fun f => ?_, .refl hs.block, ?_⟩
      · rw [topLoop, (omaTlvGet_none hh tlv true).1]
        rfl
      · rw [walkTop_none hh]
        exact .done
    obtain ⟨t, hl⟩ := p
    have hround (f : ℕ) : topLoop env (f + 1) tlv msg = (topTlv env f msg t).bind
        fun r => if r.1 ≠ 0 then some r else topLoop env f t r.2 := by
      rw [topLoop, omaTlvGet_some hh]
      dsimp only
      rw [if_neg (by omega), Msg.act_of_nonneg (by omega)]
    obtain ⟨ret, msg₁, hends, hstep⟩ := topTlv_ends env hs hh
    rw [walkTop_some hh]
    by_cases h0 : ret ≠ 0
    · exact ⟨ret, msg₁, .round hround (hends.bind (.congr (fun f => if_pos h0) (.const _))),
        hstep.keeps, hstep.follows.bind_stop h0⟩
    have hz := not_not.mp h0
    have hlt := hstep.less hz
    obtain ⟨ret', msg', hends', hk', hfol'⟩ :=
      ih msg₁.inp.rest.length (by omega) t msg₁ rfl (hstep.keeps.single hs)
    rw [hstep.level hz] at hfol'
    exact ⟨ret', msg', .round hround (hends.bind (.congr (fun f => if_neg h0) hends')),
      hstep.keeps.trans hk', (hz ▸ hstep.follows).bind hk' hfol'⟩

/-! ### Whole operation -/

/-- A write request that is not part of a block transfer. -/
def request (inp : In) (path : ObjPath) (bootstrapMode create : Bool) : Msg :=
  ⟨inp, path, none, bootstrapMode, create, 0, true⟩

/-- The answers for a read-only resource that every lookup finds. -/
def readOnlyAnswer : Answer :=
  ⟨0, 0, 0, false, 0, ⟨true, true, 1, .u8, none, none, 0⟩⟩

/-- An engine in which every resource is read-only. -/
def readOnlyEnv (version11 : Bool) : Env where
  version11 := version11
  answer _ := readOnlyAnswer
  stack _ := ⟨.resource, 0, 0⟩
  stack_lt _ := Nat.two_pow_pos 32

theorem readOnlyEnv_readOnly (version11 : Bool) : (readOnlyEnv version11).ReadOnly where
  good _ := ⟨show 1 ≤ 65536 by decide, fun n f h => (by cases h), fun f h => (by cases h),
    .inl le_rfl⟩
  createObj _ := le_rfl
  getObj _ := le_rfl
  access _ := le_rfl
  getRes _ := le_rfl
  readOnly _ := rfl

def constEnv (res : Resource) : Env where
  version11 := false
  answer _ := ⟨0, 0, 0, false, 0, res⟩
  stack _ := ⟨.resource, 0, 0⟩
  stack_lt _ := Nat.two_pow_pos 32

def opaqueRes : Resource := ⟨false, true, 16, .opaqueData, none, none, 0⟩

/-- A byte whose post-write callback returns `-ENOENT`. -/
def missingRes : Resource := ⟨false, true, 1, .u8, none, some fun _ => -ENOENT, 0⟩

/-- First block of a transfer, with two opaque resources of one byte. -/
def blockRequest : Msg :=
  ⟨⟨[0xc1, 5, 0xaa, 0xc1, 6, 0xbb], 0⟩, ⟨0, 0, 0, 2⟩, some ⟨0, 0, ⟨0, 0⟩, 0, 0⟩, false, false, 0, true⟩

/-- In front of the second resource, with the position of the first one still in the block
context. -/
structure Stuck (msg : Msg) : Prop where
  inp : msg.inp = ⟨[0xc1, 5, 0xaa, 0xc1, 6, 0xbb], 3⟩
  level : ¬ msg.path.level < 2
  block : ∃ b, msg.block = some b ∧ b.context = ⟨1, 1⟩ ∧ b.totalSize = 0

theorem Stuck.step (h : Stuck msg) (f : ℕ) :
    ∃ msg', Stuck msg' ∧ topTlv (constEnv opaqueRes) (f + 1) msg ⟨.resource, 6, 1⟩ =
      some (0, msg') := by
  obtain ⟨inp, ⟨oi, ri, rii, level⟩, block, b, c, tick, read⟩ := msg
  obtain ⟨rfl, hlevel, ⟨cur, total, ctx, r₁, r₂⟩, rfl, hctx, htotal⟩ := h
  obtain rfl : ctx = ⟨1, 1⟩ := hctx
  obtain rfl : total = 0 := htotal
  refine ⟨⟨⟨[0xc1, 5, 0xaa, 0xc1, 6, 0xbb], 3⟩, ⟨oi, 6, rii, 3⟩, some ⟨cur, 0, ⟨1, 1⟩, 6, r₂⟩, b, c,
    tick + 1, read⟩, ⟨rfl, show ¬ 3 < 2 by decide, _, rfl, rfl, rfl⟩, ?_⟩
  exact if_neg hlevel

theorem Stuck.step_zero (h : Stuck msg) :
    topTlv (constEnv opaqueRes) 0 msg ⟨.resource, 6, 1⟩ = none := by
  obtain ⟨inp, ⟨oi, ri, rii, level⟩, block, b, c, tick, read⟩ := msg
  obtain ⟨rfl, hlevel, ⟨cur, total, ctx, r₁, r₂⟩, rfl, hctx, htotal⟩ := h
  obtain rfl : ctx = ⟨1, 1⟩ := hctx
  obtain rfl : total = 0 := htotal
  exact if_neg hlevel

theorem Stuck.topLoop (h : Stuck msg) (f : ℕ) (tlv : Tlv) :
    OmaTlv.topLoop (constEnv opaqueRes) f tlv msg = none := by
  induction f generalizing msg tlv with
  | zero => rfl
  | succ f ih =>
    have hh : header? msg.inp.rest = some (⟨.resource, 6, 1⟩, 2) := by
      rw [h.inp]
      decide
    rw [OmaTlv.topLoop, omaTlvGet_some hh]
    dsimp only
    rw [if_neg (by decide), Msg.act_of_nonneg (by decide)]
    rcases f with _ | f
    · rw [h.step_zero, bind_none]
    obtain ⟨msg', h', heq⟩ := h.step f
    rw [heq, bind_some]
    exact ih h' _

end TlZephyr.OmaTlv
