import TlZephyr.NetPktString

/-!
# Pulling Data out of Packets

`net_pkt_pull` removes data at the cursor. Inside of a buffer it moves the rest of the buffer up. Once
the data up to the end of the cursor's buffer is removed, it takes a buffer out of the packet and
starts over at the front. The buffer it takes out is the first one of the packet, whichever the cursor
was in.
-/

namespace TlZephyr

open List

namespace NetPkt

open Memory LinkedChain

/-! ### Strings -/

/-- String without `n` bytes from offset `o` on. -/
def cut (s : List UInt8) (o n : ℕ) : List UInt8 := s.take o ++ s.drop (o + n)

section cut

variable {s p x t : List UInt8} {o n : ℕ}

theorem cut_eq (hx : x.length = n) : cut (p ++ (x ++ t)) p.length n = p ++ t := by
  rw [cut, take_left, ← hx, ← length_append, ← append_assoc, drop_left]

@[simp] theorem cut_zero : cut s o 0 = s := take_append_drop o s

@[simp] theorem cut_start : cut s 0 n = s.drop n := by
  rw [cut, take_zero, nil_append, Nat.zero_add]

theorem length_cut (h : o + n ≤ s.length) : (cut s o n).length = s.length - n := by
  rw [cut, length_append, length_take, length_drop]
  omega

theorem cut_append_append (h : o + n ≤ x.length) :
    p ++ (cut x o n ++ t) = cut (p ++ (x ++ t)) (p.length + o) n := by
  obtain ⟨x₁, x₂, x₃, rfl, rfl, hx⟩ := exists_parts x o n h
  rw [cut_eq hx, ← length_append]
  simp only [append_assoc]
  rw [← append_assoc p x₁ (x₂ ++ (x₃ ++ t)), cut_eq hx, append_assoc]

end cut

/-! ### Rest of a buffer -/

/-- Bytes from offset `o` to the end of the buffer that holds it, for buffers of these lengths. -/
def leftAt : List ℕ → ℕ → ℕ
  | [], _ => 0
  | n :: ns, o => if o < n then n - o else leftAt ns (o - n)

def lens (pkt : Pkt) (l : List ℕ) : List ℕ := l.map fun b => (pkt.bufs b).len

section leftAt

variable {pkt : Pkt} {l l₁ l₂ : List ℕ} {ns : List ℕ} {b o pos n : ℕ}

theorem leftAt_append (o : ℕ) (h : o < n) : leftAt (ns ++ n :: l) (ns.sum + o) = n - o := by
  induction ns with
  | nil => rw [nil_append, sum_nil, Nat.zero_add, leftAt, if_pos h]
  | cons m ns ih =>
    rw [cons_append, leftAt, sum_cons, if_neg (by omega), Nat.add_assoc,
      Nat.add_sub_cancel_left, ih]

theorem length_str (pkt : Pkt) (l : List ℕ) : (str pkt.bufs l).length = (lens pkt l).sum := by
  rw [str, length_flatMap, lens]
  simp only [length_contents]

theorem leftAt_eq (l₂ : List ℕ) (ho : o = (str pkt.bufs l₁).length + pos) (hlt : pos < (pkt.bufs b).len) :
    leftAt (lens pkt (l₁ ++ b :: l₂)) o = (pkt.bufs b).len - pos := by
  rw [ho, length_str, lens, map_append, map_cons]
  exact leftAt_append pos hlt

end leftAt

/-! ### One round -/

section rounds

variable {pkt pkt' : Pkt} {l : List ℕ} {o fuel rounds length : ℕ}

theorem Dropped.of_unrefs (h : WF pkt' l) (hunrefs : pkt'.unrefs = pkt.unrefs) :
    Dropped pkt pkt' l l :=
  ⟨h, [], by rw [hunrefs, append_nil], by rw [append_nil]⟩

theorem advance_to_byte (h : WF pkt l) (hcur : CursorAt pkt l o) (hfuel : l.length ≤ fuel)
    (ho : o < (str pkt.bufs l).length) :
    ∃ l₁ b l₂ pos, l = l₁ ++ b :: l₂ ∧
      pktCursorAdvance fuel pkt false = some { pkt with cursorBuf := some b, cursorPos := pos } ∧
      o = (str pkt.bufs l₁).length + pos ∧ pos < (pkt.bufs b).len := by
  obtain ⟨c, pos, hadv, hready⟩ := pktCursorAdvance_spec h hcur hfuel
  rcases hready with ⟨-, hend⟩ | ⟨l₁, b, l₂, hl, ⟨hc, hoff⟩, hlt⟩
  · exact absurd hend ho.ne
  · dsimp only at hc hoff hlt
    subst hc
    exact ⟨l₁, b, l₂, pos, hl, hadv, hoff, hlt⟩

theorem pullLoop_inside (rounds : ℕ) (h : WF pkt l) (hcur : CursorAt pkt l o) (hfuel : l.length ≤ fuel)
    (ho : o < (str pkt.bufs l).length) (hpos : 0 < length)
    (hlength : length < leftAt (lens pkt l) o) :
    ∃ pkt', pullLoop fuel (rounds + 1) pkt length = pullLoop fuel rounds pkt' 0 ∧
      Dropped pkt pkt' l l ∧ str pkt'.bufs l = cut (str pkt.bufs l) o length := by
  obtain ⟨l₁, b, l₂, pos, rfl, hadv, hoff, hlt⟩ := advance_to_byte h hcur hfuel ho
  rw [leftAt_eq l₂ hoff hlt] at hlength
  have hfits := h.fits b (by simp)
  generalize hpkt' : Pkt.set { pkt with cursorBuf := some b, cursorPos := pos } b { pkt.bufs b with
    len := (pkt.bufs b).len - length
    data := moveBytes (pkt.bufs b).data pos (pos + length)
      ((pkt.bufs b).len - pos - length) } = pkt'
  have hwf : WF pkt' (l₁ ++ b :: l₂) := by
    rw [← hpkt']
    exact (h.moved (some b) pos).set rfl ((Nat.sub_le _ _).trans hfits) rfl
  have hunrefs : pkt'.unrefs = pkt.unrefs := by rw [← hpkt', Pkt.set]
  refine ⟨pkt', ?_, Dropped.of_unrefs hwf hunrefs, ?_⟩
  · rw [pullLoop, if_neg hpos.ne', hadv]
    have hleft : ¬ (pkt.bufs b).len - pos = 0 := by omega
    have hrest : (pkt.bufs b).len - pos - length ≠ 0 := by omega
    simp only [Option.bind_eq_bind, Option.bind_some, if_neg hleft, if_pos hlength, if_pos hrest,
      hpkt', Nat.sub_self]
  have hmove := loadBytes_remove (m := (pkt.bufs b).data) (Nat.le_add_right pos length)
    (by omega : pos + length ≤ (pkt.bufs b).len)
  rw [Nat.add_sub_cancel_left, ← Nat.sub_sub] at hmove
  rw [← hpkt', Pkt.set, str_update h.nodup]
  simp only [NetBuf.contents]
  rw [hmove, ← cut, ← NetBuf.contents, cut_append_append (by rw [length_contents]; omega), hoff,
    str_append, str_cons]

/-- A round that removes the rest of a buffer takes the first buffer out, with its bytes. -/
theorem pullLoop_end {f : ℕ} {rest : List ℕ} (h : WF pkt (f :: rest))
    (hcur : CursorAt pkt (f :: rest) o) (hfuel : (f :: rest).length ≤ fuel)
    (ho : o < (str pkt.bufs (f :: rest)).length)
    (hlength : leftAt (lens pkt (f :: rest)) o ≤ length) :
    ∃ pkt', pullLoop fuel (rounds + 1) pkt length =
        pullLoop fuel rounds pkt' (length - leftAt (lens pkt (f :: rest)) o) ∧
      Dropped pkt pkt' (f :: rest) rest ∧ CursorAt pkt' rest 0 ∧
      str pkt'.bufs rest = (cut (str pkt.bufs (f :: rest)) o
        (leftAt (lens pkt (f :: rest)) o)).drop (min (pkt.bufs f).len o) := by
  obtain ⟨l₁, b, l₂, pos, hl, hadv, hoff, hlt⟩ := advance_to_byte h hcur hfuel ho
  have hleft := leftAt_eq l₂ hoff hlt
  rw [← hl] at hleft
  rw [hleft] at hlength ⊢
  have hfits := h.fits b (by simp [hl])
  generalize hpkt₁ : Pkt.set { pkt with cursorBuf := some b, cursorPos := pos } b { pkt.bufs b with
    len := (pkt.bufs b).len - ((pkt.bufs b).len - pos) } = pkt₁
  have hwf : WF pkt₁ (f :: rest) := by
    rw [← hpkt₁]
    exact (h.moved (some b) pos).set rfl ((Nat.sub_le _ _).trans hfits) rfl
  have hunrefs : pkt₁.unrefs = pkt.unrefs := by rw [← hpkt₁, Pkt.set]
  have hstr : str pkt₁.bufs (f :: rest) =
      cut (str pkt.bufs (f :: rest)) o ((pkt.bufs b).len - pos) := by
    have hnodup := h.nodup
    rw [hl] at hnodup ⊢
    rw [← hpkt₁, Pkt.set, str_update hnodup, contents_shorter _ (Nat.sub_le _ _),
      Nat.sub_sub_self hlt.le, hoff, str_append, str_cons,
      ← cut_append_append (by rw [length_contents]; omega), cut, Nat.add_sub_cancel' hlt.le,
      drop_of_length_le (length_contents _).le, append_nil]
  have hfirst : (pkt₁.bufs f).len = min (pkt.bufs f).len o := by
    rw [← hpkt₁]
    cases l₁ with
    | nil =>
      cases hl
      rw [Pkt.set_bufs_self]
      simp at hoff
      dsimp only
      omega
    | cons c l₁ =>
      cases hl
      have hne : f ≠ b := fun heq => by
        have := h.nodup
        simp [heq] at this
      rw [Pkt.set_bufs_of_ne hne]
      simp at hoff
      dsimp only
      omega
  obtain ⟨pkt', hunref, hdrop, hstr', -⟩ := unlink_first hwf
    (Nat.lt_of_lt_of_le (Nat.succ_pos _) hfuel)
  refine ⟨netPktCursorInit pkt', ?_, ?_, cursorAt_init hdrop.wf, ?_⟩
  · have hbuffer : pkt₁.buffer = some f := hwf.chain.1
    have hnot : ¬ length = 0 := by omega
    have hnot' : ¬ (pkt.bufs b).len - pos = 0 := by omega
    rw [pullLoop, if_neg hnot, hadv]
    simp [if_neg hnot', if_neg (not_lt.mpr hlength), hpkt₁, hbuffer, hunref]
  · refine ⟨hdrop.wf.moved _ _, ?_⟩
    rw [← hunrefs]
    exact hdrop.unrefs
  have hlen : (pkt₁.bufs f).contents.length = min (pkt.bufs f).len o := by
    rw [length_contents, hfirst]
  calc str (netPktCursorInit pkt').bufs rest = str pkt₁.bufs rest := hstr'
    _ = (str pkt₁.bufs (f :: rest)).drop (min (pkt.bufs f).len o) := by
        rw [str_cons, drop_left' hlen]
    _ = _ := by rw [hstr]

end rounds

/-! ### Pulls -/

section pulls

variable {pkt : Pkt} {l : List ℕ} {o fuel rounds length : ℕ}

variable {ns : List ℕ} {s : List UInt8}

theorem leftAt_le : leftAt ns o ≤ ns.sum - o := by
  induction ns generalizing o with
  | nil => exact Nat.zero_le _
  | cons n ns ih =>
    rw [leftAt, sum_cons]
    split_ifs
    · omega
    · have := ih (o := o - n)
      omega

theorem leftAt_pos (h : o < ns.sum) : 0 < leftAt ns o := by
  induction ns generalizing o with
  | nil => exact absurd h (Nat.not_lt_zero _)
  | cons n ns ih =>
    rw [sum_cons] at h
    rw [leftAt]
    split_ifs
    · omega
    · exact ih (by omega)

@[simp] theorem pullLoop_zero : pullLoop fuel (rounds + 1) pkt 0 = some (pkt, 0) := by
  rw [pullLoop, if_pos rfl]

theorem pullLoop_start (rounds : ℕ) (h : WF pkt l) (hcur : CursorAt pkt l 0) (hfuel : l.length ≤ fuel)
    (hlength : length ≤ (str pkt.bufs l).length) (hrounds : length < rounds) :
    ∃ pkt' l', pullLoop fuel rounds pkt length = some (pkt', 0) ∧ Dropped pkt pkt' l l' ∧
      str pkt'.bufs l' = (str pkt.bufs l).drop length := by
  induction rounds generalizing pkt l length with
  | zero => omega
  | succ rounds ih =>
    rcases Nat.eq_zero_or_pos length with rfl | hpos
    · exact ⟨pkt, l, pullLoop_zero, Dropped.refl h, rfl⟩
    have hsome : 0 < (str pkt.bufs l).length := by omega
    rcases Nat.lt_or_ge length (leftAt (lens pkt l) 0) with hin | hend
    · obtain ⟨pkt', hloop, hdrop, hstr⟩ :=
        pullLoop_inside rounds h hcur hfuel hsome hpos hin
      rcases rounds with _ | rounds
      · omega
      exact ⟨pkt', l, by rw [hloop, pullLoop_zero], hdrop, by rw [hstr, cut_start]⟩
    rcases l with _ | ⟨f, rest⟩
    · simp at hsome
    obtain ⟨pkt₁, hloop, hdrop, hcur₁, hstr₁⟩ := pullLoop_end h hcur hfuel hsome hend
    rw [Nat.min_zero, drop_zero, cut_start] at hstr₁
    have hleft : 0 < leftAt (lens pkt (f :: rest)) 0 :=
      leftAt_pos (by rw [← length_str]; exact hsome)
    have hlen : length - leftAt (lens pkt (f :: rest)) 0 ≤ (str pkt₁.bufs rest).length := by
      rw [hstr₁, length_drop]
      omega
    obtain ⟨pkt', l', hloop', hdrop', hstr'⟩ := ih hdrop.wf hcur₁
      ((Nat.le_succ _).trans hfuel) hlen (by omega)
    refine ⟨pkt', l', hloop.trans hloop', hdrop.trans hdrop', ?_⟩
    rw [hstr', hstr₁, drop_drop, Nat.add_sub_cancel' hend]

/-- What a pull leaves of a string, for buffers of the lengths `ns`. -/
def pulled (ns : List ℕ) (s : List UInt8) (o length : ℕ) : List UInt8 :=
  if length = 0 ∨ length < leftAt ns o then cut s o length
  else (cut s o (leftAt ns o)).drop (min (ns.headD 0) o + (length - leftAt ns o))

/-- **What a pull does.** -/
theorem netPktPull_spec (h : WF pkt l) (hcur : CursorAt pkt l o) (hfuel : l.length ≤ fuel)
    (hlength : o + length ≤ (str pkt.bufs l).length) :
    ∃ pkt' l', netPktPull fuel pkt length = some (0, pkt') ∧ Dropped pkt pkt' l l' ∧
      str pkt'.bufs l' = pulled (lens pkt l) (str pkt.bufs l) o length := by
  obtain ⟨pkt₁, l', hloop, hdrop, hstr⟩ : ∃ pkt' l',
      pullLoop fuel (length + 1) pkt length = some (pkt', 0) ∧ Dropped pkt pkt' l l' ∧
      str pkt'.bufs l' = pulled (lens pkt l) (str pkt.bufs l) o length := by
    rw [pulled]
    split_ifs with hin
    · rcases Nat.eq_zero_or_pos length with rfl | hpos
      · exact ⟨pkt, l, pullLoop_zero, Dropped.refl h, cut_zero.symm⟩
      · obtain ⟨pkt', hloop, hdrop, hstr⟩ := pullLoop_inside length h hcur hfuel
          (by omega) hpos (hin.resolve_left hpos.ne')
        rcases length with _ | n
        · omega
        exact ⟨pkt', l, by rw [hloop, pullLoop_zero], hdrop, hstr⟩
    rw [not_or, not_lt] at hin
    have hsome : o < (str pkt.bufs l).length := by omega
    rcases l with _ | ⟨f, rest⟩
    · exact absurd hsome (Nat.not_lt_zero _)
    obtain ⟨pkt₁, hloop, hdrop, hcur₁, hstr₁⟩ := pullLoop_end h hcur hfuel hsome hin.2
    have hle : leftAt (lens pkt (f :: rest)) o ≤ (str pkt.bufs (f :: rest)).length - o := by
      rw [length_str]
      exact leftAt_le
    have hleft : 0 < leftAt (lens pkt (f :: rest)) o :=
      leftAt_pos (by rw [← length_str]; exact hsome)
    have hlen : length - leftAt (lens pkt (f :: rest)) o ≤ (str pkt₁.bufs rest).length := by
      rw [hstr₁, length_drop, length_cut (by omega)]
      omega
    obtain ⟨pkt', l', hloop', hdrop', hstr'⟩ := pullLoop_start length hdrop.wf hcur₁
      ((Nat.le_succ _).trans hfuel) hlen (by omega)
    refine ⟨pkt', l', hloop.trans hloop', hdrop.trans hdrop', ?_⟩
    rw [hstr', hstr₁, drop_drop]
    rfl
  refine ⟨netPktCursorInit pkt₁, l', ?_, ⟨hdrop.wf.moved _ _, hdrop.unrefs⟩, hstr⟩
  rw [netPktPull, hloop]
  rfl

/-- A pull removes the bytes at the cursor and keeps the others. -/
def PullsExactly (fuel : ℕ) (pkt : Pkt) (l : List ℕ) (o length : ℕ) : Prop :=
  ∃ pkt' l', netPktPull fuel pkt length = some (0, pkt') ∧ Dropped pkt pkt' l l' ∧
    str pkt'.bufs l' = cut (str pkt.bufs l) o length

/-- Nothing is pulled, or from the start, or the pull ends before the cursor's buffer does, or where
it ends, with an empty buffer at the front. -/
def PullOk (ns : List ℕ) (o length : ℕ) : Prop :=
  length = 0 ∨ o = 0 ∨ length < leftAt ns o ∨ (length = leftAt ns o ∧ ns.headD 0 = 0)

def Pkt.withData (pkt : Pkt) (data : ℕ → Mem) : Pkt :=
  { pkt with bufs := fun b => { pkt.bufs b with data := data b } }

theorem WF.withData (h : WF pkt l) (data : ℕ → Mem) : WF (pkt.withData data) l :=
  ⟨h.chain, h.nodup, h.fits, h.ref, h.own⟩

theorem length_str_withData (data : ℕ → Mem) (l : List ℕ) :
    (str (pkt.withData data).bufs l).length = (str pkt.bufs l).length := by
  rw [length_str, length_str]
  rfl

theorem CursorAt.withData (h : CursorAt pkt l o) (data : ℕ → Mem) :
    CursorAt (pkt.withData data) l o := by
  rcases h with ⟨hnone, ho⟩ | ⟨l₁, b, l₂, hl, ⟨hb, ho⟩, hle⟩
  · exact .inl ⟨hnone, by rw [length_str_withData, ho]⟩
  · exact .inr ⟨l₁, b, l₂, hl, ⟨hb, by rw [length_str_withData, ho]; rfl⟩, hle⟩

theorem exists_withData (pkt : Pkt) (hnodup : l.Nodup)
    (hs : s.length = (str pkt.bufs l).length) : ∃ data, str (pkt.withData data).bufs l = s := by
  induction l generalizing s with
  | nil => exact ⟨fun _ _ => 0, (length_eq_zero_iff.mp hs).symm⟩
  | cons b l ih =>
    obtain ⟨hb, hnodup⟩ := nodup_cons.mp hnodup
    rw [str_cons, length_append, length_contents] at hs
    obtain ⟨data, hdata⟩ := ih hnodup (s := s.drop (pkt.bufs b).len) (by simp; omega)
    refine ⟨Function.update data b (storeBytes (fun _ => 0) 0 (s.take (pkt.bufs b).len)), ?_⟩
    have hfirst : NetBuf.contents { pkt.bufs b with
        data := storeBytes (fun _ => 0) 0 (s.take (pkt.bufs b).len) } =
        s.take (pkt.bufs b).len :=
      loadBytes_storeBytes_of_length _ _ (by simp; omega)
    have hrest : str (pkt.withData (Function.update data b
        (storeBytes (fun _ => 0) 0 (s.take (pkt.bufs b).len)))).bufs l =
        s.drop (pkt.bufs b).len := by
      rw [← hdata]
      refine str_congr fun c hc => ?_
      simp only [Pkt.withData, Function.update_of_ne (ne_of_mem_of_not_mem hc hb)]
    rw [str_cons, hrest]
    simp only [Pkt.withData, Function.update_self]
    rw [hfirst, take_append_drop]

theorem pulled_eq_cut (h : PullOk ns o length) : pulled ns s o length = cut s o length := by
  rw [pulled]
  split_ifs with hin
  · rfl
  rw [not_or, not_lt] at hin
  rcases h with hzero | rfl | hlt | ⟨heq, hfirst⟩
  · exact absurd hzero hin.1
  · rw [cut_start, cut_start, Nat.min_zero, Nat.zero_add, drop_drop, Nat.add_sub_cancel' hin.2]
  · exact absurd hlt (not_lt.mpr hin.2)
  · rw [← heq, hfirst, Nat.zero_min, Nat.sub_self, drop_zero]

theorem pulled_ne_cut {n : ℕ} (h : ¬ PullOk ns o length) :
    pulled ns (List.replicate o 0 ++ List.replicate n 1) o length ≠
      cut (List.replicate o 0 ++ List.replicate n 1) o length := by
  simp only [PullOk, not_or, not_lt] at h
  obtain ⟨hzero, hstart, hle, hfirst⟩ := h
  have hcut : ∀ k, cut (List.replicate o (0 : UInt8) ++ List.replicate n 1) o k =
      List.replicate o 0 ++ List.replicate (n - k) 1 := by
    intro k
    simp [cut, drop_append]
  intro heq
  have hcount := congrArg (List.count 0) heq
  rw [pulled, if_neg (by omega), hcut, hcut, drop_append, drop_replicate, drop_replicate] at hcount
  generalize ns.headD 0 = first at hfirst hcount
  simp only [count_append, count_replicate] at hcount
  simp at hcount
  omega

/-- **The pulls that are exact**, whatever the bytes are. -/
theorem pullsExactly_iff (h : WF pkt l) (hcur : CursorAt pkt l o) (hfuel : l.length ≤ fuel)
    (hlength : o + length ≤ (str pkt.bufs l).length) :
    (∀ data, PullsExactly fuel (pkt.withData data) l o length) ↔ PullOk (lens pkt l) o length := by
  have hspec := fun data => netPktPull_spec (h.withData data) (hcur.withData data) hfuel
    (by rw [length_str_withData]; exact hlength)
  constructor
  · intro hall
    by_contra hnot
    obtain ⟨data, hdata⟩ := exists_withData pkt h.nodup (s := List.replicate o 0 ++
      List.replicate ((str pkt.bufs l).length - o) 1) (by simp; omega)
    obtain ⟨pkt₁, l₁, hpull₁, hdrop₁, hstr₁⟩ := hall data
    obtain ⟨pkt₂, l₂, hpull₂, hdrop₂, hstr₂⟩ := hspec data
    cases hpull₁.symm.trans hpull₂
    cases hdrop₁.wf.chain.unique hdrop₂.wf.chain
    rw [hdata] at hstr₁ hstr₂
    exact pulled_ne_cut hnot (hstr₂.symm.trans hstr₁)
  · intro hok data
    obtain ⟨pkt', l', hpull, hdrop, hstr⟩ := hspec data
    exact ⟨pkt', l', hpull, hdrop, hstr.trans (pulled_eq_cut hok)⟩

end pulls

/-! ### Packets as strings -/

/-- Packets that reading and skipping lead to. -/
inductive Reached (fuel : ℕ) (pkt₀ : Pkt) : Pkt → Prop
  | init : Reached fuel pkt₀ (netPktCursorInit pkt₀)
  | read {pkt pkt' : Pkt} {r : ℤ} {out : List UInt8} (length : ℕ) (h : Reached fuel pkt₀ pkt)
      (hread : netPktRead fuel pkt length = some (r, pkt', out)) : Reached fuel pkt₀ pkt'
  | skip {pkt pkt' : Pkt} {r : ℤ} {out : List UInt8} (length : ℕ) (h : Reached fuel pkt₀ pkt)
      (hskip : netPktSkip fuel pkt length = some (r, pkt', out)) : Reached fuel pkt₀ pkt'

/-- The packet holds the string `s`, with the cursor at offset `o`. -/
structure Holds (pkt : Pkt) (l : List ℕ) (s : List UInt8) (o : ℕ) : Prop where
  wf : WF pkt l
  overwrite : pkt.overwrite = true
  str_eq : str pkt.bufs l = s
  cursor : CursorAt pkt l o

/-- What the functions other than `net_pkt_pull` make of the string. -/
structure ActsAsString (fuel : ℕ) (pkt : Pkt) (l : List ℕ) (s : List UInt8) (o : ℕ) : Prop where
  read : ∀ n, o + n ≤ s.length → ∃ pkt',
    netPktRead fuel pkt n = some (0, pkt', (s.drop o).take n) ∧ Holds pkt' l s (o + n)
  write : ∀ data : List UInt8, o + data.length ≤ s.length → ∃ pkt',
    netPktWrite fuel pkt data = some (0, pkt', []) ∧
      Holds pkt' l (splice s o data) (o + data.length)
  removeTail : ∀ n, n ≤ s.length → ∃ pkt' l', netPktRemoveTail fuel pkt n = some (0, pkt') ∧
    Dropped pkt pkt' l l' ∧ str pkt'.bufs l' = s.take (s.length - n)
  compact : ∃ pkt' l', netPktCompact fuel pkt = some pkt' ∧ Dropped pkt pkt' l l' ∧
    str pkt'.bufs l' = s
  trim : ∃ pkt' l', netPktTrimBuffer fuel pkt = some pkt' ∧ Dropped pkt pkt' l l' ∧
    str pkt'.bufs l' = s

section strings

variable {pkt pkt₀ : Pkt} {l : List ℕ} {s : List UInt8} {o fuel : ℕ}

theorem Holds.operate (access : Access) (length : ℕ) (h : Holds pkt l s o)
    (hcover : access.Covers length) (hfuel : l.length ≤ fuel) :
    ∃ k pkt', k = min length (s.length - o) ∧ netPktCursorOperate fuel pkt access length =
        some (operateResult (length - k), pkt', access.output s o k) ∧
      Holds pkt' l (splice s o (access.bytes k)) (o + k) := by
  obtain ⟨hwf, hover, rfl, hcur⟩ := h
  obtain ⟨k, pkt', hk, hrun, hwf', hcur', hstr', hover', -⟩ :=
    operateLoop_spec [] hwf hover hcur hcover hfuel (Nat.lt_succ_self length)
  exact ⟨k, pkt', hk, hrun, hwf', hover', hstr', hcur'⟩

theorem Holds.move {access : Access} {length : ℕ} {r : ℤ} {pkt' : Pkt} {out : List UInt8}
    (h : Holds pkt l s o) (haccess : access = .read ∨ access = .skip) (hfuel : l.length ≤ fuel)
    (hrun : netPktCursorOperate fuel pkt access length = some (r, pkt', out)) :
    ∃ o', Holds pkt' l s o' := by
  have hcover : access.Covers length := by rcases haccess with rfl | rfl <;> trivial
  obtain ⟨k, pkt'', -, hrun', h'⟩ := h.operate access length hcover hfuel
  have hnil : access.bytes k = [] := by rcases haccess with rfl | rfl <;> rfl
  cases hrun.symm.trans hrun'
  rw [hnil, splice_nil] at h'
  exact ⟨o + k, h'⟩

theorem Reached.holds (hr : Reached fuel pkt₀ pkt) (h : WF pkt₀ l) (hover : pkt₀.overwrite = true)
    (hfuel : l.length ≤ fuel) : ∃ o, Holds pkt l (str pkt₀.bufs l) o := by
  induction hr with
  | init => exact ⟨0, h.moved _ _, hover, rfl, cursorAt_init h⟩
  | read length _ hread ih =>
    obtain ⟨o, ih⟩ := ih
    exact ih.move (.inl rfl) hfuel hread
  | skip length _ hskip ih =>
    obtain ⟨o, ih⟩ := ih
    exact ih.move (.inr rfl) hfuel hskip

theorem Holds.actsAsString (h : Holds pkt l s o) (hfuel : l.length ≤ fuel) :
    ActsAsString fuel pkt l s o where
  read n hn := by
    obtain ⟨k, pkt', hk, hrun, h'⟩ := h.operate .read n trivial hfuel
    obtain rfl : k = n := by omega
    rw [Nat.sub_self] at hrun
    refine ⟨pkt', hrun, ?_⟩
    rwa [Access.bytes, splice_nil] at h'
  write data hn := by
    obtain ⟨k, pkt', hk, hrun, h'⟩ := h.operate (.write data) data.length (le_refl _) hfuel
    obtain rfl : k = data.length := by omega
    rw [Nat.sub_self] at hrun
    refine ⟨pkt', hrun, ?_⟩
    rwa [Access.bytes, take_length] at h'
  removeTail n hn := by
    obtain ⟨hwf, -, rfl, -⟩ := h
    exact netPktRemoveTail_spec hwf hfuel hn
  compact := by
    obtain ⟨hwf, -, rfl, -⟩ := h
    exact netPktCompact_spec hwf hfuel
  trim := by
    obtain ⟨hwf, -, rfl, -⟩ := h
    exact netPktTrimBuffer_spec hwf hfuel

/-- **Packets as byte strings.** Reading, writing and taking data and buffers out do what they do to
a byte string. Pulling does so for the cursors of `PullOk`, and for no others. -/
theorem net_pkt_string (h : WF pkt₀ l) (hover : pkt₀.overwrite = true) (hfuel : l.length ≤ fuel)
    (hr : Reached fuel pkt₀ pkt) :
    ∃ o, Holds pkt l (str pkt₀.bufs l) o ∧ ActsAsString fuel pkt l (str pkt₀.bufs l) o ∧
      ∀ n, o + n ≤ (str pkt₀.bufs l).length →
        ((∀ data, PullsExactly fuel (pkt.withData data) l o n) ↔ PullOk (lens pkt l) o n) := by
  obtain ⟨o, hholds⟩ := hr.holds h hover hfuel
  refine ⟨o, hholds, hholds.actsAsString hfuel, fun n hn => ?_⟩
  rw [← hholds.str_eq] at hn
  exact pullsExactly_iff hholds.wf hholds.cursor hfuel hn

end strings

/-- A packet of one buffer that holds the bytes `a`, `b`, `c`. -/
def pktAbc : Pkt where
  bufs := fun _ => ⟨none, storeBytes (fun _ => 0) 0 [97, 98, 99], 3, 8, 1⟩
  buffer := some 0
  cursorBuf := some 0
  cursorPos := 0
  overwrite := true
  unrefs := []

theorem wf_pktAbc : WF pktAbc [0] where
  chain := ⟨rfl, rfl⟩
  nodup := nodup_singleton 0
  fits := by decide
  ref := by decide
  own := by decide

/-- The functions on that packet, with the cursor at its second byte. -/
theorem net_pkt_string_abc : ∃ pkt, (netPktSkip 1 pktAbc 1 = some (0, pkt, [])) ∧
    ∃ o, Holds pkt [0] [97, 98, 99] o ∧ ActsAsString 1 pkt [0] [97, 98, 99] o ∧ ∀ n, o + n ≤ 3 →
        ((∀ data, PullsExactly 1 (pkt.withData data) [0] o n) ↔ PullOk (lens pkt [0]) o n) :=
  ⟨_, rfl, net_pkt_string wf_pktAbc rfl (le_refl 1) (.skip 1 .init rfl)⟩

/-- One byte is skipped and two are pulled: the first byte is lost. -/
theorem pull_loses_byte : ∃ pkt, netPktSkip 1 pktAbc 1 = some (0, pkt, []) ∧
    Holds pkt [0] [97, 98, 99] 1 ∧
    (∃ pkt', netPktPull 1 pkt 2 = some (0, pkt') ∧ pkt'.buffer = none) ∧
    ¬ PullsExactly 1 pkt [0] 1 2 := by
  have hholds : Holds pktAbc [0] [97, 98, 99] 0 :=
    ⟨wf_pktAbc, rfl, rfl, .inr ⟨[], 0, [], rfl, ⟨rfl, rfl⟩, Nat.zero_le _⟩⟩
  obtain ⟨k, pkt, hk, hskip, h⟩ := hholds.operate .skip 1 trivial (le_refl 1)
  obtain rfl : k = 1 := hk
  refine ⟨pkt, hskip, h, ?_⟩
  cases hskip
  refine ⟨⟨_, rfl, rfl⟩, ?_⟩
  rintro ⟨pkt', l', hpull, hdrop, hstr⟩
  cases hpull
  have hnil : l' = [] := hdrop.wf.chain.unique rfl
  subst hnil
  cases hstr

end NetPkt

end TlZephyr
