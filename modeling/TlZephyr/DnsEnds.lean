import TlZephyr.Dns

/-!
# Following Compression Pointers to an End

`dns_unpack_name` counts the bytes of labels and pointers and gives up at a pointer when it has
counted as many as the message has. `dns_copy_qname` has no such guard: the space for the copy
limits the labels, but nothing limits the pointers. It ends exactly if the walk over the name
never meets a pointer that leads back to itself by pointers only.
-/

namespace TlZephyr.Dns

open Fuel Relation

/-! ### Pointers -/

/-- Position that a pointer at `pos` names. -/
def Msg.target (msg : Msg) (pos : ℕ) : ℕ :=
  ((msg.byte pos).toNat &&& 63) <<< 8 + (msg.byte (pos + 1)).toNat

theorem Msg.target_lt (msg : Msg) (pos : ℕ) : msg.target pos < 2 ^ 14 := by
  have h1 : (msg.byte pos).toNat &&& 63 ≤ 63 := Nat.and_le_right
  have h2 := (msg.byte (pos + 1)).toNat_lt
  rw [target, Nat.shiftLeft_eq]
  omega

/-- There is a pointer to `q` at position `p`. -/
structure PointsTo (msg : Msg) (p q : ℕ) : Prop where
  tag : 63 < (msg.byte p).toNat
  inside : p + 1 < msg.size
  target : q = msg.target p

variable {msg : Msg} {size : ℕ} {s : Unpack}

theorem PointsTo.acc {p : ℕ}
    (h : ∀ q, ReflTransGen (PointsTo msg) p q → ¬ TransGen (PointsTo msg) q q) :
    Acc (flip (PointsTo msg)) p := by
  refine acc_of_no_cycle (((Set.finite_Iio (2 ^ 14)).insert p).subset fun q hq => ?_) h
  rcases hq.cases_tail with rfl | ⟨b, -, hb⟩
  · exact .inl rfl
  · exact .inr (hb.target ▸ msg.target_lt b)

/-! ### Copying a name -/

/-- Walk of `dns_copy_qname` over a name, with the number of bytes copied before. -/
inductive CopyWalk (msg : Msg) (size start : ℕ) : ℕ → ℕ → Prop
  | start : CopyWalk msg size start start 0
  | label {p len : ℕ} : CopyWalk msg size start p len → 0 < (msg.byte p).toNat →
      (msg.byte p).toNat ≤ 63 → p + (1 + (msg.byte p).toNat) ≤ msg.size →
      len + (1 + (msg.byte p).toNat) ≤ size →
      CopyWalk msg size start (p + (1 + (msg.byte p).toNat)) (len + (1 + (msg.byte p).toNat))
  | pointer {p q len : ℕ} : CopyWalk msg size start p len → PointsTo msg p q →
      CopyWalk msg size start q len

theorem copyRound_pointer {q : ℕ} {s : Copy} (h : PointsTo msg s.pos q) :
    copyRound msg size s = .inl { s with pos := q } := by
  rw [copyRound, if_neg (by have := h.inside; omega)]
  dsimp only
  rw [if_pos h.tag, if_neg (by have := h.inside; omega), h.target, Msg.target]

theorem copyRound_label {s : Copy} (h0 : 0 < (msg.byte s.pos).toNat)
    (h63 : (msg.byte s.pos).toNat ≤ 63) (hmsg : s.pos + (1 + (msg.byte s.pos).toNat) ≤ msg.size)
    (hsize : s.out.length + (1 + (msg.byte s.pos).toNat) ≤ size) :
    copyRound msg size s = .inl ⟨s.pos + (1 + (msg.byte s.pos).toNat),
      s.out ++ msg.slice s.pos (1 + (msg.byte s.pos).toNat)⟩ := by
  rw [copyRound, if_neg (by omega)]
  dsimp only
  rw [if_neg (by omega), if_neg (by omega), if_neg (by omega)]

theorem copyRound_inl {s s' : Copy} (h : copyRound msg size s = .inl s') :
    (PointsTo msg s.pos s'.pos ∧ s'.out = s.out) ∨
      (0 < (msg.byte s.pos).toNat ∧ (msg.byte s.pos).toNat ≤ 63 ∧
        s.pos + (1 + (msg.byte s.pos).toNat) ≤ msg.size ∧
        s.out.length + (1 + (msg.byte s.pos).toNat) ≤ size ∧
        s' = ⟨s.pos + (1 + (msg.byte s.pos).toNat),
          s.out ++ msg.slice s.pos (1 + (msg.byte s.pos).toNat)⟩) := by
  simp only [copyRound] at h
  split_ifs at h with h1 h2 h3 h4 h5
  · obtain rfl := Sum.inl.inj h
    exact .inl ⟨⟨h2, by omega, rfl⟩, rfl⟩
  · obtain rfl := Sum.inl.inj h
    exact .inr ⟨by omega, by omega, by omega, by omega, rfl⟩

theorem CopyWalk.ends {start p len : ℕ} (h : CopyWalk msg size start p len)
    {r : ℤ × List UInt8} (hr : Ends (dnsCopyQname msg size start) r) :
    ∃ out, out.length = len ∧ Ends (fun n => loop (copyRound msg size) n ⟨p, out⟩) r := by
  induction h with
  | start => exact ⟨[], rfl, hr⟩
  | label _ h0 h63 hmsg hsize ih =>
    obtain ⟨out, rfl, hout⟩ := ih
    refine ⟨_, ?_, (ends_loop_inl (copyRound_label h0 h63 hmsg hsize)).mp hout⟩
    simp
  | pointer _ hpq ih =>
    obtain ⟨out, hlen, hout⟩ := ih
    exact ⟨out, hlen, (ends_loop_inl (copyRound_pointer hpq)).mp hout⟩

/-- Without cycles of pointers each state of the walk is the start of a run that ends. -/
theorem CopyWalk.acc {start : ℕ}
    (h : ∀ p len, CopyWalk msg size start p len → ¬ TransGen (PointsTo msg) p p) (n : ℕ) :
    ∀ s : Copy, CopyWalk msg size start s.pos s.out.length → size - s.out.length = n →
      Acc (fun s' s => copyRound msg size s = .inl s') s := by
  induction n using Nat.strong_induction_on with
  | _ n ih =>
    rintro ⟨p, out⟩ hw hn
    have hp : Acc (flip (PointsTo msg)) p := by
      refine PointsTo.acc fun q hq => h q out.length ?_
      induction hq with
      | refl => exact hw
      | tail _ hbc ih => exact .pointer ih hbc
    -- the labels that are left bound the outer induction, the pointers the inner one
    induction hp with
    | intro p _ ihp =>
      refine ⟨_, fun s' hs' => ?_⟩
      rcases copyRound_inl hs' with ⟨hpq, hout⟩ | ⟨h0, h63, hmsg, hsize, rfl⟩
      · obtain ⟨q, out'⟩ := s'
        obtain rfl : out' = out := hout
        exact ihp q hpq (.pointer hw hpq) hn
      · dsimp only at *
        refine ih (size - (out.length + (1 + (msg.byte p).toNat))) (by omega) _ ?_ ?_
        · simpa using CopyWalk.label hw h0 h63 hmsg hsize
        · simp

theorem copyQname_ends_iff (msg : Msg) (size pos : ℕ) :
    (∃ r, Ends (dnsCopyQname msg size pos) r) ↔
      ∀ p len, CopyWalk msg size pos p len → ¬ TransGen (PointsTo msg) p p := by
  constructor
  · rintro ⟨r, hr⟩ p len hw hcycle
    obtain ⟨out, -, hout⟩ := hw.ends hr
    have hacc := exists_ends_loop_iff.mp ⟨r, hout⟩
    refine not_transGen_of_acc (r := fun s s' => copyRound msg size s = .inl s') hacc ?_
    exact hcycle.lift (fun q => (⟨q, out⟩ : Copy)) fun a b hab => copyRound_pointer hab
  · intro h
    exact exists_ends_loop_iff.mpr (CopyWalk.acc h _ ⟨pos, []⟩ .start rfl)

/-! ### Unpacking a name -/

theorem and_tag_ne_zero (b : UInt8) : b.toNat &&& 0xc0 ≠ 0 ↔ 63 < b.toNat := by
  have h : ∀ n < 256, (n &&& 0xc0 ≠ 0 ↔ 63 < n) := by decide +kernel
  exact h _ b.toNat_lt

theorem unpackRound_root (destSize : ℕ) (h : msg.byte s.curr = 0) :
    unpackRound msg destSize s =
      .inr { s with curr := s.curr + 1, reads := s.curr :: s.reads }.done := by
  rw [unpackRound, h]
  rfl

def Unpack.follow (msg : Msg) (s : Unpack) : Unpack :=
  { s with
    curr := msg.target s.curr
    endOfLabel := some (s.curr + 2)
    loopCheck := s.loopCheck + 2
    reads := (s.curr + 1) :: s.curr :: s.reads }

def Unpack.label (msg : Msg) (s : Unpack) : Unpack :=
  { s with
    curr := s.curr + 1 + (msg.byte s.curr).toNat
    loopCheck := s.loopCheck + ((msg.byte s.curr).toNat + 1)
    text := s.text ++ 46 :: msg.slice (s.curr + 1) (msg.byte s.curr).toNat
    reads := List.range' (s.curr + 1) (msg.byte s.curr).toNat ++ s.curr :: s.reads }

/-- A failure in the round that starts with `s`. -/
structure Unpack.FailsAs (msg : Msg) (s : Unpack) (r : Unpacked) : Prop where
  ret : r.ret = -EMSGSIZE
  text : r.text = s.text
  written : r.written = s.text.length
  reads : ∀ i ∈ r.reads, i < msg.size ∨ i = s.curr ∨ i ∈ s.reads

theorem unpackRound_pointer (destSize : ℕ) (h : 63 < (msg.byte s.curr).toNat) :
    (s.curr + 1 < msg.size ∧ msg.target s.curr < msg.size ∧ s.loopCheck + 2 < msg.size ∧
        unpackRound msg destSize s = .inl (s.follow msg)) ∨
      (¬ (s.curr + 1 < msg.size ∧ msg.target s.curr < msg.size ∧ s.loopCheck + 2 < msg.size) ∧
        ∃ r, s.FailsAs msg r ∧ unpackRound msg destSize s = .inr r) := by
  have htarget : ((msg.byte s.curr).toNat &&& 63) <<< 8 ||| (msg.byte (s.curr + 1)).toNat =
      msg.target s.curr := by
    rw [Msg.target, Nat.shiftLeft_add_eq_or_of_lt (UInt8.toNat_lt _)]
  simp only [unpackRound]
  rw [if_neg (by omega), if_pos ((and_tag_ne_zero _).mpr h), htarget]
  by_cases h1 : s.curr + 1 ≥ msg.size
  · rw [if_pos h1]
    refine .inr ⟨by omega, _, ⟨rfl, rfl, rfl, ?_⟩, rfl⟩
    intro i hi
    exact .inr (List.mem_cons.mp hi)
  rw [if_neg h1]
  have hreads : ∀ i ∈ (s.curr + 1) :: s.curr :: s.reads,
      i < msg.size ∨ i = s.curr ∨ i ∈ s.reads := by
    rintro i (_ | ⟨_, hi⟩)
    · exact .inl (Nat.lt_of_not_le h1)
    · exact .inr (List.mem_cons.mp hi)
  by_cases h2 : msg.target s.curr ≥ msg.size
  · rw [if_pos h2]
    exact .inr ⟨by omega, _, ⟨rfl, rfl, rfl, hreads⟩, rfl⟩
  rw [if_neg h2]
  by_cases h3 : s.loopCheck + 2 ≥ msg.size
  · rw [if_pos h3]
    exact .inr ⟨by omega, _, ⟨rfl, rfl, rfl, hreads⟩, rfl⟩
  · rw [if_neg h3]
    exact .inl ⟨by omega, by omega, by omega, rfl⟩

theorem unpackRound_label (destSize : ℕ)
    (h0 : 0 < (msg.byte s.curr).toNat) (h63 : (msg.byte s.curr).toNat ≤ 63) :
    ((msg.byte s.curr).toNat + 1 < destSize ∧ s.curr + 1 + (msg.byte s.curr).toNat < msg.size ∧
        unpackRound msg destSize s = .inl (s.label msg)) ∨
      (¬ ((msg.byte s.curr).toNat + 1 < destSize ∧
          s.curr + 1 + (msg.byte s.curr).toNat < msg.size) ∧
        ∃ r, s.FailsAs msg r ∧ unpackRound msg destSize s = .inr r) := by
  simp only [unpackRound]
  rw [if_neg (by omega), if_neg (by rw [and_tag_ne_zero]; omega), if_neg (by omega)]
  by_cases h : (msg.byte s.curr).toNat + 1 ≥ destSize ∨
      s.curr + 1 + (msg.byte s.curr).toNat ≥ msg.size
  · rw [if_pos h]
    refine .inr ⟨by omega, _, ⟨rfl, rfl, rfl, ?_⟩, rfl⟩
    intro i hi
    exact .inr (List.mem_cons.mp hi)
  · rw [if_neg h]
    exact .inl ⟨by omega, by omega, rfl⟩

theorem unpackRound_inl {destSize : ℕ} {s' : Unpack} (h : unpackRound msg destSize s = .inl s') :
    (63 < (msg.byte s.curr).toNat ∧ s.curr + 1 < msg.size ∧ msg.target s.curr < msg.size ∧
        s.loopCheck + 2 < msg.size ∧ s' = s.follow msg) ∨
      (0 < (msg.byte s.curr).toNat ∧ (msg.byte s.curr).toNat ≤ 63 ∧
        (msg.byte s.curr).toNat + 1 < destSize ∧
        s.curr + 1 + (msg.byte s.curr).toNat < msg.size ∧ s' = s.label msg) := by
  by_cases h0 : msg.byte s.curr = 0
  · rw [unpackRound_root destSize h0] at h
    cases h
  have hpos : 0 < (msg.byte s.curr).toNat :=
    Nat.pos_of_ne_zero fun hz => h0 (UInt8.toNat_inj.mp hz)
  by_cases h63 : 63 < (msg.byte s.curr).toNat
  · rcases unpackRound_pointer destSize h63 with ⟨h1, h2, h3, he⟩ | ⟨-, r, -, he⟩
    · exact .inl ⟨h63, h1, h2, h3, (Sum.inl.inj (he.symm.trans h)).symm⟩
    · rw [he] at h
      cases h
  · rcases unpackRound_label destSize hpos (by omega) with ⟨h1, h2, he⟩ | ⟨-, r, -, he⟩
    · exact .inr ⟨hpos, by omega, h1, h2, (Sum.inl.inj (he.symm.trans h)).symm⟩
    · rw [he] at h
      cases h

theorem unpackLoop_ends (msg : Msg) (destSize : ℕ) (hs : s.curr < msg.size) :
    ∃ r, Ends (fun n => loop (unpackRound msg destSize) n s) r := by
  refine loop_ends_of_variant (fun s => s.curr < msg.size)
    (fun s => (msg.size - s.loopCheck) * (msg.size + 1) + (msg.size - s.curr)) ?_ hs
  intro s s' hs h
  rcases unpackRound_inl h with ⟨-, -, h2, h3, rfl⟩ | ⟨h0, -, -, h2, rfl⟩
  · refine ⟨h2, ?_⟩
    obtain ⟨k, hk⟩ : ∃ k, msg.size - s.loopCheck = k + 2 := ⟨msg.size - s.loopCheck - 2, by omega⟩
    have hk' : msg.size - (s.loopCheck + 2) = k := by omega
    dsimp only [Unpack.follow]
    rw [hk, hk', Nat.add_mul]
    omega
  refine ⟨h2, ?_⟩
  have := Nat.mul_le_mul_right (msg.size + 1)
    (Nat.sub_le_sub_left (Nat.le_add_right s.loopCheck ((msg.byte s.curr).toNat + 1)) msg.size)
  dsimp only [Unpack.label]
  omega

theorem unpackName_ends (msg : Msg) (src : ℕ) (buf : NetBuf) :
    ∃ r, Ends (dnsUnpackName msg src buf) r := by
  by_cases h : src ≥ msg.size
  · exact ⟨_, .congr (fun _ => if_pos h) (.const _)⟩
  · obtain ⟨r, hr⟩ := unpackLoop_ends msg buf.tailroom (s := ⟨src, none, 0, buf.bytes, []⟩)
      (Nat.lt_of_not_le h)
    exact ⟨r, .congr (fun _ => if_neg h) hr⟩

/-- **Following compression pointers.** `dns_unpack_name` always ends, and `dns_copy_qname` exactly
if no pointer that it meets leads back to itself by pointers only. -/
theorem dns_names_end (msg : Msg) :
    (∀ src buf, ∃ r, Ends (dnsUnpackName msg src buf) r) ∧
      ∀ size pos, (∃ r, Ends (dnsCopyQname msg size pos) r) ↔
        ∀ p len, CopyWalk msg size pos p len → ¬ TransGen (PointsTo msg) p p :=
  ⟨unpackName_ends msg, copyQname_ends_iff msg⟩

/-- At a pointer to itself `dns_copy_qname` never returns. -/
theorem dns_copy_qname_endless : ¬ ∃ r, Ends (dnsCopyQname (.ofList [0xc0, 0]) 255 0) r := by
  have hself : PointsTo (.ofList [0xc0, 0]) 0 0 := ⟨by decide, by decide, by decide⟩
  intro h
  exact (copyQname_ends_iff _ _ _).mp h 0 0 .start (.single hself)

end TlZephyr.Dns
