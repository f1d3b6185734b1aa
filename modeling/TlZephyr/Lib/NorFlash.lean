import TlZephyr.Lib.Memory

/-!
# Flash Memory

Flash memory in pages. A byte can be programmed once after its page was erased: programming it
again clears bits only. `erased` says of every byte whether it was erased since it was last
programmed.
-/

namespace NorFlash

open Memory List

/-- Bytes, and which of them may be programmed. -/
structure Flash where
  mem : Mem
  erased : ℕ → Bool

namespace Flash

/-- `n` bytes from `a` on are set to the erase value. -/
def erase (f : Flash) (v : UInt8) (a n : ℕ) : Flash where
  mem x := if a ≤ x ∧ x < a + n then v else f.mem x
  erased x := if a ≤ x ∧ x < a + n then true else f.erased x

/-- The bytes `bs` are programmed from `a` on. -/
def program (f : Flash) (a : ℕ) (bs : List UInt8) : Flash where
  mem x :=
    if a ≤ x ∧ x < a + bs.length then
      if f.erased x then bs.getD (x - a) 0 else f.mem x &&& bs.getD (x - a) 0
    else f.mem x
  erased x := if a ≤ x ∧ x < a + bs.length then false else f.erased x

/-- All of the `n` bytes from `a` on may be programmed. -/
def allErased (f : Flash) (a n : ℕ) : Bool := (List.range n).all fun i => f.erased (a + i)

variable {f : Flash} {a n x : ℕ} {v : UInt8} {bs : List UInt8}

theorem allErased_iff : f.allErased a n = true ↔ ∀ x, a ≤ x → x < a + n → f.erased x = true := by
  rw [allErased, all_eq_true]
  refine ⟨fun h x h1 h2 => ?_, fun h i hi => h _ (by omega) (by have := mem_range.mp hi; omega)⟩
  have := h (x - a) (mem_range.mpr (by omega))
  rwa [Nat.add_sub_cancel' h1] at this

theorem erase_mem_of_notMem (h : x < a ∨ a + n ≤ x) : (f.erase v a n).mem x = f.mem x :=
  if_neg (by omega)

theorem erase_erased_of_mem (h1 : a ≤ x) (h2 : x < a + n) : (f.erase v a n).erased x = true :=
  if_pos ⟨h1, h2⟩

theorem erase_erased_of_erased (h : f.erased x = true) : (f.erase v a n).erased x = true := by
  simp only [erase]
  split_ifs
  · rfl
  · exact h

theorem program_mem_of_notMem (h : x < a ∨ a + bs.length ≤ x) : (f.program a bs).mem x = f.mem x :=
  if_neg (by omega)

theorem program_erased_of_notMem
    (h : x < a ∨ a + bs.length ≤ x) : (f.program a bs).erased x = f.erased x :=
  if_neg (by omega)

theorem loadBytes_program
    (h : f.allErased a bs.length = true) {front : List UInt8} (hfront : front <+: bs) :
    loadBytes (f.program a bs).mem a front.length = front := by
  obtain ⟨fill, rfl⟩ := hfront
  rw [allErased_iff] at h
  refine ext_getElem (by simp) fun i h1 h2 => ?_
  have hi : i < front.length := h2
  have hlen : i < (front ++ fill).length := by rw [length_append]; omega
  have hfresh := h (a + i) (by omega) (by omega)
  have hin : a ≤ a + i ∧ a + i < a + (front ++ fill).length := by omega
  simp only [loadBytes, getElem_map, getElem_range, program, if_pos hin, hfresh, if_true,
    Nat.add_sub_cancel_left]
  rw [getD_eq_getElem _ _ hlen, getElem_append_left hi]

end Flash

/-! ### Pages -/

/-- The start and the size of the page that holds offset `off`. -/
def pageAt : List ℕ → ℕ → Option (ℕ × ℕ)
  | [], _ => none
  | p :: ps, off =>
    if off < p then some (0, p) else (pageAt ps (off - p)).map fun r => (p + r.1, r.2)

/-- Offset `x` is where a page starts, or the end of the last one. -/
def IsBoundary : List ℕ → ℕ → Prop
  | [], x => x = 0
  | p :: ps, x => x = 0 ∨ p ≤ x ∧ IsBoundary ps (x - p)

theorem isBoundary_zero (ps : List ℕ) : IsBoundary ps 0 := by
  cases ps with
  | nil => rfl
  | cons p ps => exact Or.inl rfl

variable {ps : List ℕ} {x : ℕ}

theorem isBoundary_add {p : ℕ} (h : IsBoundary ps x) : IsBoundary (p :: ps) (p + x) :=
  Or.inr ⟨Nat.le_add_right p x, by rwa [Nat.add_sub_cancel_left]⟩

theorem dvd_of_isBoundary {w : ℕ} (hw : ∀ p ∈ ps, w ∣ p) (h : IsBoundary ps x) : w ∣ x := by
  induction ps generalizing x with
  | nil => exact h ▸ dvd_zero w
  | cons p ps ih =>
    rcases h with rfl | ⟨hle, h⟩
    · exact dvd_zero w
    · have hrest := ih (fun q hq => hw q (mem_cons_of_mem p hq)) h
      have := Nat.dvd_add (hw p mem_cons_self) hrest
      rwa [Nat.add_sub_cancel' hle] at this

variable {off size start : ℕ}

theorem pageAt_spec (h : pageAt ps off = some (start, size)) :
    (start ≤ off ∧ off < start + size) ∧ size ∈ ps ∧ IsBoundary ps start ∧
      IsBoundary ps (start + size) := by
  induction ps generalizing off start with
  | nil => cases h
  | cons p ps ih =>
    rw [pageAt] at h
    split_ifs at h with hlt
    · cases h
      exact ⟨⟨Nat.zero_le _, by omega⟩, mem_cons_self, Or.inl rfl,
        Or.inr ⟨by omega, by rw [Nat.zero_add, Nat.sub_self]; exact isBoundary_zero ps⟩⟩
    obtain ⟨⟨start', size'⟩, hr, heq⟩ := Option.map_eq_some_iff.mp h
    cases heq
    obtain ⟨⟨h1, h2⟩, hmem, hb1, hb2⟩ := ih hr
    refine ⟨⟨by omega, by omega⟩, mem_cons_of_mem p hmem, isBoundary_add hb1, ?_⟩
    rw [Nat.add_assoc]
    exact isBoundary_add hb2

theorem pageAt_of_boundary (hx : IsBoundary ps x)
    (h : pageAt ps x = some (start, size)) : start = x := by
  induction ps generalizing x start with
  | nil => cases h
  | cons p ps ih =>
    rw [pageAt] at h
    split_ifs at h with hlt
    · cases h
      rcases hx with rfl | ⟨hle, -⟩
      · rfl
      · omega
    obtain ⟨⟨start', size'⟩, hr, heq⟩ := Option.map_eq_some_iff.mp h
    cases heq
    have hrest : IsBoundary ps (x - p) := by
      rcases hx with rfl | ⟨-, hx⟩
      · rw [Nat.zero_sub]
        exact isBoundary_zero ps
      · exact hx
    have := ih hrest hr
    omega

theorem exists_pageAt (hx : IsBoundary ps x) (hlt : off < x) :
    ∃ start size, pageAt ps off = some (start, size) ∧ start + size ≤ x := by
  induction ps generalizing off x with
  | nil =>
    have h0 : x = 0 := hx
    omega
  | cons p ps ih =>
    rcases hx with rfl | ⟨hle, hx⟩
    · omega
    rw [pageAt]
    split_ifs with hp
    · exact ⟨0, p, rfl, by omega⟩
    · obtain ⟨start, size, hr, hend⟩ := ih hx (show off - p < x - p by omega)
      exact ⟨p + start, size, by rw [hr]; rfl, by omega⟩

end NorFlash
