import Mathlib

/-!
# Byte-Addressed Memory

A memory is a function from addresses to bytes. Byte strings are read and written at an
address (`loadBytes`, `storeBytes`). Everything a proof needs of a write is what it does to a
read of the same place and to a read of a disjoint one.
-/

namespace Memory

open List

abbrev Mem := ℕ → UInt8

/-- The `n` bytes from address `a` on. -/
def loadBytes (m : Mem) (a n : ℕ) : List UInt8 := (List.range n).map fun i => m (a + i)

/-- Memory after the bytes `bs` were written from address `a` on. -/
def storeBytes (m : Mem) (a : ℕ) (bs : List UInt8) : Mem :=
  fun x => if a ≤ x ∧ x < a + bs.length then bs.getD (x - a) 0 else m x

/-- Memory after `n` bytes were copied from `src` to `dst`, which may overlap. -/
def moveBytes (m : Mem) (dst src n : ℕ) : Mem :=
  fun x => if dst ≤ x ∧ x < dst + n then m (x - dst + src) else m x

@[simp] theorem length_loadBytes (m : Mem) (a n : ℕ) : (loadBytes m a n).length = n := by
  simp [loadBytes]

variable {m : Mem} {a n : ℕ} {bs : List UInt8}

theorem loadBytes_congr {m' : Mem} (h : ∀ x, a ≤ x → x < a + n → m' x = m x) :
    loadBytes m' a n = loadBytes m a n := by
  refine map_congr_left fun i hi => h _ (Nat.le_add_right _ _) ?_
  have := mem_range.mp hi
  omega

variable {x len off : ℕ}

theorem storeBytes_of_notMem (h : x < a ∨ a + bs.length ≤ x) : storeBytes m a bs x = m x :=
  if_neg (by omega)

@[simp] theorem storeBytes_nil (m : Mem) (a : ℕ) : storeBytes m a [] = m := by
  funext x
  exact storeBytes_of_notMem (by simp; omega)

theorem storeBytes_singleton_self (m : Mem) (a : ℕ) (b : UInt8) : storeBytes m a [b] a = b := by
  simp [storeBytes]

theorem storeBytes_singleton_of_ne {b : UInt8} (h : x ≠ a) : storeBytes m a [b] x = m x :=
  storeBytes_of_notMem (by rw [length_singleton]; omega)

theorem storeBytes_cons (m : Mem) (a : ℕ) (b : UInt8) (bs : List UInt8) :
    storeBytes m a (b :: bs) = storeBytes (storeBytes m a [b]) (a + 1) bs := by
  funext x
  rcases Nat.lt_trichotomy x a with h | rfl | h
  · rw [storeBytes_of_notMem (Or.inl h), storeBytes_of_notMem (Or.inl (by omega)),
      storeBytes_of_notMem (Or.inl h)]
  · rw [storeBytes_of_notMem (a := x + 1) (Or.inl (by omega))]
    simp [storeBytes]
  have hx : x - a = x - (a + 1) + 1 := by omega
  have h1 : ¬ x < a + 1 := by omega
  simp only [storeBytes, length_cons, length_nil, hx, getD_cons_succ]
  by_cases hlt : x < a + (bs.length + 1)
  · rw [if_pos ⟨h.le, hlt⟩, if_pos ⟨h, by omega⟩]
  · rw [if_neg (by omega), if_neg (by omega), if_neg (by omega)]

theorem loadBytes_succ (m : Mem) (a n : ℕ) :
    loadBytes m a (n + 1) = m a :: loadBytes m (a + 1) n := by
  simp only [loadBytes, range_succ_eq_map, map_cons, map_map, Nat.add_zero,
    Function.comp_def, Nat.succ_eq_add_one]
  refine congrArg _ (map_congr_left fun i _ => ?_)
  rw [Nat.add_assoc, Nat.add_comm 1 i]

theorem loadBytes_add (m : Mem) (a n k : ℕ) :
    loadBytes m a (n + k) = loadBytes m a n ++ loadBytes m (a + n) k := by
  simp only [loadBytes, range_add, map_append, map_map, Function.comp_def, Nat.add_assoc]

theorem loadBytes_storeBytes_of_disjoint {b : ℕ}
    (h : b + n ≤ a ∨ a + bs.length ≤ b) : loadBytes (storeBytes m a bs) b n = loadBytes m b n :=
  loadBytes_congr fun x _ _ => storeBytes_of_notMem (by omega)

theorem loadBytes_storeBytes (m : Mem) (a : ℕ) (bs : List UInt8) :
    loadBytes (storeBytes m a bs) a bs.length = bs := by
  refine ext_getElem (by simp) fun i _ hi => ?_
  simp [loadBytes, storeBytes, hi]

theorem loadBytes_storeBytes_of_length (m : Mem) (a : ℕ)
    (h : bs.length = n) : loadBytes (storeBytes m a bs) a n = bs := by
  rw [← h, loadBytes_storeBytes]

/-! ### Strings from address 0 on -/

theorem getElem_loadBytes (m : Mem) (a n i : ℕ) (h : i < (loadBytes m a n).length) :
    (loadBytes m a n)[i] = m (a + i) := by
  simp [loadBytes]

theorem loadBytes_insert (hoff : off ≤ len) :
    loadBytes (storeBytes (moveBytes m (off + bs.length) off (len - off)) off bs) 0
        (len + bs.length) =
      (loadBytes m 0 len).take off ++ (bs ++ (loadBytes m 0 len).drop off) := by
  refine ext_getElem (by simp; omega) fun i hi hi' => ?_
  rw [length_loadBytes] at hi
  rw [getElem_loadBytes, Nat.zero_add, storeBytes, moveBytes]
  by_cases hlow : i < off
  · rw [if_neg (by omega), if_neg (by omega), getElem_append_left (by simp; omega),
      getElem_take, getElem_loadBytes, Nat.zero_add]
  by_cases hmid : i < off + bs.length
  · rw [if_pos (by omega), getElem_append_right (by simp; omega),
      getElem_append_left (by simp; omega), getD_eq_getElem _ _ (by omega)]
    congr 1
    simp
    omega
  rw [if_neg (by omega), if_pos (by omega), getElem_append_right (by simp; omega),
    getElem_append_right (by simp; omega), getElem_drop, getElem_loadBytes]
  congr 1
  simp
  omega

theorem loadBytes_remove {off' : ℕ} (hoff : off ≤ off') (hlen : off' ≤ len) :
    loadBytes (moveBytes m off off' (len - off')) 0 (len - (off' - off)) =
      (loadBytes m 0 len).take off ++ (loadBytes m 0 len).drop off' := by
  refine ext_getElem (by simp; omega) fun i hi hi' => ?_
  rw [length_loadBytes] at hi
  rw [getElem_loadBytes, Nat.zero_add, moveBytes]
  by_cases hlow : i < off
  · rw [if_neg (by omega), getElem_append_left (by simp; omega), getElem_take,
      getElem_loadBytes, Nat.zero_add]
  · rw [if_pos (by omega), getElem_append_right (by simp; omega), getElem_drop, getElem_loadBytes]
    congr 1
    simp
    omega

/-! ### Strings with a part replaced -/

/-- String with bytes replaced from offset `o` on. -/
def splice (s : List UInt8) (o : ℕ) (bs : List UInt8) : List UInt8 :=
  s.take o ++ (bs ++ s.drop (o + bs.length))

section splice

variable {s p x t as bs : List UInt8} {o : ℕ}

theorem splice_eq (hx : x.length = bs.length) :
    splice (p ++ (x ++ t)) p.length bs = p ++ (bs ++ t) := by
  rw [splice, take_left, ← hx, ← length_append, ← append_assoc p x t, drop_left]

@[simp] theorem splice_nil : splice s o [] = s := by
  simp [splice]

theorem length_splice (h : o + bs.length ≤ s.length) : (splice s o bs).length = s.length := by
  simp only [splice, length_append, length_take, length_drop]
  omega

theorem exists_parts (s : List UInt8) (o n : ℕ) (h : o + n ≤ s.length) :
    ∃ p x t, s = p ++ (x ++ t) ∧ p.length = o ∧ x.length = n := by
  refine ⟨s.take o, (s.drop o).take n, (s.drop o).drop n, ?_, by simp; omega, by simp; omega⟩
  rw [take_append_drop, take_append_drop]

theorem splice_splice (h : o + as.length + bs.length ≤ s.length) :
    splice (splice s o as) (o + as.length) bs = splice s o (as ++ bs) := by
  obtain ⟨p, x, t, rfl, rfl, hx⟩ := exists_parts s o (as.length + bs.length) (by omega)
  obtain ⟨x₁, x₂, t', hxs, hx₁, hx₂⟩ := exists_parts x as.length bs.length (by omega)
  have ht' : t' = [] := by
    have := congrArg List.length hxs
    simp only [length_append] at this
    exact length_eq_zero_iff.mp (by omega)
  subst ht' hxs
  have h₁ : splice (p ++ (x₁ ++ (x₂ ++ t))) p.length as = (p ++ as) ++ (x₂ ++ t) := by
    rw [splice_eq hx₁, append_assoc]
  have h₂ : splice ((p ++ as) ++ (x₂ ++ t)) (p ++ as).length bs = (p ++ as) ++ (bs ++ t) :=
    splice_eq hx₂
  have h₃ : splice (p ++ ((x₁ ++ x₂) ++ t)) p.length (as ++ bs) = p ++ ((as ++ bs) ++ t) :=
    splice_eq (by rw [length_append, length_append, hx₁, hx₂])
  rw [append_nil, h₃, append_assoc x₁, h₁, ← length_append, h₂]
  simp only [append_assoc]

variable {m : Mem} {len : ℕ}

theorem loadBytes_storeBytes_inside {a : ℕ} (h : o + bs.length ≤ len) :
    loadBytes (storeBytes m (a + o) bs) a len = splice (loadBytes m a len) o bs := by
  obtain ⟨r, rfl⟩ : ∃ r, len = o + (bs.length + r) := ⟨len - o - bs.length, by omega⟩
  rw [loadBytes_add, loadBytes_add, loadBytes_add m, loadBytes_add m, loadBytes_storeBytes,
    loadBytes_storeBytes_of_disjoint (by omega), loadBytes_storeBytes_of_disjoint (by omega)]
  have hsplice := splice_eq (p := loadBytes m a o) (x := loadBytes m (a + o) bs.length)
    (t := loadBytes m (a + o + bs.length) r) (length_loadBytes m (a + o) bs.length)
  rw [length_loadBytes] at hsplice
  exact hsplice.symm

theorem loadBytes_storeBytes_splice (h : o + bs.length ≤ len) :
    loadBytes (storeBytes m o bs) 0 len = splice (loadBytes m 0 len) o bs := by
  have hinside := loadBytes_storeBytes_inside (m := m) (a := 0) h
  rwa [Nat.zero_add] at hinside

theorem splice_append_append (h : o + bs.length ≤ x.length) :
    p ++ (splice x o bs ++ t) = splice (p ++ (x ++ t)) (p.length + o) bs := by
  obtain ⟨x₁, x₂, x₃, rfl, rfl, hx⟩ := exists_parts x o bs.length h
  rw [splice_eq hx, ← length_append]
  simp only [append_assoc]
  rw [← append_assoc p x₁ (x₂ ++ (x₃ ++ t)), splice_eq hx, append_assoc]

end splice

end Memory
