import Mathlib

/-!
# Owned Cells

A memory is a function from addresses to cells. `Owns f S` says that the memory `f` holds the
cells of the multiset `S`, each at an address of its own. A multiset has no order, so the cells of
a linked structure are the sum of the cells of its parts, and a store to one cell leaves the others
in place without a word about which addresses differ.
-/

namespace Owned

open Multiset

variable {κ ν : Type*} {f : κ → ν} {S T : Multiset (κ × ν)} {k k' : κ} {v w : ν}

/-- The memory holds the cells, at different addresses. -/
structure Owns (f : κ → ν) (S : Multiset (κ × ν)) : Prop where
  nodup : (S.map Prod.fst).Nodup
  holds : ∀ x ∈ S, f x.1 = x.2

theorem Owns.zero : Owns f 0 := ⟨by simp, by simp⟩

theorem Owns.mono (h : Owns f S) (hle : T ≤ S) : Owns f T :=
  ⟨nodup_of_le (map_le_map hle) h.nodup, fun x hx => h.holds x (mem_of_le hle hx)⟩

/-- **Load.** -/
theorem Owns.head (h : Owns f ((k, v) ::ₘ S)) : f k = v :=
  h.holds _ (mem_cons_self _ _)

theorem Owns.head_notMem (h : Owns f ((k, v) ::ₘ S)) : k ∉ S.map Prod.fst := by
  have hnodup := h.nodup
  rw [map_cons, nodup_cons] at hnodup
  exact hnodup.1

theorem Owns.ne (h : Owns f ((k, v) ::ₘ S)) (hk : (k', w) ∈ S) : k ≠ k' := by
  rintro rfl
  exact h.head_notMem (mem_map_of_mem Prod.fst hk)

variable [DecidableEq κ]

/-- **Allocation**: a store to an address that is not owned. -/
theorem Owns.alloc (h : Owns f S) (hk : k ∉ S.map Prod.fst) :
    Owns (Function.update f k v) ((k, v) ::ₘ S) := by
  refine ⟨?_, fun x hx => ?_⟩
  · rw [map_cons, nodup_cons]
    exact ⟨hk, h.nodup⟩
  rcases mem_cons.mp hx with rfl | hmem
  · exact Function.update_self ..
  · have hne : x.1 ≠ k := fun heq => hk (heq ▸ mem_map_of_mem Prod.fst hmem)
    rw [Function.update_of_ne hne]
    exact h.holds x hmem

/-- **Store.** -/
theorem Owns.update (h : Owns f ((k, v) ::ₘ S)) : Owns (Function.update f k w) ((k, w) ::ₘ S) :=
  (h.mono (le_cons_self S _)).alloc h.head_notMem

end Owned
