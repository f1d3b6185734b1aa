import Mathlib

/-!
# Delta Lists

A list of keys in order of time, where each entry holds the time that passes between the entry
before it and its own. Only the head has to be touched as time goes on. The list is read back
as absolute times by `times`, and each operation on the deltas is an operation on those.
-/

namespace DeltaList

open List

variable {α G : Type*}

section Group

variable [AddCommGroup G]

/-- Absolute times of a list that starts at `t`. -/
def times (t : G) : List (α × G) → List (α × G)
  | [] => []
  | x :: l => (x.1, t + x.2) :: times (t + x.2) l

/-- The head takes over `d` from what was before it. -/
def carry (d : G) : List (α × G) → List (α × G)
  | [] => []
  | x :: l => (x.1, x.2 + d) :: l

/-- Remove the first entry with a key in `p`; the next one takes over its delta. -/
def remove (p : α → Bool) : List (α × G) → List (α × G)
  | [] => []
  | x :: l => if p x.1 then carry x.2 l else x :: remove p l

@[simp] theorem times_nil (t : G) : times t ([] : List (α × G)) = [] := rfl

@[simp] theorem times_cons (t : G) (x : α × G) (l : List (α × G)) :
    times t (x :: l) = (x.1, t + x.2) :: times (t + x.2) l := rfl

theorem times_carry (t d : G) (l : List (α × G)) : times t (carry d l) = times (t + d) l := by
  cases l with
  | nil => rfl
  | cons x l => rw [carry, times_cons, times_cons, add_comm x.2 d, ← add_assoc]

theorem carry_zero (l : List (α × G)) : carry 0 l = l := by
  cases l with
  | nil => rfl
  | cons x l => rw [carry, add_zero]

theorem times_add_carry_neg (t d : G) (l : List (α × G)) :
    times (t + d) (carry (-d) l) = times t l := by
  rw [times_carry, add_neg_cancel_right]

theorem map_fst_times (t : G) (l : List (α × G)) : (times t l).map Prod.fst = l.map Prod.fst := by
  induction l generalizing t with
  | nil => rfl
  | cons x l ih => rw [times_cons, map_cons, map_cons, ih]

theorem map_fst_find?_times (p : α → Bool) (t : G) (l : List (α × G)) :
    ((times t l).find? fun x => p x.1).map Prod.fst = (l.find? fun x => p x.1).map Prod.fst := by
  have h := congrArg (List.find? p) (map_fst_times t l)
  rw [List.find?_map, List.find?_map] at h
  exact h

theorem times_remove (p : α → Bool) (t : G) (l : List (α × G)) :
    times t (remove p l) = (times t l).eraseP fun x => p x.1 := by
  induction l generalizing t with
  | nil => rfl
  | cons x l ih =>
    by_cases hp : p x.1 = true
    · rw [remove, if_pos hp, times_carry, times_cons]
      simp only [eraseP_cons, hp, cond_true]
    · rw [remove, if_neg hp, times_cons, times_cons, ih]
      simp only [eraseP_cons, hp, cond_false]

theorem perm_cons_eraseP {p : α → Bool} {l : List α} {x : α} (h : l.find? p = some x) :
    l.Perm (x :: l.eraseP p) := by
  obtain ⟨hp, before, after, rfl, hno⟩ := List.find?_eq_some_iff_append.mp h
  rw [eraseP_append_right _ (by simpa using hno), eraseP_cons_of_pos hp]
  exact perm_middle

end Group

section Order

variable [AddCommGroup G] [LinearOrder G] [IsOrderedAddMonoid G]

/-- Insert a key `x.2` after the start, behind the entries that are not later. -/
def insertDelta (x : α × G) : List (α × G) → List (α × G)
  | [] => [x]
  | y :: l => if x.2 < y.2 then x :: (y.1, y.2 - x.2) :: l else y :: insertDelta (x.1, x.2 - y.2) l

def place (x : α × G) : List (α × G) → List (α × G)
  | [] => [x]
  | y :: l => if x.2 < y.2 then x :: y :: l else y :: place x l

theorem times_insertDelta (x : α × G) (t : G) (l : List (α × G)) :
    times t (insertDelta x l) = place (x.1, t + x.2) (times t l) := by
  induction l generalizing t x with
  | nil => rfl
  | cons y l ih =>
    by_cases hlt : x.2 < y.2
    · have hlt' : t + x.2 < t + y.2 := by gcongr
      rw [insertDelta, if_pos hlt, times_cons t y l, place, if_pos hlt', times_cons, times_cons]
      simp [add_assoc]
    · have hlt' : ¬ t + x.2 < t + y.2 := by simpa using hlt
      rw [insertDelta, if_neg hlt, times_cons t y l, place, if_neg hlt', times_cons, ih]
      simp [add_assoc]

omit [AddCommGroup G] [IsOrderedAddMonoid G] in
theorem perm_place (x : α × G) (l : List (α × G)) : (place x l).Perm (x :: l) := by
  induction l with
  | nil => exact .refl _
  | cons y l ih =>
    by_cases hlt : x.2 < y.2
    · rw [place, if_pos hlt]
    · rw [place, if_neg hlt]
      exact (ih.cons y).trans (List.Perm.swap x y l)

omit [AddCommGroup G] [IsOrderedAddMonoid G] in
theorem pairwise_place {R : α × G → α × G → Prop} {x : α × G} {l : List (α × G)}
    (hmono : ∀ y z, R y z → y.2 ≤ z.2) (hl : l.Pairwise R)
    (hbefore : ∀ y ∈ l, y.2 ≤ x.2 → R y x) (hafter : ∀ y ∈ l, x.2 < y.2 → R x y) :
    (place x l).Pairwise R := by
  induction l with
  | nil => exact pairwise_singleton R x
  | cons y l ih =>
    obtain ⟨hy, hl'⟩ := pairwise_cons.mp hl
    by_cases hlt : x.2 < y.2
    · rw [place, if_pos hlt]
      refine pairwise_cons.mpr ⟨fun z hz => hafter z hz ?_, hl⟩
      rcases mem_cons.mp hz with rfl | hz
      exacts [hlt, hlt.trans_le (hmono y z (hy z hz))]
    rw [place, if_neg hlt]
    refine pairwise_cons.mpr ⟨fun z hz => ?_, ih hl'
      (fun z hz => hbefore z (mem_cons_of_mem y hz))
      (fun z hz => hafter z (mem_cons_of_mem y hz))⟩
    rcases mem_cons.mp ((perm_place x l).mem_iff.mp hz) with rfl | hz
    exacts [hbefore y (by simp) (not_lt.mp hlt), hy z hz]

end Order

end DeltaList
