import Mathlib

/-!
# Circular Arrays

The first-in first-out view of a circular array: `contents slot n r used` lists the `used`
slots from position `r` on, where `slot k` is what stands in slot `k` of the `n`. Positions
may run on past the end; only their remainder counts. Taking from the front moves `r`, adding
at the back writes the slot behind the last one.
-/

namespace Ring

open List

variable {α : Type*}

/-- The `used` slots from position `r` on. -/
def contents (slot : ℕ → α) (n r used : ℕ) : List α :=
  (List.range used).map fun i => slot ((r + i) % n)

section Views

variable (slot : ℕ → α) (n r used : ℕ)

@[simp] theorem length_contents : (contents slot n r used).length = used := by
  simp [contents]

@[simp] theorem contents_zero : contents slot n r 0 = [] := rfl

theorem getElem?_contents {i : ℕ} (h : i < used) :
    (contents slot n r used)[i]? = some (slot ((r + i) % n)) := by
  simp [contents, h]

theorem contents_mod : contents slot n (r % n) used = contents slot n r used := by
  simp [contents]

theorem contents_add (k : ℕ) :
    contents slot n r (used + k) = contents slot n r used ++ contents slot n (r + used) k := by
  simp [contents, range_add, Nat.add_assoc]

theorem contents_succ :
    contents slot n r (used + 1) = slot (r % n) :: contents slot n (r + 1) used := by
  rw [Nat.add_comm used 1, contents_add]
  rfl

theorem contents_snoc :
    contents slot n r (used + 1) = contents slot n r used ++ [slot ((r + used) % n)] := by
  rw [contents_add]
  rfl

end Views

theorem contents_congr {slot slot' : ℕ → α} {n r used : ℕ}
    (h : ∀ i < used, slot' ((r + i) % n) = slot ((r + i) % n)) :
    contents slot' n r used = contents slot n r used :=
  map_congr_left fun i hi => h i (mem_range.mp hi)

theorem mod_ne_mod {n r i j : ℕ} (hij : i < j) (hj : j < i + n) : (r + i) % n ≠ (r + j) % n := by
  intro h
  have hdvd : n ∣ (r + j) - (r + i) := (Nat.modEq_iff_dvd' (by omega)).mp h
  have := Nat.le_of_dvd (by omega) hdvd
  omega

/-- **A write to the first free slot appends.** -/
theorem contents_push {slot slot' : ℕ → α} {n r used : ℕ} (hfree : used < n)
    (hframe : ∀ k < n, k ≠ (r + used) % n → slot' k = slot k) :
    contents slot' n r (used + 1) = contents slot n r used ++ [slot' ((r + used) % n)] := by
  rw [contents_snoc]
  refine congrArg (· ++ _) (contents_congr fun i hi => ?_)
  exact hframe _ (Nat.mod_lt _ (by omega)) (mod_ne_mod hi (by omega))

theorem contents_of_le {slot : ℕ → α} {n r k : ℕ} (h : r % n + k ≤ n) :
    contents slot n r k = (List.range k).map fun i => slot (r % n + i) := by
  refine map_congr_left fun i hi => ?_
  have hi := mem_range.mp hi
  rw [← Nat.mod_add_mod, Nat.mod_eq_of_lt (by omega)]

/-- **A stretch written behind the last slot appends**, if it fits before the end of the array. -/
theorem contents_write {slot slot' : ℕ → α} {n r used : ℕ} {c : List α}
    (hfit : used + c.length ≤ n) (hend : (r + used) % n + c.length ≤ n)
    (hnew : (List.range c.length).map (fun i => slot' ((r + used) % n + i)) = c)
    (hframe : ∀ k, k < (r + used) % n ∨ (r + used) % n + c.length ≤ k → slot' k = slot k) :
    contents slot' n r (used + c.length) = contents slot n r used ++ c := by
  rw [contents_add, contents_of_le hend, hnew]
  refine congrArg (· ++ c) (contents_congr fun i hi => hframe _ ?_)
  by_contra hin
  obtain ⟨j, hj⟩ : ∃ j, (r + i) % n = (r + used) % n + j :=
    ⟨(r + i) % n - (r + used) % n, by omega⟩
  have hlt : ((r + used) % n + j) % n = (r + used) % n + j := Nat.mod_eq_of_lt (by omega)
  have heq : (r + i) % n = (r + (used + j)) % n := by
    rw [hj, ← hlt, Nat.mod_add_mod, Nat.add_assoc]
  exact mod_ne_mod (by omega) (by omega) heq

/-! ### Positions -/

theorem map_contents_id (slot : ℕ → α) (n r used : ℕ) :
    (contents id n r used).map slot = contents slot n r used := by
  simp [contents, Function.comp_def]

theorem lt_of_mem_contents_id {n r used i : ℕ} (hn : 0 < n) (hi : i ∈ contents id n r used) :
    i < n := by
  obtain ⟨j, -, rfl⟩ := mem_map.mp hi
  exact Nat.mod_lt _ hn

theorem contents_id_of_le {n r k : ℕ} (h : r % n + k ≤ n) :
    contents id n r k = List.range' (r % n) k := by
  rw [contents_of_le h, List.range'_eq_map_range]
  rfl

theorem contents_id_disjoint {n r used k : ℕ} (h : used + k ≤ n) :
    (contents id n r used).Disjoint (contents id n (r + used) k) := by
  intro x hx hy
  obtain ⟨i, hi, rfl⟩ := mem_map.mp hx
  obtain ⟨j, hj, hij⟩ := mem_map.mp hy
  rw [mem_range] at hi hj
  rw [Nat.add_assoc] at hij
  exact mod_ne_mod (by omega) (by omega) hij.symm

theorem take_contents (slot : ℕ → α) (n r : ℕ) {used k : ℕ} (h : k ≤ used) :
    (contents slot n r used).take k = contents slot n r k := by
  obtain ⟨m, rfl⟩ := Nat.exists_eq_add_of_le h
  rw [contents_add]
  exact take_left' (length_contents slot n r k)

theorem drop_contents (slot : ℕ → α) (n r : ℕ) {used k : ℕ} (h : k ≤ used) :
    (contents slot n r used).drop k = contents slot n (r + k) (used - k) := by
  obtain ⟨m, rfl⟩ := Nat.exists_eq_add_of_le h
  rw [contents_add, Nat.add_sub_cancel_left]
  exact drop_left' (length_contents slot n r k)

theorem contents_set {slot slot' : ℕ → α} {n r used i : ℕ} (hi : i < used) (hfit : used ≤ n)
    (hframe : ∀ k, k ≠ (r + i) % n → slot' k = slot k) :
    contents slot' n r used = (contents slot n r used).set i (slot' ((r + i) % n)) := by
  refine ext_getElem (by simp) fun j hj _ => ?_
  rw [length_contents] at hj
  rw [getElem_set]
  by_cases hij : i = j
  · subst hij
    simp [contents]
  rw [if_neg hij]
  simp only [contents, getElem_map, getElem_range]
  refine hframe _ ?_
  rcases Nat.lt_or_gt_of_ne hij with hlt | hlt
  · exact (mod_ne_mod hlt (by omega)).symm
  · exact mod_ne_mod hlt (by omega)

end Ring
