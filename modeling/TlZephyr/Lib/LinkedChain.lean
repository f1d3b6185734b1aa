import Mathlib

/-!
# Linked Chains

Nodes that hold a pointer to the next one, or none. `Seg next p l q` says that the nodes from the
pointer `p` on are those of `l`, and that the last of them points to `q`.
-/

namespace LinkedChain

variable {α : Type*} {next next' : α → Option α} {p q r : Option α} {l l' : List α} {a b : α}

/-- Nodes from `p` to `q`. -/
def Seg (next : α → Option α) : Option α → List α → Option α → Prop
  | p, [], q => p = q
  | p, a :: l, q => p = some a ∧ Seg next (next a) l q

@[simp] theorem seg_nil : Seg next p [] q ↔ p = q := Iff.rfl

@[simp] theorem seg_cons : Seg next p (a :: l) q ↔ p = some a ∧ Seg next (next a) l q := Iff.rfl

/-- **A chain in two parts.** -/
theorem seg_append : Seg next p (l ++ l') q ↔ ∃ r, Seg next p l r ∧ Seg next r l' q := by
  induction l generalizing p with
  | nil => simp
  | cons a l ih => simp only [List.cons_append, seg_cons, ih, exists_and_left, and_assoc]

theorem Seg.drop (h : Seg next p (l ++ a :: l') q) : Seg next (some a) (a :: l') q := by
  obtain ⟨r, -, h⟩ := seg_append.mp h
  exact ⟨rfl, (seg_cons.mp h).2⟩

theorem Seg.next_eq (h : Seg next p (l ++ a :: b :: l') q) : next a = some b := h.drop.2.1

theorem Seg.next_last (h : Seg next p (l ++ [a]) q) : next a = q := h.drop.2

theorem Seg.start_eq (h : Seg next p l q) (h' : Seg next' r l q) : p = r := by
  cases l with
  | nil => exact (seg_nil.mp h).trans (seg_nil.mp h').symm
  | cons a l => exact h.1.trans h'.1.symm

theorem Seg.unique (h : Seg next p l none) (h' : Seg next p l' none) : l = l' := by
  induction l generalizing p l' with
  | nil =>
    cases l' with
    | nil => rfl
    | cons b l' => cases (seg_nil.mp h).symm.trans h'.1
  | cons a l ih =>
    cases l' with
    | nil => cases h.1.symm.trans (seg_nil.mp h')
    | cons b l' =>
      cases h.1.symm.trans h'.1
      rw [ih h.2 h'.2]

/-- **A chain depends on the pointers of its own nodes only.** -/
theorem Seg.congr (h : Seg next p l q) (heq : ∀ a ∈ l, next' a = next a) : Seg next' p l q := by
  induction l generalizing p with
  | nil => exact h
  | cons a l ih =>
    obtain ⟨hp, h⟩ := seg_cons.mp h
    refine ⟨hp, ?_⟩
    rw [heq a List.mem_cons_self]
    exact ih h fun b hb => heq b (List.mem_cons_of_mem _ hb)

section stores

variable [DecidableEq α]

theorem Seg.update (h : Seg next p l q) (ha : a ∉ l) : Seg (Function.update next a r) p l q :=
  h.congr fun _ hb => Function.update_of_ne (ne_of_mem_of_not_mem hb ha) _ _

/-- **A store to the last pointer.** -/
theorem Seg.redirect (h : Seg next p (l ++ [a]) q) (ha : a ∉ l) :
    Seg (Function.update next a r) p (l ++ [a]) r := by
  obtain ⟨s, hl, hs, -⟩ := seg_append.mp h
  exact seg_append.mpr ⟨s, hl.update ha, hs, Function.update_self _ _ _⟩

/-- **A node taken out** by a store to the one before it. -/
theorem Seg.unlink (h : Seg next p (l ++ a :: b :: l') q) (hnodup : (l ++ a :: b :: l').Nodup) :
    Seg (Function.update next a (next b)) p (l ++ a :: l') q := by
  obtain ⟨s, hl, hs, -, hrest⟩ := seg_append.mp h
  obtain ⟨hdis, hcons⟩ : a ∉ l ∧ a ∉ l' := by
    constructor
    · intro ha
      exact List.disjoint_of_nodup_append hnodup ha List.mem_cons_self
    · intro ha
      exact (List.nodup_cons.mp (List.nodup_append.mp hnodup).2.1).1 (List.mem_cons_of_mem _ ha)
  refine seg_append.mpr ⟨s, hl.update hdis, hs, ?_⟩
  rw [Function.update_self]
  exact hrest.update hcons

end stores

end LinkedChain
