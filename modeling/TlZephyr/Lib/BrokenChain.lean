import Mathlib

/-!
# Linked Chains with Missing Links

A chain of nodes in the order in which they were put at its end, where a node is put there
before the link to it is stored: `linking` lists the nodes whose link is still missing, each
with the node in front of it.
-/

namespace BrokenChain

variable {α : Type*} {l : List α} {a b b' : α}

/-! ### Neighbours -/

theorem pair_infix_cons {c : α} :
    [a, b] <:+: c :: l ↔ a = c ∧ l.head? = some b ∨ [a, b] <:+: l := by
  rw [List.infix_cons_iff, List.cons_prefix_cons]
  refine or_congr (and_congr Iff.rfl ?_) Iff.rfl
  cases l with
  | nil => simp
  | cons d l => simp [eq_comm]

theorem pair_infix_concat {n : α} :
    [a, b] <:+: l ++ [n] ↔ l.getLast? = some a ∧ b = n ∨ [a, b] <:+: l := by
  induction l with
  | nil => simp [pair_infix_cons]
  | cons c l ih =>
    rw [List.cons_append, pair_infix_cons, pair_infix_cons, ih]
    cases l with
    | nil =>
      rw [List.nil_append, List.head?_cons, List.head?_nil, List.getLast?_singleton,
        List.getLast?_nil, Option.some_inj, Option.some_inj, eq_comm, @eq_comm _ n b]
      simp
    | cons d l =>
      rw [List.cons_append, List.head?_cons, List.head?_cons, List.getLast?_cons_cons]
      tauto

theorem pair_unique (hl : l.Nodup) (h : [a, b] <:+: l) (h' : [a, b'] <:+: l) : b = b' := by
  induction l with
  | nil => simp at h
  | cons c l ih =>
    obtain ⟨hc, hl⟩ := List.nodup_cons.mp hl
    rcases pair_infix_cons.mp h with ⟨rfl, hb⟩ | hin
    · rcases pair_infix_cons.mp h' with ⟨-, hb'⟩ | hin'
      · exact Option.some.inj (hb.symm.trans hb')
      · exact absurd (hin'.subset (by simp)) hc
    · rcases pair_infix_cons.mp h' with ⟨rfl, -⟩ | hin'
      · exact absurd (hin.subset (by simp)) hc
      · exact ih hl hin hin'

theorem getLast?_ne_of_pair (hl : l.Nodup) (h : [a, b] <:+: l) : l.getLast? ≠ some a := by
  induction l with
  | nil => simp at h
  | cons c l ih =>
    obtain ⟨hc, hl⟩ := List.nodup_cons.mp hl
    rcases pair_infix_cons.mp h with ⟨rfl, hb⟩ | hin
    · cases l with
      | nil => simp at hb
      | cons d l =>
        rw [List.getLast?_cons_cons]
        exact fun hlast => hc (List.mem_of_getLast? hlast)
    cases l with
    | nil => simp at hin
    | cons d l =>
      rw [List.getLast?_cons_cons]
      exact ih hl hin

end BrokenChain

/-! ### Chains -/

/-- The chain `l`, linked by `next` but for the nodes in `linking`, each with its predecessor. -/
structure BrokenChain {α : Type*} (next : α → Option α) (linking : List (α × α)) (l : List α) :
    Prop where
  nodup : l.Nodup
  linked : ∀ a b, [a, b] <:+: l → next a = some b ∨ next a = none ∧ (b, a) ∈ linking
  last : ∀ a, l.getLast? = some a → next a = none
  adjacent : ∀ x ∈ linking, [x.2, x.1] <:+: l
  unlinked : ∀ x ∈ linking, next x.2 = none

namespace BrokenChain

variable {α : Type*} [DecidableEq α] {next : α → Option α} {linking : List (α × α)} {l : List α}

theorem update_of_notMem (h : BrokenChain next linking l) {n : α} (hn : n ∉ l) (v : Option α) :
    BrokenChain (Function.update next n v) linking l := by
  have hne : ∀ a ∈ l, Function.update next n v a = next a :=
    fun a ha => Function.update_of_ne (fun heq : a = n => hn (heq ▸ ha)) _ _
  refine ⟨h.nodup, fun a b hab => ?_, fun a ha => ?_, h.adjacent, fun x hx => ?_⟩
  · rw [hne a (hab.subset (by simp))]
    exact h.linked a b hab
  · rw [hne a (List.mem_of_getLast? ha)]
    exact h.last a ha
  · rw [hne x.2 ((h.adjacent x hx).subset (by simp))]
    exact h.unlinked x hx

omit [DecidableEq α] in
/-- **A node is put at the end**; the link to it is missing. -/
theorem push (h : BrokenChain next linking l) {n prev : α} (hprev : l.getLast? = some prev)
    (hn : n ∉ l) (hnext : next n = none) :
    BrokenChain next (linking ++ [(n, prev)]) (l ++ [n]) := by
  refine ⟨?_, fun a b hab => ?_, fun a ha => ?_, fun x hx => ?_, fun x hx => ?_⟩
  · rw [List.nodup_append]
    exact ⟨h.nodup, List.nodup_singleton n, fun a ha b hb hab => hn (by simp_all)⟩
  · rcases pair_infix_concat.mp hab with ⟨hlast, rfl⟩ | hab
    · obtain rfl : prev = a := Option.some.inj (hprev.symm.trans hlast)
      exact .inr ⟨h.last _ hlast, by simp⟩
    · rcases h.linked a b hab with hlink | ⟨hnone, hmem⟩
      · exact .inl hlink
      · exact .inr ⟨hnone, List.mem_append_left _ hmem⟩
  · rw [List.getLast?_concat] at ha
    exact Option.some.inj ha ▸ hnext
  · rw [pair_infix_concat]
    rcases List.mem_append.mp hx with hx | hx
    · exact .inr (h.adjacent x hx)
    · rw [List.mem_singleton.mp hx]
      exact .inl ⟨hprev, rfl⟩
  · rcases List.mem_append.mp hx with hx | hx
    · exact h.unlinked x hx
    · rw [List.mem_singleton.mp hx]
      exact h.last _ hprev

/-- **A missing link is stored.** -/
theorem link (h : BrokenChain next linking l) (hnodup : linking.Nodup) {n prev : α}
    (hmem : (n, prev) ∈ linking) :
    BrokenChain (Function.update next prev (some n)) (linking.erase (n, prev)) l := by
  have hpair := h.adjacent _ hmem
  refine ⟨h.nodup, fun a b hab => ?_, fun a ha => ?_, fun x hx => ?_, fun x hx => ?_⟩
  · by_cases ha : a = prev
    · subst ha
      rw [Function.update_self, pair_unique h.nodup hab hpair]
      exact .inl rfl
    rw [Function.update_of_ne ha]
    rcases h.linked a b hab with hlink | ⟨hnone, hin⟩
    · exact .inl hlink
    · refine .inr ⟨hnone, (List.mem_erase_of_ne fun heq => ha ?_).mpr hin⟩
      exact congrArg Prod.snd heq
  · have hne : a ≠ prev := fun heq => getLast?_ne_of_pair h.nodup hpair (heq ▸ ha)
    rw [Function.update_of_ne hne]
    exact h.last a ha
  · exact h.adjacent x (List.mem_of_mem_erase hx)
  obtain ⟨hne, hx⟩ := hnodup.mem_erase_iff.mp hx
  have hprev : x.2 ≠ prev := by
    intro heq
    refine hne (Prod.ext ?_ heq)
    have hpair' := h.adjacent x hx
    rw [heq] at hpair'
    exact pair_unique h.nodup hpair' hpair
  rw [Function.update_of_ne hprev]
  exact h.unlinked x hx

omit [DecidableEq α] in
/-- **The front is taken off** once its link is stored. -/
theorem advance {a b : α} (h : BrokenChain next linking (a :: l)) (hnext : next a = some b) :
    l.head? = some b ∧ BrokenChain next linking l := by
  have hhead : l.head? = some b := by
    cases l with
    | nil =>
      have := h.last a rfl
      rw [hnext] at this
      cases this
    | cons c l =>
      rcases h.linked a c (pair_infix_cons.mpr (.inl ⟨rfl, rfl⟩)) with hlink | ⟨hnone, -⟩
      · rw [hnext] at hlink
        exact hlink.symm
      · rw [hnext] at hnone
        cases hnone
  refine ⟨hhead, (List.nodup_cons.mp h.nodup).2,
    fun c d hcd => h.linked c d (pair_infix_cons.mpr (.inr hcd)), fun c hc => h.last c ?_,
    fun x hx => ?_, h.unlinked⟩
  · cases l with
    | nil => simp at hhead
    | cons d l => rwa [List.getLast?_cons_cons]
  rcases pair_infix_cons.mp (h.adjacent x hx) with ⟨heq, -⟩ | hin
  · have := h.unlinked x hx
    rw [heq, hnext] at this
    cases this
  · exact hin

omit [DecidableEq α] in
theorem exists_linking {a : α} (h : BrokenChain next linking (a :: l)) (hnext : next a = none) :
    l = [] ∨ ∃ b, l.head? = some b ∧ (b, a) ∈ linking := by
  rcases l with _ | ⟨b, l⟩
  · exact .inl rfl
  rcases h.linked a b (pair_infix_cons.mpr (.inl ⟨rfl, rfl⟩)) with hlink | ⟨-, hin⟩
  · rw [hnext] at hlink
    cases hlink
  · exact .inr ⟨b, rfl, hin⟩

end BrokenChain
