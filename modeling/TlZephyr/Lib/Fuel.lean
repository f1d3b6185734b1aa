import Mathlib

/-!
# Loops with Fuel

A function with loops that may not end takes fuel, which bounds its recursion, and gives `none`
when the fuel runs out. `Ends f r` says that `f` ends with the result `r`: every amount of fuel
from some amount on gives `r`. The rules below build such facts along a program, call by call and
round by round.

`loop` is a loop given by its body, which goes on with a new state or leaves the loop with a
result. Whether it ends is a question of the relation between its states, and of its cycles if
there are finitely many.
-/

namespace Fuel

variable {α β : Type*}

/-- The function `f` ends with the result `r`. -/
def Ends (f : ℕ → Option α) (r : α) : Prop := ∃ n, ∀ m, n ≤ m → f m = some r

theorem Ends.const (r : α) : Ends (fun _ => some r) r := ⟨0, fun _ _ => rfl⟩

theorem Ends.congr {f g : ℕ → Option α} {r : α} (h : ∀ n, f n = g n) (hg : Ends g r) :
    Ends f r := by
  obtain ⟨n, hn⟩ := hg
  exact ⟨n, fun m hm => (h m).trans (hn m hm)⟩

theorem Ends.bind {f : ℕ → Option α} {g : ℕ → α → Option β} {a : α} {b : β} (hf : Ends f a)
    (hg : Ends (fun n => g n a) b) : Ends (fun n => (f n).bind (g n)) b := by
  obtain ⟨n, hn⟩ := hf
  obtain ⟨m, hm⟩ := hg
  refine ⟨max n m, fun k hk => ?_⟩
  dsimp only
  rw [hn k (le_trans (le_max_left _ _) hk), Option.bind_some]
  exact hm k (le_trans (le_max_right _ _) hk)

theorem Ends.map {f : ℕ → Option α} {a : α} (hf : Ends f a) (g : α → β) :
    Ends (fun n => (f n).map g) (g a) := by
  obtain ⟨n, hn⟩ := hf
  exact ⟨n, fun m hm => congrArg (Option.map g) (hn m hm)⟩

theorem Ends.round {f g : ℕ → Option α} {r : α} (h : ∀ n, f (n + 1) = g n) (hg : Ends g r) :
    Ends f r := by
  obtain ⟨n, hn⟩ := hg
  refine ⟨n + 1, fun m hm => ?_⟩
  rcases m with _ | k
  · omega
  rw [h, hn k (by omega)]

theorem Ends.last {f : ℕ → Option α} {r : α} (h : ∀ n, f (n + 1) = some r) : Ends f r :=
  .round h (.const r)

theorem Ends.unique {f : ℕ → Option α} {a b : α} (ha : Ends f a) (hb : Ends f b) : a = b := by
  obtain ⟨n, hn⟩ := ha
  obtain ⟨m, hm⟩ := hb
  have h := hn (max n m) (le_max_left _ _)
  rw [hm (max n m) (le_max_right n m)] at h
  exact (Option.some_inj.mp h).symm

/-! ### Cycles -/

variable {α : Type*}

open Relation in
theorem not_transGen_of_acc {r : α → α → Prop} {a : α} (h : Acc (flip r) a) : ¬ TransGen r a a := by
  intro hr
  have ht : TransGen (flip r) a a := transGen_swap.mpr hr
  have hacc := h.transGen
  clear h hr
  induction hacc with
  | intro b _ ih => exact ih b ht ht

open Relation in
theorem acc_of_no_cycle {r : α → α → Prop} {a : α} (hfin : {b | ReflTransGen r a b}.Finite)
    (h : ∀ b, ReflTransGen r a b → ¬ TransGen r b b) : Acc (flip r) a := by
  let S := {b | ReflTransGen r a b}
  have : Finite S := hfin
  let t : S → S → Prop := fun b c => TransGen r c b
  have : IsTrans S t := ⟨fun _ _ _ hab hbc => hbc.trans hab⟩
  have : Std.Irrefl t := ⟨fun b hb => h b b.2 hb⟩
  have hacc := (Finite.wellFounded_of_trans_of_irrefl t).apply ⟨a, .refl⟩
  suffices hb : ∀ b : S, Acc t b → Acc (flip r) b from hb _ hacc
  intro b hb
  induction hb with
  | intro b _ ih => exact ⟨_, fun c hc => ih ⟨c, b.2.tail hc⟩ (.single hc)⟩

/-! ### Loops -/

variable {σ ρ : Type*} {body : σ → σ ⊕ ρ} {s s' : σ} {r : ρ}

/-- Repeat `body` until it gives a result. -/
def loop (body : σ → σ ⊕ ρ) : ℕ → σ → Option ρ
  | 0, _ => none
  | n + 1, s => (body s).elim (loop body n) some

theorem loop_inl (h : body s = .inl s') (n : ℕ) : loop body (n + 1) s = loop body n s' := by
  rw [loop, h, Sum.elim_inl]

theorem loop_inr (h : body s = .inr r) (n : ℕ) : loop body (n + 1) s = some r := by
  rw [loop, h, Sum.elim_inr]

theorem ends_loop_inl (h : body s = .inl s') :
    Ends (fun n => loop body n s) r ↔ Ends (fun n => loop body n s') r := by
  refine ⟨fun ⟨n, hn⟩ => ⟨n, fun m hm => ?_⟩, .round (loop_inl h)⟩
  exact (loop_inl h m).symm.trans (hn (m + 1) (by omega))

theorem ends_loop_inr {r' : ρ} (h : body s = .inr r') :
    Ends (fun n => loop body n s) r ↔ r = r' := by
  have hr : Ends (fun n => loop body n s) r' := .last (loop_inr h)
  exact ⟨fun hs => hs.unique hr, fun hs => hs ▸ hr⟩

theorem ends_loop_of_eq_some {n : ℕ} (h : loop body n s = some r) :
    Ends (fun n => loop body n s) r := by
  induction n generalizing s with
  | zero => cases h
  | succ n ih =>
    cases hb : body s with
    | inl s' => exact (ends_loop_inl hb).mpr (ih (by rwa [loop_inl hb] at h))
    | inr r' =>
      rw [loop_inr hb, Option.some_inj] at h
      exact (ends_loop_inr hb).mpr h.symm

theorem exists_ends_loop_iff :
    (∃ r, Ends (fun n => loop body n s) r) ↔ Acc (fun s' s => body s = .inl s') s := by
  constructor
  · rintro ⟨r, n, hn⟩
    replace hn : loop body n s = some r := hn n le_rfl
    induction n generalizing s with
    | zero => cases hn
    | succ n ih =>
      refine ⟨s, fun s' hb => ih ?_⟩
      rwa [← loop_inl hb]
  intro h
  induction h with
  | intro s _ ih =>
    cases hb : body s with
    | inl s' => exact (ih s' hb).imp fun r hr => (ends_loop_inl hb).mpr hr
    | inr r => exact ⟨r, (ends_loop_inr hb).mpr rfl⟩

theorem loop_ends_of_variant (inv : σ → Prop) (variant : σ → ℕ)
    (h : ∀ s s', inv s → body s = .inl s' → inv s' ∧ variant s' < variant s) (hs : inv s) :
    ∃ r, Ends (fun n => loop body n s) r := by
  induction hn : variant s using Nat.strong_induction_on generalizing s with
  | _ n ih =>
    cases hb : body s with
    | inl s' =>
      obtain ⟨hs', hlt⟩ := h s s' hs hb
      obtain ⟨r, hr⟩ := ih (variant s') (hn ▸ hlt) hs' rfl
      exact ⟨r, (ends_loop_inl hb).mpr hr⟩
    | inr r => exact ⟨r, (ends_loop_inr hb).mpr rfl⟩

theorem Ends.loop_result (post : ρ → Prop) (inv : σ → Prop)
    (hstep : ∀ s s', inv s → body s = .inl s' → inv s')
    (hdone : ∀ s r, inv s → body s = .inr r → post r) (hs : inv s) :
    Ends (fun n => loop body n s) r → post r := by
  rintro ⟨n, hn⟩
  replace hn : loop body n s = some r := hn n le_rfl
  induction n generalizing s with
  | zero => cases hn
  | succ n ih =>
    cases hb : body s with
    | inl s' =>
      rw [loop_inl hb] at hn
      exact ih (hstep s s' hs hb) hn
    | inr r' =>
      rw [loop_inr hb, Option.some_inj] at hn
      exact hn ▸ hdone s r' hs hb

end Fuel
