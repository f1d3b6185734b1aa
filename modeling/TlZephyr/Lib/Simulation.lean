import Mathlib

/-!
# Runs that Refine a Specification

A system takes operations one after the other: `step s op` is the next state and what the
operation returns, or `none` if it fails. A specification relates an abstract state, an operation,
what it returns and the next abstract state.
-/

namespace Simulation

variable {σ τ ω ρ : Type*}

/-- Operations one after the other, with all that they return. -/
def run (step : σ → ω → Option (σ × ρ)) : σ → List ω → Option (σ × List ρ)
  | s, [] => some (s, [])
  | s, op :: ops =>
    (step s op).bind fun x => (run step x.1 ops).map fun y => (y.1, x.2 :: y.2)

inductive Runs (spec : τ → ω → ρ → τ → Prop) : τ → List ω → List ρ → τ → Prop
  | nil (t : τ) : Runs spec t [] [] t
  | cons {t t' t'' : τ} {op : ω} {out : ρ} {ops : List ω} {outs : List ρ}
      (h : spec t op out t') (hs : Runs spec t' ops outs t'') :
      Runs spec t (op :: ops) (out :: outs) t''

/-- Every step of the run, up to one that fails, meets a condition on the state before it. -/
def Along (step : σ → ω → Option (σ × ρ)) (ok : σ → ω → Prop) : σ → List ω → Prop
  | _, [] => True
  | s, op :: ops => ok s op ∧ ∀ x, step s op = some x → Along step ok x.1 ops

/-- **The rule for runs**: if steps that meet the condition refine the specification, so do runs. -/
theorem run_refines {step : σ → ω → Option (σ × ρ)} {ok : σ → ω → Prop}
    (spec : τ → ω → ρ → τ → Prop) (R : σ → τ → Prop)
    (hstep : ∀ s t op, R s t → ok s op → ∃ x t', step s op = some x ∧ spec t op x.2 t' ∧ R x.1 t')
    {s : σ} {t : τ} {ops : List ω} (hR : R s t) (hok : Along step ok s ops) :
    ∃ x t', run step s ops = some x ∧ Runs spec t ops x.2 t' ∧ R x.1 t' := by
  induction ops generalizing s t with
  | nil => exact ⟨(s, []), t, rfl, .nil t, hR⟩
  | cons op ops ih =>
    obtain ⟨x, t', hx, hspec, hR'⟩ := hstep s t op hR hok.1
    obtain ⟨y, t'', hy, hruns, hR''⟩ := ih hR' (hok.2 x hx)
    refine ⟨(y.1, x.2 :: y.2), t'', ?_, .cons hspec hruns, hR''⟩
    rw [run, hx, Option.bind_some, hy, Option.map_some]

end Simulation
