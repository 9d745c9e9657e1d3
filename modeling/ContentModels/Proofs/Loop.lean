import Mathlib.Data.PFun

/-!
# Loops

A loop repeats a step until the step gives a result. It need not end, so what it comes to is a
`Part`: that a loop is some result says that it ends, and with that result.
-/

namespace ContentModels

variable {σ ρ : Type} {step : σ → ρ ⊕ σ} {s s' : σ}

/-- Repeats a step, from a state on, until it gives a result in the place of another state. -/
def loop (step : σ → ρ ⊕ σ) (s : σ) : Part ρ := PFun.fix (fun s => Part.some (step s)) s

/-- A loop ends with the result that its step gives. -/
theorem loop_eq_some {result : ρ} (h : step s = .inl result) : loop step s = .some result :=
  Part.eq_some_iff.2 (PFun.fix_stop (Part.mem_some_iff.2 h.symm))

/-- A loop goes on from the state that its step gives. -/
theorem loop_eq_loop (h : step s = .inr s') : loop step s = loop step s' :=
  PFun.fix_fwd_eq (Part.mem_some_iff.2 h.symm)

end ContentModels
