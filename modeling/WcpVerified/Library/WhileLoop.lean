import Mathlib

/-!
# `while` loops

A loop is a condition and a body over a state. It is run with a bound on how often the condition is
tested. There is a rule for loops that are left after a known number of rounds, and one with an
invariant for loops that are never left.
-/

namespace WhileLoop

variable {σ : Type*} (cond : σ → Bool) (body : σ → σ)

/-- `while (cond) body`, testing the condition at most `fuel` times; `none` if it is not left. -/
def run : (fuel : ℕ) → σ → Option σ
  | 0, _ => none
  | fuel + 1, s => if cond s then run fuel (body s) else some s

variable {cond body} {s : σ}

/-- A loop whose condition first fails after `n` rounds. -/
theorem run_iterate {n : ℕ} (hbefore : ∀ k < n, cond (body^[k] s))
    (hend : cond (body^[n] s) = false) : run cond body (n + 1) s = some (body^[n] s) := by
  induction n generalizing s with
  | zero => rw [run, if_neg (by simpa using hend)]; rfl
  | succ n ih =>
    have hcond : cond s := hbefore 0 (Nat.succ_pos n)
    rw [run, if_pos hcond]
    exact ih (fun k hk => hbefore (k + 1) (Nat.succ_lt_succ hk)) hend

/-- A loop whose condition is kept up by its body is never left. -/
theorem run_eq_none (I : σ → Prop) (hcond : ∀ s, I s → cond s) (hstep : ∀ s, I s → I (body s))
    (hs : I s) (fuel : ℕ) : run cond body fuel s = none := by
  induction fuel generalizing s with
  | zero => rfl
  | succ fuel ih =>
    rw [run, if_pos (hcond s hs)]
    exact ih (hstep s hs)

end WhileLoop
