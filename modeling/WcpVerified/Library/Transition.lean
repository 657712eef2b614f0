import Mathlib

/-!
# Labelled transition systems with a step function

A system is a set of initial states and a partial step function: `step s l` is the state after
the step labelled `l`, if that step is enabled in `s`. Nondeterminism (which thread runs next, what
the environment answers) is in the label, so that a concrete run can be evaluated.

Most results about a system are of the form "in every run all of whose steps satisfy `ok`, every
state reached satisfies `P`", so reachability carries the condition `ok` on the steps taken.
-/

namespace Transition

/-- A labelled transition system. -/
structure System (σ ℓ : Type*) where
  /-- The states a run may start in. -/
  init : σ → Prop
  /-- The state after a step, if the step is enabled. -/
  step : σ → ℓ → Option σ

namespace System

variable {σ ℓ : Type*} (S : System σ ℓ)

/-- The states reached by runs all of whose steps satisfy `ok`. -/
inductive ReachIn (ok : σ → ℓ → Prop) : σ → Prop where
  | init {s : σ} (h : S.init s) : ReachIn ok s
  | step {s s' : σ} {l : ℓ} (h : ReachIn ok s) (hok : ok s l) (hs : S.step s l = some s') :
      ReachIn ok s'

/-- The states reached by any run. -/
abbrev Reachable : σ → Prop := S.ReachIn fun _ _ => True

/-- The state after the steps `ls`, if they all pass the check `okb` and are enabled in turn. -/
def runIn (okb : σ → ℓ → Bool) : σ → List ℓ → Option σ
  | s, [] => some s
  | s, l :: ls => if okb s l then (S.step s l).bind fun s' => runIn okb s' ls else none

/-- The state after the steps `ls`, if they are all enabled in turn. -/
def run : σ → List ℓ → Option σ := S.runIn fun _ _ => true

variable {S} {ok ok' : σ → ℓ → Prop} {s s' : σ}

/-- The invariant rule. The step case may use that the state before the step is itself reachable,
so that an invariant can be proved on top of others. -/
theorem ReachIn.invariant {P : σ → Prop} (h : S.ReachIn ok s) (h0 : ∀ s, S.init s → P s)
    (hstep : ∀ s l s', S.ReachIn ok s → P s → ok s l → S.step s l = some s' → P s') : P s := by
  induction h with
  | init hi => exact h0 _ hi
  | step hr hok hs ih => exact hstep _ _ _ hr ih hok hs

theorem ReachIn.mono (h : S.ReachIn ok s) (himp : ∀ s l, ok s l → ok' s l) : S.ReachIn ok' s := by
  induction h with
  | init hi => exact .init hi
  | step _ hok hs ih => exact .step ih (himp _ _ hok) hs

theorem ReachIn.reachable (h : S.ReachIn ok s) : S.Reachable s :=
  h.mono fun _ _ _ => trivial

/-- A property of every state reached may be assumed of the states in which the steps are taken. -/
theorem ReachIn.and {P : σ → Prop} (h : S.ReachIn ok s) (hP : ∀ s, S.ReachIn ok s → P s) :
    S.ReachIn (fun s l => ok s l ∧ P s) s := by
  induction h with
  | init hi => exact .init hi
  | step hr hok hs ih => exact .step ih ⟨hok, hP _ hr⟩ hs

/-- If every step leads on in a preorder, a step of a run to `s` leads to a state before `s`. -/
theorem ReachIn.before {r : σ → σ → Prop} (hrefl : ∀ s, r s s)
    (htrans : ∀ s t u, r s t → r t u → r s u) (hstep : ∀ s l s', S.step s l = some s' → r s s')
    (h : S.ReachIn ok s) :
    S.ReachIn (fun t l => ok t l ∧ ∃ t', S.step t l = some t' ∧ r t' s) s := by
  induction h with
  | init hi => exact .init hi
  | step _ hok hs ih =>
    refine .step (ih.mono fun t l hl => ?_) ⟨hok, _, hs, hrefl _⟩ hs
    obtain ⟨hokt, t', ht', hr⟩ := hl
    exact ⟨hokt, t', ht', htrans _ _ _ hr (hstep _ _ _ hs)⟩

/-- Forward simulation: if `f` takes the steps of one system to steps of another, as long as an
invariant holds that these steps keep, then it takes runs to runs. -/
theorem ReachIn.simulates {τ : Type*} {T : System τ ℓ} {f : σ → τ} {I : σ → Prop}
    {okT : τ → ℓ → Prop} (h0 : ∀ s, S.init s → T.init (f s) ∧ I s)
    (hstep : ∀ s l s', I s → T.ReachIn okT (f s) → ok s l → S.step s l = some s' →
      okT (f s) l ∧ T.step (f s) l = some (f s') ∧ I s')
    (h : S.ReachIn ok s) : T.ReachIn okT (f s) ∧ I s := by
  induction h with
  | init hi => exact ⟨.init (h0 _ hi).1, (h0 _ hi).2⟩
  | step hr hok hs ih =>
    obtain ⟨hokT, hsT, hI⟩ := hstep _ _ _ ih.2 ih.1 hok hs
    exact ⟨.step ih.1 hokT hsT, hI⟩

/-- A run whose steps pass a check that implies `ok` stays in the states reached so. -/
theorem ReachIn.of_runIn {okb : σ → ℓ → Bool} (hok : ∀ s l, okb s l = true → ok s l) {ls : List ℓ}
    (h : S.ReachIn ok s) (hr : S.runIn okb s ls = some s') : S.ReachIn ok s' := by
  induction ls generalizing s with
  | nil => rw [runIn, Option.some.injEq] at hr; exact hr ▸ h
  | cons l ls ih =>
    rw [runIn] at hr
    split at hr
    · rename_i hb
      obtain ⟨t, ht, hrest⟩ := Option.bind_eq_some_iff.mp hr
      exact ih (.step h (hok _ _ hb) ht) hrest
    · cases hr

/-- A state with a property that a checked run reaches. -/
theorem ReachIn.exists_of_runIn {okb : σ → ℓ → Bool} (hok : ∀ s l, okb s l = true → ok s l)
    {s₀ : σ} (h0 : S.init s₀) (ls : List ℓ) (p : σ → Bool)
    (h : (S.runIn okb s₀ ls).any p = true) : ∃ s, S.ReachIn ok s ∧ p s = true := by
  cases hs : S.runIn okb s₀ ls with
  | none => rw [hs] at h; cases h
  | some s => exact ⟨s, .of_runIn hok (.init h0) hs, by rwa [hs] at h⟩

/-- A state with a property that a run reaches. -/
theorem Reachable.exists_of_run {s₀ : σ} (h0 : S.init s₀) (ls : List ℓ) (p : σ → Bool)
    (h : (S.run s₀ ls).any p = true) : ∃ s, S.Reachable s ∧ p s = true :=
  ReachIn.exists_of_runIn (fun _ _ _ => trivial) h0 ls p h

end System

end Transition
