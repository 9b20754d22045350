import Iu9Db.Lib.Computation
import Iu9Db.Lib.Keyed

/-!
# The halving search over a test that may have effects

`lowerBoundM p n` asks `p` at the positions that `lowerBound` asks at. With a test that runs alike it
runs alike (`lowerBoundM_rel`). `Arrives` is where the search comes to when the test has a state and may
stop it.
-/

namespace Keyed

section
variable {m : Type → Type} [Monad m] (p : Nat → m Bool)

/-- The loop of `lowerBoundM`. -/
def lowerBoundLoopM : Nat → Nat → Nat → m Nat
  | 0, first, _ => pure first
  | fuel + 1, first, len =>
    if len = 0 then pure first
    else do
      if ← p (first + len / 2) then lowerBoundLoopM fuel (first + len / 2 + 1) (len - len / 2 - 1)
      else lowerBoundLoopM fuel first (len / 2)

/-- `std::lower_bound` over positions. -/
def lowerBoundM (n : Nat) : m Nat := lowerBoundLoopM p n 0 n

end

section rel
variable {m m' : Type → Type} [Monad m] [Monad m'] (R : Likeness m m') {p : Nat → m Bool} {p' : Nat → m' Bool}
  {n : Nat}

theorem lowerBoundLoopM_rel (hp : ∀ i < n, R.rel (fun _ => True) (p i) (p' i)) :
    ∀ fuel first len, first + len ≤ n →
      R.rel (fun r => r ≤ n) (lowerBoundLoopM p fuel first len) (lowerBoundLoopM p' fuel first len)
  | 0, first, len, hlen => R.pure (by omega)
  | fuel + 1, first, len, hlen => by
    unfold lowerBoundLoopM
    by_cases h0 : len = 0
    · rw [if_pos h0, if_pos h0]
      exact R.pure (by omega)
    · rw [if_neg h0, if_neg h0]
      refine R.bind (hp _ (by omega)) fun b _ => ?_
      cases b with
      | true => exact lowerBoundLoopM_rel hp fuel _ _ (by omega)
      | false => exact lowerBoundLoopM_rel hp fuel _ _ (by omega)

theorem lowerBoundM_rel (hp : ∀ i < n, R.rel (fun _ => True) (p i) (p' i)) :
    R.rel (fun r => r ≤ n) (lowerBoundM p n) (lowerBoundM p' n) :=
  lowerBoundLoopM_rel R hp n 0 n (by omega)

end rel

theorem lowerBoundLoopM_id (p : Nat → Bool) : ∀ fuel first len,
    lowerBoundLoopM (m := Id) p fuel first len = lowerBoundLoop p fuel first len
  | 0, _, _ => rfl
  | fuel + 1, first, len => by
    unfold lowerBoundLoopM lowerBoundLoop
    rw [← lowerBoundLoopM_id p fuel, ← lowerBoundLoopM_id p fuel]
    split
    · rfl
    · cases p (first + len / 2) <;> rfl

theorem lowerBoundM_id (p : Nat → Bool) (n : Nat) : lowerBoundM (m := Id) p n = lowerBound p n :=
  lowerBoundLoopM_id p n 0 n

/-- Where a search stops, and not at the end, the answer was no; at the position before it was yes. -/
theorem lowerBoundLoopM_stop {p : Nat → Option Bool} : ∀ {fuel first len r : Nat}, len ≤ fuel →
    lowerBoundLoopM p fuel first len = some r →
      first ≤ r ∧ r ≤ first + len ∧ (r < first + len → p r = some false) ∧ (first < r → p (r - 1) = some true)
  | 0, first, len, r, hlen, h => by
    obtain rfl := Option.some.inj h
    exact ⟨le_rfl, Nat.le_add_right _ _, fun hlt => by omega, fun hlt => by omega⟩
  | fuel + 1, first, len, r, hlen, h => by
    unfold lowerBoundLoopM at h
    by_cases h0 : len = 0
    · rw [if_pos h0] at h
      obtain rfl := Option.some.inj h
      exact ⟨le_rfl, Nat.le_add_right _ _, fun hlt => by omega, fun hlt => by omega⟩
    · rw [if_neg h0] at h
      obtain ⟨b, hb, h⟩ := Option.bind_eq_some_iff.1 h
      cases b with
      | true =>
        obtain ⟨hge, hle, hno, hyes⟩ := lowerBoundLoopM_stop (by omega) h
        refine ⟨by omega, by omega, fun hlt => hno (by omega), fun _ => ?_⟩
        by_cases hr : r = first + len / 2 + 1
        · rw [hr, Nat.add_sub_cancel]
          exact hb
        · exact hyes (by omega)
      | false =>
        obtain ⟨hge, hle, hno, hyes⟩ := lowerBoundLoopM_stop (by omega) h
        refine ⟨hge, by omega, fun _ => ?_, hyes⟩
        by_cases hr : r = first + len / 2
        · rw [hr]
          exact hb
        · exact hno (by omega)

section stateful
variable {σ : Type} (p : Nat → StateT σ Option Bool) (n : Nat) (s₀ : σ)

/-- The search comes to `len` positions from `first` on, with the state `s`. -/
inductive Arrives : Nat → Nat → σ → Prop
  | start : Arrives 0 n s₀
  | right {first len : Nat} {s s' : σ} (h : Arrives first len s) (hlen : len ≠ 0)
      (hp : p (first + len / 2) s = some (true, s')) : Arrives (first + len / 2 + 1) (len - len / 2 - 1) s'
  | left {first len : Nat} {s s' : σ} (h : Arrives first len s) (hlen : len ≠ 0)
      (hp : p (first + len / 2) s = some (false, s')) : Arrives first (len / 2) s'

variable {p n s₀} {first len : Nat} {s s' : σ}

theorem lowerBoundLoopM_right {fuel : Nat} (hlen : len ≠ 0) (hp : p (first + len / 2) s = some (true, s')) :
    lowerBoundLoopM p (fuel + 1) first len s = lowerBoundLoopM p fuel (first + len / 2 + 1)
    (len - len / 2 - 1) s' := by
  rw [lowerBoundLoopM, if_neg hlen]
  show (p (first + len / 2) s).bind _ = _
  rw [hp]
  rfl

theorem lowerBoundLoopM_left {fuel : Nat} (hlen : len ≠ 0) (hp : p (first + len / 2) s = some (false, s')) :
    lowerBoundLoopM p (fuel + 1) first len s = lowerBoundLoopM p fuel first (len / 2) s' := by
  rw [lowerBoundLoopM, if_neg hlen]
  show (p (first + len / 2) s).bind _ = _
  rw [hp]
  rfl

theorem lowerBoundLoopM_none {fuel : Nat} (hlen : len ≠ 0) (hp : p (first + len / 2) s = none) :
    lowerBoundLoopM p (fuel + 1) first len s = none := by
  rw [lowerBoundLoopM, if_neg hlen]
  show (p (first + len / 2) s).bind _ = _
  rw [hp]
  rfl

theorem Arrives.le (h : Arrives p n s₀ first len s) : first + len ≤ n := by
  induction h with
  | start => omega
  | right _ hlen _ ih => omega
  | left _ _ _ ih => omega

theorem Arrives.lowerBoundM_eq (h : Arrives p n s₀ first len s) :
    ∃ fuel, len ≤ fuel ∧ lowerBoundM p n s₀ = lowerBoundLoopM p fuel first len s := by
  induction h with
  | start => exact ⟨n, le_rfl, rfl⟩
  | right h hlen hp ih =>
    obtain ⟨fuel, hfuel, heq⟩ := ih
    cases fuel with
    | zero => omega
    | succ fuel => exact ⟨fuel, by omega, heq.trans (lowerBoundLoopM_right hlen hp)⟩
  | left h hlen hp ih =>
    obtain ⟨fuel, hfuel, heq⟩ := ih
    cases fuel with
    | zero => omega
    | succ fuel => exact ⟨fuel, by omega, heq.trans (lowerBoundLoopM_left hlen hp)⟩

theorem Arrives.lowerBoundM_eq_some (h : Arrives p n s₀ first 0 s) :
    lowerBoundM p n s₀ = some (first, s) := by
  obtain ⟨fuel, -, heq⟩ := h.lowerBoundM_eq
  rw [heq]
  cases fuel <;> rfl

theorem Arrives.lowerBoundM_eq_none (h : Arrives p n s₀ first len s) (hlen : len ≠ 0)
    (hp : p (first + len / 2) s = none) : lowerBoundM p n s₀ = none := by
  obtain ⟨fuel, hfuel, heq⟩ := h.lowerBoundM_eq
  rw [heq]
  cases fuel with
  | zero => omega
  | succ fuel => exact lowerBoundLoopM_none hlen hp

/-- The search ends, unless it comes to a test that does not. -/
theorem Arrives.ends : ∀ {len first : Nat} {s : σ}, Arrives p n s₀ first len s →
    (∀ first len s, Arrives p n s₀ first len s → len ≠ 0 → p (first + len / 2) s ≠ none) →
    ∃ first s, Arrives p n s₀ first 0 s := by
  intro len
  induction len using Nat.strong_induction_on with
  | _ len ih =>
    intro first s h hp
    by_cases hlen : len = 0
    · exact ⟨first, s, hlen ▸ h⟩
    · obtain ⟨⟨b, s'⟩, hb⟩ := Option.ne_none_iff_exists'.1 (hp first len s h hlen)
      cases b with
      | true => exact ih _ (by omega) (.right h hlen hb) hp
      | false => exact ih _ (by omega) (.left h hlen hb) hp

end stateful

end Keyed
