import Mathlib

/-!
# A priority queue by its contract

`popTop less q` takes out of `q` an element that no other is greater than, for a comparison `less`
that is a strict order on the elements of `q`. Nothing else about the queue's layout is used.
-/

namespace PriorityQueue

variable {α : Type} (less : α → α → Bool)

/-- The greatest element and the others; `none` for the empty queue. -/
def popTop : List α → Option (α × List α)
  | [] => none
  | x :: xs =>
    match popTop xs with
    | none => some (x, [])
    | some (top, rest) => if less x top then some (top, x :: rest) else some (x, top :: rest)

/-- `less` orders the elements of `q` totally. -/
structure Orders (q : List α) : Prop where
  trans : ∀ a ∈ q, ∀ b ∈ q, ∀ c ∈ q, less a b = true → less b c = true → less a c = true
  total : q.Pairwise fun a b => less a b = true ∨ less b a = true
  asymm : ∀ a ∈ q, ∀ b ∈ q, less a b = true → less b a = false

variable {less} {q rest : List α} {top : α}

theorem Orders.tail {a : α} (h : Orders less (a :: q)) : Orders less q :=
  ⟨fun a ha b hb c hc => h.trans a (by simp [ha]) b (by simp [hb]) c (by simp [hc]),
    (List.pairwise_cons.1 h.total).2, fun a ha b hb => h.asymm a (by simp [ha]) b (by simp [hb])⟩

theorem popTop_eq_none : popTop less q = none ↔ q = [] := by
  cases q with
  | nil => simp [popTop]
  | cons x xs =>
    simp only [popTop, reduceCtorEq, iff_false]
    split
    · simp
    · split <;> simp

theorem popTop_perm (h : popTop less q = some (top, rest)) : q.Perm (top :: rest) := by
  induction q generalizing top rest with
  | nil => cases h
  | cons x xs ih =>
    simp only [popTop] at h
    split at h
    · rename_i hn
      obtain rfl := popTop_eq_none.1 hn
      cases h
      exact List.Perm.refl _
    · rename_i t r hs
      have := ih hs
      split at h <;> cases h
      · exact (this.cons x).trans (List.Perm.swap ..)
      · exact this.cons x

/-- No other element is above the one taken out. -/
theorem popTop_top (ho : Orders less q) (h : popTop less q = some (top, rest)) :
    ∀ a ∈ rest, less a top = true := by
  induction q generalizing top rest with
  | nil => cases h
  | cons x xs ih =>
    simp only [popTop] at h
    split at h
    · cases h; simp
    · rename_i t r hs
      have hxs := popTop_perm hs
      have ht : t ∈ xs := hxs.mem_iff.2 (by simp)
      have hr : ∀ a ∈ r, a ∈ xs := fun a ha => hxs.mem_iff.2 (by simp [ha])
      split at h <;> cases h
      · rename_i hlt
        intro a ha
        rcases List.mem_cons.1 ha with rfl | ha
        · exact hlt
        · exact ih ho.tail hs a ha
      · rename_i hlt
        have htx : less t x = true :=
          ((List.pairwise_cons.1 ho.total).1 t ht).resolve_left (by simpa using hlt)
        intro a ha
        rcases List.mem_cons.1 ha with rfl | ha
        · exact htx
        · exact ho.trans a (by simp [hr a ha]) t (by simp [ht]) x (by simp) (ih ho.tail hs a ha) htx

/-- Queues whose elements are related and compare alike have related elements at the top. -/
theorem popTop_forall₂ {β : Type} {less' : β → β → Bool} {R : α → β → Prop} {q : List α} {q' : List β}
    (hless : ∀ a b a' b', R a a' → R b b' → less a b = less' a' b') (h : List.Forall₂ R q q') :
    Option.Rel (fun x y => R x.1 y.1 ∧ List.Forall₂ R x.2 y.2) (popTop less q) (popTop less' q') := by
  induction h with
  | nil => exact .none
  | @cons a a' q q' ha hq ih =>
    rw [popTop, popTop]
    generalize popTop less q = x at ih ⊢
    generalize popTop less' q' = y at ih ⊢
    cases ih with
    | none => exact .some ⟨ha, .nil⟩
    | @some x y hxy =>
      obtain ⟨htop, hrest⟩ := hxy
      dsimp only
      rw [hless a x.1 a' y.1 ha htop]
      split
      · exact .some ⟨htop, .cons ha hrest⟩
      · exact .some ⟨ha, .cons htop hrest⟩

end PriorityQueue
