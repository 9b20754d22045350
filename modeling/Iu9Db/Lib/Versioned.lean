import Mathlib

/-!
# The newest of several versioned items

`IsNewest ver l a`: `a` is in `l` and no item of `l` has a greater version. `newestOf` is the scan
that keeps the first item of the greatest version.
-/

namespace Versioned

variable {α N : Type} [LinearOrder N] (ver : α → N)

structure IsNewest (l : List α) (a : α) : Prop where
  mem : a ∈ l
  le : ∀ b ∈ l, ver b ≤ ver a

/-- The scan: a later item replaces the best one only if its version is greater. -/
def newestOf (l : List α) : Option α :=
  l.foldl (fun best a => match best with
    | none => some a
    | some b => if ver b < ver a then some a else some b) none

variable {ver} {l l' : List α} {a b : α}

/-- What the running maximum of a list is at least. -/
theorem le_foldl_max {x n : N} {ns : List N} : x ≤ ns.foldl max n ↔ x ≤ n ∨ ∃ m ∈ ns, x ≤ m := by
  induction ns generalizing n with
  | nil => simp
  | cons m ns ih => simp [ih, or_assoc]

theorem newestOf_concat (l : List α) (a : α) :
    newestOf ver (l ++ [a]) = match newestOf ver l with
      | none => some a
      | some b => if ver b < ver a then some a else some b := by
  simp [newestOf, List.foldl_append]

theorem newestOf_eq_none : newestOf ver l = none ↔ l = [] := by
  induction l using List.reverseRecOn with
  | nil => simp [newestOf]
  | append_singleton l a ih =>
    rw [newestOf_concat]
    split
    · simp
    · split <;> simp

theorem isNewest_newestOf (h : newestOf ver l = some a) : IsNewest ver l a := by
  induction l using List.reverseRecOn generalizing a with
  | nil => cases h
  | append_singleton l c ih =>
    rw [newestOf_concat] at h
    split at h
    · rename_i hn
      obtain rfl := newestOf_eq_none.1 hn
      cases h
      exact ⟨by simp, by simp⟩
    · rename_i b hb
      have hnew := ih hb
      split at h <;> cases h
      · rename_i hlt
        refine ⟨by simp, fun d hd => ?_⟩
        rcases List.mem_append.1 hd with hd | hd
        · exact (hnew.le d hd).trans hlt.le
        · rw [List.mem_singleton.1 hd]
      · rename_i hlt
        refine ⟨by simp [hnew.mem], fun d hd => ?_⟩
        rcases List.mem_append.1 hd with hd | hd
        · exact hnew.le d hd
        · rw [List.mem_singleton.1 hd]; exact not_lt.1 hlt

end Versioned
