import Mathlib

/-!
# Lists of pending things

One of them, at a known position, is replaced or taken off.
-/

namespace Pending

variable {α β : Type} {l : List α} {i : Nat} {a b c : α}

theorem mem_eraseIdx_of_ne (ha : l[i]? = some a) (hb : b ∈ l) (hne : b ≠ a) : b ∈ l.eraseIdx i := by
  obtain ⟨j, hj⟩ := List.mem_iff_getElem?.1 hb
  refine List.mem_eraseIdx_iff_getElem?.2 ⟨j, ?_, hj⟩
  rintro rfl
  exact hne (Option.some.inj (hj.symm.trans ha))

theorem mem_set_of_ne (ha : l[i]? = some a) (hb : b ∈ l) (hne : b ≠ a) : b ∈ l.set i c := by
  obtain ⟨j, hj⟩ := List.mem_iff_getElem?.1 hb
  refine List.mem_iff_getElem?.2 ⟨j, ?_⟩
  rw [List.getElem?_set_ne ?_, hj]
  rintro rfl
  exact hne (Option.some.inj (hj.symm.trans ha))

/-- What stands before and behind the thing. -/
theorem split_set (ha : l[i]? = some a) (b : α) :
    l = l.take i ++ a :: l.drop (i + 1) ∧ l.set i b = l.take i ++ b :: l.drop (i + 1) := by
  obtain ⟨hi, rfl⟩ := List.getElem?_eq_some_iff.1 ha
  exact ⟨by rw [List.cons_getElem_drop_succ, List.take_append_drop],
    List.set_eq_take_append_cons_drop ▸ if_pos hi⟩

theorem map_set {f : α → β} (ha : l[i]? = some a) (hf : f b = f a) : (l.set i b).map f = l.map f := by
  obtain ⟨hi, rfl⟩ := List.getElem?_eq_some_iff.1 ha
  rw [List.map_set, hf, ← List.map_set, List.set_getElem_self]

theorem countP_set (ha : l[i]? = some a) (b : α) (p : α → Bool) :
    (l.set i b).countP p + (if p a then 1 else 0) = l.countP p + if p b then 1 else 0 := by
  obtain ⟨hi, rfl⟩ := List.getElem?_eq_some_iff.1 ha
  have hle := List.boole_getElem_le_countP (p := p) hi
  rw [List.countP_set hi]
  omega

theorem sum_map_set (ha : l[i]? = some a) (b : α) (f : α → Nat) :
    ((l.set i b).map f).sum + f a = (l.map f).sum + f b := by
  induction l generalizing i with
  | nil => cases ha
  | cons c l ih =>
    cases i with
    | zero =>
      cases ha
      simp only [List.set_cons_zero, List.map_cons, List.sum_cons]
      omega
    | succ i =>
      have := ih (i := i) ha
      simp only [List.set_cons_succ, List.map_cons, List.sum_cons]
      omega

theorem countP_eraseIdx [DecidableEq α] (ha : l[i]? = some a) (p : α → Bool) :
    l.countP p = (l.eraseIdx i).countP p + if p a then 1 else 0 := by
  obtain ⟨hi, rfl⟩ := List.getElem?_eq_some_iff.1 ha
  have hperm : l.Perm (l[i] :: l.eraseIdx i) :=
    (List.perm_cons_erase (List.getElem_mem hi)).trans ((List.erase_getElem hi).cons _)
  rw [hperm.countP_eq, List.countP_cons]

end Pending
