import Mathlib

/-!
# Lists of records with a key

A finite map kept as a list of records in strictly increasing order of a key `κ`. `find κ k l` is
the map it stands for; `lowerBound` is the halving search that reads it (`find_eq_getElem?_lowerBound_of_le`),
and `find_perm` says the map does not depend on how the records were ordered before they were sorted.
`findLast κ k l` reads a list of updates instead: the last record of `k`.
-/

namespace Keyed

/-! ### The halving search -/

/-- The loop of `lowerBound`: the part still to search is `[first, first + len)`. -/
def lowerBoundLoop (p : Nat → Bool) : Nat → Nat → Nat → Nat
  | 0, first, _ => first
  | fuel + 1, first, len =>
    if len = 0 then first
    else if p (first + len / 2) then lowerBoundLoop p fuel (first + len / 2 + 1) (len - len / 2 - 1)
    else lowerBoundLoop p fuel first (len / 2)

/-- The first position below `n` at which `p` fails, for a `p` that holds up to there. -/
def lowerBound (p : Nat → Bool) (n : Nat) : Nat := lowerBoundLoop p n 0 n

theorem lowerBoundLoop_spec {p : Nat → Bool} (hp : ∀ i j, i ≤ j → p j = true → p i = true) :
    ∀ fuel first len, len ≤ fuel →
      let r := lowerBoundLoop p fuel first len
      (∀ i, i < first → p i = true) → (first ≤ r ∧ r ≤ first + len) ∧ (∀ i, i < r → p i = true) ∧
        (∀ i, r ≤ i → i < first + len → p i = false)
  | 0, first, len, hlen, hlo => by
    obtain rfl : len = 0 := by omega
    exact ⟨by simp [lowerBoundLoop], by simpa [lowerBoundLoop] using hlo,
      fun i h1 h2 => by simp only [lowerBoundLoop] at h1; omega⟩
  | fuel + 1, first, len, hlen, hlo => by
    unfold lowerBoundLoop
    by_cases h0 : len = 0
    · subst h0
      simp only [↓reduceIte, Nat.add_zero]
      exact ⟨by omega, hlo, fun i h1 h2 => by omega⟩
    simp only [h0, ↓reduceIte]
    split
    · rename_i hmid
      have hlo' : ∀ i, i < first + len / 2 + 1 → p i = true := fun i hi => hp i _ (by omega) hmid
      obtain ⟨h1, h2, h3⟩ := lowerBoundLoop_spec hp fuel (first + len / 2 + 1) (len - len / 2 - 1)
        (by omega) hlo'
      exact ⟨by omega, h2, fun i hi hlt => h3 i hi (by omega)⟩
    · rename_i hmid
      obtain ⟨h1, h2, h3⟩ := lowerBoundLoop_spec hp fuel first (len / 2) (by omega) hlo
      refine ⟨by omega, h2, fun i hi hlt => ?_⟩
      by_cases hi' : i < first + len / 2
      · exact h3 i hi hi'
      · exact Bool.eq_false_iff.2 fun h => hmid (hp _ i (by omega) h)

theorem of_lt_lowerBound {p : Nat → Bool} (hp : ∀ i j, i ≤ j → p j = true → p i = true) {n i : Nat}
    (h : i < lowerBound p n) : p i = true :=
  (lowerBoundLoop_spec hp n 0 n le_rfl (by simp)).2.1 i h

theorem of_lowerBound_le {p : Nat → Bool} (hp : ∀ i j, i ≤ j → p j = true → p i = true) {n i : Nat}
    (h : lowerBound p n ≤ i) (hi : i < n) : p i = false :=
  (lowerBoundLoop_spec hp n 0 n le_rfl (by simp)).2.2 i h (by simpa using hi)

/-! ### The map a list stands for -/

variable {α K : Type} (κ : α → K)

/-- The first record with key `k`. -/
def find [DecidableEq K] (k : K) (l : List α) : Option α := l.find? fun a => decide (κ a = k)

/-- Keys strictly increase along the list. -/
def Strict [LT K] (l : List α) : Prop := l.Pairwise fun a b => κ a < κ b

section find
variable [DecidableEq K] {κ} {k : K} {l l' : List α} {a : α}

@[simp] theorem find_nil : find κ k [] = none := rfl

theorem find_cons : find κ k (a :: l) = if κ a = k then some a else find κ k l := by
  by_cases h : κ a = k <;> simp [find, h]

theorem find_append : find κ k (l ++ l') = (find κ k l).or (find κ k l') := by
  simp [find, List.find?_append]

theorem mem_of_find (h : find κ k l = some a) : a ∈ l := List.mem_of_find?_eq_some h

theorem key_of_find (h : find κ k l = some a) : κ a = k := by simpa using List.find?_some h

theorem find_eq_none : find κ k l = none ↔ ∀ a ∈ l, κ a ≠ k := by simp [find]

theorem isSome_find : (find κ k l).isSome ↔ ∃ a ∈ l, κ a = k := by simp [find]

theorem find_of_mem (hd : (l.map κ).Nodup) (h : a ∈ l) : find κ (κ a) l = some a := by
  induction l with
  | nil => simp at h
  | cons b l ih =>
    rw [find_cons]
    obtain ⟨hb, hd⟩ := List.nodup_cons.1 hd
    rcases List.mem_cons.1 h with rfl | h
    · simp
    · have hne : κ b ≠ κ a := fun he => hb (he ▸ List.mem_map_of_mem h)
      simp [hne, ih hd h]

theorem find_eq_some_iff (hd : (l.map κ).Nodup) : find κ k l = some a ↔ a ∈ l ∧ κ a = k :=
  ⟨fun h => ⟨mem_of_find h, key_of_find h⟩, fun ⟨h, hk⟩ => hk ▸ find_of_mem hd h⟩

/-- Reordering records with distinct keys does not change the map. -/
theorem find_perm (hp : l.Perm l') (hd : (l.map κ).Nodup) (k : K) : find κ k l = find κ k l' := by
  ext a
  rw [find_eq_some_iff hd, find_eq_some_iff ((hp.map κ).nodup_iff.1 hd), hp.mem_iff]

end find

/-! ### Updates -/

/-- The last record with key `k`. -/
def findLast [DecidableEq K] (k : K) (l : List α) : Option α := find κ k l.reverse

section findLast
variable [DecidableEq K] {κ} {k : K} {l l' : List α} {a : α}

theorem findLast_append : findLast κ k (l ++ l') = (findLast κ k l').or (findLast κ k l) := by
  rw [findLast, List.reverse_append, find_append]; rfl

theorem findLast_concat : findLast κ k (l ++ [a]) = if κ a = k then some a else findLast κ k l := by
  rw [findLast_append]
  by_cases h : κ a = k <;> simp [findLast, find_cons, h]

theorem findLast_eq_none : findLast κ k l = none ↔ ∀ a ∈ l, κ a ≠ k := by
  simp [findLast, find_eq_none]

/-- Among different keys the last element is the only one. -/
theorem findLast_eq_find (hd : (l.map κ).Nodup) (k : K) : findLast κ k l = find κ k l :=
  (find_perm (List.reverse_perm l).symm hd k).symm

theorem mem_of_findLast (h : findLast κ k l = some a) : a ∈ l := List.mem_reverse.1 (mem_of_find h)

theorem key_of_findLast (h : findLast κ k l = some a) : κ a = k := key_of_find h

/-- Behind the last record of a key no other one of that key follows. -/
theorem findLast_split (h : findLast κ k l = some a) :
    ∃ l₁ l₂, l = l₁ ++ a :: l₂ ∧ κ a = k ∧ ∀ b ∈ l₂, κ b ≠ k := by
  induction l using List.reverseRecOn with
  | nil => cases h
  | append_singleton l c ih =>
    rw [findLast_concat] at h
    split at h
    · rename_i hc
      cases h
      exact ⟨l, [], rfl, hc, by simp⟩
    · rename_i hc
      obtain ⟨l₁, l₂, rfl, ha, hall⟩ := ih h
      refine ⟨l₁, l₂ ++ [c], by simp, ha, fun b hb => ?_⟩
      rcases List.mem_append.1 hb with hb | hb
      · exact hall b hb
      · rw [List.mem_singleton.1 hb]; exact hc

theorem findLast_eq_some_iff :
    findLast κ k l = some a ↔ ∃ l₁ l₂, l = l₁ ++ a :: l₂ ∧ κ a = k ∧ ∀ b ∈ l₂, κ b ≠ k := by
  refine ⟨findLast_split, ?_⟩
  rintro ⟨l₁, l₂, rfl, ha, hl₂⟩
  rw [findLast_append, ← List.singleton_append, findLast_append, findLast_eq_none.2 hl₂]
  simp [findLast, find_cons, ha]

/-- The last record of a key stands at or after every record of that key. -/
theorem findLast_after (l l' : List α) (h : κ a = k) : ∃ b ∈ a :: l', findLast κ k (l ++ a :: l') =
    some b := by
  rw [findLast_append]
  cases hf : findLast κ k (a :: l') with
  | none => exact absurd h (findLast_eq_none.1 hf a (by simp))
  | some b => exact ⟨b, mem_of_findLast hf, rfl⟩

theorem findLast_map {β : Type} {f : β → α} {l : List β} :
    findLast κ k (l.map f) = (findLast (κ ∘ f) k l).map f := by
  rw [findLast, ← List.map_reverse, find, List.find?_map]
  rfl

/-- The same updates in two orders leave the same map, if those of one key come in the same order. -/
theorem findLast_eq_of_sublist (hd : l.Nodup) (hmem : ∀ a, a ∈ l' ↔ a ∈ l)
    (hord : l'.Pairwise fun a b => κ a = κ b → [a, b].Sublist l) (k : K) :
    findLast κ k l' = findLast κ k l := by
  cases hl : findLast κ k l with
  | none => exact findLast_eq_none.2 fun a ha => findLast_eq_none.1 hl a ((hmem a).1 ha)
  | some a =>
    obtain ⟨l₁, l₂, rfl, ha, hlast⟩ := findLast_split hl
    cases hl' : findLast κ k l' with
    | none => exact absurd ha (findLast_eq_none.1 hl' a ((hmem a).2 (by simp)))
    | some b =>
      by_contra hne
      obtain ⟨m₁, m₂, rfl, hb, hlast'⟩ := findLast_split hl'
      have hab : a ≠ b := fun he => hne (by rw [he])
      have ham : a ∈ m₁ := by
        have hmem' := (hmem a).2 (by simp)
        simp only [List.mem_append, List.mem_cons] at hmem'
        rcases hmem' with hm | hm | hm
        · exact hm
        · exact absurd hm hab
        · exact absurd ha (hlast' a hm)
      have hsub := (List.pairwise_append.1 hord).2.2 a ham b (by simp) (ha.trans hb.symm)
      have hnot : a ∉ l₁ := fun hm => (List.nodup_append.1 hd).2.2 a hm a (by simp) rfl
      -- The pair lies behind `l₁`, so `b` is behind `a`.
      obtain ⟨x, y, hxy, hx, hy⟩ := List.sublist_append_iff.1 hsub
      cases x with
      | nil =>
        rw [List.nil_append] at hxy
        subst hxy
        exact hlast b (List.singleton_sublist.1 (List.cons_sublist_cons.1 hy)) hb
      | cons c x =>
        rw [List.cons_append, List.cons.injEq] at hxy
        exact hnot (hxy.1 ▸ hx.subset (by simp))

end findLast

section order
variable [LinearOrder K] {κ} {l : List α} {a : α}

theorem Strict.nodup (h : Strict κ l) : (l.map κ).Nodup := by
  rw [List.nodup_iff_pairwise_ne, List.pairwise_map]
  exact h.imp fun hab => ne_of_lt hab

theorem Strict.tail (h : Strict κ (a :: l)) : Strict κ l := (List.pairwise_cons.1 h).2

theorem Strict.head_lt (h : Strict κ (a :: l)) {b : α} (hb : b ∈ l) : κ a < κ b :=
  (List.pairwise_cons.1 h).1 b hb

theorem Strict.head_le (h : Strict κ (a :: l)) {b : α} (hb : b ∈ a :: l) : κ a ≤ κ b := by
  rcases List.mem_cons.1 hb with rfl | hb
  · exact le_rfl
  · exact (h.head_lt hb).le

theorem Strict.concat (h : Strict κ l) (ha : ∀ b ∈ l, κ b < κ a) : Strict κ (l ++ [a]) :=
  List.pairwise_append.2 ⟨h, by simp, fun b hb c hc => by
    rw [List.mem_singleton.1 hc]; exact ha b hb⟩

/-- Lists in order that stand for one map are equal. -/
theorem Strict.ext [DecidableEq K] {l' : List α} (h : Strict κ l) (h' : Strict κ l')
    (hfind : ∀ k, find κ k l = find κ k l') : l = l' := by
  have hmem : ∀ a, a ∈ l ↔ a ∈ l' := by
    intro a
    have ha := hfind (κ a)
    rw [Option.ext_iff] at ha
    have := ha a
    rwa [find_eq_some_iff h.nodup, find_eq_some_iff h'.nodup, and_iff_left rfl, and_iff_left rfl] at this
  have hperm : l.Perm l' := (List.perm_ext_iff_of_nodup h.nodup.of_map h'.nodup.of_map).2 hmem
  exact hperm.eq_of_pairwise (fun a b _ _ hab hba => absurd hab (lt_asymm hba)) h h'

/-- Sorting records with distinct keys by an order that refines the keys' order. -/
theorem Strict.of_pairwise [LinearOrder α] (hκ : ∀ a b : α, a ≤ b → κ a ≤ κ b)
    (h : l.Pairwise (· ≤ ·)) (hd : (l.map κ).Nodup) : Strict κ l := by
  rw [List.nodup_iff_pairwise_ne, List.pairwise_map] at hd
  exact (h.and hd).imp fun ⟨hle, hne⟩ => lt_of_le_of_ne (hκ _ _ hle) hne

/-- When every record of a list in order is read at some position, behind one of a lesser key, and
there are no more positions than records, then each record is read at its own position. -/
theorem Strict.eq_of_found {rows : List α} {read : Nat → Option α} {j : Nat} (h : Strict κ rows)
    (hj : j ≤ rows.length)
    (hfound : ∀ a ∈ rows, ∃ r < j, read r = some a ∧ (0 < r → ∃ e, read (r - 1) = some e ∧ κ e < κ a)) :
    j = rows.length ∧ ∀ i < rows.length, read i = rows[i]? := by
  have hpos (m : Fin rows.length) : ∃ r : Fin j, read r = some rows[m] ∧
      (0 < r.1 → ∃ e, read (r.1 - 1) = some e ∧ κ e < κ rows[m]) := by
    obtain ⟨r, hr, hread, hprev⟩ := hfound rows[m] (List.getElem_mem m.2)
    exact ⟨⟨r, hr⟩, hread, hprev⟩
  choose f hf hprev using hpos
  have hinj : Function.Injective f := fun a b hab => by
    have heq : rows[a] = rows[b] :=
      Option.some.inj ((hf a).symm.trans ((congrArg (fun r : Fin j => read r) hab).trans (hf b)))
    exact Fin.ext ((List.Nodup.getElem_inj_iff h.nodup.of_map).1 heq)
  have hle : rows.length ≤ j := by simpa using Fintype.card_le_of_injective f hinj
  obtain rfl : j = rows.length := le_antisymm hj hle
  refine ⟨rfl, fun i hi => ?_⟩
  choose g hg using Finite.surjective_of_injective hinj
  have hgf (m : Fin rows.length) : g (f m) = m := hinj (hg (f m))
  have hread (i : Fin rows.length) : read i = some rows[g i] := by rw [← hf (g i), hg i]
  -- Each position is found behind the one before, so that the keys grow with the positions.
  have hkeys : ∀ k (hk : k < rows.length), ∀ i (hik : i < k),
      κ rows[g ⟨i, hik.trans hk⟩] < κ rows[g ⟨k, hk⟩] := by
    intro k
    induction k with
    | zero => exact fun _ i hik => absurd hik (Nat.not_lt_zero _)
    | succ k ih =>
      intro hk i hik
      have hlast : κ rows[g ⟨k, by omega⟩] < κ rows[g ⟨k + 1, hk⟩] := by
        obtain ⟨e, he, hlt⟩ := hprev (g ⟨k + 1, hk⟩) (by rw [hg]; exact Nat.succ_pos k)
        rw [hg, Nat.add_sub_cancel, hread ⟨k, by omega⟩] at he
        rwa [Option.some.inj he]
      rcases Nat.lt_succ_iff_lt_or_eq.1 hik with hik | rfl
      · exact (ih (by omega) i hik).trans hlast
      · exact hlast
  have hmono : StrictMono g := fun i k hik => by
    by_contra hnot
    refine absurd (hkeys k k.2 i hik) (not_lt.2 ?_)
    rcases (not_lt.1 hnot).lt_or_eq with hlt | heq
    · exact (List.pairwise_iff_getElem.1 h _ _ (g k).2 (g i).2 hlt).le
    · exact le_of_eq (congrArg (fun m : Fin rows.length => κ rows[m]) heq)
  have hmono' : StrictMono f := fun a b hab => by
    by_contra hnot
    have := hmono.monotone (not_lt.1 hnot)
    rw [hgf, hgf] at this
    exact absurd hab (not_lt.2 this)
  have hge : (⟨i, hi⟩ : Fin rows.length) ≤ g ⟨i, hi⟩ := hmono.le_apply
  have hid : g ⟨i, hi⟩ = ⟨i, hi⟩ := le_antisymm (hmono'.le_apply.trans (le_of_eq (hg _))) hge
  rw [List.getElem?_eq_getElem hi]
  exact (hread ⟨i, hi⟩).trans (congrArg (fun m : Fin rows.length => some rows[m]) hid)

/-- The first record of a key, among records in order, is read by halving with a test `p` for "the key here is
below `k`": it is the record at the lower bound, if that has the key. -/
theorem find_eq_getElem?_lowerBound_of_le [DecidableEq K] (h : l.Pairwise fun a b => κ a ≤ κ b) {k : K}
    {p : Nat → Bool} (hlt : ∀ i (hi : i < l.length), p i = true ↔ κ l[i] < k)
    (hout : ∀ i, l.length ≤ i → p i = false) :
    find κ k l = (l[lowerBound p l.length]?).filter fun a => decide (κ a = k) := by
  have hmono : ∀ i j, i ≤ j → p j = true → p i = true := by
    intro i j hij hj
    have hjl : j < l.length := by
      by_contra hcon
      rw [hout j (not_lt.1 hcon)] at hj
      cases hj
    rcases hij.eq_or_lt with rfl | hij
    · exact hj
    · rw [hlt i (by omega)]
      exact lt_of_le_of_lt (List.pairwise_iff_getElem.1 h i j (by omega) hjl hij) ((hlt j hjl).1 hj)
  set r := lowerBound p l.length with hr
  have hbelow : ∀ i (hi : i < l.length), i < r → κ l[i] ≠ k := fun i hi hir =>
    ne_of_lt ((hlt i hi).1 (of_lt_lowerBound hmono hir))
  by_cases hrl : r < l.length
  · rw [List.getElem?_eq_getElem hrl]
    by_cases hk : κ l[r] = k
    · rw [Option.filter_some_pos (by simpa using hk), find, List.find?_eq_some_iff_getElem]
      exact ⟨by simpa using hk, r, hrl, rfl, fun i hir => by simpa using hbelow i (by omega) hir⟩
    · rw [Option.filter_some_neg (by simpa using hk), find_eq_none]
      intro a ha hak
      obtain ⟨i, hi, rfl⟩ := List.mem_iff_getElem.1 ha
      rcases lt_trichotomy i r with hir | rfl | hir
      · exact hbelow i hi hir hak
      · exact hk hak
      · have hge : ¬ κ l[r] < k := fun hcon => by
          have := of_lowerBound_le hmono (le_refl r) hrl
          rw [(hlt r hrl).2 hcon] at this
          cases this
        have hle := List.pairwise_iff_getElem.1 h r i hrl hi hir
        exact hge (lt_of_le_of_ne (hak ▸ hle) hk)
  · rw [List.getElem?_eq_none (not_lt.1 hrl), Option.filter_none, find_eq_none]
    intro a ha
    obtain ⟨i, hi, rfl⟩ := List.mem_iff_getElem.1 ha
    exact hbelow i hi (by omega)

end order

end Keyed
