import Iu9Db.Lib.Computation

/-!
# Binary heaps over a comparison that may have effects

`std::make_heap`, `std::push_heap` and `std::pop_heap` on an array, for a comparison `less` in any
monad. The element in the hole is swapped along instead of being put down at the end; the comparisons
are the same. `makeHeap_rel`, `push_rel` and `pop_rel`: with comparisons that run alike the operations
run alike, and what is in the array stays in it. `makeHeap_isHeap`, `push_isHeap`, `pop_isHeap` and
`IsHeap.first`: for a comparison without effects that is a strict weak order the first element is the
greatest.
-/

namespace BinaryHeap

section
variable {α : Type} {m : Type → Type} [Monad m] (less : α → α → m Bool)

def parent (i : Nat) : Nat := (i - 1) / 2

/-- The element at `hole` moves up while its parent is less, at most to `top`. -/
def siftUp (top : Nat) : Nat → Nat → Array α → m (Array α)
  | 0, _, xs => pure xs
  | fuel + 1, hole, xs =>
    if top < hole then
      match xs[parent hole]?, xs[hole]? with
      | some above, some value => do
        if ← less above value then siftUp top fuel (parent hole) (xs.swapIfInBounds hole (parent hole))
        else pure xs
      | _, _ => pure xs
    else pure xs

/-- The element at `hole` moves down to a leaf, every time below the greater child. -/
def siftDown : Nat → Nat → Array α → m (Nat × Array α)
  | 0, hole, xs => pure (hole, xs)
  | fuel + 1, hole, xs =>
    match xs[2 * hole + 1]?, xs[2 * hole + 2]? with
    | some left, some right => do
      let child := if ← less right left then 2 * hole + 1 else 2 * hole + 2
      siftDown fuel child (xs.swapIfInBounds hole child)
    | some _, none => pure (2 * hole + 1, xs.swapIfInBounds hole (2 * hole + 1))
    | none, _ => pure (hole, xs)

/-- Down to a leaf and up again, at most to `top`. -/
def adjust (top : Nat) (xs : Array α) : m (Array α) := do
  let (hole, xs) ← siftDown less xs.size top xs
  siftUp less top hole hole xs

def makeHeapFrom : Nat → Array α → m (Array α)
  | 0, xs => adjust less 0 xs
  | top + 1, xs => do makeHeapFrom top (← adjust less (top + 1) xs)

/-- `std::make_heap`. -/
def makeHeap (xs : Array α) : m (Array α) :=
  if xs.size < 2 then pure xs else makeHeapFrom less ((xs.size - 2) / 2) xs

/-- `push_back` and `std::push_heap`. -/
def push (xs : Array α) (a : α) : m (Array α) := siftUp less 0 xs.size xs.size (xs.push a)

/-- `std::pop_heap` and `pop_back`. -/
def pop (xs : Array α) : m (Array α) :=
  let ys := (xs.swapIfInBounds 0 (xs.size - 1)).pop
  if 1 < xs.size then adjust less 0 ys else pure ys

end

/-! ### Swaps -/

section swap
variable {α : Type} {xs : Array α} {i j : Nat}

theorem swapIfInBounds_perm (xs : Array α) (i j : Nat) : (xs.swapIfInBounds i j).Perm xs := by
  unfold Array.swapIfInBounds
  split
  · split
    · exact Array.swap_perm _ _
    · exact Array.Perm.refl _
  · exact Array.Perm.refl _

theorem getElem?_swapIfInBounds (hi : i < xs.size) (hj : j < xs.size) (k : Nat) :
    (xs.swapIfInBounds i j)[k]? = xs[Equiv.swap i j k]? := by
  rw [Array.swapIfInBounds_def, dif_pos hi, dif_pos hj, Array.getElem?_swap, Equiv.swap_apply_def]
  by_cases hki : k = i
  · subst hki
    by_cases hkj : k = j
    · subst hkj; simp
    · simp [Ne.symm hkj]
  · by_cases hkj : k = j
    · subst hkj; simp [hki]
    · simp [Ne.symm hki, hki, Ne.symm hkj, hkj]

theorem mem_swapIfInBounds {a : α} : a ∈ xs.swapIfInBounds i j ↔ a ∈ xs :=
  (swapIfInBounds_perm xs i j).mem_iff

theorem pop_swap_perm {top : α} (h : xs[0]? = some top) :
    xs.toList.Perm (top :: (xs.swapIfInBounds 0 (xs.size - 1)).pop.toList) := by
  have hpos : 0 < xs.size := by
    by_contra h0
    rw [Array.getElem?_eq_none (by omega)] at h
    cases h
  set ys := xs.swapIfInBounds 0 (xs.size - 1) with hys
  have hsize : ys.size = xs.size := by simp [hys]
  have hlast : ys[ys.size - 1]? = some top := by
    rw [hys, getElem?_swapIfInBounds hpos (by omega)]
    simpa using h
  have hne : ys.toList ≠ [] := by
    intro hnil
    rw [← Array.length_toList, hnil] at hsize
    simp only [List.length_nil] at hsize
    omega
  have hsplit : ys.toList = ys.pop.toList ++ [top] := by
    rw [Array.toList_pop]
    conv_lhs => rw [← List.dropLast_append_getLast hne]
    rw [List.getLast_eq_getElem]
    have : ys.toList[ys.toList.length - 1]? = some top := by simpa using hlast
    rw [List.getElem?_eq_getElem (by have := List.length_pos_iff.2 hne; omega)] at this
    rw [Option.some.inj this]
  have hperm : ys.toList.Perm xs.toList := (swapIfInBounds_perm xs 0 (xs.size - 1)).toList
  rw [hsplit] at hperm
  exact hperm.symm.trans (List.perm_append_singleton top ys.pop.toList)

end swap

/-! ### Comparisons that run alike -/

section rel
variable {α : Type} {m m' : Type → Type} [Monad m] [Monad m'] (R : Likeness m m')
  {less : α → α → m Bool} {less' : α → α → m' Bool} {P : α → Prop}

theorem siftUp_rel (hless : ∀ a b, P a → P b → R.rel (fun _ => True) (less a b) (less' a b)) (top : Nat) :
    ∀ (fuel hole : Nat) (xs : Array α), (∀ a ∈ xs, P a) →
      R.rel (fun ys => ys.Perm xs) (siftUp less top fuel hole xs) (siftUp less' top fuel hole xs)
  | 0, _, _, _ => R.pure (Array.Perm.refl _)
  | fuel + 1, hole, xs, hxs => by
    unfold siftUp
    split
    · split
      · rename_i above value ha hv
        refine R.bind (hless _ _ (hxs _ (Array.mem_of_getElem? ha)) (hxs _ (Array.mem_of_getElem? hv)))
          fun b _ => ?_
        cases b with
        | false => exact R.pure (Array.Perm.refl _)
        | true =>
          have hrec := siftUp_rel hless top fuel (parent hole) (xs.swapIfInBounds hole (parent hole))
            fun a ha => hxs a (mem_swapIfInBounds.1 ha)
          exact R.mono hrec fun ys hys => hys.trans (swapIfInBounds_perm xs _ _)
      · exact R.pure (Array.Perm.refl _)
    · exact R.pure (Array.Perm.refl _)

theorem siftDown_rel (hless : ∀ a b, P a → P b → R.rel (fun _ => True) (less a b) (less' a b)) :
    ∀ (fuel hole : Nat) (xs : Array α), (∀ a ∈ xs, P a) →
      R.rel (fun r => r.2.Perm xs) (siftDown less fuel hole xs) (siftDown less' fuel hole xs)
  | 0, _, _, _ => R.pure (Array.Perm.refl _)
  | fuel + 1, hole, xs, hxs => by
    unfold siftDown
    split
    · rename_i left right hl hr
      refine R.bind (hless _ _ (hxs _ (Array.mem_of_getElem? hr)) (hxs _ (Array.mem_of_getElem? hl)))
        fun b _ => ?_
      set child := if b then 2 * hole + 1 else 2 * hole + 2
      have hrec := siftDown_rel hless fuel child (xs.swapIfInBounds hole child)
        fun a ha => hxs a (mem_swapIfInBounds.1 ha)
      exact R.mono hrec fun r hr => hr.trans (swapIfInBounds_perm xs _ _)
    · exact R.pure (swapIfInBounds_perm xs _ _)
    · exact R.pure (Array.Perm.refl _)

theorem adjust_rel (hless : ∀ a b, P a → P b → R.rel (fun _ => True) (less a b) (less' a b)) (top : Nat)
    {xs : Array α} (hxs : ∀ a ∈ xs, P a) :
    R.rel (fun ys => ys.Perm xs) (adjust less top xs) (adjust less' top xs) := by
  refine R.bind (siftDown_rel R hless xs.size top xs hxs) fun r hr => ?_
  have hup := siftUp_rel R hless top r.1 r.1 r.2 fun a ha => hxs a (hr.mem_iff.1 ha)
  exact R.mono hup fun ys hys => hys.trans hr

theorem makeHeapFrom_rel (hless : ∀ a b, P a → P b → R.rel (fun _ => True) (less a b) (less' a b)) :
    ∀ (top : Nat) (xs : Array α), (∀ a ∈ xs, P a) →
      R.rel (fun ys => ys.Perm xs) (makeHeapFrom less top xs) (makeHeapFrom less' top xs)
  | 0, _, hxs => adjust_rel R hless 0 hxs
  | top + 1, xs, hxs => by
    refine R.bind (adjust_rel R hless (top + 1) hxs) fun ys hys => ?_
    have hrec := makeHeapFrom_rel hless top ys fun a ha => hxs a (hys.mem_iff.1 ha)
    exact R.mono hrec fun zs hzs => hzs.trans hys

theorem makeHeap_rel (hless : ∀ a b, P a → P b → R.rel (fun _ => True) (less a b) (less' a b))
    {xs : Array α} (hxs : ∀ a ∈ xs, P a) :
    R.rel (fun ys => ys.Perm xs) (makeHeap less xs) (makeHeap less' xs) := by
  unfold makeHeap
  split
  · exact R.pure (Array.Perm.refl _)
  · exact makeHeapFrom_rel R hless _ xs hxs

theorem push_rel (hless : ∀ a b, P a → P b → R.rel (fun _ => True) (less a b) (less' a b))
    {xs : Array α} {a : α} (hxs : ∀ a ∈ xs, P a) (ha : P a) :
    R.rel (fun ys => ys.Perm (xs.push a)) (push less xs a) (push less' xs a) := by
  refine siftUp_rel R hless 0 xs.size xs.size (xs.push a) fun b hb => ?_
  rcases Array.mem_push.1 hb with hb | rfl
  · exact hxs b hb
  · exact ha

theorem pop_rel (hless : ∀ a b, P a → P b → R.rel (fun _ => True) (less a b) (less' a b))
    {xs : Array α} {top : α} (hxs : ∀ a ∈ xs, P a) (htop : xs[0]? = some top) :
    R.rel (fun ys => xs.toList.Perm (top :: ys.toList)) (pop less xs) (pop less' xs) := by
  have hperm := pop_swap_perm htop
  unfold pop
  dsimp only
  split
  · have hys : ∀ a ∈ (xs.swapIfInBounds 0 (xs.size - 1)).pop, P a := by
      intro a ha
      exact hxs a (Array.mem_toList_iff.1
        (hperm.mem_iff.2 (List.mem_cons_of_mem _ (Array.mem_toList_iff.2 ha))))
    exact R.mono (adjust_rel R hless 0 hys) fun ys h => hperm.trans (h.toList.symm.cons top)
  · exact R.pure hperm

/-! ### Without effects -/

section pure
variable {xs : Array α} (less : α → α → Bool)

theorem ofId_rel (a b : α) : Likeness.ofId.rel (fun _ => True) (less a b) (less a b) := ⟨rfl, trivial⟩

theorem siftDown_perm (fuel hole : Nat) (xs : Array α) :
    (siftDown (m := Id) less fuel hole xs).2.Perm xs := by
  have h := siftDown_rel Likeness.ofId (P := fun _ => True) (fun a b _ _ => ofId_rel less a b) fuel hole xs
    fun _ _ => trivial
  exact h.2

theorem adjust_perm (top : Nat) (xs : Array α) : Array.Perm (adjust (m := Id) less top xs) xs := by
  have hxs : ∀ a ∈ xs, True := fun _ _ => trivial
  have h := adjust_rel Likeness.ofId (P := fun _ => True) (fun a b _ _ => ofId_rel less a b) top hxs
  exact h.2

theorem makeHeap_perm (xs : Array α) : Array.Perm (makeHeap (m := Id) less xs) xs := by
  have hxs : ∀ a ∈ xs, True := fun _ _ => trivial
  have h := makeHeap_rel Likeness.ofId (P := fun _ => True) (fun a b _ _ => ofId_rel less a b) hxs
  exact h.2

theorem push_perm (xs : Array α) (a : α) : Array.Perm (push (m := Id) less xs a) (xs.push a) := by
  have hxs : ∀ a ∈ xs, True := fun _ _ => trivial
  have h := push_rel Likeness.ofId (P := fun _ => True) (a := a)
    (fun a b _ _ => ofId_rel less a b) hxs trivial
  exact h.2

theorem pop_perm {top : α} (htop : xs[0]? = some top) :
    xs.toList.Perm (top :: Array.toList (pop (m := Id) less xs)) := by
  have hxs : ∀ a ∈ xs, True := fun _ _ => trivial
  have h := pop_rel Likeness.ofId (P := fun _ => True) (fun a b _ _ => ofId_rel less a b) hxs htop
  exact h.2

end pure

end rel

/-! ### The order -/

/-- A strict weak order on the elements with `P`. -/
structure Weak {α : Type} (less : α → α → Bool) (P : α → Prop) : Prop where
  asymm : ∀ a b, P a → P b → less a b = true → less b a = false
  trans : ∀ a b c, P a → P b → P c → less a b = false → less b c = false → less a c = false

section order
variable {α : Type} (less : α → α → Bool) (P : α → Prop) {xs : Array α} {top hole i j k : Nat}

/-- The element at `j` is not above the one at `i`. -/
def Over (xs : Array α) (i j : Nat) : Prop := ∀ a ∈ xs[i]?, ∀ b ∈ xs[j]?, less a b = false

/-- From `top` on no element is above its parent's. -/
def IsHeap (top : Nat) (xs : Array α) : Prop :=
  ∀ i, 0 < i → i < xs.size → top ≤ parent i → Over less xs (parent i) i

/-- A position below `top`. -/
inductive Under (top : Nat) : Nat → Prop
  | top : Under top top
  | child {i : Nat} : 0 < i → Under top (parent i) → Under top i

/-- What holds while an element moves down: away from the hole the elements are in order, and the
hole's children are in order with its parent. -/
structure DownOrder (top hole : Nat) (xs : Array α) : Prop where
  under : Under top hole
  off : ∀ i, 0 < i → i < xs.size → top ≤ parent i → i ≠ hole → parent i ≠ hole → Over less xs (parent i) i
  grand : top < hole → ∀ i, 0 < i → i < xs.size → parent i = hole → Over less xs (parent hole) i

/-- What holds while an element moves up: it is also in order with its children. -/
structure UpOrder (top hole : Nat) (xs : Array α) : Prop extends DownOrder less top hole xs where
  below : ∀ i, 0 < i → i < xs.size → parent i = hole → Over less xs hole i

end order

section index
variable {top hole i : Nat}

theorem parent_lt (h : 0 < i) : parent i < i := by unfold parent; omega

theorem Under.le (h : Under top hole) : top ≤ hole := by
  induction h with
  | top => exact le_rfl
  | child h0 _ ih => exact ih.trans (parent_lt h0).le

theorem Under.parent (h : Under top hole) (hlt : top < hole) : Under top (parent hole) := by
  cases h with
  | top => omega
  | child _ h => exact h

theorem under_zero (i : Nat) : Under 0 i := by
  induction i using Nat.strong_induction_on with
  | _ i ih =>
    by_cases h0 : i = 0
    · subst h0; exact .top
    · exact .child (by omega) (ih (BinaryHeap.parent i) (parent_lt (by omega)))

theorem eq_of_parent (h0 : 0 < i) (h : parent i = hole) : i = 2 * hole + 1 ∨ i = 2 * hole + 2 := by
  unfold parent at h; omega

end index

section order
variable {α : Type} {less : α → α → Bool} {P : α → Prop} {xs : Array α} {top hole i j k : Nat}

theorem Over.trans (hw : Weak less P) (hxs : ∀ a ∈ xs, P a) (hj : j < xs.size) (h : Over less xs i j)
    (h' : Over less xs j k) : Over less xs i k := by
  intro a ha c hc
  have hb : xs[j] ∈ xs[j]? := by simp [hj]
  exact hw.trans a xs[j] c (hxs a (Array.mem_of_getElem? ha)) (hxs _ (Array.getElem_mem hj))
    (hxs c (Array.mem_of_getElem? hc)) (h a ha _ hb) (h' _ hb c hc)

theorem over_swap (hi : i < xs.size) (hj : j < xs.size) {a b : Nat} :
    Over less (xs.swapIfInBounds i j) a b ↔ Over less xs (Equiv.swap i j a) (Equiv.swap i j b) := by
  simp only [Over, getElem?_swapIfInBounds hi hj]

theorem over_of_less (hw : Weak less P) (hxs : ∀ a ∈ xs, P a) {a b : α} (ha : xs[i]? = some a)
    (hb : xs[j]? = some b) (h : less a b = true) : Over less xs j i := by
  intro b' hb' a' ha'
  rw [hb] at hb'
  rw [ha] at ha'
  cases hb'
  cases ha'
  exact hw.asymm a b (hxs a (Array.mem_of_getElem? ha)) (hxs b (Array.mem_of_getElem? hb)) h

/-! ### Up -/

/-- Above a greater element the hole takes its parent's place. -/
theorem UpOrder.swap (hw : Weak less P) (hxs : ∀ a ∈ xs, P a) (h : UpOrder less top hole xs)
    (hlt : top < hole) (hsize : hole < xs.size) (hover : Over less xs hole (parent hole)) :
    UpOrder less top (parent hole) (xs.swapIfInBounds hole (parent hole)) := by
  have hp := parent_lt (show 0 < hole by omega)
  have hunder := h.under.parent hlt
  have hpsize : parent hole < xs.size := by omega
  have hat : ∀ i, i ≠ hole → i ≠ parent hole → Equiv.swap hole (parent hole) i = i :=
    fun i h1 h2 => Equiv.swap_apply_of_ne_of_ne h1 h2
  refine ⟨⟨hunder, ?_, ?_⟩, ?_⟩
  · intro i h0 hi hle hne hpne
    rw [Array.size_swapIfInBounds] at hi
    have hih : i ≠ hole := fun he => hpne (by rw [he])
    rw [over_swap hsize hpsize, hat i hih hne]
    by_cases hpi : parent i = hole
    · rw [hpi, Equiv.swap_apply_left]
      exact h.grand hlt i h0 hi hpi
    · rw [hat _ hpi hpne]
      exact h.off i h0 hi hle hih hpi
  · intro hlt' i h0 hi hpi
    rw [Array.size_swapIfInBounds] at hi
    have hpp := parent_lt (show 0 < parent hole by omega)
    have hle := (hunder.parent hlt').le
    have hup : Over less xs (parent (parent hole)) (parent hole) :=
      h.off (parent hole) (by omega) hpsize hle (by omega) (by omega)
    rw [over_swap hsize hpsize, hat _ (by omega) (by omega)]
    by_cases hih : i = hole
    · rw [hih, Equiv.swap_apply_left]; exact hup
    · have hne : i ≠ parent hole := by have := parent_lt h0; omega
      rw [hat i hih hne]
      have hoff := h.off i h0 hi (by omega) hih (by omega)
      rw [hpi] at hoff
      exact hup.trans hw hxs hpsize hoff
  · intro i h0 hi hpi
    rw [Array.size_swapIfInBounds] at hi
    rw [over_swap hsize hpsize, Equiv.swap_apply_right]
    by_cases hih : i = hole
    · rw [hih, Equiv.swap_apply_left]; exact hover
    · have hne : i ≠ parent hole := by have := parent_lt h0; omega
      rw [hat i hih hne]
      have hle := hunder.le
      have hoff := h.off i h0 hi (by omega) hih (by omega)
      rw [hpi] at hoff
      exact hover.trans hw hxs hpsize hoff

theorem UpOrder.isHeap (h : UpOrder less top hole xs)
    (hover : top < hole → Over less xs (parent hole) hole) : IsHeap less top xs := by
  intro i h0 hi hle
  have hp := parent_lt h0
  by_cases hih : i = hole
  · rw [hih] at hle hp ⊢
    exact hover (by omega)
  · by_cases hpi : parent i = hole
    · rw [hpi]; exact h.below i h0 hi hpi
    · exact h.off i h0 hi hle hih hpi

theorem siftUp_isHeap (hw : Weak less P) : ∀ (fuel hole : Nat) (xs : Array α), (∀ a ∈ xs, P a) →
    hole ≤ fuel → hole < xs.size → UpOrder less top hole xs →
    IsHeap less top (siftUp (m := Id) less top fuel hole xs)
  | 0, hole, xs, hxs, hfuel, hsize, h => h.isHeap fun hlt => by omega
  | fuel + 1, hole, xs, hxs, hfuel, hsize, h => by
    unfold siftUp
    split
    · rename_i hlt
      have hp := parent_lt (show 0 < hole by omega)
      split
      · rename_i above value ha hv
        cases hless : less above value with
        | false =>
          refine h.isHeap fun _ a ha' b hb' => ?_
          rw [ha] at ha'
          rw [hv] at hb'
          cases ha'
          cases hb'
          exact hless
        | true =>
          have hnext := h.swap hw hxs hlt hsize (over_of_less hw hxs ha hv hless)
          exact siftUp_isHeap hw fuel (parent hole) _ (fun a ha => hxs a (mem_swapIfInBounds.1 ha))
            (by omega) (by rw [Array.size_swapIfInBounds]; omega) hnext
      · rename_i hnone
        exact absurd (Array.getElem?_eq_getElem hsize) (hnone _ _ (Array.getElem?_eq_getElem (by omega)))
    · rename_i hlt
      exact h.isHeap fun hlt' => absurd hlt' hlt

/-! ### Down -/

/-- Below its greater child the hole takes the child's place. -/
theorem DownOrder.swap {child : Nat} (h : DownOrder less top hole xs) (hchild : child < xs.size)
    (hpc : parent child = hole) (h0c : 0 < child)
    (hover : ∀ i, 0 < i → i < xs.size → parent i = hole → i ≠ child → Over less xs child i) :
    DownOrder less top child (xs.swapIfInBounds hole child) := by
  have hlt : hole < child := hpc ▸ parent_lt h0c
  have hsize : hole < xs.size := by omega
  have hle := h.under.le
  have hat : ∀ i, i ≠ hole → i ≠ child → Equiv.swap hole child i = i :=
    fun i h1 h2 => Equiv.swap_apply_of_ne_of_ne h1 h2
  refine ⟨.child h0c (hpc.symm ▸ h.under), ?_, ?_⟩
  · intro i h0 hi htop hne hpne
    rw [Array.size_swapIfInBounds] at hi
    have hpi := parent_lt h0
    rw [over_swap hsize hchild]
    by_cases hih : i = hole
    · subst hih
      rw [Equiv.swap_apply_left, hat _ (by omega) hpne]
      exact h.grand (by omega) child h0c hchild hpc
    · rw [hat i hih hne]
      by_cases hp : parent i = hole
      · rw [hp, Equiv.swap_apply_left]
        exact hover i h0 hi hp hne
      · rw [hat _ hp hpne]
        exact h.off i h0 hi htop hih hp
  · intro _ i h0 hi hpi
    rw [Array.size_swapIfInBounds] at hi
    have hip := parent_lt h0
    rw [over_swap hsize hchild, hpc, Equiv.swap_apply_left, hat i (by omega) (by omega)]
    have hoff := h.off i h0 hi (by omega) (by omega) (by omega)
    rwa [hpi] at hoff

theorem DownOrder.upOrder (h : DownOrder less top hole xs) (hleaf : xs.size ≤ 2 * hole + 1) :
    UpOrder less top hole xs where
  toDownOrder := h
  below i h0 hi hp := by rcases eq_of_parent h0 hp with hi' | hi' <;> omega

theorem siftDown_upOrder (hw : Weak less P) : ∀ (fuel hole : Nat) (xs : Array α), (∀ a ∈ xs, P a) →
    xs.size ≤ fuel + hole → hole < xs.size → DownOrder less top hole xs →
    (siftDown (m := Id) less fuel hole xs).1 < xs.size ∧
      UpOrder less top (siftDown (m := Id) less fuel hole xs).1 (siftDown (m := Id) less fuel hole xs).2
  | 0, hole, xs, hxs, hfuel, hsize, h => by omega
  | fuel + 1, hole, xs, hxs, hfuel, hsize, h => by
    unfold siftDown
    have hl : parent (2 * hole + 1) = hole := by unfold parent; omega
    have hr : parent (2 * hole + 2) = hole := by unfold parent; omega
    split
    · rename_i left right hleft hright
      have hrs : 2 * hole + 2 < xs.size := (Array.getElem?_eq_some_iff.1 hright).1
      -- The hole goes on at the greater child.
      have key : ∀ child, (child = 2 * hole + 1 ∨ child = 2 * hole + 2) →
          (∀ i, 0 < i → i < xs.size → parent i = hole → i ≠ child → Over less xs child i) →
          (siftDown (m := Id) less fuel child (xs.swapIfInBounds hole child)).1 < xs.size ∧
            UpOrder less top (siftDown (m := Id) less fuel child (xs.swapIfInBounds hole child)).1
              (siftDown (m := Id) less fuel child (xs.swapIfInBounds hole child)).2 := by
        intro child hc hover
        have hpc : parent child = hole := by rcases hc with rfl | rfl <;> assumption
        have hcs : child < xs.size := by omega
        have hrec := siftDown_upOrder hw fuel child (xs.swapIfInBounds hole child)
          (fun a ha => hxs a (mem_swapIfInBounds.1 ha)) (by rw [Array.size_swapIfInBounds]; omega)
          (by rw [Array.size_swapIfInBounds]; exact hcs) (h.swap hcs hpc (by omega) hover)
        rwa [Array.size_swapIfInBounds] at hrec
      cases hless : less right left with
      | true =>
        refine key (2 * hole + 1) (.inl rfl) fun i h0 _ hp hne => ?_
        obtain rfl : i = 2 * hole + 2 := (eq_of_parent h0 hp).resolve_left hne
        exact over_of_less hw hxs hright hleft hless
      | false =>
        refine key (2 * hole + 2) (.inr rfl) fun i h0 _ hp hne => ?_
        obtain rfl : i = 2 * hole + 1 := (eq_of_parent h0 hp).resolve_right hne
        intro a ha b hb
        rw [hright] at ha
        rw [hleft] at hb
        cases ha
        cases hb
        exact hless
    · rename_i left hleft hright
      have hls : 2 * hole + 1 < xs.size := (Array.getElem?_eq_some_iff.1 hleft).1
      have hrs : xs.size ≤ 2 * hole + 2 := Array.getElem?_eq_none_iff.1 hright
      refine ⟨hls, (h.swap hls hl (by omega) fun i h0 hi hp hne => ?_).upOrder ?_⟩
      · rcases eq_of_parent h0 hp with hi' | hi' <;> omega
      · rw [Array.size_swapIfInBounds]; omega
    · rename_i hleft
      exact ⟨hsize, h.upOrder (Array.getElem?_eq_none_iff.1 hleft)⟩

/-! ### The operations -/

theorem adjust_isHeap (hw : Weak less P) (hxs : ∀ a ∈ xs, P a) (htop : top < xs.size)
    (h : DownOrder less top top xs) : IsHeap less top (adjust (m := Id) less top xs) := by
  have hperm := siftDown_perm less xs.size top xs
  obtain ⟨hlt, hup⟩ := siftDown_upOrder hw xs.size top xs hxs (by omega) htop h
  exact siftUp_isHeap hw _ _ _ (fun a ha => hxs a (hperm.mem_iff.1 ha)) le_rfl
    (by rw [hperm.size_eq]; exact hlt) hup

/-- Below `top` the heap is complete, so `top` is the only hole. -/
theorem IsHeap.downOrder (h : IsHeap less (top + 1) xs) : DownOrder less top top xs where
  under := .top
  off i h0 hi hle hne hpne := h i h0 hi (by omega)
  grand hlt := absurd hlt (lt_irrefl top)

theorem makeHeapFrom_isHeap (hw : Weak less P) : ∀ (top : Nat) (xs : Array α), (∀ a ∈ xs, P a) →
    top < xs.size → IsHeap less (top + 1) xs → IsHeap less 0 (makeHeapFrom (m := Id) less top xs)
  | 0, xs, hxs, htop, h => adjust_isHeap hw hxs htop h.downOrder
  | top + 1, xs, hxs, htop, h => by
    have hperm := adjust_perm less (top + 1) xs
    exact makeHeapFrom_isHeap hw top (adjust (m := Id) less (top + 1) xs)
      (fun a ha => hxs a (hperm.mem_iff.1 ha)) (by rw [hperm.size_eq]; omega)
      (adjust_isHeap hw hxs htop h.downOrder)

theorem makeHeap_isHeap (hw : Weak less P) (hxs : ∀ a ∈ xs, P a) :
    IsHeap less 0 (makeHeap (m := Id) less xs) := by
  unfold makeHeap
  split
  · intro i h0 hi
    have hi : i < xs.size := hi
    omega
  · refine makeHeapFrom_isHeap hw _ xs hxs (by omega) fun i h0 hi hle => ?_
    unfold parent at hle
    omega

theorem push_isHeap (hw : Weak less P) (hxs : ∀ a ∈ xs, P a) {a : α} (ha : P a) (h : IsHeap less 0 xs) :
    IsHeap less 0 (push (m := Id) less xs a) := by
  have hold : ∀ i, i < xs.size → (xs.push a)[i]? = xs[i]? := fun i hi => by
    rw [Array.getElem?_push_lt hi, Array.getElem?_eq_getElem hi]
  refine siftUp_isHeap hw xs.size xs.size (xs.push a) ?_ le_rfl (by simp) ⟨⟨under_zero _, ?_, ?_⟩, ?_⟩
  · intro b hb
    rcases Array.mem_push.1 hb with hb | rfl
    · exact hxs b hb
    · exact ha
  · intro i h0 hi _ hne _
    rw [Array.size_push] at hi
    have hp := parent_lt h0
    have hover := h i h0 (by omega) (Nat.zero_le _)
    intro b hb c hc
    rw [hold _ (by omega)] at hb hc
    exact hover b hb c hc
  · intro _ i h0 hi hp
    rw [Array.size_push] at hi
    have := parent_lt h0
    omega
  · intro i h0 hi hp
    rw [Array.size_push] at hi
    have := parent_lt h0
    omega

theorem pop_isHeap (hw : Weak less P) (hxs : ∀ a ∈ xs, P a) (h : IsHeap less 0 xs) :
    IsHeap less 0 (pop (m := Id) less xs) := by
  unfold pop
  dsimp only
  split
  · rename_i hsize
    set ys := (xs.swapIfInBounds 0 (xs.size - 1)).pop with hys
    have hsz : ys.size = xs.size - 1 := by simp [hys]
    have hmem : ∀ a ∈ ys, P a := by
      intro a ha
      rw [hys, ← Array.mem_toList_iff, Array.toList_pop] at ha
      exact hxs a (mem_swapIfInBounds.1 (Array.mem_toList_iff.1 (List.dropLast_subset _ ha)))
    have hold : ∀ i, 0 < i → i < ys.size → ys[i]? = xs[i]? := by
      intro i h0 hi
      rw [hys, Array.getElem?_pop, Array.size_swapIfInBounds, if_pos (by omega),
        getElem?_swapIfInBounds (by omega) (by omega), Equiv.swap_apply_of_ne_of_ne (by omega) (by omega)]
    refine adjust_isHeap hw hmem (by omega) ⟨.top, ?_, fun hlt => absurd hlt (lt_irrefl 0)⟩
    intro i h0 hi hle hne hpne
    have hp := parent_lt h0
    have hover := h i h0 (by omega) hle
    intro b hb c hc
    rw [hold _ (by omega) (by omega)] at hb
    rw [hold _ h0 hi] at hc
    exact hover b hb c hc
  · rename_i hsize
    intro i h0 hi
    have hi : i < ((xs.swapIfInBounds 0 (xs.size - 1)).pop).size := hi
    rw [Array.size_pop, Array.size_swapIfInBounds] at hi
    omega

theorem IsHeap.over_zero (hw : Weak less P) (hxs : ∀ a ∈ xs, P a) (h : IsHeap less 0 xs) (i : Nat)
    (hi : i < xs.size) : Over less xs 0 i := by
  induction i using Nat.strong_induction_on with
  | _ i ih =>
    by_cases h0 : i = 0
    · subst h0
      intro a ha b hb
      obtain rfl : a = b := Option.some.inj (ha.symm.trans hb)
      have hP := hxs a (Array.mem_of_getElem? ha)
      by_contra hless
      rw [Bool.not_eq_false] at hless
      exact absurd (hw.asymm a a hP hP hless) (by simp [hless])
    · have hp := parent_lt (show 0 < i by omega)
      exact (ih (parent i) hp (by omega)).trans hw hxs (by omega) (h i (by omega) hi (Nat.zero_le _))

/-- No element of a heap is above the first. -/
theorem IsHeap.first (hw : Weak less P) (hxs : ∀ a ∈ xs, P a) (h : IsHeap less 0 xs) {a b : α}
    (ha : xs[0]? = some a) (hb : b ∈ xs) : less a b = false := by
  obtain ⟨i, hi, rfl⟩ := Array.mem_iff_getElem.1 hb
  exact h.over_zero hw hxs i hi a ha _ (Array.getElem?_eq_getElem hi)

end order

end BinaryHeap
