import Iu9Db.Compaction
import Iu9Db.Lib.BinaryHeap

/-!
# `MergeData` with the reads it makes

Every comparison in the queue reads both iterators again, and a read may fail. `mergeThrough` is the
merge over the heap of `std::priority_queue`, generic in the effect of a comparison and of a read. Three
instances: without effects; with every read marked by what it is good for (`Marked`); and with reads
whose outcomes are given (`Reading`), where the comparator takes a failed read for "not less".
`merged_of_readable`: with all reads good the merge is one table in order with the newest records.
`mergesRight_of_unmisled`: so it is as long as no read fails that a comparison answers true by, and
whichever of the loop's own reads fail.
-/

namespace Iu9Db

open BinaryHeap

section
variable {m : Type → Type} [Monad m] (less : IteratorPair → IteratorPair → m Bool)
  (deref : IteratorPair → m StorageEntry)

/-- The loop of `MergeData`; every round takes one record, so `fuel` bounds the records left. -/
def mergeRounds : Nat → Array IteratorPair → List StorageEntry → m (List StorageEntry)
  | 0, _, data => pure data
  | fuel + 1, queue, data =>
    match queue[0]? with
    | none => pure data
    | some top => do
      let queue ← pop less queue
      let value ← deref top
      let data := if data.getLast?.any fun back => back.key = value.key then data else data ++ [value]
      let cur := top.rest.tail
      if cur.isEmpty then mergeRounds fuel queue data
      else
        let queue ← push less queue ⟨cur, top.index⟩
        mergeRounds fuel queue data

/-- The comparator: both iterators are read before either result is looked at. -/
def comparatorThrough (read : IteratorPair → m (Result StorageEntry)) (lhs rhs : IteratorPair) : m Bool := do
  let lhsOpt ← read lhs
  let rhsOpt ← read rhs
  match lhsOpt, rhsOpt with
  | .error _, _ => pure false
  | .ok _, .error _ => pure false
  | .ok lhsValue, .ok rhsValue =>
    pure (if lhsValue.key = rhsValue.key then lhs.index < rhs.index else lhsValue.key > rhsValue.key)

/-- `MergeData` up to the new table. -/
def mergeThrough (storages : List PersistentStorage) : m (List StorageEntry) := do
  let queue ← makeHeap less (startQueue storages).toArray
  mergeRounds less deref ((startQueue storages).map fun p => p.rest.length).sum queue []

end

/-! ### Without effects -/

/-- The record an iterator is at. At the end there is none, and the value is of no meaning. -/
def IteratorPair.front (it : IteratorPair) : StorageEntry := it.rest.head?.getD ⟨[], none, 0⟩

/-- The merge that reads without failure. -/
def mergePure (storages : List PersistentStorage) : List StorageEntry :=
  mergeThrough (m := Id) comparator IteratorPair.front storages

/-! ### With marked reads -/

/-- What a read is good for: a comparison that answers true, one that answers false, or the loop. -/
inductive ReadMark
  | decides
  | idle
  | loop
deriving DecidableEq, Repr

structure Marked (α : Type) where
  value : α
  marks : List ReadMark
deriving DecidableEq, Repr

instance instMonadMarked : Monad Marked where
  pure a := ⟨a, []⟩
  bind x f := ⟨(f x.value).value, x.marks ++ (f x.value).marks⟩

def Marked.comparator (lhs rhs : IteratorPair) : Marked Bool :=
  let less := Iu9Db.comparator lhs rhs
  ⟨less, if less then [.decides, .decides] else [.idle, .idle]⟩

def Marked.deref (it : IteratorPair) : Marked StorageEntry := ⟨it.front, [.loop]⟩

/-- The reads of a merge in which none fails, in their order. -/
def mergeMarks (storages : List PersistentStorage) : List ReadMark :=
  (mergeThrough Marked.comparator Marked.deref storages).marks

/-! ### With the outcomes of the reads -/

/-- A computation that reads: `reads n` says whether the `n`-th read from now on succeeds. `none` is
undefined behaviour, an error the return of one. -/
abbrev Reading := StateT (Nat → Bool) (ExceptT Error Option)

namespace Reading

/-- `PersistentStorage::Iterator::operator*`. -/
def deref (it : IteratorPair) : Reading (Result StorageEntry) := fun reads =>
  match it.rest with
  | [] => none
  | entry :: _ =>
    some (.ok (if reads 0 then .ok entry
      else .error (makeError (text "failed to read entry from persistent storage")), fun n => reads (n + 1)))

def comparator : IteratorPair → IteratorPair → Reading Bool := comparatorThrough deref

/-- The read in the loop. -/
def derefTop (it : IteratorPair) : Reading StorageEntry := do
  match ← deref it with
  | .error e => throw (wrapError e (text "failed to merge data from persistent storages"))
  | .ok value => pure value

end Reading

/-- The records that `MergeData` collects under the given reads. -/
def readEntries (storages : List PersistentStorage) (reads : Nat → Bool) :
    Option (Result (List StorageEntry)) :=
  ((mergeThrough Reading.comparator Reading.derefTop storages).run reads).run.map fun r => r.map Prod.fst

/-- `MergeData` under the given reads. -/
def mergeDataReading (io : StorageIO) (reads : Nat → Bool) (c : PersistentStorageCollection) (d : Disk) :
    Option (Result PersistentStorage × Disk) :=
  (readEntries c.collection reads).map fun
    | .error e => (.error e, d)
    | .ok data => newPersistentStorage io data d

/-- `RunCompaction` under the given reads. -/
def runCompactionReading (mergeIo : StorageIO) (swapIo : AppendIO) (reads : Nat → Bool)
    (c : PersistentStorageCollection) (d : Disk) : Option (PersistentStorageCollection × Disk) :=
  if c.size ≤ kCompactionThreshold then some (c, d)
  else do
    match ← mergeDataReading mergeIo reads c d with
    | (.error _, d) => some (c, d)
    | (.ok storage, d) => some (c.swapWith swapIo storage d).2

/-! ### The merges run alike -/

theorem mem_startQueue_iff {storages : List PersistentStorage} {p : IteratorPair} :
    p ∈ startQueue storages ↔ ∃ i, ∃ hi : i < storages.length, p = ⟨storages[i].entries, i⟩ := by
  simp only [startQueue, List.mem_map, Prod.exists, List.mk_mem_zipIdx_iff_getElem?]
  constructor
  · rintro ⟨s, i, hs, rfl⟩
    obtain ⟨hi, rfl⟩ := List.getElem?_eq_some_iff.1 hs
    exact ⟨i, hi, rfl⟩
  · rintro ⟨i, hi, rfl⟩
    exact ⟨storages[i], i, List.getElem?_eq_getElem hi, rfl⟩

theorem rest_ne_nil_of_mem_startQueue {storages : List PersistentStorage}
    (hne : ∀ s ∈ storages, s.entries ≠ []) :
    ∀ p ∈ startQueue storages, p.rest ≠ [] := by
  intro p hp
  obtain ⟨i, hi, rfl⟩ := mem_startQueue_iff.1 hp
  exact hne _ (List.getElem_mem hi)

theorem getElem?_zero_of_sum {queue : Array IteratorPair} (hq : ∀ p ∈ queue, p.rest ≠ [])
    (h : (queue.toList.map fun p => p.rest.length).sum = 0) : queue[0]? = none := by
  rw [Array.getElem?_eq_none_iff]
  by_contra hsize
  have hmem : queue[0] ∈ queue.toList := Array.mem_toList_iff.2 (Array.getElem_mem (by omega))
  have hlen := List.length_pos_iff.2 (hq _ (Array.mem_toList_iff.1 hmem))
  have hle := List.single_le_sum (l := queue.toList.map fun p => p.rest.length) (fun _ _ => Nat.zero_le _)
    _ (List.mem_map_of_mem hmem)
  omega

theorem toList_eq_nil {queue : Array IteratorPair} (h : queue[0]? = none) : queue.toList = [] := by
  rw [← List.length_eq_zero_iff, Array.length_toList]
  exact Nat.le_zero.1 (Array.getElem?_eq_none_iff.1 h)

theorem sum_lengths_eq {queue : Array IteratorPair} {l : List IteratorPair} (h : queue.Perm l.toArray) :
    (queue.toList.map fun p => p.rest.length).sum = (l.map fun p => p.rest.length).sum := by
  have := h.toList
  exact (this.map _).sum_eq

section rel
variable {m m' : Type → Type} [Monad m] [Monad m'] (R : Likeness m m')
  {less : IteratorPair → IteratorPair → m Bool} {less' : IteratorPair → IteratorPair → m' Bool}
  {deref : IteratorPair → m StorageEntry} {deref' : IteratorPair → m' StorageEntry} {P : IteratorPair → Prop}

theorem mergeRounds_none (fuel : Nat) {queue : Array IteratorPair} (data : List StorageEntry)
    (h : queue[0]? = none) : mergeRounds less deref fuel queue data = pure data := by
  cases fuel with
  | zero => rfl
  | succ fuel => rw [mergeRounds, h]

/-- The loops run alike, with any fuel that is enough for the records left. -/
theorem mergeRounds_rel (hne : ∀ p, P p → p.rest ≠ [])
    (htail : ∀ p, P p → p.rest.tail ≠ [] → P ⟨p.rest.tail, p.index⟩)
    (hless : ∀ p q, P p → P q → R.rel (fun _ => True) (less p q) (less' p q))
    (hderef : ∀ p, P p → R.rel (fun _ => True) (deref p) (deref' p)) :
    ∀ (fuel fuel' : Nat) (queue : Array IteratorPair) (data : List StorageEntry), (∀ p ∈ queue, P p) →
      (queue.toList.map fun p => p.rest.length).sum ≤ fuel →
      (queue.toList.map fun p => p.rest.length).sum ≤ fuel' →
      R.rel (fun _ => True) (mergeRounds less deref fuel queue data)
        (mergeRounds less' deref' fuel' queue data)
  | 0, fuel', queue, data, hq, hfuel, _ => by
    have hnil := getElem?_zero_of_sum (fun p hp => hne p (hq p hp)) (Nat.le_zero.1 hfuel)
    rw [mergeRounds_none _ _ hnil, mergeRounds_none _ _ hnil]
    exact R.pure trivial
  | fuel + 1, 0, queue, data, hq, _, hfuel' => by
    have hnil := getElem?_zero_of_sum (fun p hp => hne p (hq p hp)) (Nat.le_zero.1 hfuel')
    rw [mergeRounds_none _ _ hnil, mergeRounds_none _ _ hnil]
    exact R.pure trivial
  | fuel + 1, fuel' + 1, queue, data, hq, hfuel, hfuel' => by
    rw [mergeRounds, mergeRounds]
    split
    · exact R.pure trivial
    · rename_i top htop
      have htopP := hq top (Array.mem_of_getElem? htop)
      refine R.bind (pop_rel R hless hq htop) fun rest hrest => ?_
      have hmem : ∀ p ∈ rest, P p := fun p hp => hq p
        (Array.mem_toList_iff.1 (hrest.mem_iff.2 (List.mem_cons_of_mem _ (Array.mem_toList_iff.2 hp))))
      have hsum := (hrest.map fun p => p.rest.length).sum_eq
      have hlen := List.length_pos_iff.2 (hne top htopP)
      rw [List.map_cons, List.sum_cons] at hsum
      refine R.bind (hderef top htopP) fun value _ => ?_
      dsimp only
      split
      · exact mergeRounds_rel hne htail hless hderef fuel fuel' rest _ hmem (by omega) (by omega)
      · rename_i hcur
        have hnext : P ⟨top.rest.tail, top.index⟩ := htail top htopP (by simpa using hcur)
        refine R.bind (push_rel R hless hmem hnext) fun queue' hqueue' => ?_
        have hperm := hqueue'.toList
        rw [Array.toList_push] at hperm
        have hsum' := (hperm.map fun p => p.rest.length).sum_eq
        simp only [List.map_append, List.map_cons, List.map_nil, List.sum_append, List.sum_cons, List.sum_nil,
          List.length_tail] at hsum'
        refine mergeRounds_rel hne htail hless hderef fuel fuel' queue' _ (fun p hp => ?_) (by omega)
          (by omega)
        rcases Array.mem_push.1 (hqueue'.mem_iff.1 hp) with hp | rfl
        · exact hmem p hp
        · exact hnext

theorem mergeThrough_rel (hne : ∀ p, P p → p.rest ≠ [])
    (htail : ∀ p, P p → p.rest.tail ≠ [] → P ⟨p.rest.tail, p.index⟩)
    (hless : ∀ p q, P p → P q → R.rel (fun _ => True) (less p q) (less' p q))
    (hderef : ∀ p, P p → R.rel (fun _ => True) (deref p) (deref' p))
    {storages : List PersistentStorage} (hstart : ∀ p ∈ startQueue storages, P p) :
    R.rel (fun _ => True) (mergeThrough less deref storages) (mergeThrough less' deref' storages) := by
  have hstart : ∀ p ∈ (startQueue storages).toArray, P p := fun p hp => hstart p (List.mem_toArray.1 hp)
  refine R.bind (makeHeap_rel R hless hstart) fun queue hqueue => ?_
  have hfuel := (sum_lengths_eq hqueue).le
  exact mergeRounds_rel R hne htail hless hderef _ _ queue []
    (fun p hp => hstart p (hqueue.mem_iff.1 hp)) hfuel hfuel

end rel

/-! ### The merge without effects -/

theorem weak_comparator : Weak comparator fun p => p.rest ≠ [] where
  asymm p q hp hq hpq := by
    obtain ⟨a, l, ha⟩ := List.exists_cons_of_ne_nil hp
    obtain ⟨b, m, hb⟩ := List.exists_cons_of_ne_nil hq
    rw [comparator_iff ha hb] at hpq
    rw [Bool.eq_false_iff]
    intro hqp
    rw [comparator_iff hb ha] at hqp
    rcases hpq with h1 | ⟨h1, h2⟩ <;> rcases hqp with h3 | ⟨h3, h4⟩
    · exact lt_asymm h1 h3
    · exact absurd h3 h1.ne
    · exact absurd h1 h3.ne
    · omega
  trans p q r hp hq hr hpq hqr := by
    obtain ⟨a, l, ha⟩ := List.exists_cons_of_ne_nil hp
    obtain ⟨b, m, hb⟩ := List.exists_cons_of_ne_nil hq
    obtain ⟨c, n, hc⟩ := List.exists_cons_of_ne_nil hr
    rw [Bool.eq_false_iff, ne_eq, comparator_iff ha hb, not_or, not_lt, not_and, not_lt] at hpq
    rw [Bool.eq_false_iff, ne_eq, comparator_iff hb hc, not_or, not_lt, not_and, not_lt] at hqr
    rw [Bool.eq_false_iff, ne_eq, comparator_iff ha hc, not_or, not_lt, not_and, not_lt]
    refine ⟨hpq.1.trans hqr.1, fun hac => ?_⟩
    have hab : a.key = b.key := le_antisymm hpq.1 (hac ▸ hqr.1)
    exact (hqr.2 (hab ▸ hac)).trans (hpq.2 hab)

/-- The first iterator of the heap is the one that all others are less than. -/
theorem MergeInv.less_first {queue : Array IteratorPair} {rest : List IteratorPair} {top : IteratorPair}
    {data : List StorageEntry} (h : MergeInv queue.toList data) (hheap : IsHeap comparator 0 queue)
    (htop : queue[0]? = some top) (hperm : queue.toList.Perm (top :: rest)) :
    ∀ p ∈ rest, comparator p top = true := by
  intro p hp
  have htotal := (List.pairwise_cons.1 (h.perm hperm).orders.total).1 p hp
  have hmem : p ∈ queue := Array.mem_toList_iff.1 (hperm.mem_iff.2 (List.mem_cons_of_mem _ hp))
  have hfirst := hheap.first weak_comparator (fun q hq => h.nonempty q (Array.mem_toList_iff.2 hq)) htop hmem
  exact htotal.resolve_left (by simp [hfirst])

/-- `out` is `data` with the newest record of each key of the queue that `data` does not have. -/
def Continues (queue : List IteratorPair) (data out : List StorageEntry) : Prop :=
  Keyed.Strict StorageEntry.key out ∧ ∀ k e, Keyed.find StorageEntry.key k out = some e ↔
    Keyed.find StorageEntry.key k data = some e ∨
      Keyed.find StorageEntry.key k data = none ∧ Newest queue k e

theorem continues_nil {data : List StorageEntry} (h : Keyed.Strict StorageEntry.key data) :
    Continues [] data data :=
  ⟨h, fun k e => by simp [Newest]⟩

theorem mergeRounds_succ {queue : Array IteratorPair} {top : IteratorPair} {value : StorageEntry}
    {cur : List StorageEntry} (fuel : Nat) (data : List StorageEntry) (htop : queue[0]? = some top)
    (hcur : top.rest = value :: cur) :
    mergeRounds (m := Id) comparator IteratorPair.front (fuel + 1) queue data =
      mergeRounds (m := Id) comparator IteratorPair.front fuel
        (if cur.isEmpty then pop (m := Id) comparator queue
          else push (m := Id) comparator (pop (m := Id) comparator queue) ⟨cur, top.index⟩)
        (if data.getLast?.any (fun back => back.key = value.key) = true then data else data ++ [value]) := by
  have hfront : top.front = value := by simp [IteratorPair.front, hcur]
  conv_lhs => unfold mergeRounds
  simp only [htop, hcur, hfront, List.tail_cons]
  cases cur <;> rfl

theorem mergeRounds_spec : ∀ (fuel : Nat) (queue : Array IteratorPair) (data : List StorageEntry),
    IsHeap comparator 0 queue → MergeInv queue.toList data →
    (queue.toList.map fun p => p.rest.length).sum ≤ fuel →
    Continues queue.toList data (mergeRounds (m := Id) comparator IteratorPair.front fuel queue data)
  | 0, queue, data, hheap, h, hfuel => by
    have hnil := getElem?_zero_of_sum (fun p hp => h.nonempty p (Array.mem_toList_iff.2 hp))
      (Nat.le_zero.1 hfuel)
    rw [toList_eq_nil hnil]
    exact continues_nil h.sorted
  | fuel + 1, queue, data, hheap, h, hfuel => by
    have hP : ∀ p ∈ queue, p.rest ≠ [] := fun p hp => h.nonempty p (Array.mem_toList_iff.2 hp)
    cases htop : queue[0]? with
    | none =>
      rw [mergeRounds_none _ _ htop, toList_eq_nil htop]
      exact continues_nil h.sorted
    | some top =>
      have hperm := pop_perm comparator htop
      have hpop := pop_isHeap weak_comparator hP hheap
      set rest : Array IteratorPair := pop (m := Id) comparator queue with hrest
      have h' := h.perm hperm
      obtain ⟨value, cur, hcur⟩ := List.exists_cons_of_ne_nil (h'.nonempty top (by simp))
      obtain ⟨hinv, hiff⟩ := h'.next hcur (h.less_first hheap htop hperm) rfl rfl
      have hmem : ∀ p ∈ rest, p.rest ≠ [] := fun p hp => h'.nonempty p
        (List.mem_cons_of_mem _ (Array.mem_toList_iff.2 hp))
      -- The queue of the next round, as a heap and as a list.
      have hqueue : ∃ queue' : Array IteratorPair,
          queue' = (if cur.isEmpty then rest else push (m := Id) comparator rest ⟨cur, top.index⟩) ∧
          IsHeap comparator 0 queue' ∧
          queue'.toList.Perm (if cur.isEmpty then rest.toList else ⟨cur, top.index⟩ :: rest.toList) := by
        refine ⟨_, rfl, ?_⟩
        split
        · exact ⟨hpop, List.Perm.refl _⟩
        · rename_i hempty
          refine ⟨push_isHeap weak_comparator hmem (by simpa using hempty) hpop, ?_⟩
          have hpush := (push_perm comparator rest ⟨cur, top.index⟩).toList
          rw [Array.toList_push] at hpush
          exact hpush.trans (List.perm_append_singleton _ _)
      obtain ⟨queue', hq', hheap', hperm'⟩ := hqueue
      have hlen : (queue'.toList.map fun p => p.rest.length).sum ≤ fuel := by
        have hsum := (hperm.map fun p => p.rest.length).sum_eq
        rw [List.map_cons, List.sum_cons, hcur, List.length_cons] at hsum
        rw [(hperm'.map _).sum_eq]
        split
        · omega
        · simp only [List.map_cons, List.sum_cons]; omega
      rw [mergeRounds_succ fuel data htop hcur, ← hrest, ← hq']
      obtain ⟨hs, hfind⟩ := mergeRounds_spec fuel queue' _ hheap' (hinv.perm hperm'.symm) hlen
      refine ⟨hs, fun k e => ?_⟩
      rw [hfind, Newest.congr fun p => hperm'.mem_iff, hiff, Newest.congr fun p => hperm.mem_iff.symm]

theorem mergePure_spec {storages : List PersistentStorage} (h : ∀ s ∈ storages, s.Wf)
    (hne : ∀ s ∈ storages, s.entries ≠ []) :
    Keyed.Strict StorageEntry.key (mergePure storages) ∧
      ∀ k, Keyed.find StorageEntry.key k (mergePure storages) = PersistentStorageCollection.find
        ⟨storages⟩ k := by
  have hinv := mergeInv_startQueue h hne
  have hperm := makeHeap_perm comparator (startQueue storages).toArray
  have hheap : IsHeap comparator 0 (makeHeap (m := Id) comparator (startQueue storages).toArray) :=
    makeHeap_isHeap weak_comparator fun p hp => hinv.nonempty p (List.mem_toArray.1 hp)
  obtain ⟨hs, hfind⟩ := mergeRounds_spec ((startQueue storages).map fun p => p.rest.length).sum
    (makeHeap (m := Id) comparator (startQueue storages).toArray) [] hheap
    (hinv.perm hperm.toList.symm) (sum_lengths_eq hperm).le
  refine ⟨hs, fun k => ?_⟩
  ext e
  rw [← newest_startQueue]
  have hiff : Keyed.find StorageEntry.key k (mergePure storages) = some e ↔ _ := hfind k e
  rw [hiff, Newest.congr fun p => hperm.toList.mem_iff]
  simp

/-- The heap is one queue that the merge by the contract of a priority queue stands for. -/
theorem mergeEntries_eq_mergePure {storages : List PersistentStorage} (h : ∀ s ∈ storages, s.Wf)
    (hne : ∀ s ∈ storages, s.entries ≠ []) : mergeEntries storages = some (mergePure storages) := by
  obtain ⟨data, hdata, hs, hfind⟩ := mergeEntries_spec h hne
  obtain ⟨hs', hfind'⟩ := mergePure_spec h hne
  rw [hdata, hs.ext hs' fun k => (hfind k).trans (hfind' k).symm]

/-! ### Which reads matter -/

/-- No read fails that a comparison answers true by, up to the first of the loop's own reads that fails. -/
def Unmisled (marks : List ReadMark) (reads : Nat → Bool) : Prop :=
  ∀ n < marks.length, marks[n]? = some .decides → reads n = false →
    ∃ k < n, marks[k]? = some .loop ∧ reads k = false

instance instDecidableUnmisled (marks : List ReadMark) (reads : Nat → Bool) :
    Decidable (Unmisled marks reads) :=
  inferInstanceAs (Decidable (∀ n < marks.length, marks[n]? = some .decides → reads n = false →
    ∃ k < n, marks[k]? = some .loop ∧ reads k = false))

section unmisled
variable {w w' : List ReadMark} {reads : Nat → Bool}

theorem Unmisled.left (h : Unmisled (w ++ w') reads) : Unmisled w reads := by
  intro n hn hdec hfail
  obtain ⟨k, hk, hloop, hkf⟩ := h n (by rw [List.length_append]; omega)
    (by rw [List.getElem?_append_left hn]; exact hdec) hfail
  rw [List.getElem?_append_left (by omega)] at hloop
  exact ⟨k, hk, hloop, hkf⟩

theorem Unmisled.right (h : Unmisled (w ++ w') reads) (hw : ∀ k, w[k]? = some .loop → reads k = true) :
    Unmisled w' fun n => reads (n + w.length) := by
  intro n hn hdec hfail
  obtain ⟨k, hk, hloop, hkf⟩ := h (n + w.length) (by rw [List.length_append]; omega)
    (by rw [List.getElem?_append_right (by omega)]; simpa using hdec) hfail
  by_cases hlt : k < w.length
  · rw [List.getElem?_append_left hlt] at hloop
    rw [hw k hloop] at hkf
    cases hkf
  · rw [List.getElem?_append_right (by omega)] at hloop
    refine ⟨k - w.length, by omega, hloop, ?_⟩
    show reads (k - w.length + w.length) = false
    rwa [Nat.sub_add_cancel (not_lt.1 hlt)]

end unmisled

/-- A merge without effects and one whose reads are marked. -/
def Marked.likeness : Likeness Id Marked where
  rel p x y := y.value = x ∧ p y.value
  mono h hpq := ⟨h.1, hpq _ h.2⟩
  pure h := ⟨rfl, h⟩
  bind := by
    rintro α β p q x y f g ⟨rfl, hx⟩ hf
    exact hf y.value hx

namespace Reading
variable {α β : Type} {x : Reading α} {f : α → Reading β} {reads : Nat → Bool}

theorem bind_ok {a : α} {reads' : Nat → Bool} (h : x reads = some (.ok (a, reads'))) :
    (x >>= f) reads = f a reads' := by
  simp [bind, StateT.bind, ExceptT.bind, ExceptT.mk, ExceptT.bindCont, h]

theorem bind_error {e : Error} (h : x reads = some (.error e)) : (x >>= f) reads = some (.error e) := by
  simp [bind, StateT.bind, ExceptT.bind, ExceptT.mk, ExceptT.bindCont, h]

/-- While no comparison is misled the reading merge goes the way of the marked one, and ends with an
error exactly if a read of the loop fails. -/
def likeness : Likeness Marked Reading where
  rel p y x := p y.value ∧ ∀ reads, Unmisled y.marks reads →
    (∃ e k, y.marks[k]? = some .loop ∧ reads k = false ∧ x reads = some (.error e)) ∨
      (∀ k, y.marks[k]? = some .loop → reads k = true) ∧
        x reads = some (.ok (y.value, fun n => reads (n + y.marks.length)))
  mono h hpq := ⟨hpq _ h.1, h.2⟩
  pure h := ⟨h, fun reads _ => .inr ⟨fun k hk => absurd hk (by simp [Pure.pure]), rfl⟩⟩
  bind := by
    rintro α β p q y x g f ⟨hp, hx⟩ hf
    obtain ⟨hq, hg⟩ := hf y.value hp
    refine ⟨hq, fun reads hreads => ?_⟩
    have hreads : Unmisled (y.marks ++ (g y.value).marks) reads := hreads
    rcases hx reads hreads.left with ⟨e, k, hk, hfail, he⟩ | ⟨hloop, hok⟩
    · refine .inl ⟨e, k, ?_, hfail, bind_error he⟩
      show (y.marks ++ (g y.value).marks)[k]? = some .loop
      rw [List.getElem?_append_left (List.getElem?_eq_some_iff.1 hk).1, hk]
    · have hnext := hg (fun n => reads (n + y.marks.length)) (hreads.right hloop)
      rw [bind_ok hok]
      rcases hnext with ⟨e, k, hk, hfail, he⟩ | ⟨hloop', hok'⟩
      · refine .inl ⟨e, k + y.marks.length, ?_, hfail, he⟩
        show (y.marks ++ (g y.value).marks)[k + y.marks.length]? = some .loop
        rw [List.getElem?_append_right (by omega), Nat.add_sub_cancel, hk]
      · refine .inr ⟨fun k hk => ?_, ?_⟩
        · have hk : (y.marks ++ (g y.value).marks)[k]? = some .loop := hk
          by_cases hlt : k < y.marks.length
          · rw [List.getElem?_append_left hlt] at hk
            exact hloop k hk
          · rw [List.getElem?_append_right (by omega)] at hk
            have := hloop' _ hk
            rwa [Nat.sub_add_cancel (by omega)] at this
        · have hlen : (y >>= g).marks.length = y.marks.length + (g y.value).marks.length :=
            List.length_append
          rw [hok', hlen]
          simp only [Nat.add_assoc, Nat.add_comm (g y.value).marks.length]
          rfl

variable {lhs rhs top : IteratorPair}

theorem deref_eq (hne : top.rest ≠ []) (reads : Nat → Bool) :
    deref top reads = some (.ok (if reads 0 then .ok top.front
      else .error (makeError (text "failed to read entry from persistent storage")),
      fun n => reads (n + 1))) := by
  obtain ⟨a, l, ha⟩ := List.exists_cons_of_ne_nil hne
  simp [deref, ha, IteratorPair.front]

/-- A failed read is taken for "not less". -/
theorem comparator_eq (hl : lhs.rest ≠ []) (hr : rhs.rest ≠ []) (reads : Nat → Bool) :
    comparator lhs rhs reads =
      some (.ok (reads 0 && reads 1 && Iu9Db.comparator lhs rhs, fun n => reads (n + 2))) := by
  obtain ⟨a, l, ha⟩ := List.exists_cons_of_ne_nil hl
  obtain ⟨b, m, hb⟩ := List.exists_cons_of_ne_nil hr
  rw [comparator, comparatorThrough, bind_ok (deref_eq hl reads), bind_ok (deref_eq hr _)]
  cases h0 : reads 0 with
  | false => rfl
  | true =>
    cases h1 : reads 1 with
    | false => simp; rfl
    | true =>
      simp [IteratorPair.front, ha, hb, Iu9Db.comparator]
      rfl

theorem derefTop_ok (hne : top.rest ≠ []) (h : reads 0 = true) :
    derefTop top reads = some (.ok (top.front, fun n => reads (n + 1))) := by
  rw [derefTop, bind_ok (deref_eq hne reads), if_pos h]
  rfl

theorem derefTop_error (hne : top.rest ≠ []) (h : reads 0 = false) :
    ∃ e, derefTop top reads = some (.error e) := by
  rw [derefTop, bind_ok (deref_eq hne reads), if_neg (by simp [h])]
  exact ⟨_, rfl⟩

theorem comparator_rel (hl : lhs.rest ≠ []) (hr : rhs.rest ≠ []) :
    likeness.rel (fun _ => True) (Marked.comparator lhs rhs) (comparator lhs rhs) := by
  refine ⟨trivial, fun reads hreads => .inr ?_⟩
  rw [comparator_eq hl hr]
  cases hless : Iu9Db.comparator lhs rhs with
  | false =>
    have hmark : Marked.comparator lhs rhs = ⟨false, [.idle, .idle]⟩ := by simp [Marked.comparator, hless]
    rw [hmark]
    refine ⟨fun k hk => ?_, by simp⟩
    rcases k with _ | _ | k <;> simp at hk
  | true =>
    have hmark : Marked.comparator lhs rhs = ⟨true, [.decides, .decides]⟩ := by
      simp [Marked.comparator, hless]
    rw [hmark] at hreads ⊢
    -- None of the two reads is one of the loop's.
    have hgood : ∀ n < 2, reads n = true := by
      intro n hn
      by_contra hfail
      obtain ⟨k, hk, hloop, -⟩ := hreads n hn (by rcases n with _ | _ | n <;> [rfl; rfl; omega])
        (by simpa using hfail)
      rcases k with _ | k
      · cases hloop
      · omega
    refine ⟨fun k hk => ?_, by simp [hgood 0, hgood 1]⟩
    rcases k with _ | _ | k <;> simp at hk

theorem derefTop_rel (hne : top.rest ≠ []) :
    likeness.rel (fun _ => True) (Marked.deref top) (derefTop top) := by
  refine ⟨trivial, fun reads _ => ?_⟩
  cases h : reads 0 with
  | false =>
    obtain ⟨e, he⟩ := derefTop_error hne h
    exact .inl ⟨e, 0, rfl, h, he⟩
  | true =>
    refine .inr ⟨fun k hk => ?_, derefTop_ok hne h⟩
    rcases k with _ | k
    · exact h
    · simp [Marked.deref] at hk

end Reading

/-! ### No read goes past an end -/

namespace Reading

/-- Two computations that are one and never undefined. -/
def defined : Likeness Reading Reading where
  rel p x x' := x = x' ∧ ∀ reads, ∃ r, x reads = some r ∧ ∀ a reads', r = .ok (a, reads') → p a
  mono h hpq := ⟨h.1, fun reads =>
    let ⟨r, hr, hp⟩ := h.2 reads
    ⟨r, hr, fun a reads' ha => hpq a (hp a reads' ha)⟩⟩
  pure h := ⟨rfl, fun reads => ⟨_, rfl, fun a reads' ha => by cases ha; exact h⟩⟩
  bind := by
    rintro α β p q x x' f f' ⟨rfl, hx⟩ hf
    have heq : ∀ reads, (x >>= f) reads = (x >>= f') reads ∧
        ∃ r, (x >>= f) reads = some r ∧ ∀ a reads', r = .ok (a, reads') → q a := by
      intro reads
      obtain ⟨r, hr, hp⟩ := hx reads
      cases r with
      | error e =>
        rw [bind_error hr, bind_error hr]
        exact ⟨rfl, _, rfl, fun a reads' ha => by cases ha⟩
      | ok r =>
        rw [bind_ok hr, bind_ok hr]
        obtain ⟨hff', hg⟩ := hf r.1 (hp r.1 r.2 rfl)
        exact ⟨by rw [hff'], hg r.2⟩
    exact ⟨funext fun reads => (heq reads).1, fun reads => (heq reads).2⟩

theorem comparator_defined {lhs rhs : IteratorPair} (hl : lhs.rest ≠ []) (hr : rhs.rest ≠ []) :
    defined.rel (fun _ => True) (comparator lhs rhs) (comparator lhs rhs) :=
  ⟨rfl, fun reads => ⟨_, comparator_eq hl hr reads, fun _ _ _ => trivial⟩⟩

theorem derefTop_defined {top : IteratorPair} (hne : top.rest ≠ []) :
    defined.rel (fun _ => True) (derefTop top) (derefTop top) := by
  refine ⟨rfl, fun reads => ?_⟩
  cases h : reads 0 with
  | false =>
    obtain ⟨e, he⟩ := derefTop_error hne h
    exact ⟨_, he, fun _ _ _ => trivial⟩
  | true => exact ⟨_, derefTop_ok hne h, fun _ _ _ => trivial⟩

/-- Whatever reads fail, the loop is done after as many rounds as there are records. -/
theorem mergeRounds_fuel (fuel : Nat) (queue : Array IteratorPair) (data : List StorageEntry)
    (hq : ∀ p ∈ queue, p.rest ≠ []) (hfuel : (queue.toList.map fun p => p.rest.length).sum ≤ fuel) :
    defined.rel (fun _ => True) (mergeRounds comparator derefTop fuel queue data)
      (mergeRounds comparator derefTop (fuel + 1) queue data) :=
  mergeRounds_rel defined (P := fun p => p.rest ≠ []) (fun _ h => h) (fun _ _ h => h)
    (fun _ _ hl hr => comparator_defined hl hr) (fun _ h => derefTop_defined h) fuel
      (fuel + 1) queue data hq hfuel
    (Nat.le_succ_of_le hfuel)

end Reading

theorem readEntries_isSome {storages : List PersistentStorage} (hne : ∀ s ∈ storages, s.entries ≠ [])
    (reads : Nat → Bool) : (readEntries storages reads).isSome := by
  have hrel := mergeThrough_rel Reading.defined (P := fun p => p.rest ≠ []) (fun _ h => h) (fun _ _ h => h)
    (fun _ _ hl hr => Reading.comparator_defined hl hr) (fun _ h => Reading.derefTop_defined h)
    (rest_ne_nil_of_mem_startQueue hne)
  obtain ⟨r, hr, -⟩ := hrel.2 reads
  rw [readEntries, StateT.run, ExceptT.run, hr]
  rfl

theorem value_mergeThrough {storages : List PersistentStorage} (hne : ∀ s ∈ storages, s.entries ≠ []) :
    (mergeThrough Marked.comparator Marked.deref storages).value = mergePure storages := by
  have hrel : Marked.likeness.rel (fun _ => True) (mergePure storages)
      (mergeThrough Marked.comparator Marked.deref storages) :=
    mergeThrough_rel Marked.likeness (P := fun p => p.rest ≠ []) (fun _ h => h) (fun _ _ h => h)
      (fun _ _ _ _ => ⟨rfl, trivial⟩) (fun _ _ => ⟨rfl, trivial⟩) (rest_ne_nil_of_mem_startQueue hne)
  exact hrel.1

/-- A merge that no read misleads returns what it returns without failures, unless a read of its loop
fails. -/
theorem readEntries_of_unmisled {storages : List PersistentStorage} {reads : Nat → Bool}
    (hne : ∀ s ∈ storages, s.entries ≠ []) (hreads : Unmisled (mergeMarks storages) reads) :
    (∃ e k, (mergeMarks storages)[k]? = some .loop ∧ reads k = false ∧
      readEntries storages reads = some (.error e)) ∨
    readEntries storages reads = some (.ok (mergePure storages)) := by
  have hrel := mergeThrough_rel Reading.likeness (P := fun p => p.rest ≠ []) (fun _ h => h) (fun _ _ h => h)
    (fun _ _ hl hr => Reading.comparator_rel hl hr) (fun _ h => Reading.derefTop_rel h)
    (rest_ne_nil_of_mem_startQueue hne)
  rcases hrel.2 reads hreads with ⟨e, k, hk, hfail, he⟩ | ⟨-, hok⟩
  · exact .inl ⟨e, k, hk, hfail, by rw [readEntries, StateT.run, ExceptT.run, he]; rfl⟩
  · refine .inr ?_
    rw [readEntries, StateT.run, ExceptT.run, hok, value_mergeThrough hne]
    rfl

/-- **The merge is lookup-equivalent.** With every read good the records that `MergeData` collects are
in strictly increasing order of their keys, of every key that some table has, each from the table with
the greatest index that has its key, and they answer as the scan of the tables does. -/
theorem merged_of_readable {storages : List PersistentStorage} (h : ∀ s ∈ storages, s.Wf)
    (hne : ∀ s ∈ storages, s.entries ≠ []) :
    ∃ data, readEntries storages (fun _ => true) = some (.ok data) ∧
      Keyed.Strict StorageEntry.key data ∧
      (∀ k, (∃ e ∈ data, e.key = k) ↔ ∃ s ∈ storages, ∃ e ∈ s.entries, e.key = k) ∧
      (∀ e ∈ data, ∃ i, ∃ hi : i < storages.length, e ∈ storages[i].entries ∧
        ∀ j, (hj : j < storages.length) → (∃ e' ∈ storages[j].entries, e'.key = e.key) → j ≤ i) ∧
      ∀ k, Keyed.find StorageEntry.key k data = (PersistentStorageCollection.get ⟨storages⟩ k).toOption := by
  obtain ⟨hs, hfind⟩ := mergePure_spec h hne
  have hget : ∀ k, (PersistentStorageCollection.get ⟨storages⟩ k).toOption =
      PersistentStorageCollection.find ⟨storages⟩ k := PersistentStorageCollection.get_eq h
  refine ⟨mergePure storages, ?_, hs, fun k => ?_, fun e he => ?_, fun k => by rw [hget, hfind]⟩
  · have hreads : Unmisled (mergeMarks storages) fun _ => true := fun n _ _ hfail => absurd hfail (by simp)
    rcases readEntries_of_unmisled hne hreads with ⟨e, k, -, hfail, -⟩ | hok
    · exact absurd hfail (by simp)
    · exact hok
  · rw [← Keyed.isSome_find, hfind, PersistentStorageCollection.find, List.isSome_findSome?]
    simp [PersistentStorage.find, Keyed.isSome_find]
  · have hnewest := (newest_startQueue storages e.key e).2
      ((hfind e.key).symm.trans (Keyed.find_of_mem hs.nodup he))
    obtain ⟨p, hp, hpe, hall⟩ := hnewest
    obtain ⟨i, hi, rfl⟩ := mem_startQueue_iff.1 hp
    refine ⟨i, hi, Keyed.mem_of_find hpe, fun j hj hkey => ?_⟩
    exact hall ⟨storages[j].entries, j⟩ (mem_startQueue_iff.2 ⟨j, hj, rfl⟩) (Keyed.isSome_find.2 hkey)

/-- What a merge under `reads` makes of the collection answers every key as the collection does. -/
def MergesRight (c : PersistentStorageCollection) (reads : Nat → Bool) : Prop :=
  (∀ io d s d', mergeDataReading io reads c d = some (.ok s, d') →
    ∀ k, (s.get k).toOption = (c.get k).toOption) ∧
  ∀ mergeIo swapIo d c' d', runCompactionReading mergeIo swapIo reads c d = some (c', d') →
    ∀ k, c'.get k = c.get k

theorem mergeDataReading_ok {io : StorageIO} {reads : Nat → Bool} {c : PersistentStorageCollection}
    {d d' : Disk} {s : PersistentStorage} (h : mergeDataReading io reads c d = some (.ok s, d')) :
    ∃ data, readEntries c.collection reads = some (.ok data) ∧ s.entries = data.insertionSort (· ≤ ·) := by
  obtain ⟨r, hr, hs⟩ := Option.map_eq_some_iff.1 h
  cases r with
  | error e => cases hs
  | ok data =>
    have hs : newPersistentStorage io data d = (.ok s, d') := hs
    have hcases := (newPersistentStorage_cases io data d).2.2.2.2 s (by rw [hs])
    exact ⟨data, hr, by rw [hcases.1]⟩

/-- **When a merge with read errors fails or is right.** As long as no read fails that a comparison
answers true by. -/
theorem mergesRight_of_unmisled {c : PersistentStorageCollection} {reads : Nat → Bool} (h : c.Wf)
    (hne : c.Filled) (hreads : Unmisled (mergeMarks c.collection) reads) : MergesRight c reads := by
  obtain ⟨hs, hfind⟩ := mergePure_spec h hne
  have htable : ∀ io d s d', mergeDataReading io reads c d = some (.ok s, d') →
      s.Wf ∧ ∀ k, s.find k = c.find k := by
    intro io d s d' hm
    obtain ⟨data, hdata, hentries⟩ := mergeDataReading_ok hm
    rcases readEntries_of_unmisled hne hreads with ⟨e, k, -, -, he⟩ | hok
    · rw [hdata] at he; cases he
    · rw [hdata] at hok
      cases hok
      exact ⟨⟨by rw [hentries]; exact strict_insertionSort hs.nodup⟩, fun k => by
        rw [PersistentStorage.find, hentries, find_insertionSort hs.nodup, hfind]⟩
  refine ⟨fun io d s d' hm k => ?_, fun mergeIo swapIo d c' d' hrun k => ?_⟩
  · obtain ⟨hwf, hsfind⟩ := htable io d s d' hm
    rw [PersistentStorage.get_eq hwf.strict, hsfind, PersistentStorageCollection.get_eq h]
  · unfold runCompactionReading at hrun
    split at hrun
    · cases hrun; rfl
    · obtain ⟨⟨r, d₁⟩, hm, hrun⟩ := Option.bind_eq_some_iff.1 hrun
      cases r with
      | error e => cases hrun; rfl
      | ok s =>
        obtain ⟨hwf, hsfind⟩ := htable mergeIo d s d₁ hm
        have hc : c' = (c.swapWith swapIo s d₁).2.1 := by rw [Option.some.inj hrun]
        rw [hc]
        unfold PersistentStorageCollection.swapWith
        dsimp only
        split
        · rfl
        · have hwf' : PersistentStorageCollection.Wf ⟨[s]⟩ := .singleton hwf
          refine PersistentStorageCollection.get_congr hwf' h ?_
          rw [PersistentStorageCollection.find_singleton, hsfind]

/-- An older table with one key, and a newer one with that key behind a smaller one. -/
def overlapping : PersistentStorageCollection :=
  ⟨[⟨0, [⟨[2], some [0], 1⟩]⟩, ⟨1, [⟨[1], some [0], 1⟩, ⟨[2], some [1], 2⟩]⟩]⟩

theorem wf_overlapping : overlapping.Wf := by
  intro s hs
  simp only [overlapping, List.mem_cons, List.not_mem_nil, or_false] at hs
  rcases hs with rfl | rfl
  · exact ⟨List.pairwise_singleton _ _⟩
  · exact ⟨List.pairwise_pair.2 (by decide)⟩

theorem filled_overlapping : overlapping.Filled := by
  intro s hs
  simp only [overlapping, List.mem_cons, List.not_mem_nil, or_false] at hs
  rcases hs with rfl | rfl <;> simp

theorem merged_overlapping :
    ∃ data, readEntries overlapping.collection (fun _ => true) = some (.ok data) ∧
      Keyed.Strict StorageEntry.key data ∧
      (∀ k, (∃ e ∈ data, e.key = k) ↔ ∃ s ∈ overlapping.collection, ∃ e ∈ s.entries, e.key = k) ∧
      (∀ e ∈ data, ∃ i, ∃ hi : i < overlapping.collection.length, e ∈ overlapping.collection[i].entries ∧
        ∀ j, (hj : j < overlapping.collection.length) →
          (∃ e' ∈ overlapping.collection[j].entries, e'.key = e.key) → j ≤ i) ∧
      ∀ k, Keyed.find StorageEntry.key k data = (overlapping.get k).toOption :=
  merged_of_readable wf_overlapping filled_overlapping

theorem mergesRight_overlapping : MergesRight overlapping fun n => n ≠ 0 :=
  mergesRight_of_unmisled wf_overlapping filled_overlapping (by decide)

/-- The second comparison fails and is answered "not less": the older record comes first. -/
theorem not_mergesRight : ¬ ∀ (c : PersistentStorageCollection) (reads : Nat → Bool),
    c.collection ≠ [] → c.Wf → c.Filled → MergesRight c reads := by
  intro h
  obtain ⟨hright, -⟩ := h overlapping (fun n => n ≠ 3) (by decide) wf_overlapping filled_overlapping
  have hread : readEntries overlapping.collection (fun n => n ≠ 3) =
      some (.ok [⟨[1], some [0], 1⟩, ⟨[2], some [0], 1⟩]) := by decide
  have hmerge : mergeDataReading .succeeds (fun n => n ≠ 3) overlapping .empty =
      some (newPersistentStorage .succeeds [⟨[1], some [0], 1⟩, ⟨[2], some [0], 1⟩] .empty) := by
    rw [mergeDataReading, hread]; rfl
  have hanswer := hright _ _ _ _ hmerge [2]
  rw [PersistentStorage.get_eq (strict_insertionSort (by decide)), PersistentStorage.find,
    find_insertionSort (by decide), PersistentStorageCollection.get_eq wf_overlapping] at hanswer
  exact absurd hanswer (by decide)

end Iu9Db
