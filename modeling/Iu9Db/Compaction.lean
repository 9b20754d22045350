import Iu9Db.PersistentStorageCollection
import Iu9Db.Lib.PriorityQueue

/-!
# Compaction: `MergeData` and `RunCompaction`

`MergeData` merges the tables of the collection through a priority queue of iterators, smallest key
first and among equal keys the newest table first, and drops a record whose key it has just written.
Dereferencing an iterator at its end is undefined; it makes the whole merge `none`.
`mergeEntries_spec`: on tables in order and not empty the merge comes to its end.
`mergeEntries_eq_some`: a merged table is in order and holds for each key the record that the scan of
the collection finds.
-/

namespace Iu9Db

open PriorityQueue

/-- An iterator with its end and the index of its table: the records from the iterator to the end. -/
structure IteratorPair where
  rest : List StorageEntry
  index : Nat
deriving DecidableEq, Repr

/-- The queue's `less`: the key that comes later, or the older table at the same key, is less. -/
def comparator (lhs rhs : IteratorPair) : Bool :=
  match lhs.rest, rhs.rest with
  | lhsValue :: _, rhsValue :: _ =>
    if lhsValue.key = rhsValue.key then lhs.index < rhs.index else lhsValue.key > rhsValue.key
  | _, _ => false

/-- The loop of `MergeData`; every round takes one record, so `fuel` bounds the records left. -/
def mergeLoop : Nat → List IteratorPair → List StorageEntry → Option (List StorageEntry)
  | 0, _, data => some data
  | fuel + 1, queue, data =>
    match popTop comparator queue with
    | none => some data
    | some (top, queue) =>
      match top.rest with
      | [] => none
      | value :: cur =>
        let data := if data.getLast?.any fun back => back.key = value.key then data else data ++ [value]
        if cur.isEmpty then mergeLoop fuel queue data
        else mergeLoop fuel (⟨cur, top.index⟩ :: queue) data

/-- The queue before the first round. -/
def startQueue (storages : List PersistentStorage) : List IteratorPair :=
  storages.zipIdx.map fun si => ⟨si.1.entries, si.2⟩

/-- The records that `MergeData` collects. -/
def mergeEntries (storages : List PersistentStorage) : Option (List StorageEntry) :=
  let queue := startQueue storages
  mergeLoop ((queue.map fun p => p.rest.length).sum + queue.length) queue []

/-- `MergeData`. -/
def mergeData (io : StorageIO) (c : PersistentStorageCollection) (d : Disk) :
    Option (Result PersistentStorage × Disk) :=
  (mergeEntries c.collection).map fun data => newPersistentStorage io data d

/-- `kThreshold` of `compaction.cpp`. -/
def kCompactionThreshold : Nat := 5

/-- `RunCompaction`. -/
def runCompaction (mergeIo : StorageIO) (swapIo : AppendIO) (c : PersistentStorageCollection) (d : Disk) :
    Option (PersistentStorageCollection × Disk) :=
  if c.size ≤ kCompactionThreshold then some (c, d)
  else do
    match ← mergeData mergeIo c d with
    | (.error _, d) => some (c, d)
    | (.ok storage, d) => some (c.swapWith swapIo storage d).2

/-! ### The order in the queue -/

/-- What the loop keeps between two rounds. -/
structure MergeInv (queue : List IteratorPair) (data : List StorageEntry) : Prop where
  strict : ∀ p ∈ queue, Keyed.Strict StorageEntry.key p.rest
  nonempty : ∀ p ∈ queue, p.rest ≠ []
  index : (queue.map IteratorPair.index).Nodup
  sorted : Keyed.Strict StorageEntry.key data
  below : ∀ e ∈ data, ∀ p ∈ queue, ∀ e' ∈ p.rest, e.key ≤ e'.key

/-- `e` is the record of `k` in the newest table of the queue that has the key. -/
def Newest (queue : List IteratorPair) (k : Str) (e : StorageEntry) : Prop :=
  ∃ p ∈ queue, Keyed.find StorageEntry.key k p.rest = some e ∧
    ∀ p' ∈ queue, (Keyed.find StorageEntry.key k p'.rest).isSome → p'.index ≤ p.index

theorem comparator_iff {p q : IteratorPair} {a b : StorageEntry} {l m : List StorageEntry}
    (hp : p.rest = a :: l) (hq : q.rest = b :: m) :
    comparator p q = true ↔ b.key < a.key ∨ a.key = b.key ∧ p.index < q.index := by
  simp only [comparator, hp, hq]
  by_cases h : a.key = b.key
  · simp [h]
  · simp [h]

theorem MergeInv.orders {queue : List IteratorPair} {data : List StorageEntry} (h : MergeInv queue data) :
    Orders comparator queue where
  trans p hp q hq r hr hpq hqr := by
    obtain ⟨a, l, ha⟩ := List.exists_cons_of_ne_nil (h.nonempty p hp)
    obtain ⟨b, m, hb⟩ := List.exists_cons_of_ne_nil (h.nonempty q hq)
    obtain ⟨c, n, hc⟩ := List.exists_cons_of_ne_nil (h.nonempty r hr)
    rw [comparator_iff ha hb] at hpq
    rw [comparator_iff hb hc] at hqr
    rw [comparator_iff ha hc]
    rcases hpq with h1 | ⟨h1, h2⟩ <;> rcases hqr with h3 | ⟨h3, h4⟩
    · exact .inl (h3.trans h1)
    · exact .inl (h3 ▸ h1)
    · exact .inl (h1 ▸ h3)
    · exact .inr ⟨h1.trans h3, h2.trans h4⟩
  total := by
    have hnd := h.index
    rw [List.nodup_iff_pairwise_ne, List.pairwise_map] at hnd
    refine List.Pairwise.imp_of_mem (fun {p q} hp hq hne => ?_) hnd
    obtain ⟨a, l, ha⟩ := List.exists_cons_of_ne_nil (h.nonempty p hp)
    obtain ⟨b, m, hb⟩ := List.exists_cons_of_ne_nil (h.nonempty q hq)
    rw [comparator_iff ha hb, comparator_iff hb ha]
    rcases lt_trichotomy a.key b.key with hab | hab | hab
    · exact .inr (.inl hab)
    · rcases Nat.lt_or_gt_of_ne hne with hi | hi
      · exact .inl (.inr ⟨hab, hi⟩)
      · exact .inr (.inr ⟨hab.symm, hi⟩)
    · exact .inl (.inl hab)
  asymm p hp q hq hpq := by
    obtain ⟨a, l, ha⟩ := List.exists_cons_of_ne_nil (h.nonempty p hp)
    obtain ⟨b, m, hb⟩ := List.exists_cons_of_ne_nil (h.nonempty q hq)
    rw [comparator_iff ha hb] at hpq
    rw [Bool.eq_false_iff]
    intro hqp
    rw [comparator_iff hb ha] at hqp
    rcases hpq with h1 | ⟨h1, h2⟩ <;> rcases hqp with h3 | ⟨h3, h4⟩
    · exact lt_asymm h1 h3
    · exact absurd h3 h1.ne
    · exact absurd h1 h3.ne
    · omega

/-! ### One round -/

section round
variable {queue rest : List IteratorPair} {data cur : List StorageEntry} {top : IteratorPair}
  {value e : StorageEntry} {k : Str}

theorem Newest.congr {q : List IteratorPair} (h : ∀ p, p ∈ queue ↔ p ∈ q) :
    Newest queue k e ↔ Newest q k e := by
  simp only [Newest, h]

/-- A table without the key does not matter to the key. -/
theorem newest_cons_of_find_none (h : Keyed.find StorageEntry.key k top.rest = none) :
    Newest (top :: rest) k e ↔ Newest rest k e := by
  simp [Newest, h]

/-- Away from the key at its front, the top table is as good as its tail. -/
theorem newest_cons_tail (htop : top.rest = value :: cur) (hk : value.key ≠ k) :
    Newest (top :: rest) k e ↔ Newest (⟨cur, top.index⟩ :: rest) k e := by
  simp only [Newest, List.mem_cons, exists_eq_or_imp, forall_eq_or_imp, htop, Keyed.find_cons, hk, ↓reduceIte]

/-- The front of the top table is the smallest key left. -/
theorem MergeInv.value_le (h : MergeInv (top :: rest) data) (htop : top.rest = value :: cur)
    (hmax : ∀ p ∈ rest, comparator p top = true) :
    ∀ p ∈ top :: rest, ∀ e ∈ p.rest, value.key ≤ e.key := by
  intro p hp e he
  have hstrict := h.strict p hp
  rcases List.mem_cons.1 hp with rfl | hp
  · rw [htop] at hstrict he
    exact hstrict.head_le he
  · obtain ⟨a, l, ha⟩ := List.exists_cons_of_ne_nil (h.nonempty p (by simp [hp]))
    have hlt := hmax p hp
    rw [comparator_iff ha htop] at hlt
    rw [ha] at hstrict he
    exact (hlt.elim le_of_lt fun h => h.1.symm.le).trans (hstrict.head_le he)

/-- The front of the top table is the record of its key in the newest table. -/
theorem MergeInv.newest_value (h : MergeInv (top :: rest) data) (htop : top.rest = value :: cur)
    (hmax : ∀ p ∈ rest, comparator p top = true) :
    Newest (top :: rest) value.key e ↔ e = value := by
  have htopfind : Keyed.find StorageEntry.key value.key top.rest = some value := by
    rw [htop, Keyed.find_cons, if_pos rfl]
  have hlt : ∀ p ∈ rest, (Keyed.find StorageEntry.key value.key p.rest).isSome → p.index < top.index := by
    intro p hp hs
    obtain ⟨b, hb, hbk⟩ := Keyed.isSome_find.1 hs
    obtain ⟨a, l, ha⟩ := List.exists_cons_of_ne_nil (h.nonempty p (by simp [hp]))
    have hle : a.key ≤ value.key := by
      have := h.strict p (by simp [hp])
      rw [ha] at this hb
      exact hbk ▸ this.head_le hb
    have hc := hmax p hp
    rw [comparator_iff ha htop] at hc
    exact (hc.resolve_left (not_lt.2 hle)).2
  constructor
  · rintro ⟨p, hp, hfind, hall⟩
    rcases List.mem_cons.1 hp with rfl | hp
    · rw [htopfind] at hfind; exact (Option.some.inj hfind).symm
    · have h1 := hall top (by simp) (by simp [htopfind])
      have h2 := hlt p hp (by simp [hfind])
      omega
  · rintro rfl
    refine ⟨top, by simp, htopfind, fun p hp hs => ?_⟩
    rcases List.mem_cons.1 hp with rfl | hp
    · exact le_rfl
    · exact (hlt p hp hs).le

/-- What is already written lies below the front of the top table, up to one record of its key. -/
theorem MergeInv.data_cases (h : MergeInv (top :: rest) data) (htop : top.rest = value :: cur) :
    if data.getLast?.any (fun back => back.key = value.key) = true
    then (Keyed.find StorageEntry.key value.key data).isSome
    else ∀ e ∈ data, e.key < value.key := by
  have hle : ∀ e ∈ data, e.key ≤ value.key := fun e he =>
    h.below e he top (by simp) value (by simp [htop])
  split
  · rename_i hlast
    rw [Option.any_eq_true] at hlast
    obtain ⟨back, hback, hk⟩ := hlast
    exact Keyed.isSome_find.2 ⟨back, List.mem_of_getLast? hback, by simpa using hk⟩
  · rename_i hlast
    intro e he
    obtain ⟨init, back, rfl⟩ : ∃ init back, data = init ++ [back] :=
      ⟨_, _, (List.dropLast_append_getLast (List.ne_nil_of_mem he)).symm⟩
    have hback : back.key < value.key :=
      lt_of_le_of_ne (hle back (by simp)) (by simpa using hlast)
    rcases List.mem_append.1 he with he | he
    · exact ((List.pairwise_append.1 h.sorted).2.2 e he back (by simp)).trans hback
    · rw [List.mem_singleton.1 he]; exact hback

end round

/-! ### The loop -/

theorem MergeInv.perm {queue queue' : List IteratorPair} {data : List StorageEntry}
    (h : MergeInv queue data) (hp : queue.Perm queue') : MergeInv queue' data :=
  ⟨fun p hm => h.strict p (hp.mem_iff.2 hm), fun p hm => h.nonempty p (hp.mem_iff.2 hm),
    (hp.map _).nodup_iff.1 h.index, h.sorted, fun e he p hm => h.below e he p (hp.mem_iff.2 hm)⟩

/-- The queue after a round, whether or not the top table was at its end, and the data, whether or
not the record was new. -/
theorem MergeInv.next {top : IteratorPair} {rest : List IteratorPair} {data cur : List StorageEntry}
    {value : StorageEntry} (h : MergeInv (top :: rest) data) (htop : top.rest = value :: cur)
    (hmax : ∀ p ∈ rest, comparator p top = true) {queue' : List IteratorPair} {data' : List StorageEntry}
    (hq : queue' = if cur.isEmpty then rest else ⟨cur, top.index⟩ :: rest)
    (hd : data' = if data.getLast?.any (fun back => back.key = value.key) = true then data
      else data ++ [value]) :
    MergeInv queue' data' ∧ ∀ k e,
      (Keyed.find StorageEntry.key k data' = some e ∨
        Keyed.find StorageEntry.key k data' = none ∧ Newest queue' k e) ↔
      (Keyed.find StorageEntry.key k data = some e ∨
        Keyed.find StorageEntry.key k data = none ∧ Newest (top :: rest) k e) := by
  have hmem : ∀ p ∈ queue', p ∈ rest ∨ p = ⟨cur, top.index⟩ ∧ cur ≠ [] := by
    intro p hp
    rw [hq] at hp
    split at hp
    · exact .inl hp
    · rename_i hne
      rcases List.mem_cons.1 hp with rfl | hp
      · exact .inr ⟨rfl, by simpa using hne⟩
      · exact .inl hp
  have hstrict := h.strict top (by simp)
  rw [htop] at hstrict
  have hvalue := h.value_le htop hmax
  have hqle : ∀ p ∈ queue', ∀ e ∈ p.rest, value.key ≤ e.key := by
    intro p hp e he
    rcases hmem p hp with hp | ⟨rfl, -⟩
    · exact hvalue p (by simp [hp]) e he
    · exact (hstrict.head_lt he).le
  have hcases := h.data_cases htop
  have hnewest : ∀ k e, Newest queue' k e ↔ Newest (⟨cur, top.index⟩ :: rest) k e := by
    intro k e
    rw [hq]
    split
    · rename_i hnil
      exact (newest_cons_of_find_none (by simp [List.isEmpty_iff.1 hnil])).symm
    · exact Iff.rfl
  refine ⟨⟨?_, ?_, ?_, ?_, ?_⟩, ?_⟩
  · intro p hp
    rcases hmem p hp with hp | ⟨rfl, -⟩
    · exact h.strict p (by simp [hp])
    · exact hstrict.tail
  · intro p hp
    rcases hmem p hp with hp | ⟨rfl, hne⟩
    · exact h.nonempty p (by simp [hp])
    · exact hne
  · have hnd := h.index
    rw [hq]
    split
    · exact (List.nodup_cons.1 hnd).2
    · exact hnd
  · rw [hd]
    split
    · exact h.sorted
    · rename_i hlast
      rw [if_neg hlast] at hcases
      exact h.sorted.concat hcases
  · intro e he p hp e' he'
    have hle : e.key ≤ value.key := by
      rw [hd] at he
      split at he
      · exact h.below e he top (by simp) value (by simp [htop])
      · rcases List.mem_append.1 he with he | he
        · exact h.below e he top (by simp) value (by simp [htop])
        · rw [List.mem_singleton.1 he]
    exact hle.trans (hqle p hp e' he')
  · intro k e
    rw [hnewest]
    by_cases hk : value.key = k
    · subst hk
      rw [h.newest_value htop hmax, hd]
      split
      · rename_i hlast
        rw [if_pos hlast] at hcases
        obtain ⟨back, hback⟩ := Option.isSome_iff_exists.1 hcases
        simp [hback]
      · rename_i hlast
        rw [if_neg hlast] at hcases
        have hnone : Keyed.find StorageEntry.key value.key data = none :=
          Keyed.find_eq_none.2 fun e he => (hcases e he).ne
        rw [Keyed.find_append, hnone, Keyed.find_cons, if_pos rfl]
        simp [eq_comm]
    · rw [newest_cons_tail htop hk, hd]
      split
      · exact Iff.rfl
      · rw [Keyed.find_append, Keyed.find_cons, if_neg hk, Keyed.find_nil, Option.or_none]

theorem mergeLoop_spec : ∀ (fuel : Nat) (queue : List IteratorPair) (data : List StorageEntry),
    MergeInv queue data → (queue.map fun p => p.rest.length).sum ≤ fuel →
    ∃ out, mergeLoop fuel queue data = some out ∧ Keyed.Strict StorageEntry.key out ∧
      ∀ k e, Keyed.find StorageEntry.key k out = some e ↔
        Keyed.find StorageEntry.key k data = some e ∨
          Keyed.find StorageEntry.key k data = none ∧ Newest queue k e
  | 0, queue, data, h, hfuel => by
    have hq : queue = [] := by
      by_contra hne
      obtain ⟨p, q, rfl⟩ := List.exists_cons_of_ne_nil hne
      have := List.length_pos_iff.2 (h.nonempty p (by simp))
      simp only [List.map_cons, List.sum_cons] at hfuel
      omega
    subst hq
    exact ⟨data, rfl, h.sorted, by simp [Newest]⟩
  | fuel + 1, queue, data, h, hfuel => by
    unfold mergeLoop
    cases hpop : popTop comparator queue with
    | none =>
      obtain rfl := popTop_eq_none.1 hpop
      exact ⟨data, rfl, h.sorted, by simp [Newest]⟩
    | some tr =>
      obtain ⟨top, rest⟩ := tr
      have hperm := popTop_perm hpop
      have hmax := popTop_top h.orders hpop
      have h' := h.perm hperm
      obtain ⟨value, cur, htop⟩ := List.exists_cons_of_ne_nil (h'.nonempty top (by simp))
      obtain ⟨hinv, hiff⟩ := h'.next htop hmax rfl rfl
      have hsum : (queue.map fun p => p.rest.length).sum =
          cur.length + 1 + (rest.map fun p => p.rest.length).sum := by
        rw [(hperm.map _).sum_eq, List.map_cons, List.sum_cons, htop, List.length_cons]
      have hnewest : ∀ k e, Newest (top :: rest) k e ↔ Newest queue k e := fun k e =>
        Newest.congr fun p => hperm.mem_iff.symm
      simp only [htop]
      set data' := if data.getLast?.any (fun back => back.key = value.key) = true then data
        else data ++ [value]
      have hrec : (((if cur.isEmpty then rest else ⟨cur, top.index⟩ :: rest) : List IteratorPair).map
          fun p => p.rest.length).sum ≤ fuel := by
        split
        · omega
        · simp only [List.map_cons, List.sum_cons]; omega
      obtain ⟨out, hout, hs, hfind⟩ := mergeLoop_spec fuel _ data' hinv hrec
      refine ⟨out, ?_, hs, fun k e => ?_⟩
      · rw [← hout]; split <;> rfl
      · rw [hfind, hiff, hnewest]

/-! ### The merge -/

theorem startQueue_concat (storages : List PersistentStorage) (s : PersistentStorage) :
    startQueue (storages ++ [s]) = startQueue storages ++ [⟨s.entries, storages.length⟩] := by
  simp [startQueue, List.zipIdx_append]

theorem startQueue_index_lt (storages : List PersistentStorage) :
    ∀ p ∈ startQueue storages, p.index < storages.length := by
  intro p hp
  obtain ⟨⟨s, i⟩, hsi, rfl⟩ := List.mem_map.1 hp
  exact List.snd_lt_of_mem_zipIdx hsi

/-- The newest table of the queue that has a key is the one the scan from the back finds. -/
theorem newest_startQueue (storages : List PersistentStorage) (k : Str) (e : StorageEntry) :
    Newest (startQueue storages) k e ↔ PersistentStorageCollection.find ⟨storages⟩ k = some e := by
  induction storages using List.reverseRecOn with
  | nil => simp [Newest, startQueue]
  | append_singleton storages s ih =>
    have hlt := startQueue_index_lt storages
    rw [startQueue_concat, PersistentStorageCollection.find_concat, PersistentStorage.find,
      Newest.congr (q := ⟨s.entries, storages.length⟩ :: startQueue storages) (by simp [or_comm])]
    cases hs : Keyed.find StorageEntry.key k s.entries with
    | none =>
      rw [Option.none_or, ← ih, newest_cons_of_find_none hs]
    | some e' =>
      rw [Option.some_or, Option.some.injEq]
      constructor
      · rintro ⟨p, hp, hfind, hall⟩
        rcases List.mem_cons.1 hp with rfl | hp
        · rw [hs] at hfind; exact Option.some.inj hfind
        · have h1 := hall ⟨s.entries, storages.length⟩ (by simp) (by simp [hs])
          have h2 := hlt p hp
          simp only at h1
          omega
      · rintro rfl
        refine ⟨⟨s.entries, storages.length⟩, by simp, hs, fun p hp _ => ?_⟩
        rcases List.mem_cons.1 hp with rfl | hp
        · exact le_rfl
        · exact (hlt p hp).le

/-- An iterator of the first queue is at the front of a table. -/
theorem mem_startQueue {storages : List PersistentStorage} {p : IteratorPair} (hp : p ∈ startQueue storages) :
    ∃ s ∈ storages, p.rest = s.entries := by
  obtain ⟨⟨s, i⟩, hsi, rfl⟩ := List.mem_map.1 hp
  exact ⟨s, List.fst_mem_of_mem_zipIdx hsi, rfl⟩

theorem mergeInv_startQueue {storages : List PersistentStorage} (h : ∀ s ∈ storages, s.Wf)
    (hne : ∀ s ∈ storages, s.entries ≠ []) : MergeInv (startQueue storages) [] := by
  refine ⟨fun p hp => ?_, fun p hp => ?_, ?_, List.Pairwise.nil, by simp⟩
  · obtain ⟨s, hs, he⟩ := mem_startQueue hp
    rw [he]; exact (h s hs).strict
  · obtain ⟨s, hs, he⟩ := mem_startQueue hp
    rw [he]; exact hne s hs
  · have : (startQueue storages).map IteratorPair.index = List.range' 0 storages.length := by
      simp [startQueue, Function.comp_def]
    rw [this]
    exact List.nodup_range'

/-- The merge of non-empty tables in order is one table in order with the same lookups. -/
theorem mergeEntries_spec {storages : List PersistentStorage} (h : ∀ s ∈ storages, s.Wf)
    (hne : ∀ s ∈ storages, s.entries ≠ []) :
    ∃ data, mergeEntries storages = some data ∧ Keyed.Strict StorageEntry.key data ∧
      ∀ k, Keyed.find StorageEntry.key k data = PersistentStorageCollection.find ⟨storages⟩ k := by
  have hinv := mergeInv_startQueue h hne
  obtain ⟨data, hdata, hs, hfind⟩ := mergeLoop_spec _ (startQueue storages) [] hinv (Nat.le_add_right _ _)
  refine ⟨data, hdata, hs, fun k => ?_⟩
  ext e
  rw [hfind, newest_startQueue]
  simp

/-- With an iterator at its end in the queue the loop comes to dereference it. -/
theorem mergeLoop_eq_none : ∀ (fuel : Nat) (queue : List IteratorPair) (data : List StorageEntry),
    (∃ p ∈ queue, p.rest = []) → (queue.map fun p => p.rest.length).sum < fuel →
    mergeLoop fuel queue data = none
  | 0, _, _, _, hfuel => absurd hfuel (Nat.not_lt_zero _)
  | fuel + 1, queue, data, ⟨p, hp, hpe⟩, hfuel => by
    unfold mergeLoop
    cases hpop : popTop comparator queue with
    | none =>
      obtain rfl := popTop_eq_none.1 hpop
      cases hp
    | some tr =>
      obtain ⟨top, rest⟩ := tr
      have hperm := popTop_perm hpop
      have hsum : (queue.map fun p => p.rest.length).sum =
          top.rest.length + (rest.map fun p => p.rest.length).sum := by
        rw [(hperm.map _).sum_eq, List.map_cons, List.sum_cons]
      cases htop : top.rest with
      | nil => simp only [htop]
      | cons value cur =>
        simp only [htop]
        have hrest : p ∈ rest := by
          rcases List.mem_cons.1 (hperm.mem_iff.1 hp) with rfl | hp
          · rw [hpe] at htop; cases htop
          · exact hp
        rw [htop, List.length_cons] at hsum
        split
        · exact mergeLoop_eq_none fuel _ _ ⟨p, hrest, hpe⟩ (by omega)
        · refine mergeLoop_eq_none fuel _ _ ⟨p, by simp [hrest], hpe⟩ ?_
          simp only [List.map_cons, List.sum_cons]
          omega

/-- **A merge that comes to its end is one table in order with the same lookups.** -/
theorem mergeEntries_eq_some {storages : List PersistentStorage} {data : List StorageEntry}
    (h : ∀ s ∈ storages, s.Wf) (hm : mergeEntries storages = some data) :
    Keyed.Strict StorageEntry.key data ∧
      ∀ k, Keyed.find StorageEntry.key k data = PersistentStorageCollection.find ⟨storages⟩ k := by
  by_cases hne : ∀ s ∈ storages, s.entries ≠ []
  · obtain ⟨data', hm', hs, hfind⟩ := mergeEntries_spec h hne
    obtain rfl := Option.some.inj (hm.symm.trans hm')
    exact ⟨hs, hfind⟩
  · push Not at hne
    obtain ⟨s, hs, he⟩ := hne
    obtain ⟨i, hi, rfl⟩ := List.mem_iff_getElem.1 hs
    have hmem : (⟨[], i⟩ : IteratorPair) ∈ startQueue storages :=
      List.mem_map.2 ⟨(storages[i], i), List.mem_zipIdx_iff_getElem?.2 (by simp [hi]), by simp [he]⟩
    have hlen := List.length_pos_of_mem hmem
    rw [mergeEntries, mergeLoop_eq_none _ _ _ ⟨_, hmem, rfl⟩ (Nat.lt_add_of_pos_right hlen)] at hm
    cases hm

end Iu9Db
