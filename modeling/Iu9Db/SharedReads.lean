import Iu9Db.Lib.SharedFiles
import Iu9Db.Lib.Transition
import Iu9Db.MergeReads
import Iu9Db.TableBytes

/-!
# Reads during a compaction

A table has one descriptor, and `ReadEntryAt` is an `lseek` and then the `read`s of a stream on it.
The merge of `RunCompaction` reads outside the strand on which the `Get`s read one after the other, so
that between two calls of one of them the other may move the position. `uncorrupted_of_reachableBy`:
while every `read` finds the position where its own `ReadEntryAt` has left it, no read is corrupted.
-/

namespace Iu9Db

open Delimited SharedFiles TableBytes

/-- The collection, and the bytes of its tables. -/
structure OpenCollection where
  collection : PersistentStorageCollection
  storages : List TableBytes.PersistentStorage
  wf : collection.Wf
  represents : List.Forall₂ Represents storages collection.collection

namespace SharedReads

/-- How a program ends that does not return: with an exception, with an error, or undefined. -/
inductive Stop
  | thrown
  | failed (e : Error)
  | undefined
deriving DecidableEq

/-- A program that calls `ReadEntryAt`; no answer is a message that does not parse. -/
abbrev Reads := Program Stop Query (Option StorageEntry)

def parsed : Option StorageEntry → Result StorageEntry
  | none => .error (makeError (text "failed to read entry from persistent storage"))
  | some entry => .ok entry

/-- `ReadEntryAt`. -/
def readEntryAt (file : Nat) (offset : UInt64) : Reads (Result StorageEntry) :=
  .ask ⟨file, offset.toNat⟩ fun entry => pure (parsed entry)

/-- `ReadEntryAt(offset).value()`. -/
def value (file : Nat) (offset : UInt64) : Reads StorageEntry := do
  match ← readEntryAt file offset with
  | .error _ => .stop .thrown
  | .ok entry => pure entry

/-- The loop of `PersistentStorageCollection::Get`. -/
def getFrom (key : Str) : List (TableBytes.PersistentStorage × Nat) → Reads (Result StorageEntry)
  | [] => pure (.error (makeError (text "key " ++ key ++ text " not found in persistent storage")))
  | (storage, file) :: rest => do
    match ← storage.getThrough (value file) key with
    | .ok res => pure (.ok res)
    | .error _ => getFrom key rest

section
variable (c : OpenCollection)

/-- `PersistentStorageCollection::Get`. -/
def get (key : Str) : Reads (Result StorageEntry) := getFrom key c.storages.zipIdx.reverse

/-- `*it`: the iterator is at the offset behind which `rest` begins. -/
def deref (it : IteratorPair) : Reads (Result StorageEntry) :=
  match c.storages[it.index]? with
  | none => .stop .undefined
  | some storage =>
    match storage.index[storage.index.length - it.rest.length]? with
    | none => .stop .undefined
    | some offset => readEntryAt it.index offset

/-- The read in the loop of `MergeData`. -/
def derefTop (it : IteratorPair) : Reads StorageEntry := do
  match ← deref c it with
  | .error e => .stop (.failed (wrapError e (text "failed to merge data from persistent storages")))
  | .ok value => pure value

/-- What `RunCompaction` reads: nothing of a few tables, else the records for the merged table. -/
def runCompaction : Reads (Option (List StorageEntry)) :=
  if c.storages.length ≤ kCompactionThreshold then pure none
  else do
    let data ← mergeThrough (comparatorThrough (deref c)) (derefTop c) c.collection.collection
    pure (some data)

/-- The entry was serialised at the offset. -/
def Serialised (q : Query) (e : StorageEntry) : Prop :=
  ∃ t, c.collection.collection[q.file]? = some t ∧ ∃ i, ∃ hi : i < t.entries.length, t.entries[i] = e ∧
    q.offset = (record.encodeAll (t.entries.take i)).length

end

theorem storage_of_table {c : OpenCollection} {i : Nat} {t : PersistentStorage}
    (h : c.collection.collection[i]? = some t) : ∃ s, c.storages[i]? = some s ∧ Represents s t := by
  obtain ⟨hi, rfl⟩ := List.getElem?_eq_some_iff.1 h
  have hi' : i < c.storages.length := by rw [c.represents.length_eq]; exact hi
  exact ⟨c.storages[i], List.getElem?_eq_getElem hi', c.represents.get hi' hi⟩

/-- The files of the tables, and the records that were serialised in them. -/
def volume (c : OpenCollection) (parser : Parser record) : Volume record where
  files file := (c.storages[file]?.map fun s => s.content).getD []
  parser := parser
  At := Serialised c
  fits q e h := by
    obtain ⟨t, ht, i, hi, rfl, -⟩ := h
    obtain ⟨s, -, hrep⟩ := storage_of_table ht
    exact hrep.fits _ (List.getElem_mem hi)
  encode_prefix q e h := by
    obtain ⟨t, ht, i, hi, rfl, hoffset⟩ := h
    obtain ⟨s, hs, hrep⟩ := storage_of_table ht
    rw [hs, hoffset]
    exact hrep.encode_prefix hi

/-! ### The system -/

/-- The positions of the descriptors, the merge, the `Get`s that have come so far, the last one first,
and what `ReadEntryAt` has returned. -/
structure State where
  position : Nat → Nat
  merge : Process Stop StorageEntry UInt8 (Option (List StorageEntry))
  gets : List (Str × Process Stop StorageEntry UInt8 (Result StorageEntry))
  returned : List (Query × Option StorageEntry)

inductive Label
  | merge (call : Call)
  | get (key : Str)
  | strand (call : Call)

/-- A `Get` begins when the one before it is done with its reads. -/
def step (c : OpenCollection) (parser : Parser record) (s : State) : Label → Option State
  | .merge call => (s.merge.call (volume c parser) call s.position).map fun next => { s with
      merge := next.1
      position := next.2.1
      returned := s.returned ++ next.2.2.toList }
  | .get key =>
    if s.gets.head?.all fun g => g.2.program.outcome.isSome then
      some { s with gets := (key, ⟨get c key, none⟩) :: s.gets }
    else none
  | .strand call =>
    match s.gets with
    | [] => none
    | (key, p) :: gets => (p.call (volume c parser) call s.position).map fun next => { s with
        gets := (key, next.1) :: gets
        position := next.2.1
        returned := s.returned ++ next.2.2.toList }

/-- The merge is about to begin, wherever the positions are. -/
def init (c : OpenCollection) (s : State) : Prop :=
  s.merge = ⟨runCompaction c, none⟩ ∧ s.gets = [] ∧ s.returned = []

def system (c : OpenCollection) (parser : Parser record) : Transition.System State Label :=
  Transition.ofFun (init c) (step c parser)

/-- A `read` finds the position where its `ReadEntryAt` has left it. -/
def Ok (s : State) : Label → Prop
  | .merge (.read _) => s.merge.Undisturbed s.position
  | .strand (.read _) => ∀ g ∈ s.gets.head?, g.2.Undisturbed s.position
  | _ => True

/-- Every read has returned the entry that was serialised at its offset. So the `Get`s have answered
as they would have without the merge, and the merge has come to the newest records of the tables. -/
structure Uncorrupted (c : OpenCollection) (s : State) : Prop where
  reads : ∀ q r, (q, r) ∈ s.returned → ∃ e, r = some e ∧ Serialised c q e
  gets : ∀ key p, (key, p) ∈ s.gets → ∀ r, p.program.outcome = some r → r = .ok (c.collection.get key)
  merge : ∀ r, s.merge.program.outcome = some r →
    c.collection.size ≤ kCompactionThreshold ∧ r = .ok none ∨
      kCompactionThreshold < c.collection.size ∧ ∃ data, r = .ok (some data) ∧
        Keyed.Strict StorageEntry.key data ∧ ∀ k, Keyed.find StorageEntry.key k data = c.collection.find k

/-! ### What the programs return alone -/

section
variable {c : OpenCollection} {parser : Parser record}

theorem readEntryAt_follows {file i : Nat} {s : TableBytes.PersistentStorage} {t : PersistentStorage}
    {offset : UInt64} (ht : c.collection.collection[file]? = some t) (hrep : Represents s t)
    (hi : i < t.entries.length) (hoffset : s.index[i]? = some offset) :
    (readEntryAt file offset).Follows (Right (volume c parser)) (.ok t.entries[i]) := by
  obtain ⟨offset', hoffset', hnat⟩ := hrep.getElem?_index hi
  obtain rfl : offset' = offset := Option.some.inj (hoffset'.symm.trans hoffset)
  exact .ask ⟨t.entries[i], rfl, t, ht, i, hi, rfl, hnat⟩ (.ret _)

theorem getFrom_follows (key : Str) {storages : List (TableBytes.PersistentStorage × Nat)}
    {tables : List PersistentStorage}
    (h : List.Forall₂ (fun si t => c.collection.collection[si.2]? = some t ∧
      Represents si.1 t) storages tables) :
    (getFrom key storages).Follows (Right (volume c parser))
    (PersistentStorageCollection.getFrom key tables) := by
  induction h with
  | nil => exact .ret _
  | @cons si t storages tables hst _ ih =>
    have hvalue : ∀ i, (hi : i < t.entries.length) → ∀ offset, si.1.index[i]? = some offset →
        (Program.likeness (ε := Stop) (Right (volume c parser))).rel (fun _ => True) t.entries[i]
          (value si.2 offset) := fun i hi offset hoffset =>
      ⟨(readEntryAt_follows hst.1 hst.2 hi hoffset).bind (.ret _), trivial⟩
    unfold getFrom PersistentStorageCollection.getFrom
    refine (hst.2.getThrough_rel _ hvalue key).1.bind ?_
    cases t.get key with
    | ok res => exact .ret _
    | error e => exact ih

theorem get_follows (key : Str) : (get c key).Follows (Right (volume c parser)) (c.collection.get key) := by
  refine getFrom_follows key (List.forall₂_reverse_iff.2 (List.forall₂_iff_get.2 ⟨?_, fun i hi hi' => ?_⟩))
  · rw [List.length_zipIdx, c.represents.length_eq]
  · have hi₀ : i < c.storages.length := by rw [c.represents.length_eq]; exact hi'
    simp only [List.get_eq_getElem, List.getElem_zipIdx, Nat.zero_add]
    exact ⟨List.getElem?_eq_getElem hi', c.represents.get hi₀ hi'⟩

/-- The iterator stands before a record of its table. -/
def At (c : OpenCollection) (it : IteratorPair) : Prop :=
  it.rest ≠ [] ∧ ∃ t, c.collection.collection[it.index]? = some t ∧ it.rest <:+ t.entries

theorem deref_follows {it : IteratorPair} (h : At c it) :
    (deref c it).Follows (Right (volume c parser)) (.ok it.front) := by
  obtain ⟨hne, t, ht, before, hsuffix⟩ := h
  obtain ⟨s, hs, hrep⟩ := storage_of_table ht
  obtain ⟨e, rest, hrest⟩ := List.exists_cons_of_ne_nil hne
  have hlen : t.entries.length = before.length + it.rest.length := by rw [← hsuffix, List.length_append]
  have hpos : 0 < it.rest.length := List.length_pos_iff.2 hne
  have hi : before.length < t.entries.length := by omega
  have hat : s.index.length - it.rest.length = before.length := by rw [hrep.length_index]; omega
  have hentry : t.entries[before.length] = it.front := by
    have hget : t.entries[before.length]? = some e := by simp [← hsuffix, hrest]
    rw [List.getElem?_eq_getElem hi] at hget
    rw [Option.some.inj hget, IteratorPair.front, hrest]
    rfl
  obtain ⟨offset, hoffset, -⟩ := hrep.getElem?_index hi
  rw [deref, hs]
  dsimp only
  rw [hat, hoffset, ← hentry]
  exact readEntryAt_follows ht hrep hi hoffset

theorem derefTop_follows {it : IteratorPair} (h : At c it) :
    (derefTop c it).Follows (Right (volume c parser)) it.front :=
  (deref_follows h).bind (.ret _)

theorem comparator_follows {lhs rhs : IteratorPair} (hl : At c lhs) (hr : At c rhs) :
    (comparatorThrough (deref c) lhs rhs).Follows (Right (volume c parser)) (comparator lhs rhs) := by
  refine (deref_follows hl).bind ((deref_follows hr).bind ?_)
  obtain ⟨a, l, ha⟩ := List.exists_cons_of_ne_nil hl.1
  obtain ⟨b, m, hb⟩ := List.exists_cons_of_ne_nil hr.1
  simp only [IteratorPair.front, comparator, ha, hb]
  exact .ret _

theorem startQueue_at (hfilled : c.collection.Filled) : ∀ p ∈ startQueue c.collection.collection, At c p := by
  intro p hp
  obtain ⟨i, hi, rfl⟩ := mem_startQueue_iff.1 hp
  exact ⟨hfilled _ (List.getElem_mem hi), _, List.getElem?_eq_getElem hi, List.suffix_rfl⟩

theorem At.tail {p : IteratorPair} (h : At c p) (hne : p.rest.tail ≠ []) : At c ⟨p.rest.tail, p.index⟩ := by
  obtain ⟨-, t, ht, hsuffix⟩ := h
  exact ⟨hne, t, ht, (List.tail_suffix _).trans hsuffix⟩

theorem merge_follows (hfilled : c.collection.Filled) :
    (mergeThrough (comparatorThrough (deref c)) (derefTop c) c.collection.collection).Follows
      (Right (volume c parser)) (mergePure c.collection.collection) := by
  have hrel := mergeThrough_rel (Program.likeness (ε := Stop) (Right (volume c parser)))
    (P := At c) (fun p hp => hp.1) (fun p hp hne => hp.tail hne)
    (fun p q hp hq => ⟨comparator_follows hp hq, trivial⟩) (fun p hp => ⟨derefTop_follows hp, trivial⟩)
    (startQueue_at hfilled)
  exact hrel.1

/-- What `RunCompaction` reads when it is alone. -/
def merged (c : OpenCollection) : Option (List StorageEntry) :=
  if c.collection.size ≤ kCompactionThreshold then none else some (mergePure c.collection.collection)

theorem runCompaction_follows (hfilled : c.collection.Filled) :
    (runCompaction c).Follows (Right (volume c parser)) (merged c) := by
  rw [runCompaction, merged, c.represents.length_eq, PersistentStorageCollection.size]
  split
  · exact .ret _
  · exact (merge_follows hfilled).bind (.ret _)

end

/-! ### The invariant -/

structure Inv (c : OpenCollection) (parser : Parser record) (s : State) : Prop where
  merge : s.merge.On (volume c parser) (merged c)
  gets : ∀ g ∈ s.gets, g.2.On (volume c parser) (c.collection.get g.1)
  returned : ∀ qr ∈ s.returned, Right (volume c parser) qr.1 qr.2

section
variable {c : OpenCollection} {parser : Parser record} {s s' : State} {a : Label}

theorem Inv.init (hfilled : c.collection.Filled) (h : init c s) : Inv c parser s := by
  obtain ⟨hmerge, hgets, hreturned⟩ := h
  refine ⟨?_, fun g hg => ?_, fun qr hqr => ?_⟩
  · rw [hmerge]
    exact .idle (runCompaction_follows hfilled)
  · rw [hgets] at hg
    exact absurd hg List.not_mem_nil
  · rw [hreturned] at hqr
    exact absurd hqr List.not_mem_nil

theorem Inv.answered (hi : Inv c parser s) {answer : Option (Query × Option StorageEntry)}
    (h : ∀ qr ∈ answer, Right (volume c parser) qr.1 qr.2) :
    ∀ qr ∈ s.returned ++ answer.toList, Right (volume c parser) qr.1 qr.2 := by
  intro qr hqr
  rcases List.mem_append.1 hqr with hqr | hqr
  · exact hi.returned qr hqr
  · exact h qr (Option.mem_toList.1 hqr)

theorem Inv.step (hi : Inv c parser s) (hok : Ok s a) (hs : step c parser s a = some s') :
    Inv c parser s' := by
  cases a with
  | merge call =>
    obtain ⟨⟨p, position, answer⟩, hcall, rfl⟩ := Option.map_eq_some_iff.1 hs
    obtain ⟨hp, hanswer⟩ := hi.merge.next (fun n hn => by subst hn; exact hok) hcall
    exact ⟨hp, hi.gets, hi.answered hanswer⟩
  | get key =>
    obtain ⟨-, hs⟩ := Option.ite_none_right_eq_some.1 hs
    cases hs
    refine ⟨hi.merge, fun g hg => ?_, hi.returned⟩
    rcases List.mem_cons.1 hg with rfl | hg
    · exact .idle (get_follows key)
    · exact hi.gets g hg
  | strand call =>
    simp only [SharedReads.step] at hs
    split at hs
    · cases hs
    · rename_i key p gets hgets
      obtain ⟨⟨p', position, answer⟩, hcall, rfl⟩ := Option.map_eq_some_iff.1 hs
      have hpos : ∀ n, call = .read n → p.Undisturbed s.position := by
        intro n hn
        subst hn
        exact hok (key, p) (by rw [hgets]; rfl)
      obtain ⟨hp, hanswer⟩ := (hi.gets (key, p) (by simp [hgets])).next hpos hcall
      refine ⟨hi.merge, fun g hg => ?_, hi.answered hanswer⟩
      rcases List.mem_cons.1 hg with rfl | hg
      · exact hp
      · exact hi.gets g (by rw [hgets]; exact List.mem_cons_of_mem _ hg)

theorem Inv.uncorrupted (hfilled : c.collection.Filled) (hi : Inv c parser s) : Uncorrupted c s := by
  refine ⟨fun q r hqr => hi.returned (q, r) hqr, fun key p hp r hr => ?_, fun r hr => ?_⟩
  · exact (hi.gets (key, p) hp).outcome hr
  · rw [hi.merge.outcome hr, merged]
    split
    · rename_i hsize
      exact .inl ⟨hsize, rfl⟩
    · rename_i hsize
      obtain ⟨hstrict, hfind⟩ := mergePure_spec c.wf hfilled
      exact .inr ⟨not_le.1 hsize, _, rfl, hstrict, hfind⟩

end

/-- **No read is corrupted**, in runs in which every `read` finds the position where its own `ReadEntryAt` has
left it. -/
theorem uncorrupted_of_reachableBy {c : OpenCollection} {parser : Parser record}
    (hfilled : c.collection.Filled) {s : State} (h : (system c parser).ReachableBy Ok s) :
    Uncorrupted c s := by
  have hi := h.invariant (I := Inv c parser) (fun _ hs => .init hfilled hs) fun _ _ _ hi hok hs =>
    hi.step hok hs
  exact hi.uncorrupted hfilled

/-! ### Runs -/

/-- The tables as they were written. -/
def written (collection : PersistentStorageCollection) (hwf : collection.Wf)
    (hfits : ∀ t ∈ collection.collection, ∀ e ∈ t.entries, (encodeEntry e).length < 2 ^ 31)
    (hsize : ∀ t ∈ collection.collection, (record.encodeAll t.entries).length < 2 ^ 63) : OpenCollection where
  collection := collection
  storages := collection.collection.map fun t => ⟨t.path, record.encodeAll t.entries, offsetsFrom 0 t.entries⟩
  wf := hwf
  represents := by
    rw [List.forall₂_map_left_iff, List.forall₂_same]
    exact fun t ht => ⟨rfl, hfits t ht, hsize t ht, rfl, rfl⟩

/-- Six tables, so that they are merged; the last one has two records. -/
def sixTables : PersistentStorageCollection :=
  ⟨((List.range 5).map fun i => ⟨i, [⟨[UInt8.ofNat i], some [0], 1⟩]⟩) ++
    [⟨5, [⟨[5], some [0], 1⟩, ⟨[6], some [0], 1⟩]⟩]⟩

theorem wf_sixTables : sixTables.Wf := by
  have hstrict : ∀ t ∈ sixTables.collection, t.entries.Pairwise fun a b => a.key < b.key := by decide
  exact fun t ht => ⟨hstrict t ht⟩

theorem filled_sixTables : sixTables.Filled := by
  have hfilled : ∀ t ∈ sixTables.collection, t.entries ≠ [] := by decide
  exact hfilled

def six : OpenCollection := written sixTables wf_sixTables (by decide) (by decide)

def start (c : OpenCollection) : State := ⟨fun _ => 0, ⟨runCompaction c, none⟩, [], []⟩

/-- The merge reads the first record of the last table in two blocks, then a `Get` reads the second. -/
def turnsRun : List Label :=
  [.merge .lseek, .merge (.read 3), .merge (.read 8192), .get [6], .strand .lseek, .merge .lseek,
    .strand (.read 8192), .strand .lseek, .strand (.read 8192), .strand .lseek, .strand (.read 8192)]

/-- Between the `lseek` and the `read` of the merge the `Get` sets the position to the second record. -/
def movedRun : List Label := [.merge .lseek, .get [6], .strand .lseek, .merge (.read 8192)]

instance decidableUndisturbed (p : Process Stop StorageEntry UInt8 γ) (position : Nat → Nat) :
    Decidable (p.Undisturbed position) :=
  match p with
  | ⟨.ask q _, some got⟩ => inferInstanceAs (Decidable (position q.file = q.offset + got.length))
  | ⟨.ask _ _, none⟩ | ⟨.ret _, _⟩ | ⟨.stop _, _⟩ => isTrue trivial

instance decidableOk : ∀ s a, Decidable (Ok s a)
  | s, .merge (.read _) => inferInstanceAs (Decidable (s.merge.Undisturbed s.position))
  | s, .strand (.read _) => inferInstanceAs (Decidable (∀ g ∈ s.gets.head?, g.2.Undisturbed s.position))
  | _, .merge .lseek | _, .strand .lseek | _, .get _ => isTrue trivial

theorem uncorrupted_turnsRun : ∃ s, s.returned.length = 4 ∧
    (s.gets.map fun g => g.2.program.outcome) = [some (.ok (six.collection.get [6]))] ∧
    Uncorrupted six s := by
  obtain ⟨s, hs⟩ : ∃ s, Transition.execBy Ok (step six (patient record)) (start six) turnsRun = some s :=
    Option.isSome_iff_exists.1 (by decide +kernel)
  have hinit : (system six (patient record)).ReachableBy Ok (start six) := .init ⟨rfl, rfl, rfl⟩
  obtain ⟨hexec, hreach⟩ := Transition.reachableBy_execBy hinit hs
  exact ⟨s, Transition.eq_of_map_exec hexec (f := fun s => s.returned.length) (by decide +kernel),
    Transition.eq_of_map_exec hexec (f := fun s => s.gets.map fun g => g.2.program.outcome)
      (by decide +kernel),
    uncorrupted_of_reachableBy filled_sixTables hreach⟩

/-- The merge takes the second record for the first. -/
theorem not_uncorrupted : ¬ ∀ (c : OpenCollection) (parser : Parser record) (s : State), c.collection.Filled →
    (system c parser).Reachable s → Uncorrupted c s := by
  intro h
  obtain ⟨s, hs⟩ : ∃ s, Transition.exec (step six (patient record)) (start six) movedRun = some s :=
    Option.isSome_iff_exists.1 (by decide +kernel)
  have hreturned : s.returned = [(⟨5, 0⟩, some ⟨[6], some [0], 1⟩)] :=
    Transition.eq_of_map_exec hs (f := fun s => s.returned) (by decide +kernel)
  have hreach : (system six (patient record)).Reachable s :=
    Transition.reachable_exec (.init ⟨rfl, rfl, rfl⟩) hs
  obtain ⟨e, he, t, ht, i, hi, hentry, hoffset⟩ := (h six (patient record) s filled_sixTables hreach).reads
    ⟨5, 0⟩ (some ⟨[6], some [0], 1⟩) (by simp [hreturned])
  have htable : six.collection.collection[5]? = some ⟨5, [⟨[5], some [0], 1⟩, ⟨[6], some [0], 1⟩]⟩ := rfl
  obtain rfl := Option.some.inj (htable.symm.trans ht)
  cases he
  rcases i with _ | _ | i
  · exact absurd hentry (by simp)
  · exact absurd hoffset (by decide)
  · exact absurd hi (by simp)

end SharedReads

end Iu9Db
