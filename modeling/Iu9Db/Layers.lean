import Iu9Db.SwapJob

/-!
# What each layer holds of the history

`Layers h s`: the operations applied so far, in order, fall into three runs. The tables on disk answer
for the first, the second reader's table for the next, the first reader's table for the last.
`Layers.entry` is what follows for a reader; `Layers.applied` and `layersAt_step` keep the division
through an operation and through each statement of a job, whether or not the job gets to its end.
-/

namespace Iu9Db

open Keyed

/-- The applied operations, split by the layer that answers for them. -/
structure History where
  old : List Write
  mid : List Write
  recent : List Write
deriving DecidableEq, Repr

namespace History

def all (h : History) : List Write := h.old ++ h.mid ++ h.recent

/-- The division after one statement of a job: dropping the collected table shifts it by one. -/
def next (h : History) : SwapJob → History
  | .secondExchanged _ => ⟨h.old ++ h.mid, h.recent, []⟩
  | _ => h

@[simp] theorem all_next (h : History) (pc : SwapJob) : (h.next pc).all = h.all := by
  cases pc <;> simp [next, all]

end History

/-- What the last of the operations on a key stores. -/
def lastValue (ops : List Write) (k : Str) : Option Value := (findLast Write.key k ops).map Write.value

@[simp] theorem lastValue_nil (k : Str) : lastValue [] k = none := rfl

theorem lastValue_append (ops ops' : List Write) (k : Str) :
    lastValue (ops ++ ops') k = (lastValue ops' k).or (lastValue ops k) := by
  unfold lastValue
  rw [findLast_append]
  cases findLast Write.key k ops' <;> rfl

theorem lastValue_concat (ops : List Write) (w : Write) (k : Str) :
    lastValue (ops ++ [w]) k = if k = w.key then some w.value else lastValue ops k := by
  rw [lastValue, findLast_concat]
  by_cases h : w.key = k
  · simp [h]
  · simp [h, Ne.symm h, lastValue]

theorem exists_of_lastValue {ops : List Write} {k : Str} {v : Value} (h : lastValue ops k = some v) :
    ∃ w ∈ ops, w.key = k ∧ w.value = v := by
  obtain ⟨w, hw, rfl⟩ := Option.map_eq_some_iff.1 h
  exact ⟨w, mem_of_findLast hw, key_of_findLast hw, rfl⟩

theorem lastValue_eq_none {ops : List Write} {k : Str} : lastValue ops k = none ↔ ∀ w ∈ ops, w.key ≠ k := by
  simp [lastValue, findLast_eq_none]

/-! ### The division between two calls -/

structure Layers (h : History) (s : StorageSystem) : Prop where
  wf : s.Wf
  disk : ∀ k, (s.persistentStorage.find k).map StorageEntry.toValue = lastValue h.old k
  second : ∀ k, (s.storage.tables s.storage.readerSecond).find k = lastValue h.mid k
  first : ∀ k, (s.storage.tables s.storage.readerFirst).find k = lastValue h.recent k
  writer : s.storage.writerTable = s.storage.readerSecond → h.recent = []

section
variable {h : History} {s s' : StorageSystem} {k : Str}

theorem layers_new : Layers ⟨[], [], []⟩ .new where
  wf := StorageSystem.wf_new
  disk _ := rfl
  second k := by simp [StorageSystem.new, SwappableMemoryStorage.new, SwappableMemoryStorage.ofMap]
  first k := by simp [StorageSystem.new, SwappableMemoryStorage.new, SwappableMemoryStorage.ofMap]
  writer _ := rfl

theorem Layers.find (hl : Layers h s) (k : Str) : s.storage.find k = lastValue (h.mid ++ h.recent) k := by
  rw [SwappableMemoryStorage.find, hl.first, hl.second, lastValue_append]

/-- A reader finds what the last operation on the key stored. -/
theorem Layers.entry (hl : Layers h s) (k : Str) : s.entry k = lastValue h.all k := by
  rw [StorageSystem.entry, hl.find, hl.disk, ← lastValue_append, History.all, List.append_assoc]

/-- Where an operation that is applied joins the history. -/
def History.write (h : History) (s : StorageSystem) (w : Write) : History :=
  if s.storage.writerTable = s.storage.readerFirst then { h with recent := h.recent ++ [w] }
  else { h with mid := h.mid ++ [w] }

theorem Layers.all_write (hl : Layers h s) (w : Write) : (h.write s w).all = h.all ++ [w] := by
  unfold History.write
  split
  · simp [History.all]
  · rename_i hne
    have hrecent := hl.writer (hl.wf.storage.writer.resolve_left hne).1
    simp [History.all, hrecent]

/-- An operation that is applied: its row goes to the writer's table. -/
theorem Layers.applied (hl : Layers h s) (w : Write) (d : Disk) :
    Layers (h.write s w) { s with
      disk := d
      storage := s.storage.setTable s.storage.writerTable
        (w.applyTo (s.storage.tables s.storage.writerTable)) } := by
  have hwf := hl.wf.storage
  have hne := hwf.ne
  unfold History.write
  split
  · rename_i hfirst
    refine ⟨⟨hwf.setTable_writerTable _, hl.wf.persistentStorage⟩, hl.disk, fun k => ?_, fun k => ?_, ?_⟩
    · simp only [SwappableMemoryStorage.setTable, hfirst, Function.update_of_ne hne.symm, hl.second]
    · simp only [SwappableMemoryStorage.setTable, hfirst, Function.update_self]
      rw [Write.find_applyTo, hl.first, lastValue_concat]
    · exact fun hsecond => absurd (hfirst.symm.trans hsecond) hne
  · rename_i hfirst
    have hsecond := (hwf.writer.resolve_left hfirst).1
    refine ⟨⟨hwf.setTable_writerTable _, hl.wf.persistentStorage⟩, hl.disk, fun k => ?_, fun k => ?_,
      hl.writer⟩
    · simp only [SwappableMemoryStorage.setTable, hsecond, Function.update_self]
      rw [Write.find_applyTo, hl.second, lastValue_concat]
    · simp only [SwappableMemoryStorage.setTable, hsecond, Function.update_of_ne hne, hl.first]

/-- The record under a key on disk while memory has no row for it. -/
theorem Layers.exists_record (hl : Layers h s) {w : Write} {record : StorageEntry}
    (hnone : s.storage.find w.key = none) (hrec : s.persistentStorage.find w.key = some record) :
    ∃ u ∈ h.old, u.key = w.key ∧ u.value = record.toValue ∧ ∀ u' ∈ h.mid ++ h.recent, u'.key ≠ w.key := by
  have hdisk := hl.disk w.key
  rw [hrec, Option.map_some] at hdisk
  obtain ⟨u, hu, hk, hv⟩ := exists_of_lastValue hdisk.symm
  rw [hl.find] at hnone
  exact ⟨u, hu, hk, hv, lastValue_eq_none.1 hnone⟩

end

/-! ### The division during a job -/

/-- The first statements of a job, up to the exchange of the writer. -/
structure Exchanged (h : History) (s : StorageSystem) : Prop extends Layers h s where
  writerFirst : s.storage.writerTable = s.storage.readerFirst

/-- After `Add` and before the collected table is dropped: the disk answers for it too. -/
structure Added (h : History) (s : StorageSystem) : Prop where
  wf : s.Wf
  disk : ∀ k, (s.persistentStorage.find k).map StorageEntry.toValue = lastValue (h.old ++ h.mid) k
  first : ∀ k, (s.storage.tables s.storage.readerFirst).find k = lastValue h.recent k
  writerFirst : s.storage.writerTable = s.storage.readerFirst

/-- Between Step 4 and Step 5 of `RemoveCollected`: both readers are on one table. -/
structure SecondExchanged (h : History) (s : StorageSystem) : Prop where
  persistentStorage : s.persistentStorage.Wf
  disk : ∀ k, (s.persistentStorage.find k).map StorageEntry.toValue = lastValue (h.old ++ h.mid) k
  first : ∀ k, (s.storage.tables s.storage.readerFirst).find k = lastValue h.recent k
  second : s.storage.readerSecond = s.storage.readerFirst
  writerFirst : s.storage.writerTable = s.storage.readerFirst
  first_lt : s.storage.readerFirst < s.storage.nextTable
  writer_lt : s.storage.writer < s.storage.nextCounter

/-- A table with the rows of the second reader's table, in order. -/
def IsTableOf (persistent : PersistentStorage) (s : StorageSystem) : Prop :=
  persistent.entries = (s.storage.tables s.storage.readerSecond).toEntries.insertionSort (· ≤ ·)

/-- A table with the same lookups as the collection. -/
structure IsMergeOf (newStorage : PersistentStorage) (s : StorageSystem) : Prop where
  wf : newStorage.Wf
  find : ∀ k, newStorage.find k = s.persistentStorage.find k

/-- The division at each statement of a job. -/
def LayersAt (h : History) : SwapJob → StorageSystem → Prop
  | .start, s | .walCreated _ _, s | .walSwapped _, s => Layers h s
  | .writerExchanged _ _, s | .writersWaited _, s => Exchanged h s
  | .collected _ data, s => Exchanged h s ∧ data = (s.storage.tables s.storage.readerSecond).toEntries
  | .created _ persistent, s | .listed _ persistent, s => Exchanged h s ∧ IsTableOf persistent s
  | .added _, s => Added h s
  | .secondExchanged _, s => SecondExchanged h s
  | .collectedRemoved _, s | .walRemoved, s | .swapped _, s | .done, s => Layers h s
  | .merged newStorage, s | .newListed newStorage, s | .renamed newStorage _, s =>
    Layers h s ∧ IsMergeOf newStorage s

section
variable {h : History} {s s' : StorageSystem}

theorem Layers.setDisk (hl : Layers h s) (d : Disk) : Layers h { s with disk := d } :=
  ⟨⟨hl.wf.storage, hl.wf.persistentStorage⟩, hl.disk, hl.second, hl.first, hl.writer⟩

theorem Layers.setWalWriter (hl : Layers h s) (f : FileId) : Layers h { s with walWriter := f } :=
  ⟨⟨hl.wf.storage, hl.wf.persistentStorage⟩, hl.disk, hl.second, hl.first, hl.writer⟩

theorem Exchanged.setDisk (hl : Exchanged h s) (d : Disk) : Exchanged h { s with disk := d } :=
  ⟨hl.toLayers.setDisk d, hl.writerFirst⟩

theorem Layers.exchangeWriter (hl : Layers h s) :
    Exchanged h { s with storage := s.storage.exchangeWriter } where
  wf := ⟨hl.wf.storage.exchangeWriter, hl.wf.persistentStorage⟩
  disk := hl.disk
  second := hl.second
  first := hl.first
  writer he := by
    have hfirst := SwappableMemoryStorage.Wf.writerTable_exchangeWriter s.storage
    exact absurd (hfirst.symm.trans he) hl.wf.storage.ne
  writerFirst := SwappableMemoryStorage.Wf.writerTable_exchangeWriter s.storage

theorem IsTableOf.wf {persistent : PersistentStorage} (ht : IsTableOf persistent s) : persistent.Wf :=
  ⟨ht ▸ strict_insertionSort (MapStorage.toEntries_keys_nodup _)⟩

/-- A table of the second reader's rows answers for the middle of the history. -/
theorem Layers.find_table (hl : Layers h s) {persistent : PersistentStorage} (ht : IsTableOf persistent s)
    (k : Str) : (persistent.find k).map StorageEntry.toValue = lastValue h.mid k := by
  rw [PersistentStorage.find, ht, find_insertionSort (MapStorage.toEntries_keys_nodup _),
    MapStorage.find_toEntries, hl.second, Option.map_map]
  cases lastValue h.mid k <;> rfl

theorem Exchanged.add (hl : Exchanged h s) {persistent : PersistentStorage} (ht : IsTableOf persistent s) :
    Added h { s with persistentStorage := ⟨s.persistentStorage.collection ++ [persistent]⟩ } where
  wf := ⟨hl.wf.storage, hl.wf.persistentStorage.concat ht.wf⟩
  disk k := by
    rw [PersistentStorageCollection.find_concat, lastValue_append, ← hl.find_table ht, ← hl.disk]
    cases persistent.find k <;> rfl
  first := hl.first
  writerFirst := hl.writerFirst

theorem Added.exchangeSecond (hl : Added h s) :
    SecondExchanged h { s with storage := s.storage.exchangeSecond } where
  persistentStorage := hl.wf.persistentStorage
  disk := hl.disk
  first := hl.first
  second := rfl
  writerFirst := hl.writerFirst
  first_lt := hl.wf.storage.first_lt
  writer_lt := hl.wf.storage.writer_lt

theorem SecondExchanged.storeFirst (hl : SecondExchanged h s) (path : FileId) :
    Layers (h.next (.secondExchanged path)) { s with storage := s.storage.storeFirst } := by
  have hlt := hl.first_lt
  have hne : s.storage.readerFirst ≠ s.storage.nextTable := ne_of_lt hlt
  have hfirst : s.storage.storeFirst.tables s.storage.storeFirst.readerFirst = .empty := by
    simp [SwappableMemoryStorage.storeFirst]
  have hsecond : s.storage.storeFirst.tables s.storage.storeFirst.readerSecond =
      s.storage.tables s.storage.readerFirst := by
    simp only [SwappableMemoryStorage.storeFirst, hl.second, Function.update_of_ne hne]
  have hwriter : s.storage.storeFirst.writerTable = s.storage.storeFirst.readerSecond :=
    hl.writerFirst.trans hl.second.symm
  refine ⟨⟨⟨?_, Nat.lt_succ_self _, ?_, hl.writer_lt, .inr ⟨hwriter, hfirst⟩⟩, hl.persistentStorage⟩, hl.disk,
    fun k => ?_, fun k => ?_, fun _ => rfl⟩
  · show s.storage.nextTable ≠ s.storage.readerSecond
    rw [hl.second]; exact hne.symm
  · show s.storage.readerSecond < s.storage.nextTable + 1
    rw [hl.second]; exact Nat.lt_succ_of_lt hlt
  · rw [hsecond]; exact hl.first k
  · rw [hfirst]; exact MapStorage.find_empty k

theorem IsMergeOf.layers (hl : Layers h s) {newStorage : PersistentStorage} (hm : IsMergeOf newStorage s) :
    Layers h { s with persistentStorage := ⟨[newStorage]⟩ } where
  wf := ⟨hl.wf.storage, PersistentStorageCollection.Wf.singleton hm.wf⟩
  disk k := by rw [PersistentStorageCollection.find_singleton, hm.find, hl.disk]
  second := hl.second
  first := hl.first
  writer := hl.writer

theorem isMergeOf_mergeData {io : StorageIO} {d : Disk} {newStorage : PersistentStorage}
    (hwf : s.persistentStorage.Wf)
    (hm : mergeData io s.persistentStorage s.disk = some (.ok newStorage, d)) : IsMergeOf newStorage s := by
  obtain ⟨data, hdata, hnew⟩ := Option.map_eq_some_iff.1 hm
  obtain ⟨hs, hfind⟩ := mergeEntries_eq_some hwf hdata
  obtain ⟨-, -, -, -, hok⟩ := newPersistentStorage_cases io data s.disk
  rw [hnew] at hok
  obtain ⟨rfl, -⟩ := hok newStorage rfl
  refine ⟨⟨strict_insertionSort hs.nodup⟩, fun k => ?_⟩
  rw [PersistentStorage.find, find_insertionSort hs.nodup, hfind]

/-- **Every statement of a job keeps the division.** -/
theorem layersAt_step {io : SwapJobIO} {pc pc' : SwapJob} (hl : LayersAt h pc s)
    (hs : SwapJob.step io pc s = some (pc', s')) : LayersAt (h.next pc) pc' s' := by
  cases SwapJob.step_cases hs with
  | newWalFails _ | newWal _ | removeWal | mergeFails _ | removeFile => exact Layers.setDisk hl _
  | swapWal => exact Layers.setWalWriter hl _
  | exchangeWriter => exact Layers.exchangeWriter hl
  | waitWriters _ | few _ | filesRemoved => exact hl
  | copySecond => exact ⟨hl, rfl⟩
  | tableFails _ => exact hl.1.toLayers.setDisk _
  | table hnew =>
    obtain ⟨hex, rfl⟩ := hl
    obtain ⟨-, -, -, -, hok⟩ := newPersistentStorage_cases io.table
      (s.storage.tables s.storage.readerSecond).toEntries s.disk
    rw [hnew] at hok
    obtain ⟨rfl, -⟩ := hok _ rfl
    exact ⟨hex.setDisk _, rfl⟩
  | appendFails _ => exact hl.1.toLayers.setDisk _
  | append _ => exact ⟨hl.1.setDisk _, hl.2⟩
  | add => exact hl.1.add hl.2
  | exchangeSecond => exact Added.exchangeSecond hl
  | storeFirst => exact SecondExchanged.storeFirst hl _
  | merge hm =>
    obtain ⟨hwf, hfind⟩ := isMergeOf_mergeData (Layers.wf hl).persistentStorage hm
    exact ⟨Layers.setDisk hl _, hwf, hfind⟩
  | appendNewFails _ => exact hl.1.setDisk _
  | appendNew _ | rename => exact ⟨hl.1.setDisk _, hl.2.wf, hl.2.find⟩
  | swapCollection => exact hl.2.layers hl.1

theorem layers_of_steps {io : SwapJobIO} {a b : SwapJob × StorageSystem} (hl : LayersAt h a.1 a.2)
    (hs : SwapJob.Steps io a b) : ∃ h', h'.all = h.all ∧ LayersAt h' b.1 b.2 := by
  induction hs with
  | refl => exact ⟨h, rfl, hl⟩
  | tail _ hstep ih =>
    obtain ⟨h', hall, hl'⟩ := ih
    exact ⟨h'.next _, (h'.all_next _).trans hall, layersAt_step hl' hstep⟩

end

end Iu9Db
