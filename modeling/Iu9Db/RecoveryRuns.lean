import Iu9Db.WalFile
import Iu9Db.CompactionCrash
import Iu9Db.Recovery

/-!
# Recovery from one WAL file

The threshold decides whether the operations of the file become the table in memory, with the file
reused, or a table on disk, with the file removed. Both ways the newest operation on a key answers for
it, in front of the tables that were there: `agrees_of_thresholds`.
-/

namespace Iu9Db

open Keyed
open CompactionCrash (Untouched listed_getD readCollection_eq toOption_loadPersistentStorage)

/-! ### The operations of a file -/

/-- The operation of a record. -/
def WalEntry.toWrite : WalEntry → Option Write
  | .insert key value version => some (.insert ⟨key, value, version⟩)
  | .remove key version => some (.remove key version)
  | .notSet => none

theorem readWal_toWrite {d : Disk} {file : FileId} {entries : List WalEntry}
    (hwal : d.wal file = some entries) :
    readWal file d = .ok ((entries.filterMap WalEntry.toWrite).map Write.toOperation, entries.length) := by
  have hop (entry : WalEntry) : entry.toOperation = entry.toWrite.map Write.toOperation := by
    cases entry <;> rfl
  rw [readWal, hwal, List.map_filterMap]
  simp only [← hop]

theorem apply_toOperation (ops : List Write) :
    apply (ops.map Write.toOperation) .empty = some (replay ops) := by
  rw [← filterMap_record, apply_records]
  rfl

/-! ### What a reader is answered -/

/-- The value under a key, or that there is none. -/
def outcome (s : StorageSystem) (key : Str) : Option Str := (s.get key).toOption.map ValueDTO.value

/-- What the tables of a collection answer. -/
def below (c : PersistentStorageCollection) (key : Str) : Option Str :=
  (c.get key).toOption.bind StorageEntry.value

/-- Operations in front of a collection. -/
def above (ops : List Write) (c : PersistentStorageCollection) (key : Str) : Option Str :=
  (lastValue ops key).elim (below c key) Value.value

/-- The table that recovery makes of operations. -/
def tableOf (path : FileId) (ops : List Write) : PersistentStorage :=
  ⟨path, (replay ops).toEntries.insertionSort (· ≤ ·)⟩

section
variable {s : StorageSystem} {ops : List Write} {l copies : List PersistentStorage}

theorem answers_outcome (s : StorageSystem) (key : Str) : Answers (s.get key) (outcome s key) := by
  unfold outcome
  cases hget : s.get key with
  | ok got => exact ⟨got.version, rfl⟩
  | error e => exact ⟨e, rfl, StorageSystem.get_error hget⟩

theorem outcome_eq (s : StorageSystem) (key : Str) :
    outcome s key = (s.storage.find key).elim (below s.persistentStorage key) Value.value := by
  obtain ⟨hnone, hsome⟩ := s.storage.get_eq key
  unfold outcome below StorageSystem.get
  cases hfind : s.storage.find key with
  | some row =>
    rw [hsome row hfind]
    dsimp only
    rw [StorageSystem.toOption_fromMemory]
    cases hv : row.value <;> simp [StorageSystem.reported, hv]
  | none =>
    obtain ⟨e, he, -⟩ := hnone hfind
    rw [he]
    dsimp only
    rw [StorageSystem.toOption_fromDisk]
    cases (s.persistentStorage.get key).toOption with
    | none => rfl
    | some record => cases hv : record.value <;> simp [StorageSystem.reported, hv]

theorem get_tableOf (path : FileId) (ops : List Write) (key : Str) :
    ((tableOf path ops).get key).toOption = (lastValue ops key).map fun v => v.toEntry key := by
  have hkeys := (replay ops).toEntries_keys_nodup
  rw [PersistentStorage.get_eq (strict_insertionSort hkeys), PersistentStorage.find, tableOf,
    find_insertionSort hkeys, MapStorage.find_toEntries, find_replay]

/-- A table of operations that was added last is in front. -/
theorem below_concat (l : List PersistentStorage) (path : FileId) (ops : List Write) (key : Str) :
    below ⟨l ++ [tableOf path ops]⟩ key = above ops ⟨l⟩ key := by
  have htable := get_tableOf path ops key
  unfold below above PersistentStorageCollection.get
  show (PersistentStorageCollection.getFrom key (l ++ [tableOf path ops]).reverse).toOption.bind _ = _
  rw [List.reverse_append, List.reverse_singleton, List.singleton_append, PersistentStorageCollection.getFrom]
  cases hget : (tableOf path ops).get key with
  | ok res =>
    rw [hget] at htable
    obtain ⟨v, hv, hres⟩ := Option.map_eq_some_iff.1 htable.symm
    rw [hv, ← hres]
    rfl
  | error e =>
    rw [hget] at htable
    rw [Option.map_eq_none_iff.1 htable.symm]
    rfl

/-- More tables of the same operations change nothing for a reader of the operations. -/
theorem above_append (hcopies : ∀ t ∈ copies, ∃ path, t = tableOf path ops) (key : Str) :
    above ops ⟨l ++ copies⟩ key = above ops ⟨l⟩ key ∧
      (copies ≠ [] → below ⟨l ++ copies⟩ key = above ops ⟨l⟩ key) := by
  induction copies using List.reverseRecOn with
  | nil => exact ⟨by rw [List.append_nil], fun hne => absurd rfl hne⟩
  | append_singleton copies t ih =>
    obtain ⟨path, rfl⟩ := hcopies t (List.mem_append_right _ (List.mem_singleton_self t))
    obtain ⟨habove, -⟩ := ih fun t ht => hcopies t (List.mem_append_left _ ht)
    have hbelow : below ⟨l ++ (copies ++ [tableOf path ops])⟩ key = above ops ⟨l⟩ key := by
      rw [← List.append_assoc, below_concat, habove]
    refine ⟨?_, fun _ => hbelow⟩
    rw [above, hbelow, above]
    cases lastValue ops key <;> rfl

theorem outcome_new (walWriter : FileId) (c : PersistentStorageCollection) (d : Disk) (key : Str) :
    outcome ⟨walWriter, .new, c, d⟩ key = below c key := by
  rw [outcome_eq]
  show ((SwappableMemoryStorage.find .new key).elim _ _) = _
  rw [SwappableMemoryStorage.find_new]
  rfl

theorem outcome_ofMap (walWriter : FileId) (ops : List Write) (c : PersistentStorageCollection) (d : Disk)
    (key : Str) : outcome ⟨walWriter, .ofMap (replay ops), c, d⟩ key = above ops c key := by
  rw [outcome_eq]
  show ((SwappableMemoryStorage.find (.ofMap (replay ops)) key).elim _ _) = _
  rw [SwappableMemoryStorage.find_ofMap, find_replay]
  rfl

end

/-! ### A run to the end -/

/-- The directory after the table of the operations has been written and listed. -/
def Disk.listTable (d : Disk) (ops : List Write) : Disk :=
  (d.takeName.setData d.nextFile (some (tableOf d.nextFile ops).entries)).setMetadata .main
    (some ((d.metadata .main).getD [] ++ [d.nextFile]))

section
variable {d : Disk} {file : FileId} {entries : List WalEntry} {threshold : Nat}

/-- No name that is listed is given out again. -/
def Disk.NamesFresh (d : Disk) : Prop := ∀ path, d.Listed path → path < d.nextFile

theorem newPersistentStorage_tableOf (d : Disk) (ops : List Write) :
    newPersistentStorage .succeeds (replay ops).toEntries d =
      (.ok (tableOf d.nextFile ops), d.takeName.setData d.nextFile
        (some (tableOf d.nextFile ops).entries)) := rfl

theorem add_tableOf (c : PersistentStorageCollection) (d : Disk) (ops : List Write) :
    c.add .ok (tableOf d.nextFile ops)
    (d.takeName.setData d.nextFile (some (tableOf d.nextFile ops).entries)) =
      (.ok (), ⟨c.collection ++ [tableOf d.nextFile ops]⟩, d.listTable ops) := by
  rw [PersistentStorageCollection.add, appendMetadata_eq_ok]
  rfl

theorem ops_ne_nil {ops : List Write} (hlarge : (replay ops).size > threshold) : ops ≠ [] := by
  intro hnil
  rw [hnil] at hlarge
  exact absurd hlarge (Nat.not_lt_zero _)

/-- What `InitializeStorages` gets to when the file has more rows than the threshold. -/
theorem initializeStorages_large (hwal : d.wal file = some entries)
    (hlarge : (replay (entries.filterMap WalEntry.toWrite)).size > threshold) :
    ∃ generator, initializeStorages (.succeeds [file]) threshold d =
      some (.ok ⟨⟨readCollection d ++ [tableOf d.nextFile (entries.filterMap WalEntry.toWrite)]⟩, .new,
        d.nextFile + 1, generator⟩, ((removeWal file
        (d.listTable (entries.filterMap WalEntry.toWrite))).takeName).setWal
          (d.nextFile + 1) (some [])) := by
  obtain ⟨version, hversion⟩ := exists_getMaxVersion (ops_ne_nil hlarge)
  rw [filterMap_record] at hversion
  unfold initializeStorages initializeLoop initializeFrom initializeLoop RecoveryIO.succeeds searchWalFiles
  simp only [readWal_toWrite hwal, apply_toOperation, hversion, if_pos hlarge, newPersistentStorage_tableOf,
    add_tableOf]
  exact ⟨_, rfl⟩

theorem initializeStorages_small (hwal : d.wal file = some entries)
    (hne : entries.filterMap WalEntry.toWrite ≠ [])
    (hsmall : ¬ (replay (entries.filterMap WalEntry.toWrite)).size > threshold) :
    ∃ generator, initializeStorages (.succeeds [file]) threshold d =
      some (.ok ⟨⟨readCollection d⟩, .ofMap (replay (entries.filterMap WalEntry.toWrite)), file,
        generator⟩, d) := by
  obtain ⟨version, hversion⟩ := exists_getMaxVersion hne
  rw [filterMap_record] at hversion
  unfold initializeStorages initializeLoop initializeFrom initializeLoop RecoveryIO.succeeds searchWalFiles
  simp only [readWal_toWrite hwal, apply_toOperation, hversion, if_neg hsmall]
  exact ⟨_, rfl⟩

/-- A file without an operation: `GetMaxVersion` has nothing to dereference. -/
theorem initializeStorages_empty (hwal : d.wal file = some entries)
    (hnil : entries.filterMap WalEntry.toWrite = []) : initializeStorages (.succeeds [file]) threshold d =
    none := by
  unfold initializeStorages initializeLoop initializeFrom RecoveryIO.succeeds searchWalFiles
  simp only [readWal_toWrite hwal, hnil]
  rfl

theorem initializeStorages_none (threshold : Nat) (d : Disk) :
    ∃ generator, initializeStorages (.succeeds []) threshold d =
      some (.ok ⟨⟨readCollection d⟩, .new, d.nextFile, generator⟩, d.takeName.setWal d.nextFile (some [])) :=
  ⟨_, rfl⟩

/-! ### What is on disk afterwards -/

theorem readCollection_append (storage : PersistentStorage)
    (hdata : d.data storage.path = some storage.entries) :
    readCollection (d.setMetadata .main (some ((d.metadata .main).getD [] ++ [storage.path]))) =
      readCollection d ++ [storage] := by
  have hload : (loadPersistentStorage storage.path
      (d.setMetadata .main (some
        ((d.metadata .main).getD [] ++ [storage.path])))).toOption = some storage := by
    rw [toOption_loadPersistentStorage, Disk.setMetadata_data, hdata]
    rfl
  rw [readCollection_eq, readCollection_eq d]
  show ((d.metadata .main).getD [] ++ [storage.path]).filterMap _ = _
  rw [List.filterMap_append, List.filterMap_cons, hload]
  rfl

theorem readCollection_setData {path : FileId} (hpath : ¬ d.Listed path)
    (content : Option (List StorageEntry)) :
    readCollection (d.setData path content) = readCollection d := by
  have hold : Untouched d (d.setData path content) :=
    ⟨rfl, fun p hp => Function.update_of_ne (ne_of_mem_of_not_mem (s := {p | d.Listed p}) hp hpath) _ _⟩
  exact hold.readCollection

theorem Disk.NamesFresh.not_listed (hfresh : d.NamesFresh) : ¬ d.Listed d.nextFile :=
  fun hl => absurd (hfresh _ hl) (Nat.lt_irrefl _)

theorem readCollection_listTable (hfresh : d.NamesFresh) (ops : List Write) :
    readCollection (d.listTable ops) = readCollection d ++ [tableOf d.nextFile ops] := by
  have happend :=
    readCollection_append (d := d.takeName.setData d.nextFile (some (tableOf d.nextFile ops).entries))
    (tableOf d.nextFile ops) (Function.update_self _ _ _)
  rw [readCollection_setData (d := d.takeName) hfresh.not_listed] at happend
  exact happend

/-- What the WAL of the recovered writer and, under it, the tables that are listed have of a key. -/
def recorded (walWriter : FileId) (d : Disk) (key : Str) : Option Value :=
  (lastValue (((d.wal walWriter).getD []).filterMap WalEntry.toWrite) key).or
    ((PersistentStorageCollection.get ⟨readCollection d⟩ key).toOption.map StorageEntry.toValue)

/-- Every operation, or a later one on its key, is on disk in front of all that it replaced. -/
def Covers (ops : List Write) (walWriter : FileId) (d : Disk) : Prop :=
  ∀ key v, lastValue ops key = some v → recorded walWriter d key = some v

theorem covers_wal (hwal : d.wal file = some entries) :
    Covers (entries.filterMap WalEntry.toWrite) file d := by
  intro key v hv
  rw [recorded, hwal, Option.getD_some, hv]
  rfl

theorem covers_table {d' : Disk} {walWriter : FileId} {ops : List Write} {l : List PersistentStorage}
    {path : FileId} (hwal : d'.wal walWriter = some [])
    (htables : readCollection d' = l ++ [tableOf path ops]) : Covers ops walWriter d' := by
  intro key v hv
  have htable := get_tableOf path ops key
  rw [recorded, hwal, htables]
  show (PersistentStorageCollection.getFrom key (l ++ [tableOf path ops]).reverse).toOption.map _ = _
  rw [List.reverse_append, List.reverse_singleton, List.singleton_append, PersistentStorageCollection.getFrom]
  rw [hv, Option.map_some] at htable
  rw [Result.eq_ok htable]
  rfl

end

/-- A data directory with one WAL file. -/
structure SingleWal (d : Disk) (file : FileId) (entries : List WalEntry) : Prop where
  wal : d.wal = Function.update (fun _ => none) file (some entries)
  fresh : d.NamesFresh

section
variable {d : Disk} {file : FileId} {entries : List WalEntry} {threshold : Nat}

theorem SingleWal.wal_file (h : SingleWal d file entries) : d.wal file = some entries := by
  rw [h.wal, Function.update_self]

/-- **Recovery into memory and recovery to disk agree**, and after either of them every operation is
still on disk. -/
theorem agrees_of_thresholds (h : SingleWal d file entries) {toDisk toMemory : Nat}
    (hlarge : (replay (entries.filterMap WalEntry.toWrite)).size > toDisk)
    (hsmall : ¬ (replay (entries.filterMap WalEntry.toWrite)).size > toMemory) :
    ∃ init₁ d₁ init₂ d₂, initializeStorages (.succeeds [file]) toDisk d = some (.ok init₁, d₁) ∧
      initializeStorages (.succeeds [file]) toMemory d = some (.ok init₂, d₂) ∧
      (∀ key, ∃ v, Answers ((init₁.storageSystem d₁).get key) v ∧
        Answers ((init₂.storageSystem d₂).get key) v) ∧
      Covers (entries.filterMap WalEntry.toWrite) init₁.walWriter d₁ ∧
      Covers (entries.filterMap WalEntry.toWrite) init₂.walWriter d₂ := by
  obtain ⟨generator₁, hrun₁⟩ := initializeStorages_large h.wal_file hlarge
  obtain ⟨generator₂, hrun₂⟩ := initializeStorages_small h.wal_file (ops_ne_nil hlarge) hsmall
  refine ⟨_, _, _, _, hrun₁, hrun₂,
    fun key => ⟨above (entries.filterMap WalEntry.toWrite) ⟨readCollection d⟩ key, ?_, ?_⟩,
    covers_table (Function.update_self _ _ _) (readCollection_listTable h.fresh _),
    covers_wal h.wal_file⟩
  · show Answers (StorageSystem.get ⟨_, _, _, _⟩ key) _
    rw [← below_concat, ← outcome_new]
    exact answers_outcome _ key
  · rw [← outcome_ofMap]
    exact answers_outcome _ key

end

/-- The table that a removal in the WAL is in front of. -/
def walAndTable : Disk :=
  ⟨2, Function.update (fun _ => none) 0 (some [.remove [1] 3, .insert [2] [7] 4]),
    Function.update (fun _ => none) 1 (some [⟨[1], some [6], 1⟩]), Function.update (fun _ => none) .main
      (some [1])⟩

theorem singleWal_walAndTable : SingleWal walAndTable 0 [.remove [1] 3, .insert [2] [7] 4] where
  wal := rfl
  fresh := by
    rintro path ⟨paths, hpaths, hpath⟩
    cases hpaths
    rw [List.mem_singleton.1 hpath]
    decide

/-- The removal hides the value of the table whether it is in memory or in a newer table. -/
theorem agrees_walAndTable :
    ∃ init₁ d₁ init₂ d₂, initializeStorages (.succeeds [0]) 1 walAndTable = some (.ok init₁, d₁) ∧
      initializeStorages (.succeeds [0]) 2 walAndTable = some (.ok init₂, d₂) ∧
      (∀ key, ∃ v, Answers ((init₁.storageSystem d₁).get key) v ∧
        Answers ((init₂.storageSystem d₂).get key) v) ∧
      Covers [.remove [1] 3, .insert ⟨[2], [7], 4⟩] init₁.walWriter d₁ ∧
      Covers [.remove [1] 3, .insert ⟨[2], [7], 4⟩] init₂.walWriter d₂ :=
  agrees_of_thresholds singleWal_walAndTable (by decide +kernel) (by decide +kernel)

end Iu9Db
