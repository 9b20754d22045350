import Iu9Db.SwappableMemoryStorage

/-!
# The data directory

What is on disk, at the level of whole records: the `.wal` files with their complete records, the
table files (a `.data` file with its `.index`) that `LoadPersistentStorage` can load, and the two
metadata files. A file that is missing, or that its reader rejects, is `none`. Random file names are
taken to be fresh.

Every operation that may fail takes the outcome of its system calls as an argument: a `Result Unit`
for a call of `filesystem`, a `Bool` for a protobuf serialisation, and where the source does not look
at a write what is left in its file.
-/

namespace Iu9Db

/-- A file name: the random part of `v1-<uuid>.<extension>`. -/
abbrev FileId := Nat

/-- `wal::Entry`: a oneof that may be unset. -/
inductive WalEntry
  | notSet
  | remove (key : Str) (version : UInt64)
  | insert (key value : Str) (version : UInt64)
deriving DecidableEq, Repr

/-- `persistent.metadata` and `persistent.metadata.new`. -/
inductive MetadataFile
  | main
  | new
deriving DecidableEq, Repr

structure Disk where
  nextFile : FileId
  wal : FileId → Option (List WalEntry)
  data : FileId → Option (List StorageEntry)
  metadata : MetadataFile → Option (List FileId)

namespace Disk

def empty : Disk := ⟨0, fun _ => none, fun _ => none, fun _ => none⟩

/-- `filesystem::GetPath`, as it is printed. -/
def pathString (file : FileId) (extension : String) : Str :=
  text "/tmp/iu9-distributed-db/v1-" ++ text (toString file) ++ text "." ++ text extension

def setWal (d : Disk) (file : FileId) (content : Option (List WalEntry)) : Disk :=
  { d with wal := Function.update d.wal file content }

def setData (d : Disk) (file : FileId) (content : Option (List StorageEntry)) : Disk :=
  { d with data := Function.update d.data file content }

def setMetadata (d : Disk) (file : MetadataFile) (content : Option (List FileId)) : Disk :=
  { d with metadata := Function.update d.metadata file content }

/-- The disk after `filesystem::GetPath` has used up a name. -/
def takeName (d : Disk) : Disk := { d with nextFile := d.nextFile + 1 }

section
variable (d : Disk) (file : FileId)

@[simp] theorem setWal_wal (c) : (d.setWal file c).wal = Function.update d.wal file c := rfl
@[simp] theorem setWal_data (c) : (d.setWal file c).data = d.data := rfl
@[simp] theorem setWal_metadata (c) : (d.setWal file c).metadata = d.metadata := rfl
@[simp] theorem setWal_nextFile (c) : (d.setWal file c).nextFile = d.nextFile := rfl
@[simp] theorem setData_wal (c) : (d.setData file c).wal = d.wal := rfl
@[simp] theorem setData_data (c) : (d.setData file c).data = Function.update d.data file c := rfl
@[simp] theorem setData_metadata (c) : (d.setData file c).metadata = d.metadata := rfl
@[simp] theorem setData_nextFile (c) : (d.setData file c).nextFile = d.nextFile := rfl
@[simp] theorem setMetadata_wal (f c) : (d.setMetadata f c).wal = d.wal := rfl
@[simp] theorem setMetadata_data (f c) : (d.setMetadata f c).data = d.data := rfl
@[simp] theorem setMetadata_metadata (f c) :
    (d.setMetadata f c).metadata = Function.update d.metadata f c := rfl
@[simp] theorem setMetadata_nextFile (f c) : (d.setMetadata f c).nextFile = d.nextFile := rfl
@[simp] theorem takeName_wal : d.takeName.wal = d.wal := rfl
@[simp] theorem takeName_data : d.takeName.data = d.data := rfl
@[simp] theorem takeName_metadata : d.takeName.metadata = d.metadata := rfl
@[simp] theorem takeName_nextFile : d.takeName.nextFile = d.nextFile + 1 := rfl

end

end Disk

/-! ### The write-ahead log -/

/-- `NewWALWriter`: the file of the new writer. -/
def newWalWriter (created : Result Unit) (d : Disk) : Result FileId × Disk :=
  match created with
  | .error e => (.error (wrapError e (text "failed to create WAL")), d.takeName)
  | .ok _ => (.ok d.nextFile, d.takeName.setWal d.nextFile (some []))

theorem newWalWriter_error {created : Result Unit} {d d' : Disk} {e : Error}
    (h : newWalWriter created d = (.error e, d')) : d' = d.takeName ∧ created.isOk = false := by
  unfold newWalWriter at h
  cases created <;> cases h
  exact ⟨rfl, rfl⟩

theorem newWalWriter_ok {created : Result Unit} {d d' : Disk} {file : FileId}
    (h : newWalWriter created d = (.ok file, d')) :
    created.isOk = true ∧ file = d.nextFile ∧ d' = d.takeName.setWal d.nextFile (some []) := by
  unfold newWalWriter at h
  cases created <;> cases h
  exact ⟨rfl, rfl, rfl⟩

/-- `WALWriterImpl::WriteEntry` on the writer of `file`. -/
def writeEntry (isOk : Bool) (file : FileId) (entry : WalEntry) (d : Disk) : Result Unit × Disk :=
  if isOk then (.ok (), d.setWal file ((d.wal file).map fun entries => entries ++ [entry]))
  else (.error (makeError (text "failed to write log entry")), d)

/-- The callback that `Swap` returns. -/
def removeWal (path : FileId) (d : Disk) : Disk := d.setWal path none

inductive OperationType
  | kInsert
  | kRemove
deriving DecidableEq, Repr

/-- `recovery::Operation`. -/
structure Operation where
  type : OperationType
  key : Str
  value : Option Str
  version : UInt64
deriving DecidableEq, Repr

/-- The operation of a record; a record without one is reported and skipped. -/
def WalEntry.toOperation : WalEntry → Option Operation
  | .insert key value version => some ⟨.kInsert, key, some value, version⟩
  | .remove key version => some ⟨.kRemove, key, none, version⟩
  | .notSet => none

/-- `ReadWAL`: the operations, and where the last complete record ends (counted in records). -/
def readWal (file : FileId) (d : Disk) : Result (List Operation × Nat) :=
  match d.wal file with
  | none => .error ((makeError (text "failed to open file at " ++ Disk.pathString file "wal")).wrap
      .kUnknown (text "failed to open WAL file"))
  | some entries => .ok (entries.filterMap WalEntry.toOperation, entries.length)

/-- `Apply` of one operation; `none` where `operation.value.value()` finds no value. -/
def applyOne (storage : MapStorage) (operation : Operation) : Option MapStorage :=
  match operation.type with
  | .kInsert => operation.value.map fun value => storage.insert ⟨operation.key, value, operation.version⟩
  | .kRemove => some (storage.remove operation.key operation.version)

/-- `Apply`. -/
def apply (operations : List Operation) (storage : MapStorage) : Option MapStorage :=
  operations.foldlM applyOne storage

/-! ### Tables -/

structure PersistentStorage where
  path : FileId
  entries : List StorageEntry
deriving DecidableEq, Repr

/-- The outcomes of the system calls in `NewPersistentStorage` that it looks at. -/
structure TableIO where
  createData : Result Unit
  serialize : Bool
  createIndex : Result Unit
  openData : Result Unit

/-- `NewPersistentStorage` gets to its end. -/
def TableIO.isOk (io : TableIO) : Bool :=
  io.createData.isOk && io.serialize && io.createIndex.isOk && io.openData.isOk

/-- Nothing fails. -/
def TableIO.succeeds : TableIO := ⟨.ok (), true, .ok (), .ok ()⟩

/-- What gets to the files of a table. `NewPersistentStorage` looks neither at `SerializeToOstream` of
the index nor at `f.flush()`, and both streams may still have to write when they are destroyed: the
index can end after some of its offsets, or be rejected, and records can be missing, without an error.
-/
inductive Written
  | whole
  | indexCut (offsets : Option Nat)
  | dataCut
deriving DecidableEq, Repr

/-- The records that the table has for a later `LoadPersistentStorage`. One that misses some is not read. -/
def Written.left : Written → List StorageEntry → Option (List StorageEntry)
  | whole, data => some data
  | indexCut offsets, data => offsets.map fun n => data.take n
  | dataCut, _ => none

/-- The outcomes of one `NewPersistentStorage`: what it looks at and what it does not. -/
structure StorageIO extends TableIO where
  written : Written

def StorageIO.succeeds : StorageIO := ⟨.succeeds, .whole⟩

/-- `NewPersistentStorage`. The storage that it returns has all the offsets; that it reads the records
behind them is taken for granted here (`TableStreams` follows the bytes). -/
def newPersistentStorage (io : StorageIO) (data : List StorageEntry) (d : Disk) :
    Result PersistentStorage × Disk :=
  let path := d.nextFile
  let d := d.takeName
  match io.createData with
  | .error e => (.error (wrapError e (text "failed to create persistent storage")), d)
  | .ok _ =>
    let data := data.insertionSort (· ≤ ·)
    if !io.serialize then (.error (makeError (text "failed to serialize entry")), d)
    else match io.createIndex with
      | .error e => (.error (wrapError e (text "failed to create index file")), d)
      | .ok _ =>
        let d := d.setData path (io.written.left data)
        match io.openData with
        | .error e => (.error (wrapError e (text "failed to open persistent storage")), d)
        | .ok _ => (.ok ⟨path, data⟩, d)

/-- `LoadPersistentStorage`. -/
def loadPersistentStorage (path : FileId) (d : Disk) : Result PersistentStorage :=
  match d.data path with
  | none => .error ((makeError (text "failed to open file at " ++ Disk.pathString path "index")).wrap
      .kUnknown (text "failed to load index file"))
  | some entries => .ok ⟨path, entries⟩

namespace PersistentStorage

/-- `PersistentStorage::Get`: the record at the lower bound of `key`, if it has that key. -/
def get (s : PersistentStorage) (key : Str) : Result StorageEntry :=
  let it := Keyed.lowerBound (fun i => (s.entries[i]?).any fun entry => decide (entry.key < key))
    s.entries.length
  match s.entries[it]? with
  | some entry => if entry.key = key then .ok entry else notFound key
  | none => notFound key
where
  notFound (key : Str) : Result StorageEntry :=
    .error (makeError (text "key " ++ key ++ text " not found in persistent storage " ++
      Disk.pathString s.path "data"))

/-- A table as `NewPersistentStorage` builds it from the rows of a map. -/
structure Wf (s : PersistentStorage) : Prop where
  strict : Keyed.Strict StorageEntry.key s.entries

/-- The record of `key`. -/
def find (s : PersistentStorage) (key : Str) : Option StorageEntry :=
  Keyed.find StorageEntry.key key s.entries

theorem get_eq_of_le {s : PersistentStorage} (h : s.entries.Pairwise fun a b => a.key ≤ b.key) (key : Str) :
    (s.get key).toOption = s.find key := by
  rw [find, Keyed.find_eq_getElem?_lowerBound_of_le h
    (p := fun i => (s.entries[i]?).any fun entry => decide (entry.key < key))
    (fun i hi => by simp [List.getElem?_eq_getElem hi]) (fun i hi => by simp [List.getElem?_eq_none hi])]
  unfold get
  dsimp only
  split
  · rename_i entry he
    rw [he]
    split
    · rename_i hk; rw [Option.filter_some_pos (by simpa using hk)]; rfl
    · rename_i hk; rw [Option.filter_some_neg (by simpa using hk)]; rfl
  · rename_i he; rw [he]; rfl

theorem get_eq {s : PersistentStorage} (h : Keyed.Strict StorageEntry.key s.entries) (key : Str) :
    (s.get key).toOption = s.find key :=
  get_eq_of_le (h.imp fun hlt => le_of_lt hlt) key

theorem mem_of_get {s : PersistentStorage} {key : Str} {res : StorageEntry} (h : s.get key = .ok res) :
    res.key = key ∧ res ∈ s.entries := by
  unfold get get.notFound at h
  dsimp only at h
  split at h
  · rename_i entry he
    split at h
    · rename_i hk
      cases h
      exact ⟨hk, List.mem_of_getElem? he⟩
    · cases h
  · cases h

end PersistentStorage

/-- Sorting a map's rows puts their keys in strictly increasing order and keeps the map. -/
theorem strict_insertionSort {data : List StorageEntry} (hd : (data.map StorageEntry.key).Nodup) :
    Keyed.Strict StorageEntry.key (data.insertionSort (· ≤ ·)) :=
  .of_pairwise (fun _ _ => StorageEntry.key_le_of_le) (List.pairwise_insertionSort _ _)
    (((List.perm_insertionSort (· ≤ ·) data).map StorageEntry.key).nodup_iff.2 hd)

theorem find_insertionSort {data : List StorageEntry} (hd : (data.map StorageEntry.key).Nodup) (k : Str) :
    Keyed.find StorageEntry.key k (data.insertionSort (· ≤ ·)) = Keyed.find StorageEntry.key k data :=
  (Keyed.find_perm (List.perm_insertionSort (· ≤ ·) data).symm hd k).symm

theorem insertionSort_ne_nil {data : List StorageEntry} (h : data ≠ []) :
    data.insertionSort (· ≤ ·) ≠ [] := by
  intro hnil
  have hlen := List.length_insertionSort (· ≤ ·) data
  rw [hnil] at hlen
  exact h (List.eq_nil_of_length_eq_zero hlen.symm)

/-- What is left of a table has no other records. -/
theorem Written.mem_of_left {written : Written} {data rows : List StorageEntry}
    (h : written.left data = some rows) : ∀ e ∈ rows, e ∈ data := by
  cases written with
  | whole => cases h; exact fun e he => he
  | indexCut offsets =>
    obtain ⟨n, -, rfl⟩ := Option.map_eq_some_iff.1 h
    exact fun e he => List.mem_of_mem_take he
  | dataCut => cases h

/-- What `newPersistentStorage` can do: fail and leave every listed file alone, or return one sorted
table under the fresh name, with what has got to its files. -/
theorem newPersistentStorage_cases (io : StorageIO) (data : List StorageEntry) (d : Disk) :
    (newPersistentStorage io data d).2.wal = d.wal ∧
    (newPersistentStorage io data d).2.metadata = d.metadata ∧
    (newPersistentStorage io data d).2.nextFile = d.nextFile + 1 ∧
    (∀ f, f ≠ d.nextFile → (newPersistentStorage io data d).2.data f = d.data f) ∧
    ∀ s, (newPersistentStorage io data d).1 = .ok s →
      s = ⟨d.nextFile, data.insertionSort (· ≤ ·)⟩ ∧
      (newPersistentStorage io data d).2.data d.nextFile = io.written.left (data.insertionSort (· ≤ ·)) := by
  have hset : ∀ f, f ≠ d.nextFile → (d.takeName.setData d.nextFile
      (io.written.left (data.insertionSort (· ≤ ·)))).data f = d.data f := fun f hf => by
    simp [Function.update_of_ne hf]
  unfold newPersistentStorage
  dsimp only
  split
  · exact ⟨rfl, rfl, rfl, fun _ _ => rfl, nofun⟩
  · split
    · exact ⟨rfl, rfl, rfl, fun _ _ => rfl, nofun⟩
    · split
      · exact ⟨rfl, rfl, rfl, fun _ _ => rfl, nofun⟩
      · split
        · exact ⟨rfl, rfl, rfl, hset, nofun⟩
        · refine ⟨rfl, rfl, rfl, hset, fun s hs => ?_⟩
          cases hs
          exact ⟨rfl, by simp⟩

/-- Whether or not it succeeds, no other table than what is left of the sorted one gets to the disk. -/
theorem data_newPersistentStorage (io : StorageIO) (data : List StorageEntry) (d : Disk) :
    (newPersistentStorage io data d).2.data = d.data ∨
      (newPersistentStorage io data d).2.data =
        Function.update d.data d.nextFile (io.written.left (data.insertionSort (· ≤ ·))) := by
  unfold newPersistentStorage
  dsimp only
  split
  · exact .inl rfl
  · split
    · exact .inl rfl
    · split
      · exact .inl rfl
      · split <;> exact .inr rfl

theorem isOk_newPersistentStorage (io : StorageIO) (data : List StorageEntry) (d : Disk) :
    (newPersistentStorage io data d).1.isOk = io.isOk := by
  unfold newPersistentStorage TableIO.isOk
  cases io.createData <;> cases io.serialize <;> cases io.createIndex <;> cases io.openData <;> rfl

end Iu9Db
