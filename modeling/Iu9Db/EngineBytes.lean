import Iu9Db.DirectoryBytes
import Iu9Db.Restarts

/-!
# The engine over bytes

`StorageSystem` on a directory of bytes: operations that write records to a WAL, jobs that write
tables, compactions that read them, and a recovery that parses what the run before has left, a record
that is cut off included. Whatever it does it does on the records that the bytes stand for
(`simulated_of_reachableBy`), so that a node answers as a map of what it has acknowledged, before and
after any number of restarts (`works_of_reachableBy`).
-/

namespace Iu9Db

open DirectoryBytes PriorityQueue Transition
open Wire (Bytes)
open StorageSystem (fromMemory fromDisk omits kThreshold)

namespace EngineBytes

/-! ### The tables -/

/-- The tables of a `PersistentStorageCollection`. -/
abbrev Collection := List TableBytes.PersistentStorage

/-- The first table from the back that has the key; `none` where `value()` of a failed read throws. -/
def getFrom (key : Str) : Collection → Option (Result StorageEntry)
  | [] => some (.error (makeError (text "key " ++ key ++ text " not found in persistent storage")))
  | storage :: rest =>
    match storage.get key with
    | some (.ok res) => some (.ok res)
    | some (.error _) => getFrom key rest
    | none => none

/-- `PersistentStorageCollection::Add`. -/
def add (io : ListIO) (storage : TableBytes.PersistentStorage) (c : Collection) (b : Directory) :
    Result Unit × Collection × Directory :=
  match b.appendMetadata io storage with
  | (.error e, b) => (.error e, c, b)
  | (.ok _, b) => (.ok (), c ++ [storage], b)

/-- `PersistentStorageCollection::SwapWith`. -/
def swapWith (io : ListIO) (storage : TableBytes.PersistentStorage) (c : Collection) (b : Directory) :
    Result Unit × Collection × Directory :=
  let b := b.setMetadata .new none
  match b.appendMetadata io storage .new with
  | (.error e, b) => (.error e, c, b)
  | (.ok _, b) =>
    let b := (b.setMetadata .main (b.metadata .new)).setMetadata .new none
    let toDelete := c.map TableBytes.PersistentStorage.path
    (.ok (), [storage], toDelete.foldl Directory.removeData b)

/-- An iterator with its end and the index of its table: the offsets from the iterator to the end. -/
structure IteratorPair where
  storage : TableBytes.PersistentStorage
  rest : List UInt64
  index : Nat

/-- The queue's `less`; both iterators are read. -/
def comparator (lhs rhs : IteratorPair) : Bool :=
  match lhs.rest, rhs.rest with
  | lhsOffset :: _, rhsOffset :: _ =>
    match lhs.storage.readEntryAt lhsOffset, rhs.storage.readEntryAt rhsOffset with
    | .ok lhsValue, .ok rhsValue =>
      if lhsValue.key = rhsValue.key then lhs.index < rhs.index else lhsValue.key > rhsValue.key
    | _, _ => false
  | _, _ => false

/-- The loop of `MergeData`; `none` where it dereferences an iterator at its end. -/
def mergeLoop : Nat → List IteratorPair → List StorageEntry → Option (Result (List StorageEntry))
  | 0, _, data => some (.ok data)
  | fuel + 1, queue, data =>
    match popTop comparator queue with
    | none => some (.ok data)
    | some (top, queue) =>
      match top.rest with
      | [] => none
      | offset :: cur =>
        match top.storage.readEntryAt offset with
        | .error e => some (.error (wrapError e (text "failed to merge data from persistent storages")))
        | .ok value =>
          let data := if data.getLast?.any fun back => back.key = value.key then data else data ++ [value]
          if cur.isEmpty then mergeLoop fuel queue data
          else mergeLoop fuel (⟨top.storage, cur, top.index⟩ :: queue) data

def startQueue (storages : Collection) : List IteratorPair :=
  storages.zipIdx.map fun si => ⟨si.1, si.1.index, si.2⟩

/-- The records that `MergeData` collects. -/
def mergeEntries (storages : Collection) : Option (Result (List StorageEntry)) :=
  let queue := startQueue storages
  mergeLoop ((queue.map fun p => p.rest.length).sum + queue.length) queue []

/-- `MergeData`. -/
def mergeData (io : TableStreams.WriteIO) (c : Collection) (b : Directory) :
    Option (Result TableBytes.PersistentStorage × Directory) :=
  (mergeEntries c).map fun
    | .error e => (.error e, b)
    | .ok data => b.newPersistentStorage io data

/-- `RunCompaction`. -/
def runCompaction (mergeIo : TableStreams.WriteIO) (swapIo : ListIO) (c : Collection) (b : Directory) :
    Option (Collection × Directory) :=
  if c.length ≤ kCompactionThreshold then some (c, b)
  else do
    match ← mergeData mergeIo c b with
    | (.error _, b) => some (c, b)
    | (.ok storage, b) => some (swapWith swapIo storage c b).2

/-! ### The engine -/

structure StorageSystem where
  walWriter : WalWriter
  storage : SwappableMemoryStorage
  persistentStorage : Collection
  disk : Directory

/-- The outcomes of the system calls of one job. -/
structure SwapJobIO where
  newWal : Result Unit
  table : TableStreams.WriteIO
  append : ListIO
  mergeTable : TableStreams.WriteIO
  mergeAppend : ListIO

/-- There is room wherever the job does not look at the result of a write. -/
structure SwapJobIO.FindsRoom (io : SwapJobIO) : Prop where
  table : io.table.FindsRoom
  append : io.append.FindsRoom
  mergeTable : io.mergeTable.FindsRoom
  mergeAppend : io.mergeAppend.FindsRoom

namespace StorageSystem

/-- An empty data directory with a fresh WAL. -/
def new : StorageSystem := ⟨⟨0, 0⟩, .new, [], Directory.empty.takeName.setWal 0 (some [])⟩

/-- `StorageSystem::Get`. -/
def get (s : StorageSystem) (key : Str) : Option (Result ValueDTO) :=
  match s.storage.get key with
  | .ok res => some (fromMemory key res)
  | .error _ => (getFrom key s.persistentStorage.reverse).map (fromDisk key)

/-- What `Insert` and `Remove` have in common: the check of the version, the record, and then the
table in memory. -/
def log (w : Write) (store : SwappableMemoryStorage → SwappableMemoryStorage) (s : StorageSystem) :
    Option (Result Unit × StorageSystem) :=
  (s.get w.key).map fun oldOpt =>
    if omits w.version oldOpt then (.ok (), s)
    else
      match s.disk.writeEntry w.record s.walWriter with
      | (.error e, walWriter, b) => (.error e, { s with walWriter := walWriter, disk := b })
      | (.ok _, walWriter, b) =>
        (.ok (), { s with walWriter := walWriter, disk := b, storage := store s.storage })

/-- `StorageSystem::Insert`. -/
def insert (kwPair : KwPair) (s : StorageSystem) : Option (Result Unit × StorageSystem) :=
  s.log (.insert kwPair) fun storage => storage.insert kwPair

/-- `StorageSystem::Remove`. -/
def remove (key : Str) (version : UInt64) (s : StorageSystem) : Option (Result Unit × StorageSystem) :=
  s.log (.remove key version) fun storage => storage.remove key version

/-- `Insert` or `Remove`. -/
def exec : Write → StorageSystem → Option (Result Unit × StorageSystem)
  | .insert kwPair, s => s.insert kwPair
  | .remove key version, s => s.remove key version

/-- `SwappableWalWriterImpl::Swap`. -/
def swapWal (created : Result Unit) (s : StorageSystem) : Result FileId × StorageSystem :=
  match s.disk.newWalWriter created with
  | (.error e, b) => (.error (wrapError e (text "failed to create new WAL file")), { s with disk := b })
  | (.ok walWriter, b) => (.ok s.walWriter.path, { s with disk := b, walWriter := walWriter })

/-- `Controller::SwapToPersistentStorage`, with the error that it reports in the log. -/
def swapToPersistentStorage (io : SwapJobIO) (s : StorageSystem) : Option (Result Unit × StorageSystem) :=
  match s.swapWal io.newWal with
  | (.error e, s) => some (.error e, s)
  | (.ok path, s) =>
    let (storage, data) := s.storage.collect
    let s := { s with storage := storage }
    match s.disk.newPersistentStorage io.table data with
    | (.error e, b) => some (.error e, { s with disk := b })
    | (.ok persistent, b) =>
      match add io.append persistent s.persistentStorage b with
      | (.error e, c, b) => some (.error e, { s with persistentStorage := c, disk := b })
      | (.ok _, c, b) =>
        let s := { s with
          storage := s.storage.removeCollected, persistentStorage := c, disk := b.removeWal path }
        (runCompaction io.mergeTable io.mergeAppend s.persistentStorage s.disk).map fun cb =>
          (.ok (), { s with persistentStorage := cb.1, disk := cb.2 })

/-- `Controller::TriggerSwapToPersistentStorage`, when no job is running and the guard is free. -/
def triggerSwapToPersistentStorage (io : SwapJobIO) (s : StorageSystem) :
    Option (Result Unit × StorageSystem) :=
  if s.storage.size < kThreshold then some (.ok (), s) else s.swapToPersistentStorage io

end StorageSystem

/-! ### Recovery -/

/-- The outcomes of the system calls; those in the loop by WAL file. -/
structure RecoveryIO where
  search : Except Str (List FileId)
  table : FileId → TableStreams.WriteIO
  append : FileId → ListIO
  remove : FileId → Bool
  openWal : FileId → Result Unit
  newWal : Result Unit

/-- There is room wherever the loop does not look at the result of a write. -/
structure RecoveryIO.FindsRoom (io : RecoveryIO) : Prop where
  table : ∀ file, (io.table file).FindsRoom
  append : ∀ file, (io.append file).FindsRoom

/-- `LoadSwappableWalWriter`. -/
def loadSwappableWalWriter (opened : Result Unit) (path : FileId) (seek : Nat) : Result WalWriter :=
  match opened with
  | .error e =>
    .error (wrapError (wrapError e (text "failed to create WAL")) (text "failed to create wal file"))
  | .ok _ => .ok ⟨path, seek⟩

/-- `NewSwappableWalWriter`. -/
def newSwappableWalWriter (created : Result Unit) (b : Directory) : Result WalWriter × Directory :=
  match b.newWalWriter created with
  | (.error e, b) => (.error (wrapError e (text "failed to create wal file")), b)
  | (.ok walWriter, b) => (.ok walWriter, b)

/-- The variables that the loop over the WAL files assigns to. -/
structure Recovering where
  persistentCollection : Collection
  memstorage : SwappableMemoryStorage
  walWriter : Option WalWriter
  maxVersion : UInt64

/-- One turn of the loop; `none` where the source dereferences an end iterator or an empty optional, or
an exception of `fs::remove` leaves it. -/
def initializeFrom (io : RecoveryIO) (threshold : Nat) (file : FileId) (r : Recovering) (b : Directory) :
    Option (Result Recovering × Directory) :=
  match b.readWal file with
  | .error e => some (.error e, b)
  | .ok (operations, position) =>
    match apply operations .empty, getMaxVersion operations with
    | some storage, some version =>
      let r := { r with maxVersion := max r.maxVersion version }
      if storage.size > threshold then
        match b.newPersistentStorage (io.table file) storage.toEntries with
        | (.error e, b) => some (.error (wrapError e (text "failed to initialize persistent storage")), b)
        | (.ok persistent, b) =>
          match add (io.append file) persistent r.persistentCollection b with
          | (.error e, _, b) =>
            some (.error (wrapError e (text "failed to initialize persistent collection")), b)
          | (.ok _, c, b) =>
            if io.remove file then some (.ok { r with persistentCollection := c }, b.removeWal file) else none
      else
        match loadSwappableWalWriter (io.openWal file) file position with
        | .error e => some (.error (wrapError e (text "failed to load WAL")), b)
        | .ok walWriter => some (.ok { r with memstorage := .ofMap storage, walWriter := some walWriter }, b)
    | _, _ => none

/-- The loop over the WAL files. -/
def initializeLoop (io : RecoveryIO) (threshold : Nat) :
    List FileId → Recovering → Directory → Option (Result Recovering × Directory)
  | [], r, b => some (.ok r, b)
  | file :: files, r, b =>
    match initializeFrom io threshold file r b with
    | some (.ok r, b) => initializeLoop io threshold files r b
    | res => res

/-- What `InitializeStorages` returns. -/
structure Initialized where
  persistentCollection : Collection
  memstorage : SwappableMemoryStorage
  walWriter : WalWriter
  versionNumberGenerator : VersionNumberGenerator

/-- `InitializeStorages`. -/
def initializeStorages (io : RecoveryIO) (threshold : Nat) (b : Directory) :
    Option (Result Initialized × Directory) :=
  match searchWalFiles io.search with
  | .error e => some (.error e, b)
  | .ok files =>
    match initializeLoop io threshold files ⟨b.readCollection, .new, none, 0⟩ b with
    | none => none
    | some (.error e, b) => some (.error e, b)
    | some (.ok r, b) =>
      let done (walWriter : WalWriter) : Initialized :=
        ⟨r.persistentCollection, r.memstorage, walWriter, ⟨r.maxVersion + 1⟩⟩
      match r.walWriter with
      | some walWriter => some (.ok (done walWriter), b)
      | none =>
        match newSwappableWalWriter io.newWal b with
        | (.error e, b) => some (.error (wrapError e (text "failed to create WAL")), b)
        | (.ok walWriter, b) => some (.ok (done walWriter), b)

/-- The engine that a node starts with. -/
def Initialized.storageSystem (r : Initialized) (b : Directory) : StorageSystem :=
  ⟨r.walWriter, r.memstorage, r.persistentCollection, b⟩

/-- The `.wal` files of the directory, in the order in which it lists them. -/
def Lists (b : Directory) (files : List FileId) : Prop :=
  files.Nodup ∧ ∀ f, f ∈ files ↔ ∃ content, b.wal f = some content

/-! ### Runs -/

/-- A node that runs, or the directory that it left, with the operations that have been acknowledged. -/
inductive State
  | up (acked : List Write) (s : StorageSystem)
  | down (acked : List Write) (b : Directory)

/-- `tear`: the node stops when `n` bytes of an operation's record have got to the file. -/
inductive Label
  | write (w : Write)
  | trigger (io : SwapJobIO)
  | stop
  | tear (w : Write) (n : Nat)
  | start (io : RecoveryIO) (threshold : Nat)

inductive Step : State → Label → State → Prop
  | write {acked s res s'} (w : Write) (h : s.exec w = some (res, s')) :
      Step (.up acked s) (.write w) (.up (if res.isOk then acked ++ [w] else acked) s')
  | trigger {acked s res s'} (io : SwapJobIO) (h : s.triggerSwapToPersistentStorage io = some (res, s')) :
      Step (.up acked s) (.trigger io) (.up acked s')
  | stop {acked s} : Step (.up acked s) .stop (.down acked s.disk)
  | tear {acked s} (w : Write) (n : Nat) :
      Step (.up acked s) (.tear w n) (.down acked (s.disk.tearEntry w.record n s.walWriter))
  | start {acked b b' init} (io : RecoveryIO) (threshold : Nat)
    (h : initializeStorages io threshold b = some (.ok init, b')) :
      Step (.down acked b) (.start io threshold) (.up acked (init.storageSystem b'))

def system : System State Label := ⟨fun st => st = .up [] .new, Step⟩

/-- How many rows a job writes to its table, and how many a compaction behind it can write. -/
def StorageSystem.rows (s : StorageSystem) : Nat :=
  s.storage.copySecond.length + (s.persistentStorage.map fun storage => storage.index.length).sum

/-- Recovery finds an operation in the file. -/
def HasOperation (b : Directory) (path : FileId) : Prop :=
  ∀ content ∈ b.wal path, (WalFile.readWAL content).1 ≠ []

/-- No table gets more rows than its index can tell of, and there is room for what is written without
a look at the result. Versions do not decrease on a key, a job that exchanges the writers stores the
rows, and the node is not stopped while its WAL has no operation. In what a record that is cut off
leaves no operation begins. The node is started on the WAL files that there are. -/
def Ok : State → Label → Prop
  | .up acked _, .write w => ∀ u ∈ acked, u.key = w.key → u.version ≤ w.version
  | .up _ s, .trigger io => s.rows ≤ maxRows ∧ io.FindsRoom ∧
      (io.newWal.isOk = true → ∀ res s', s.triggerSwapToPersistentStorage io = some (res, s') →
        res.isOk = true)
  | .up _ s, .stop => HasOperation s.disk s.walWriter.path
  | .up _ s, .tear w n => HasOperation (s.disk.tearEntry w.record n s.walWriter) s.walWriter.path ∧
      ∀ content ∈ (s.disk.tearEntry w.record n s.walWriter).wal s.walWriter.path, ∀ k,
        s.walWriter.position ≤ k → TornFile.NoOperation (content.drop k)
  | .down _ b, .start io _ => (∃ files, io.search = .ok files ∧ Lists b files) ∧ io.FindsRoom ∧
      ∀ path content, b.wal path = some content → (WalFile.readWAL content).1.length ≤ maxRows
  | _, _ => True

/-! ### Tables -/

/-- Tables and a directory that stand for tables and a disk of records; the WAL files are `wal`. -/
structure Stands (wal : FileId → Option Bytes) (c : Collection) (b : Directory)
    (c' : PersistentStorageCollection) (d : Disk) : Prop where
  tables : List.Forall₂ TableBytes.Represents c c'.collection
  disk : Represents b d
  wal : b.wal = wal

section
variable {wal : FileId → Option Bytes} {c : Collection} {b : Directory} {c' : PersistentStorageCollection}
  {d : Disk} {s : TableBytes.PersistentStorage} {t : PersistentStorage}

theorem getFrom_eq {l : List PersistentStorage} (h : List.Forall₂ TableBytes.Represents c l) (key : Str) :
    getFrom key c = some (PersistentStorageCollection.getFrom key l) := by
  induction h with
  | nil => rfl
  | @cons s t c l hrep _ ih =>
    rw [getFrom, PersistentStorageCollection.getFrom, hrep.get_eq]
    cases t.get key with
    | ok res => rfl
    | error e => exact ih

theorem wal_appendMetadata (io : ListIO) (s : TableBytes.PersistentStorage) (b : Directory)
    (file : MetadataFile) : (b.appendMetadata io s file).2.wal = b.wal := by
  have hlist (names : List Str) : (b.writeList io names file).2.wal = b.wal := by
    unfold Directory.writeList
    split <;> rfl
  unfold Directory.appendMetadata
  split <;> exact hlist _

theorem Stands.newPersistentStorage (h : Stands wal c b c' d) {io : TableStreams.WriteIO}
    (hroom : io.FindsRoom) {data : List StorageEntry} (hrows : data.length ≤ maxRows) :
    ∃ io', io'.written = .whole ∧ Alike TableBytes.Represents (b.newPersistentStorage io data).1
        (Iu9Db.newPersistentStorage io' data d).1 ∧
      Stands wal c (b.newPersistentStorage io data).2 c' (Iu9Db.newPersistentStorage io' data d).2 := by
  obtain ⟨io', hwhole, hres, hdisk⟩ := h.disk.newPersistentStorage hroom hrows
  exact ⟨io', hwhole, hres, h.tables, hdisk, h.wal⟩

theorem Stands.removeWal (h : Stands wal c b c' d) (path : FileId) :
    Stands (Function.update wal path none) c (b.removeWal path) c' (Iu9Db.removeWal path d) where
  tables := h.tables
  disk := h.disk.setWal path .none
  wal := by rw [← h.wal]; rfl

theorem Stands.add (h : Stands wal c b c' d) {io : ListIO} (hroom : io.FindsRoom)
    (hrep : TableBytes.Represents s t) :
    ∃ io' : AppendIO, (∀ left, io' ≠ .flushFails left) ∧ (EngineBytes.add io s c b).1 = (c'.add io' t d).1 ∧
      Stands wal (EngineBytes.add io s c b).2.1 (EngineBytes.add io s c b).2.2 (c'.add io' t d).2.1
        (c'.add io' t d).2.2 := by
  obtain ⟨io', hreports, hres, hdisk⟩ := h.disk.appendMetadata hroom hrep.path .main
  have hwal := (wal_appendMetadata io s b .main).trans h.wal
  refine ⟨io', hreports, ?_⟩
  unfold EngineBytes.add PersistentStorageCollection.add
  generalize b.appendMetadata io s .main = x at hres hdisk hwal ⊢
  generalize Iu9Db.appendMetadata io' t d .main = y at hres hdisk ⊢
  obtain ⟨res, b₁⟩ := x
  obtain ⟨res', d₁⟩ := y
  obtain rfl : res = res' := hres
  cases res with
  | error e => exact ⟨rfl, h.tables, hdisk, hwal⟩
  | ok u => exact ⟨rfl, List.rel_append h.tables (.cons hrep .nil), hdisk, hwal⟩

/-- A table that is listed is behind the others. -/
theorem add_ok {io : ListIO} {c₁ : Collection} {b₁ : Directory} {u : Unit}
    (h : EngineBytes.add io s c b = (.ok u, c₁, b₁)) : c₁ = c ++ [s] := by
  unfold EngineBytes.add at h
  split at h
  · cases h
  · cases h
    rfl

theorem isOk_add (io : AppendIO) (t : PersistentStorage) (c' : PersistentStorageCollection) (d : Disk) :
    (c'.add io t d).1.isOk = io.isOk := by
  rw [← isOk_appendMetadata io t d .main]
  unfold PersistentStorageCollection.add
  generalize appendMetadata io t d .main = x
  obtain ⟨r, d₁⟩ := x
  cases r <;> rfl

theorem mem_of_update_none {path file : FileId} {content : Bytes}
    (h : content ∈ Function.update wal path none file) : content ∈ wal file := by
  by_cases hf : file = path
  · rw [hf, Function.update_self] at h
    cases h
  · rwa [Function.update_of_ne hf] at h

theorem Stands.removeData (h : Stands wal c b c' d) (path : FileId) :
    Stands wal c (b.removeData path) c' (d.setData path none) :=
  ⟨h.tables, h.disk.removeData path, h.wal⟩

theorem Stands.removeFiles (h : Stands wal c b c' d) (paths : List FileId) :
    Stands wal c (paths.foldl Directory.removeData b) c'
      (PersistentStorageCollection.removeFiles paths d) := by
  induction paths generalizing b d with
  | nil => exact h
  | cons path paths ih => exact ih (h.removeData path)

theorem map_path {l : List PersistentStorage} (h : List.Forall₂ TableBytes.Represents c l) :
    c.map TableBytes.PersistentStorage.path = l.map PersistentStorage.path := by
  induction h with
  | nil => rfl
  | cons hrep _ ih => rw [List.map_cons, List.map_cons, hrep.path, ih]

theorem Stands.swapWith (h : Stands wal c b c' d) {io : ListIO} (hroom : io.FindsRoom)
    (hrep : TableBytes.Represents s t) :
    ∃ io' : AppendIO, (∀ left, io' ≠ .flushFails left) ∧ (EngineBytes.swapWith io s c b).1 =
    (c'.swapWith io' t d).1 ∧
      Stands wal (EngineBytes.swapWith io s c b).2.1 (EngineBytes.swapWith io s c b).2.2
        (c'.swapWith io' t d).2.1 (c'.swapWith io' t d).2.2 := by
  have hnew : Represents (b.setMetadata .new none) (d.setMetadata .new none) := h.disk.setMetadata .new .none
  obtain ⟨io', hreports, hres, hdisk⟩ := hnew.appendMetadata hroom hrep.path .new
  have hwal := (wal_appendMetadata io s (b.setMetadata .new none) .new).trans h.wal
  refine ⟨io', hreports, ?_⟩
  unfold EngineBytes.swapWith PersistentStorageCollection.swapWith
  dsimp only
  generalize (b.setMetadata .new none).appendMetadata io s .new = x at hres hdisk hwal ⊢
  generalize Iu9Db.appendMetadata io' t (d.setMetadata .new none) .new = y at hres hdisk ⊢
  obtain ⟨res, b₁⟩ := x
  obtain ⟨res', d₁⟩ := y
  obtain rfl : res = res' := hres
  cases res with
  | error e => exact ⟨rfl, h.tables, hdisk, hwal⟩
  | ok u =>
    have hrenamed : Stands wal [s] ((b₁.setMetadata .main (b₁.metadata .new)).setMetadata .new none) ⟨[t]⟩
        ((d₁.setMetadata .main (d₁.metadata .new)).setMetadata .new none) :=
      ⟨.cons hrep .nil, (hdisk.setMetadata .main (hdisk.metadata .new)).setMetadata .new .none, hwal⟩
    dsimp only
    rw [map_path h.tables]
    exact ⟨rfl, hrenamed.removeFiles _⟩

end

/-! ### Compactions -/

/-- Iterators that are at the same records. -/
structure SameIterator (p : IteratorPair) (p' : Iu9Db.IteratorPair) : Prop where
  reads : p.rest.map p.storage.readEntryAt = p'.rest.map .ok
  index : p.index = p'.index

section
variable {p q : IteratorPair} {p' q' : Iu9Db.IteratorPair} {queue : List IteratorPair}
  {queue' : List Iu9Db.IteratorPair}

theorem SameIterator.length (h : SameIterator p p') : p.rest.length = p'.rest.length := by
  simpa using congrArg List.length h.reads

/-- What an iterator yields that is not at its end. -/
theorem SameIterator.cons (h : SameIterator p p') {value : StorageEntry} {rest' : List StorageEntry}
    (hrest : p'.rest = value :: rest') : ∃ offset rest, p.rest = offset :: rest ∧
      p.storage.readEntryAt offset = .ok value ∧ rest.map p.storage.readEntryAt = rest'.map .ok := by
  have hreads := h.reads
  rw [hrest] at hreads
  cases hp : p.rest with
  | nil => rw [hp] at hreads; cases hreads
  | cons offset rest =>
    rw [hp, List.map_cons, List.map_cons, List.cons.injEq] at hreads
    exact ⟨offset, rest, rfl, hreads.1, hreads.2⟩

theorem SameIterator.nil (h : SameIterator p p') (hrest : p'.rest = []) : p.rest = [] := by
  have hlen := h.length
  rw [hrest] at hlen
  exact List.eq_nil_of_length_eq_zero hlen

theorem comparator_eq (hp : SameIterator p p') (hq : SameIterator q q') :
    EngineBytes.comparator p q = Iu9Db.comparator p' q' := by
  unfold EngineBytes.comparator Iu9Db.comparator
  cases hp' : p'.rest with
  | nil => rw [hp.nil hp']
  | cons value rest =>
    obtain ⟨offset, tail, hpo, hread, -⟩ := hp.cons hp'
    cases hq' : q'.rest with
    | nil => rw [hpo, hq.nil hq']
    | cons value' rest' =>
      obtain ⟨offset', tail', hqo, hread', -⟩ := hq.cons hq'
      simp only [hpo, hqo, hread, hread', hp.index, hq.index]

/-- No read of a table that stands for records fails, and so the loop does what it does on the records. -/
theorem mergeLoop_eq (fuel : Nat) (data : List StorageEntry) (h : List.Forall₂ SameIterator queue queue') :
    EngineBytes.mergeLoop fuel queue data = (Iu9Db.mergeLoop fuel queue' data).map .ok := by
  induction fuel generalizing queue queue' data with
  | zero => rfl
  | succ fuel ih =>
    have htop := popTop_forall₂ (R := SameIterator) (fun _ _ _ _ => comparator_eq) h
    rw [EngineBytes.mergeLoop, Iu9Db.mergeLoop]
    generalize popTop EngineBytes.comparator queue = x at htop ⊢
    generalize popTop Iu9Db.comparator queue' = y at htop ⊢
    cases htop with
    | none => rfl
    | @some x y hxy =>
      obtain ⟨top, rest⟩ := x
      obtain ⟨top', rest'⟩ := y
      obtain ⟨htop, hqueue⟩ := hxy
      change SameIterator top top' at htop
      cases htop' : top'.rest with
      | nil =>
        simp only [htop', htop.nil htop']
        rfl
      | cons value cur' =>
        obtain ⟨offset, cur, hoffset, hread, hcur⟩ := htop.cons htop'
        have hempty : cur.isEmpty = cur'.isEmpty := by
          have hlen := congrArg List.length hcur
          rw [List.length_map, List.length_map] at hlen
          cases cur <;> cases cur' <;> first | rfl | cases hlen
        simp only [htop', hoffset, hread, hempty]
        cases cur'.isEmpty with
        | true => exact ih _ hqueue
        | false => exact ih _ (.cons ⟨hcur, htop.index⟩ hqueue)

end

/-! ### Merges -/

section
variable {wal : FileId → Option Bytes} {c : Collection} {b : Directory} {c' : PersistentStorageCollection}
  {d : Disk} {l : List PersistentStorage}

theorem startQueue_eq (h : List.Forall₂ TableBytes.Represents c l) :
    List.Forall₂ SameIterator (EngineBytes.startQueue c) (Iu9Db.startQueue l) := by
  unfold EngineBytes.startQueue Iu9Db.startQueue
  generalize 0 = k
  induction h generalizing k with
  | nil => exact .nil
  | cons hrep _ ih => exact .cons ⟨hrep.iterate_eq, rfl⟩ (ih (k + 1))

theorem mergeEntries_eq (h : List.Forall₂ TableBytes.Represents c l) :
    EngineBytes.mergeEntries c = (Iu9Db.mergeEntries l).map .ok := by
  have hqueue := startQueue_eq h
  have hlengths : (EngineBytes.startQueue c).map (fun p => p.rest.length) =
      (Iu9Db.startQueue l).map fun p => p.rest.length := by
    generalize EngineBytes.startQueue c = queue at hqueue ⊢
    generalize Iu9Db.startQueue l = queue' at hqueue ⊢
    induction hqueue with
    | nil => rfl
    | cons hp _ ih => rw [List.map_cons, List.map_cons, hp.length, ih]
  unfold EngineBytes.mergeEntries Iu9Db.mergeEntries
  dsimp only
  rw [hlengths, hqueue.length_eq]
  exact mergeLoop_eq _ _ hqueue

/-- Every round takes one record. -/
theorem length_mergeLoop (fuel : Nat) (queue : List Iu9Db.IteratorPair) (data : List StorageEntry)
    {out : List StorageEntry} (h : Iu9Db.mergeLoop fuel queue data = some out) :
    out.length ≤ data.length + (queue.map fun p => p.rest.length).sum := by
  induction fuel generalizing queue data with
  | zero =>
    cases h
    exact Nat.le_add_right _ _
  | succ fuel ih =>
    rw [Iu9Db.mergeLoop] at h
    cases hpop : popTop Iu9Db.comparator queue with
    | none =>
      rw [hpop] at h
      cases h
      exact Nat.le_add_right _ _
    | some x =>
      obtain ⟨top, rest⟩ := x
      have hsum := ((popTop_perm hpop).map fun p => p.rest.length).sum_eq
      rw [hpop] at h
      cases htop : top.rest with
      | nil =>
        simp only [htop] at h
        cases h
      | cons value cur =>
        simp only [htop] at h
        rw [List.map_cons, List.sum_cons, htop, List.length_cons] at hsum
        have hdata : (if (data.getLast?.any fun back => back.key = value.key) = true then data
            else data ++ [value]).length ≤ data.length + 1 := by
          split <;> simp
        split at h
        · have hle := ih _ _ h
          omega
        · have hle := ih _ _ h
          simp only [List.map_cons, List.sum_cons] at hle
          omega

theorem sum_rows (h : List.Forall₂ TableBytes.Represents c l) :
    (c.map fun storage => storage.index.length).sum = (l.map fun storage => storage.entries.length).sum := by
  induction h with
  | nil => rfl
  | cons hrep _ ih => rw [List.map_cons, List.map_cons, List.sum_cons, List.sum_cons, hrep.length_index, ih]

theorem length_mergeEntries {data : List StorageEntry} (h : Iu9Db.mergeEntries l = some data) :
    data.length ≤ (l.map fun storage => storage.entries.length).sum := by
  have hle := length_mergeLoop _ _ _ h
  have hrest : (Iu9Db.startQueue l).map (fun p => p.rest.length) = l.map fun storage =>
    storage.entries.length := by
    show (l.zipIdx.map _).map _ = _
    rw [List.map_map]
    show l.zipIdx.map ((fun storage => storage.entries.length) ∘ Prod.fst) = _
    rw [← List.map_map, List.zipIdx_map_fst]
  rw [hrest] at hle
  simpa using hle

/-- Whatever becomes of a compaction, it is one of the outcomes on the records. -/
theorem Stands.runCompaction (h : Stands wal c b c' d) {mergeIo : TableStreams.WriteIO} {swapIo : ListIO}
    (hmergeRoom : mergeIo.FindsRoom) (hswapRoom : swapIo.FindsRoom)
    (hrows : (c.map fun storage => storage.index.length).sum ≤ maxRows) : ∃ mergeIo' swapIo',
      mergeIo'.written = .whole ∧ (∀ left, swapIo' ≠ .flushFails left) ∧
        Option.Rel (fun x y => Stands wal x.1 x.2 y.1 y.2) (EngineBytes.runCompaction mergeIo swapIo c b)
        (Iu9Db.runCompaction mergeIo' swapIo' c' d) := by
  have hsize : c'.size = c.length := h.tables.length_eq.symm
  have hmerge := mergeEntries_eq h.tables
  unfold EngineBytes.runCompaction Iu9Db.runCompaction EngineBytes.mergeData Iu9Db.mergeData
  rw [hsize, hmerge]
  by_cases hfew : c.length ≤ kCompactionThreshold
  · rw [if_pos hfew]
    refine ⟨.succeeds, .ok, rfl, fun _ he => (by cases he), ?_⟩
    rw [if_pos hfew]
    exact .some h
  · rw [if_neg hfew]
    cases hdata : Iu9Db.mergeEntries c'.collection with
    | none =>
      refine ⟨.succeeds, .ok, rfl, fun _ he => (by cases he), ?_⟩
      rw [if_neg hfew]
      exact .none
    | some data =>
      have hle : data.length ≤ maxRows := (length_mergeEntries hdata).trans (sum_rows h.tables ▸ hrows)
      obtain ⟨mergeIo', hwhole, hres, hnew⟩ := h.newPersistentStorage hmergeRoom hle
      generalize hx : b.newPersistentStorage mergeIo data = x at hres hnew
      generalize hy : Iu9Db.newPersistentStorage mergeIo' data d = y at hres hnew
      obtain ⟨r, b₁⟩ := x
      obtain ⟨r', d₁⟩ := y
      cases hres with
      | error e =>
        refine ⟨mergeIo', .ok, hwhole, fun _ he => (by cases he), ?_⟩
        rw [if_neg hfew]
        simp only [Option.map_some, hx, hy, Option.bind_eq_bind, Option.bind_some]
        exact .some hnew
      | ok hrep =>
        obtain ⟨swapIo', hreports, -, hswap⟩ := hnew.swapWith hswapRoom hrep
        refine ⟨mergeIo', swapIo', hwhole, hreports, ?_⟩
        rw [if_neg hfew]
        simp only [Option.map_some, hx, hy, Option.bind_eq_bind, Option.bind_some]
        exact .some hswap

end

/-! ### The engine on bytes and the one on records -/

/-- The engine of bytes stands for the one of records, and writes at the end of its WAL. -/
structure Runs (s : StorageSystem) (t : Iu9Db.StorageSystem) : Prop where
  path : s.walWriter.path = t.walWriter
  atEnd : AtEnd s.walWriter s.disk
  storage : s.storage = t.storage
  tables : List.Forall₂ TableBytes.Represents s.persistentStorage t.persistentStorage.collection
  disk : Represents s.disk t.disk

section
variable {s : StorageSystem} {t : Iu9Db.StorageSystem}

theorem Runs.get (h : Runs s t) (key : Str) : s.get key = some (t.get key) := by
  unfold StorageSystem.get Iu9Db.StorageSystem.get
  rw [h.storage]
  cases t.storage.get key with
  | ok res => rfl
  | error e =>
    dsimp only
    rw [getFrom_eq (List.rel_reverse h.tables)]
    rfl

theorem Runs.log (h : Runs s t) (w : Write) (store : SwappableMemoryStorage → SwappableMemoryStorage) :
    ∃ isOk s', (WalEntry.record.Fits w.record → isOk = true) ∧ ∀ r : Result Unit × Iu9Db.StorageSystem,
      r = (if omits w.version (t.get w.key) then (.ok (), t)
        else match Iu9Db.writeEntry isOk t.walWriter w.record t.disk with
          | (.error e, d) => (.error e, { t with disk := d })
          | (.ok _, d) => (.ok (), { t with disk := d, storage := store t.storage })) →
      s.log w store = some (r.1, s') ∧ Runs s' r.2 := by
  obtain ⟨isOk, hfits, hres, hpath, hend, hdisk⟩ := h.disk.writeEntry h.atEnd w.record
  rw [h.path] at hres hpath hdisk
  refine ⟨isOk, ?_⟩
  rw [StorageSystem.log, h.get, Option.map_some]
  generalize s.disk.writeEntry w.record s.walWriter = x at hres hpath hend hdisk ⊢
  generalize Iu9Db.writeEntry isOk t.walWriter w.record t.disk = y at hres hdisk ⊢
  obtain ⟨res, walWriter, b⟩ := x
  obtain ⟨res', d⟩ := y
  obtain rfl : res = res' := hres
  cases omits w.version (t.get w.key) with
  | true => exact ⟨s, hfits, fun r hr => by rw [hr]; exact ⟨rfl, h⟩⟩
  | false =>
    cases res with
    | error e =>
      exact ⟨_, hfits, fun r hr => by rw [hr]; exact ⟨rfl, hpath, hend, h.storage, h.tables, hdisk⟩⟩
    | ok u =>
      exact ⟨_, hfits, fun r hr =>
        by rw [hr]; exact ⟨rfl, hpath, hend, congrArg store h.storage, h.tables, hdisk⟩⟩

/-- An operation writes its record unless it has two gigabytes. -/
theorem Runs.exec (h : Runs s t) (w : Write) : ∃ isOk s', (WalEntry.record.Fits w.record → isOk = true) ∧
    s.exec w = some ((t.exec isOk w).1, s') ∧ Runs s' (t.exec isOk w).2 := by
  cases w with
  | insert kwPair =>
    obtain ⟨isOk, s', hfits, hlog⟩ := h.log (.insert kwPair) fun storage => storage.insert kwPair
    exact ⟨isOk, s', hfits, hlog _ rfl⟩
  | remove key version =>
    obtain ⟨isOk, s', hfits, hlog⟩ := h.log (.remove key version) fun storage => storage.remove key version
    exact ⟨isOk, s', hfits, hlog _ rfl⟩

/-- A job gets as far as it does on the records, for some outcome of the system calls. -/
theorem Runs.swapToPersistentStorage (h : Runs s t) {io : SwapJobIO} (hroom : io.FindsRoom)
    (hrows : s.rows ≤ maxRows) : ∃ io' : Iu9Db.SwapJobIO, io'.newWal = io.newWal ∧ io'.Reports ∧
      Option.Rel (fun x t' => Runs x.2 t' ∧ (x.1.isOk = true → Restarts.Completes io'))
        (s.swapToPersistentStorage io) (t.swapToPersistentStorage io') := by
  obtain ⟨hwriter, hdisk⟩ := h.disk.newWalWriter io.newWal
  unfold StorageSystem.swapToPersistentStorage Iu9Db.StorageSystem.swapToPersistentStorage
    StorageSystem.swapWal Iu9Db.StorageSystem.swapWal
  generalize hx : s.disk.newWalWriter io.newWal = x at hwriter hdisk ⊢
  generalize hy : Iu9Db.newWalWriter io.newWal t.disk = y at hwriter hdisk
  obtain ⟨r, b₀⟩ := x
  obtain ⟨r', d₀⟩ := y
  cases hwriter with
  | error e =>
    refine ⟨⟨io.newWal, .succeeds, .ok, .succeeds, .ok⟩, rfl, SwapJobIO.reports_succeeds _, ?_⟩
    simp only [hy]
    have hwal : b₀.wal = s.disk.wal := wal_newWalWriter_error hx
    exact .some ⟨⟨h.path, h.atEnd.mono fun _ => hwal ▸ id, h.storage, h.tables, hdisk⟩,
      fun hok => by cases hok⟩
  | @ok walWriter file hw =>
    obtain ⟨hpath, hend⟩ := hw
    have hstands : Stands b₀.wal s.persistentStorage b₀ t.persistentStorage d₀ := ⟨h.tables, hdisk, rfl⟩
    have hcopy : s.storage.exchangeWriter.copySecond.length ≤ maxRows := (Nat.le_add_right _ _).trans hrows
    obtain ⟨table, hwhole, hres, hnew⟩ := hstands.newPersistentStorage hroom.table hcopy
    have hoktable := isOk_newPersistentStorage table s.storage.exchangeWriter.copySecond d₀
    have hstored := (newPersistentStorage_cases table s.storage.exchangeWriter.copySecond d₀).2.2.2.2
    simp only [SwappableMemoryStorage.collect]
    generalize hx₁ : b₀.newPersistentStorage io.table s.storage.exchangeWriter.copySecond = x at hres hnew ⊢
    generalize hy₁ : Iu9Db.newPersistentStorage table s.storage.exchangeWriter.copySecond d₀ = y
      at hres hnew hoktable hstored
    obtain ⟨r, b₁⟩ := x
    obtain ⟨r', d₁⟩ := y
    cases hres with
    | error e =>
      refine ⟨⟨io.newWal, table, .ok, .succeeds, .ok⟩, rfl, ⟨hwhole, fun _ he => (by cases he), rfl,
        fun _ he => (by cases he)⟩, ?_⟩
      simp only [hy, ← h.storage, hy₁]
      exact .some ⟨⟨hpath, hend.mono fun _ => hnew.wal ▸ id, rfl, hnew.tables, hnew.disk⟩,
        fun hok => by cases hok⟩
    | @ok persistent persistent' hrep =>
      obtain ⟨append, hreports, hres, hadd⟩ := hnew.add hroom.append hrep
      have hokadd := isOk_add append persistent' t.persistentStorage d₁
      dsimp only
      generalize hx₂ : EngineBytes.add io.append persistent s.persistentStorage b₁ = x at hres hadd ⊢
      generalize hy₂ : t.persistentStorage.add append persistent' d₁ = y at hres hadd hokadd
      obtain ⟨r, c₂, b₂⟩ := x
      obtain ⟨r', c₂', d₂⟩ := y
      obtain rfl : r = r' := hres
      cases r with
      | error e =>
        refine ⟨⟨io.newWal, table, append, .succeeds, .ok⟩, rfl,
          ⟨hwhole, hreports, rfl, fun _ he => (by cases he)⟩, ?_⟩
        simp only [hy, ← h.storage, hy₁, hy₂]
        exact .some ⟨⟨hpath, hend.mono fun _ => hadd.wal ▸ id, rfl, hadd.tables, hadd.disk⟩,
          fun hok => by cases hok⟩
      | ok u =>
        -- The rows that a compaction can merge are those of the tables so far and the new one.
        obtain ⟨rfl, -⟩ := hstored persistent' rfl
        obtain rfl := add_ok hx₂
        have hindex : persistent.index.length = s.storage.exchangeWriter.copySecond.length :=
          hrep.length_index.trans (List.length_insertionSort ..)
        have hsum : ((s.persistentStorage ++ [persistent]).map fun storage => storage.index.length).sum ≤
          maxRows := by
          rw [List.map_append, List.sum_append, List.map_singleton, List.sum_singleton, hindex, Nat.add_comm]
          exact hrows
        obtain ⟨mergeTable, mergeAppend, hmergeWhole, hmergeReports, hrun⟩ :=
          (hadd.removeWal s.walWriter.path).runCompaction hroom.mergeTable hroom.mergeAppend hsum
        have hcompletes : Restarts.Completes ⟨io.newWal, table, append, mergeTable, mergeAppend⟩ :=
          fun _ => ⟨hoktable.symm, hokadd.symm⟩
        refine ⟨⟨io.newWal, table, append, mergeTable, mergeAppend⟩, rfl,
          ⟨hwhole, hreports, hmergeWhole, hmergeReports⟩, ?_⟩
        simp only [hy, ← h.storage, hy₁, hy₂, ← h.path]
        generalize EngineBytes.runCompaction io.mergeTable io.mergeAppend _ _ = x at hrun ⊢
        generalize Iu9Db.runCompaction mergeTable mergeAppend _ _ = y at hrun ⊢
        cases hrun with
        | none => exact .none
        | @some x y hend' =>
          refine .some ⟨⟨hpath, hend.mono fun content hc => ?_, rfl, hend'.tables, hend'.disk⟩,
            fun _ => hcompletes⟩
          rw [hend'.wal] at hc
          exact mem_of_update_none hc

/-- Below the threshold there is nothing to do. -/
theorem Runs.triggerSwapToPersistentStorage (h : Runs s t) {io : SwapJobIO} (hroom : io.FindsRoom)
    (hrows : s.rows ≤ maxRows) : ∃ io' : Iu9Db.SwapJobIO, io'.newWal = io.newWal ∧ io'.Reports ∧
      Option.Rel (fun x t' => Runs x.2 t' ∧ (x.1.isOk = true → Restarts.Completes io'))
        (s.triggerSwapToPersistentStorage io) (t.triggerSwapToPersistentStorage io') := by
  unfold StorageSystem.triggerSwapToPersistentStorage Iu9Db.StorageSystem.triggerSwapToPersistentStorage
  rw [h.storage]
  split
  · exact ⟨⟨io.newWal, .succeeds, .ok, .succeeds, .ok⟩, rfl, SwapJobIO.reports_succeeds _,
      .some ⟨h, fun _ _ => ⟨rfl, rfl⟩⟩⟩
  · exact h.swapToPersistentStorage hroom hrows

end

/-! ### Recovery on bytes and on records -/

theorem size_insertRow (storage : MapStorage) (key : Str) (value : Value) :
    (⟨storage.map.insert key value⟩ : MapStorage).size ≤ storage.size + 1 := by
  have hlen := (List.kerase_sublist key storage.map.entries).length_le
  show (List.kinsert key value storage.map.entries).length ≤ storage.map.entries.length + 1
  rw [List.kinsert_def, List.length_cons]
  exact Nat.succ_le_succ hlen

/-- A map has no more rows than operations. -/
theorem size_apply {operations : List Operation} {storage storage' : MapStorage}
    (h : apply operations storage = some storage') : storage'.size ≤ storage.size + operations.length := by
  induction operations generalizing storage with
  | nil =>
    cases h
    exact le_rfl
  | cons operation operations ih =>
    obtain ⟨storage₁, hone, hrest⟩ := Option.bind_eq_some_iff.1 h
    have hle : storage₁.size ≤ storage.size + 1 := by
      unfold applyOne at hone
      split at hone
      · obtain ⟨value, -, rfl⟩ := Option.map_eq_some_iff.1 hone
        exact size_insertRow ..
      · cases hone
        exact size_insertRow ..
    have hsize := ih hrest
    rw [List.length_cons]
    omega

/-- The variables of the loop, with a directory, and those of the loop on records. -/
structure Recovers (r : Recovering) (b : Directory) (r' : Iu9Db.Recovering) (d : Disk) : Prop where
  stands : Stands b.wal r.persistentCollection b r'.persistentCollection d
  memstorage : r.memstorage = r'.memstorage
  walWriter : r.walWriter.map WalWriter.path = r'.walWriter
  atEnd : ∀ walWriter ∈ r.walWriter, AtEnd walWriter b
  maxVersion : r.maxVersion = r'.maxVersion
  small : ∀ path content, b.wal path = some content → (WalFile.readWAL content).1.length ≤ maxRows

section
variable {r r₁ : Recovering} {b b₁ : Directory} {r' r₁' : Iu9Db.Recovering} {d d₁ : Disk}

theorem eq_succeeds_of_isOk {io : StorageIO} (h : io.isOk = true) (hwhole : io.written = .whole) :
    io = .succeeds := by
  obtain ⟨⟨createData, serialize, createIndex, openData⟩, written⟩ := io
  obtain rfl : written = .whole := hwhole
  cases createData <;> cases serialize <;> cases createIndex <;> cases openData <;> first | rfl | cases h

theorem eq_ok_of_isOk {io : AppendIO} (h : io.isOk = true) (hreports : ∀ left, io ≠ .flushFails left) :
    io = .ok := by
  cases io with
  | ok => rfl
  | flushFails left => exact absurd rfl (hreports left)
  | openFails e | writeFails left => cases h

theorem Recovers.length_le (h : Recovers r b r' d) {file : FileId} {operations : List Operation}
    {position : Nat} (hread : b.readWal file = .ok (operations, position)) : operations.length ≤ maxRows := by
  unfold Directory.readWal at hread
  split at hread
  · cases hread
  · rename_i content hcontent
    obtain rfl : (WalFile.readWAL content).1 = operations := congrArg Prod.fst (Except.ok.inj hread)
    exact h.small file content hcontent

/-- The WAL file of a table that is listed goes. -/
theorem Recovers.listed (h : Recovers r b r' d) {c₁ : Collection} {c₁' : PersistentStorageCollection}
    (hstands : Stands b.wal c₁ b₁ c₁' d₁) (file : FileId) (version : UInt64) :
    Recovers { r with persistentCollection := c₁, maxVersion := max r.maxVersion version } (b₁.removeWal file)
      { r' with persistentCollection := c₁', maxVersion := max r'.maxVersion version }
        (Iu9Db.removeWal file d₁) := by
  have hwal (path : FileId) (content : Bytes)
    (hc : content ∈ (b₁.removeWal file).wal path) : content ∈ b.wal path :=
    hstands.wal ▸ mem_of_update_none hc
  have hremoved := hstands.removeWal file
  exact ⟨⟨hremoved.tables, hremoved.disk, rfl⟩, h.memstorage, h.walWriter,
    fun w hw => (h.atEnd w hw).mono fun content hc => hwal w.path content hc,
    congrArg (max · version) h.maxVersion, fun path content hc => h.small path content (hwal path content hc)⟩

/-- A turn that gets to its end does on the bytes what it does on the records. -/
theorem Recovers.initializeFrom (h : Recovers r b r' d) {io : RecoveryIO} (hroom : io.FindsRoom)
    (threshold : Nat) (file : FileId) {listing : List FileId}
    (hok : Iu9Db.initializeFrom (.succeeds listing) threshold file r' d = some (.ok r₁', d₁)) :
    (io.remove file = true → ∃ x, EngineBytes.initializeFrom io threshold file r b = some x) ∧
      ∀ r₁ b₁, EngineBytes.initializeFrom io threshold file r b = some (.ok r₁, b₁) →
        Recovers r₁ b₁ r₁' d₁ := by
  have hread := h.stands.disk.readWal file
  have hrows (operations : List Operation) (position : Nat)
    (hfile : b.readWal file = .ok (operations, position)) :=
    h.length_le hfile
  unfold Iu9Db.initializeFrom at hok
  unfold EngineBytes.initializeFrom
  generalize b.readWal file = x at hread hrows ⊢
  generalize Iu9Db.readWal file d = y at hread hok
  cases hread with
  | error e => cases hok
  | @ok x y hxy =>
    obtain ⟨operations, position⟩ := x
    obtain ⟨operations', position'⟩ := y
    obtain ⟨hops, hposition⟩ := hxy
    obtain rfl : operations = operations' := hops
    replace hrows := hrows operations position rfl
    dsimp only at hok ⊢
    cases happly : apply operations .empty with
    | none =>
      rw [happly] at hok
      cases hok
    | some storage =>
      cases hversion : getMaxVersion operations with
      | none =>
        rw [happly, hversion] at hok
        cases hok
      | some version =>
        rw [happly, hversion] at hok
        dsimp only at hok ⊢
        by_cases hlarge : storage.size > threshold
        · rw [if_pos hlarge] at hok ⊢
          have hsize : storage.toEntries.length ≤ maxRows := by
            have hle := size_apply happly
            rw [show MapStorage.empty.size = 0 from rfl, Nat.zero_add] at hle
            exact (List.length_map ..).trans_le (hle.trans hrows)
          obtain ⟨table, hwhole, hres, hnew⟩ := h.stands.newPersistentStorage (hroom.table file) hsize
          have hoktable := isOk_newPersistentStorage table storage.toEntries d
          generalize b.newPersistentStorage (io.table file) storage.toEntries = x at hres hnew ⊢
          generalize hy : Iu9Db.newPersistentStorage table storage.toEntries d = y at hres hnew hoktable
          obtain ⟨res, b₂⟩ := x
          obtain ⟨res', d₂⟩ := y
          cases hres with
          | error e => exact ⟨fun _ => ⟨_, rfl⟩, fun r₁ b₁ hturn => by cases hturn⟩
          | @ok persistent persistent' hrep =>
            obtain rfl := eq_succeeds_of_isOk hoktable.symm hwhole
            obtain ⟨append, hreports, hres, hadd⟩ := hnew.add (hroom.append file) hrep
            have hokadd := isOk_add append persistent' r'.persistentCollection d₂
            dsimp only
            generalize EngineBytes.add (io.append file) persistent r.persistentCollection b₂ =
              x at hres hadd ⊢
            generalize hy₂ : r'.persistentCollection.add append persistent' d₂ = y at hres hadd hokadd
            obtain ⟨res, c₃, b₃⟩ := x
            obtain ⟨res', c₃', d₃⟩ := y
            obtain rfl : res = res' := hres
            cases res with
            | error e => exact ⟨fun _ => ⟨_, rfl⟩, fun r₁ b₁ hturn => by cases hturn⟩
            | ok u =>
              obtain rfl := eq_ok_of_isOk hokadd.symm hreports
              simp only [hy, hy₂, if_true, RecoveryIO.succeeds] at hok
              cases hok
              cases hremove : io.remove file with
              | false => exact ⟨fun htrue => (by cases htrue), fun r₁ b₁ hturn => (by cases hturn)⟩
              | true =>
                refine ⟨fun _ => ⟨_, rfl⟩, fun r₁ b₁ hturn => ?_⟩
                cases hturn
                exact h.listed hadd file version
        · rw [if_neg hlarge] at hok ⊢
          cases hok
          refine ⟨fun _ => ?_, fun r₁ b₁ hturn => ?_⟩
          · split <;> exact ⟨_, rfl⟩
          · unfold EngineBytes.loadSwappableWalWriter at hturn
            cases hopen : io.openWal file with
            | error e =>
              rw [hopen] at hturn
              cases hturn
            | ok u =>
              rw [hopen] at hturn
              cases hturn
              exact ⟨h.stands, rfl, rfl, fun w hw => by cases hw; exact hposition,
                congrArg (max · version) h.maxVersion, h.small⟩

theorem Recovers.initializeLoop (h : Recovers r b r' d) {io : RecoveryIO} (hroom : io.FindsRoom)
    (threshold : Nat) {files listing : List FileId}
    (hok : Iu9Db.initializeLoop (.succeeds listing) threshold files r' d = some (.ok r₁', d₁)) :
    ((∀ f ∈ files, io.remove f = true) → ∃ x, EngineBytes.initializeLoop io threshold files r b = some x) ∧
      ∀ r₁ b₁, EngineBytes.initializeLoop io threshold files r b = some (.ok r₁, b₁) →
        Recovers r₁ b₁ r₁' d₁ := by
  induction files generalizing r b r' d with
  | nil =>
    cases hok
    refine ⟨fun _ => ⟨_, rfl⟩, fun r₁ b₁ hloop => ?_⟩
    cases hloop
    exact h
  | cons file files ih =>
    rw [Iu9Db.initializeLoop] at hok
    split at hok
    · rename_i r₂' d₂ hturn'
      obtain ⟨hsome, hturn⟩ := h.initializeFrom hroom threshold file hturn'
      rw [EngineBytes.initializeLoop]
      generalize EngineBytes.initializeFrom io threshold file r b = x at hsome hturn ⊢
      rcases x with _ | ⟨_ | r₂, b₂⟩
      · refine ⟨fun hremove => ?_, fun r₁ b₁ hloop => by cases hloop⟩
        obtain ⟨x, hx⟩ := hsome (hremove file (List.mem_cons_self ..))
        cases hx
      · exact ⟨fun _ => ⟨_, rfl⟩, fun r₁ b₁ hloop => by cases hloop⟩
      · obtain ⟨hrest, hloop⟩ := ih (hturn r₂ b₂ rfl) hok
        exact ⟨fun hremove => hrest fun f hf => hremove f (List.mem_cons_of_mem _ hf), hloop⟩
    · rename_i hne
      exact absurd hok (hne _ _)

end

/-! ### Runs on bytes and on records -/

/-- A file in which recovery finds an operation stands for one that has a record. -/
theorem HasOperation.ne {b : Directory} {d : Disk} {path : FileId} (hop : HasOperation b path)
    (h : Represents b d) : d.wal path ≠ some [] := by
  intro hempty
  have hfile := h.wal path
  rw [hempty] at hfile
  generalize hcontent : b.wal path = content at hfile
  cases hfile with
  | some hholds =>
    obtain ⟨position, hholds⟩ := hholds
    exact hop _ hcontent hholds.readWAL.1

/-- Nothing fails, and the directory lists `files`. -/
def RecoveryIO.succeeds (files : List FileId) : RecoveryIO :=
  ⟨.ok files, fun _ => .succeeds, fun _ => .succeeds, fun _ => true, fun _ => .ok (), .ok ()⟩

/-- A removal of which the node writes a part. -/
def torn : Write := .remove [97] 2

end EngineBytes

end Iu9Db
