import Iu9Db.MapRefinement
import Iu9Db.JobDurability
import Iu9Db.Lib.Versioned
import Iu9Db.VersionNumberGenerator

/-!
# `InitializeStorages`

The start of a node on the data directory that an earlier run left. Each WAL file becomes a table on
disk or, if it has few keys, the table in memory. `served` is what the loop leaves under a key, read off
the listing alone (`entry_initializeStorages`): a later small file takes the place of an earlier one, and
memory answers before every table.
-/

namespace Iu9Db

open Keyed

/-- The outcomes of the system calls; those in the loop by WAL file. -/
structure RecoveryIO where
  search : Except Str (List FileId)
  table : FileId → StorageIO
  append : FileId → AppendIO
  remove : FileId → Bool
  openWal : FileId → Result Unit
  newWal : Result Unit

/-- Nothing fails, and the directory lists `files`. -/
def RecoveryIO.succeeds (files : List FileId) : RecoveryIO :=
  ⟨.ok files, fun _ => .succeeds, fun _ => .ok, fun _ => true, fun _ => .ok (), .ok ()⟩

/-- `GetMaxVersion`; without an operation there is nothing to dereference. -/
def getMaxVersion (operations : List Operation) : Option UInt64 := (operations.map Operation.version).max?

/-- `SearchWALFiles`. -/
def searchWalFiles : Except Str (List FileId) → Result (List FileId)
  | .ok files => .ok files
  | .error what => .error (makeError (text "failed to search for .wal files: " ++ what))

/-- `LoadSwappableWalWriter`. -/
def loadSwappableWalWriter (opened : Result Unit) (path : FileId) : Result FileId :=
  match opened with
  | .error e =>
    .error (wrapError (wrapError e (text "failed to create WAL")) (text "failed to create wal file"))
  | .ok _ => .ok path

/-- `NewSwappableWalWriter`. -/
def newSwappableWalWriter (created : Result Unit) (d : Disk) : Result FileId × Disk :=
  match newWalWriter created d with
  | (.error e, d) => (.error (wrapError e (text "failed to create wal file")), d)
  | (.ok file, d) => (.ok file, d)

/-- The variables that the loop over the WAL files assigns to. -/
structure Recovering where
  persistentCollection : PersistentStorageCollection
  memstorage : SwappableMemoryStorage
  walWriter : Option FileId
  maxVersion : UInt64

/-- One turn of the loop; `none` where the source dereferences an end iterator or an empty optional, or
an exception of `fs::remove` leaves it. -/
def initializeFrom (io : RecoveryIO) (threshold : Nat) (file : FileId) (r : Recovering) (d : Disk) :
    Option (Result Recovering × Disk) :=
  match readWal file d with
  | .error e => some (.error e, d)
  | .ok (operations, _) =>
    match apply operations .empty, getMaxVersion operations with
    | some storage, some version =>
      let r := { r with maxVersion := max r.maxVersion version }
      if storage.size > threshold then
        match newPersistentStorage (io.table file) storage.toEntries d with
        | (.error e, d) => some (.error (wrapError e (text "failed to initialize persistent storage")), d)
        | (.ok persistent, d) =>
          match r.persistentCollection.add (io.append file) persistent d with
          | (.error e, _, d) =>
            some (.error (wrapError e (text "failed to initialize persistent collection")), d)
          | (.ok _, c, d) =>
            if io.remove file then some (.ok { r with persistentCollection := c }, removeWal file d) else none
      else
        match loadSwappableWalWriter (io.openWal file) file with
        | .error e => some (.error (wrapError e (text "failed to load WAL")), d)
        | .ok walWriter => some (.ok { r with memstorage := .ofMap storage, walWriter := some walWriter }, d)
    | _, _ => none

/-- The loop over the WAL files. -/
def initializeLoop (io : RecoveryIO) (threshold : Nat) :
    List FileId → Recovering → Disk → Option (Result Recovering × Disk)
  | [], r, d => some (.ok r, d)
  | file :: files, r, d =>
    match initializeFrom io threshold file r d with
    | some (.ok r, d) => initializeLoop io threshold files r d
    | res => res

/-- What `InitializeStorages` returns. -/
structure Initialized where
  persistentCollection : PersistentStorageCollection
  memstorage : SwappableMemoryStorage
  walWriter : FileId
  versionNumberGenerator : VersionNumberGenerator

/-- `InitializeStorages`. -/
def initializeStorages (io : RecoveryIO) (threshold : Nat) (d : Disk) : Option (Result Initialized × Disk) :=
  match searchWalFiles io.search with
  | .error e => some (.error e, d)
  | .ok files =>
    match initializeLoop io threshold files ⟨⟨readCollection d⟩, .new, none, 0⟩ d with
    | none => none
    | some (.error e, d) => some (.error e, d)
    | some (.ok r, d) =>
      let done (walWriter : FileId) : Initialized :=
        ⟨r.persistentCollection, r.memstorage, walWriter, ⟨r.maxVersion + 1⟩⟩
      match r.walWriter with
      | some walWriter => some (.ok (done walWriter), d)
      | none =>
        match newSwappableWalWriter io.newWal d with
        | (.error e, d) => some (.error (wrapError e (text "failed to create WAL")), d)
        | (.ok walWriter, d) => some (.ok (done walWriter), d)

/-- The engine that a node starts with. -/
def Initialized.storageSystem (r : Initialized) (d : Disk) : StorageSystem :=
  ⟨r.walWriter, r.memstorage, r.persistentCollection, d⟩

/-! ### The table of one WAL file -/

/-- The rows that a list of operations leaves. -/
def replay (ops : List Write) : MapStorage := ops.foldl (fun table w => w.applyTo table) .empty

theorem find_replay (ops : List Write) (k : Str) : (replay ops).find k = lastValue ops k := by
  induction ops using List.reverseRecOn with
  | nil => simp [replay]
  | append_singleton ops w ih =>
    rw [lastValue_concat, ← ih, ← Write.find_applyTo]
    simp [replay, List.foldl_append]

/-- Reading the records of operations and applying them is replaying the operations. -/
theorem apply_records (ops : List Write) (table : MapStorage) :
    apply ((ops.map Write.record).filterMap WalEntry.toOperation) table =
      some (ops.foldl (fun table w => w.applyTo table) table) := by
  induction ops generalizing table with
  | nil => rfl
  | cons w ops ih =>
    cases w with
    | insert kwPair => exact ih (table.insert kwPair)
    | remove key version => exact ih (table.remove key version)

theorem exists_getMaxVersion {ops : List Write} (h : ops ≠ []) :
    ∃ version, getMaxVersion ((ops.map Write.record).filterMap WalEntry.toOperation) = some version := by
  obtain ⟨w, ops, rfl⟩ := List.exists_cons_of_ne_nil h
  refine Option.isSome_iff_exists.1 ?_
  cases w with
  | insert kwPair => simp [getMaxVersion, Write.record, WalEntry.toOperation, List.max?_cons]
  | remove key version => simp [getMaxVersion, Write.record, WalEntry.toOperation, List.max?_cons]

/-! ### The loop -/

section
variable (threshold : Nat) (logged : FileId → List Write)

/-- The file has more keys than fit in memory. -/
def IsLarge (file : FileId) : Prop := (replay (logged file)).size > threshold

instance (file : FileId) : Decidable (IsLarge threshold logged file) :=
  inferInstanceAs (Decidable (_ > _))

/-- The last small file of the listing: the only one that gets to memory. -/
def lastSmall (files : List FileId) : Option FileId :=
  (files.filter fun file => !IsLarge threshold logged file).getLast?

/-- The last large file of the listing with an operation on the key has its table in front. -/
def servedByLarge (files : List FileId) (k : Str) : Option Value :=
  (files.filter fun file => IsLarge threshold logged file).reverse.findSome? fun file =>
    lastValue (logged file) k

variable (listing : List FileId) (threshold : Nat) {logged : FileId → List Write} {files : List FileId}
  {file : FileId} {r : Recovering} {d : Disk}

/-- One turn when nothing fails: a large file adds a table, a small one replaces the one in memory. -/
theorem initializeFrom_succeeds (hwal : d.wal file = some ((logged file).map Write.record))
    (hne : logged file ≠ []) (hc : r.persistentCollection.Wf) (hm : r.memstorage.Wf) :
    ∃ r' d', initializeFrom (.succeeds listing) threshold file r d = some (.ok r', d') ∧
      r'.persistentCollection.Wf ∧ r'.memstorage.Wf ∧ (∀ f, f ≠ file → d'.wal f = d.wal f) ∧
      ∀ k, r'.memstorage.find k =
          (if IsLarge threshold logged file then r.memstorage.find k else lastValue (logged file) k) ∧
        (r'.persistentCollection.find k).map StorageEntry.toValue =
          (if IsLarge threshold logged file then lastValue (logged file) k else none).or
            ((r.persistentCollection.find k).map StorageEntry.toValue) := by
  obtain ⟨version, hversion⟩ := exists_getMaxVersion hne
  have happly : apply (((logged file).map Write.record).filterMap WalEntry.toOperation) .empty =
    some (replay (logged file)) := apply_records _ _
  have hread : readWal file d = .ok (((logged file).map Write.record).filterMap WalEntry.toOperation,
      ((logged file).map Write.record).length) := by rw [readWal, hwal]
  unfold initializeFrom
  simp only [hread, happly, hversion]
  by_cases hlarge : IsLarge threshold logged file
  · -- The rows go to a new table at the end of the collection.
    have hkeys := (replay (logged file)).toEntries_keys_nodup
    simp only [if_pos hlarge, if_pos (show (replay (logged file)).size > threshold from hlarge)]
    refine ⟨_, _, rfl, hc.concat ⟨strict_insertionSort hkeys⟩, hm, fun f hf => ?_, fun k => ⟨rfl, ?_⟩⟩
    · exact Function.update_of_ne hf _ _
    · show (PersistentStorageCollection.find ⟨_ ++ [_]⟩ k).map _ = _
      rw [PersistentStorageCollection.find_concat, PersistentStorage.find, find_insertionSort hkeys,
        MapStorage.find_toEntries, find_replay]
      cases lastValue (logged file) k <;> rfl
  · simp only [if_neg hlarge, if_neg (show ¬ (replay (logged file)).size > threshold from hlarge)]
    refine ⟨_, _, rfl, hc, SwappableMemoryStorage.wf_ofMap _, fun f _ => rfl, fun k => ⟨?_, rfl⟩⟩
    rw [SwappableMemoryStorage.find_ofMap, find_replay]

theorem initializeLoop_succeeds (hnodup : files.Nodup)
    (hwal : ∀ f ∈ files, d.wal f = some ((logged f).map Write.record)) (hne : ∀ f ∈ files, logged f ≠ [])
    (hc : r.persistentCollection.Wf) (hm : r.memstorage.Wf) :
    ∃ r' d', initializeLoop (.succeeds listing) threshold files r d = some (.ok r', d') ∧
      r'.persistentCollection.Wf ∧ r'.memstorage.Wf ∧
      ∀ k, r'.memstorage.find k =
          (match lastSmall threshold logged files with
          | some file => lastValue (logged file) k
          | none => r.memstorage.find k) ∧
        (r'.persistentCollection.find k).map StorageEntry.toValue =
          (servedByLarge threshold logged files k).or
            ((r.persistentCollection.find k).map StorageEntry.toValue) := by
  induction files generalizing r d with
  | nil => exact ⟨r, d, rfl, hc, hm, fun k => ⟨rfl, rfl⟩⟩
  | cons file files ih =>
    obtain ⟨hfile, hnodup⟩ := List.nodup_cons.1 hnodup
    obtain ⟨r₁, d₁, hfrom, hc₁, hm₁, hwal₁, hfind₁⟩ :=
      initializeFrom_succeeds listing threshold (hwal file (by simp)) (hne file (by simp)) hc hm
    obtain ⟨r₂, d₂, hloop, hc₂, hm₂, hfind₂⟩ := ih (r := r₁) (d := d₁) hnodup
      (fun f hf => by rw [hwal₁ f (ne_of_mem_of_not_mem hf hfile)]; exact hwal f (by simp [hf]))
      (fun f hf => hne f (by simp [hf])) hc₁ hm₁
    refine ⟨r₂, d₂, by rw [initializeLoop, hfrom]; exact hloop, hc₂, hm₂, fun k => ⟨?_, ?_⟩⟩
    · rw [(hfind₂ k).1, (hfind₁ k).1, lastSmall, lastSmall, List.filter_cons]
      by_cases hlarge : IsLarge threshold logged file
      · simp [hlarge]
      · simp only [hlarge, decide_false, Bool.not_false, if_true, if_false, List.getLast?_cons]
        cases (files.filter fun file => !IsLarge threshold logged file).getLast? <;> rfl
    · rw [(hfind₂ k).2, (hfind₁ k).2, servedByLarge, servedByLarge, List.filter_cons, ← Option.or_assoc]
      by_cases hlarge : IsLarge threshold logged file
      · simp only [hlarge, decide_true, if_true, List.reverse_cons, List.findSome?_append]
        congr 2
        rw [List.findSome?_cons]
        cases lastValue (logged file) k <;> rfl
      · simp [hlarge]

end

/-- What recovery leaves under a key: memory is the last small file of the listing, and every large file
stands in front of those before it and of the collection. -/
def served (threshold : Nat) (logged : FileId → List Write) (files : List FileId)
    (c : PersistentStorageCollection) (k : Str) : Option Value :=
  ((lastSmall threshold logged files).bind fun file => lastValue (logged file) k).or
    ((servedByLarge threshold logged files k).or ((c.find k).map StorageEntry.toValue))

theorem entry_initializeStorages (threshold : Nat) {logged : FileId → List Write} {files : List FileId}
    {d : Disk} (hnodup : files.Nodup) (hwal : ∀ f ∈ files, d.wal f = some ((logged f).map Write.record))
    (hne : ∀ f ∈ files, logged f ≠ []) (hc : PersistentStorageCollection.Wf ⟨readCollection d⟩) :
    ∃ init d', initializeStorages (.succeeds files) threshold d = some (.ok init, d') ∧
      (init.storageSystem d').Wf ∧
      ∀ k, (init.storageSystem d').entry k = served threshold logged files ⟨readCollection d⟩ k := by
  obtain ⟨r, d₁, hloop, hc₁, hm₁, hfind⟩ := initializeLoop_succeeds files threshold
    (r := ⟨⟨readCollection d⟩, .new, none, 0⟩) hnodup hwal hne hc (SwappableMemoryStorage.wf_ofMap _)
  have hserved : ∀ k, (r.memstorage.find k).or ((r.persistentCollection.find k).map StorageEntry.toValue) =
      served threshold logged files ⟨readCollection d⟩ k := by
    intro k
    rw [(hfind k).1, (hfind k).2, served]
    congr 1
    cases lastSmall threshold logged files with
    | none => exact SwappableMemoryStorage.find_new k
    | some file => rfl
  unfold initializeStorages
  unfold RecoveryIO.succeeds at hloop ⊢
  dsimp only [searchWalFiles]
  rw [hloop]
  dsimp only
  cases r.walWriter with
  | some walWriter => exact ⟨_, _, rfl, ⟨hm₁, hc₁⟩, hserved⟩
  | none => exact ⟨_, _, rfl, ⟨hm₁, hc₁⟩, hserved⟩

/-! ### The newest operation on a key -/

/-- A WAL file that is replayed, or a table. -/
inductive Place
  | wal (file : FileId)
  | table (storage : PersistentStorage)

/-- What a run left in the data directory. The operations of the run are numbered in the order in which
they were applied; a WAL file and the tables hold some of them. -/
structure Leftover (d : Disk) (files : List FileId) where
  history : List Write
  logged : FileId → List (Fin history.length)
  stored : List (Fin history.length)
  nodup : files.Nodup
  listing : ∀ f, f ∈ files ↔ ∃ l, d.wal f = some l
  wal : ∀ f ∈ files, d.wal f = some ((logged f).map fun i => (history.get i).record)
  nonempty : ∀ f ∈ files, logged f ≠ []
  tables : PersistentStorageCollection.Wf ⟨readCollection d⟩
  table : ∀ e, (∃ st ∈ readCollection d, e ∈ st.entries) ↔
    ∃ i ∈ stored, (history.get i).value.toEntry (history.get i).key = e

namespace Leftover

variable {d : Disk} {files : List FileId} (l : Leftover d files)

/-- The operations of a WAL file. -/
def writes (file : FileId) : List Write := (l.logged file).map l.history.get

/-- The operations on a key in any WAL file or table. -/
def recorded (k : Str) : List (Fin l.history.length) :=
  (l.stored ++ files.flatMap l.logged).filter fun i => decide ((l.history.get i).key = k)

/-- The one of them that was applied last. -/
def newest (k : Str) : Option (Fin l.history.length) := Versioned.newestOf id (l.recorded k)

/-- What it stores: nothing, if it is a removal or if there is none. -/
def newestValue (k : Str) : Option Str := (l.newest k).bind fun i => (l.history.get i).value.value

theorem isNewest_newest {k : Str} {i : Fin l.history.length} (h : l.newest k = some i) :
    Versioned.IsNewest id (l.recorded k) i := Versioned.isNewest_newestOf h

/-! ### The files and the tables that are kept -/

/-- The key of an operation of the run, and what it stores: nothing, if it is a removal. -/
def key (i : Fin l.history.length) : Str := (l.history.get i).key

def value (i : Fin l.history.length) : Option Str := (l.history.get i).value.value

/-- The places that the new engine looks at, the first one first: the last small file of the listing,
whose rows memory has; the large files, of which a later one of the listing is looked at before; the
tables, likewise. The other small files are not among them. -/
def places (threshold : Nat) : List Place :=
  (lastSmall threshold l.writes files).toList.map .wal ++
    (files.filter fun file => IsLarge threshold l.writes file).reverse.map .wal ++
    (readCollection d).reverse.map .table

/-- The operation is in the place. -/
def Holds : Place → Fin l.history.length → Prop
  | .wal file, i => i ∈ l.logged file
  | .table storage, i => i ∈ l.stored ∧ (l.history.get i).value.toEntry (l.key i) ∈ storage.entries

/-- The place has an operation on the key. -/
def HasKey (p : Place) (k : Str) : Prop := ∃ i, l.Holds p i ∧ l.key i = k

/-- No operation on the same key stands behind it in its place. -/
def IsLast : Place → Fin l.history.length → Prop
  | .wal file, i => ∃ before after, l.logged file = before ++ i :: after ∧ ∀ j ∈ after, l.key j ≠ l.key i
  | .table storage, i => l.Holds (.table storage) i

/-- The age of the operations on a key agrees with the sizes of the files and the order of the listing. -/
structure InOrder (threshold : Nat) (k : Str) : Prop where
  /-- One that is older than the newest, and stores something else, stands behind another one in its
  place, or there is an operation on the key in a place that is looked at before. -/
  older : ∀ i, l.newest k = some i → ∀ front p behind, l.places threshold = front ++ p :: behind →
    ∀ j < i, l.IsLast p j → l.key j = k → l.value j ≠ l.value i → ∃ q ∈ front, l.HasKey q k
  /-- If the newest is an insertion, some place has an operation on the key. -/
  kept : ∀ i, l.newest k = some i → l.value i ≠ none → ∃ p ∈ l.places threshold, l.HasKey p k

/-- What a place answers. -/
def answer (k : Str) : Place → Option Value
  | .wal file => lastValue (l.writes file) k
  | .table storage => (storage.find k).map StorageEntry.toValue

section
variable {l} {threshold : Nat} {k : Str} {p : Place} {v : Value}

theorem findSome?_places (l : Leftover d files) (threshold : Nat) (k : Str) :
    (l.places threshold).findSome? (l.answer k) = served threshold l.writes files ⟨readCollection d⟩ k := by
  have hsmall : ((lastSmall threshold l.writes files).toList.map Place.wal).findSome? (l.answer k) =
      (lastSmall threshold l.writes files).bind fun file => lastValue (l.writes file) k := by
    cases lastSmall threshold l.writes files with
    | none => rfl
    | some file => simp [answer]
  have hlarge : (((files.filter fun file => IsLarge threshold l.writes file).reverse.map Place.wal).findSome?
      (l.answer k)) = servedByLarge threshold l.writes files k := by
    rw [List.findSome?_map]
    rfl
  have htables : ((readCollection d).reverse.map Place.table).findSome? (l.answer k) =
      (PersistentStorageCollection.find ⟨readCollection d⟩ k).map StorageEntry.toValue := by
    rw [List.findSome?_map, PersistentStorageCollection.find, List.map_findSome?]
    rfl
  rw [places, List.findSome?_append, List.findSome?_append, hsmall, hlarge, htables, Option.or_assoc, served]

theorem mem_of_table {storage : PersistentStorage} (h : Place.table storage ∈ l.places threshold) :
    storage ∈ readCollection d := by
  rcases List.mem_append.1 h with h | h
  · rcases List.mem_append.1 h with h | h
    · obtain ⟨file, -, hfile⟩ := List.mem_map.1 h
      cases hfile
    · obtain ⟨file, -, hfile⟩ := List.mem_map.1 h
      cases hfile
  · obtain ⟨st, hst, hp⟩ := List.mem_map.1 h
    cases hp
    exact List.mem_reverse.1 hst

/-- A place answers what the last operation on the key stores. -/
theorem answer_eq_some (hp : p ∈ l.places threshold) :
    l.answer k p = some v ↔ ∃ i, l.IsLast p i ∧ l.key i = k ∧ (l.history.get i).value = v := by
  cases p with
  | wal file =>
    have hlast : l.answer k (.wal file) =
        (findLast l.key k (l.logged file)).map fun i => (l.history.get i).value := by
      show (findLast Write.key k ((l.logged file).map l.history.get)).map Write.value = _
      rw [findLast_map, Option.map_map]
      rfl
    rw [hlast, Option.map_eq_some_iff]
    refine exists_congr fun i => ?_
    rw [findLast_eq_some_iff]
    constructor
    · rintro ⟨⟨before, after, hl, hk, hafter⟩, hv⟩
      exact ⟨⟨before, after, hl, fun j hj => hk ▸ hafter j hj⟩, hk, hv⟩
    · rintro ⟨⟨before, after, hl, hafter⟩, hk, hv⟩
      exact ⟨⟨before, after, hl, hk, fun j hj => hk ▸ hafter j hj⟩, hv⟩
  | table storage =>
    have hst := mem_of_table hp
    have hnodup := (l.tables storage hst).strict.nodup
    constructor
    · intro h
      obtain ⟨e, he, rfl⟩ := Option.map_eq_some_iff.1 h
      obtain ⟨he, hk⟩ := (find_eq_some_iff hnodup).1 he
      obtain ⟨i, hi, rfl⟩ := (l.table e).1 ⟨storage, hst, he⟩
      exact ⟨i, ⟨hi, he⟩, hk, rfl⟩
    · rintro ⟨i, ⟨-, he⟩, hk, rfl⟩
      show (Keyed.find StorageEntry.key k storage.entries).map StorageEntry.toValue = _
      rw [(find_eq_some_iff hnodup).2 ⟨he, hk⟩]
      rfl

theorem answer_eq_none (hp : p ∈ l.places threshold) : l.answer k p = none ↔ ¬ l.HasKey p k := by
  cases p with
  | wal file =>
    show lastValue (l.writes file) k = none ↔ _
    rw [lastValue_eq_none]
    simp [writes, HasKey, Holds, key]
  | table storage =>
    have hst := mem_of_table hp
    show (Keyed.find StorageEntry.key k storage.entries).map StorageEntry.toValue = none ↔ _
    rw [Option.map_eq_none_iff, find_eq_none]
    constructor
    · rintro h ⟨i, ⟨-, he⟩, hk⟩
      exact h _ he hk
    · intro h e he hk
      obtain ⟨i, hi, rfl⟩ := (l.table e).1 ⟨storage, hst, he⟩
      exact h ⟨i, ⟨hi, he⟩, hk⟩

theorem mem_recorded_of_isLast {i : Fin l.history.length} (hp : p ∈ l.places threshold) (h : l.IsLast p i) :
    i ∈ l.recorded (l.key i) := by
  have hkey : decide ((l.history.get i).key = l.key i) = true := decide_eq_true rfl
  refine List.mem_filter.2 ⟨?_, hkey⟩
  cases p with
  | table storage => exact List.mem_append_left _ h.1
  | wal file =>
    obtain ⟨before, after, hl, -⟩ := h
    have hfile : file ∈ files := by
      rcases List.mem_append.1 hp with hp | hp
      · rcases List.mem_append.1 hp with hp | hp
        · obtain ⟨f, hf, heq⟩ := List.mem_map.1 hp
          cases heq
          exact List.mem_of_mem_filter (List.mem_of_getLast? (Option.mem_toList.1 hf))
        · obtain ⟨f, hf, heq⟩ := List.mem_map.1 hp
          cases heq
          exact List.mem_of_mem_filter (List.mem_reverse.1 hf)
      · obtain ⟨st, -, heq⟩ := List.mem_map.1 hp
        cases heq
    exact List.mem_append_right _ (List.mem_flatMap.2 ⟨file, hfile, by rw [hl]; simp⟩)

/-- The newest operation on a key is answered exactly when the files are in order. -/
theorem inOrder_iff (l : Leftover d files) (threshold : Nat) (k : Str) : l.InOrder threshold k ↔
    (served threshold l.writes files ⟨readCollection d⟩ k).bind Value.value = l.newestValue k := by
  rw [← l.findSome?_places]
  have hnewest (i : Fin l.history.length) (hi : l.newest k = some i) : l.newestValue k = l.value i := by
    rw [newestValue, hi]
    rfl
  constructor
  · intro h
    cases hfind : (l.places threshold).findSome? (l.answer k) with
    | none =>
      -- No place has an operation on the key.
      rw [List.findSome?_eq_none_iff] at hfind
      cases hi : l.newest k with
      | none =>
        rw [newestValue, hi]
        rfl
      | some i =>
        by_contra hne
        rw [hnewest i hi] at hne
        obtain ⟨p, hp, hhas⟩ := h.kept i hi (Ne.symm hne)
        exact (answer_eq_none hp).1 (hfind p hp) hhas
    | some v =>
      obtain ⟨front, p, behind, hplaces, hp, hfront⟩ := List.findSome?_eq_some_iff.1 hfind
      have hmem : p ∈ l.places threshold := by rw [hplaces]; simp
      obtain ⟨j, hlast, hk, rfl⟩ := (answer_eq_some hmem).1 hp
      have hrec : j ∈ l.recorded k := hk ▸ mem_recorded_of_isLast hmem hlast
      cases hi : l.newest k with
      | none => exact absurd hrec (by rw [Versioned.newestOf_eq_none.1 hi]; exact List.not_mem_nil)
      | some i =>
        rw [hnewest i hi]
        by_contra hne
        have hlt : j < i :=
          lt_of_le_of_ne ((l.isNewest_newest hi).le j hrec) fun heq => hne (by rw [heq]; rfl)
        obtain ⟨q, hq, hhas⟩ := h.older i hi front p behind hplaces j hlt hlast hk hne
        exact (answer_eq_none (by rw [hplaces]; simp [hq])).1 (hfront q hq) hhas
  · intro hserved
    constructor
    · intro i hi front p behind hplaces j hlt hlast hk hne
      by_contra hnone
      -- Otherwise this place answers, with what the older operation stores.
      have hp : l.answer k p = some (l.history.get j).value :=
        (answer_eq_some (by rw [hplaces]; simp)).2 ⟨j, hlast, hk, rfl⟩
      have hfront : ∀ q ∈ front, l.answer k q = none := fun q hq =>
        (answer_eq_none (by rw [hplaces]; simp [hq])).2 fun hhas => hnone ⟨q, hq, hhas⟩
      rw [List.findSome?_eq_some_iff.2 ⟨front, p, behind, hplaces, hp, hfront⟩, hnewest i hi] at hserved
      exact hne hserved
    · intro i hi hne
      by_contra hnone
      have hall : (l.places threshold).findSome? (l.answer k) = none :=
        List.findSome?_eq_none_iff.2 fun p hp =>
        (answer_eq_none hp).2 fun hhas => hnone ⟨p, hp, hhas⟩
      rw [hall, hnewest i hi] at hserved
      exact hne hserved.symm

end

theorem entry_initializeStorages (threshold : Nat) :
    ∃ init d', initializeStorages (.succeeds files) threshold d = some (.ok init, d') ∧
      (init.storageSystem d').Wf ∧
      ∀ k, (init.storageSystem d').entry k = served threshold l.writes files ⟨readCollection d⟩ k :=
  Iu9Db.entry_initializeStorages threshold l.nodup
    (fun f hf => by rw [l.wal f hf, writes, List.map_map]; rfl)
    (fun f hf => by simpa [writes] using l.nonempty f hf) l.tables

end Leftover

/-- **Recovery succeeds, and answers every `Get` with the newest operation exactly when the sizes of
the files and the order of the listing agree with the age of the operations on each key.** -/
theorem recoversNewest_iff {d : Disk} {files : List FileId} (l : Leftover d files) (threshold : Nat) :
    ∃ init d', initializeStorages (.succeeds files) threshold d = some (.ok init, d') ∧
      ((∀ k, Answers ((init.storageSystem d').get k) (l.newestValue k)) ↔ ∀ k, l.InOrder threshold k) := by
  obtain ⟨init, d', hinit, hwf, hentry⟩ := l.entry_initializeStorages threshold
  refine ⟨init, d', hinit, forall_congr' fun k => ?_⟩
  have hget := answers_get hwf.persistentStorage k
  rw [hentry k] at hget
  rw [l.inOrder_iff]
  exact ⟨fun h => hget.unique h, fun h => h ▸ hget⟩

/-! ### A run that recovery loses operations of -/

/-- Five operations, a job that stops at the table, and one more operation in the second WAL file. -/
def twoWalRun : List JobDurability.Label :=
  [1, 2, 3, 4, 5].map (fun n => .write true (JobDurability.put n)) ++
  .startJob JobDurability.failing :: List.replicate 6 .jobStep ++ [.write true (JobDurability.put 6)]

/-- The second file takes the place of the first in memory. -/
theorem not_recoversNewest :
    ¬ ∀ (s : JobDurability.State) (files : List FileId) (l : Leftover s.system.disk files) (threshold : Nat),
      JobDurability.system.Reachable s → l.history = s.applied →
      ∃ init d', initializeStorages (.succeeds files) threshold s.system.disk = some (.ok init, d') ∧
        ∀ k, Answers ((init.storageSystem d').get k) (l.newestValue k) := by
  intro hall
  obtain ⟨s, hs⟩ :
      ∃ s, Transition.exec JobDurability.step ⟨.new, .succeeds, .done, [], []⟩ twoWalRun = some s :=
    Option.isSome_iff_exists.1 (by decide +kernel)
  have hreach : JobDurability.system.Reachable s := Transition.reachable_exec (.init rfl) hs
  have hw : WalFiles s.pc s.system := hreach.invariant (fun _ => JobDurability.walFiles_init)
    fun _ _ _ hw _ hs => JobDurability.walFiles_of_step hw hs
  have happlied : s.applied = [1, 2, 3, 4, 5, 6].map JobDurability.put :=
    Transition.eq_of_map_exec hs (f := fun s => s.applied) (by decide +kernel)
  have hnext : s.system.disk.nextFile = 3 :=
    Transition.eq_of_map_exec hs (f := fun s => s.system.disk.nextFile) (by decide +kernel)
  have hwal : [0, 1, 2].map s.system.disk.wal =
      [some ([1, 2, 3, 4, 5].map fun n => (JobDurability.put n).record),
        some [(JobDurability.put 6).record], none] :=
    Transition.eq_of_map_exec hs (f := fun s => [0, 1, 2].map s.system.disk.wal) (by decide +kernel)
  have hmeta : s.system.disk.metadata .main = none :=
    Transition.eq_of_map_exec hs (f := fun s => s.system.disk.metadata .main) (by decide +kernel)
  have htables : readCollection s.system.disk = [] := by rw [readCollection, readMetadata, hmeta]
  simp only [List.map_cons, List.map_nil, List.cons.injEq, and_true] at hwal
  obtain ⟨h0, h1, h2⟩ := hwal
  let l : Leftover s.system.disk [0, 1] := {
    history := [1, 2, 3, 4, 5, 6].map JobDurability.put
    logged := fun f => (if f = 0 then [0, 1, 2, 3, 4] else [5] : List (Fin 6))
    stored := []
    nodup := by decide
    listing := fun f => by
      constructor
      · intro hf
        simp only [List.mem_cons, List.not_mem_nil, or_false] at hf
        rcases hf with rfl | rfl
        · exact ⟨_, h0⟩
        · exact ⟨_, h1⟩
      · rintro ⟨l, hl⟩
        have hlt := hw.lt f l hl
        rw [hnext] at hlt
        interval_cases f
        · simp
        · simp
        · rw [h2] at hl; cases hl
    wal := fun f hf => by
      simp only [List.mem_cons, List.not_mem_nil, or_false] at hf
      rcases hf with rfl | rfl
      · exact h0
      · exact h1
    nonempty := fun f _ => by split <;> exact List.cons_ne_nil _ _
    tables := by rw [htables]; exact fun _ h => (by cases h)
    table := fun e => by simp [htables] }
  obtain ⟨init, d', hinit, hanswers⟩ := hall s [0, 1] l 5000 hreach happlied.symm
  obtain ⟨init', d'', hinit', hwf, hentry⟩ := l.entry_initializeStorages 5000
  obtain ⟨rfl, rfl⟩ : init = init' ∧ d' = d'' := by
    simpa using hinit.symm.trans hinit'
  have hget := (answers_get hwf.persistentStorage [1]).unique (hanswers [1])
  have hserved : served 5000
    (fun f => if f = 0 then [1, 2, 3, 4, 5].map JobDurability.put else [JobDurability.put 6])
      [0, 1] ⟨[]⟩ [1] = none := by decide +kernel
  have hwrites : l.writes = fun f =>
      if f = 0 then [1, 2, 3, 4, 5].map JobDurability.put else [JobDurability.put 6] := by
    funext f
    by_cases hf : f = 0 <;> simp [l, Leftover.writes, hf]
  have hnewest : l.newestValue [1] = some [1] := rfl
  rw [hentry, htables, hwrites, hserved, hnewest] at hget
  cases hget

end Iu9Db
