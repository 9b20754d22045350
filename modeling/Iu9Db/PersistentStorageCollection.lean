import Iu9Db.Disk

/-!
# `PersistentStorageCollection`, the tables on disk

The collection lists its tables oldest first; a reader scans it from the back. The metadata file
lists the names of the tables that are to be loaded at the next start.
-/

namespace Iu9Db

structure PersistentStorageCollection where
  collection : List PersistentStorage
deriving DecidableEq, Repr

/-! ### The metadata files -/

/-- `ReadMetadata`. -/
def readMetadata (d : Disk) (filename : MetadataFile := .main) : Result (List FileId) :=
  match d.metadata filename with
  | none => .error (makeError (text "failed to open metadata file"))
  | some entries => .ok entries

/-- What gets to the disk of a list that did not find room at the flush: the names that the flush has
written, never the last one, and then some of those that are in the stream's buffer, which it writes
once more when it is destroyed. A name that is put together from parts of two leads to no table and is
left out. -/
structure Rewritten where
  flushed : Nat
  start : Nat
  stop : Nat
deriving DecidableEq, Repr

def Rewritten.names (r : Rewritten) (metadata : List FileId) : List FileId :=
  metadata.dropLast.take r.flushed ++ (metadata.take r.stop).drop r.start

/-- How the file system treats one `AppendMetadata`: the open fails, or the write fails after the file
has been truncated and leaves something behind, or the flush fails, which `AppendMetadata` does not
look at, and leaves a list or bytes that are none, or all goes well. -/
inductive AppendIO
  | openFails (e : Error)
  | writeFails (left : Option (List FileId))
  | flushFails (left : Option Rewritten)
  | ok

/-- `AppendMetadata` reports no error. -/
def AppendIO.isOk : AppendIO → Bool
  | ok | flushFails _ => true
  | _ => false

/-- `AppendMetadata`: the entries of `persistent.metadata` and one more, written to `filename`. -/
def appendMetadata (io : AppendIO) (storage : PersistentStorage) (d : Disk)
    (filename : MetadataFile := .main) : Result Unit × Disk :=
  let metadata := match readMetadata d with
    | .ok entries => entries
    | .error _ => []
  let metadata := metadata ++ [storage.path]
  match io with
  | .openFails e => (.error (wrapError e (text "failed to open metadata file")), d)
  | .writeFails left => (.error (makeError (text "failed to write metadata")), d.setMetadata filename left)
  | .flushFails left => (.ok (), d.setMetadata filename (left.map fun r => r.names metadata))
  | .ok => (.ok (), d.setMetadata filename (some metadata))

/-- `ReadCollection`: the listed tables that load, in the order of the list. -/
def readCollection (d : Disk) : List PersistentStorage :=
  match readMetadata d with
  | .error _ => []
  | .ok entries => entries.filterMap fun filename => (loadPersistentStorage filename d).toOption

namespace PersistentStorageCollection

/-- `Add`. -/
def add (io : AppendIO) (storage : PersistentStorage) (c : PersistentStorageCollection) (d : Disk) :
    Result Unit × PersistentStorageCollection × Disk :=
  match appendMetadata io storage d with
  | (.error e, d) => (.error e, c, d)
  | (.ok _, d) => (.ok (), ⟨c.collection ++ [storage]⟩, d)

/-- The first table from the back that has the key. -/
def getFrom (key : Str) : List PersistentStorage → Result StorageEntry
  | [] => .error (makeError (text "key " ++ key ++ text " not found in persistent storage"))
  | storage :: rest =>
    match storage.get key with
    | .ok res => .ok res
    | .error _ => getFrom key rest

/-- `PersistentStorageCollection::Get`. -/
def get (c : PersistentStorageCollection) (key : Str) : Result StorageEntry :=
  getFrom key c.collection.reverse

def size (c : PersistentStorageCollection) : Nat := c.collection.length

/-- Removes the `.data` files at `paths`, one after another. -/
def removeFiles (paths : List FileId) (d : Disk) : Disk := paths.foldl (fun d path => d.setData path none) d

/-- `SwapWith`: `.new` metadata, rename, the collection, the old data files. -/
def swapWith (io : AppendIO) (storage : PersistentStorage) (c : PersistentStorageCollection) (d : Disk) :
    Result Unit × PersistentStorageCollection × Disk :=
  let d := d.setMetadata .new none
  match appendMetadata io storage d .new with
  | (.error e, d) => (.error e, c, d)
  | (.ok _, d) =>
    let d := (d.setMetadata .main (d.metadata .new)).setMetadata .new none
    let toDelete := c.collection.map PersistentStorage.path
    (.ok (), ⟨[storage]⟩, removeFiles toDelete d)

theorem data_removeFiles (paths : List FileId) (d : Disk) (path : FileId) :
    (removeFiles paths d).data path = if path ∈ paths then none else d.data path := by
  induction paths generalizing d with
  | nil => rfl
  | cons p paths ih =>
    show (removeFiles paths (d.setData p none)).data path = _
    rw [ih, Disk.setData_data]
    by_cases hp : path = p
    · subst hp
      simp
    · simp [hp]

theorem metadata_removeFiles (paths : List FileId) (d : Disk) :
    (removeFiles paths d).metadata = d.metadata := by
  induction paths generalizing d with
  | nil => rfl
  | cons p paths ih => exact ih (d.setData p none)

theorem wal_removeFiles (paths : List FileId) (d : Disk) :
    (removeFiles paths d).wal = d.wal ∧ (removeFiles paths d).nextFile = d.nextFile := by
  induction paths generalizing d with
  | nil => exact ⟨rfl, rfl⟩
  | cons p paths ih => exact ih (d.setData p none)

/-! ### Lookups -/

/-- Every table is sorted by key. -/
def Wf (c : PersistentStorageCollection) : Prop := ∀ s ∈ c.collection, s.Wf

/-- Every table has a record. -/
def Filled (c : PersistentStorageCollection) : Prop := ∀ s ∈ c.collection, s.entries ≠ []

/-- What the scan from the back finds: the record of the newest table that has the key. -/
def find (c : PersistentStorageCollection) (key : Str) : Option StorageEntry :=
  c.collection.reverse.findSome? fun storage => storage.find key

section
variable {c : PersistentStorageCollection} {key : Str}

theorem getFrom_eq {l : List PersistentStorage} (h : ∀ s ∈ l, s.Wf) (key : Str) :
    (getFrom key l).toOption = l.findSome? fun storage => storage.find key := by
  induction l with
  | nil => rfl
  | cons storage rest ih =>
    have hs := PersistentStorage.get_eq (h storage (by simp)).strict key
    rw [List.findSome?_cons, ← hs, getFrom]
    cases storage.get key with
    | ok res => rfl
    | error e => exact ih fun s hs' => h s (by simp [hs'])

/-- What the collection answers is a record of the key in one of its tables. -/
theorem mem_of_get {res : StorageEntry} (h : c.get key = .ok res) :
    res.key = key ∧ ∃ s ∈ c.collection, res ∈ s.entries := by
  have hmem : ∀ l, getFrom key l = .ok res → res.key = key ∧ ∃ s ∈ l, res ∈ s.entries := by
    intro l
    induction l with
    | nil => nofun
    | cons storage rest ih =>
      intro h
      unfold getFrom at h
      split at h
      · rename_i r hr
        cases h
        obtain ⟨hk, hr⟩ := PersistentStorage.mem_of_get hr
        exact ⟨hk, storage, by simp, hr⟩
      · obtain ⟨hk, s, hs, hr⟩ := ih h
        exact ⟨hk, s, by simp [hs], hr⟩
  obtain ⟨hk, s, hs, hr⟩ := hmem _ h
  exact ⟨hk, s, List.mem_reverse.1 hs, hr⟩

theorem get_eq (h : c.Wf) (key : Str) : (c.get key).toOption = c.find key :=
  getFrom_eq (fun s hs => h s (List.mem_reverse.1 hs)) key

/-- A key that is not found is not found for one reason only. -/
theorem get_error {e : Error} (h : c.get key = .error e) :
    e = makeError (text "key " ++ key ++ text " not found in persistent storage") := by
  unfold get at h
  generalize c.collection.reverse = l at h
  induction l with
  | nil => cases h; rfl
  | cons storage rest ih =>
    unfold getFrom at h
    split at h
    · cases h
    · exact ih h

theorem get_congr {c' : PersistentStorageCollection} (h : c.Wf) (h' : c'.Wf)
    (hfind : c.find key = c'.find key) : c.get key = c'.get key := by
  rw [← get_eq h, ← get_eq h'] at hfind
  exact Result.ext_toOption hfind fun e e' he he' => by rw [get_error he, get_error he']

@[simp] theorem find_nil (key : Str) : find ⟨[]⟩ key = none := rfl

/-- A table that was added last is looked at first. -/
theorem find_concat (l : List PersistentStorage) (storage : PersistentStorage) (key : Str) :
    find ⟨l ++ [storage]⟩ key = (storage.find key).or (find ⟨l⟩ key) := by
  simp only [find, List.reverse_append, List.reverse_cons, List.reverse_nil, List.nil_append,
    List.cons_append, List.findSome?_cons]
  cases storage.find key <;> rfl

theorem find_singleton (storage : PersistentStorage) (key : Str) :
    find ⟨[storage]⟩ key = storage.find key := by
  have := find_concat [] storage key
  simpa using this

theorem key_of_find {e : StorageEntry} (h : c.find key = some e) : e.key = key := by
  obtain ⟨s, -, hs⟩ := List.exists_of_findSome?_eq_some h
  exact Keyed.key_of_find hs

theorem Wf.concat (h : c.Wf) {storage : PersistentStorage} (hs : storage.Wf) :
    Wf ⟨c.collection ++ [storage]⟩ := by
  intro s hmem
  rcases List.mem_append.1 hmem with hmem | hmem
  · exact h s hmem
  · rw [List.mem_singleton.1 hmem]; exact hs

theorem Filled.concat (h : c.Filled) {storage : PersistentStorage} (hs : storage.entries ≠ []) :
    Filled ⟨c.collection ++ [storage]⟩ := by
  intro s hmem
  rcases List.mem_append.1 hmem with hmem | hmem
  · exact h s hmem
  · rw [List.mem_singleton.1 hmem]; exact hs

theorem Wf.singleton {storage : PersistentStorage} (hs : storage.Wf) : Wf ⟨[storage]⟩ := by
  intro s hmem
  rw [List.mem_singleton.1 hmem]; exact hs

end

end PersistentStorageCollection

/-- What `appendMetadata` can do to the disk: nothing outside the file it writes. -/
theorem appendMetadata_frame (io : AppendIO) (storage : PersistentStorage) (d : Disk) (f : MetadataFile) :
    (appendMetadata io storage d f).2.wal = d.wal ∧ (appendMetadata io storage d f).2.data = d.data ∧
      (appendMetadata io storage d f).2.nextFile = d.nextFile ∧
      ∀ g, g ≠ f → (appendMetadata io storage d f).2.metadata g = d.metadata g := by
  unfold appendMetadata
  dsimp only
  split
  · exact ⟨rfl, rfl, rfl, fun _ _ => rfl⟩
  · exact ⟨rfl, rfl, rfl, fun g hg => by simp [Function.update_of_ne hg]⟩
  · exact ⟨rfl, rfl, rfl, fun g hg => by simp [Function.update_of_ne hg]⟩
  · exact ⟨rfl, rfl, rfl, fun g hg => by simp [Function.update_of_ne hg]⟩

theorem PersistentStorageCollection.wal_add (io : AppendIO) (storage : PersistentStorage)
    (c : PersistentStorageCollection) (d : Disk) : (c.add io storage d).2.2.wal = d.wal := by
  have hframe := (appendMetadata_frame io storage d .main).1
  unfold PersistentStorageCollection.add
  split <;> rename_i happend <;> rw [happend] at hframe <;> exact hframe

theorem isOk_appendMetadata (io : AppendIO) (storage : PersistentStorage) (d : Disk) (f : MetadataFile) :
    (appendMetadata io storage d f).1.isOk = io.isOk := by
  cases io <;> rfl

theorem appendMetadata_eq_ok (storage : PersistentStorage) (d : Disk) (f : MetadataFile) :
    appendMetadata .ok storage d f =
    (.ok (), d.setMetadata f (some ((d.metadata .main).getD [] ++ [storage.path]))) := by
  unfold appendMetadata readMetadata
  cases d.metadata .main <;> rfl

/-- What there is of the extended list in its file. -/
def AppendIO.written (metadata : List FileId) : AppendIO → Option (List FileId)
  | flushFails left => left.map fun r => r.names metadata
  | _ => some metadata

/-- `appendMetadata` succeeds only by writing the extended list, as far as the flush has found room. -/
theorem appendMetadata_ok (io : AppendIO) (storage : PersistentStorage) (d : Disk) (f : MetadataFile)
    (h : (appendMetadata io storage d f).1 = .ok ()) :
    (appendMetadata io storage d f).2.metadata f =
      io.written ((d.metadata .main).getD [] ++ [storage.path]) := by
  unfold appendMetadata at h ⊢
  cases io with
  | openFails e => cases h
  | writeFails left => cases h
  | flushFails left =>
    simp only [Disk.setMetadata_metadata, Function.update_self, readMetadata]
    cases d.metadata .main <;> rfl
  | ok =>
    show (appendMetadata .ok storage d f).2.metadata f = _
    rw [appendMetadata_eq_ok, Disk.setMetadata_metadata, Function.update_self]
    rfl

/-- Names are not made up. -/
theorem Rewritten.mem_of_names {r : Rewritten} {metadata : List FileId} {path : FileId}
    (h : path ∈ r.names metadata) : path ∈ metadata := by
  rcases List.mem_append.1 h with h | h
  · exact List.mem_of_mem_dropLast (List.mem_of_mem_take h)
  · exact List.mem_of_mem_take (List.mem_of_mem_drop h)

/-- If the last name is there, it is the last one. -/
theorem Rewritten.names_concat {r : Rewritten} {metadata : List FileId} {path : FileId}
    (hnew : path ∉ metadata) (h : path ∈ r.names (metadata ++ [path])) :
    ∃ old, r.names (metadata ++ [path]) = old ++ [path] ∧ ∀ p ∈ old, p ∈ metadata := by
  unfold Rewritten.names at h ⊢
  rw [List.dropLast_concat] at h ⊢
  rcases List.mem_append.1 h with h | h
  · exact absurd (List.mem_of_mem_take h) hnew
  have hstop : metadata.length < r.stop := by
    by_contra hle
    rw [List.take_append_of_le_length (not_lt.1 hle)] at h
    exact hnew (List.mem_of_mem_take (List.mem_of_mem_drop h))
  have hall : (metadata ++ [path]).take r.stop = metadata ++ [path] :=
    List.take_of_length_le (by simpa using hstop)
  have hstart : r.start ≤ metadata.length := by
    by_contra hlt
    rw [hall, List.drop_eq_nil_of_le (by simp; omega)] at h
    cases h
  refine ⟨metadata.take r.flushed ++ metadata.drop r.start, ?_, fun p hp => ?_⟩
  · rw [hall, List.drop_append_of_le_length hstart, List.append_assoc]
  · rcases List.mem_append.1 hp with hp | hp
    · exact List.mem_of_mem_take hp
    · exact List.mem_of_mem_drop hp

end Iu9Db
