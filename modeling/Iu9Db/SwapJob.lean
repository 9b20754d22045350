import Iu9Db.StorageSystem

/-!
# `SwapToPersistentStorage`

The job that moves the rows of the older memory table to disk: as one function
(`swapToPersistentStorage`) and as the sequence of its statements (`SwapJob.step`), for the models in
which something else happens in between. `steps_swapToPersistentStorage`: what the function returns
is where the statements lead.
-/

namespace Iu9Db

/-- The outcomes of the system calls of one job. -/
structure SwapJobIO where
  newWal : Result Unit
  table : StorageIO
  append : AppendIO
  mergeTable : StorageIO
  mergeAppend : AppendIO

/-- Nothing fails. -/
def SwapJobIO.succeeds : SwapJobIO := ⟨.ok (), .succeeds, .ok, .succeeds, .ok⟩

/-- Nothing that the job writes is lost without an error. -/
structure SwapJobIO.Reports (io : SwapJobIO) : Prop where
  table : io.table.written = .whole
  append : ∀ left, io.append ≠ .flushFails left
  mergeTable : io.mergeTable.written = .whole
  mergeAppend : ∀ left, io.mergeAppend ≠ .flushFails left

theorem SwapJobIO.reports_succeeds (newWal : Result Unit) :
    Reports ⟨newWal, .succeeds, .ok, .succeeds, .ok⟩ where
  table := rfl
  append _ h := by cases h
  mergeTable := rfl
  mergeAppend _ h := by cases h

namespace StorageSystem

/-- `SwappableWalWriterImpl::Swap`: appends go to a new file; the callback removes the old one. -/
def swapWal (created : Result Unit) (s : StorageSystem) : Result FileId × StorageSystem :=
  match newWalWriter created s.disk with
  | (.error e, d) => (.error (wrapError e (text "failed to create new WAL file")), { s with disk := d })
  | (.ok file, d) => (.ok s.walWriter, { s with disk := d, walWriter := file })

/-- `Controller::SwapToPersistentStorage`. -/
def swapToPersistentStorage (io : SwapJobIO) (s : StorageSystem) : Option StorageSystem :=
  match s.swapWal io.newWal with
  | (.error _, s) => some s
  | (.ok path, s) =>
    let (storage, data) := s.storage.collect
    let s := { s with storage := storage }
    match newPersistentStorage io.table data s.disk with
    | (.error _, d) => some { s with disk := d }
    | (.ok persistent, d) =>
      match s.persistentStorage.add io.append persistent d with
      | (.error _, c, d) => some { s with persistentStorage := c, disk := d }
      | (.ok _, c, d) =>
        let s := { s with
          storage := s.storage.removeCollected, persistentStorage := c, disk := removeWal path d }
        (runCompaction io.mergeTable io.mergeAppend s.persistentStorage s.disk).map fun cd =>
          { s with persistentStorage := cd.1, disk := cd.2 }

/-- `kThreshold` of `controller.cpp`. -/
def kThreshold : Nat := 5

/-- `Controller::TriggerSwapToPersistentStorage`, when no job is running and the guard is free. -/
def triggerSwapToPersistentStorage (io : SwapJobIO) (s : StorageSystem) : Option StorageSystem :=
  if s.storage.size < kThreshold then some s else s.swapToPersistentStorage io

end StorageSystem

/-- Where a job stands, with the values of its local variables. -/
inductive SwapJob
  | start
  | walCreated (file path : FileId)
  | walSwapped (path : FileId)
  | writerExchanged (path : FileId) (oldWriter : CounterId)
  | writersWaited (path : FileId)
  | collected (path : FileId) (data : List StorageEntry)
  | created (path : FileId) (persistent : PersistentStorage)
  | listed (path : FileId) (persistent : PersistentStorage)
  | added (path : FileId)
  | secondExchanged (path : FileId)
  | collectedRemoved (path : FileId)
  | walRemoved
  | merged (newStorage : PersistentStorage)
  | newListed (newStorage : PersistentStorage)
  | renamed (newStorage : PersistentStorage) (toDelete : List FileId)
  | swapped (toDelete : List FileId)
  | done
deriving DecidableEq, Repr

namespace SwapJob

/-- The next statement. There is none at the end, while `Collect` waits for a writer, and for a merge
that dereferences an iterator at its end. -/
def step (io : SwapJobIO) : SwapJob → StorageSystem → Option (SwapJob × StorageSystem)
  | start, s =>
    match newWalWriter io.newWal s.disk with
    | (.error _, d) => some (done, { s with disk := d })
    | (.ok file, d) => some (walCreated file s.walWriter, { s with disk := d })
  | walCreated file path, s => some (walSwapped path, { s with walWriter := file })
  | walSwapped path, s =>
    some (writerExchanged path s.storage.writer, { s with storage := s.storage.exchangeWriter })
  | writerExchanged path oldWriter, s =>
    if (s.storage.counters oldWriter).referenceCount = 0 then some (writersWaited path, s) else none
  | writersWaited path, s => some (collected path s.storage.copySecond, s)
  | collected path data, s =>
    match newPersistentStorage io.table data s.disk with
    | (.error _, d) => some (done, { s with disk := d })
    | (.ok persistent, d) => some (created path persistent, { s with disk := d })
  | created path persistent, s =>
    match appendMetadata io.append persistent s.disk with
    | (.error _, d) => some (done, { s with disk := d })
    | (.ok _, d) => some (listed path persistent, { s with disk := d })
  | listed path persistent, s =>
    some (added path, { s with persistentStorage := ⟨s.persistentStorage.collection ++ [persistent]⟩ })
  | added path, s => some (secondExchanged path, { s with storage := s.storage.exchangeSecond })
  | secondExchanged path, s => some (collectedRemoved path, { s with storage := s.storage.storeFirst })
  | collectedRemoved path, s => some (walRemoved, { s with disk := removeWal path s.disk })
  | walRemoved, s =>
    if s.persistentStorage.size ≤ kCompactionThreshold then some (done, s)
    else match mergeData io.mergeTable s.persistentStorage s.disk with
      | none => none
      | some (.error _, d) => some (done, { s with disk := d })
      | some (.ok newStorage, d) => some (merged newStorage, { s with disk := d })
  | merged newStorage, s =>
    match appendMetadata io.mergeAppend newStorage (s.disk.setMetadata .new none) .new with
    | (.error _, d) => some (done, { s with disk := d })
    | (.ok _, d) => some (newListed newStorage, { s with disk := d })
  | newListed newStorage, s =>
    some (renamed newStorage (s.persistentStorage.collection.map PersistentStorage.path),
      { s with disk := (s.disk.setMetadata .main (s.disk.metadata .new)).setMetadata .new none })
  | renamed newStorage toDelete, s => some (swapped toDelete, { s with persistentStorage := ⟨[newStorage]⟩ })
  | swapped [], s => some (done, s)
  | swapped (path :: toDelete), s => some (swapped toDelete, { s with disk := s.disk.setData path none })
  | done, _ => none

/-- What one statement does: one case for each statement and each way it can end. -/
inductive Step (io : SwapJobIO) (s : StorageSystem) : SwapJob → SwapJob → StorageSystem → Prop
  | newWalFails {e d} (h : newWalWriter io.newWal s.disk = (.error e,
    d)) : Step io s start done { s with disk := d }
  | newWal {file d} (h : newWalWriter io.newWal s.disk = (.ok file, d)) :
      Step io s start (walCreated file s.walWriter) { s with disk := d }
  | swapWal {file path} : Step io s (walCreated file path) (walSwapped path) { s with walWriter := file }
  | exchangeWriter {path} : Step io s (walSwapped path) (writerExchanged path s.storage.writer)
      { s with storage := s.storage.exchangeWriter }
  | waitWriters {path oldWriter} (h : (s.storage.counters oldWriter).referenceCount = 0) :
      Step io s (writerExchanged path oldWriter) (writersWaited path) s
  | copySecond {path} : Step io s (writersWaited path) (collected path s.storage.copySecond) s
  | tableFails {path data e d} (h : newPersistentStorage io.table data s.disk = (.error e, d)) :
      Step io s (collected path data) done { s with disk := d }
  | table {path data persistent d} (h : newPersistentStorage io.table data s.disk = (.ok persistent, d)) :
      Step io s (collected path data) (created path persistent) { s with disk := d }
  | appendFails {path persistent e d} (h : appendMetadata io.append persistent s.disk = (.error e, d)) :
      Step io s (created path persistent) done { s with disk := d }
  | append {path persistent u d} (h : appendMetadata io.append persistent s.disk = (.ok u, d)) :
      Step io s (created path persistent) (listed path persistent) { s with disk := d }
  | add {path persistent} : Step io s (listed path persistent) (added path)
      { s with persistentStorage := ⟨s.persistentStorage.collection ++ [persistent]⟩ }
  | exchangeSecond {path} : Step io s (added path) (secondExchanged path)
      { s with storage := s.storage.exchangeSecond }
  | storeFirst {path} : Step io s (secondExchanged path) (collectedRemoved path)
      { s with storage := s.storage.storeFirst }
  | removeWal {path} : Step io s
    (collectedRemoved path) walRemoved { s with disk := Iu9Db.removeWal path s.disk }
  | few (h : s.persistentStorage.size ≤ kCompactionThreshold) : Step io s walRemoved done s
  | mergeFails {e d} (h : mergeData io.mergeTable s.persistentStorage s.disk = some (.error e, d)) :
      Step io s walRemoved done { s with disk := d }
  | merge {newStorage d} (h : mergeData io.mergeTable s.persistentStorage s.disk = some (.ok newStorage, d)) :
      Step io s walRemoved (merged newStorage) { s with disk := d }
  | appendNewFails {newStorage e d}
      (h : appendMetadata io.mergeAppend newStorage (s.disk.setMetadata .new none) .new = (.error e, d)) :
      Step io s (merged newStorage) done { s with disk := d }
  | appendNew {newStorage u d}
      (h : appendMetadata io.mergeAppend newStorage (s.disk.setMetadata .new none) .new = (.ok u, d)) :
      Step io s (merged newStorage) (newListed newStorage) { s with disk := d }
  | rename {newStorage} : Step io s (newListed newStorage)
      (renamed newStorage (s.persistentStorage.collection.map PersistentStorage.path))
      { s with disk := (s.disk.setMetadata .main (s.disk.metadata .new)).setMetadata .new none }
  | swapCollection {newStorage toDelete} : Step io s (renamed newStorage toDelete) (swapped toDelete)
      { s with persistentStorage := ⟨[newStorage]⟩ }
  | filesRemoved : Step io s (swapped []) done s
  | removeFile {path toDelete} : Step io s (swapped (path :: toDelete)) (swapped toDelete)
      { s with disk := s.disk.setData path none }

theorem step_cases {io : SwapJobIO} {pc pc' : SwapJob} {s s' : StorageSystem}
    (h : step io pc s = some (pc', s')) : Step io s pc pc' s' := by
  cases pc with
  | start =>
    simp only [step] at h
    split at h <;> cases h
    · exact .newWalFails ‹_›
    · exact .newWal ‹_›
  | walCreated file path => cases h; exact .swapWal
  | walSwapped path => cases h; exact .exchangeWriter
  | writerExchanged path oldWriter =>
    simp only [step] at h
    split at h <;> cases h
    exact .waitWriters ‹_›
  | writersWaited path => cases h; exact .copySecond
  | collected path data =>
    simp only [step] at h
    split at h <;> cases h
    · exact .tableFails ‹_›
    · exact .table ‹_›
  | created path persistent =>
    simp only [step] at h
    split at h <;> cases h
    · exact .appendFails ‹_›
    · exact .append ‹_›
  | listed path persistent => cases h; exact .add
  | added path => cases h; exact .exchangeSecond
  | secondExchanged path => cases h; exact .storeFirst
  | collectedRemoved path => cases h; exact .removeWal
  | walRemoved =>
    simp only [step] at h
    split at h
    · cases h; exact .few ‹_›
    · split at h <;> cases h
      · exact .mergeFails ‹_›
      · exact .merge ‹_›
  | merged newStorage =>
    simp only [step] at h
    split at h <;> cases h
    · exact .appendNewFails ‹_›
    · exact .appendNew ‹_›
  | newListed newStorage => cases h; exact .rename
  | renamed newStorage toDelete => cases h; exact .swapCollection
  | swapped toDelete =>
    cases toDelete with
    | nil => cases h; exact .filesRemoved
    | cons path toDelete => cases h; exact .removeFile
  | done => cases h

/-- Statement after statement. -/
abbrev Steps (io : SwapJobIO) : SwapJob × StorageSystem → SwapJob × StorageSystem → Prop :=
  Relation.ReflTransGen fun a b => step io a.1 a.2 = some b

section
variable {io : SwapJobIO} {s s' : StorageSystem}

theorem Steps.cons {pc pc' : SwapJob} {b : SwapJob × StorageSystem} (h : step io pc s = some (pc', s'))
    (hs : Steps io (pc', s') b) : Steps io (pc, s) b :=
  .head h hs

theorem steps_swapped (toDelete : List FileId) (s : StorageSystem) :
    Steps io (swapped toDelete, s)
      (done, { s with disk := PersistentStorageCollection.removeFiles toDelete s.disk }) := by
  induction toDelete generalizing s with
  | nil => exact .single rfl
  | cons path toDelete ih => exact .cons rfl (ih { s with disk := s.disk.setData path none })

theorem steps_runCompaction {c : PersistentStorageCollection} {d : Disk}
    (h : runCompaction io.mergeTable io.mergeAppend s.persistentStorage s.disk = some (c, d)) :
    Steps io (walRemoved, s) (done, { s with persistentStorage := c, disk := d }) := by
  unfold runCompaction at h
  split at h
  · rename_i hsize
    cases h
    exact .single (by simp only [step, if_pos hsize])
  · rename_i hsize
    cases hm : mergeData io.mergeTable s.persistentStorage s.disk with
    | none => rw [hm] at h; cases h
    | some rd =>
      obtain ⟨r, d₁⟩ := rd
      cases r with
      | error e =>
        rw [hm] at h
        cases h
        exact .single (by simp only [step, if_neg hsize, hm])
      | ok newStorage =>
        rw [hm] at h
        have hfirst : step io walRemoved s = some (merged newStorage, { s with disk := d₁ }) := by
          simp only [step, if_neg hsize, hm]
        refine .cons hfirst ?_
        simp only [Option.bind_eq_bind, Option.bind_some, PersistentStorageCollection.swapWith] at h
        cases ha : appendMetadata io.mergeAppend newStorage (d₁.setMetadata .new none) .new with
        | mk r d₂ =>
          rw [ha] at h
          cases r with
          | error e =>
            cases h
            exact .single (by simp only [step, ha])
          | ok u =>
            cases h
            have hsecond : step io (merged newStorage) { s with disk := d₁ } =
                some (newListed newStorage, { s with disk := d₂ }) := by
              simp only [step, ha]
            exact .cons hsecond (.cons rfl (.cons rfl (steps_swapped _ { s with
              persistentStorage := ⟨[newStorage]⟩
              disk := (d₂.setMetadata .main (d₂.metadata .new)).setMetadata .new none })))

/-- **The statements of a job lead to what the function returns**, when no writer is under way. -/
theorem steps_swapToPersistentStorage (hcount : (s.storage.counters s.storage.writer).referenceCount = 0)
    (hlt : s.storage.writer < s.storage.nextCounter) (h : s.swapToPersistentStorage io = some s') :
    Steps io (start, s) (done, s') := by
  unfold StorageSystem.swapToPersistentStorage StorageSystem.swapWal at h
  cases hw : newWalWriter io.newWal s.disk with
  | mk r d =>
    rw [hw] at h
    cases r with
    | error e =>
      cases h
      exact .single (by simp only [step, hw])
    | ok file =>
      have hcreated : step io start s = some (walCreated file s.walWriter, { s with disk := d }) := by
        simp only [step, hw]
      let s₁ : StorageSystem := { s with
        disk := d
        walWriter := file
        storage := s.storage.exchangeWriter }
      have hwait : (s₁.storage.counters s.storage.writer).referenceCount = 0 := by
        simp only [s₁, SwappableMemoryStorage.exchangeWriter, Function.update_of_ne (ne_of_lt hlt), hcount]
      have hwaited : step io (writerExchanged s.walWriter s.storage.writer) s₁ =
          some (writersWaited s.walWriter, s₁) := if_pos hwait
      refine .cons hcreated (.cons rfl (.cons rfl (.cons hwaited (.cons rfl ?_))))
      simp only [SwappableMemoryStorage.collect] at h
      cases ht : newPersistentStorage io.table s.storage.exchangeWriter.copySecond d with
      | mk r d₁ =>
        rw [ht] at h
        cases r with
        | error e =>
          cases h
          exact .single (by simp only [step, s₁, ht])
        | ok persistent =>
          have htable : step io (collected s.walWriter s.storage.exchangeWriter.copySecond) s₁ =
              some (created s.walWriter persistent, { s₁ with disk := d₁ }) := by
            simp only [step, s₁, ht]
          refine .cons htable ?_
          simp only [PersistentStorageCollection.add] at h
          cases ha : appendMetadata io.append persistent d₁ with
          | mk r d₂ =>
            rw [ha] at h
            cases r with
            | error e =>
              cases h
              exact .single (by simp only [step, s₁, ha])
            | ok u =>
              have hlisted : step io (created s.walWriter persistent) { s₁ with disk := d₁ } =
                  some (listed s.walWriter persistent, { s₁ with disk := d₂ }) := by
                simp only [step, ha]
              refine .cons hlisted (.cons rfl (.cons rfl (.cons rfl (.cons rfl ?_))))
              obtain ⟨⟨c, d⟩, hc, rfl⟩ := Option.map_eq_some_iff.1 h
              exact steps_runCompaction (s := { s₁ with
                storage := s₁.storage.exchangeSecond.storeFirst
                persistentStorage := ⟨s.persistentStorage.collection ++ [persistent]⟩
                disk := removeWal s.walWriter d₂ }) hc

/-- A job rotates the memory tables, stops half-way, or leaves them if there is no new WAL file. -/
theorem storage_swapToPersistentStorage (h : s.swapToPersistentStorage io = some s') :
    s'.storage = s.storage ∨ s'.storage = s.storage.exchangeWriter ∨
      s'.storage = s.storage.exchangeWriter.removeCollected := by
  unfold StorageSystem.swapToPersistentStorage at h
  cases hw : s.swapWal io.newWal with
  | mk r s₁ =>
    have hstorage : s₁.storage = s.storage := by
      rw [show s₁ = (s.swapWal io.newWal).2 by rw [hw], StorageSystem.swapWal]
      split <;> rfl
    rw [hw] at h
    cases r with
    | error e =>
      cases h
      exact .inl hstorage
    | ok path =>
      simp only [SwappableMemoryStorage.collect, hstorage] at h
      split at h
      · cases h
        exact .inr (.inl rfl)
      · split at h
        · cases h
          exact .inr (.inl rfl)
        · obtain ⟨cd, -, rfl⟩ := Option.map_eq_some_iff.1 h
          exact .inr (.inr rfl)

/-- No writer is under way after a job either. -/
theorem count_swapToPersistentStorage (hcount : (s.storage.counters s.storage.writer).referenceCount = 0)
    (h : s.swapToPersistentStorage io = some s') :
    (s'.storage.counters s'.storage.writer).referenceCount = 0 := by
  rcases storage_swapToPersistentStorage h with he | he | he <;> rw [he]
  · exact hcount
  · simp [SwappableMemoryStorage.exchangeWriter]
  · simp [SwappableMemoryStorage.exchangeWriter, SwappableMemoryStorage.removeCollected,
      SwappableMemoryStorage.exchangeSecond, SwappableMemoryStorage.storeFirst]

end

end SwapJob

end Iu9Db
