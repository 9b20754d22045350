import Iu9Db.ConcurrentSwap
import Iu9Db.MergeReads
import Iu9Db.Recovery
import Iu9Db.Lib.Pending

/-!
# `TriggerSwapToPersistentStorage` and the tables it leads to

Handlers run their operation, ask for `Size` and then try to acquire the guard; jobs and restarts take
their statements in between. Between `Size` and `TryAcquire` a whole job can run, and the next one
then collects a table without a row. `neverPastEnd_of_reachableBy`: as long as the table to be
collected has a row whenever the guard is acquired, and an offset of it gets to the index file, every
table of the collection has one, and no merge goes past an end.
-/

namespace Iu9Db

open StorageSystem Transition

/-! ### Disks whose tables have records -/

namespace Disk

/-- Every table file has a record. -/
def Filled (d : Disk) : Prop := ∀ f entries, d.data f = some entries → entries ≠ []

variable {d d' : Disk}

theorem Filled.congr (h : d.Filled) (hdata : d'.data = d.data) : d'.Filled := by
  unfold Filled
  rw [hdata]
  exact h

theorem Filled.newWalWriter (h : d.Filled) {created : Result Unit} {r : Result FileId}
    (hnew : Iu9Db.newWalWriter created d = (r, d')) : d'.Filled := by
  unfold Iu9Db.newWalWriter at hnew
  cases created <;> cases hnew <;> exact h.congr rfl

/-- The index file has an offset, or is no index. -/
def HasOffset (io : StorageIO) : Prop := io.written ≠ .indexCut (some 0)

instance (io : StorageIO) : Decidable (HasOffset io) := inferInstanceAs (Decidable (_ ≠ _))

theorem ne_nil_of_left {written : Written} (hw : written ≠ .indexCut (some 0)) {data rows : List StorageEntry}
    (hdata : data ≠ []) (h : written.left data = some rows) : rows ≠ [] := by
  cases written with
  | whole => cases h; exact hdata
  | indexCut offsets =>
    obtain ⟨n, rfl, rfl⟩ := Option.map_eq_some_iff.1 h
    intro hnil
    rcases List.take_eq_nil_iff.1 hnil with rfl | hempty
    · exact hw rfl
    · exact hdata hempty
  | dataCut => cases h

theorem Filled.newPersistentStorage (h : d.Filled) {io : StorageIO} {data : List StorageEntry}
    (hdata : data ≠ []) (hoffset : HasOffset io) {r : Result PersistentStorage}
    (hnew : Iu9Db.newPersistentStorage io data d = (r, d')) :
    d'.Filled ∧ ∀ s, r = .ok s → s.entries ≠ [] := by
  have hsorted := insertionSort_ne_nil hdata
  refine ⟨?_, fun s hs => ?_⟩
  · have hcases := data_newPersistentStorage io data d
    rw [hnew] at hcases
    rcases hcases with he | he
    · exact h.congr he
    · intro f entries hf
      rw [he] at hf
      by_cases hfn : f = d.nextFile
      · subst hfn
        rw [Function.update_self] at hf
        exact ne_nil_of_left hoffset hsorted hf
      · rw [Function.update_of_ne hfn] at hf
        exact h f entries hf
  · have hcases := (newPersistentStorage_cases io data d).2.2.2.2 s (by rw [hnew, hs])
    rw [hcases.1]
    exact hsorted

theorem Filled.appendMetadata (h : d.Filled) {io : AppendIO} {storage : PersistentStorage} {f : MetadataFile}
    {r : Result Unit} (happ : Iu9Db.appendMetadata io storage d f = (r, d')) : d'.Filled := by
  have hframe := (appendMetadata_frame io storage d f).2.1
  rw [happ] at hframe
  exact h.congr hframe

theorem Filled.removeFile (h : d.Filled) (path : FileId) : (d.setData path none).Filled := by
  intro f entries hf
  by_cases hfp : f = path
  · subst hfp
    rw [setData_data, Function.update_self] at hf
    cases hf
  · rw [setData_data, Function.update_of_ne hfp] at hf
    exact h f entries hf

theorem Filled.readCollection (h : d.Filled) : PersistentStorageCollection.Filled ⟨readCollection d⟩ := by
  intro s hs
  unfold Iu9Db.readCollection at hs
  split at hs
  · cases hs
  · obtain ⟨f, -, hf⟩ := List.mem_filterMap.1 hs
    unfold loadPersistentStorage at hf
    cases hdata : d.data f with
    | none => rw [hdata] at hf; cases hf
    | some entries =>
      rw [hdata] at hf
      cases hf
      exact h f entries hdata

end Disk

/-! ### A merge of tables has a record -/

theorem mergeLoop_ne_nil : ∀ (fuel : Nat) (queue : List IteratorPair) (data out : List StorageEntry),
    data ≠ [] → mergeLoop fuel queue data = some out → out ≠ []
  | 0, _, _, _, hne, h => by cases h; exact hne
  | fuel + 1, queue, data, out, hne, h => by
    unfold mergeLoop at h
    split at h
    · cases h; exact hne
    · split at h
      · cases h
      · rename_i value cur hrest
        set data' := if data.getLast?.any (fun back => back.key = value.key) = true then data
          else data ++ [value] with hdata'
        have hne' : data' ≠ [] := by
          rw [hdata']
          split
          · exact hne
          · simp
        split at h <;> exact mergeLoop_ne_nil fuel _ data' out hne' h

theorem mergeEntries_ne_nil {storages : List PersistentStorage} {data : List StorageEntry}
    (hne : storages ≠ []) (h : mergeEntries storages = some data) : data ≠ [] := by
  have hqueue : startQueue storages ≠ [] := by simpa [startQueue] using hne
  obtain ⟨fuel, hfuel⟩ : ∃ fuel, ((startQueue storages).map fun p => p.rest.length).sum +
      (startQueue storages).length = fuel + 1 :=
    Nat.exists_eq_succ_of_ne_zero (by have := List.length_pos_iff.2 hqueue; omega)
  unfold mergeEntries at h
  simp only [hfuel] at h
  unfold mergeLoop at h
  split at h
  · rename_i hpop
    exact absurd (PriorityQueue.popTop_eq_none.1 hpop) hqueue
  · split at h
    · cases h
    · simp only [List.getLast?_nil, Option.any_none, List.nil_append] at h
      split at h <;> exact mergeLoop_ne_nil fuel _ _ data (by simp) h

/-! ### One job -/

/-- What a job has in hand has a row or a record. -/
def PcFilled (storage : SwappableMemoryStorage) : SwapJob → Prop
  | .start | .walCreated _ _ | .walSwapped _ | .writerExchanged _ _ | .writersWaited _ =>
    (storage.tables storage.readerSecond).size ≠ 0
  | .collected _ data => data ≠ []
  | .created _ persistent | .listed _ persistent => persistent.entries ≠ []
  | .merged newStorage | .newListed newStorage | .renamed newStorage _ => newStorage.entries ≠ []
  | _ => True

/-- A table that the next statement writes has an offset. -/
def WritesOffset (io : SwapJobIO) : SwapJob → Prop
  | .collected _ _ => Disk.HasOffset io.table
  | .walRemoved => Disk.HasOffset io.mergeTable
  | _ => True

instance decidableWritesOffset (io : SwapJobIO) : ∀ pc, Decidable (WritesOffset io pc)
  | .collected _ _ => inferInstanceAs (Decidable (Disk.HasOffset io.table))
  | .walRemoved => inferInstanceAs (Decidable (Disk.HasOffset io.mergeTable))
  | .start | .walCreated _ _ | .walSwapped _ | .writerExchanged _ _ | .writersWaited _ | .created _ _
  | .listed _ _ | .added _ | .secondExchanged _ | .collectedRemoved _ | .merged _ | .newListed _
  | .renamed _ _ | .swapped _ | .done => isTrue trivial

/-- The tables on disk and in the collection have records. -/
structure TablesFilled (s : StorageSystem) : Prop where
  disk : s.disk.Filled
  collection : s.persistentStorage.Filled

section job
variable {io : SwapJobIO} {pc pc' : SwapJob} {s s' : StorageSystem}

theorem TablesFilled.merge (h : TablesFilled s) {mergeIo : StorageIO} (hoffset : Disk.HasOffset mergeIo)
    {r : Result PersistentStorage} {d : Disk}
    (hm : mergeData mergeIo s.persistentStorage s.disk = some (r, d))
    (hsize : ¬ s.persistentStorage.size ≤ kCompactionThreshold) :
    d.Filled ∧ ∀ storage, r = .ok storage → storage.entries ≠ [] := by
  obtain ⟨data, hdata, hnew⟩ := Option.map_eq_some_iff.1 hm
  have hne : s.persistentStorage.collection ≠ [] := by
    intro hnil
    rw [PersistentStorageCollection.size, hnil] at hsize
    exact hsize (Nat.zero_le _)
  exact h.disk.newPersistentStorage (mergeEntries_ne_nil hne hdata) hoffset hnew

theorem TablesFilled.setDisk {d : Disk} (h : TablesFilled s) (hd : d.Filled) :
    TablesFilled { s with disk := d } :=
  ⟨hd, h.collection⟩

theorem size_of_merge {newStorage : PersistentStorage}
    (hs : SwapJob.step io .walRemoved s = some (.merged newStorage, s')) :
    ¬ s.persistentStorage.size ≤ kCompactionThreshold := by
  intro hle
  simp only [SwapJob.step, if_pos hle] at hs
  cases hs

theorem filled_step (h : TablesFilled s) (hpc : PcFilled s.storage pc) (hoffset : WritesOffset io pc)
    (hs : SwapJob.step io pc s = some (pc', s')) : TablesFilled s' ∧ PcFilled s'.storage pc' := by
  have hremoved : (s.disk.setMetadata .new none).Filled := h.disk.congr rfl
  cases SwapJob.step_cases hs with
  | newWalFails hnew => exact ⟨h.setDisk (h.disk.newWalWriter hnew), trivial⟩
  | newWal hnew => exact ⟨h.setDisk (h.disk.newWalWriter hnew), hpc⟩
  | swapWal | exchangeWriter => exact ⟨⟨h.disk, h.collection⟩, hpc⟩
  | waitWriters _ => exact ⟨h, hpc⟩
  | copySecond => exact ⟨h, fun hnil => hpc (MapStorage.toEntries_eq_nil.1 hnil)⟩
  | tableFails hnew => exact ⟨h.setDisk (h.disk.newPersistentStorage hpc hoffset hnew).1, trivial⟩
  | table hnew =>
    obtain ⟨hdisk, htable⟩ := h.disk.newPersistentStorage hpc hoffset hnew
    exact ⟨h.setDisk hdisk, htable _ rfl⟩
  | appendFails happ => exact ⟨h.setDisk (h.disk.appendMetadata happ), trivial⟩
  | append happ => exact ⟨h.setDisk (h.disk.appendMetadata happ), hpc⟩
  | add => exact ⟨⟨h.disk, h.collection.concat hpc⟩, trivial⟩
  | exchangeSecond | storeFirst | removeWal => exact ⟨⟨h.disk, h.collection⟩, trivial⟩
  | few _ | filesRemoved => exact ⟨h, trivial⟩
  | mergeFails hm =>
    by_cases hsize : s.persistentStorage.size ≤ kCompactionThreshold
    · simp only [SwapJob.step, if_pos hsize] at hs
      have hsame : s = { s with disk := _ } := congrArg Prod.snd (Option.some.inj hs)
      exact ⟨hsame ▸ h, trivial⟩
    · exact ⟨h.setDisk (h.merge hoffset hm hsize).1, trivial⟩
  | merge hm =>
    obtain ⟨hdisk, htable⟩ := h.merge hoffset hm (size_of_merge hs)
    exact ⟨h.setDisk hdisk, htable _ rfl⟩
  | appendNewFails happ => exact ⟨h.setDisk (hremoved.appendMetadata happ), trivial⟩
  | appendNew happ => exact ⟨h.setDisk (hremoved.appendMetadata happ), hpc⟩
  | rename => exact ⟨h.setDisk (h.disk.congr rfl), hpc⟩
  | swapCollection =>
    refine ⟨⟨h.disk, fun st hst => ?_⟩, trivial⟩
    rw [List.mem_singleton.1 hst]
    exact hpc
  | removeFile => exact ⟨h.setDisk (h.disk.removeFile _), trivial⟩

end job

/-! ### Operations beside a job -/

section
variable {s s' : StorageSystem}

/-- Memory has only got more rows, and nothing else has changed that a job looks at. -/
structure Grows (s s' : StorageSystem) : Prop where
  data : s'.disk.data = s.disk.data
  persistentStorage : s'.persistentStorage = s.persistentStorage
  readerSecond : s'.storage.readerSecond = s.storage.readerSecond
  rows : ∀ t, (s.storage.tables t).size ≠ 0 → (s'.storage.tables t).size ≠ 0

theorem Grows.rfl : Grows s s := ⟨.refl _, .refl _, .refl _, fun _ h => h⟩

theorem TablesFilled.grows (h : TablesFilled s) (hg : Grows s s') : TablesFilled s' :=
  ⟨h.disk.congr hg.data, hg.persistentStorage ▸ h.collection⟩

theorem PcFilled.grows {pc : SwapJob} (h : PcFilled s.storage pc) (hg : Grows s s') :
    PcFilled s'.storage pc := by
  cases pc with
  | start | walCreated _ _ | walSwapped _ | writerExchanged _ _ | writersWaited _ =>
    have h : (s.storage.tables s.storage.readerSecond).size ≠ 0 := h
    show (s'.storage.tables s'.storage.readerSecond).size ≠ 0
    rw [hg.readerSecond]
    exact hg.rows _ h
  | _ => exact h

theorem size_ne_zero {table : MapStorage} {k : Str} {v : Value} (h : table.find k = some v) :
    table.size ≠ 0 := by
  intro h0
  rw [MapStorage.eq_empty_of_size h0, MapStorage.find_empty] at h
  cases h

theorem size_applyTo (w : Write) (table : MapStorage) : (w.applyTo table).size ≠ 0 :=
  size_ne_zero (k := w.key) (v := w.value) (by rw [Write.find_applyTo, if_pos rfl])

theorem grows_opStep {w : Write} {pc pc' : OpPc} (h : opStep w pc s = some (pc', s')) : Grows s s' where
  data := by
    rcases disk_opStep h with he | ⟨-, -, he⟩ <;> rw [he]
    rfl
  persistentStorage := (sameRoles_opStep h).persistentStorage
  readerSecond := (sameRoles_opStep h).readerSecond
  rows t ht := by
    rcases tables_opStep h with ⟨-, he⟩ | ⟨_, ptr, -, -, he⟩
    · rw [he]; exact ht
    · rw [he]
      by_cases htp : t = (s.storage.counters ptr).ptr
      · subst htp
        rw [Function.update_self]
        exact size_applyTo w _
      · rw [Function.update_of_ne htp]
        exact ht

end

/-! ### Recovery -/

section recovery
variable {io : RecoveryIO} {threshold : Nat} {r : Recovering} {d d' : Disk}

theorem filled_initializeFrom {file : FileId} {res : Result Recovering} (hd : d.Filled)
    (hoffset : Disk.HasOffset (io.table file)) (hc : r.persistentCollection.Filled)
    (hs : initializeFrom io threshold file r d = some (res, d')) :
    d'.Filled ∧ ∀ r', res = .ok r' → r'.persistentCollection.Filled := by
  unfold initializeFrom at hs
  split at hs
  · cases hs; exact ⟨hd, fun _ h => by cases h⟩
  · split at hs
    · rename_i storage version _ _
      split at hs
      · rename_i hlarge
        have hne : storage.toEntries ≠ [] := fun hnil => by
          have := MapStorage.toEntries_eq_nil.1 hnil
          omega
        split at hs
        · rename_i e d₁ hnew
          cases hs
          exact ⟨(hd.newPersistentStorage hne hoffset hnew).1, fun _ h => by cases h⟩
        · rename_i persistent d₁ hnew
          obtain ⟨hd₁, htable⟩ := hd.newPersistentStorage hne hoffset hnew
          unfold PersistentStorageCollection.add at hs
          cases happ : appendMetadata (io.append file) persistent d₁ with
          | mk res₁ d₂ =>
            have hd₂ := hd₁.appendMetadata happ
            rw [happ] at hs
            cases res₁ with
            | error e => cases hs; exact ⟨hd₂, fun _ h => by cases h⟩
            | ok u =>
              simp only at hs
              split at hs <;> cases hs
              exact ⟨hd₂.congr rfl, fun _ h => by cases h; exact hc.concat (htable _ rfl)⟩
      · split at hs <;> cases hs
        · exact ⟨hd, fun _ h => by cases h⟩
        · exact ⟨hd, fun _ h => by cases h; exact hc⟩
    · cases hs

theorem filled_initializeLoop {files : List FileId} {res : Result Recovering} (hd : d.Filled)
    (hoffset : ∀ file ∈ files, Disk.HasOffset (io.table file)) (hc : r.persistentCollection.Filled)
    (hs : initializeLoop io threshold files r d = some (res, d')) :
    d'.Filled ∧ ∀ r', res = .ok r' → r'.persistentCollection.Filled := by
  induction files generalizing r d with
  | nil => cases hs; exact ⟨hd, fun _ h => by cases h; exact hc⟩
  | cons file files ih =>
    unfold initializeLoop at hs
    split at hs
    · rename_i r₁ d₁ hfrom
      obtain ⟨hd₁, hc₁⟩ := filled_initializeFrom hd (hoffset file List.mem_cons_self) hc hfrom
      exact ih hd₁ (fun f hf => hoffset f (List.mem_cons_of_mem _ hf)) (hc₁ r₁ rfl) hs
    · exact filled_initializeFrom hd (hoffset file List.mem_cons_self) hc hs

/-- Every table that a start writes has an offset. -/
def RecoversOffsets (io : RecoveryIO) : Prop :=
  ∀ files ∈ io.search.toOption, ∀ file ∈ files, Disk.HasOffset (io.table file)

instance (io : RecoveryIO) : Decidable (RecoversOffsets io) :=
  inferInstanceAs (Decidable (∀ files ∈ io.search.toOption, ∀ file ∈ files, Disk.HasOffset (io.table file)))

theorem mem_of_searchWalFiles {search : Except Str (List FileId)} {files : List FileId}
    (h : searchWalFiles search = .ok files) : files ∈ search.toOption := by
  cases search with
  | ok files' => cases h; rfl
  | error what => cases h

/-- A start leaves a filled disk, and serves tables that have records. -/
theorem filled_initializeStorages {res : Result Initialized} (hd : d.Filled) (hoffset : RecoversOffsets io)
    (hs : initializeStorages io threshold d = some (res, d')) :
    d'.Filled ∧ ∀ init, res = .ok init → init.persistentCollection.Filled := by
  unfold initializeStorages at hs
  split at hs
  · cases hs; exact ⟨hd, fun _ h => by cases h⟩
  · rename_i files hsearch
    have hfiles : ∀ file ∈ files, Disk.HasOffset (io.table file) :=
      hoffset files (mem_of_searchWalFiles hsearch)
    split at hs
    · cases hs
    · rename_i e d₁ hloop
      cases hs
      exact ⟨(filled_initializeLoop hd hfiles hd.readCollection hloop).1, fun _ h => by cases h⟩
    · rename_i r d₁ hloop
      obtain ⟨hd₁, hc₁⟩ := filled_initializeLoop hd hfiles hd.readCollection hloop
      split at hs
      · cases hs
        exact ⟨hd₁, fun _ h => by cases h; exact hc₁ r rfl⟩
      · unfold newSwappableWalWriter at hs
        cases hnew : newWalWriter io.newWal d₁ with
        | mk res₁ d₂ =>
          have hd₂ := hd₁.newWalWriter hnew
          rw [hnew] at hs
          cases res₁ <;> cases hs
          · exact ⟨hd₂, fun _ h => by cases h⟩
          · exact ⟨hd₂, fun _ h => by cases h; exact hc₁ r rfl⟩

end recovery

/-! ### The node -/

namespace FilledTables

/-- Where a handler stands: in its operation, in `Size` on the table of a counter, behind the check. -/
inductive HandlerPc
  | op (pc : OpPc)
  | sizeLoaded (ptr : CounterId)
  | sizeCounted (ptr : CounterId)
  | sizeRead (ptr : CounterId) (size : Nat)
  | passed
  | finished
deriving DecidableEq

structure Handler where
  write : Write
  pc : HandlerPc
deriving DecidableEq

/-- The engine, the flag of the guard, the handlers and the jobs that were spawned. A node whose start has
failed is not up. -/
structure State where
  isUp : Bool
  system : StorageSystem
  isJobRunning : Bool
  handlers : List Handler
  jobs : List SwapJob

inductive Label
  | begin (w : Write)
  | handler (i : Nat)
  | logFails (i : Nat)
  | job (i : Nat) (io : SwapJobIO)
  | release (i : Nat)
  | restart (io : RecoveryIO) (threshold : Nat)

/-- Only `Insert` triggers the job. -/
def triggers : Write → Bool
  | .insert _ => true
  | .remove _ _ => false

/-- The next statement of a handler, up to the guard. -/
def handlerStep (w : Write) : HandlerPc → StorageSystem → Option (HandlerPc × StorageSystem)
  | .op pc, s =>
    match opStep w pc s with
    | some (pc, s) => some (.op pc, s)
    | none => some (if triggers w then .sizeLoaded s.storage.writer else .finished, s)
  | .sizeLoaded ptr, s => some (.sizeCounted ptr, { s with storage := s.storage.add ptr })
  | .sizeCounted ptr, s => some (.sizeRead ptr (s.storage.tables (s.storage.counters ptr).ptr).size, s)
  | .sizeRead ptr size, s =>
    some (if size < kThreshold then .finished else .passed, { s with storage := s.storage.release ptr })
  | .passed, _ | .finished, _ => none

/-- `TryAcquire` sets the flag and tells whether it was clear; the handler that found it clear spawns the
job. A restart may come at any time. -/
def step (s : State) : Label → Option State
  | .begin w => if s.isUp then some { s with handlers := s.handlers ++ [⟨w, .op .start⟩] } else none
  | .handler i => (s.handlers[i]?).bind fun h =>
    if h.pc = .passed then
      some { s with
        isJobRunning := true
        handlers := s.handlers.set i ⟨h.write, .finished⟩
        jobs := if s.isJobRunning then s.jobs else s.jobs ++ [.start] }
    else (handlerStep h.write h.pc s.system).map fun next => { s with
      system := next.2
      handlers := s.handlers.set i ⟨h.write, next.1⟩ }
  | .logFails i => (s.handlers[i]?).bind fun h =>
    if h.pc = .op .checked then some { s with handlers := s.handlers.set i ⟨h.write, .finished⟩ } else none
  | .job i io => (s.jobs[i]?).bind fun job => (SwapJob.step io job s.system).map fun next => { s with
      system := next.2
      jobs := s.jobs.set i next.1 }
  | .release i =>
    if s.jobs[i]? = some .done then some { s with isJobRunning := false, jobs := s.jobs.eraseIdx i } else none
  | .restart io threshold =>
    match initializeStorages io threshold s.system.disk with
    | some (.ok init, d) => some ⟨true, init.storageSystem d, false, [], []⟩
    | some (.error _, d) => some ⟨false, { StorageSystem.new with disk := d }, false, [], []⟩
    | none => none

def init (s : State) : Prop := s = ⟨true, .new, false, [], []⟩

def system : System State Label := ofFun init step

/-- Every table of the collection has a record, and a merge does not go past an end, whatever its reads do. -/
def NeverPastEnd (s : State) : Prop :=
  s.system.persistentStorage.Filled ∧
    ∀ reads, (readEntries s.system.persistentStorage.collection reads).isSome

/-- When the guard is acquired the table that the job will collect has a row; and of a table that is
written not all offsets are lost. -/
def Ok (s : State) : Label → Prop
  | .handler i => ∀ h ∈ s.handlers[i]?, h.pc = .passed → s.isJobRunning = false →
    (s.system.storage.tables s.system.storage.readerSecond).size ≠ 0
  | .job i io => ∀ job ∈ s.jobs[i]?, WritesOffset io job
  | .restart io _ => RecoversOffsets io
  | _ => True

structure Inv (s : State) : Prop where
  tables : TablesFilled s.system
  pc : ∀ job ∈ s.jobs, PcFilled s.system.storage job
  guard : s.jobs = [] ∧ s.isJobRunning = false ∨ s.jobs.length = 1 ∧ s.isJobRunning = true

theorem grows_handlerStep {w : Write} {pc pc' : HandlerPc} {s s' : StorageSystem}
    (h : handlerStep w pc s = some (pc', s')) : Grows s s' := by
  cases pc with
  | op pc =>
    simp only [handlerStep] at h
    split at h
    · rename_i hop
      cases h
      exact grows_opStep hop
    · cases h; exact .rfl
  | sizeLoaded ptr | sizeCounted ptr | sizeRead ptr size => cases h; exact ⟨rfl, rfl, rfl, fun _ ht => ht⟩
  | passed | finished => cases h

/-! ### The invariant -/

section
variable {s s' : State} {a : Label}

theorem Inv.grows (hi : Inv s) {system : StorageSystem} (hg : Grows s.system system)
    (handlers : List Handler) : Inv { s with system := system, handlers := handlers } :=
  ⟨hi.tables.grows hg, fun job hjob => (hi.pc job hjob).grows hg, hi.guard⟩

theorem Inv.fresh {isUp : Bool} {system : StorageSystem} (h : TablesFilled system) :
    Inv ⟨isUp, system, false, [], []⟩ :=
  ⟨h, fun _ hjob => absurd hjob List.not_mem_nil, .inl ⟨rfl, rfl⟩⟩

theorem Inv.eq_of_mem (hi : Inv s) {i : Nat} {job : SwapJob} (hjob : s.jobs[i]? = some job) :
    i = 0 ∧ s.jobs = [job] ∧ s.isJobRunning = true := by
  rcases hi.guard with ⟨hnil, -⟩ | ⟨hlen, hrunning⟩
  · rw [hnil] at hjob; cases hjob
  · obtain ⟨job', hjobs⟩ := List.length_eq_one_iff.1 hlen
    rw [hjobs] at hjob
    cases i with
    | zero => cases hjob; exact ⟨rfl, hjobs, hrunning⟩
    | succ i => cases hjob

theorem Inv.acquire (hi : Inv s) (i : Nat) {h : Handler}
    (hrow : s.isJobRunning = false → (s.system.storage.tables s.system.storage.readerSecond).size ≠ 0) :
    Inv { s with
      isJobRunning := true
      handlers := s.handlers.set i ⟨h.write, .finished⟩
      jobs := if s.isJobRunning then s.jobs else s.jobs ++ [.start] } := by
  rcases hi.guard with ⟨hnil, hclear⟩ | ⟨hlen, hset⟩
  · refine ⟨hi.tables, fun job hjob => ?_, .inr ⟨by simp [hnil, hclear], rfl⟩⟩
    have hjob : job ∈ ([.start] : List SwapJob) := by simpa [hnil, hclear] using hjob
    rw [List.mem_singleton.1 hjob]
    exact hrow hclear
  · simp only [hset, if_true]
    exact ⟨hi.tables, hi.pc, .inr ⟨hlen, rfl⟩⟩

theorem inv_step (hi : Inv s) (hok : Ok s a) (hs : step s a = some s') : Inv s' := by
  cases a with
  | begin w =>
    obtain ⟨-, hs⟩ := Option.ite_none_right_eq_some.1 hs
    cases hs
    exact hi.grows .rfl _
  | handler i =>
    obtain ⟨h, hh, hs⟩ := Option.bind_eq_some_iff.1 hs
    split at hs
    · rename_i hpc
      cases hs
      exact hi.acquire i (hok h hh hpc)
    · obtain ⟨next, hstep, rfl⟩ := Option.map_eq_some_iff.1 hs
      exact hi.grows (grows_handlerStep hstep) _
  | logFails i =>
    obtain ⟨h, -, hs⟩ := Option.bind_eq_some_iff.1 hs
    obtain ⟨-, hs⟩ := Option.ite_none_right_eq_some.1 hs
    cases hs
    exact hi.grows .rfl _
  | job i io =>
    obtain ⟨job, hjob, hs⟩ := Option.bind_eq_some_iff.1 hs
    obtain ⟨next, hstep, rfl⟩ := Option.map_eq_some_iff.1 hs
    obtain ⟨rfl, hjobs, hrunning⟩ := hi.eq_of_mem hjob
    obtain ⟨htables, hpc⟩ := filled_step hi.tables (hi.pc job (by simp [hjobs])) (hok job hjob) hstep
    refine ⟨htables, fun job' hjob' => ?_, .inr ⟨by simp [hjobs], hrunning⟩⟩
    have hjob' : job' ∈ [next.1] := by simpa [hjobs] using hjob'
    rw [List.mem_singleton.1 hjob']
    exact hpc
  | release i =>
    obtain ⟨hdone, hs⟩ := Option.ite_none_right_eq_some.1 hs
    cases hs
    obtain ⟨rfl, hjobs, -⟩ := hi.eq_of_mem hdone
    refine ⟨hi.tables, fun job hjob => ?_, .inl ⟨by simp [hjobs], rfl⟩⟩
    simp [hjobs] at hjob
  | restart io threshold =>
    simp only [step] at hs
    split at hs
    · rename_i init d hinit
      cases hs
      obtain ⟨hd, hc⟩ := filled_initializeStorages hi.tables.disk hok hinit
      exact .fresh ⟨hd, hc init rfl⟩
    · rename_i e d hinit
      cases hs
      exact .fresh ⟨(filled_initializeStorages hi.tables.disk hok hinit).1,
        fun _ hst => absurd hst List.not_mem_nil⟩
    · cases hs

theorem inv_init (hs : init s) : Inv s := by
  subst hs
  exact .fresh ⟨fun f entries hf => (by cases hf), fun _ hst => absurd hst List.not_mem_nil⟩

end

/-- **The merge never reads past an end**, in runs in which the table to be collected has a row whenever
the guard is acquired, and no index file loses all its offsets unnoticed. -/
theorem neverPastEnd_of_reachableBy {s : State} (h : system.ReachableBy Ok s) : NeverPastEnd s := by
  have hi := h.invariant (I := Inv) (fun _ => inv_init) fun _ _ _ hi hok hs => inv_step hi hok hs
  exact ⟨hi.tables.collection, readEntries_isSome hi.tables.collection⟩

/-! ### Runs -/

instance decidableOk : ∀ s a, Decidable (Ok s a)
  | s, .handler i =>
    inferInstanceAs (Decidable (∀ h ∈ s.handlers[i]?, h.pc = .passed → s.isJobRunning = false →
    (s.system.storage.tables s.system.storage.readerSecond).size ≠ 0))
  | s, .job i io => inferInstanceAs (Decidable (∀ job ∈ s.jobs[i]?, WritesOffset io job))
  | _, .restart io _ => inferInstanceAs (Decidable (RecoversOffsets io))
  | _, .begin _ | _, .logFails _ | _, .release _ => isTrue trivial

/-- Five handlers have inserted a row each. -/
def fill : List Label :=
  (List.range 5).flatMap fun i => .begin (.insert ⟨[UInt8.ofNat i], [0], 1⟩) :: List.replicate 12 (.handler i)

/-- The last one finds five rows and acquires the guard. -/
def checkedRun : List Label :=
  List.flatten [fill, List.replicate 5 (.handler 4), List.replicate 12 (.job 0 .succeeds), [.release 0]]

/-- The last two find five rows; one acquires the guard when the job of the other is done. -/
def staleRun : List Label :=
  List.flatten [fill, List.replicate 4 (.handler 3), List.replicate 4 (.handler 4), [.handler 3],
    List.replicate 12 (.job 0 .succeeds), [.release 0, .handler 4], List.replicate 8 (.job 0 .succeeds)]

theorem neverPastEnd_checkedRun :
    ∃ s, s.system.persistentStorage.collection.map (fun st => st.entries.length) = [5] ∧ NeverPastEnd s := by
  obtain ⟨s, hs⟩ : ∃ s, execBy Ok step ⟨true, .new, false, [], []⟩ checkedRun = some s :=
    Option.isSome_iff_exists.1 (by decide +kernel)
  have hinit : system.ReachableBy Ok ⟨true, .new, false, [], []⟩ := .init rfl
  obtain ⟨hexec, hreach⟩ := reachableBy_execBy hinit hs
  exact ⟨s, eq_of_map_exec hexec
    (f := fun s => s.system.persistentStorage.collection.map fun st => st.entries.length) (by decide +kernel),
    neverPastEnd_of_reachableBy hreach⟩

/-- The second job lists a table without a record. -/
theorem not_neverPastEnd : ¬ ∀ s, system.Reachable s → NeverPastEnd s := by
  intro h
  obtain ⟨s, hs⟩ : ∃ s, exec step ⟨true, .new, false, [], []⟩ staleRun = some s :=
    Option.isSome_iff_exists.1 (by decide +kernel)
  have htables : (s.system.persistentStorage.collection.map fun st => st.entries.length) = [5, 0] :=
    eq_of_map_exec hs (f := fun s => s.system.persistentStorage.collection.map fun st => st.entries.length)
      (by decide +kernel)
  have hfilled := (h s (reachable_exec (.init rfl) hs)).1
  have hmem : 0 ∈ s.system.persistentStorage.collection.map fun st => st.entries.length := by simp [htables]
  obtain ⟨st, hst, hlen⟩ := List.mem_map.1 hmem
  exact hfilled st hst (List.length_eq_zero_iff.1 hlen)

end FilledTables

end Iu9Db
