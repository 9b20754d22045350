import Iu9Db.Layers

/-!
# The files of a job

`WalFiles`: the WAL that is written to exists, and no name is given out twice; every statement keeps
this (`walFiles_step`). `Files`: every table of the collection is on disk as it is in memory, and
listed. `filesAt_step` keeps that together with the log records of what no listed table answers for
yet. A statement may break it in two ways, and both are hypotheses here: `remove_callback` removes a WAL
file whose records nothing else holds, or a failed write of `persistent.metadata` drops a name.
-/

namespace Iu9Db

/-- The table is on disk as it is in memory. -/
structure OnDisk (storage : PersistentStorage) (d : Disk) : Prop where
  data : d.data storage.path = some storage.entries
  lt : storage.path < d.nextFile

/-- The file that a job has created, or the one it is going to remove, is not the other of the two. -/
def PcWal : SwapJob → StorageSystem → Prop
  | .walCreated file path, s => (∃ l, s.disk.wal file = some l) ∧ file ≠ path
  | .walSwapped path, s | .writerExchanged path _, s | .writersWaited path, s | .collected path _, s
  | .created path _, s | .listed path _, s | .added path, s | .secondExchanged path, s
  | .collectedRemoved path, s => s.walWriter ≠ path
  | _, _ => True

structure WalFiles (pc : SwapJob) (s : StorageSystem) : Prop where
  walWriter : ∃ l, s.disk.wal s.walWriter = some l
  lt : ∀ f l, s.disk.wal f = some l → f < s.disk.nextFile
  pc : PcWal pc s

structure Files (s : StorageSystem) : Prop where
  onDisk : ∀ storage ∈ s.persistentStorage.collection, OnDisk storage s.disk
  listed : ∀ storage ∈ s.persistentStorage.collection, s.disk.Listed storage.path

/-- The records of the operations are in WAL files that exist. -/
def AllLogged (ops : List Write) (d : Disk) : Prop := ∀ w ∈ ops, d.Logged w

/-- And they are so without the file `path`. -/
def LoggedOutside (path : FileId) (ops : List Write) (d : Disk) : Prop :=
  ∀ w ∈ ops, ∃ f l, f ≠ path ∧ d.wal f = some l ∧ w.record ∈ l

/-- What is known about the files at each statement. -/
def PcFiles (io : SwapJobIO) (h : History) : SwapJob → StorageSystem → Prop
  | .start, s => io.newWal.isOk = true → io.table.isOk = true → io.append.isOk = true →
      LoggedOutside s.walWriter h.recent s.disk
  | .walCreated _ path, s | .walSwapped path, s | .writerExchanged path _, s | .writersWaited path, s
  | .collected path _, s =>
      io.table.isOk = true → io.append.isOk = true → LoggedOutside path h.recent s.disk
  | .created path persistent, s => OnDisk persistent s.disk ∧
      (io.append.isOk = true → LoggedOutside path h.recent s.disk)
  | .listed path persistent, s => OnDisk persistent s.disk ∧ s.disk.Listed persistent.path ∧
      LoggedOutside path h.recent s.disk
  | .added path, s | .secondExchanged path, s => LoggedOutside path h.recent s.disk
  | .collectedRemoved path, s => LoggedOutside path (h.mid ++ h.recent) s.disk
  | .merged newStorage, s => OnDisk newStorage s.disk ∧
      newStorage.path ∉ s.persistentStorage.collection.map PersistentStorage.path
  | .newListed newStorage, s => OnDisk newStorage s.disk ∧
      newStorage.path ∉ s.persistentStorage.collection.map PersistentStorage.path ∧
      ∃ paths, s.disk.metadata .new = some paths ∧ newStorage.path ∈ paths ∧
        ∀ path, s.disk.Listed path → path ∈ paths
  | .renamed newStorage toDelete, s => OnDisk newStorage s.disk ∧ s.disk.Listed newStorage.path ∧
      newStorage.path ∉ toDelete
  | .swapped toDelete, s => ∀ storage ∈ s.persistentStorage.collection, storage.path ∉ toDelete
  | .walRemoved, _ | .done, _ => True

structure FilesAt (io : SwapJobIO) (h : History) (pc : SwapJob) (s : StorageSystem) : Prop where
  files : Files s
  logged : AllLogged (h.mid ++ h.recent) s.disk
  pc : PcFiles io h pc s

/-- The names that are listed, and the new one if no error is reported, are in what a failed write leaves. -/
def AppendIO.KeepsListed (metadata : List FileId) (path : FileId) : AppendIO → Prop
  | .writeFails left => ∀ p ∈ metadata, ∃ paths ∈ left, p ∈ paths
  | .flushFails left => ∃ r ∈ left, ∀ p ∈ metadata ++ [path], p ∈ r.names (metadata ++ [path])
  | _ => True

/-- What the next statement writes of a table and reports to be there is there, and what it writes of
the metadata keeps the names. A write of `persistent.metadata.new` that is reported to fail does no
harm. -/
def LosesNothing (io : SwapJobIO) (d : Disk) : SwapJob → Prop
  | .collected _ _ => io.table.isOk = true → io.table.written = .whole
  | .created _ persistent => io.append.KeepsListed ((d.metadata .main).getD []) persistent.path
  | .walRemoved => io.mergeTable.isOk = true → io.mergeTable.written = .whole
  | .merged newStorage => io.mergeAppend.isOk = true →
      io.mergeAppend.KeepsListed ((d.metadata .main).getD []) newStorage.path
  | _ => True

instance (metadata : List FileId) (path : FileId) (io : AppendIO) :
    Decidable (io.KeepsListed metadata path) := by
  unfold AppendIO.KeepsListed
  split <;> infer_instance

instance (io : SwapJobIO) (d : Disk) (pc : SwapJob) : Decidable (LosesNothing io d pc) := by
  unfold LosesNothing
  split <;> infer_instance

section
variable {io : SwapJobIO} {h : History} {s s' : StorageSystem} {d d' : Disk} {ops : List Write}

/-! ### Frames -/

theorem OnDisk.mono {storage : PersistentStorage} (ho : OnDisk storage d)
    (hdata : ∀ f, f < d.nextFile → d'.data f = d.data f) (hnext : d.nextFile ≤ d'.nextFile) :
    OnDisk storage d' :=
  ⟨(hdata _ ho.lt).trans ho.data, ho.lt.trans_le hnext⟩

/-- A change of the disk that keeps the tables so far and what is listed. -/
theorem Files.setDisk (hf : Files s) (hdata : ∀ f, f < s.disk.nextFile → d.data f = s.disk.data f)
    (hlisted : ∀ path, s.disk.Listed path → d.Listed path) (hnext : s.disk.nextFile ≤ d.nextFile) :
    Files { s with disk := d } where
  onDisk storage hs := (hf.onDisk storage hs).mono hdata hnext
  listed storage hs := hlisted _ (hf.listed storage hs)

theorem AllLogged.mono (hl : AllLogged ops d) (hwal : ∀ f l, d.wal f = some l → d'.wal f = some l) :
    AllLogged ops d' := by
  intro w hw
  obtain ⟨f, l, hfl, hmem⟩ := hl w hw
  exact ⟨f, l, hwal f l hfl, hmem⟩

theorem LoggedOutside.mono {path : FileId} (hl : LoggedOutside path ops d)
    (hwal : ∀ f l, d.wal f = some l → d'.wal f = some l) : LoggedOutside path ops d' := by
  intro w hw
  obtain ⟨f, l, hne, hfl, hmem⟩ := hl w hw
  exact ⟨f, l, hne, hwal f l hfl, hmem⟩

theorem AllLogged.of_wal (hl : AllLogged ops d) (hwal : d'.wal = d.wal) : AllLogged ops d' :=
  hl.mono fun f _ h => (congrFun hwal f).trans h

theorem LoggedOutside.of_wal {path : FileId} (hl : LoggedOutside path ops d) (hwal : d'.wal = d.wal) :
    LoggedOutside path ops d' :=
  hl.mono fun f _ h => (congrFun hwal f).trans h

/-- Log records stay when a file is removed that they can do without. -/
theorem LoggedOutside.removeWal {path : FileId} (hl : LoggedOutside path ops d) :
    AllLogged ops (removeWal path d) := by
  intro w hw
  obtain ⟨f, l, hne, hfl, hmem⟩ := hl w hw
  exact ⟨f, l, by rw [Iu9Db.removeWal, Disk.setWal_wal, Function.update_of_ne hne, hfl], hmem⟩

theorem wal_newWal (hlt : ∀ f l, d.wal f = some l → f < d.nextFile) :
    ∀ f l, d.wal f = some l → (d.takeName.setWal d.nextFile (some [])).wal f = some l := by
  intro f l hl
  rw [Disk.setWal_wal, Disk.takeName_wal, Function.update_of_ne (ne_of_lt (hlt f l hl)), hl]

theorem Files.newPersistentStorage (hf : Files s) {tio : StorageIO} {data : List StorageEntry}
    {r : Result PersistentStorage} (hnew : newPersistentStorage tio data s.disk = (r, d)) :
    Files { s with disk := d } := by
  obtain ⟨-, hmeta, hnext, hdata, -⟩ := newPersistentStorage_cases tio data s.disk
  rw [hnew] at hmeta hnext hdata
  refine hf.setDisk (fun f hlt => hdata f (ne_of_lt hlt)) (fun path hl => ?_) (hnext ▸ Nat.le_succ _)
  rwa [Disk.Listed, hmeta]

theorem wal_newPersistentStorage {tio : StorageIO} {data : List StorageEntry} {r : Result PersistentStorage}
    (hnew : newPersistentStorage tio data d = (r, d')) : d'.wal = d.wal ∧ d'.nextFile = d.nextFile + 1 := by
  obtain ⟨hwal, -, hnext, -⟩ := newPersistentStorage_cases tio data d
  rw [hnew] at hwal hnext
  exact ⟨hwal, hnext⟩

theorem onDisk_newPersistentStorage {tio : StorageIO} {data : List StorageEntry}
    {persistent : PersistentStorage} (hwhole : tio.isOk = true → tio.written = .whole)
    (hnew : newPersistentStorage tio data d = (.ok persistent, d')) :
    OnDisk persistent d' ∧ persistent.path = d.nextFile := by
  obtain ⟨-, -, hnext, -, hok⟩ := newPersistentStorage_cases tio data d
  have hisOk := isOk_newPersistentStorage tio data d
  rw [hnew] at hok hnext hisOk
  obtain ⟨rfl, hdata⟩ := hok persistent rfl
  rw [hwhole hisOk.symm] at hdata
  exact ⟨⟨hdata, hnext ▸ Nat.lt_succ_self _⟩, rfl⟩

/-- What is written of a list that is reported to be written has all its names. -/
theorem AppendIO.KeepsListed.written {aio : AppendIO} {metadata : List FileId} {path : FileId}
    (hk : aio.KeepsListed metadata path) (hok : aio.isOk = true) :
    ∃ paths, aio.written (metadata ++ [path]) = some paths ∧ ∀ p ∈ metadata ++ [path], p ∈ paths := by
  cases aio with
  | openFails e | writeFails left => cases hok
  | flushFails left =>
    obtain ⟨r, rfl, hall⟩ := hk
    exact ⟨_, rfl, hall⟩
  | ok => exact ⟨_, rfl, fun _ hp => hp⟩

theorem mem_getD_of_listed {path : FileId} (hl : d.Listed path) : path ∈ (d.metadata .main).getD [] := by
  obtain ⟨paths, hpaths, hmem⟩ := hl
  rwa [hpaths]

theorem listed_appendMetadata {aio : AppendIO} {storage : PersistentStorage}
    (hk : aio.KeepsListed ((d.metadata .main).getD []) storage.path) :
    (∀ path, d.Listed path → (appendMetadata aio storage d).2.Listed path) ∧
    (aio.isOk = true → (appendMetadata aio storage d).2.Listed storage.path) := by
  have hwritten (hok : aio.isOk = true) : ∀ path ∈ (d.metadata .main).getD [] ++ [storage.path],
      (appendMetadata aio storage d).2.Listed path := by
    intro path hpath
    obtain ⟨paths, hpaths, hall⟩ := hk.written hok
    have hres : (appendMetadata aio storage d).1 = .ok () := by
      have hisOk := (isOk_appendMetadata aio storage d .main).trans hok
      cases hr : (appendMetadata aio storage d).1 with
      | ok u => rfl
      | error e => rw [hr] at hisOk; cases hisOk
    exact ⟨paths, (appendMetadata_ok aio storage d .main hres).trans hpaths, hall path hpath⟩
  refine ⟨fun path hl => ?_, fun hok => hwritten hok _ (by simp)⟩
  cases aio with
  | openFails e => exact hl
  | writeFails left =>
    obtain ⟨paths, rfl, hmem⟩ := hk path (mem_getD_of_listed hl)
    exact ⟨paths, by simp [appendMetadata], hmem⟩
  | flushFails left => exact hwritten rfl path (List.mem_append_left _ (mem_getD_of_listed hl))
  | ok => exact hwritten rfl path (List.mem_append_left _ (mem_getD_of_listed hl))

theorem Files.appendMetadata (hf : Files s) {aio : AppendIO} {storage : PersistentStorage}
    (hk : aio.KeepsListed ((s.disk.metadata .main).getD []) storage.path) :
    Files { s with disk := (appendMetadata aio storage s.disk).2 } := by
  obtain ⟨-, hdata, hnext, -⟩ := appendMetadata_frame aio storage s.disk .main
  exact hf.setDisk (fun f _ => by rw [hdata]) (listed_appendMetadata hk).1 hnext.ge

/-- Writing `persistent.metadata.new` is not seen by a reader of the main file. -/
theorem Files.appendNew (hf : Files s) (aio : AppendIO) (storage : PersistentStorage) :
    Files { s with disk := (Iu9Db.appendMetadata aio storage (s.disk.setMetadata .new none) .new).2 } := by
  obtain ⟨-, hdata, hnext, hmeta⟩ := appendMetadata_frame aio storage (s.disk.setMetadata .new none) .new
  refine hf.setDisk (fun f _ => by rw [hdata]; rfl) (fun path ⟨paths, hp, hmem⟩ => ⟨paths, ?_, hmem⟩) hnext.ge
  have hne : MetadataFile.main ≠ .new := by simp
  rw [hmeta .main hne, Disk.setMetadata_metadata, Function.update_of_ne hne, hp]

theorem Files.rename (hf : Files s) {paths : List FileId} (hnew : s.disk.metadata .new = some paths)
    (hall : ∀ path, s.disk.Listed path → path ∈ paths) :
    Files { s with disk := (s.disk.setMetadata .main (s.disk.metadata .new)).setMetadata .new none } ∧
    ∀ path ∈ paths, ((s.disk.setMetadata .main
      (s.disk.metadata .new)).setMetadata .new none).Listed path := by
  have hmain : ((s.disk.setMetadata .main (s.disk.metadata .new)).setMetadata .new none).metadata .main =
      some paths := by
    simp [hnew]
  exact ⟨hf.setDisk (fun _ _ => rfl) (fun path hl => ⟨paths, hmain, hall path hl⟩) le_rfl,
    fun path hmem => ⟨paths, hmain, hmem⟩⟩

theorem Files.removeData (hf : Files s) {path : FileId}
    (hne : ∀ storage ∈ s.persistentStorage.collection, storage.path ≠ path) :
    Files { s with disk := s.disk.setData path none } where
  onDisk storage hs := by
    have ho := hf.onDisk storage hs
    exact ⟨by rw [Disk.setData_data, Function.update_of_ne (hne storage hs), ho.data], ho.lt⟩
  listed := hf.listed

/-! ### One statement -/

theorem WalFiles.setDisk {pc pc' : SwapJob} (hw : WalFiles pc s) (hwal : d.wal = s.disk.wal)
    (hnext : s.disk.nextFile ≤ d.nextFile) (hpc : PcWal pc' s) : WalFiles pc' { s with disk := d } := by
  refine ⟨hwal ▸ hw.walWriter, fun f l hl => (hw.lt f l (hwal ▸ hl)).trans_le hnext, ?_⟩
  cases pc' <;> first | exact hpc | exact ⟨hwal ▸ hpc.1, hpc.2⟩

/-- Appending to one file keeps the records of all. -/
theorem mem_wal_append {f g : FileId} {entry r : WalEntry} (hr : ∃ l, d.wal f = some l ∧ r ∈ l) :
    ∃ l, (d.setWal g ((d.wal g).map fun l => l ++ [entry])).wal f = some l ∧ r ∈ l := by
  obtain ⟨l, hl, hmem⟩ := hr
  by_cases hf : f = g
  · subst hf
    exact ⟨l ++ [entry], by simp [hl], by simp [hmem]⟩
  · exact ⟨l, by rw [Disk.setWal_wal, Function.update_of_ne hf, hl], hmem⟩

/-- A state with the same writer and no file less. -/
theorem WalFiles.of_wal {pc : SwapJob} (hw : WalFiles pc s) (hwriter : s'.walWriter = s.walWriter)
    (hex : ∀ f, (∃ l, s.disk.wal f = some l) → ∃ l, s'.disk.wal f = some l)
    (hlt : ∀ f l, s'.disk.wal f = some l → f < s'.disk.nextFile) : WalFiles pc s' := by
  refine ⟨hwriter ▸ hex _ hw.walWriter, hlt, ?_⟩
  have hpc := hw.pc
  cases pc <;> simp only [PcWal, hwriter] at hpc ⊢ <;> first | exact hpc | exact ⟨hex _ hpc.1, hpc.2⟩

theorem WalFiles.congr {pc : SwapJob} (hw : WalFiles pc s) (hwriter : s'.walWriter = s.walWriter)
    (hdisk : s'.disk = s.disk) : WalFiles pc s' :=
  hw.of_wal hwriter (fun _ h => hdisk ▸ h) fun f l h => by rw [hdisk] at h ⊢; exact hw.lt f l h

theorem WalFiles.append {pc : SwapJob} (hw : WalFiles pc s) {e : WalEntry}
    (hwriter : s'.walWriter = s.walWriter)
    (hdisk : s'.disk = s.disk.setWal s.walWriter ((s.disk.wal s.walWriter).map fun l => l ++ [e])) :
    WalFiles pc s' := by
  refine hw.of_wal hwriter (fun f ⟨l, hl⟩ => ?_) fun f m hm => ?_
  · rw [hdisk]
    by_cases hf : f = s.walWriter
    · subst hf
      exact ⟨l ++ [e], by simp [hl]⟩
    · exact ⟨l, by rw [Disk.setWal_wal, Function.update_of_ne hf, hl]⟩
  · rw [hdisk] at hm ⊢
    obtain ⟨l, hwal⟩ := hw.walWriter
    by_cases hf : f = s.walWriter
    · subst hf; exact hw.lt _ l hwal
    · rw [Disk.setWal_wal, Function.update_of_ne hf] at hm
      exact hw.lt f m hm

theorem walFiles_new : WalFiles .start .new := by
  refine ⟨⟨[], rfl⟩, fun f l hl => ?_, trivial⟩
  by_cases hf : f = 0
  · subst hf
    exact Nat.zero_lt_one
  · have hnone : StorageSystem.new.disk.wal f = none := Function.update_of_ne hf _ _
    rw [hnone] at hl
    cases hl

/-- **Every statement of a job keeps the WAL files.** -/
theorem walFiles_step {pc pc' : SwapJob} (hw : WalFiles pc s) (hs : SwapJob.step io pc s = some (pc', s')) :
    WalFiles pc' s' := by
  obtain ⟨⟨l, hwal⟩, hlt, hpc⟩ := id hw
  cases SwapJob.step_cases hs with
  | newWalFails hnew =>
    rw [(newWalWriter_error hnew).1]
    exact hw.setDisk rfl (Nat.le_succ _) trivial
  | newWal hnew =>
    obtain ⟨-, rfl, rfl⟩ := newWalWriter_ok hnew
    refine ⟨⟨l, wal_newWal hlt _ l hwal⟩, fun f m hm => ?_, ⟨[], by simp⟩, (ne_of_lt (hlt _ l hwal)).symm⟩
    rw [Disk.setWal_nextFile, Disk.takeName_nextFile]
    by_cases he : f = s.disk.nextFile
    · exact he ▸ Nat.lt_succ_self _
    · rw [Disk.setWal_wal, Disk.takeName_wal, Function.update_of_ne he] at hm
      exact Nat.lt_succ_of_lt (hlt f m hm)
  | swapWal => exact ⟨hpc.1, hlt, hpc.2⟩
  | exchangeWriter | waitWriters _ | copySecond | add | exchangeSecond | storeFirst =>
    exact ⟨⟨l, hwal⟩, hlt, hpc⟩
  | tableFails hnew =>
    obtain ⟨hwal', hnext⟩ := wal_newPersistentStorage hnew
    exact hw.setDisk hwal' (hnext ▸ Nat.le_succ _) trivial
  | table hnew =>
    obtain ⟨hwal', hnext⟩ := wal_newPersistentStorage hnew
    exact hw.setDisk hwal' (hnext ▸ Nat.le_succ _) hpc
  | appendFails happ =>
    obtain ⟨hwal', -, hnext, -⟩ := appendMetadata_frame io.append _ s.disk .main
    rw [happ] at hwal' hnext
    exact hw.setDisk hwal' hnext.ge trivial
  | append happ =>
    obtain ⟨hwal', -, hnext, -⟩ := appendMetadata_frame io.append _ s.disk .main
    rw [happ] at hwal' hnext
    exact hw.setDisk hwal' hnext.ge hpc
  | @removeWal path =>
    refine ⟨⟨l, by rw [removeWal, Disk.setWal_wal, Function.update_of_ne hpc, hwal]⟩, fun f m hm => ?_,
      trivial⟩
    by_cases he : f = path
    · subst he
      simp [removeWal] at hm
    · rw [removeWal, Disk.setWal_wal, Function.update_of_ne he] at hm
      exact hlt f m hm
  | few _ | swapCollection | filesRemoved => exact ⟨⟨l, hwal⟩, hlt, trivial⟩
  | mergeFails hm =>
    obtain ⟨data, -, hnew⟩ := Option.map_eq_some_iff.1 hm
    obtain ⟨hwal', hnext⟩ := wal_newPersistentStorage hnew
    exact hw.setDisk hwal' (hnext ▸ Nat.le_succ _) trivial
  | merge hm =>
    obtain ⟨data, -, hnew⟩ := Option.map_eq_some_iff.1 hm
    obtain ⟨hwal', hnext⟩ := wal_newPersistentStorage hnew
    exact hw.setDisk hwal' (hnext ▸ Nat.le_succ _) trivial
  | appendNewFails happ | appendNew happ =>
    obtain ⟨hwal', -, hnext, -⟩ := appendMetadata_frame io.mergeAppend _ (s.disk.setMetadata .new none) .new
    rw [happ] at hwal' hnext
    exact hw.setDisk hwal' hnext.ge trivial
  | rename | removeFile => exact hw.setDisk rfl le_rfl trivial

/-- **Every statement of a job keeps the tables and the records they do not cover**, if it loses
nothing. -/
theorem filesAt_step {pc pc' : SwapJob} (hf : FilesAt io h pc s) (hw : WalFiles pc s)
    (hk : LosesNothing io s.disk pc) (hs : SwapJob.step io pc s = some (pc', s')) :
    FilesAt io (h.next pc) pc' s' := by
  obtain ⟨hfiles, hlog, hpc⟩ := hf
  cases SwapJob.step_cases hs with
  | newWalFails hnew =>
    rw [(newWalWriter_error hnew).1]
    exact ⟨hfiles.setDisk (fun _ _ => rfl) (fun _ h => h) (Nat.le_succ _), hlog, trivial⟩
  | newWal hnew =>
    obtain ⟨hio, rfl, rfl⟩ := newWalWriter_ok hnew
    refine ⟨hfiles.setDisk (fun _ _ => rfl) (fun _ h => h) (Nat.le_succ _), hlog.mono (wal_newWal hw.lt),
      fun ht ha => ?_⟩
    exact (hpc hio ht ha).mono (wal_newWal hw.lt)
  | swapWal | exchangeWriter | exchangeSecond => exact ⟨⟨hfiles.onDisk, hfiles.listed⟩, hlog, hpc⟩
  | waitWriters _ | copySecond => exact ⟨hfiles, hlog, hpc⟩
  | tableFails hnew =>
    exact ⟨hfiles.newPersistentStorage hnew, hlog.of_wal (wal_newPersistentStorage hnew).1, trivial⟩
  | @table path data persistent d hnew =>
    have hok := isOk_newPersistentStorage io.table data s.disk
    obtain ⟨hwal, -⟩ := wal_newPersistentStorage hnew
    rw [hnew] at hok
    exact ⟨hfiles.newPersistentStorage hnew, hlog.of_wal hwal, (onDisk_newPersistentStorage hk hnew).1,
      fun ha => (hpc hok.symm ha).of_wal hwal⟩
  | @appendFails path persistent e d happ =>
    have hfiles' := hfiles.appendMetadata hk
    have hwal := (appendMetadata_frame io.append persistent s.disk .main).1
    rw [happ] at hfiles' hwal
    exact ⟨hfiles', hlog.of_wal hwal, trivial⟩
  | @append path persistent u d happ =>
    have hfiles' := hfiles.appendMetadata hk
    have hlisted := (listed_appendMetadata hk).2
    have hok := isOk_appendMetadata io.append persistent s.disk .main
    obtain ⟨hwal, hdata, hnext, -⟩ := appendMetadata_frame io.append persistent s.disk .main
    rw [happ] at hfiles' hlisted hwal hdata hnext hok
    exact ⟨hfiles', hlog.of_wal hwal, hpc.1.mono (fun f _ => by rw [hdata]) hnext.ge, hlisted hok.symm,
      (hpc.2 hok.symm).of_wal hwal⟩
  | add =>
    obtain ⟨hon, hlisted, hout⟩ := hpc
    refine ⟨⟨fun st hst => ?_, fun st hst => ?_⟩, hlog, hout⟩ <;> rcases List.mem_append.1 hst with hst | hst
    · exact hfiles.onDisk st hst
    · rw [List.mem_singleton.1 hst]; exact hon
    · exact hfiles.listed st hst
    · rw [List.mem_singleton.1 hst]; exact hlisted
  | @storeFirst path =>
    refine ⟨⟨hfiles.onDisk, hfiles.listed⟩, fun w hw => ?_, ?_⟩
    · exact hlog w (by simp only [History.next, List.append_nil] at hw; simp [hw])
    · show LoggedOutside path (h.recent ++ []) s.disk
      rw [List.append_nil]
      exact hpc
  | removeWal =>
    exact ⟨⟨fun st hst => (hfiles.onDisk st hst).mono (fun _ _ => rfl) le_rfl, hfiles.listed⟩,
      LoggedOutside.removeWal hpc, trivial⟩
  | few _ => exact ⟨hfiles, hlog, trivial⟩
  | mergeFails hm =>
    obtain ⟨data, -, hnew⟩ := Option.map_eq_some_iff.1 hm
    exact ⟨hfiles.newPersistentStorage hnew, hlog.of_wal (wal_newPersistentStorage hnew).1, trivial⟩
  | merge hm =>
    obtain ⟨data, -, hnew⟩ := Option.map_eq_some_iff.1 hm
    obtain ⟨hon, hpath⟩ := onDisk_newPersistentStorage hk hnew
    refine ⟨hfiles.newPersistentStorage hnew, hlog.of_wal (wal_newPersistentStorage hnew).1, hon,
      fun hmem => ?_⟩
    obtain ⟨st, hst, he⟩ := List.mem_map.1 hmem
    exact absurd (hfiles.onDisk st hst).lt (by rw [he, hpath]; exact lt_irrefl _)
  | @appendNewFails newStorage e d happ =>
    have hfiles' := hfiles.appendNew io.mergeAppend newStorage
    have hwal := (appendMetadata_frame io.mergeAppend newStorage (s.disk.setMetadata .new none) .new).1
    rw [happ] at hfiles' hwal
    exact ⟨hfiles', hlog.of_wal hwal, trivial⟩
  | @appendNew newStorage u d happ =>
    have hfiles' := hfiles.appendNew io.mergeAppend newStorage
    obtain ⟨hwal, hdata, hnext, hmeta⟩ :=
      appendMetadata_frame io.mergeAppend newStorage (s.disk.setMetadata .new none) .new
    have hnew := appendMetadata_ok io.mergeAppend newStorage (s.disk.setMetadata .new none) .new
    have hok := isOk_appendMetadata io.mergeAppend newStorage (s.disk.setMetadata .new none) .new
    rw [happ] at hfiles' hwal hdata hnext hmeta hnew hok
    have hne : MetadataFile.main ≠ .new := by simp
    have hmain : (s.disk.setMetadata .new none).metadata .main = s.disk.metadata .main := by
      rw [Disk.setMetadata_metadata, Function.update_of_ne hne]
    obtain ⟨paths, hpaths, hall⟩ := (hk hok.symm).written hok.symm
    rw [hmain] at hnew
    refine ⟨hfiles', hlog.of_wal hwal, hpc.1.mono (fun f _ => by rw [hdata]; rfl) hnext.ge, hpc.2, paths,
      (hnew rfl).trans hpaths, hall _ (by simp), fun path hl => hall path (List.mem_append_left _ ?_)⟩
    refine mem_getD_of_listed ?_
    obtain ⟨listed, hlisted, hmem⟩ := hl
    exact ⟨listed, ((hmeta .main hne).trans hmain).symm.trans hlisted, hmem⟩
  | rename =>
    obtain ⟨hon, hfresh, paths, hnew, hmem, hall⟩ := hpc
    obtain ⟨hfiles', hlisted⟩ := hfiles.rename hnew hall
    exact ⟨hfiles', hlog, ⟨hon.data, hon.lt⟩, hlisted _ hmem, hfresh⟩
  | swapCollection =>
    obtain ⟨hon, hlisted, hfresh⟩ := hpc
    refine ⟨⟨fun st hst => ?_, fun st hst => ?_⟩, hlog, fun st hst => ?_⟩ <;> rw [List.mem_singleton.1 hst]
    · exact hon
    · exact hlisted
    · exact hfresh
  | filesRemoved => exact ⟨hfiles, hlog, trivial⟩
  | removeFile =>
    refine ⟨hfiles.removeData fun st hst he => hpc st hst (by simp [he]), hlog, fun st hst hmem => ?_⟩
    exact hpc st hst (by simp [hmem])

end

end Iu9Db
