import Iu9Db.RecoveryCrash

/-!
# A node that is stopped and started again

Operations and jobs while the node runs, and recovery when it is started, which may be cut off any
number of times. The tables that are listed answer for an older part of the operations, and the one
WAL file has the rest (`Running.wal`, `Running.tables`), so that a node started on the directory
answers as the one before (`serves_of_reachableBy`). A WAL without an operation is not a directory
that `InitializeStorages` can read.
-/

namespace Iu9Db

open Keyed StorageSystem Transition
open RecoveryCrash (CutOff Leaves Lists)

namespace Restarts

/-- A node that runs, or the directory that it left, with the operations that have been acknowledged. -/
inductive State
  | up (acked : List Write) (s : StorageSystem)
  | down (acked : List Write) (d : Disk)

inductive Label
  | write (w : Write)
  | trigger (io : SwapJobIO)
  | stop
  | cutOff (threshold : Nat)
  | start (threshold : Nat) (files : List FileId)

/-- An operation that has written its record when the node stops counts as acknowledged. -/
inductive Step : State → Label → State → Prop
  | write {acked s} (w : Write) : Step (.up acked s) (.write w) (.up (acked ++ [w]) (s.exec true w).2)
  | trigger {acked s s'} (io : SwapJobIO) (h : s.triggerSwapToPersistentStorage io = some s') :
      Step (.up acked s) (.trigger io) (.up acked s')
  | stop {acked s} : Step (.up acked s) .stop (.down acked s.disk)
  | cutOff {acked d d'} (threshold : Nat) (h : CutOff threshold d d') :
      Step (.down acked d) (.cutOff threshold) (.down acked d')
  | start {acked d d' files init} (threshold : Nat) (hfiles : Lists d files)
      (h : initializeStorages (.succeeds files) threshold d = some (.ok init, d')) :
      Step (.down acked d) (.start threshold files) (.up acked (init.storageSystem d'))

def system : System State Label := ⟨fun st => st = .up [] .new, Step⟩

/-- No job gets to `Swap` and then not past `Add`. -/
def Completes (io : SwapJobIO) : Prop := io.newWal.isOk = true → io.table.isOk = true ∧ io.append.isOk = true

/-- Versions do not decrease on a key, a job that exchanges the writers stores the rows and loses
nothing without an error, and the node is not stopped while its WAL has no record. -/
def Ok : State → Label → Prop
  | .up acked _, .write w => ∀ u ∈ acked, u.key = w.key → u.version ≤ w.version
  | .up _ _, .trigger io => Completes io ∧ io.Reports
  | .up _ s, .stop => s.disk.wal s.walWriter ≠ some []
  | _, _ => True

/-! ### Compactions -/

section
variable {mergeIo : StorageIO} {swapIo : AppendIO} {c c' : PersistentStorageCollection} {d d' : Disk}

/-- The directory lists the collection, as far as the listed files exist. -/
structure Loaded (c : PersistentStorageCollection) (d : Disk) : Prop where
  tables : readCollection d = c.collection
  fresh : d.NamesFresh

theorem Loaded.congr (h : Loaded c d) (hmeta : d'.metadata .main = d.metadata .main)
    (hdata : ∀ path, d.Listed path → d'.data path = d.data path) (hnext : d.nextFile ≤ d'.nextFile) :
    Loaded c d' where
  tables := by
    have hsame : CompactionCrash.Untouched d d' := ⟨hmeta, hdata⟩
    rw [hsame.readCollection, h.tables]
  fresh := by
    rintro path ⟨paths, hpaths, hmem⟩
    rw [hmeta] at hpaths
    exact (h.fresh path ⟨paths, hpaths, hmem⟩).trans_le hnext

theorem Loaded.removeWal (h : Loaded c d) (path : FileId) : Loaded c (Iu9Db.removeWal path d) :=
  h.congr rfl (fun _ _ => rfl) le_rfl

/-- A table that is on disk is listed behind the others. -/
theorem Loaded.list (storage : PersistentStorage) (h : Loaded c d)
    (hdata : d.data storage.path = some storage.entries) (hlt : storage.path < d.nextFile) :
    Loaded ⟨c.collection ++ [storage]⟩
      (d.setMetadata .main (some ((d.metadata .main).getD [] ++ [storage.path]))) where
  tables := by rw [readCollection_append storage hdata, h.tables]
  fresh := by
    rintro path ⟨paths, hpaths, hmem⟩
    obtain rfl := Option.some.inj hpaths
    rcases List.mem_append.1 hmem with hmem | hmem
    · exact h.fresh path (CompactionCrash.listed_getD.1 hmem)
    · rw [List.mem_singleton.1 hmem]
      exact hlt

theorem Loaded.newPersistentStorage {io : StorageIO} {data : List StorageEntry} {r : Result PersistentStorage}
    (h : Loaded c d) (hnew : Iu9Db.newPersistentStorage io data d = (r, d')) : Loaded c d' := by
  obtain ⟨-, hmeta, hnext, hdata, -⟩ := newPersistentStorage_cases io data d
  rw [hnew] at hmeta hnext hdata
  exact h.congr (congrFun hmeta _) (fun path hl => hdata path (ne_of_lt (h.fresh path hl)))
    (hnext ▸ Nat.le_succ _)

/-- A file that is listed and exists is one of the collection. -/
theorem Loaded.data_eq_none (h : Loaded c d) {path : FileId} (hl : d.Listed path)
    (hc : path ∉ c.collection.map PersistentStorage.path) : d.data path = none := by
  rw [← h.tables, CompactionCrash.readCollection_eq] at hc
  cases hdata : d.data path with
  | none => rfl
  | some entries =>
    have hload : (loadPersistentStorage path d).toOption = some ⟨path, entries⟩ := by
      rw [CompactionCrash.toOption_loadPersistentStorage, hdata]
      rfl
    exact (hc (List.mem_map.2 ⟨⟨path, entries⟩,
      List.mem_filterMap.2 ⟨path, CompactionCrash.listed_getD.2 hl, hload⟩, rfl⟩)).elim

theorem Loaded.not_mem (h : Loaded c d) : d.nextFile ∉ c.collection.map PersistentStorage.path := by
  rw [← h.tables, CompactionCrash.readCollection_eq]
  intro hmem
  obtain ⟨st, hst, hpath⟩ := List.mem_map.1 hmem
  obtain ⟨path, hlisted, hload⟩ := List.mem_filterMap.1 hst
  rw [CompactionCrash.toOption_loadPersistentStorage] at hload
  obtain ⟨entries, -, rfl⟩ := Option.map_eq_some_iff.1 hload
  exact h.fresh.not_listed (hpath ▸ CompactionCrash.listed_getD.1 hlisted)

/-- The old files go, whose names stay listed; the new table is left. -/
theorem Loaded.swapWith (storage : PersistentStorage) (h : Loaded c d)
    (hdata : d.data storage.path = some storage.entries) (hlt : storage.path < d.nextFile)
    (hpath : storage.path ∉ c.collection.map PersistentStorage.path) :
    ∃ d', c.swapWith .ok storage d = (.ok (), ⟨[storage]⟩, d') ∧ Loaded ⟨[storage]⟩ d' ∧ d'.wal = d.wal ∧
      d'.nextFile = d.nextFile := by
  let paths := c.collection.map PersistentStorage.path
  let listed := (d.metadata .main).getD [] ++ [storage.path]
  let d₁ := (((d.setMetadata .new none).setMetadata .new (some listed)).setMetadata
    .main (some listed)).setMetadata .new none
  have hswap : c.swapWith .ok storage d =
    (.ok (), ⟨[storage]⟩, PersistentStorageCollection.removeFiles paths d₁) := by
    unfold PersistentStorageCollection.swapWith appendMetadata readMetadata
    cases hmain : d.metadata .main <;> simp [hmain, d₁, listed, paths]
  have hmain : (PersistentStorageCollection.removeFiles paths d₁).metadata .main = some listed := by
    rw [PersistentStorageCollection.metadata_removeFiles]
    simp [d₁]
  have hgone (path : FileId) (hl : d.Listed path) :
      (PersistentStorageCollection.removeFiles paths d₁).data path = none := by
    rw [PersistentStorageCollection.data_removeFiles]
    split
    · rfl
    · exact h.data_eq_none hl ‹_›
  obtain ⟨hwal, hnext⟩ := PersistentStorageCollection.wal_removeFiles paths d₁
  refine ⟨_, hswap, ⟨?_, ?_⟩, hwal, hnext⟩
  · rw [CompactionCrash.readCollection_eq, hmain, Option.getD_some, List.filterMap_append]
    have hold : ((d.metadata .main).getD []).filterMap (fun path =>
        (loadPersistentStorage path (PersistentStorageCollection.removeFiles paths d₁)).toOption) = [] := by
      refine List.filterMap_eq_nil_iff.2 fun path hmem => ?_
      rw [CompactionCrash.toOption_loadPersistentStorage, hgone path (CompactionCrash.listed_getD.1 hmem)]
      rfl
    have hload : (loadPersistentStorage storage.path
      (PersistentStorageCollection.removeFiles paths d₁)).toOption =
        some storage := by
      rw [CompactionCrash.toOption_loadPersistentStorage, PersistentStorageCollection.data_removeFiles,
        if_neg hpath]
      show (d.data storage.path).map _ = _
      rw [hdata]
      rfl
    rw [hold, List.filterMap_cons, hload]
    rfl
  · rintro path ⟨l, hl, hmem⟩
    rw [hmain] at hl
    cases hl
    rw [hnext]
    rcases List.mem_append.1 hmem with hmem | hmem
    · exact h.fresh path (CompactionCrash.listed_getD.1 hmem)
    · rw [List.mem_singleton.1 hmem]
      exact hlt

/-- Whether or not a compaction gets to its end, the directory lists the collection. -/
theorem Loaded.runCompaction (h : Loaded c d) (hwhole : mergeIo.written = .whole)
    (hreports : ∀ left, swapIo ≠ .flushFails left)
    (hrun : Iu9Db.runCompaction mergeIo swapIo c d = some (c', d')) :
    Loaded c' d' ∧ d'.wal = d.wal ∧ d.nextFile ≤ d'.nextFile := by
  unfold Iu9Db.runCompaction at hrun
  split at hrun
  · cases hrun
    exact ⟨h, rfl, le_rfl⟩
  · cases hm : mergeData mergeIo c d with
    | none => rw [hm] at hrun; cases hrun
    | some rd =>
      obtain ⟨r, d₁⟩ := rd
      obtain ⟨data, -, hnew⟩ := Option.map_eq_some_iff.1 hm
      obtain ⟨hwal, -, hnext, -, hok⟩ := newPersistentStorage_cases mergeIo data d
      have hload := h.newPersistentStorage hnew
      rw [hnew] at hwal hnext hok
      have hle : d.nextFile ≤ d₁.nextFile := hnext ▸ Nat.le_succ _
      rw [hm] at hrun
      cases r with
      | error e =>
        cases hrun
        exact ⟨hload, hwal, hle⟩
      | ok storage =>
        obtain ⟨rfl, hfile⟩ := hok storage rfl
        rw [hwhole] at hfile
        cases swapIo with
        | flushFails left => exact absurd rfl (hreports left)
        | ok =>
          obtain ⟨d₂, hswap, hload₂, hwal₂, hnext₂⟩ :=
            hload.swapWith ⟨d.nextFile, data.insertionSort (· ≤ ·)⟩ hfile
            ((Nat.lt_succ_self _).trans_eq hnext.symm) h.not_mem
          change some (c.swapWith .ok ⟨d.nextFile, data.insertionSort (· ≤ ·)⟩ d₁).2 = some (c', d') at hrun
          rw [hswap] at hrun
          cases hrun
          exact ⟨hload₂, hwal₂.trans hwal, hle.trans hnext₂.ge⟩
        | openFails e =>
          cases hrun
          exact ⟨hload.congr rfl (fun _ _ => rfl) le_rfl, hwal, hle⟩
        | writeFails left =>
          cases hrun
          exact ⟨hload.congr rfl (fun _ _ => rfl) le_rfl, hwal, hle⟩

end

/-! ### The node while it runs -/

theorem eq_nil_of_lastValue {ops : List Write} (h : ∀ k, lastValue ops k = none) : ops = [] :=
  List.eq_nil_iff_forall_not_mem.2 fun w hw => lastValue_eq_none.1 (h w.key) w hw rfl

/-- The engine after operations of the history `h`: the listed tables hold `h.old`, and the WAL has
`h.mid`. -/
structure Running (acked : List Write) (h : History) (s : StorageSystem) : Prop where
  between : Between h.all h s
  recent : h.recent = []
  second : s.storage.writerTable = s.storage.readerSecond
  seen : ∀ w ∈ h.all, w ∈ acked
  last : ∀ k, lastValue h.all k = lastValue acked k
  loaded : Loaded s.persistentStorage s.disk
  wal : s.disk.wal = Function.update (fun _ => none) s.walWriter (some (h.mid.map Write.record))
  lt : s.walWriter < s.disk.nextFile

section
variable {acked : List Write} {h : History} {s s' : StorageSystem} {io : SwapJobIO}

theorem running_new : Running [] ⟨[], [], []⟩ .new where
  between := between_new
  recent := rfl
  second := rfl
  seen _ hw := hw
  last _ := rfl
  loaded := ⟨rfl, fun path ⟨paths, hpaths, _⟩ => by cases hpaths⟩
  wal := rfl
  lt := Nat.zero_lt_one

theorem Running.write (hr : Running acked h s) {w : Write}
    (hw : ∀ u ∈ acked, u.key = w.key → u.version ≤ w.version) :
    ∃ h', Running (acked ++ [w]) h' (s.exec true w).2 := by
  have hb := hr.between.write fun u hu => hw u (hr.seen u hu)
  have ho := hr.between.not_omits fun u hu => hw u (hr.seen u hu)
  have hne : s.storage.writerTable ≠ s.storage.readerFirst := fun hfirst =>
    hr.between.layers.wf.storage.ne (hfirst.symm.trans hr.second)
  rw [← hr.between.layers.all_write w] at hb
  rcases exec_cases true w s with ⟨ho', -⟩ | ⟨-, hok, -⟩ | ⟨-, -, he⟩
  · rw [ho] at ho'; cases ho'
  · cases hok
  · rw [he] at hb ⊢
    have hmid : h.write s w = { h with mid := h.mid ++ [w] } := if_neg hne
    rw [hmid] at hb
    refine ⟨{ h with mid := h.mid ++ [w] }, hb, hr.recent, hr.second, fun u hu => ?_, fun k => ?_,
      hr.loaded.congr rfl (fun _ _ => rfl) le_rfl, ?_, hr.lt⟩
    · rw [← hmid, hr.between.layers.all_write] at hu
      rcases List.mem_append.1 hu with hu | hu
      · exact List.mem_append_left _ (hr.seen u hu)
      · exact List.mem_append_right _ hu
    · rw [← hmid, hr.between.layers.all_write, lastValue_concat, lastValue_concat, hr.last]
    · show Function.update s.disk.wal s.walWriter ((s.disk.wal s.walWriter).map _) = _
      rw [hr.wal, Function.update_self, Function.update_idem, List.map_append]
      rfl

/-- A job that does not stop before the rows are stored: it does not begin, or the directory lists the
rows in place of the old WAL. -/
theorem swapToPersistentStorage_cases (hio : Completes io) (hreports : io.Reports)
    (hl : Loaded s.persistentStorage s.disk) (h : s.swapToPersistentStorage io = some s') :
    s' = { s with disk := s.disk.takeName } ∨
      s'.storage = s.storage.exchangeWriter.removeCollected ∧ Loaded s'.persistentStorage s'.disk ∧
        s'.disk.wal = Function.update (Function.update s.disk.wal s.disk.nextFile
          (some [])) s.walWriter none ∧
        s'.walWriter = s.disk.nextFile ∧ s.disk.nextFile < s'.disk.nextFile := by
  unfold swapToPersistentStorage swapWal newWalWriter at h
  cases hnew : io.newWal with
  | error e =>
    rw [hnew] at h
    cases h
    exact .inl rfl
  | ok u =>
    obtain ⟨htable, happend⟩ := hio (by rw [hnew]; rfl)
    have happend : io.append = .ok := by
      cases happ : io.append with
      | ok => rfl
      | openFails e | writeFails left => rw [happ] at happend; cases happend
      | flushFails left => exact absurd happ (hreports.append left)
    rw [hnew, happend] at h
    simp only [SwappableMemoryStorage.collect, PersistentStorageCollection.add, appendMetadata_eq_ok] at h
    have hload : Loaded s.persistentStorage (s.disk.takeName.setWal s.disk.nextFile (some [])) :=
      hl.congr rfl (fun _ _ => rfl) (Nat.le_succ _)
    have hwal₀ : (s.disk.takeName.setWal s.disk.nextFile (some [])).wal =
      Function.update s.disk.wal s.disk.nextFile (some []) := rfl
    have hnext₀ : (s.disk.takeName.setWal s.disk.nextFile (some [])).nextFile = s.disk.nextFile + 1 := rfl
    generalize s.disk.takeName.setWal s.disk.nextFile (some []) = d at h hload hwal₀ hnext₀
    have hok := isOk_newPersistentStorage io.table s.storage.exchangeWriter.copySecond d
    obtain ⟨hwal, -, hnext, -, hstored⟩ :=
      newPersistentStorage_cases io.table s.storage.exchangeWriter.copySecond d
    cases htab : newPersistentStorage io.table s.storage.exchangeWriter.copySecond d with
    | mk r d₁ =>
      replace hload := hload.newPersistentStorage htab
      rw [htab] at h hok hwal hnext hstored
      cases r with
      | error e =>
        rw [htable] at hok
        cases hok
      | ok persistent =>
        obtain ⟨rfl, hdata⟩ := hstored persistent rfl
        rw [hreports.table] at hdata
        have hlist := hload.list ⟨d.nextFile, s.storage.exchangeWriter.copySecond.insertionSort (· ≤ ·)⟩ hdata
          ((Nat.lt_succ_self _).trans_eq hnext.symm)
        obtain ⟨⟨c, d₂⟩, hrun, rfl⟩ := Option.map_eq_some_iff.1 h
        obtain ⟨hload₂, hwal₂, hle⟩ :=
          (hlist.removeWal s.walWriter).runCompaction hreports.mergeTable hreports.mergeAppend hrun
        refine .inr ⟨rfl, hload₂, ?_, rfl, ?_⟩
        · rw [← hwal₀, ← hwal]
          exact hwal₂
        · refine Nat.lt_of_lt_of_le ?_ hle
          show s.disk.nextFile < d₁.nextFile
          rw [show d₁.nextFile = d.nextFile + 1 from hnext, hnext₀]
          exact Nat.lt_add_of_pos_right Nat.zero_lt_two

/-- A job that is due gets to its end or leaves all as it was. -/
theorem Running.trigger (hr : Running acked h s) (hio : Completes io) (hreports : io.Reports) :
    ∃ h' s', s.triggerSwapToPersistentStorage io = some s' ∧ Running acked h' s' := by
  by_cases hsize : s.storage.size < kThreshold
  · exact ⟨h, s, if_pos hsize, hr⟩
  · obtain ⟨h', s', hs', hb'⟩ := hr.between.trigger io
    have hrun : s.swapToPersistentStorage io = some s' := by
      rwa [triggerSwapToPersistentStorage, if_neg hsize] at hs'
    have hall : h'.all = h.all := hb'.all
    rcases swapToPersistentStorage_cases hio hreports hr.loaded hrun with
      rfl | ⟨hstorage, hloaded, hwal, hwriter, hlt⟩
    · have hb := hr.between
      exact ⟨h, _, hs', ⟨rfl, hb.layers.setDisk _, hb.filled, hb.second, hb.count⟩, hr.recent, hr.second,
        hr.seen, hr.last, hr.loaded.congr rfl (fun _ _ => rfl) (Nat.le_succ _), hr.wal,
        Nat.lt_succ_of_lt hr.lt⟩
    · -- The first reader's table had no row, and nothing else is left in memory.
      have hnil : h'.mid ++ h'.recent = [] := eq_nil_of_lastValue fun k => by
        rw [← hb'.layers.find, hstorage, hr.between.layers.wf.storage.exchangeWriter.find_removeCollected]
        exact (hr.between.layers.first k).trans (by rw [hr.recent]; rfl)
      obtain ⟨hmid, hrecent⟩ := List.append_eq_nil_iff.1 hnil
      refine ⟨h', s', hs', hall ▸ hb', hrecent, ?_, fun w hw => hr.seen w (hall ▸ hw),
        fun k => hall ▸ hr.last k, hloaded, ?_, hwriter ▸ hlt⟩
      · rw [hstorage, SwappableMemoryStorage.Wf.writerTable_removeCollected]
        exact SwappableMemoryStorage.Wf.writerTable_exchangeWriter _
      · rw [hwal, hwriter, hr.wal, hmid, Function.update_comm (ne_of_lt hr.lt), Function.update_idem]
        exact Function.update_eq_iff.2 ⟨(Function.update_of_ne (ne_of_lt hr.lt) (some []) fun _ => none).symm,
          fun _ _ => rfl⟩

end

/-! ### The directory of a node that has stopped -/

theorem filterMap_toWrite (ops : List Write) : (ops.map Write.record).filterMap WalEntry.toWrite = ops := by
  induction ops with
  | nil => rfl
  | cons w ops ih => cases w <;> simp [Write.record, WalEntry.toWrite, ih]

theorem nextFile_cutOff {threshold : Nat} {d d' : Disk} (h : CutOff threshold d d') :
    d.nextFile ≤ d'.nextFile := by
  obtain ⟨files, s, -, hs, rfl⟩ := h
  refine hs.invariant (I := fun s => d.nextFile ≤ s.disk.nextFile) (fun s hinit => hinit ▸ le_rfl)
    fun s a s' hle _ hstep => hle.trans ?_
  obtain ⟨pc, files, r, d₁⟩ := s
  cases a with
  | tear left =>
    cases pc with
    | writing file path data => cases hstep; exact le_rfl
    | _ => cases hstep
  | next =>
    cases pc with
    | turn =>
      cases files with
      | nil => cases hstep
      | cons file files =>
        have hturn : RecoveryCrash.step threshold ⟨.turn, file :: files, r, d₁⟩ .next = some s' := hstep
        simp only [RecoveryCrash.step] at hturn
        split at hturn
        · cases hturn
        · split at hturn
          · split at hturn <;> cases hturn
            · exact Nat.le_succ _
            · exact le_rfl
          · cases hturn
    | writing file path data => cases hstep; exact le_rfl
    | written file storage =>
      have hadd : RecoveryCrash.step threshold ⟨.written file storage, files, r, d₁⟩ .next = some s' := hstep
      simp only [RecoveryCrash.step, PersistentStorageCollection.add, appendMetadata_eq_ok] at hadd
      cases hadd
      exact le_rfl
    | listed file => cases hstep; exact le_rfl

/-- Tables that hold the operations `old`, the rest of which are in a WAL, whatever recoveries have
made of it. -/
structure Stopped (acked old ops : List Write) (file : FileId) (d : Disk) : Prop where
  leaves : ∃ d₀ copies, Leaves d₀ file (ops.map Write.record) copies d ∧
    (∀ st ∈ readCollection d₀, st.Wf ∧ st.entries ≠ []) ∧
    ∀ k, (PersistentStorageCollection.find ⟨readCollection d₀⟩ k).map StorageEntry.toValue = lastValue old k
  ne : ops ≠ []
  seen : ∀ w ∈ old ++ ops, w ∈ acked
  last : ∀ k, lastValue (old ++ ops) k = lastValue acked k
  lt : file < d.nextFile

section
variable {acked old ops : List Write} {h : History} {s : StorageSystem} {file : FileId} {d d' : Disk}
  {files : List FileId} {threshold : Nat}

theorem Running.stopped (hr : Running acked h s) (hne : s.disk.wal s.walWriter ≠ some []) :
    Stopped acked h.old h.mid s.walWriter s.disk where
  leaves := ⟨s.disk, [], RecoveryCrash.leaves_of_singleWal ⟨hr.wal, hr.loaded.fresh⟩, fun st hst =>
    have hst : st ∈ s.persistentStorage.collection := hr.loaded.tables ▸ hst
    ⟨hr.between.layers.wf.persistentStorage st hst, hr.between.filled st hst⟩,
    fun k => by rw [hr.loaded.tables]; exact hr.between.layers.disk k⟩
  ne hnil := hne (by rw [hr.wal, Function.update_self, hnil]; rfl)
  seen w hw := hr.seen w (List.mem_append_left _ hw)
  last k := by rw [← hr.last k, History.all, hr.recent, List.append_nil]
  lt := hr.lt

theorem Stopped.cutOff (hst : Stopped acked old ops file d) (h : CutOff threshold d d') :
    Stopped acked old ops file d' := by
  obtain ⟨⟨d₀, copies, hleaves, htables⟩, hne, hseen, hlast, hlt⟩ := hst
  obtain ⟨copies', hleaves'⟩ := RecoveryCrash.leaves_of_cutOff hleaves h
  exact ⟨⟨d₀, copies', hleaves', htables⟩, hne, hseen, hlast, hlt.trans_le (nextFile_cutOff h)⟩

theorem find_tableOf (path : FileId) (ops : List Write) (k : Str) :
    ((tableOf path ops).find k).map StorageEntry.toValue = lastValue ops k := by
  rw [PersistentStorage.find, tableOf, find_insertionSort (replay ops).toEntries_keys_nodup,
    MapStorage.find_toEntries, find_replay, Option.map_map]
  cases lastValue ops k <;> rfl

theorem wf_tableOf (path : FileId) (hne : ops ≠ []) : (tableOf path ops).Wf ∧
    (tableOf path ops).entries ≠ [] := by
  refine ⟨⟨strict_insertionSort (replay ops).toEntries_keys_nodup⟩, insertionSort_ne_nil fun hnil => ?_⟩
  obtain ⟨w, ops', rfl⟩ := List.exists_cons_of_ne_nil hne
  have hfind := find_tableOf path (w :: ops') w.key
  rw [PersistentStorage.find, tableOf, hnil] at hfind
  exact lastValue_eq_none.1 hfind.symm w (List.mem_cons_self ..) rfl

/-- However often the operations are in tables, they are what these answer with. -/
theorem exists_old {l copies : List PersistentStorage} (hrows : ∀ t ∈ copies, ∃ path, t = tableOf path ops)
    (hold : ∀ k, (PersistentStorageCollection.find ⟨l⟩ k).map StorageEntry.toValue = lastValue old k) :
    ∃ old', (∀ k, (PersistentStorageCollection.find ⟨l ++ copies⟩ k).map StorageEntry.toValue =
        lastValue old' k) ∧ (∀ w ∈ old', w ∈ old ++ ops) ∧
      (∀ k, lastValue (old' ++ ops) k = lastValue (old ++ ops) k) ∧
      (copies ≠ [] → ∀ k, lastValue old' k = lastValue (old ++ ops) k) := by
  induction copies using List.reverseRecOn with
  | nil =>
    exact ⟨old, by simpa using hold, fun w hw => List.mem_append_left _ hw, fun _ => rfl,
      fun hne => absurd rfl hne⟩
  | append_singleton copies t ih =>
    obtain ⟨old', hfind, hmem, hlast, -⟩ := ih fun t ht => hrows t (List.mem_append_left _ ht)
    obtain ⟨path, rfl⟩ := hrows t (List.mem_append_right _ (List.mem_singleton_self t))
    refine ⟨old' ++ ops, fun k => ?_, fun w hw => ?_, fun k => ?_, fun _ => hlast⟩
    · rw [← List.append_assoc, PersistentStorageCollection.find_concat, lastValue_append,
        ← find_tableOf path, ← hfind]
      cases (tableOf path ops).find k <;> rfl
    · rcases List.mem_append.1 hw with hw | hw
      · exact hmem w hw
      · exact List.mem_append_right _ hw
    · rw [lastValue_append, hlast, lastValue_append]
      cases lastValue ops k <;> rfl

/-- A node whose memory has the operations of its WAL. -/
theorem running_ofMap {l : List PersistentStorage} (hl : Loaded ⟨l⟩ d)
    (hwf : ∀ st ∈ l, st.Wf ∧ st.entries ≠ [])
    (hfind : ∀ k, (PersistentStorageCollection.find ⟨l⟩ k).map StorageEntry.toValue = lastValue old k)
    (hseen : ∀ w ∈ old ++ ops, w ∈ acked) (hlast : ∀ k, lastValue (old ++ ops) k = lastValue acked k)
    (hwal : d.wal = Function.update (fun _ => none) file (some (ops.map Write.record)))
    (hlt : file < d.nextFile) : Running acked ⟨old, ops, []⟩ ⟨file, .ofMap (replay ops), ⟨l⟩, d⟩ where
  between := {
    all := rfl
    layers := ⟨⟨SwappableMemoryStorage.wf_ofMap _, fun st hst => (hwf st hst).1⟩, hfind, find_replay ops,
      MapStorage.find_empty, fun _ => rfl⟩
    filled := fun st hst => (hwf st hst).2
    second := nofun
    count := rfl }
  recent := rfl
  second := rfl
  seen w hw := hseen w (by simpa [History.all] using hw)
  last k := by rw [← hlast, History.all, List.append_nil]
  loaded := hl
  wal := hwal
  lt := hlt

theorem Loaded.listTable (h : Loaded ⟨readCollection d⟩ d) (ops : List Write) :
    Loaded ⟨readCollection d ++ [tableOf d.nextFile ops]⟩ (d.listTable ops) := by
  have hdata : Loaded ⟨readCollection d⟩
    (d.takeName.setData d.nextFile (some (tableOf d.nextFile ops).entries)) :=
    h.congr rfl (fun path hl => Function.update_of_ne (ne_of_lt (h.fresh path hl)) _ _) (Nat.le_succ _)
  exact hdata.list (tableOf d.nextFile ops) (Function.update_self _ _ _) (Nat.lt_succ_self _)

/-- **A node that is started on the directory runs** with what the one before has acknowledged. -/
theorem Stopped.start (hst : Stopped acked old ops file d) (hfiles : Lists d files) (threshold : Nat) :
    ∃ init d', initializeStorages (.succeeds files) threshold d = some (.ok init, d') ∧
      ∃ h, Running acked h (init.storageSystem d') := by
  obtain ⟨⟨d₀, copies, hleaves, hwf, hfind⟩, hne, hseen, hlast, hlt⟩ := hst
  have hops := filterMap_toWrite ops
  have hrows := hleaves.rows
  rw [hops] at hrows
  obtain ⟨old', hold, hmem, hlast', hlisted⟩ := exists_old hrows hfind
  rw [← hleaves.tables] at hold
  have hloaded : Loaded ⟨readCollection d⟩ d := ⟨rfl, hleaves.fresh⟩
  have hwf' : ∀ st ∈ readCollection d, st.Wf ∧ st.entries ≠ [] := by
    intro st hst
    rw [hleaves.tables] at hst
    rcases List.mem_append.1 hst with hst | hst
    · exact hwf st hst
    · obtain ⟨path, rfl⟩ := hrows st hst
      exact wf_tableOf path hne
  have hseen' : ∀ w ∈ old' ++ ops, w ∈ acked := fun w hw => hseen w <| by
    rcases List.mem_append.1 hw with hw | hw
    · exact hmem w hw
    · exact List.mem_append_right _ hw
  rcases hleaves.lists hfiles with ⟨rfl, hwal⟩ | ⟨rfl, hcopies, -⟩
  · have hfile := RecoveryCrash.wal_file_of_eq hwal
    by_cases hlarge : (replay ops).size > threshold
    · -- The rows become a table, and the WAL goes.
      obtain ⟨generator, hrun⟩ := initializeStorages_large hfile (hops.symm ▸ hlarge)
      rw [hops] at hrun
      refine ⟨_, _, hrun, ⟨old' ++ ops, [], []⟩, running_ofMap
        (((hloaded.listTable ops).removeWal file).congr rfl (fun _ _ => rfl) (Nat.le_succ _))
          (fun st hst => ?_)
        (fun k => ?_) (fun w hw => hseen' w (by simpa using hw))
          (fun k => by rw [List.append_nil, hlast', hlast]) ?_
        (Nat.lt_succ_self _)⟩
      · rcases List.mem_append.1 hst with hst | hst
        · exact hwf' st hst
        · rw [List.mem_singleton.1 hst]
          exact wf_tableOf _ hne
      · rw [PersistentStorageCollection.find_concat, lastValue_append, ← find_tableOf d.nextFile, ← hold]
        cases (tableOf d.nextFile ops).find k <;> rfl
      · show Function.update (Function.update d.wal file none) (d.nextFile + 1) _ = _
        rw [hwal, Function.update_idem]
        exact congrArg (Function.update · _ _) (Function.update_eq_self file fun _ => none)
    · obtain ⟨generator, hrun⟩ := initializeStorages_small hfile (hops.symm ▸ hne) (hops.symm ▸ hlarge)
      rw [hops] at hrun
      exact ⟨_, _, hrun, ⟨old', ops, []⟩, running_ofMap hloaded hwf' hold hseen'
        (fun k => by rw [hlast', hlast]) hwal hlt⟩
  · -- A run that was cut off has listed the table and removed the WAL.
    obtain ⟨generator, hrun⟩ := initializeStorages_none threshold d
    refine ⟨_, _, hrun, ⟨old', [], []⟩,
      running_ofMap (hloaded.congr rfl (fun _ _ => rfl) (Nat.le_succ _)) hwf' hold
      (fun w hw => hseen' w (List.mem_append_left _ (by simpa using hw)))
      (fun k => by rw [List.append_nil, hlisted hcopies, hlast]) ?_ (Nat.lt_succ_self _)⟩
    have hwal : d.wal = fun _ => none := funext fun f => by
      cases hf : d.wal f with
      | none => rfl
      | some entries => exact absurd ((hfiles.2 f).2 ⟨_, hf⟩) List.not_mem_nil
    show Function.update d.wal d.nextFile _ = _
    rw [hwal]
    rfl

end

/-! ### Runs -/

/-- What holds between two steps. -/
def Inv : State → Prop
  | .up acked s => ∃ h, Running acked h s
  | .down acked d => ∃ old ops file, Stopped acked old ops file d

theorem inv_step {st st' : State} {a : Label} (hi : Inv st) (hok : Ok st a) (hs : Step st a st') :
    Inv st' := by
  cases hs with
  | write w =>
    obtain ⟨h, hr⟩ := hi
    exact hr.write hok
  | trigger io hs =>
    obtain ⟨h, hr⟩ := hi
    obtain ⟨h', s', hs', hr'⟩ := hr.trigger hok.1 hok.2
    rw [hs] at hs'
    exact ⟨h', Option.some.inj hs' ▸ hr'⟩
  | stop =>
    obtain ⟨h, hr⟩ := hi
    exact ⟨_, _, _, hr.stopped hok⟩
  | cutOff threshold hcut =>
    obtain ⟨old, ops, file, hst⟩ := hi
    exact ⟨old, ops, file, hst.cutOff hcut⟩
  | start threshold hfiles hs =>
    obtain ⟨old, ops, file, hst⟩ := hi
    obtain ⟨init, d', hs', h, hr⟩ := hst.start hfiles threshold
    rw [hs] at hs'
    cases hs'
    exact ⟨h, hr⟩

/-- A running node answers as a plain map would, its jobs come to their end, and a node that has
stopped can be started. -/
def Serves : State → Prop
  | .up acked s => (∀ k, Answers (s.get k) (PlainMap.ofWrites acked k)) ∧
      ∀ io, ∃ s', s.triggerSwapToPersistentStorage io = some s'
  | .down _ d => ∀ files threshold, Lists d files →
      ∃ init d', initializeStorages (.succeeds files) threshold d = some (.ok init, d')

theorem Inv.serves {st : State} (hi : Inv st) : Serves st := by
  cases st with
  | up acked s =>
    obtain ⟨h, hr⟩ := hi
    refine ⟨fun k => ?_, fun io => ?_⟩
    · rw [PlainMap.ofWrites_eq, ← hr.last, ← hr.between.layers.entry]
      exact answers_get hr.between.layers.wf.persistentStorage k
    · obtain ⟨-, s', hs', -⟩ := hr.between.trigger io
      exact ⟨s', hs'⟩
  | down acked d =>
    obtain ⟨old, ops, file, hst⟩ := hi
    intro files threshold hfiles
    obtain ⟨init, d', hs, -⟩ := hst.start hfiles threshold
    exact ⟨init, d', hs⟩

theorem inv_of_reachableBy {st : State} (h : system.ReachableBy Ok st) : Inv st := by
  refine h.invariant (fun st hinit => ?_) fun _ _ _ hi hok hs => inv_step hi hok hs
  obtain rfl := hinit
  exact ⟨_, running_new⟩

/-- **A node answers with what it has acknowledged, before and after any number of restarts.** -/
theorem serves_of_reachableBy {st : State} (h : system.ReachableBy Ok st) : Serves st :=
    (inv_of_reachableBy h).serves

def put : Write := .insert ⟨[97], [1], 1⟩

/-- One operation, and a restart that moves it from the WAL to a table. -/
theorem serves_restarted : ∃ s, system.ReachableBy Ok (.up [put] s) ∧ s.storage = .new ∧
    Serves (.up [put] s) := by
  let s₁ : StorageSystem := (StorageSystem.new.exec true put).2
  have hwal : s₁.disk.wal = Function.update (fun _ => none) s₁.walWriter (some [put.record]) := by
    show Function.update (Function.update _ 0 _) 0 _ = _
    rw [Function.update_idem]
    rfl
  have hup : system.ReachableBy Ok (.up ([] ++ [put]) s₁) :=
    .step (.init rfl) (fun u hu => absurd hu List.not_mem_nil) (.write put)
  have hne : Ok (.up [put] s₁) .stop := by
    show s₁.disk.wal s₁.walWriter ≠ some []
    rw [hwal, Function.update_self]
    exact fun h => by cases h
  have hdown : system.ReachableBy Ok (.down [put] s₁.disk) := .step hup hne .stop
  have hlarge : (replay ([put.record].filterMap WalEntry.toWrite)).size > 0 := by decide +kernel
  obtain ⟨generator, hrun⟩ := initializeStorages_large (RecoveryCrash.wal_file_of_eq hwal) hlarge
  have hagain := hdown.step trivial (.start 0 (RecoveryCrash.lists_of_wal hwal) hrun)
  exact ⟨_, hagain, rfl, serves_of_reachableBy hagain⟩

end Restarts

end Iu9Db
