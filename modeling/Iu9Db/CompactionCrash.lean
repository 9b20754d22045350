import Iu9Db.StorageSystem
import Iu9Db.Lib.Transition

/-!
# Where a compaction can stop

`RunCompaction` as the sequence of what it does to the disk, with a torn write of
`persistent.metadata.new` among it (`reachable_runCompaction`: the sequence ends where the function
does). Before the rename the main metadata file and the files that it lists are what they were; after
it the merged table is listed behind the old ones, of which some may be gone. `AppendMetadata` does
not look at its flush, though: where that finds no room for the merged table's name, the list without
it is renamed and the old tables are removed. `get_readCollection_iff`: in no other case does the
compaction lose anything.
-/

namespace Iu9Db

open Keyed Transition

namespace CompactionCrash

inductive Pc
  | start
  | merged (newStorage : PersistentStorage)
  | staleRemoved (newStorage : PersistentStorage)
  | newListed (newStorage : PersistentStorage)
  | renamed (newStorage : PersistentStorage) (toDelete : List FileId)
  | swapped (toDelete : List FileId)
  | done
deriving DecidableEq

structure State where
  pc : Pc
  collection : PersistentStorageCollection
  disk : Disk

/-- `tear` leaves a part of `persistent.metadata.new` that is being written. -/
inductive Label
  | next
  | tear (left : Option (List FileId))

def step (mergeIo : StorageIO) (swapIo : AppendIO) (s : State) : Label → Option State
  | .tear left =>
    match s.pc with
    | .staleRemoved _ => some { s with disk := s.disk.setMetadata .new left }
    | _ => none
  | .next =>
    match s.pc with
    | .start =>
      if s.collection.size ≤ kCompactionThreshold then some { s with pc := .done }
      else match mergeData mergeIo s.collection s.disk with
        | none => none
        | some (.error _, d) => some { s with pc := .done, disk := d }
        | some (.ok newStorage, d) => some { s with pc := .merged newStorage, disk := d }
    | .merged newStorage =>
      some { s with pc := .staleRemoved newStorage, disk := s.disk.setMetadata .new none }
    | .staleRemoved newStorage =>
      match appendMetadata swapIo newStorage s.disk .new with
      | (.error _, d) => some { s with pc := .done, disk := d }
      | (.ok _, d) => some { s with pc := .newListed newStorage, disk := d }
    | .newListed newStorage => some { s with
        pc := .renamed newStorage (s.collection.collection.map PersistentStorage.path)
        disk := (s.disk.setMetadata .main (s.disk.metadata .new)).setMetadata .new none }
    | .renamed newStorage toDelete => some { s with pc := .swapped toDelete, collection := ⟨[newStorage]⟩ }
    | .swapped [] => some { s with pc := .done }
    | .swapped (path :: toDelete) => some { s with pc := .swapped toDelete, disk := s.disk.setData path none }
    | .done => none

/-- A compaction of `c` with the disk `d`. -/
def system (mergeIo : StorageIO) (swapIo : AppendIO) (c : PersistentStorageCollection) (d : Disk) :
    System State Label :=
  ofFun (fun s => s = ⟨.start, c, d⟩) (step mergeIo swapIo)

/-! ### The steps and the function -/

section
variable {mergeIo : StorageIO} {swapIo : AppendIO} {c c' : PersistentStorageCollection} {d d' : Disk}
  {s : State}

theorem next_reachable {s' : State} (h : (system mergeIo swapIo c d).Reachable s)
    (hs : step mergeIo swapIo s .next = some s') : (system mergeIo swapIo c d).Reachable s' :=
  .step h (a := .next) trivial hs

theorem reachable_removeFiles {toDelete : List FileId} (hs : s.pc = .swapped toDelete)
    (h : (system mergeIo swapIo c d).Reachable s) :
    (system mergeIo swapIo c d).Reachable
      ⟨.done, s.collection, PersistentStorageCollection.removeFiles toDelete s.disk⟩ := by
  obtain ⟨pc, collection, disk⟩ := s
  obtain rfl : pc = .swapped toDelete := hs
  induction toDelete generalizing disk with
  | nil => exact next_reachable h rfl
  | cons path toDelete ih => exact ih (disk.setData path none) (next_reachable h rfl)

/-- **What the function returns is where the steps lead.** -/
theorem reachable_runCompaction (h : runCompaction mergeIo swapIo c d = some (c', d')) :
    (system mergeIo swapIo c d).Reachable ⟨.done, c', d'⟩ := by
  have hstart : (system mergeIo swapIo c d).Reachable ⟨.start, c, d⟩ := .init rfl
  unfold runCompaction at h
  split at h
  · rename_i hsize
    cases h
    exact next_reachable hstart (if_pos hsize)
  · rename_i hsize
    cases hm : mergeData mergeIo c d with
    | none => rw [hm] at h; cases h
    | some rd =>
      obtain ⟨r, d₁⟩ := rd
      cases r with
      | error e =>
        rw [hm] at h
        cases h
        exact next_reachable hstart (by simp only [step, if_neg hsize, hm])
      | ok newStorage =>
        rw [hm] at h
        have hmerged : (system mergeIo swapIo c d).Reachable ⟨.merged newStorage, c, d₁⟩ :=
          next_reachable hstart (by simp only [step, if_neg hsize, hm])
        have hremoved : (system mergeIo swapIo c d).Reachable
            ⟨.staleRemoved newStorage, c, d₁.setMetadata .new none⟩ :=
          next_reachable hmerged rfl
        simp only [Option.bind_eq_bind, Option.bind_some, PersistentStorageCollection.swapWith] at h
        cases ha : appendMetadata swapIo newStorage (d₁.setMetadata .new none) .new with
        | mk r d₂ =>
          rw [ha] at h
          cases r with
          | error e =>
            cases h
            exact next_reachable hremoved (by simp only [step, ha])
          | ok u =>
            cases h
            have hlisted : (system mergeIo swapIo c d).Reachable ⟨.newListed newStorage, c, d₂⟩ :=
              next_reachable hremoved (by simp only [step, ha])
            exact reachable_removeFiles rfl (next_reachable (next_reachable hlisted rfl) rfl)

end

/-! ### What a reader of the disk finds -/

/-- The collection as the constructor reads it from the disk; the next random name is not listed. -/
structure Opened (c : PersistentStorageCollection) (d : Disk) : Prop where
  wf : c.Wf
  loaded : readCollection d = c.collection
  fresh : ∀ path, d.Listed path → path ≠ d.nextFile

/-- Nothing that the main metadata file leads to has changed. -/
structure Untouched (d₀ d : Disk) : Prop where
  metadata : d.metadata .main = d₀.metadata .main
  data : ∀ path, d₀.Listed path → d.data path = d₀.data path

/-- What the flush of `persistent.metadata.new` leaves of its list has the name of the merged table. -/
def ListsMerged (swapIo : AppendIO) (d : Disk) : Prop :=
  ∀ left, swapIo = .flushFails left → ∃ r ∈ left,
    d.nextFile ∈ r.names ((d.metadata .main).getD [] ++ [d.nextFile])

/-- A table on disk with the lookups of the collection, under the fresh name; it is going to be listed. -/
structure IsMerged (swapIo : AppendIO) (c : PersistentStorageCollection) (d₀ : Disk)
    (newStorage : PersistentStorage) (d : Disk) : Prop where
  wf : newStorage.Wf
  find : ∀ k, newStorage.find k = c.find k
  data : d.data newStorage.path = some newStorage.entries
  path : newStorage.path = d₀.nextFile
  lists : ListsMerged swapIo d₀

/-- A list of old tables with the merged one behind them. -/
def MergedLast (d₀ : Disk) (newStorage : PersistentStorage) (paths : Option (List FileId)) : Prop :=
  ∃ old, paths = some (old ++ [newStorage.path]) ∧ ∀ path ∈ old, d₀.Listed path

/-- The merged table is listed behind the old ones, which are as they were or gone. -/
structure Renamed (swapIo : AppendIO) (c : PersistentStorageCollection) (d₀ : Disk)
    (newStorage : PersistentStorage) (d : Disk) : Prop extends IsMerged swapIo c d₀ newStorage d where
  metadata : MergedLast d₀ newStorage (d.metadata .main)
  old : ∀ path, d₀.Listed path → d.data path = d₀.data path ∨ d.data path = none

section
variable {swapIo : AppendIO} {c : PersistentStorageCollection} {d₀ d d' : Disk}
  {newStorage : PersistentStorage}

theorem listed_getD {path : FileId} : path ∈ (d₀.metadata .main).getD [] ↔ d₀.Listed path := by
  unfold Disk.Listed
  cases d₀.metadata .main <;> simp

theorem readCollection_eq (d : Disk) : readCollection d =
    ((d.metadata .main).getD []).filterMap fun filename => (loadPersistentStorage filename d).toOption := by
  unfold readCollection readMetadata
  cases d.metadata .main <;> rfl

theorem toOption_loadPersistentStorage (path : FileId) (d : Disk) :
    (loadPersistentStorage path d).toOption = (d.data path).map fun entries => ⟨path, entries⟩ := by
  unfold loadPersistentStorage
  cases d.data path <;> rfl

theorem Untouched.readCollection (h : Untouched d₀ d) : readCollection d = readCollection d₀ := by
  rw [readCollection_eq, readCollection_eq, h.metadata]
  refine List.filterMap_congr fun path hpath => ?_
  rw [toOption_loadPersistentStorage, toOption_loadPersistentStorage, h.data path (listed_getD.1 hpath)]

/-- An old table is in front of the merged one in the list, so it is looked at later. -/
theorem Renamed.readCollection (h : Renamed swapIo c d₀ newStorage d) :
    ∃ l, readCollection d = l ++ [newStorage] ∧ ∀ st ∈ l, st ∈ readCollection d₀ := by
  obtain ⟨old, hmeta, hlisted⟩ := h.metadata
  refine ⟨old.filterMap fun path => (loadPersistentStorage path d).toOption, ?_, fun st hst => ?_⟩
  · rw [readCollection_eq, hmeta, Option.getD_some, List.filterMap_append]
    refine congrArg _ ?_
    rw [List.filterMap_cons, toOption_loadPersistentStorage, h.data]
    rfl
  · obtain ⟨path, hpath, hload⟩ := List.mem_filterMap.1 hst
    rw [readCollection_eq]
    refine List.mem_filterMap.2 ⟨path, listed_getD.2 (hlisted path hpath), ?_⟩
    rw [toOption_loadPersistentStorage] at hload ⊢
    rcases h.old path (hlisted path hpath) with hold | hgone
    · rw [← hold, hload]
    · rw [hgone] at hload
      cases hload

/-- What the merged table does not have, no old one has. -/
theorem Renamed.find_readCollection (h : Renamed swapIo c d₀ newStorage d) (ho : Opened c d₀) (k : Str) :
    PersistentStorageCollection.find ⟨Iu9Db.readCollection d⟩ k = c.find k := by
  obtain ⟨l, hl, hold⟩ := h.readCollection
  rw [hl, PersistentStorageCollection.find_concat, h.find]
  cases hc : c.find k with
  | some e => rfl
  | none =>
    rw [Option.none_or, PersistentStorageCollection.find, List.findSome?_eq_none_iff]
    intro st hst
    rw [PersistentStorageCollection.find, List.findSome?_eq_none_iff] at hc
    refine hc st ?_
    rw [List.mem_reverse, ← ho.loaded]
    exact hold st (List.mem_reverse.1 hst)

theorem Renamed.wf_readCollection (h : Renamed swapIo c d₀ newStorage d) (ho : Opened c d₀) :
    PersistentStorageCollection.Wf ⟨Iu9Db.readCollection d⟩ := by
  obtain ⟨l, hl, hold⟩ := h.readCollection
  intro st hst
  rw [hl] at hst
  rcases List.mem_append.1 hst with hst | hst
  · exact ho.wf st (ho.loaded ▸ hold st hst)
  · rw [List.mem_singleton.1 hst]
    exact h.wf

/-! ### What one step does to the disk -/

theorem Untouched.trans_congr (h : Untouched d₀ d) (hmeta : d'.metadata .main = d.metadata .main)
    (hdata : ∀ path, d₀.Listed path → d'.data path = d.data path) : Untouched d₀ d' :=
  ⟨hmeta.trans h.metadata, fun path hl => (hdata path hl).trans (h.data path hl)⟩

theorem IsMerged.congr (h : IsMerged swapIo c d₀ newStorage d)
    (hdata : d'.data newStorage.path = d.data newStorage.path) :
    IsMerged swapIo c d₀ newStorage d' :=
  ⟨h.wf, h.find, hdata.trans h.data, h.path, h.lists⟩

/-- The files of the merge do not touch those that are listed. -/
theorem untouched_newPersistentStorage {io : StorageIO} {data : List StorageEntry}
    {r : Result PersistentStorage} (ho : Opened c d₀) (hnew : newPersistentStorage io data d₀ = (r, d)) :
    Untouched d₀ d := by
  obtain ⟨-, hmeta, -, hdata, -⟩ := newPersistentStorage_cases io data d₀
  rw [hnew] at hmeta hdata
  exact ⟨congrFun hmeta _, fun path hl => hdata path (ho.fresh path hl)⟩

theorem isMerged_mergeData {mergeIo : TableIO} (ho : Opened c d₀) (hlists : ListsMerged swapIo d₀)
    (hm : mergeData ⟨mergeIo, .whole⟩ c d₀ = some (.ok newStorage, d)) :
    IsMerged swapIo c d₀ newStorage d := by
  obtain ⟨data, hdata, hnew⟩ := Option.map_eq_some_iff.1 hm
  obtain ⟨hs, hfind⟩ := mergeEntries_eq_some ho.wf hdata
  obtain ⟨-, -, -, -, hok⟩ := newPersistentStorage_cases ⟨mergeIo, .whole⟩ data d₀
  rw [hnew] at hok
  obtain ⟨rfl, hfile⟩ := hok newStorage rfl
  refine ⟨⟨strict_insertionSort hs.nodup⟩, fun k => ?_, hfile, rfl, hlists⟩
  rw [PersistentStorage.find, find_insertionSort hs.nodup, hfind]

/-- What is written is a list that ends with the merged table. -/
theorem IsMerged.mergedLast (h : IsMerged swapIo c d₀ newStorage d) (ho : Opened c d₀) :
    MergedLast d₀ newStorage (swapIo.written ((d₀.metadata .main).getD [] ++ [newStorage.path])) := by
  cases swapIo with
  | flushFails left =>
    obtain ⟨r, rfl, hmem⟩ := h.lists left rfl
    rw [← h.path] at hmem
    have hfresh : newStorage.path ∉ (d₀.metadata .main).getD [] :=
      fun hl => ho.fresh _ (listed_getD.1 hl) h.path
    obtain ⟨old, hold, hlisted⟩ := Rewritten.names_concat hfresh hmem
    exact ⟨old, congrArg some hold, fun path hpath => listed_getD.1 (hlisted path hpath)⟩
  | openFails e | writeFails left | ok => exact ⟨_, rfl, fun path hpath => listed_getD.1 hpath⟩

/-- What is known of the disk at each point, when the merged table gets to the list. -/
def DiskAt (swapIo : AppendIO) (c : PersistentStorageCollection) (d₀ : Disk) : Pc → Disk → Prop
  | .start, d => d = d₀
  | .merged newStorage, d | .staleRemoved newStorage, d => Untouched d₀ d ∧ IsMerged swapIo c d₀ newStorage d
  | .newListed newStorage, d => Untouched d₀ d ∧ IsMerged swapIo c d₀ newStorage d ∧
      MergedLast d₀ newStorage (d.metadata .new)
  | .renamed newStorage toDelete, d => Renamed swapIo c d₀ newStorage d ∧ newStorage.path ∉ toDelete
  | .swapped toDelete, d => ∃ newStorage, Renamed swapIo c d₀ newStorage d ∧ newStorage.path ∉ toDelete
  | .done, d => Untouched d₀ d ∨ ∃ newStorage, Renamed swapIo c d₀ newStorage d

structure Inv (swapIo : AppendIO) (c : PersistentStorageCollection) (d₀ : Disk) (s : State) : Prop where
  disk : DiskAt swapIo c d₀ s.pc s.disk
  collection : (∃ toDelete, s.pc = .swapped toDelete) ∨ s.pc = .done ∨ s.collection = c

theorem notMem_paths (h : IsMerged swapIo c d₀ newStorage d) (ho : Opened c d₀) :
    newStorage.path ∉ c.collection.map PersistentStorage.path := by
  intro hmem
  obtain ⟨st, hst, hpath⟩ := List.mem_map.1 hmem
  rw [← ho.loaded, readCollection_eq] at hst
  obtain ⟨path, hl, hload⟩ := List.mem_filterMap.1 hst
  rw [toOption_loadPersistentStorage] at hload
  obtain ⟨entries, -, rfl⟩ := Option.map_eq_some_iff.1 hload
  exact ho.fresh _ (hpath ▸ listed_getD.1 hl) h.path

/-- The list gets the merged table's name, if the compaction comes to write it. -/
def Keeps (mergeIo : TableIO) (swapIo : AppendIO) (c : PersistentStorageCollection) (d : Disk) : Prop :=
  kCompactionThreshold < c.size → mergeIo.isOk = true → ListsMerged swapIo d

theorem inv_step {mergeIo : TableIO} (ho : Opened c d₀) (hkeeps : Keeps mergeIo swapIo c d₀)
    {s s' : State} {a : Label} (hi : Inv swapIo c d₀ s)
    (hs : step ⟨mergeIo, .whole⟩ swapIo s a = some s') : Inv swapIo c d₀ s' := by
  obtain ⟨pc, c', d⟩ := s
  obtain ⟨hd, hc⟩ := hi
  have hmain : MetadataFile.main ≠ .new := by simp
  cases a with
  | tear left =>
    cases pc with
    | staleRemoved newStorage =>
      cases hs
      refine ⟨⟨hd.1.trans_congr ?_ fun _ _ => rfl, hd.2.congr rfl⟩, hc⟩
      rw [Disk.setMetadata_metadata, Function.update_of_ne hmain]
    | _ => cases hs
  | next =>
    cases pc with
    | start =>
      obtain rfl : d = d₀ := hd
      obtain rfl : c' = c := by simpa using hc
      simp only [step] at hs
      split at hs
      · cases hs
        exact ⟨.inl ⟨rfl, fun _ _ => rfl⟩, .inr (.inl rfl)⟩
      · rename_i hsize
        split at hs <;> cases hs
        · rename_i hm
          obtain ⟨data, -, hnew⟩ := Option.map_eq_some_iff.1 hm
          exact ⟨.inl (untouched_newPersistentStorage ho hnew), .inr (.inl rfl)⟩
        · rename_i hm
          obtain ⟨data, -, hnew⟩ := Option.map_eq_some_iff.1 hm
          have hok := isOk_newPersistentStorage ⟨mergeIo, .whole⟩ data d
          rw [hnew] at hok
          have hlists := hkeeps (not_le.1 hsize) hok.symm
          exact ⟨⟨untouched_newPersistentStorage ho hnew, isMerged_mergeData ho hlists hm⟩, .inr (.inr rfl)⟩
    | merged newStorage =>
      cases hs
      refine ⟨⟨hd.1.trans_congr ?_ fun _ _ => rfl, hd.2.congr rfl⟩, .inr (.inr (by simpa using hc))⟩
      rw [Disk.setMetadata_metadata, Function.update_of_ne hmain]
    | staleRemoved newStorage =>
      obtain ⟨-, hdata, -, hmeta⟩ := appendMetadata_frame swapIo newStorage d .new
      have hok := appendMetadata_ok swapIo newStorage d .new
      simp only [step] at hs
      split at hs
      · rename_i happ
        rw [happ] at hdata hmeta
        cases hs
        exact ⟨.inl (hd.1.trans_congr (hmeta .main hmain) fun path _ => congrFun hdata path), .inr (.inl rfl)⟩
      · rename_i happ
        rw [happ] at hdata hmeta hok
        cases hs
        refine ⟨⟨hd.1.trans_congr (hmeta .main hmain) fun path _ => congrFun hdata path,
          hd.2.congr (congrFun hdata _), ?_⟩, .inr (.inr (by simpa using hc))⟩
        rw [hok rfl, hd.1.metadata]
        exact hd.2.mergedLast ho
    | newListed newStorage =>
      obtain rfl : c' = c := by simpa using hc
      obtain ⟨hu, hm, hnew⟩ := hd
      cases hs
      refine ⟨⟨⟨hm.congr rfl, ?_, fun path hl => .inl (hu.data path hl)⟩, notMem_paths hm ho⟩,
        .inr (.inr rfl)⟩
      rwa [Disk.setMetadata_metadata, Function.update_of_ne hmain, Disk.setMetadata_metadata,
        Function.update_self]
    | renamed newStorage toDelete =>
      cases hs
      exact ⟨⟨newStorage, hd⟩, .inl ⟨toDelete, rfl⟩⟩
    | swapped toDelete =>
      obtain ⟨newStorage, hr, hnot⟩ := hd
      cases toDelete with
      | nil =>
        cases hs
        exact ⟨.inr ⟨newStorage, hr⟩, .inr (.inl rfl)⟩
      | cons path toDelete =>
        cases hs
        obtain ⟨hne, hnot⟩ := List.ne_and_not_mem_of_not_mem_cons hnot
        refine ⟨⟨newStorage, ⟨hr.toIsMerged.congr ?_, hr.metadata, fun p hl => ?_⟩, hnot⟩,
          .inl ⟨toDelete, rfl⟩⟩
        · rw [Disk.setData_data, Function.update_of_ne hne]
        · by_cases hp : p = path
          · subst hp
            exact .inr (by rw [Disk.setData_data, Function.update_self])
          · rw [Disk.setData_data, Function.update_of_ne hp]
            exact hr.old p hl
    | done => cases hs

/-- Wherever the compaction stops, the collection that is read from the disk answers every key as before. -/
theorem get_of_keeps {mergeIo : TableIO} (ho : Opened c d₀) (hkeeps : Keeps mergeIo swapIo c d₀) {s : State}
    (hs : (system ⟨mergeIo, .whole⟩ swapIo c d₀).Reachable s) (key : Str) :
    PersistentStorageCollection.get ⟨Iu9Db.readCollection s.disk⟩ key = c.get key := by
  have hi : Inv swapIo c d₀ s := hs.invariant (fun _ hinit => hinit ▸ ⟨rfl, .inr (.inr rfl)⟩)
    fun _ _ _ hi _ hs => inv_step ho hkeeps hi hs
  have hends : Untouched d₀ s.disk ∨ ∃ newStorage, Renamed swapIo c d₀ newStorage s.disk := by
    have hd := hi.disk
    cases hpc : s.pc with
    | start =>
      rw [hpc] at hd
      exact .inl (hd ▸ ⟨rfl, fun _ _ => rfl⟩)
    | merged newStorage | staleRemoved newStorage | newListed newStorage =>
      rw [hpc] at hd
      exact .inl hd.1
    | renamed newStorage toDelete =>
      rw [hpc] at hd
      exact .inr ⟨newStorage, hd.1⟩
    | swapped toDelete =>
      rw [hpc] at hd
      obtain ⟨newStorage, hr, -⟩ := hd
      exact .inr ⟨newStorage, hr⟩
    | done =>
      rw [hpc] at hd
      exact hd
  rcases hends with hu | ⟨newStorage, hr⟩
  · rw [hu.readCollection, ho.loaded]
  · exact PersistentStorageCollection.get_congr (hr.wf_readCollection ho) ho.wf
      (hr.find_readCollection ho key)

/-! ### A list without the merged table -/

/-- A table that is listed and loads is in the collection. -/
theorem Opened.mem_paths (ho : Opened c d₀) {path : FileId} {entries : List StorageEntry}
    (hl : d₀.Listed path) (hdata : d₀.data path = some entries) :
    path ∈ c.collection.map PersistentStorage.path := by
  have hload : (⟨path, entries⟩ : PersistentStorage) ∈ Iu9Db.readCollection d₀ := by
    rw [readCollection_eq]
    refine List.mem_filterMap.2 ⟨path, listed_getD.2 hl, ?_⟩
    rw [toOption_loadPersistentStorage, hdata]
    rfl
  exact List.mem_map.2 ⟨_, ho.loaded ▸ hload, rfl⟩

/-- The list without the merged table replaces the old one, and the tables that it lists are removed. -/
theorem runCompaction_of_lost {mergeIo : TableIO} (ho : Opened c d₀) (hfilled : c.Filled)
    (hsize : kCompactionThreshold < c.size) (hmerge : mergeIo.isOk = true) {left : Option Rewritten}
    (hlost : ∀ r ∈ left, d₀.nextFile ∉ r.names ((d₀.metadata .main).getD [] ++ [d₀.nextFile])) :
    ∃ c' d', runCompaction ⟨mergeIo, .whole⟩ (.flushFails left) c d₀ = some (c', d') ∧
      Iu9Db.readCollection d' = [] := by
  obtain ⟨data, hdata, -⟩ := mergeEntries_spec ho.wf hfilled
  obtain ⟨-, hmeta, -, hother, hok⟩ := newPersistentStorage_cases ⟨mergeIo, .whole⟩ data d₀
  have hisOk := isOk_newPersistentStorage ⟨mergeIo, .whole⟩ data d₀
  generalize hnew : newPersistentStorage ⟨mergeIo, .whole⟩ data d₀ = x at hmeta hother hok hisOk
  obtain ⟨r, d₁⟩ := x
  obtain ⟨newStorage, rfl⟩ : ∃ newStorage, r = .ok newStorage := by
    cases r with
    | ok newStorage => exact ⟨newStorage, rfl⟩
    | error e => cases hisOk.trans hmerge
  have hpath : newStorage.path = d₀.nextFile := by rw [(hok newStorage rfl).1]
  have hm : mergeData ⟨mergeIo, .whole⟩ c d₀ = some (.ok newStorage, d₁) :=
    Option.map_eq_some_iff.2 ⟨data, hdata, hnew⟩
  obtain ⟨-, hdata₂, -, -⟩ :=
    appendMetadata_frame (.flushFails left) newStorage (d₁.setMetadata .new none) .new
  have hnewMeta := appendMetadata_ok (.flushFails left) newStorage (d₁.setMetadata .new none) .new rfl
  generalize happ : appendMetadata (.flushFails left) newStorage (d₁.setMetadata .new none) .new =
    y at hdata₂ hnewMeta
  obtain ⟨u, d₂⟩ := y
  obtain rfl : u = .ok () := (congrArg Prod.fst happ).symm
  refine ⟨⟨[newStorage]⟩, PersistentStorageCollection.removeFiles (c.collection.map PersistentStorage.path)
    ((d₂.setMetadata .main (d₂.metadata .new)).setMetadata .new none), ?_, ?_⟩
  · unfold runCompaction
    rw [if_neg (not_le.2 hsize), hm]
    simp only [Option.bind_eq_bind, Option.bind_some, PersistentStorageCollection.swapWith, happ]
  have hmain : MetadataFile.main ≠ .new := by simp
  have hd₁ : (d₁.setMetadata .new none).metadata .main = d₀.metadata .main := by
    rw [Disk.setMetadata_metadata, Function.update_of_ne hmain, hmeta]
  rw [hd₁, hpath] at hnewMeta
  rw [readCollection_eq, List.filterMap_eq_nil_iff, PersistentStorageCollection.metadata_removeFiles,
    Disk.setMetadata_metadata, Function.update_of_ne hmain, Disk.setMetadata_metadata,
      Function.update_self, hnewMeta]
  intro path hmem
  rw [toOption_loadPersistentStorage, PersistentStorageCollection.data_removeFiles]
  split
  · rfl
  rename_i hnot
  cases left with
  | none => cases hmem
  | some r =>
    change path ∈ r.names ((d₀.metadata .main).getD [] ++ [d₀.nextFile]) at hmem
    have hne : path ≠ d₀.nextFile := fun h => hlost r rfl (h ▸ hmem)
    have hl : d₀.Listed path := by
      rcases List.mem_append.1 (Rewritten.mem_of_names hmem) with hold | hnew
      · exact listed_getD.1 hold
      · exact absurd (List.mem_singleton.1 hnew) hne
    show ((d₂.data path).map fun entries => (⟨path, entries⟩ : PersistentStorage)) = none
    rw [hdata₂, Disk.setMetadata_data, hother path hne]
    cases hentries : d₀.data path with
    | none => rfl
    | some entries => exact absurd (ho.mem_paths hl hentries) hnot

/-- A collection of tables with records finds something. -/
theorem exists_get_ok (hwf : c.Wf) (hfilled : c.Filled) (hne : c.collection ≠ []) :
    ∃ key res, c.get key = .ok res := by
  obtain ⟨st, rest, hc⟩ := List.exists_cons_of_ne_nil hne
  have hst : st ∈ c.collection := hc ▸ List.mem_cons_self
  obtain ⟨e, entries, he⟩ := List.exists_cons_of_ne_nil (hfilled st hst)
  have hfind : (c.find e.key).isSome = true := by
    rw [PersistentStorageCollection.find, List.findSome?_isSome_iff]
    refine ⟨st, List.mem_reverse.2 hst, ?_⟩
    rw [PersistentStorage.find, he]
    simp [Keyed.find]
  rw [← PersistentStorageCollection.get_eq hwf] at hfind
  cases hget : c.get e.key with
  | ok res => exact ⟨e.key, res, hget⟩
  | error err => rw [hget] at hfind; cases hfind

end

/-- **Wherever the compaction stops, the collection that is read from the disk answers every key as
before, unless the flush of the new list loses the name of the merged table.** -/
theorem get_readCollection_iff {c : PersistentStorageCollection} {d : Disk} (ho : Opened c d)
    (hfilled : c.Filled) (mergeIo : TableIO) (swapIo : AppendIO) :
    (∀ s, (system ⟨mergeIo, .whole⟩ swapIo c d).Reachable s → ∀ key,
      PersistentStorageCollection.get ⟨readCollection s.disk⟩ key =
        c.get key) ↔ Keeps mergeIo swapIo c d := by
  refine ⟨fun h hsize hmerge left hleft => ?_, fun hkeeps s hs key => get_of_keeps ho hkeeps hs key⟩
  by_contra hlost
  subst hleft
  have hlost : ∀ r ∈ left, d.nextFile ∉ r.names ((d.metadata .main).getD [] ++ [d.nextFile]) :=
    fun r hr hmem => hlost ⟨r, hr, hmem⟩
  obtain ⟨c', d', hrun, hread⟩ := runCompaction_of_lost ho hfilled hsize hmerge hlost
  have hne : c.collection ≠ [] := fun hnil => by
    rw [PersistentStorageCollection.size, hnil] at hsize
    cases hsize
  obtain ⟨key, res, hget⟩ := exists_get_ok ho.wf hfilled hne
  have hsame := h _ (reachable_runCompaction hrun) key
  rw [hread, hget] at hsame
  cases hsame

/-- Six tables with one record each, and their files. -/
def sixTables : PersistentStorageCollection :=
  ⟨(List.range 6).map fun i => ⟨i, [⟨[UInt8.ofNat i], some [1], 1⟩]⟩⟩

def sixFiles : Disk :=
  ⟨6, fun _ => none, fun f => if f < 6 then some [⟨[UInt8.ofNat f], some [1], 1⟩] else none,
    Function.update (fun _ => none) .main (some (List.range 6))⟩

theorem opened_sixTables : Opened sixTables sixFiles where
  wf st hst := by
    obtain ⟨i, -, rfl⟩ := List.mem_map.1 hst
    exact ⟨List.pairwise_singleton _ _⟩
  loaded := by decide
  fresh path hl := by
    obtain ⟨paths, hpaths, hmem⟩ := hl
    cases hpaths
    exact ne_of_lt (List.mem_range.1 hmem)

theorem filled_sixTables : sixTables.Filled := by
  intro st hst
  obtain ⟨i, -, rfl⟩ := List.mem_map.1 hst
  exact List.cons_ne_nil _ _

/-- With room for the flush, the disk may be reopened at any point; the last one is when one of the
old files is gone. -/
theorem get_readCollection_sixTables : Keeps .succeeds .ok sixTables sixFiles ∧ ∃ s,
    exec (step .succeeds .ok) ⟨.start, sixTables, sixFiles⟩ (List.replicate 6 .next) = some s ∧
      ∀ key, PersistentStorageCollection.get ⟨readCollection s.disk⟩ key = sixTables.get key := by
  have hkeeps : Keeps .succeeds .ok sixTables sixFiles := fun _ _ left hleft => by cases hleft
  obtain ⟨s, hs⟩ : ∃ s,
      exec (step .succeeds .ok) ⟨.start, sixTables, sixFiles⟩ (List.replicate 6 .next) = some s :=
    Option.isSome_iff_exists.1 (by decide +kernel)
  have hreach : (system .succeeds .ok sixTables sixFiles).Reachable s := reachable_exec (.init rfl) hs
  exact ⟨hkeeps, s, hs,
    (get_readCollection_iff opened_sixTables filled_sixTables .succeeds .ok).2 hkeeps s hreach⟩

/-- The merged table is written, and then there is no room for the list with its name. -/
theorem not_get_readCollection : ¬ ∀ c d, Opened c d → c.Filled → ∀ mergeIo swapIo s,
    (system ⟨mergeIo, .whole⟩ swapIo c d).Reachable s → ∀ key,
      PersistentStorageCollection.get ⟨readCollection s.disk⟩ key = c.get key := by
  intro h
  obtain ⟨s, hs⟩ : ∃ s, exec (step .succeeds (.flushFails (some ⟨0, 0, 0⟩))) ⟨.start, sixTables, sixFiles⟩
      (List.replicate 12 .next) = some s := Option.isSome_iff_exists.1 (by decide +kernel)
  have hreach : (system .succeeds (.flushFails (some ⟨0, 0, 0⟩)) sixTables sixFiles).Reachable s :=
    reachable_exec (.init rfl) hs
  have hread : readCollection s.disk = [] :=
    eq_of_map_exec hs (f := fun s => readCollection s.disk) (by decide +kernel)
  have hget := h _ _ opened_sixTables filled_sixTables .succeeds (.flushFails (some ⟨0, 0, 0⟩)) s hreach [0]
  rw [hread] at hget
  revert hget
  decide +kernel

end CompactionCrash

end Iu9Db
