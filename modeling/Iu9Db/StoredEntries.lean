import Iu9Db.Recovery

/-!
# What holds of every stored entry

`Holds P s`: every row in memory, every record of a table and every record of a WAL file satisfies `P`.
An operation brings in its own entry (`Holds.exec`); a statement of a job and recovery only move entries
from one place to another (`holdsAt_step`, `holds_initializeStorages`).
-/

namespace Iu9Db

open Keyed StorageSystem

/-- A table on disk whose records satisfy `P`. -/
structure TableHolds (P : StorageEntry → Prop) (entries : List StorageEntry) : Prop where
  strict : Strict StorageEntry.key entries
  all : ∀ e ∈ entries, P e

structure Disk.Holds (P : StorageEntry → Prop) (d : Disk) : Prop where
  wal : ∀ f l, d.wal f = some l → ∀ r ∈ l, ∃ w : Write, w.record = r ∧ P (w.value.toEntry w.key)
  data : ∀ f entries, d.data f = some entries → TableHolds P entries

structure Holds (P : StorageEntry → Prop) (s : StorageSystem) : Prop where
  tables : ∀ t k v, (s.storage.tables t).find k = some v → P (v.toEntry k)
  collection : ∀ st ∈ s.persistentStorage.collection, TableHolds P st.entries
  disk : s.disk.Holds P

/-- What a job carries from one statement to the next. -/
def PcHolds (P : StorageEntry → Prop) : SwapJob → Prop
  | .collected _ data => (data.map StorageEntry.key).Nodup ∧ ∀ e ∈ data, P e
  | .created _ persistent | .listed _ persistent => TableHolds P persistent.entries
  | .merged newStorage | .newListed newStorage | .renamed newStorage _ => TableHolds P newStorage.entries
  | _ => True

section
variable {P Q : StorageEntry → Prop} {s s' : StorageSystem} {d d' : Disk}

theorem TableHolds.mono {entries : List StorageEntry} (h : TableHolds P entries) (hPQ : ∀ e, P e → Q e) :
    TableHolds Q entries :=
  ⟨h.strict, fun e he => hPQ e (h.all e he)⟩

theorem Disk.Holds.mono (h : d.Holds P) (hPQ : ∀ e, P e → Q e) : d.Holds Q where
  wal f l hl r hr := by
    obtain ⟨w, hw, hP⟩ := h.wal f l hl r hr
    exact ⟨w, hw, hPQ _ hP⟩
  data f entries hf := (h.data f entries hf).mono hPQ

theorem Holds.mono (h : Holds P s) (hPQ : ∀ e, P e → Q e) : Holds Q s where
  tables t k v hv := hPQ _ (h.tables t k v hv)
  collection st hst := (h.collection st hst).mono hPQ
  disk := h.disk.mono hPQ

theorem PcHolds.mono {pc : SwapJob} (h : PcHolds P pc) (hPQ : ∀ e, P e → Q e) : PcHolds Q pc := by
  cases pc with
  | collected path data => exact ⟨h.1, fun e he => hPQ e (h.2 e he)⟩
  | created _ _ | listed _ _ | merged _ | newListed _ | renamed _ _ => exact TableHolds.mono h hPQ
  | _ => trivial

/-! ### What the engine answers with -/

theorem Holds.wf (h : Holds P s) : s.persistentStorage.Wf := fun st hst => ⟨(h.collection st hst).strict⟩

theorem Holds.memory (h : Holds P s) {k : Str} {row : Value} (hrow : s.storage.find k = some row) :
    P (row.toEntry k) := by
  rcases Option.or_eq_some_iff.1 hrow with hfirst | ⟨-, hsecond⟩
  · exact h.tables _ k row hfirst
  · exact h.tables _ k row hsecond

theorem of_find {c : PersistentStorageCollection} (hc : ∀ st ∈ c.collection, TableHolds P st.entries)
    {k : Str} {record : StorageEntry} (hrec : c.find k = some record) : P record := by
  obtain ⟨st, hst, hfind⟩ := List.exists_of_findSome?_eq_some hrec
  exact (hc st (List.mem_reverse.1 hst)).all record (mem_of_find hfind)

theorem Holds.entry (h : Holds P s) {k : Str} {v : Value} (hv : s.entry k = some v) : P (v.toEntry k) := by
  rcases Option.or_eq_some_iff.1 hv with hmem | ⟨-, hdisk⟩
  · exact h.memory hmem
  · obtain ⟨record, hrec, rfl⟩ := Option.map_eq_some_iff.1 hdisk
    rw [← PersistentStorageCollection.key_of_find hrec]
    exact of_find h.collection hrec

/-! ### The disk -/

theorem Disk.Holds.congr (h : d.Holds P) (hwal : d'.wal = d.wal) (hdata : d'.data = d.data) : d'.Holds P :=
  ⟨hwal ▸ h.wal, hdata ▸ h.data⟩

theorem Disk.Holds.setWal (h : d.Holds P) (file : FileId) {content : Option (List WalEntry)}
    (hc : ∀ l, content = some l → ∀ r ∈ l, ∃ w : Write, w.record = r ∧ P (w.value.toEntry w.key)) :
    (d.setWal file content).Holds P where
  wal f l hl := by
    by_cases hf : f = file
    · subst hf
      rw [Disk.setWal_wal, Function.update_self] at hl
      exact hc l hl
    · rw [Disk.setWal_wal, Function.update_of_ne hf] at hl
      exact h.wal f l hl
  data := h.data

theorem Disk.Holds.setData (h : d.Holds P) (file : FileId) {content : Option (List StorageEntry)}
    (hc : ∀ entries, content = some entries → TableHolds P entries) : (d.setData file content).Holds P where
  wal := h.wal
  data f entries hf := by
    by_cases he : f = file
    · subst he
      rw [Disk.setData_data, Function.update_self] at hf
      exact hc entries hf
    · rw [Disk.setData_data, Function.update_of_ne he] at hf
      exact h.data f entries hf

theorem Disk.Holds.removeWal (h : d.Holds P) (path : FileId) : (removeWal path d).Holds P :=
  h.setWal path fun l hl => by cases hl

theorem Disk.Holds.newWalWriter (h : d.Holds P) {created : Result Unit} {r : Result FileId}
    (hnew : newWalWriter created d = (r, d')) : d'.Holds P := by
  unfold Iu9Db.newWalWriter at hnew
  cases created <;> cases hnew
  · exact h.congr rfl rfl
  · have htaken : d.takeName.Holds P := h.congr rfl rfl
    refine htaken.setWal _ fun l hl r hr => ?_
    cases hl
    cases hr

theorem tableHolds_insertionSort {data : List StorageEntry} (hkeys : (data.map StorageEntry.key).Nodup)
    (hall : ∀ e ∈ data, P e) : TableHolds P (data.insertionSort (· ≤ ·)) :=
  ⟨strict_insertionSort hkeys, fun e he => hall e ((List.mem_insertionSort (· ≤ ·)).1 he)⟩

/-- A part of a table is one. -/
theorem TableHolds.left {rows entries : List StorageEntry} (h : TableHolds P rows) {written : Written}
    (hleft : written.left rows = some entries) : TableHolds P entries where
  strict := by
    cases written with
    | whole => cases hleft; exact h.strict
    | indexCut offsets =>
      obtain ⟨n, -, rfl⟩ := Option.map_eq_some_iff.1 hleft
      exact h.strict.sublist (List.take_sublist n rows)
    | dataCut => cases hleft
  all e he := h.all e (Written.mem_of_left hleft e he)

theorem Disk.Holds.newPersistentStorage (h : d.Holds P) {io : StorageIO} {data : List StorageEntry}
    (hkeys : (data.map StorageEntry.key).Nodup) (hall : ∀ e ∈ data, P e) {r : Result PersistentStorage}
    (hnew : newPersistentStorage io data d = (r, d')) : d'.Holds P := by
  have hsorted := tableHolds_insertionSort hkeys hall
  obtain ⟨hwal, -⟩ := newPersistentStorage_cases io data d
  have hdata := data_newPersistentStorage io data d
  rw [hnew] at hwal hdata
  rcases hdata with hdata | hdata
  · exact h.congr hwal hdata
  · exact (h.setData d.nextFile fun entries he => hsorted.left he).congr hwal hdata

theorem tableHolds_newPersistentStorage {io : StorageIO} {data : List StorageEntry}
    (hkeys : (data.map StorageEntry.key).Nodup) (hall : ∀ e ∈ data, P e) {persistent : PersistentStorage}
    (hnew : newPersistentStorage io data d = (.ok persistent, d')) : TableHolds P persistent.entries := by
  obtain ⟨-, -, -, -, hok⟩ := newPersistentStorage_cases io data d
  rw [hnew] at hok
  obtain ⟨rfl, -⟩ := hok persistent rfl
  exact tableHolds_insertionSort hkeys hall

theorem Disk.Holds.appendMetadata (h : d.Holds P) {io : AppendIO} {storage : PersistentStorage}
    {f : MetadataFile} {r : Result Unit} (happ : appendMetadata io storage d f = (r, d')) : d'.Holds P := by
  obtain ⟨hwal, hdata, -⟩ := appendMetadata_frame io storage d f
  rw [happ] at hwal hdata
  exact h.congr hwal hdata

theorem Disk.Holds.readCollection (h : d.Holds P) : ∀ st ∈ readCollection d, TableHolds P st.entries := by
  intro st hst
  unfold Iu9Db.readCollection at hst
  split at hst
  · cases hst
  · obtain ⟨filename, -, hload⟩ := List.mem_filterMap.1 hst
    unfold loadPersistentStorage at hload
    split at hload
    · cases hload
    · rename_i entries hdata
      cases hload
      exact h.data _ entries hdata

/-! ### Operations and jobs -/

theorem holds_ofMap {storage : MapStorage} (hrows : ∀ k v, storage.find k = some v → P (v.toEntry k))
    (t : TableId) (k : Str) (v : Value)
    (hv : ((SwappableMemoryStorage.ofMap storage).tables t).find k = some v) :
    P (v.toEntry k) := by
  by_cases ht : t = 1
  · subst ht
    exact hrows k v hv
  · simp only [SwappableMemoryStorage.ofMap, Function.update_of_ne ht, MapStorage.find_empty] at hv
    cases hv

theorem of_find_empty (k : Str) (v : Value) (hv : MapStorage.empty.find k = some v) : P (v.toEntry k) := by
  rw [MapStorage.find_empty] at hv
  cases hv

theorem holds_new : Holds P .new where
  tables := holds_ofMap of_find_empty
  collection st hst := by cases hst
  disk := by
    refine Disk.Holds.setWal ⟨fun f l hl => ?_, fun f entries hf => ?_⟩ 0 fun l hl r hr => ?_
    · cases hl
    · cases hf
    · cases hl
      cases hr

theorem Holds.setDisk (h : Holds P s) (hd : d.Holds P) : Holds P { s with disk := d } :=
  ⟨h.tables, h.collection, hd⟩

theorem Holds.exec (h : Holds P s) (isOk : Bool) {w : Write}
    (hw : omits w.version (s.get w.key) = false → isOk = true → P (w.value.toEntry w.key)) :
    Holds P (exec isOk w s).2 := by
  rcases exec_cases isOk w s with ⟨-, he⟩ | ⟨-, -, e, he⟩ | ⟨ho, hok, he⟩
  · rw [he]; exact h
  · rw [he]; exact h
  · rw [he]
    have hP := hw ho hok
    refine ⟨fun t k v hv => ?_, h.collection, h.disk.setWal _ fun l hl r hr => ?_⟩
    · by_cases ht : t = s.storage.writerTable
      · subst ht
        simp only [SwappableMemoryStorage.setTable, Function.update_self, Write.find_applyTo] at hv
        split at hv
        · rename_i hk
          cases hv
          exact hk ▸ hP
        · exact h.tables _ k v hv
      · simp only [SwappableMemoryStorage.setTable, Function.update_of_ne ht] at hv
        exact h.tables t k v hv
    · obtain ⟨l₀, hl₀, rfl⟩ := Option.map_eq_some_iff.1 hl
      rcases List.mem_append.1 hr with hr | hr
      · exact h.disk.wal _ l₀ hl₀ r hr
      · exact ⟨w, (List.mem_singleton.1 hr).symm, hP⟩

/-- A merge has no records but those of the collection. -/
theorem of_mergeEntries {storages : List PersistentStorage} (hc : ∀ st ∈ storages, TableHolds P st.entries)
    {data : List StorageEntry} (hdata : mergeEntries storages = some data) :
    (data.map StorageEntry.key).Nodup ∧ ∀ e ∈ data, P e := by
  obtain ⟨hs, hfind⟩ := mergeEntries_eq_some (fun st hst => ⟨(hc st hst).strict⟩) hdata
  refine ⟨hs.nodup, fun e he => ?_⟩
  have hrec := hfind e.key
  rw [find_of_mem hs.nodup he] at hrec
  exact of_find (c := ⟨storages⟩) hc hrec.symm

/-- **A statement of a job stores no entry that was not there.** -/
theorem holdsAt_step {io : SwapJobIO} {pc pc' : SwapJob} (h : Holds P s) (hpc : PcHolds P pc)
    (hs : SwapJob.step io pc s = some (pc', s')) : Holds P s' ∧ PcHolds P pc' := by
  cases SwapJob.step_cases hs with
  | newWalFails hnew | newWal hnew => exact ⟨h.setDisk (h.disk.newWalWriter hnew), trivial⟩
  | swapWal | exchangeWriter | exchangeSecond => exact ⟨⟨h.tables, h.collection, h.disk⟩, trivial⟩
  | waitWriters _ | few _ | filesRemoved => exact ⟨h, trivial⟩
  | copySecond =>
    exact ⟨h, MapStorage.toEntries_keys_nodup _, fun e he => h.tables _ e.key _
      (MapStorage.mem_toEntries.1 he)⟩
  | tableFails hnew => exact ⟨h.setDisk (h.disk.newPersistentStorage hpc.1 hpc.2 hnew), trivial⟩
  | table hnew =>
    exact ⟨h.setDisk (h.disk.newPersistentStorage hpc.1 hpc.2 hnew),
      tableHolds_newPersistentStorage hpc.1 hpc.2 hnew⟩
  | appendFails happ => exact ⟨h.setDisk (h.disk.appendMetadata happ), trivial⟩
  | append happ => exact ⟨h.setDisk (h.disk.appendMetadata happ), hpc⟩
  | add =>
    refine ⟨⟨h.tables, fun st hst => ?_, h.disk⟩, trivial⟩
    rcases List.mem_append.1 hst with hst | hst
    · exact h.collection st hst
    · rw [List.mem_singleton.1 hst]; exact hpc
  | storeFirst =>
    refine ⟨⟨fun t k v hv => ?_, h.collection, h.disk⟩, trivial⟩
    by_cases ht : t = s.storage.nextTable
    · subst ht
      simp only [SwappableMemoryStorage.storeFirst, Function.update_self, MapStorage.find_empty] at hv
      cases hv
    · simp only [SwappableMemoryStorage.storeFirst, Function.update_of_ne ht] at hv
      exact h.tables t k v hv
  | removeWal => exact ⟨h.setDisk (h.disk.removeWal _), trivial⟩
  | mergeFails hm =>
    obtain ⟨data, hdata, hnew⟩ := Option.map_eq_some_iff.1 hm
    obtain ⟨hkeys, hall⟩ := of_mergeEntries h.collection hdata
    exact ⟨h.setDisk (h.disk.newPersistentStorage hkeys hall hnew), trivial⟩
  | merge hm =>
    obtain ⟨data, hdata, hnew⟩ := Option.map_eq_some_iff.1 hm
    obtain ⟨hkeys, hall⟩ := of_mergeEntries h.collection hdata
    exact ⟨h.setDisk (h.disk.newPersistentStorage hkeys hall hnew),
      tableHolds_newPersistentStorage hkeys hall hnew⟩
  | appendNewFails happ =>
    have hremoved : (s.disk.setMetadata .new none).Holds P := h.disk.congr rfl rfl
    exact ⟨h.setDisk (hremoved.appendMetadata happ), trivial⟩
  | appendNew happ =>
    have hremoved : (s.disk.setMetadata .new none).Holds P := h.disk.congr rfl rfl
    exact ⟨h.setDisk (hremoved.appendMetadata happ), hpc⟩
  | rename => exact ⟨h.setDisk (h.disk.congr rfl rfl), hpc⟩
  | swapCollection =>
    refine ⟨⟨h.tables, fun st hst => ?_, h.disk⟩, trivial⟩
    rw [List.mem_singleton.1 hst]; exact hpc
  | removeFile => exact ⟨h.setDisk (h.disk.setData _ fun entries he => by cases he), trivial⟩

theorem holds_steps {io : SwapJobIO} {a b : SwapJob × StorageSystem} (h : Holds P a.2) (hpc : PcHolds P a.1)
    (hs : SwapJob.Steps io a b) : Holds P b.2 := by
  have hboth : Holds P b.2 ∧ PcHolds P b.1 := by
    induction hs with
    | refl => exact ⟨h, hpc⟩
    | tail _ hstep ih => exact holdsAt_step ih.1 ih.2 hstep
  exact hboth.1

/-! ### Recovery -/

theorem holds_apply (h : d.Holds P) {file : FileId} {operations : List Operation} {n : Nat}
    {storage : MapStorage} (hread : readWal file d = .ok (operations, n))
    (happly : apply operations .empty = some storage) :
    ∀ k v, storage.find k = some v → P (v.toEntry k) := by
  unfold readWal at hread
  cases hwal : d.wal file with
  | none => rw [hwal] at hread; cases hread
  | some l =>
    rw [hwal] at hread
    cases hread
    obtain ⟨ws, rfl, hws⟩ : ∃ ws : List Write, ws.map Write.record = l ∧ ∀ w ∈ ws,
      P (w.value.toEntry w.key) := by
      have hl := h.wal file l hwal
      clear hwal happly
      induction l with
      | nil => exact ⟨[], rfl, fun w hw => by cases hw⟩
      | cons r l ih =>
        obtain ⟨w, rfl, hP⟩ := hl r List.mem_cons_self
        obtain ⟨ws, rfl, hws⟩ := ih fun r hr => hl r (List.mem_cons_of_mem _ hr)
        refine ⟨w :: ws, rfl, fun w' hw' => ?_⟩
        rcases List.mem_cons.1 hw' with rfl | hw'
        · exact hP
        · exact hws w' hw'
    have happly' : apply ((ws.map Write.record).filterMap WalEntry.toOperation) .empty = some (replay ws) :=
      apply_records ws .empty
    rw [happly'] at happly
    cases happly
    intro k v hv
    rw [find_replay] at hv
    obtain ⟨w, hw, rfl, rfl⟩ := exists_of_lastValue hv
    exact hws w hw

variable {io : RecoveryIO} {threshold : Nat} {r r' : Recovering}

theorem holds_initializeFrom {file walWriter : FileId}
    (h : Holds P ⟨walWriter, r.memstorage, r.persistentCollection, d⟩)
    (hs : initializeFrom io threshold file r d = some (.ok r', d')) :
    Holds P ⟨walWriter, r'.memstorage, r'.persistentCollection, d'⟩ := by
  unfold initializeFrom at hs
  split at hs
  · cases hs
  · rename_i operations n hread
    split at hs
    · rename_i storage version happly hversion
      have hrows := holds_apply h.disk hread happly
      split at hs
      · have hkeys := storage.toEntries_keys_nodup
        have hall : ∀ e ∈ storage.toEntries, P e := fun e he =>
          hrows e.key _ (MapStorage.mem_toEntries.1 he)
        split at hs
        · cases hs
        · rename_i persistent d₁ hnew
          have hd₁ := h.disk.newPersistentStorage hkeys hall hnew
          have htable := tableHolds_newPersistentStorage hkeys hall hnew
          unfold PersistentStorageCollection.add at hs
          cases happ : appendMetadata (io.append file) persistent d₁ with
          | mk res d₂ =>
            rw [happ] at hs
            cases res with
            | error e => cases hs
            | ok u =>
              simp only at hs
              split at hs <;> cases hs
              refine ⟨h.tables, fun st hst => ?_, (hd₁.appendMetadata happ).removeWal file⟩
              rcases List.mem_append.1 hst with hst | hst
              · exact h.collection st hst
              · rw [List.mem_singleton.1 hst]; exact htable
      · split at hs <;> cases hs
        exact ⟨holds_ofMap hrows, h.collection, h.disk⟩
    · cases hs

theorem holds_initializeLoop {files : List FileId} {walWriter : FileId}
    (h : Holds P ⟨walWriter, r.memstorage, r.persistentCollection, d⟩)
    (hs : initializeLoop io threshold files r d = some (.ok r', d')) :
    Holds P ⟨walWriter, r'.memstorage, r'.persistentCollection, d'⟩ := by
  induction files generalizing r d with
  | nil => cases hs; exact h
  | cons file files ih =>
    unfold initializeLoop at hs
    split at hs
    · rename_i r₁ d₁ hfrom
      exact ih (holds_initializeFrom h hfrom) hs
    · rename_i hno
      exact absurd hs (hno r' d')

/-- **Recovery serves no entry that was not on the disk.** -/
theorem holds_initializeStorages (h : d.Holds P) {init : Initialized}
    (hs : initializeStorages io threshold d = some (.ok init, d')) : Holds P (init.storageSystem d') := by
  unfold initializeStorages at hs
  split at hs
  · cases hs
  · split at hs
    · cases hs
    · cases hs
    · rename_i r d₁ hloop
      have hloop' : Holds P ⟨0, r.memstorage, r.persistentCollection, d₁⟩ :=
        holds_initializeLoop ⟨holds_ofMap of_find_empty, h.readCollection, h⟩ hloop
      split at hs
      · cases hs
        exact ⟨hloop'.tables, hloop'.collection, hloop'.disk⟩
      · unfold newSwappableWalWriter at hs
        cases hnew : newWalWriter io.newWal d₁ with
        | mk res d₂ =>
          rw [hnew] at hs
          cases res with
          | error e => cases hs
          | ok file =>
            cases hs
            exact ⟨hloop'.tables, hloop'.collection, hloop'.disk.newWalWriter hnew⟩

end

end Iu9Db
