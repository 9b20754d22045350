import Iu9Db.RecoveryRuns
import Iu9Db.Lib.Transition

/-!
# Where a recovery can stop

The loop of `InitializeStorages` as the sequence of what it does to the disk, with a torn write of the
table files among it (`reachable_initializeLoop`: the sequence ends where the function does). Wherever
it stops, the directory has one more table of the rows of the WAL at most, and the WAL is there until
such a table is listed: `Leaves`. So another run, after any number of these, answers like one that was
not interrupted.
-/

namespace Iu9Db

open Keyed Transition

namespace RecoveryCrash

inductive Pc
  | turn
  | writing (file path : FileId) (data : List StorageEntry)
  | written (file : FileId) (storage : PersistentStorage)
  | listed (file : FileId)
deriving DecidableEq

structure State where
  pc : Pc
  files : List FileId
  recovering : Recovering
  disk : Disk

/-- `tear` leaves a part of the table files that are being written. -/
inductive Label
  | next
  | tear (left : Option (List StorageEntry))

/-- A step of the loop; no operation of it fails. -/
def step (threshold : Nat) (s : State) : Label → Option State
  | .tear left =>
    match s.pc with
    | .writing _ path _ => some { s with disk := s.disk.setData path left }
    | _ => none
  | .next =>
    match s.pc with
    | .turn =>
      match s.files with
      | [] => none
      | file :: files =>
        match readWal file s.disk with
        | .error _ => none
        | .ok (operations, _) =>
          match apply operations .empty, getMaxVersion operations with
          | some storage, some version =>
            let r := { s.recovering with maxVersion := max s.recovering.maxVersion version }
            if storage.size > threshold then
              some ⟨.writing file s.disk.nextFile storage.toEntries, files, r, s.disk.takeName⟩
            else some ⟨.turn, files, { r with memstorage := .ofMap storage, walWriter := some file }, s.disk⟩
          | _, _ => none
    | .writing file path data =>
      let data := data.insertionSort (· ≤ ·)
      some { s with pc := .written file ⟨path, data⟩, disk := s.disk.setData path (some data) }
    | .written file storage =>
      match s.recovering.persistentCollection.add .ok storage s.disk with
      | (.error _, _, _) => none
      | (.ok _, c, d) => some { s with
          pc := .listed file, recovering := { s.recovering with persistentCollection := c }, disk := d }
    | .listed file => some { s with pc := .turn, disk := removeWal file s.disk }

/-- The loop over `files`. -/
def system (threshold : Nat) (files : List FileId) (r : Recovering) (d : Disk) : System State Label :=
  ofFun (fun s => s = ⟨.turn, files, r, d⟩) (step threshold)

/-! ### The steps and the function -/

section
variable {threshold : Nat} {S : State → Prop} {s s' : State} {file : FileId} {files listing : List FileId}
  {r r' : Recovering} {d d' : Disk}

theorem next_reachable (s' : State) (h : (ofFun S (step threshold)).Reachable s)
    (hs : step threshold s .next = some s') : (ofFun S (step threshold)).Reachable s' :=
  .step h (a := .next) trivial hs

theorem reachable_initializeFrom (h : (ofFun S (step threshold)).Reachable ⟨.turn, file :: files, r, d⟩)
    (hfrom : initializeFrom (.succeeds listing) threshold file r d = some (.ok r', d')) :
    (ofFun S (step threshold)).Reachable ⟨.turn, files, r', d'⟩ := by
  unfold initializeFrom at hfrom
  cases hread : readWal file d with
  | error e => rw [hread] at hfrom; cases hfrom
  | ok read =>
    obtain ⟨operations, n⟩ := read
    rw [hread] at hfrom
    dsimp only at hfrom
    cases happly : apply operations .empty with
    | none => rw [happly] at hfrom; cases hfrom
    | some storage =>
      cases hmax : getMaxVersion operations with
      | none => rw [happly, hmax] at hfrom; cases hfrom
      | some version =>
        rw [happly, hmax] at hfrom
        dsimp only at hfrom
        by_cases hlarge : storage.size > threshold
        · rw [if_pos hlarge] at hfrom
          let storage' : PersistentStorage := ⟨d.nextFile, storage.toEntries.insertionSort (· ≤ ·)⟩
          have hwriting := next_reachable ⟨.writing file d.nextFile storage.toEntries, files,
            { r with maxVersion := max r.maxVersion version }, d.takeName⟩ h
            (by simp only [step, hread, happly, hmax, if_pos hlarge])
          have hlisted := next_reachable ⟨.listed file, files,
            { r with
              persistentCollection := ⟨r.persistentCollection.collection ++ [storage']⟩
              maxVersion := max r.maxVersion version },
            (d.takeName.setData d.nextFile (some storage'.entries)).setMetadata .main
              (some ((d.metadata .main).getD [] ++ [d.nextFile]))⟩
            (next_reachable _ hwriting rfl)
            (by simp only [step, PersistentStorageCollection.add, appendMetadata_eq_ok]; rfl)
          have hnew : newPersistentStorage .succeeds storage.toEntries d =
            (.ok storage', d.takeName.setData d.nextFile (some storage'.entries)) := rfl
          simp only [ RecoveryIO.succeeds, hnew, PersistentStorageCollection.add, appendMetadata_eq_ok]
            at hfrom
          cases hfrom
          exact next_reachable _ hlisted rfl
        · rw [if_neg hlarge] at hfrom
          cases hfrom
          exact next_reachable _ h (by simp only [step, hread, happly, hmax, if_neg hlarge])

/-- **What the loop returns is where the steps lead.** -/
theorem reachable_initializeLoop
    (h : initializeLoop (.succeeds listing) threshold files r d = some (.ok r', d')) :
    (system threshold files r d).Reachable ⟨.turn, [], r', d'⟩ := by
  have hrun : (system threshold files r d).Reachable ⟨.turn, files, r, d⟩ := .init rfl
  unfold system at hrun ⊢
  generalize (fun s : State => s = ⟨.turn, files, r, d⟩) = S at hrun ⊢
  induction files generalizing r d with
  | nil =>
    cases h
    exact hrun
  | cons file files ih =>
    rw [initializeLoop] at h
    cases hfrom : initializeFrom (.succeeds listing) threshold file r d with
    | none => rw [hfrom] at h; cases h
    | some res =>
      obtain ⟨res, d₁⟩ := res
      rw [hfrom] at h
      cases res with
      | error e => cases h
      | ok r₁ => exact ih h (reachable_initializeFrom hrun hfrom)

end

/-! ### What a run that stops leaves -/

/-- The `.wal` files of the directory, in the order in which it lists them. -/
def Lists (d : Disk) (files : List FileId) : Prop :=
  files.Nodup ∧ ∀ f, f ∈ files ↔ ∃ entries, d.wal f = some entries

/-- A run of `InitializeStorages` on `d` that stops at any point before it creates a WAL file leaves `d'`. -/
def CutOff (threshold : Nat) (d d' : Disk) : Prop :=
  ∃ files s, Lists d files ∧ (system threshold files ⟨⟨readCollection d⟩, .new, none, 0⟩ d).Reachable s ∧
    s.disk = d'

/-- Behind the tables of `d₀` there are tables of the operations; the WAL is still there, or one of
these is. -/
structure Leaves (d₀ : Disk) (file : FileId) (entries : List WalEntry) (copies : List PersistentStorage)
    (d : Disk) : Prop where
  tables : readCollection d = readCollection d₀ ++ copies
  rows : ∀ t ∈ copies, ∃ path, t = tableOf path (entries.filterMap WalEntry.toWrite)
  fresh : d.NamesFresh
  wal : d.wal = Function.update (fun _ => none) file (some entries) ∨
    d.wal = (fun _ => none) ∧ copies ≠ [] ∧ entries.filterMap WalEntry.toWrite ≠ []

/-- What is known at each point of a run. -/
def PcAt (file : FileId) (entries : List WalEntry) (copies : List PersistentStorage) (files : List FileId)
    (d : Disk) : Pc → Prop
  | .turn => files = [] ∨ files = [file] ∧ d.wal = Function.update (fun _ => none) file (some entries)
  | .writing f path data =>
    f = file ∧ files = [] ∧ d.wal = Function.update (fun _ => none) file (some entries) ∧
      entries.filterMap WalEntry.toWrite ≠ [] ∧ (path < d.nextFile ∧ ¬ d.Listed path) ∧
      data = (replay (entries.filterMap WalEntry.toWrite)).toEntries
  | .written f storage =>
    f = file ∧ files = [] ∧ d.wal = Function.update (fun _ => none) file (some entries) ∧
      entries.filterMap WalEntry.toWrite ≠ [] ∧ storage.path < d.nextFile ∧
      d.data storage.path = some storage.entries ∧
      storage = tableOf storage.path (entries.filterMap WalEntry.toWrite)
  | .listed f => f = file ∧ files = [] ∧ d.wal = Function.update (fun _ => none) file (some entries) ∧
      entries.filterMap WalEntry.toWrite ≠ [] ∧ copies ≠ []

/-- What holds in every state of a run. -/
def Inv (d₀ : Disk) (file : FileId) (entries : List WalEntry) (s : State) : Prop :=
  ∃ copies, Leaves d₀ file entries copies s.disk ∧ PcAt file entries copies s.files s.disk s.pc

section
variable {d₀ d : Disk} {file path : FileId} {entries : List WalEntry} {copies : List PersistentStorage}
  {files : List FileId} {threshold : Nat}

theorem wal_file_of_eq (hwal : d.wal = Function.update (fun _ => none) file (some entries)) :
    d.wal file = some entries := by
  rw [hwal, Function.update_self]

theorem Leaves.setData (h : Leaves d₀ file entries copies d) (hpath : ¬ d.Listed path)
    (content : Option (List StorageEntry)) : Leaves d₀ file entries copies (d.setData path content) :=
  ⟨(readCollection_setData hpath content).trans h.tables, h.rows, h.fresh, h.wal⟩

theorem Leaves.takeName (h : Leaves d₀ file entries copies d) : Leaves d₀ file entries copies d.takeName :=
  ⟨h.tables, h.rows, fun path hpath => Nat.lt_succ_of_lt (h.fresh path hpath), h.wal⟩

theorem Leaves.list (h : Leaves d₀ file entries copies d) {storage : PersistentStorage}
    (hlt : storage.path < d.nextFile) (hdata : d.data storage.path = some storage.entries)
    (hstorage : storage = tableOf storage.path (entries.filterMap WalEntry.toWrite))
    (hwal : d.wal = Function.update (fun _ => none) file (some entries)) :
    Leaves d₀ file entries (copies ++ [storage])
      (d.setMetadata .main (some ((d.metadata .main).getD [] ++ [storage.path]))) where
  tables := by rw [readCollection_append storage hdata, h.tables, List.append_assoc]
  rows t ht := by
    rcases List.mem_append.1 ht with ht | ht
    · exact h.rows t ht
    · exact ⟨storage.path, (List.mem_singleton.1 ht).trans hstorage⟩
  fresh := by
    rintro path ⟨paths, hpaths, hpath⟩
    obtain rfl := Option.some.inj hpaths
    rcases List.mem_append.1 hpath with hpath | hpath
    · exact h.fresh path (CompactionCrash.listed_getD.1 hpath)
    · rw [List.mem_singleton.1 hpath]
      exact hlt
  wal := .inl hwal

theorem Leaves.removeWal (h : Leaves d₀ file entries copies d)
    (hwal : d.wal = Function.update (fun _ => none) file (some entries)) (hcopies : copies ≠ [])
    (hops : entries.filterMap WalEntry.toWrite ≠ []) :
    Leaves d₀ file entries copies (Iu9Db.removeWal file d) := by
  refine ⟨h.tables, h.rows, h.fresh, .inr ⟨?_, hcopies, hops⟩⟩
  show Function.update d.wal file none = _
  rw [hwal, Function.update_idem, Function.update_eq_self]

theorem inv_step {s s' : State} {a : Label} (hi : Inv d₀ file entries s) (hs : step threshold s a = some s') :
    Inv d₀ file entries s' := by
  obtain ⟨pc, files, r, d⟩ := s
  obtain ⟨copies, hl, hpc⟩ := hi
  cases a with
  | tear left =>
    cases pc with
    | writing f path data =>
      cases hs
      obtain ⟨hf, hfiles, hwal, hops, hpath, hdata⟩ := hpc
      exact ⟨copies, hl.setData hpath.2 left, hf, hfiles, hwal, hops, hpath, hdata⟩
    | _ => cases hs
  | next =>
    cases pc with
    | turn =>
      rcases hpc with rfl | ⟨rfl, hwal⟩
      · cases hs
      · have hread := readWal_toWrite (wal_file_of_eq hwal)
        simp only [step, hread, apply_toOperation] at hs
        cases hmax : getMaxVersion ((entries.filterMap WalEntry.toWrite).map Write.toOperation) with
        | none => rw [hmax] at hs; cases hs
        | some version =>
          have hops : entries.filterMap WalEntry.toWrite ≠ [] := by
            intro hnil
            rw [hnil] at hmax
            cases hmax
          rw [hmax] at hs
          dsimp only at hs
          split at hs
          · cases hs
            exact ⟨copies, hl.takeName, rfl, rfl, hwal, hops, ⟨Nat.lt_succ_self _, hl.fresh.not_listed⟩, rfl⟩
          · cases hs
            exact ⟨copies, hl, .inl rfl⟩
    | writing f path data =>
      cases hs
      obtain ⟨hf, hfiles, hwal, hops, hpath, rfl⟩ := hpc
      exact ⟨copies, hl.setData hpath.2 _, hf, hfiles, hwal, hops, hpath.1, Function.update_self _ _ _, rfl⟩
    | written f storage =>
      obtain ⟨hf, hfiles, hwal, hops, hlt, hdata, hstorage⟩ := hpc
      simp only [step, PersistentStorageCollection.add, appendMetadata_eq_ok] at hs
      cases hs
      exact ⟨_, hl.list hlt hdata hstorage hwal, hf, hfiles, hwal, hops, List.append_ne_nil_of_right_ne_nil _
        (List.cons_ne_nil _ _)⟩
    | listed f =>
      cases hs
      obtain ⟨rfl, hfiles, hwal, hops, hcopies⟩ := hpc
      exact ⟨copies, hl.removeWal hwal hcopies hops, .inl hfiles⟩

theorem Leaves.lists (h : Leaves d₀ file entries copies d) (hfiles : Lists d files) :
    (files = [file] ∧ d.wal = Function.update (fun _ => none) file (some entries)) ∨
      (files = [] ∧ copies ≠ [] ∧ entries.filterMap WalEntry.toWrite ≠ []) := by
  obtain ⟨hnodup, hmem⟩ := hfiles
  rcases h.wal with hwal | ⟨hwal, hcopies, hops⟩
  · have hext := List.perm_ext_iff_of_nodup hnodup (List.nodup_singleton file)
    refine .inl ⟨List.perm_singleton.1 (hext.2 fun f => ?_), hwal⟩
    rw [hmem, hwal, List.mem_singleton]
    by_cases hf : f = file
    · rw [hf, Function.update_self]
      exact ⟨fun _ => rfl, fun _ => ⟨_, rfl⟩⟩
    · rw [Function.update_of_ne hf]
      exact ⟨fun ⟨l, hl⟩ => (by cases hl), fun heq => absurd heq hf⟩
  · refine .inr ⟨List.eq_nil_iff_forall_not_mem.2 fun f hf => ?_, hcopies, hops⟩
    obtain ⟨l, hl⟩ := (hmem f).1 hf
    rw [hwal] at hl
    cases hl

theorem leaves_of_cutOff {d' : Disk} (h : Leaves d₀ file entries copies d) (hcut : CutOff threshold d d') :
    ∃ copies', Leaves d₀ file entries copies' d' := by
  obtain ⟨files, s, hfiles, hs, rfl⟩ := hcut
  have hi : Inv d₀ file entries s := hs.invariant (fun s hinit => ?_) fun _ _ _ hi _ hs => inv_step hi hs
  · obtain ⟨copies', hl, -⟩ := hi
    exact ⟨copies', hl⟩
  · obtain rfl := hinit
    refine ⟨copies, h, ?_⟩
    rcases h.lists hfiles with ⟨hfiles, hwal⟩ | ⟨hfiles, -⟩
    · exact .inr ⟨hfiles, hwal⟩
    · exact .inl hfiles

theorem leaves_of_cutOffs {d' : Disk} (h : Leaves d₀ file entries copies d)
    (hcut : Relation.ReflTransGen (CutOff threshold) d d') :
    ∃ copies', Leaves d₀ file entries copies' d' := by
  induction hcut with
  | refl => exact ⟨copies, h⟩
  | tail _ hcut ih =>
    obtain ⟨copies', hleaves⟩ := ih
    exact leaves_of_cutOff hleaves hcut

/-! ### A run to the end -/

/-- Whatever the runs before have left, the operations answer in front of the tables of `d₀`. -/
theorem answers_of_leaves (threshold : Nat) (h : Leaves d₀ file entries copies d) (hfiles : Lists d files)
    (hops : entries.filterMap WalEntry.toWrite ≠ []) :
    ∃ init d₁, initializeStorages (.succeeds files) threshold d = some (.ok init, d₁) ∧
      ∀ key, Answers ((init.storageSystem d₁).get key)
        (above (entries.filterMap WalEntry.toWrite) ⟨readCollection d₀⟩ key) := by
  have habove := above_append (l := readCollection d₀) h.rows
  rw [← h.tables] at habove
  rcases h.lists hfiles with ⟨rfl, hwal⟩ | ⟨rfl, hcopies, -⟩
  · have hfile := wal_file_of_eq hwal
    by_cases hlarge : (replay (entries.filterMap WalEntry.toWrite)).size > threshold
    · obtain ⟨generator, hrun⟩ := initializeStorages_large hfile hlarge
      refine ⟨_, _, hrun, fun key => ?_⟩
      rw [← (habove key).1, ← below_concat, ← outcome_new]
      exact answers_outcome _ key
    · obtain ⟨generator, hrun⟩ := initializeStorages_small hfile hops hlarge
      refine ⟨_, _, hrun, fun key => ?_⟩
      rw [← (habove key).1, ← outcome_ofMap]
      exact answers_outcome _ key
  · obtain ⟨generator, hrun⟩ := initializeStorages_none threshold d
    refine ⟨_, _, hrun, fun key => ?_⟩
    rw [← (habove key).2 hcopies, ← outcome_new]
    exact answers_outcome _ key

theorem eq_none_of_leaves (h : Leaves d₀ file entries copies d) (hfiles : Lists d files)
    (hops : entries.filterMap WalEntry.toWrite = []) :
    initializeStorages (.succeeds files) threshold d = none := by
  rcases h.lists hfiles with ⟨rfl, hwal⟩ | ⟨-, -, hne⟩
  · exact initializeStorages_empty (wal_file_of_eq hwal) hops
  · exact absurd hops hne

/-- Two runs that answer every key alike, or of which neither gets to its end. -/
def Alike : Option (Result Initialized × Disk) → Option (Result Initialized × Disk) → Prop
  | some (.ok init₁, d₁), some (.ok init₂, d₂) => ∀ key, ∃ v,
      Answers ((init₁.storageSystem d₁).get key) v ∧ Answers ((init₂.storageSystem d₂).get key) v
  | none, none => True
  | _, _ => False

theorem leaves_of_singleWal (h : SingleWal d file entries) : Leaves d file entries [] d :=
  ⟨(List.append_nil _).symm, fun _ ht => absurd ht List.not_mem_nil, h.fresh, .inl h.wal⟩

theorem lists_of_wal (hwal : d.wal = Function.update (fun _ => none) file (some entries)) :
    Lists d [file] := by
  refine ⟨List.nodup_singleton _, fun f => ?_⟩
  rw [hwal, List.mem_singleton]
  by_cases hf : f = file
  · rw [hf, Function.update_self]
    exact ⟨fun _ => ⟨_, rfl⟩, fun _ => rfl⟩
  · rw [Function.update_of_ne hf]
    exact ⟨fun heq => absurd heq hf, fun ⟨l, hl⟩ => by cases hl⟩

/-- **Recovery can be interrupted and repeated**: after any number of runs that were cut off, a run to
the end answers every key as one that was not interrupted; the latter gets to its end if the file has
an operation. -/
theorem alike_of_cutOff {d' : Disk} (h : SingleWal d file entries)
    (hcut : Relation.ReflTransGen (CutOff threshold) d d') (hfiles : Lists d' files) :
    (entries.filterMap WalEntry.toWrite ≠ [] →
      ∃ init d₁, initializeStorages (.succeeds [file]) threshold d = some (.ok init, d₁)) ∧
    Alike (initializeStorages (.succeeds [file]) threshold d)
    (initializeStorages (.succeeds files) threshold d') := by
  have hleaves := leaves_of_singleWal h
  have hlists := lists_of_wal h.wal
  obtain ⟨copies, hleaves'⟩ := leaves_of_cutOffs hleaves hcut
  by_cases hops : entries.filterMap WalEntry.toWrite = []
  · refine ⟨fun hne => absurd hops hne, ?_⟩
    rw [eq_none_of_leaves hleaves hlists hops, eq_none_of_leaves hleaves' hfiles hops]
    trivial
  · obtain ⟨init₁, d₁, hrun₁, hanswers₁⟩ := answers_of_leaves threshold hleaves hlists hops
    obtain ⟨init₂, d₂, hrun₂, hanswers₂⟩ := answers_of_leaves threshold hleaves' hfiles hops
    refine ⟨fun _ => ⟨init₁, d₁, hrun₁⟩, ?_⟩
    rw [hrun₁, hrun₂]
    exact fun key => ⟨_, hanswers₁ key, hanswers₂ key⟩

theorem cutOff_listTable (hwal : d.wal = Function.update (fun _ => none) file (some entries))
    (hlarge : (replay (entries.filterMap WalEntry.toWrite)).size > threshold) :
    CutOff threshold d (d.listTable (entries.filterMap WalEntry.toWrite)) := by
  have hread := readWal_toWrite (wal_file_of_eq hwal)
  obtain ⟨version, hversion⟩ := exists_getMaxVersion (ops_ne_nil hlarge)
  rw [filterMap_record] at hversion
  have hstart : (system threshold [file] ⟨⟨readCollection d⟩, .new, none, 0⟩ d).Reachable
      ⟨.turn, [file], ⟨⟨readCollection d⟩, .new, none, 0⟩, d⟩ := .init rfl
  have hwriting := next_reachable ⟨.writing file d.nextFile _, [], _, d.takeName⟩ hstart
    (by simp only [step, hread, apply_toOperation, hversion, if_pos hlarge]; rfl)
  have hlisted := next_reachable ⟨.listed file, [], _, _⟩ (next_reachable _ hwriting rfl)
    (by simp only [step, PersistentStorageCollection.add, appendMetadata_eq_ok]; rfl)
  exact ⟨[file], _, lists_of_wal hwal, hlisted, rfl⟩

end

/-- Two runs are cut off with the table listed, so that a third one lists it again. -/
theorem alike_walAndTable :
    (∃ init d₁, initializeStorages (.succeeds [0]) 0 walAndTable = some (.ok init, d₁)) ∧
    Alike (initializeStorages (.succeeds [0]) 0 walAndTable)
      (initializeStorages (.succeeds [0]) 0
        ((walAndTable.listTable [.remove [1] 3, .insert ⟨[2], [7], 4⟩]).listTable
          [.remove [1] 3, .insert ⟨[2], [7], 4⟩])) := by
  have hlarge : (replay [.remove [1] 3, .insert ⟨[2], [7], 4⟩]).size > 0 := by decide +kernel
  -- Listing a table leaves the WAL as it is.
  have hwal (d : Disk) (hd : d.wal = walAndTable.wal) :
      CutOff 0 d (d.listTable [.remove [1] 3, .insert ⟨[2], [7], 4⟩]) :=
    cutOff_listTable (hd.trans singleWal_walAndTable.wal) hlarge
  obtain ⟨hruns, halike⟩ := alike_of_cutOff singleWal_walAndTable (.tail (.single (hwal _ rfl)) (hwal _ rfl))
    (lists_of_wal singleWal_walAndTable.wal)
  exact ⟨hruns (List.cons_ne_nil _ _), halike⟩

end RecoveryCrash

end Iu9Db
