import Iu9Db.WalFile
import Iu9Db.Recovery

/-!
# What recovery dereferences

Recovery takes the greatest version of the operations of every WAL file, and the value of every
insertion. An insertion that `ReadWAL` returns has a value (`isSome_apply`); a file without a complete
operation has no greatest version. So recovery is safe exactly for the directories in which every file
has one (`neverDereferences_iff`): the file of a writer that has not been written to yet has none.
-/

namespace Iu9Db

open Wire

/-- The WAL files that recovery finds, as writers leave them: complete records, and some beginning of
one more. -/
structure WalDirectory where
  disk : Disk
  files : List FileId
  content : FileId → Bytes
  entries : FileId → List WalEntry
  wal : ∀ f ∈ files, disk.wal f = some (entries f)
  represents : ∀ f ∈ files, WalFile.Represents (content f) (entries f)

namespace WalDirectory

/-- The end iterator of `GetMaxVersion` and the optional of `Apply`, for each file and in every run of
`InitializeStorages` that no exception of `fs::remove` ends. -/
structure NeverDereferences (w : WalDirectory) : Prop where
  maxVersion : ∀ f ∈ w.files, (getMaxVersion (WalFile.readWAL (w.content f)).1).isSome
  apply : ∀ f ∈ w.files, (apply (WalFile.readWAL (w.content f)).1 .empty).isSome
  run : ∀ io threshold, io.search = .ok w.files → (∀ f, io.remove f = true) →
    initializeStorages io threshold w.disk ≠ none

/-- Every file has a complete record with an operation. -/
def HasOperations (w : WalDirectory) : Prop := ∀ f ∈ w.files, ∃ entry ∈ w.entries f, entry ≠ .notSet

section
variable {w : WalDirectory} {io : RecoveryIO} {threshold : Nat} {file : FileId} {files : List FileId}
  {r : Recovering} {d : Disk} {entries : List WalEntry}

theorem isSome_apply (entries : List WalEntry) (table : MapStorage) :
    (Iu9Db.apply (entries.filterMap WalEntry.toOperation) table).isSome := by
  induction entries generalizing table with
  | nil => rfl
  | cons entry entries ih =>
    cases entry with
    | notSet => exact ih table
    | remove key version => exact ih (table.remove key version)
    | insert key value version => exact ih (table.insert ⟨key, value, version⟩)

theorem isSome_getMaxVersion : (getMaxVersion (entries.filterMap WalEntry.toOperation)).isSome ↔
    ∃ entry ∈ entries, entry ≠ .notSet := by
  have hop (entry : WalEntry) : entry.toOperation = none ↔ entry = .notSet := by
    cases entry <;> simp [WalEntry.toOperation]
  rw [getMaxVersion, ← Option.ne_none_iff_isSome, Ne, List.max?_eq_none_iff, List.map_eq_nil_iff,
    List.filterMap_eq_nil_iff]
  simp only [hop, not_forall, ne_eq, exists_prop]

theorem readWAL_content (hfile : file ∈ w.files) :
    (WalFile.readWAL (w.content file)).1 = (w.entries file).filterMap WalEntry.toOperation := by
  obtain ⟨cut, torn, hcut, hp, hne, hcontent⟩ := (w.represents file hfile).torn
  rw [hcontent, WalFile.readWAL_torn (w.represents file hfile).fits hcut hp hne]

/-- One turn of the loop on a file with an operation. It removes no WAL file but this one. -/
theorem initializeFrom_safe (threshold : Nat) (r : Recovering)
    (hops : ∀ l, d.wal file = some l → ∃ entry ∈ l, entry ≠ .notSet)
    (hremove : io.remove file = true) : ∃ res d', initializeFrom io threshold file r d = some (res, d') ∧
      ∀ f, d'.wal f = d.wal f ∨ d'.wal f = none := by
  cases hwal : d.wal file with
  | none =>
    have hread : ∃ e, readWal file d = .error e := ⟨_, by rw [readWal, hwal]⟩
    obtain ⟨e, hread⟩ := hread
    exact ⟨.error e, d, by rw [initializeFrom, hread], fun f => .inl rfl⟩
  | some l =>
    have hread : readWal file d = .ok (l.filterMap WalEntry.toOperation, l.length) := by rw [readWal, hwal]
    obtain ⟨storage, happly⟩ := Option.isSome_iff_exists.1 (isSome_apply l .empty)
    obtain ⟨version, hversion⟩ := Option.isSome_iff_exists.1 (isSome_getMaxVersion.2 (hops l hwal))
    unfold initializeFrom
    simp only [hread, happly, hversion]
    split
    · have hnew := (newPersistentStorage_cases (io.table file) storage.toEntries d).1
      generalize newPersistentStorage (io.table file) storage.toEntries d = made at hnew ⊢
      obtain ⟨persistent, d₁⟩ := made
      cases persistent with
      | error e => exact ⟨_, d₁, rfl, fun f => .inl (congrFun hnew f)⟩
      | ok persistent =>
        dsimp only
        have hadd := r.persistentCollection.wal_add (io.append file) persistent d₁
        generalize r.persistentCollection.add (io.append file) persistent d₁ = added at hadd ⊢
        obtain ⟨res, c, d₂⟩ := added
        have hwal₂ (f : FileId) : d₂.wal f = d.wal f := congrFun (hadd.trans hnew) f
        cases res with
        | error e => exact ⟨_, d₂, rfl, fun f => .inl (hwal₂ f)⟩
        | ok u =>
          refine ⟨_, removeWal file d₂, rfl, fun f => ?_⟩
          show Function.update d₂.wal file none f = _ ∨ _ = none
          by_cases hf : f = file
          · subst hf
            exact .inr (Function.update_self ..)
          · rw [Function.update_of_ne hf]
            exact .inl (hwal₂ f)
    · split
      · exact ⟨_, d, rfl, fun f => .inl rfl⟩
      · exact ⟨_, d, rfl, fun f => .inl rfl⟩

theorem initializeLoop_safe (r : Recovering) (hremove : ∀ f, io.remove f = true)
    (hops : ∀ f ∈ files, ∀ l, d.wal f = some l → ∃ entry ∈ l, entry ≠ .notSet) :
    initializeLoop io threshold files r d ≠ none := by
  induction files generalizing r d with
  | nil => exact Option.some_ne_none _
  | cons file files ih =>
    obtain ⟨res, d', hfrom, hwal⟩ := initializeFrom_safe threshold r
      (hops file List.mem_cons_self) (hremove file)
    rw [initializeLoop, hfrom]
    cases res with
    | error e => exact Option.some_ne_none _
    | ok r' =>
      refine ih r' fun f hf l hl => ?_
      rcases hwal f with he | he <;> rw [he] at hl
      · exact hops f (List.mem_cons_of_mem _ hf) l hl
      · cases hl

theorem initializeStorages_safe (hw : w.HasOperations) (hsearch : io.search = .ok w.files)
    (hremove : ∀ f, io.remove f = true) : initializeStorages io threshold w.disk ≠ none := by
  have hloop : initializeLoop io threshold w.files ⟨⟨readCollection w.disk⟩, .new, none,
    0⟩ w.disk ≠ none := by
    refine initializeLoop_safe _ hremove fun f hf l hl => ?_
    rw [w.wal f hf] at hl
    obtain rfl := Option.some.inj hl
    exact hw f hf
  unfold initializeStorages
  rw [hsearch]
  dsimp only [searchWalFiles]
  split
  · exact absurd ‹_› hloop
  · exact Option.some_ne_none _
  · split
    · exact Option.some_ne_none _
    · split <;> exact Option.some_ne_none _

end

end WalDirectory

/-- **Recovery dereferences no end iterator and no empty optional exactly when every WAL file has a complete
operation.** -/
theorem neverDereferences_iff (w : WalDirectory) : w.NeverDereferences ↔ w.HasOperations := by
  constructor
  · intro h f hf
    have hmax := h.maxVersion f hf
    rwa [WalDirectory.readWAL_content hf, WalDirectory.isSome_getMaxVersion] at hmax
  · intro hw
    refine ⟨fun f hf => ?_, fun f hf => ?_, fun io threshold hsearch hremove => ?_⟩
    · rw [WalDirectory.readWAL_content hf, WalDirectory.isSome_getMaxVersion]
      exact hw f hf
    · rw [WalDirectory.readWAL_content hf]
      exact WalDirectory.isSome_apply _ _
    · exact WalDirectory.initializeStorages_safe hw hsearch hremove

/-- A node that has just created its WAL and stops. -/
def freshWal : WalDirectory where
  disk := StorageSystem.new.disk
  files := [0]
  content := fun _ => WalFile.newWALWriter.content
  entries := fun _ => []
  wal := by decide
  represents := fun _ _ => WalFile.isWhole_newWALWriter.represents

/-- The next start dereferences the end iterator: for each file, and in the run itself. -/
theorem not_neverDereferences : ¬ ∀ w : WalDirectory, w.NeverDereferences := by
  intro hall
  have hrun := (hall freshWal).run (.succeeds [0]) 5000 rfl fun _ => rfl
  exact hrun (by decide +kernel)

end Iu9Db
