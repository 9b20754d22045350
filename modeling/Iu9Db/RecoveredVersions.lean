import Iu9Db.Recovery

/-!
# Versions after recovery

`InitializeStorages` starts the version generator one above the greatest version in the WAL files. The
tables on disk are not looked at: `movesOn_iff` says for which directories the first version generated is
greater than everything stored.
-/

namespace Iu9Db

open Keyed Versioned

/-! ### What the loop leaves in `max_version` -/

section
variable {io : RecoveryIO} {threshold : Nat} {logged : FileId → List Write} {files : List FileId}
  {file : FileId} {ws : List Write} {r r' : Recovering} {d d' : Disk}

theorem getMaxVersion_records (ws : List Write) :
    getMaxVersion ((ws.map Write.record).filterMap WalEntry.toOperation) = (ws.map Write.version).max? := by
  have hmap : ((ws.map Write.record).filterMap WalEntry.toOperation).map Operation.version =
    ws.map Write.version := by
    induction ws with
    | nil => rfl
    | cons w ws ih => cases w <;> exact congrArg _ ih
  rw [getMaxVersion, hmap]

/-- One turn of the loop takes the versions of its file into account and leaves the other files alone. -/
theorem maxVersion_initializeFrom (hwal : d.wal file = some (ws.map Write.record))
    (h : initializeFrom io threshold file r d = some (.ok r', d')) :
    r'.maxVersion = (ws.map Write.version).foldl max r.maxVersion ∧ ∀ f, f ≠ file → d'.wal f = d.wal f := by
  have hread : readWal file d = .ok ((ws.map Write.record).filterMap WalEntry.toOperation,
      (ws.map Write.record).length) := by rw [readWal, hwal]
  unfold initializeFrom at h
  simp only [hread, getMaxVersion_records, apply_records] at h
  cases hv : (ws.map Write.version).max? with
  | none => rw [hv] at h; cases h
  | some version =>
    have hmax : (ws.map Write.version).foldl max r.maxVersion = max r.maxVersion version := by
      rw [List.foldl_max, hv]; rfl
    rw [hmax]
    simp only [hv] at h
    split at h
    · split at h
      · cases h
      · rename_i persistent d₁ hnew
        obtain ⟨hwal₁, -⟩ := wal_newPersistentStorage hnew
        split at h
        · cases h
        · rename_i c d₂ hadd
          have hwal₂ : d₂.wal = d₁.wal := by
            have hframe := r.persistentCollection.wal_add (io.append file) persistent d₁
            rw [hadd] at hframe
            exact hframe
          split at h <;> cases h
          refine ⟨rfl, fun f hf => ?_⟩
          rw [removeWal, Disk.setWal_wal, Function.update_of_ne hf, hwal₂, hwal₁]
    · split at h <;> cases h
      exact ⟨rfl, fun f _ => rfl⟩

theorem maxVersion_initializeLoop (hnodup : files.Nodup)
    (hwal : ∀ f ∈ files, d.wal f = some ((logged f).map Write.record))
    (h : initializeLoop io threshold files r d = some (.ok r', d')) :
    r'.maxVersion = ((files.flatMap logged).map Write.version).foldl max r.maxVersion := by
  induction files generalizing r d with
  | nil => cases h; rfl
  | cons file files ih =>
    obtain ⟨hfile, hnodup⟩ := List.nodup_cons.1 hnodup
    unfold initializeLoop at h
    split at h
    · rename_i r₁ d₁ hfrom
      obtain ⟨hmax, hother⟩ := maxVersion_initializeFrom (hwal file (by simp)) hfrom
      have hwal₁ : ∀ f ∈ files, d₁.wal f = some ((logged f).map Write.record) := fun f hf => by
        rw [hother f (ne_of_mem_of_not_mem hf hfile)]
        exact hwal f (by simp [hf])
      rw [ih hnodup hwal₁ h, hmax, List.flatMap_cons, List.map_append, List.foldl_append]
    · rename_i hno
      exact absurd h (hno r' d')

end

/-- Whatever the system calls come to: the generator starts one above the greatest version in the WAL
files of the listing. -/
theorem current_initializeStorages {io : RecoveryIO} {threshold : Nat} {logged : FileId → List Write}
    {files : List FileId} {d d' : Disk} {init : Initialized} (hsearch : io.search = .ok files)
    (hnodup : files.Nodup) (hwal : ∀ f ∈ files, d.wal f = some ((logged f).map Write.record))
    (h : initializeStorages io threshold d = some (.ok init, d')) :
    init.versionNumberGenerator.current = ((files.flatMap logged).map Write.version).foldl max 0 + 1 := by
  unfold initializeStorages at h
  simp only [hsearch, searchWalFiles] at h
  split at h
  · cases h
  · cases h
  · rename_i r d₁ hloop
    have hmax := maxVersion_initializeLoop hnodup hwal hloop
    split at h
    · cases h
      rw [hmax]
    · split at h <;> cases h
      rw [hmax]

namespace Leftover

variable {d : Disk} {files : List FileId} (l : Leftover d files)

/-- The operations in all the WAL files. -/
def loggedWrites : List Write := files.flatMap l.writes

/-- The version is above that of every operation in a WAL file and of every entry of a listed table. -/
structure MovesOn (version : UInt64) : Prop where
  wal : ∀ w ∈ l.loggedWrites, w.version < version
  tables : ∀ st ∈ readCollection d, ∀ e ∈ st.entries, e.version < version

/-- No entry of a table is newer than all the WAL files are. -/
def WalAhead : Prop :=
  ∀ st ∈ readCollection d, ∀ e ∈ st.entries, e.version = 0 ∨ ∃ w ∈ l.loggedWrites, e.version ≤ w.version

end Leftover

/-- **Recovery succeeds, and the first version it generates is greater than every version in the directory
exactly when the WAL files are as new as the tables.** -/
theorem movesOn_iff {d : Disk} {files : List FileId} (l : Leftover d files) (threshold : Nat)
    (hlt : ∀ w ∈ l.loggedWrites, w.version < 18446744073709551615) :
    ∃ init d', initializeStorages (.succeeds files) threshold d = some (.ok init, d') ∧
      (l.MovesOn init.versionNumberGenerator.generate.1 ↔ l.WalAhead) := by
  obtain ⟨init, d', hinit, -, -⟩ := l.entry_initializeStorages threshold
  refine ⟨init, d', hinit, ?_⟩
  have hwal : ∀ f ∈ files, d.wal f = some ((l.writes f).map Write.record) := fun f hf => by
    rw [l.wal f hf, Leftover.writes, List.map_map]
    rfl
  have hcur := current_initializeStorages rfl l.nodup hwal hinit
  set newest := (l.loggedWrites.map Write.version).foldl max 0 with hnewest
  have hgen : init.versionNumberGenerator.generate.1 = newest + 1 := hcur
  have hle : ∀ x, x ≤ newest ↔ x ≤ 0 ∨ ∃ w ∈ l.loggedWrites, x ≤ w.version := by
    intro x
    rw [hnewest, le_foldl_max]
    simp
  -- Nothing wraps around: the greatest version is below the last one there is.
  have hbound : newest < 18446744073709551615 := by
    rcases (hle newest).1 le_rfl with h | ⟨w, hw, h⟩
    · exact lt_of_le_of_lt h (by decide)
    · exact lt_of_le_of_lt h (hlt w hw)
  have hstep : ∀ x : UInt64, x < newest + 1 ↔ x ≤ newest := by
    intro x
    rw [UInt64.lt_iff_toNat_lt] at hbound
    rw [UInt64.lt_iff_toNat_lt, UInt64.le_iff_toNat_le, UInt64.toNat_add]
    simp at hbound ⊢
    omega
  rw [hgen]
  constructor
  · intro h st hst e he
    rcases (hle _).1 ((hstep _).1 (h.tables st hst e he)) with hz | hw
    · exact .inl (le_antisymm hz UInt64.zero_le)
    · exact .inr hw
  · intro h
    refine ⟨fun w hw => ?_, fun st hst e he => ?_⟩
    · exact (hstep _).2 ((hle _).2 (.inr ⟨w, hw, le_rfl⟩))
    · refine (hstep _).2 ((hle _).2 ?_)
      rcases h st hst e he with hz | hw
      · exact .inl (hz ▸ le_rfl)
      · exact .inr hw

/-- A table with two records is listed, and a WAL file has a newer one of one of the keys and one of a
third key. -/
def tableAndWal : Disk :=
  ((Disk.empty.setData 0 (some [⟨[97], some [1], 1⟩, ⟨[98], none, 2⟩])).setMetadata .main (some [0])).setWal 1
    (some [.insert [97] [3] 3, .remove [99] 4])

def leftover : Leftover tableAndWal [1] where
  history := [.insert ⟨[97], [1], 1⟩, .remove [98] 2, .insert ⟨[97], [3], 3⟩, .remove [99] 4]
  logged _ := ([2, 3] : List (Fin 4))
  stored := ([0, 1] : List (Fin 4))
  nodup := by decide
  listing f := by
    by_cases hf : f = 1
    · subst hf; simp [tableAndWal]
    · simp [tableAndWal, Disk.empty, hf]
  wal f hf := by rw [List.mem_singleton.1 hf]; rfl
  nonempty _ _ := List.cons_ne_nil _ _
  tables st hst := by
    rw [List.mem_singleton.1 (show st ∈ [⟨0, [⟨[97], some [1], 1⟩, ⟨[98], none, 2⟩]⟩] from hst)]
    exact ⟨by show List.Pairwise _ _; decide⟩
  table e := by
    rw [show readCollection tableAndWal = [⟨0, [⟨[97], some [1], 1⟩, ⟨[98], none, 2⟩]⟩] from rfl]
    simp [Write.value, Write.key, Value.toEntry, eq_comm]

theorem movesOn_leftover : ∃ init d', initializeStorages (.succeeds [1]) 5000 tableAndWal =
    some (.ok init, d') ∧ init.versionNumberGenerator.generate.1 = 5 ∧
    leftover.MovesOn init.versionNumberGenerator.generate.1 := by
  obtain ⟨init, d', hinit, hmoves⟩ := movesOn_iff leftover 5000 fun w hw =>
    (by decide : ∀ w ∈ [Write.insert ⟨[97], [3], 3⟩, .remove [99] 4], w.version < 18446744073709551615) w hw
  have hfiles : ∀ f ∈ [1], tableAndWal.wal f = some ((leftover.writes f).map Write.record) := fun f hf => by
    rw [List.mem_singleton.1 hf]
    rfl
  refine ⟨init, d', hinit, current_initializeStorages rfl leftover.nodup hfiles hinit,
    hmoves.2 fun st hst e he => ?_⟩
  · rw [List.mem_singleton.1 (show st ∈ [⟨0, [⟨[97], some [1], 1⟩, ⟨[98], none, 2⟩]⟩] from hst)] at he
    have hle : ∀ e ∈ [⟨[97], some [1], 1⟩, ⟨[98], none, 2⟩], (e : StorageEntry).version ≤ 4 := by decide
    exact .inr ⟨.remove [99] 4, by decide, hle e he⟩

/-! ### A run after which versions go back -/

namespace RecoveredVersions

def put (n : UInt8) (version : UInt64) : Write := .insert ⟨[n], [n], version⟩

/-- Five operations that a job stores on disk, and one of a smaller version in the new WAL. -/
def replicaRun : List JobDurability.Label :=
  [1, 2, 3, 4, 5].map (fun n => .write true (put n 10)) ++
    .startJob .succeeds :: List.replicate 12 .jobStep ++
    [.write true (put 6 1)]

/-- The table of version 10 is not looked at. -/
theorem not_movesOn :
    ¬ ∀ (s : JobDurability.State) (files : List FileId) (l : Leftover s.system.disk files) (threshold : Nat),
      JobDurability.system.Reachable s → l.history = s.applied →
      (∀ w ∈ l.history, w.version < 18446744073709551615) →
      ∃ init d', initializeStorages (.succeeds files) threshold s.system.disk = some (.ok init, d') ∧
        l.MovesOn init.versionNumberGenerator.generate.1 := by
  intro hall
  obtain ⟨s, hs⟩ :
      ∃ s, Transition.exec JobDurability.step ⟨.new, .succeeds, .done, [], []⟩ replicaRun = some s :=
    Option.isSome_iff_exists.1 (by decide +kernel)
  have hreach : JobDurability.system.Reachable s := Transition.reachable_exec (.init rfl) hs
  have hw : WalFiles s.pc s.system := hreach.invariant (fun _ => JobDurability.walFiles_init)
    fun _ _ _ hw _ hs => JobDurability.walFiles_of_step hw hs
  have happlied : s.applied = [put 1 10, put 2 10, put 3 10, put 4 10, put 5 10, put 6 1] :=
    Transition.eq_of_map_exec hs (f := fun s => s.applied) (by decide +kernel)
  have hnext : s.system.disk.nextFile = 3 :=
    Transition.eq_of_map_exec hs (f := fun s => s.system.disk.nextFile) (by decide +kernel)
  have hwal : [0, 1, 2].map s.system.disk.wal = [none, some [(put 6 1).record], none] :=
    Transition.eq_of_map_exec hs (f := fun s => [0, 1, 2].map s.system.disk.wal) (by decide +kernel)
  have htables : readCollection s.system.disk =
      [⟨2, [1, 2, 3, 4, 5].map fun n => (put n 10).value.toEntry (put n 10).key⟩] :=
    Transition.eq_of_map_exec hs (f := fun s => readCollection s.system.disk) (by decide +kernel)
  simp only [List.map_cons, List.map_nil, List.cons.injEq, and_true] at hwal
  obtain ⟨h0, h1, h2⟩ := hwal
  let l : Leftover s.system.disk [1] := {
    history := [put 1 10, put 2 10, put 3 10, put 4 10, put 5 10, put 6 1]
    logged := fun _ => ([5] : List (Fin 6))
    stored := ([0, 1, 2, 3, 4] : List (Fin 6))
    nodup := by decide
    listing := fun f => by
      constructor
      · intro hf
        rw [List.mem_singleton.1 hf]
        exact ⟨_, h1⟩
      · rintro ⟨l, hl⟩
        have hlt := hw.lt f l hl
        rw [hnext] at hlt
        interval_cases f
        · rw [h0] at hl; cases hl
        · simp
        · rw [h2] at hl; cases hl
    wal := fun f hf => by rw [List.mem_singleton.1 hf]; exact h1
    nonempty := fun _ _ => List.cons_ne_nil _ _
    tables := by
      rw [htables]
      intro st hst
      rw [List.mem_singleton.1 hst]
      exact ⟨by show List.Pairwise _ _; decide⟩
    table := fun e => by
      rw [htables]
      simp [put, eq_comm] }
  have hlt : ∀ w ∈ l.history, w.version < 18446744073709551615 := fun w hw =>
    (by decide : ∀ w ∈ [put 1 10, put 2 10, put 3 10, put 4 10, put 5 10, put 6 1],
      w.version < 18446744073709551615) w hw
  obtain ⟨init, d', hinit, hmoves⟩ := hall s [1] l 5000 hreach happlied.symm hlt
  have hfiles : ∀ f ∈ [1], s.system.disk.wal f = some ((l.writes f).map Write.record) := fun f hf => by
    rw [List.mem_singleton.1 hf]
    exact h1
  have hcur := current_initializeStorages rfl l.nodup hfiles hinit
  have hfirst : init.versionNumberGenerator.current = 2 := hcur
  have hlt := hmoves.tables _ (htables ▸ List.mem_singleton_self _)
    ((put 1 10).value.toEntry (put 1 10).key) List.mem_cons_self
  rw [VersionNumberGenerator.generate, hfirst] at hlt
  exact absurd hlt (by decide)

end RecoveredVersions

end Iu9Db
