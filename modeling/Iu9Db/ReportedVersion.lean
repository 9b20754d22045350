import Iu9Db.StoredEntries

/-!
# The version that `Get` reports

Operations, the statements of swap jobs and restarts in any order. What is stored under a key always comes
with the version it was written with; `Get` passes it on from disk and drops it for a row in memory
(`reportsWritten_iff`).
-/

namespace Iu9Db

open Keyed StorageSystem Transition

namespace ReportedVersion

/-- The engine, the job that runs (`done` while none does) and the operations that were applied. -/
structure State where
  system : StorageSystem
  io : SwapJobIO
  pc : SwapJob
  applied : List Write

inductive Label
  | write (isOk : Bool) (w : Write)
  | startJob (io : SwapJobIO)
  | jobStep
  | restart (io : RecoveryIO) (threshold : Nat)

def init (s : State) : Prop := s = ⟨.new, .succeeds, .done, []⟩

/-- A restart may come at any time, also in the middle of a job. -/
def step (s : State) : Label → Option State
  | .write isOk w =>
    match s.system.exec isOk w with
    | (.error _, system) => some { s with system := system }
    | (.ok _, system) =>
      if omits w.version (s.system.get w.key) then some { s with system := system }
      else some { s with system := system, applied := s.applied ++ [w] }
  | .startJob io => if s.pc = .done then some { s with io := io, pc := .start } else none
  | .jobStep => (SwapJob.step s.io s.pc s.system).map fun next => { s with pc := next.1, system := next.2 }
  | .restart io threshold =>
    match initializeStorages io threshold s.system.disk with
    | some (.ok init, d) => some { s with system := init.storageSystem d, pc := .done }
    | _ => none

def system : System State Label := ofFun init step

/-- The entry was stored by an operation that was applied. -/
def Written (applied : List Write) (e : StorageEntry) : Prop := ∃ w ∈ applied, w.value.toEntry w.key = e

/-- If `Get` returns a value, then with the version of the operation that stored it: the one whose entry the
engine has under the key. -/
def ReportsWritten (s : State) (key : Str) : Prop :=
  ∀ dto, s.system.get key = .ok dto →
    ∃ w ∈ s.applied, w.key = key ∧ w.value = ⟨some dto.value, dto.version⟩ ∧ s.system.entry key = some w.value

/-- Every entry, wherever it is, was stored by an operation that was applied. -/
structure Inv (s : State) : Prop where
  holds : Holds (Written s.applied) s.system
  pc : PcHolds (Written s.applied) s.pc

section
variable {s s' : State} {a : Label}

theorem Written.append {applied : List Write} {e : StorageEntry} (h : Written applied e) (w : Write) :
    Written (applied ++ [w]) e := by
  obtain ⟨u, hu, rfl⟩ := h
  exact ⟨u, List.mem_append_left _ hu, rfl⟩

theorem inv_init (hs : init s) : Inv s := by
  subst hs
  exact ⟨holds_new, trivial⟩

theorem inv_step (hi : Inv s) (hs : step s a = some s') : Inv s' := by
  cases a with
  | write isOk w =>
    simp only [step] at hs
    rcases exec_cases isOk w s.system with ⟨ho, he⟩ | ⟨ho, -, e, he⟩ | ⟨ho, -, he⟩
    · simp only [he, ho, if_true] at hs
      cases hs
      exact ⟨hi.holds, hi.pc⟩
    · simp only [he] at hs
      cases hs
      exact ⟨hi.holds, hi.pc⟩
    · have hmono : ∀ e, Written s.applied e → Written (s.applied ++ [w]) e := fun e h => h.append w
      have hexec := (hi.holds.mono hmono).exec isOk (w := w) fun _ _ => ⟨w, by simp, rfl⟩
      simp only [he, ho] at hs hexec
      cases hs
      exact ⟨hexec, hi.pc.mono hmono⟩
  | startJob io =>
    simp only [step] at hs
    split at hs <;> cases hs
    exact ⟨hi.holds, trivial⟩
  | jobStep =>
    obtain ⟨⟨pc', system'⟩, hstep, rfl⟩ := Option.map_eq_some_iff.1 hs
    obtain ⟨hholds, hpc⟩ := holdsAt_step hi.holds hi.pc hstep
    exact ⟨hholds, hpc⟩
  | restart io threshold =>
    simp only [step] at hs
    split at hs
    · rename_i init d hinit
      cases hs
      exact ⟨holds_initializeStorages hi.holds.disk hinit, trivial⟩
    · cases hs

theorem Inv.written (hi : Inv s) {key : Str} {v : Value} (hv : s.system.entry key = some v) :
    ∃ w ∈ s.applied, w.key = key ∧ w.value = v := by
  obtain ⟨w, hw, he⟩ := hi.holds.entry hv
  exact ⟨w, hw, congrArg StorageEntry.key he, congrArg StorageEntry.toValue he⟩

end

/-- **In every reachable state and for every key: what `Get` reports is the version that the value was
written with, except for a value in memory, whose version it reports as zero.** -/
theorem reportsWritten_iff {s : State} (h : system.Reachable s) (key : Str) :
    ReportsWritten s key ↔
      ∀ row, s.system.storage.find key = some row → row.value.isSome → row.version = 0 := by
  have hi : Inv s := h.invariant (fun _ => inv_init) fun _ _ _ hi _ hs => inv_step hi hs
  have hget := get_eq hi.holds.wf key
  cases hmem : s.system.storage.find key with
  | some row =>
    have hentry : s.system.entry key = some row := by rw [entry, hmem, Option.some_or]
    rw [hmem] at hget
    constructor
    · intro hreports row' hrow' hlive
      cases hrow'
      obtain ⟨value, hvalue⟩ := Option.isSome_iff_exists.1 hlive
      simp only [reported, hvalue, Option.map_some] at hget
      cases hg : s.system.get key with
      | error e => rw [hg] at hget; cases hget
      | ok dto =>
        rw [hg] at hget
        cases hget
        obtain ⟨w, -, -, hw, he⟩ := hreports _ hg
        rw [hentry, Option.some.injEq] at he
        rw [he, hw]
    · intro hzero dto hg
      rw [hg] at hget
      obtain ⟨value, hvalue, rfl⟩ := Option.map_eq_some_iff.1 hget.symm
      have hversion := hzero row rfl (by rw [hvalue]; rfl)
      obtain ⟨w, hw, hk, hv⟩ := hi.written hentry
      refine ⟨w, hw, hk, ?_, by rw [hentry, hv]⟩
      rw [hv, ← hvalue, ← hversion]
  | none =>
    refine ⟨fun _ row hrow => (by cases hrow), fun _ dto hg => ?_⟩
    rw [hg, hmem] at hget
    cases hrec : s.system.persistentStorage.find key with
    | none => rw [hrec] at hget; cases hget
    | some record =>
      rw [hrec] at hget
      obtain ⟨value, hvalue, rfl⟩ := Option.map_eq_some_iff.1 hget.symm
      have hentry : s.system.entry key = some record.toValue := by rw [entry, hmem, hrec]; rfl
      obtain ⟨w, hw, hk, hv⟩ := hi.written hentry
      refine ⟨w, hw, hk, ?_, by rw [hentry, hv]⟩
      rw [hv, StorageEntry.toValue, hvalue]

/-- Five operations, a job that moves them to disk, a newer operation on one of the keys, and a restart. -/
def versionedRun : List Label :=
  (List.range 5).map (fun i => .write true (.insert ⟨[.ofNat i], [1], 5⟩)) ++ .startJob .succeeds ::
    List.replicate 12 .jobStep ++ [.write true (.insert ⟨[0], [2], 7⟩), .restart (.succeeds [1]) 5000]

/-- The key on disk is reported with the version that it was written with, and the one in memory is not. -/
theorem reportsWritten_versionedRun : ∃ s, exec step ⟨.new, .succeeds, .done, []⟩ versionedRun = some s ∧
    (s.system.get [1]).toOption = some ⟨[1], 5⟩ ∧ ReportsWritten s [1] ∧
    (s.system.get [0]).toOption = some ⟨[2], 0⟩ ∧ ¬ ReportsWritten s [0] := by
  obtain ⟨s, hs⟩ : ∃ s, exec step ⟨.new, .succeeds, .done, []⟩ versionedRun = some s :=
    Option.isSome_iff_exists.1 (by decide +kernel)
  have hreach : system.Reachable s := reachable_exec (.init rfl) hs
  have hdisk : s.system.storage.find [1] = none :=
    eq_of_map_exec hs (f := fun s => s.system.storage.find [1]) (by decide +kernel)
  have hmemory : s.system.storage.find [0] = some ⟨some [2], 7⟩ :=
    eq_of_map_exec hs (f := fun s => s.system.storage.find [0]) (by decide +kernel)
  refine ⟨s, hs, eq_of_map_exec hs (f := fun s => (s.system.get [1]).toOption) (by decide +kernel),
    (reportsWritten_iff hreach [1]).2 fun row hrow => ?_,
    eq_of_map_exec hs (f := fun s => (s.system.get [0]).toOption) (by decide +kernel), fun hreports => ?_⟩
  · rw [hdisk] at hrow
    cases hrow
  · exact absurd ((reportsWritten_iff hreach [0]).1 hreports _ hmemory rfl) (by decide)

/-- Version 5 is written and version 0 is reported. -/
theorem not_reportsWritten : ¬ ∀ s, system.Reachable s → ∀ key, ReportsWritten s key := by
  intro hall
  obtain ⟨s, hs⟩ :
      ∃ s, exec step ⟨.new, .succeeds, .done, []⟩ [.write true (.insert ⟨[97], [1], 5⟩)] = some s :=
    Option.isSome_iff_exists.1 (by decide)
  have happlied : s.applied = [.insert ⟨[97], [1], 5⟩] :=
    eq_of_map_exec hs (f := fun s => s.applied) (by decide)
  have hget : (s.system.get [97]).toOption = some ⟨[1], 0⟩ :=
    eq_of_map_exec hs (f := fun s => (s.system.get [97]).toOption) (by decide)
  cases hg : s.system.get [97] with
  | error e => rw [hg] at hget; cases hget
  | ok dto =>
    rw [hg] at hget
    cases hget
    obtain ⟨w, hw, -, hv, -⟩ := hall s (reachable_exec (.init rfl) hs) [97] _ hg
    rw [happlied, List.mem_singleton] at hw
    subst hw
    cases hv

end ReportedVersion

end Iu9Db
