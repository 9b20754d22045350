import Iu9Db.Compaction

/-!
# `StorageSystem`: the log, the memory tables and the tables on disk

`get` looks through three layers, newest first. `entry` is what is stored under a key, whatever the
layer; `reported` is what `get` makes of it, version included.
-/

namespace Iu9Db

/-- A versioned operation on one key. -/
inductive Write
  | insert (kwPair : KwPair)
  | remove (key : Str) (version : UInt64)
deriving DecidableEq, Repr

namespace Write

def key : Write → Str
  | insert kwPair => kwPair.key
  | remove key _ => key

def version : Write → UInt64
  | insert kwPair => kwPair.version
  | remove _ version => version

/-- What the operation stores under its key: a value or a tombstone. -/
def value : Write → Value
  | insert kwPair => ⟨some kwPair.value, kwPair.version⟩
  | remove _ version => ⟨none, version⟩

/-- The record that `SwappableWalWriterImpl` builds for it. -/
def record : Write → WalEntry
  | insert kwPair => .insert kwPair.key kwPair.value kwPair.version
  | remove key version => .remove key version

/-- The call on a memory table. -/
def applyTo : Write → MapStorage → MapStorage
  | insert kwPair, table => table.insert kwPair
  | remove key version, table => table.remove key version

@[simp] theorem value_version (w : Write) : w.value.version = w.version := by cases w <;> rfl

theorem find_applyTo (w : Write) (table : MapStorage) (k : Str) :
    (w.applyTo table).find k = if k = w.key then some w.value else table.find k := by
  cases w with
  | insert kwPair => exact MapStorage.find_insert kwPair
  | remove key version => exact MapStorage.find_remove version

end Write

structure StorageSystem where
  walWriter : FileId
  storage : SwappableMemoryStorage
  persistentStorage : PersistentStorageCollection
  disk : Disk

/-! ### What a crash leaves -/

namespace Disk

/-- `path` is listed in `persistent.metadata`. -/
def Listed (d : Disk) (path : FileId) : Prop := ∃ paths, d.metadata .main = some paths ∧ path ∈ paths

/-- The record of the operation is in a WAL file that exists. -/
def Logged (d : Disk) (w : Write) : Prop := ∃ f l, d.wal f = some l ∧ w.record ∈ l

/-- The entry is in a table that is listed. -/
def Stored (d : Disk) (e : StorageEntry) : Prop :=
  ∃ path, d.Listed path ∧ ∃ entries, d.data path = some entries ∧ e ∈ entries

/-- The operation is in a WAL file that exists or in a listed table. -/
def Recorded (d : Disk) (w : Write) : Prop := d.Logged w ∨ d.Stored (w.value.toEntry w.key)

end Disk

namespace StorageSystem

/-- An empty data directory with a fresh WAL. -/
def new : StorageSystem :=
  ⟨0, .new, ⟨[]⟩, Disk.empty.takeName.setWal 0 (some [])⟩

def notFound (key : Str) : Result ValueDTO :=
  .error (makeError (text "key " ++ key ++ text " not found") .kNotFound)

/-- What `Get` makes of a row that memory has. -/
def fromMemory (key : Str) (res : Value) : Result ValueDTO :=
  match res.value with
  | some value => .ok ⟨value, 0⟩  -- `ValueDTO{res.value.value()}` leaves the version at zero
  | none => notFound key

/-- What `Get` makes of the collection's answer. -/
def fromDisk (key : Str) : Result StorageEntry → Result ValueDTO
  | .ok res =>
    match res.value with
    | some value => .ok ⟨value, res.version⟩
    | none => notFound key
  | .error _ => notFound key

/-- `StorageSystem::Get`. -/
def get (s : StorageSystem) (key : Str) : Result ValueDTO :=
  match s.storage.get key with
  | .ok res => fromMemory key res
  | .error _ => fromDisk key (s.persistentStorage.get key)

/-- The check at the head of `Insert` and `Remove`: is the operation older than what `Get` found? -/
def omits (version : UInt64) (oldOpt : Result ValueDTO) : Bool :=
  match oldOpt with
  | .ok old => version < old.version
  | .error _ => false

/-- `StorageSystem::Insert`; `isOk` is the outcome of the serialisation to the WAL. -/
def insert (isOk : Bool) (kwPair : KwPair) (s : StorageSystem) : Result Unit × StorageSystem :=
  if omits kwPair.version (s.get kwPair.key) then (.ok (), s)
  else
    match writeEntry isOk s.walWriter (.insert kwPair.key kwPair.value kwPair.version) s.disk with
    | (.error e, d) => (.error e, { s with disk := d })
    | (.ok _, d) => (.ok (), { s with disk := d, storage := s.storage.insert kwPair })

/-- `StorageSystem::Remove`. -/
def remove (isOk : Bool) (key : Str) (version : UInt64) (s : StorageSystem) :
    Result Unit × StorageSystem :=
  if omits version (s.get key) then (.ok (), s)
  else
    match writeEntry isOk s.walWriter (.remove key version) s.disk with
    | (.error e, d) => (.error e, { s with disk := d })
    | (.ok _, d) => (.ok (), { s with disk := d, storage := s.storage.remove key version })

/-- `Insert` or `Remove`. -/
def exec (isOk : Bool) : Write → StorageSystem → Result Unit × StorageSystem
  | .insert kwPair, s => s.insert isOk kwPair
  | .remove key version, s => s.remove isOk key version

/-! ### What is stored -/

/-- The entry of a key in the newest layer that has one. -/
def entry (s : StorageSystem) (key : Str) : Option Value :=
  (s.storage.find key).or ((s.persistentStorage.find key).map StorageEntry.toValue)

/-- What `Get` reports for a row in memory and a record on disk. -/
def reported : Option Value → Option StorageEntry → Option ValueDTO
  | some row, _ => row.value.map fun value => ⟨value, 0⟩
  | none, some record => record.value.map fun value => ⟨value, record.version⟩
  | none, none => none

/-- The two halves as their classes keep them. -/
structure Wf (s : StorageSystem) : Prop where
  storage : s.storage.Wf
  persistentStorage : s.persistentStorage.Wf

theorem wf_new : new.Wf := ⟨SwappableMemoryStorage.wf_ofMap _, by simp [new, PersistentStorageCollection.Wf]⟩

section
variable {s : StorageSystem}

theorem toOption_fromMemory (key : Str) (res : Value) :
    (fromMemory key res).toOption = reported (some res) none := by
  unfold fromMemory
  cases hv : res.value <;> simp [reported, hv, Except.toOption, notFound]

theorem toOption_fromDisk (key : Str) (r : Result StorageEntry) :
    (fromDisk key r).toOption = reported none r.toOption := by
  unfold fromDisk
  cases r with
  | ok res => cases hv : res.value <;> simp [reported, hv, Except.toOption, notFound]
  | error e => rfl

theorem get_eq (h : s.persistentStorage.Wf) (key : Str) :
    (s.get key).toOption = reported (s.storage.find key) (s.persistentStorage.find key) := by
  obtain ⟨hnone, hsome⟩ := s.storage.get_eq key
  unfold get
  cases hf : s.storage.find key with
  | some row =>
    rw [hsome row hf]
    exact toOption_fromMemory key row
  | none =>
    obtain ⟨e, he, -⟩ := hnone hf
    rw [he, ← PersistentStorageCollection.get_eq h key]
    exact toOption_fromDisk key _

theorem omits_fromMemory (version : UInt64) (key : Str) (res : Value) :
    omits version (fromMemory key res) = false := by
  unfold fromMemory omits
  cases res.value with
  | some value => exact decide_eq_false UInt64.not_lt_zero
  | none => rfl

theorem omits_fromDisk {version : UInt64} {key : Str} {r : Result StorageEntry}
    (h : omits version (fromDisk key r) = true) : ∃ res, r = .ok res ∧ version < res.version := by
  unfold fromDisk at h
  split at h
  · rename_i res
    split at h
    · exact ⟨res, rfl, of_decide_eq_true h⟩
    · cases h
  · cases h

/-- A failed `Get` says that the key was not found. -/
theorem eq_notFound {key : Str} {e : Error} (he : s.get key = .error e) : s.get key = notFound key := by
  unfold get fromMemory fromDisk at he ⊢
  split at he
  · split at he
    · cases he
    · rfl
  · split at he
    · split at he
      · cases he
      · rfl
    · rfl

theorem get_error {key : Str} {e : Error} (he : s.get key = .error e) : e.wraps .kNotFound = true := by
  have hn := eq_notFound he
  rw [he] at hn
  cases hn
  exact wraps_makeError _ _ _

/-- `Get` is determined by what it finds. -/
theorem get_congr {s' : StorageSystem} {key : Str} (h : (s.get key).toOption = (s'.get key).toOption) :
    s.get key = s'.get key := by
  refine Result.ext_toOption h fun e e' he he' => ?_
  have hs := eq_notFound he
  have hs' := eq_notFound he'
  rw [he] at hs
  rw [he', ← hs] at hs'
  exact (Except.error.inj hs').symm

/-- `Get` returns the value of the stored entry and nothing for a tombstone. -/
theorem get_value (h : s.persistentStorage.Wf) (key : Str) :
    (s.get key).toOption.map ValueDTO.value = (s.entry key).bind Value.value := by
  rw [get_eq h, entry]
  cases s.storage.find key with
  | some row => cases hv : row.value <;> simp [reported, hv]
  | none =>
    cases s.persistentStorage.find key with
    | some record => cases hv : record.value <;> simp [reported, hv, StorageEntry.toValue]
    | none => rfl

/-- When an operation is omitted: its key has a live value on disk that is not shadowed by a row in
memory and has a greater version. -/
theorem omits_iff (h : s.persistentStorage.Wf) (version : UInt64) (key : Str) :
    omits version (s.get key) = true ↔ s.storage.find key = none ∧
      ∃ record, s.persistentStorage.find key = some record ∧ record.value.isSome ∧
        version < record.version := by
  have hget := get_eq h key
  cases hr : s.get key with
  | error e =>
    simp only [hr, Except.toOption] at hget
    simp only [omits, Bool.false_eq_true, false_iff, not_and]
    rintro hmem ⟨record, hrec, hlive, -⟩
    rw [hmem, hrec] at hget
    obtain ⟨value, hvalue⟩ := Option.isSome_iff_exists.1 hlive
    simp [reported, hvalue] at hget
  | ok old =>
    simp only [hr, Except.toOption] at hget
    simp only [omits, decide_eq_true_eq]
    cases hmem : s.storage.find key with
    | some row =>
      rw [hmem] at hget
      simp only [reported] at hget
      obtain ⟨value, -, rfl⟩ := Option.map_eq_some_iff.1 hget.symm
      simp [UInt64.not_lt_zero]
    | none =>
      rw [hmem] at hget
      cases hrec : s.persistentStorage.find key with
      | none => rw [hrec] at hget; cases hget
      | some record =>
        rw [hrec] at hget
        simp only [reported] at hget
        obtain ⟨value, hvalue, rfl⟩ := Option.map_eq_some_iff.1 hget.symm
        simp [hvalue]

/-- What an operation can do: be omitted, fail at the log, or write its record and its row. -/
theorem exec_cases (isOk : Bool) (w : Write) (s : StorageSystem) :
    (omits w.version (s.get w.key) = true ∧ exec isOk w s = (.ok (), s)) ∨
    (omits w.version (s.get w.key) = false ∧ isOk = false ∧ ∃ e, exec isOk w s = (.error e, s)) ∨
    (omits w.version (s.get w.key) = false ∧ isOk = true ∧ exec isOk w s = (.ok (),
      { s with
        disk := s.disk.setWal s.walWriter ((s.disk.wal s.walWriter).map fun l => l ++ [w.record])
        storage := s.storage.setTable s.storage.writerTable
          (w.applyTo (s.storage.tables s.storage.writerTable)) })) := by
  cases w with
  | insert kwPair =>
    show _ ∨ (_ ∧ _ ∧ ∃ e, s.insert isOk kwPair = _) ∨ (_ ∧ _ ∧ s.insert isOk kwPair = _)
    cases ho : omits kwPair.version (s.get kwPair.key) with
    | true => exact .inl ⟨ho, by simp [exec, insert, ho]⟩
    | false =>
      cases isOk with
      | false => exact .inr (.inl ⟨ho, rfl, _, by simp [insert, ho, writeEntry]; rfl⟩)
      | true =>
        refine .inr (.inr ⟨ho, rfl, ?_⟩)
        simp [insert, ho, writeEntry, SwappableMemoryStorage.insert_eq, Write.applyTo, Write.record]
  | remove key version =>
    show _ ∨ (_ ∧ _ ∧ ∃ e, s.remove isOk key version = _) ∨ (_ ∧ _ ∧ s.remove isOk key version = _)
    cases ho : omits version (s.get key) with
    | true => exact .inl ⟨ho, by simp [exec, remove, ho]⟩
    | false =>
      cases isOk with
      | false => exact .inr (.inl ⟨ho, rfl, _, by simp [remove, ho, writeEntry]; rfl⟩)
      | true =>
        refine .inr (.inr ⟨ho, rfl, ?_⟩)
        simp [remove, ho, writeEntry, SwappableMemoryStorage.remove_eq, Write.applyTo, Write.record]

/-- An operation whose log record is written changes the row of its own key, unless it is omitted. -/
theorem exec_true (h : s.Wf) (w : Write) :
    (exec true w s).1 = .ok () ∧ (exec true w s).2.Wf ∧
    (exec true w s).2.persistentStorage = s.persistentStorage ∧
    ∀ k, (exec true w s).2.storage.find k =
      if k = w.key ∧ omits w.version (s.get w.key) = false then some w.value else s.storage.find k := by
  rcases exec_cases true w s with ⟨ho, he⟩ | ⟨-, hok, -⟩ | ⟨ho, -, he⟩
  · rw [he]
    exact ⟨rfl, h, rfl, fun k => by simp [ho]⟩
  · cases hok
  · rw [he]
    refine ⟨rfl, ⟨h.storage.setTable_writerTable _, h.persistentStorage⟩, rfl, fun k => ?_⟩
    simp only [ho, and_true]
    exact h.storage.find_write (f := w.applyTo) (fun table k => Write.find_applyTo w table k) k

end

end StorageSystem

end Iu9Db
