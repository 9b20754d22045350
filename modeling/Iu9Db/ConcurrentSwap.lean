import Iu9Db.JobFiles
import Iu9Db.Lib.Transition

/-!
# Operations that run while a job runs

Any number of operations and one job take their statements in any order. An operation reads memory and
the collection, appends to the log on its strand, and then writes to memory through the counter that
it loads from `writer_`. Alone, an operation does what `exec` does (`opSteps_exec`).
-/

namespace Iu9Db

open StorageSystem Transition

/-- Where an operation stands; `file` is the WAL file its record went to. -/
inductive OpPc
  | start
  | firstLoaded (table : TableId)
  | firstMissed
  | secondLoaded (table : TableId)
  | memoryMissed
  | got (oldOpt : Result ValueDTO)
  | checked
  | logged (file : FileId)
  | writerLoaded (file : FileId) (ptr : CounterId)
  | counted (file : FileId) (ptr : CounterId)
  | written (file : FileId) (ptr : CounterId)
  | released (file : FileId)
  | acked (file : FileId)
  | omitted
deriving DecidableEq

/-- The next statement of `Insert` or `Remove`; every append to the log succeeds. A freed table keeps
its rows, so that a late reader finds what it held. -/
def opStep (w : Write) : OpPc → StorageSystem → Option (OpPc × StorageSystem)
  | .start, s => some (.firstLoaded s.storage.readerFirst, s)
  | .firstLoaded table, s =>
    match (s.storage.tables table).get w.key with
    | .ok res => some (.got (fromMemory w.key res), s)
    | .error _ => some (.firstMissed, s)
  | .firstMissed, s => some (.secondLoaded s.storage.readerSecond, s)
  | .secondLoaded table, s =>
    match (s.storage.tables table).get w.key with
    | .ok res => some (.got (fromMemory w.key res), s)
    | .error _ => some (.memoryMissed, s)
  | .memoryMissed, s => some (.got (fromDisk w.key (s.persistentStorage.get w.key)), s)
  | .got oldOpt, s => some (if omits w.version oldOpt then .omitted else .checked, s)
  | .checked, s =>
    some (.logged s.walWriter, { s with disk := (writeEntry true s.walWriter w.record s.disk).2 })
  | .logged file, s => some (.writerLoaded file s.storage.writer, s)
  | .writerLoaded file ptr, s => some (.counted file ptr, { s with storage := s.storage.add ptr })
  | .counted file ptr, s => some (.written file ptr, { s with storage := s.storage.write ptr w.applyTo })
  | .written file ptr, s => some (.released file, { s with storage := s.storage.release ptr })
  | .released file, s => some (.acked file, s)
  | .acked _, _ | .omitted, _ => none

/-- What one statement of an operation does. -/
inductive OpPc.Step (w : Write) (s : StorageSystem) : OpPc → OpPc → StorageSystem → Prop
  | loadFirst : Step w s start (firstLoaded s.storage.readerFirst) s
  | findFirst {table res} (h : (s.storage.tables table).get w.key = .ok res) :
      Step w s (firstLoaded table) (got (fromMemory w.key res)) s
  | missFirst {table e} (h : (s.storage.tables table).get w.key = .error e) :
      Step w s (firstLoaded table) firstMissed s
  | loadSecond : Step w s firstMissed (secondLoaded s.storage.readerSecond) s
  | findSecond {table res} (h : (s.storage.tables table).get w.key = .ok res) :
      Step w s (secondLoaded table) (got (fromMemory w.key res)) s
  | missSecond {table e} (h : (s.storage.tables table).get w.key = .error e) :
      Step w s (secondLoaded table) memoryMissed s
  | readDisk : Step w s memoryMissed (got (fromDisk w.key (s.persistentStorage.get w.key))) s
  | stale {oldOpt} (h : omits w.version oldOpt = true) : Step w s (got oldOpt) omitted s
  | check {oldOpt} (h : omits w.version oldOpt = false) : Step w s (got oldOpt) checked s
  | log : Step w s checked (logged s.walWriter)
      { s with disk := s.disk.setWal s.walWriter ((s.disk.wal s.walWriter).map fun l => l ++ [w.record]) }
  | loadWriter {file} : Step w s (logged file) (writerLoaded file s.storage.writer) s
  | add {file ptr} : Step w s (writerLoaded file ptr)
    (counted file ptr) { s with storage := s.storage.add ptr }
  | write {file ptr} : Step w s (counted file ptr) (written file ptr)
      { s with storage := s.storage.write ptr w.applyTo }
  | release {file ptr} : Step w s (written file ptr)
    (released file) { s with storage := s.storage.release ptr }
  | ack {file} : Step w s (released file) (acked file) s

theorem opStep_cases {w : Write} {pc pc' : OpPc} {s s' : StorageSystem} (h : opStep w pc s = some (pc', s')) :
    pc.Step w s pc' s' := by
  cases pc with
  | start => cases h; exact .loadFirst
  | firstLoaded table =>
    simp only [opStep] at h
    split at h <;> cases h
    · exact .findFirst ‹_›
    · exact .missFirst ‹_›
  | firstMissed => cases h; exact .loadSecond
  | secondLoaded table =>
    simp only [opStep] at h
    split at h <;> cases h
    · exact .findSecond ‹_›
    · exact .missSecond ‹_›
  | memoryMissed => cases h; exact .readDisk
  | got oldOpt =>
    simp only [opStep] at h
    cases ho : omits w.version oldOpt with
    | true => rw [ho] at h; cases h; exact .stale ho
    | false => rw [ho] at h; cases h; exact .check ho
  | checked => cases h; exact .log
  | logged file => cases h; exact .loadWriter
  | writerLoaded file ptr => cases h; exact .add
  | counted file ptr => cases h; exact .write
  | written file ptr => cases h; exact .release
  | released file => cases h; exact .ack
  | acked file => cases h
  | omitted => cases h

/-- Statement after statement of one operation. -/
abbrev OpSteps (w : Write) : OpPc × StorageSystem → OpPc × StorageSystem → Prop :=
  Relation.ReflTransGen fun a b => opStep w a.1 a.2 = some b

theorem opSteps_got {w : Write} {s : StorageSystem} {oldOpt : Result ValueDTO} (hg : s.get w.key = oldOpt) :
    OpSteps w (.got oldOpt, s)
      (if omits w.version oldOpt then .omitted else .acked s.walWriter, (exec true w s).2) := by
  rcases exec_cases true w s with ⟨ho, he⟩ | ⟨-, hok, -⟩ | ⟨ho, -, he⟩
  · rw [hg] at ho
    rw [he, if_pos ho]
    exact .single (by simp only [opStep, ho, if_true])
  · cases hok
  · rw [hg] at ho
    rw [he, ho]
    have hgot : opStep w (.got oldOpt) s = some (.checked, s) := by simp [opStep, ho]
    let d := s.disk.setWal s.walWriter ((s.disk.wal s.walWriter).map fun l => l ++ [w.record])
    have hreleased : opStep w (.written s.walWriter s.storage.writer)
        { s with disk := d, storage := (s.storage.add s.storage.writer).write s.storage.writer w.applyTo } =
        some (.released s.walWriter, { s with
          disk := d
          storage := s.storage.setTable s.storage.writerTable
            (w.applyTo (s.storage.tables s.storage.writerTable)) }) := by
      simp only [opStep]
      rw [← SwappableMemoryStorage.add_write_release]
    exact .head hgot (.head rfl (.head rfl (.head rfl (.head rfl (.head hreleased (.single rfl))))))

/-- **An operation with nothing in between does what `exec` does.** -/
theorem opSteps_exec (w : Write) (s : StorageSystem) :
    OpSteps w (.start, s)
      (if omits w.version (s.get w.key) then .omitted else .acked s.walWriter, (exec true w s).2) := by
  refine .head rfl ?_
  cases hfirst : (s.storage.tables s.storage.readerFirst).get w.key with
  | ok res =>
    have hget : s.get w.key = fromMemory w.key res := by
      simp [StorageSystem.get, SwappableMemoryStorage.get, hfirst]
    refine .head (b := (.got (fromMemory w.key res), s)) (by simp only [opStep, hfirst]) ?_
    rw [hget]
    exact opSteps_got hget
  | error e =>
    refine .head (b := (.firstMissed, s)) (by simp only [opStep, hfirst]) (.head rfl ?_)
    cases hsecond : (s.storage.tables s.storage.readerSecond).get w.key with
    | ok res =>
      have hget : s.get w.key = fromMemory w.key res := by
        simp [StorageSystem.get, SwappableMemoryStorage.get, hfirst, hsecond]
      refine .head (b := (.got (fromMemory w.key res), s)) (by simp only [opStep, hsecond]) ?_
      rw [hget]
      exact opSteps_got hget
    | error e' =>
      have hget : s.get w.key = fromDisk w.key (s.persistentStorage.get w.key) := by
        simp [StorageSystem.get, SwappableMemoryStorage.get, hfirst, hsecond]
      refine .head (b := (.memoryMissed, s)) (by simp only [opStep, hsecond]) (.head rfl ?_)
      rw [hget]
      exact opSteps_got hget

/-! ### What one statement of an operation changes -/

namespace OpPc

/-- The counter that an operation has loaded and still uses. -/
def ptr? : OpPc → Option CounterId
  | writerLoaded _ ptr | counted _ ptr | written _ ptr => some ptr
  | _ => none

/-- An operation that keeps the count of `c` up. -/
def holds (c : CounterId) : OpPc → Bool
  | counted _ ptr | written _ ptr => ptr == c
  | _ => false

/-- The file of an operation that has its record in a WAL. -/
def file? : OpPc → Option FileId
  | logged file | writerLoaded file _ | counted file _ | written file _ | released file | acked file =>
    some file
  | _ => none

/-- The file of an operation that has reached memory. -/
def appliedFile? : OpPc → Option FileId
  | written file _ | released file | acked file => some file
  | _ => none

end OpPc

section
variable {w : Write} {pc pc' : OpPc} {s s' : StorageSystem}

/-- No statement of an operation moves the pointers, the WAL or the collection. -/
structure SameRoles (s s' : StorageSystem) : Prop where
  walWriter : s'.walWriter = s.walWriter
  persistentStorage : s'.persistentStorage = s.persistentStorage
  writer : s'.storage.writer = s.storage.writer
  readerFirst : s'.storage.readerFirst = s.storage.readerFirst
  readerSecond : s'.storage.readerSecond = s.storage.readerSecond
  nextCounter : s'.storage.nextCounter = s.storage.nextCounter
  ptr : ∀ c, (s'.storage.counters c).ptr = (s.storage.counters c).ptr

theorem SameRoles.rfl : SameRoles s s :=
    ⟨.refl _, .refl _, .refl _, .refl _, .refl _, .refl _, fun _ => .refl _⟩

theorem sameRoles_opStep (h : opStep w pc s = some (pc', s')) : SameRoles s s' := by
  cases opStep_cases h with
  | add | release => exact ⟨rfl, rfl, rfl, rfl, rfl, rfl, SwappableMemoryStorage.ptr_update⟩
  | log | write => exact ⟨rfl, rfl, rfl, rfl, rfl, rfl, fun _ => rfl⟩
  | _ => exact .rfl

/-- The count follows the operations that hold it. -/
theorem count_opStep (h : opStep w pc s = some (pc', s')) (c : CounterId)
    (hpos : pc.holds c = true → 0 < (s.storage.counters c).referenceCount) :
    (s'.storage.counters c).referenceCount = (s.storage.counters c).referenceCount -
      (if pc.holds c then 1 else 0) + if pc'.holds c then 1 else 0 := by
  cases opStep_cases h with
  | @add file ptr =>
    by_cases hc : c = ptr
    · subst hc; simp [OpPc.holds, SwappableMemoryStorage.add]
    · simp [OpPc.holds, SwappableMemoryStorage.add, Function.update_of_ne hc, Ne.symm hc]
  | @write file ptr =>
    by_cases hc : ptr = c
    · have hpos := hpos (by simp [OpPc.holds, hc])
      simp only [OpPc.holds, hc, beq_self_eq_true, if_true]
      exact (Nat.sub_add_cancel hpos).symm
    · simp [OpPc.holds, hc, SwappableMemoryStorage.write, SwappableMemoryStorage.setTable]
  | @release file ptr =>
    by_cases hc : c = ptr
    · subst hc; simp [OpPc.holds, SwappableMemoryStorage.release]
    · simp [OpPc.holds, SwappableMemoryStorage.release, Function.update_of_ne hc, Ne.symm hc]
  | _ => rfl

/-- A counter in use was in use before or is the one `writer_` points to. -/
theorem ptr_opStep (h : opStep w pc s = some (pc', s')) {p : CounterId} (hp : pc'.ptr? = some p) :
    pc.ptr? = some p ∨ p = s.storage.writer := by
  cases opStep_cases h with
  | loadWriter => cases hp; exact .inr rfl
  | add | write => exact .inl hp
  | _ => cases hp

/-- The file of a record was its file before or is the one that is written to. -/
theorem file_opStep (h : opStep w pc s = some (pc', s')) {f : FileId} (hf : pc'.file? = some f) :
    pc.file? = some f ∨ pc = .checked ∧ pc' = .logged s.walWriter ∧ f = s.walWriter := by
  cases opStep_cases h with
  | log => cases hf; exact .inr ⟨rfl, rfl, rfl⟩
  | loadWriter | add | write | release | ack => exact .inl hf
  | _ => cases hf

theorem appliedFile_opStep (h : opStep w pc s = some (pc', s')) {f : FileId}
    (hf : pc'.appliedFile? = some f) : pc.appliedFile? = some f ∨ ∃ ptr, pc = .counted f ptr := by
  cases opStep_cases h with
  | @write file ptr => cases hf; exact .inr ⟨ptr, rfl⟩
  | release | ack => exact .inl hf
  | _ => cases hf

/-- The statements from the log to the raised count, backwards. -/
theorem logging_opStep (h : opStep w pc s = some (pc', s')) :
    (∀ f, pc' = .logged f → f = s.walWriter) ∧
    (∀ f ptr, pc' = .writerLoaded f ptr → pc = .logged f) ∧
    ∀ f ptr, pc' = .counted f ptr → pc = .writerLoaded f ptr := by
  refine ⟨fun f hf => ?_, fun f ptr hf => ?_, fun f ptr hf => ?_⟩ <;> subst hf
  · cases opStep_cases h; rfl
  · cases opStep_cases h; rfl
  · cases opStep_cases h; rfl

/-- The disk changes when a record is appended, and then only by that. -/
theorem disk_opStep (h : opStep w pc s = some (pc', s')) : s'.disk = s.disk ∨
    pc = .checked ∧ pc' = .logged s.walWriter ∧
      s'.disk = s.disk.setWal s.walWriter ((s.disk.wal s.walWriter).map fun l => l ++ [w.record]) := by
  cases opStep_cases h with
  | log => exact .inr ⟨rfl, rfl, rfl⟩
  | _ => exact .inl rfl

theorem walFiles_opStep {job : SwapJob} (h : opStep w pc s = some (pc', s')) (hw : WalFiles job s) :
    WalFiles job s' := by
  have hr := sameRoles_opStep h
  rcases disk_opStep h with he | ⟨-, -, he⟩
  · exact hw.congr hr.walWriter he
  · exact hw.append hr.walWriter he

/-- Memory changes when an operation with a raised count writes its row. -/
theorem tables_opStep (h : opStep w pc s = some (pc', s')) :
    (∀ file ptr, pc ≠ .counted file ptr) ∧ s'.storage.tables = s.storage.tables ∨
    ∃ file ptr, pc = .counted file ptr ∧ pc' = .written file ptr ∧
      s'.storage.tables = Function.update s.storage.tables (s.storage.counters ptr).ptr
        (w.applyTo (s.storage.tables (s.storage.counters ptr).ptr)) := by
  cases opStep_cases h with
  | @write file ptr => exact .inr ⟨file, ptr, rfl, rfl, rfl⟩
  | _ => exact .inl ⟨by simp, rfl⟩

/-- An operation is omitted because of a newer record in the collection. -/
theorem omits_opStep (h : opStep w pc s = some (pc', s')) :
    (pc' = .omitted → ∃ old, pc = .got old ∧ omits w.version old = true) ∧
    ∀ old, pc' = .got old → omits w.version old = true →
      ∃ st ∈ s.persistentStorage.collection, ∃ e ∈ st.entries, e.key = w.key ∧ w.version < e.version := by
  refine ⟨fun hpc => ?_, fun old hpc ho => ?_⟩ <;> subst hpc
  · cases opStep_cases h with
    | stale ho => exact ⟨_, rfl, ho⟩
  · cases opStep_cases h with
    | findFirst _ | findSecond _ =>
      rw [omits_fromMemory] at ho
      cases ho
    | readDisk =>
      obtain ⟨res, hres, hlt⟩ := omits_fromDisk ho
      obtain ⟨hk, st, hst, hmem⟩ := PersistentStorageCollection.mem_of_get hres
      exact ⟨st, hst, res, hmem, hk, hlt⟩

end

/-! ### The system -/

namespace ConcurrentSwap

structure Operation where
  write : Write
  pc : OpPc
deriving DecidableEq

/-- An operation that has reached its memory table: which one, and where its record is. -/
structure Applied where
  op : Nat
  write : Write
  table : TableId
  file : FileId
deriving DecidableEq

/-- The engine, the job, the operations, and those that have reached memory in the order they did. -/
structure State where
  system : StorageSystem
  job : SwapJob
  ops : List Operation
  applied : List Applied

inductive Label
  | begin (w : Write)
  | op (i : Nat)
  | job

/-- What the next statement of the `i`th operation adds to the applied ones. -/
def appliedBy (i : Nat) (o : Operation) (s : StorageSystem) : List Applied :=
  match o.pc with
  | .counted file ptr => [⟨i, o.write, (s.storage.counters ptr).ptr, file⟩]
  | _ => []

/-- The job stops after `remove_callback`; none of its system calls fails. -/
def step (s : State) : Label → Option State
  | .begin w => some { s with ops := s.ops ++ [⟨w, .start⟩] }
  | .op i => (s.ops[i]?).bind fun o => (opStep o.write o.pc s.system).map fun next => { s with
      system := next.2
      ops := s.ops.set i ⟨o.write, next.1⟩
      applied := s.applied ++ appliedBy i o s.system }
  | .job =>
    if s.job = .walRemoved then none
    else (SwapJob.step .succeeds s.job s.system).map fun next => { s with job := next.1, system := next.2 }

/-- An engine with writers on the second reader's table, as it is built and as every job that gets to
its end leaves it; no operation under way. -/
structure Ready (s : StorageSystem) : Prop where
  wf : s.Wf
  writer : s.storage.writerTable = s.storage.readerSecond
  count : (s.storage.counters s.storage.writer).referenceCount = 0
  wal : WalFiles .start s
  files : Files s

def init (s : State) : Prop := ∃ s₀, Ready s₀ ∧ s = ⟨s₀, .start, [], []⟩

def system : System State Label := ofFun init step

/-- Every acknowledged operation can be recovered: it, or one applied to its key later, is in a WAL
file that exists or in a listed table. An omitted one has a newer entry on disk. -/
structure Durable (s : State) : Prop where
  acked : ∀ i o file, s.ops[i]? = some o → o.pc = .acked file → ∃ before a after,
    s.applied = before ++ a :: after ∧ a.op = i ∧ a.write = o.write ∧
    ∃ b ∈ a :: after, b.write.key = o.write.key ∧ s.system.disk.Recorded b.write
  omitted : ∀ o ∈ s.ops, o.pc = .omitted →
    ∃ e, e.key = o.write.key ∧ o.write.version < e.version ∧ s.system.disk.Stored e

/-- `Collect` exchanges the writer when every operation with its record in the old WAL has raised a
count; and it frees the old counter when no operation has loaded it and not raised its count. -/
def Ok (s : State) : Label → Prop
  | .job => match s.job with
    | .walSwapped path => ∀ o ∈ s.ops, o.pc ≠ .logged path ∧ ∀ ptr, o.pc ≠ .writerLoaded path ptr
    | .writerExchanged _ oldWriter => ∀ o ∈ s.ops, ∀ file, o.pc ≠ .writerLoaded file oldWriter
    | _ => True
  | _ => True

/-- Every step, allowed or not, keeps the WAL files. -/
theorem walFiles_of_step {s s' : State} {a : Label} (hw : WalFiles s.job s.system) (hs : step s a = some s') :
    WalFiles s'.job s'.system := by
  cases a with
  | begin w => cases hs; exact hw
  | op i =>
    obtain ⟨o, -, h⟩ := Option.bind_eq_some_iff.1 hs
    obtain ⟨next, hstep, rfl⟩ := Option.map_eq_some_iff.1 h
    exact walFiles_opStep hstep hw
  | job =>
    simp only [step] at hs
    split at hs
    · cases hs
    · obtain ⟨next, hstep, rfl⟩ := Option.map_eq_some_iff.1 hs
      exact walFiles_step hw hstep

end ConcurrentSwap

end Iu9Db
