import Iu9Db.SwapJob
import Iu9Db.WriterSwitch

/-!
# When counters and tables are freed

`SwappableMemoryStorage` frees an old counter, and with an owning one its table, when its count has
been zero. An operation loads a pointer and raises the count in two steps, and the count does not tell
of one that stands between them. `safe_of_reachableBy`: as long as no `Wait` ends while an operation
stands there, nothing is used or freed after it was freed, and nothing leaks; `ok_iff`: this is
exactly when. `rests_of_reachableBy`: every `Wait` can come to its end.
-/

namespace Iu9Db

open Transition
open WriterSwitch (installWriter)

namespace CounterLifetimes

/-- The `OwningReferenceCounter` of a table, or a `ReferenceCounter` that `writer_` has pointed to. -/
inductive Counter
  | reader (t : TableId)
  | writer (c : CounterId)
deriving DecidableEq

inductive Object
  | counter (p : Counter)
  | table (t : TableId)
deriving DecidableEq

/-- `Get`, `Insert` or `Remove`, and `TriggerSwapToPersistentStorage`. -/
inductive Call
  | get (key : Str)
  | write (w : Write)
  | trigger
deriving DecidableEq

/-- What a call does next when it holds no pointer: it loads one, `Get` a second one, or it comes to
the guard. -/
inductive Next
  | load (second : Bool)
  | tryAcquire
  | finished (res : Option (Result Value))

inductive CallPc
  | next (n : Next)
  | loaded (second : Bool) (p : Counter)
  | counted (second : Bool) (p : Counter) (t : TableId)
  | used (p : Counter) (n : Next)

/-- Where `SwapToPersistentStorage` stands. Its work on files is left out; where that fails the job ends. -/
inductive JobPc
  | start
  | firstLoaded (first : TableId)
  | exchanged (oldWriter : CounterId)
  | waited (oldWriter : CounterId)
  | writerDeleted
  | copied (data : List StorageEntry)
  | secondExchanged (oldReader : TableId)
  | readerWaited (oldReader : TableId)
  | readerDeleted
  | ended
deriving DecidableEq

structure Operation where
  call : Call
  pc : CallPc

structure State where
  storage : SwappableMemoryStorage
  /-- `reference_count_` of the owning counters. -/
  readerCount : TableId → Nat
  freed : List Object
  ops : List Operation
  isJobRunning : Bool
  jobs : List JobPc

inductive Label
  | begin (call : Call)
  | op (i : Nat)
  | job (i : Nat)
  | fail (i : Nat)
  | release (i : Nat)

namespace State

/-- `ptr_` of a counter. -/
def ptr (s : State) : Counter → TableId
  | .reader t => t
  | .writer c => (s.storage.counters c).ptr

def count (s : State) : Counter → Nat
  | .reader t => s.readerCount t
  | .writer c => (s.storage.counters c).referenceCount

/-- `Add`. -/
def add (s : State) : Counter → State
  | .reader t => { s with readerCount := Function.update s.readerCount t (s.readerCount t + 1) }
  | .writer c => { s with storage := s.storage.add c }

/-- `Remove`. -/
def release (s : State) : Counter → State
  | .reader t => { s with readerCount := Function.update s.readerCount t (s.readerCount t - 1) }
  | .writer c => { s with storage := s.storage.release c }

def free (s : State) (objects : List Object) : State := { s with freed := s.freed ++ objects }

end State

/-- `reader_first_.load()`, `reader_second_.load()` or `writer_.load()`. -/
def load (second : Bool) (st : SwappableMemoryStorage) : Call → Counter
  | .get _ => .reader (if second then st.readerSecond else st.readerFirst)
  | .write _ | .trigger => .writer st.writer

/-- The call on the table. -/
def use (second : Bool) (t : TableId) (st : SwappableMemoryStorage) : Call → Next × SwappableMemoryStorage
  | .get key =>
    match (st.tables t).get key with
    | .ok res => (.finished (some (.ok res)), st)
    | .error e => (if second then .finished (some (.error e)) else .load true, st)
  | .write w => (.finished none, st.setTable t (w.applyTo (st.tables t)))
  | .trigger => (if (st.tables t).size < StorageSystem.kThreshold then .finished none else .tryAcquire, st)

def opStep (call : Call) : CallPc → State → Option (CallPc × State)
  | .next (.load second), s => some (.loaded second (load second s.storage call), s)
  | .loaded second p, s => some (.counted second p (s.ptr p), s.add p)
  | .counted second p t, s =>
    some (.used p (use second t s.storage call).1, { s with storage := (use second t s.storage call).2 })
  | .used p n, s => some (.next n, s.release p)
  | .next .tryAcquire, s =>
    some (.next (.finished none),
      { s with isJobRunning := true, jobs := if s.isJobRunning then s.jobs else s.jobs ++ [.start] })
  | .next (.finished _), _ => none

/-- A deleted owning counter takes its table with it. -/
def jobStep : JobPc → State → Option (JobPc × State)
  | .start, s => some (.firstLoaded s.storage.readerFirst, s)
  | .firstLoaded first, s =>
    some (.exchanged s.storage.writer, { s with storage := installWriter first s.storage })
  | .exchanged old, s => if s.count (.writer old) = 0 then some (.waited old, s) else none
  | .waited old, s => some (.writerDeleted, s.free [.counter (.writer old)])
  | .writerDeleted, s => some (.copied s.storage.copySecond, s)
  | .copied _, s =>
    some (.secondExchanged s.storage.readerSecond, { s with storage := s.storage.exchangeSecond })
  | .secondExchanged old, s => if s.count (.reader old) = 0 then some (.readerWaited old, s) else none
  | .readerWaited old, s => some (.readerDeleted, s.free [.table old, .counter (.reader old)])
  | .readerDeleted, s => some (.ended, { s with
      storage := s.storage.storeFirst
      readerCount := Function.update s.readerCount s.storage.nextTable 0 })
  | .ended, _ => none

/-- A job can fail before `Collect` and before `RemoveCollected`. One that has ended releases the guard. -/
def step (s : State) : Label → Option State
  | .begin call => some { s with ops := s.ops ++ [⟨call, .next (.load false)⟩] }
  | .op i => (s.ops[i]?).bind fun o => (opStep o.call o.pc s).map fun next =>
      { next.2 with ops := s.ops.set i ⟨o.call, next.1⟩ }
  | .job i => (s.jobs[i]?).bind fun pc => (jobStep pc s).map fun next =>
      { next.2 with jobs := s.jobs.set i next.1 }
  | .fail i => (s.jobs[i]?).bind fun
    | .start | .copied _ => some { s with jobs := s.jobs.set i .ended }
    | _ => none
  | .release i =>
    if s.jobs[i]? = some .ended then
      some { s with isJobRunning := false, jobs := s.jobs.eraseIdx i }
    else none

/-- A storage around a table that was recovered, or around an empty one. -/
def init (s : State) : Prop := ∃ other, s = ⟨.ofMap other, fun _ => 0, [], [], false, []⟩

def system : System State Label := ofFun init step

/-! ### What is used and what is freed -/

def CallPc.uses : CallPc → List Object
  | .loaded _ p | .used p _ => [.counter p]
  | .counted _ _ t => [.table t]
  | .next _ => []

def JobPc.uses (st : SwappableMemoryStorage) : JobPc → List Object
  | .start => [.counter (.reader st.readerFirst)]
  | .exchanged old | .waited old => [.counter (.writer old)]
  | .writerDeleted => [.counter (.reader st.readerSecond), .table st.readerSecond]
  | .secondExchanged old => [.counter (.reader old)]
  | .readerWaited old => [.counter (.reader old), .table old]
  | .firstLoaded _ | .copied _ | .readerDeleted | .ended => []

/-- The objects that a step reads, writes or frees. -/
def uses (s : State) : Label → List Object
  | .op i => (s.ops[i]?).elim [] fun o => o.pc.uses
  | .job i => (s.jobs[i]?).elim [] fun pc => pc.uses s.storage
  | .begin _ | .fail _ | .release _ => []

/-- What a job has taken out of the pointers and not freed yet. -/
def JobPc.held : JobPc → List Object
  | .exchanged old | .waited old => [.counter (.writer old)]
  | .secondExchanged old | .readerWaited old => [.table old, .counter (.reader old)]
  | _ => []

/-- What the three pointers lead to. -/
def pointers (st : SwappableMemoryStorage) : List Object :=
  [.counter (.reader st.readerFirst), .table st.readerFirst, .counter (.reader st.readerSecond),
    .table st.readerSecond, .counter (.writer st.writer)]

def held (s : State) : List Object := pointers s.storage ++ s.jobs.flatMap JobPc.held

def Allocated (st : SwappableMemoryStorage) : Object → Prop
  | .counter (.reader t) | .table t => t < st.nextTable
  | .counter (.writer c) => c < st.nextCounter

/-- The counter that a call has raised and not lowered yet. -/
def CallPc.holds? : CallPc → Option Counter
  | .counted _ p _ | .used p _ => some p
  | _ => none

/-- The counter that a call has loaded and not raised yet. -/
def CallPc.loaded? : CallPc → Option Counter
  | .loaded _ p => some p
  | _ => none

/-- The counter whose `Wait` is under way. -/
def JobPc.awaits? : JobPc → Option Counter
  | .exchanged old => some (.writer old)
  | .secondExchanged old => some (.reader old)
  | _ => none

structure Safe (s : State) : Prop where
  /-- Nothing is used after it was freed, or freed twice. -/
  live : ∀ a, ∀ o ∈ uses s a, Allocated s.storage o ∧ o ∉ s.freed
  /-- What is not freed is still reached. -/
  reached : ∀ o, Allocated s.storage o → o ∉ s.freed → o ∈ held s
  /-- A count is the number of calls that have raised it. -/
  count : ∀ p, .counter p ∈ held s → s.count p = s.ops.countP fun o => o.pc.holds? = some p

/-- When a `Wait` ends no call has loaded the counter without having raised it. -/
def Ok (s : State) : Label → Prop
  | .job i => ∀ pc ∈ s.jobs[i]?, ∀ p ∈ pc.awaits?, ∀ o ∈ s.ops, o.pc.loaded? ≠ some p
  | _ => True

/-! ### The invariant -/

/-- The counter that a call has loaded. -/
def CallPc.ptr? : CallPc → Option Counter
  | .loaded _ p | .counted _ p _ | .used p _ => some p
  | .next _ => none

theorem CallPc.ptr?_eq_some {pc : CallPc} {p : Counter} : pc.ptr? = some p ↔ pc.loaded? = some p ∨
    pc.holds? = some p := by
  cases pc <;> simp [ptr?, loaded?, holds?]

/-- The counter that is freed next. -/
def JobPc.waited? : JobPc → Option Counter
  | .waited old => some (.writer old)
  | .readerWaited old => some (.reader old)
  | _ => none

/-- The pointers while a job stands there. -/
def JobPc.Roles (st : SwappableMemoryStorage) : JobPc → Prop
  | .start | .ended => st.readerFirst ≠ st.readerSecond
  | .firstLoaded first => st.readerFirst ≠ st.readerSecond ∧ first = st.readerFirst
  | .exchanged old | .waited old => st.readerFirst ≠ st.readerSecond ∧ st.writerTable = st.readerFirst ∧
      old ≠ st.writer ∧ ((st.counters old).ptr = st.readerFirst ∨ (st.counters old).ptr = st.readerSecond)
  | .writerDeleted | .copied _ => st.readerFirst ≠ st.readerSecond ∧ st.writerTable = st.readerFirst
  | .secondExchanged old | .readerWaited old =>
    st.readerSecond = st.readerFirst ∧ st.writerTable = st.readerFirst ∧ old ≠ st.readerFirst
  | .readerDeleted => st.readerSecond = st.readerFirst ∧ st.writerTable = st.readerFirst

def heldAt (st : SwappableMemoryStorage) (pc : JobPc) : List Object := pointers st ++ pc.held

/-- The one job; one that has ended when there is none. -/
def State.job (s : State) : JobPc := s.jobs.headD .ended

structure Memory (st : SwappableMemoryStorage) (pc : JobPc) (freed : List Object) : Prop where
  roles : pc.Roles st
  writer : st.writerTable = st.readerFirst ∨ st.writerTable = st.readerSecond
  disjoint : ∀ o ∈ freed, o ∉ heldAt st pc
  allocated : ∀ o, Allocated st o ↔ o ∈ freed ∨ o ∈ heldAt st pc

structure Calls (s : State) (pc : JobPc) : Prop where
  held : ∀ o ∈ s.ops, ∀ p ∈ o.pc.ptr?, .counter p ∈ heldAt s.storage pc
  table : ∀ o ∈ s.ops, ∀ second p t, o.pc = .counted second p t → t = s.ptr p
  quiet : ∀ p ∈ pc.waited?, ∀ o ∈ s.ops, o.pc.ptr? ≠ some p
  count : ∀ p, .counter p ∈ heldAt s.storage pc → s.count p = s.ops.countP fun o => o.pc.holds? = some p

structure Inv (s : State) : Prop where
  jobs : s.jobs = [] ∧ s.isJobRunning = false ∨ ∃ pc, s.jobs = [pc] ∧ s.isJobRunning = true
  memory : Memory s.storage s.job s.freed
  calls : Calls s s.job

/-! ### What a step of a job does -/

/-- A step of a job allocates `new` and frees `old`. -/
structure Takes (s s' : State) (pc pc' : JobPc) (new old : List Object) : Prop where
  ops : s'.ops = s.ops
  freed : s'.freed = s.freed ++ old
  held : ∀ o, o ∈ heldAt s'.storage pc' ∨ o ∈ old ↔ o ∈ heldAt s.storage pc ∨ o ∈ new
  fresh : ∀ o ∈ new, ¬ Allocated s.storage o
  gone : ∀ o ∈ old, o ∉ heldAt s'.storage pc'
  allocated : ∀ o, Allocated s'.storage o ↔ Allocated s.storage o ∨ o ∈ new
  same : ∀ p, .counter p ∉ new → s'.ptr p = s.ptr p ∧ s'.count p = s.count p
  zero : ∀ p, .counter p ∈ new → s'.count p = 0
  waited : ∀ p, .counter p ∈ old → pc.waited? = some p
  awaited : ∀ p ∈ pc'.waited?, pc.awaits? = some p ∧ s.count p = 0

section
variable {s s' : State} {pc pc' : JobPc} {new old : List Object}

theorem Memory.takes (h : Memory s.storage pc s.freed) (ht : Takes s s' pc pc' new old)
    (hroles : pc'.Roles s'.storage) (hwriter : s'.storage.writerTable = s'.storage.readerFirst ∨
      s'.storage.writerTable = s'.storage.readerSecond) :
    Memory s'.storage pc' s'.freed := by
  refine ⟨hroles, hwriter, fun o ho hheld => ?_, fun o => ?_⟩
  · rw [ht.freed, List.mem_append] at ho
    rcases ho with ho | ho
    · rcases (ht.held o).1 (.inl hheld) with hold | hnew
      · exact h.disjoint o ho hold
      · exact ht.fresh o hnew ((h.allocated o).2 (.inl ho))
    · exact ht.gone o ho hheld
  · rw [ht.allocated, h.allocated, ht.freed, List.mem_append, or_assoc, ← ht.held o]
    tauto

theorem Calls.takes (h : Calls s pc) (hm : Memory s.storage pc s.freed) (ht : Takes s s' pc pc' new old)
    (hok : ∀ p ∈ pc.awaits?, ∀ o ∈ s.ops, o.pc.loaded? ≠ some p) : Calls s' pc' := by
  -- what a call has loaded is held before the step, and is not freed by it
  have hold : ∀ o ∈ s.ops, ∀ p ∈ o.pc.ptr?, .counter p ∉ new := fun o ho p hp hnew =>
    ht.fresh _ hnew ((hm.allocated _).2 (.inr (h.held o ho p hp)))
  refine ⟨fun o ho p hp => ?_, fun o ho second p t hpc => ?_, fun p hp o ho hptr => ?_, fun p hp => ?_⟩
  · rw [ht.ops] at ho
    rcases (ht.held _).2 (.inl (h.held o ho p hp)) with hheld | hfreed
    · exact hheld
    · exact absurd hp (h.quiet p (ht.waited p hfreed) o ho)
  · rw [ht.ops] at ho
    rw [(ht.same p (hold o ho p (by rw [hpc]; rfl))).1]
    exact h.table o ho second p t hpc
  · rw [ht.ops] at ho
    obtain ⟨hawaits, hzero⟩ := ht.awaited p hp
    have hcount := h.count p (h.held o ho p hptr)
    rw [hzero, eq_comm, List.countP_eq_zero] at hcount
    rcases CallPc.ptr?_eq_some.1 hptr with hloaded | hholds
    · exact hok p hawaits o ho hloaded
    · exact hcount o ho (decide_eq_true hholds)
  · rw [ht.ops]
    by_cases hnew : Object.counter p ∈ new
    · rw [ht.zero p hnew, eq_comm, List.countP_eq_zero]
      intro o ho hholds
      exact hold o ho p (CallPc.ptr?_eq_some.2 (.inr (of_decide_eq_true hholds))) hnew
    · rw [(ht.same p hnew).2]
      exact h.count p (((ht.held _).1 (.inl hp)).resolve_right hnew)

/-- A step that only moves what is held. -/
theorem Takes.moves (hstate : s' = { s with storage := s'.storage })
    (hcounters : s'.storage.counters = s.storage.counters)
    (hheld : ∀ o, o ∈ heldAt s'.storage pc' ↔ o ∈ heldAt s.storage pc)
    (hallocated : ∀ o, Allocated s'.storage o ↔ Allocated s.storage o)
    (hawaited : ∀ p ∈ pc'.waited?, pc.awaits? = some p ∧ s.count p = 0) : Takes s s' pc pc' [] [] := by
  refine ⟨by rw [hstate], by rw [hstate]; simp, by simpa using hheld, by simp, by simp,
    by simpa using hallocated, fun p _ => ?_, by simp, by simp, hawaited⟩
  rw [hstate]
  cases p with
  | reader t => exact ⟨rfl, rfl⟩
  | writer c => exact ⟨by simp only [State.ptr, hcounters], by simp only [State.count, hcounters]⟩

theorem Takes.stays (hheld : pc'.held = pc.held)
    (hawaited : ∀ p ∈ pc'.waited?, pc.awaits? = some p ∧ s.count p = 0) :
    Takes s s pc pc' [] [] :=
  .moves rfl rfl (fun o => by rw [heldAt, heldAt, hheld]) (fun _ => Iff.rfl) hawaited

theorem isJobRunning_jobStep (h : jobStep pc s = some (pc', s')) : s'.isJobRunning = s.isJobRunning := by
  cases pc with
  | exchanged old | secondExchanged old =>
    obtain ⟨-, h⟩ := Option.ite_none_right_eq_some.1 h
    cases h
    rfl
  | _ => cases h <;> rfl

/-- What is freed is held by the job alone. -/
theorem Takes.frees (hheld : pc.held = old) (hheld' : pc'.held = [])
    (hgone : ∀ o ∈ old, o ∉ pointers s.storage) (hwaited : ∀ p, .counter p ∈ old → pc.waited? = some p)
    (hawaited : pc'.waited? = none) : Takes s (s.free old) pc pc' [] old := by
  refine ⟨rfl, rfl, fun o => ?_,
    by simp, fun o ho => ?_, by simp [State.free], fun p _ => ?_, by simp, hwaited, by simp [hawaited]⟩
  · simp [heldAt, State.free, hheld, hheld']
  · simpa [heldAt, State.free, hheld'] using hgone o ho
  · cases p <;> exact ⟨rfl, rfl⟩

theorem takes_installWriter (s : State) :
    Takes s { s with storage := installWriter s.storage.readerFirst s.storage }
      (.firstLoaded s.storage.readerFirst) (.exchanged s.storage.writer)
      [.counter (.writer s.storage.nextCounter)] [] := by
  refine ⟨rfl, by simp, fun o => ?_, by simp [Allocated], by simp, fun o => ?_, fun p hp => ?_,
    fun p hp => ?_, by simp, by simp [JobPc.waited?]⟩
  · simp [heldAt, pointers, JobPc.held, installWriter]
    tauto
  · cases o with
    | table t => simp [Allocated, installWriter]
    | counter p =>
      cases p with
      | reader t => simp [Allocated, installWriter]
      | writer c => simp [Allocated, installWriter, le_iff_lt_or_eq]
  · cases p with
    | reader t => exact ⟨rfl, rfl⟩
    | writer c =>
      have hne : c ≠ s.storage.nextCounter := by simpa using hp
      simp [State.ptr, State.count, installWriter, Function.update_of_ne hne]
  · obtain rfl : p = .writer s.storage.nextCounter := by simpa using hp
    simp [State.count, installWriter]

theorem takes_storeFirst (hsecond : s.storage.readerSecond = s.storage.readerFirst) :
    Takes s { s with
        storage := s.storage.storeFirst
        readerCount := Function.update s.readerCount s.storage.nextTable 0 }
      .readerDeleted .ended [.table s.storage.nextTable, .counter (.reader s.storage.nextTable)] [] := by
  refine ⟨rfl, by simp, fun o => ?_, by simp [Allocated], by simp, fun o => ?_, fun p hp => ?_,
    fun p hp => ?_, by simp, by simp [JobPc.waited?]⟩
  · simp [heldAt, pointers, JobPc.held, SwappableMemoryStorage.storeFirst, hsecond]
    tauto
  · cases o with
    | table t => simp [Allocated, SwappableMemoryStorage.storeFirst, le_iff_lt_or_eq]
    | counter p =>
      cases p with
      | reader t => simp [Allocated, SwappableMemoryStorage.storeFirst, le_iff_lt_or_eq]
      | writer c => simp [Allocated, SwappableMemoryStorage.storeFirst]
  · cases p with
    | reader t =>
      have hne : t ≠ s.storage.nextTable := by simpa using hp
      simp [State.ptr, State.count, Function.update_of_ne hne]
    | writer c => exact ⟨rfl, rfl⟩
  · obtain rfl : p = .reader s.storage.nextTable := by simpa using hp
    simp [State.count]

/-- What a step of the job takes and frees, and the pointers behind it. -/
theorem takes_jobStep (hm : Memory s.storage pc s.freed) (h : jobStep pc s = some (pc', s')) :
    ∃ new old, Takes s s' pc pc' new old ∧ pc'.Roles s'.storage ∧
      (s'.storage.writerTable = s'.storage.readerFirst ∨
        s'.storage.writerTable = s'.storage.readerSecond) := by
  have hroles := hm.roles
  cases pc with
  | start =>
    cases h
    exact ⟨[], [], .stays rfl (fun _ hp => by cases hp), ⟨hroles, rfl⟩, hm.writer⟩
  | firstLoaded first =>
    cases h
    obtain ⟨hne, rfl⟩ := hroles
    have hnext : s.storage.writer ≠ s.storage.nextCounter := ne_of_lt
      ((hm.allocated (.counter (.writer s.storage.writer))).2 (.inr (by simp [heldAt, pointers])))
    have hwriter : (installWriter s.storage.readerFirst s.storage).writerTable = s.storage.readerFirst := by
      simp [SwappableMemoryStorage.writerTable, installWriter]
    refine ⟨_, _, takes_installWriter s, ⟨hne, hwriter, hnext, ?_⟩, .inl hwriter⟩
    simpa [installWriter, Function.update_of_ne hnext, SwappableMemoryStorage.writerTable] using hm.writer
  | exchanged old =>
    obtain ⟨hzero, h⟩ := Option.ite_none_right_eq_some.1 h
    cases h
    exact ⟨[], [], .stays rfl (fun p hp => by cases hp; exact ⟨rfl, hzero⟩), hroles, hm.writer⟩
  | waited old =>
    cases h
    obtain ⟨hne, hwriter, hold, -⟩ := hroles
    refine ⟨[], _, .frees rfl rfl ?_ ?_ rfl, ⟨hne, hwriter⟩, .inl hwriter⟩
    · simp [pointers, hold]
    · intro p hp
      obtain rfl : p = .writer old := by simpa using hp
      rfl
  | writerDeleted =>
    cases h
    exact ⟨[], [], .stays rfl (fun _ hp => by cases hp), hroles, hm.writer⟩
  | copied data =>
    cases h
    obtain ⟨hne, hwriter⟩ := hroles
    refine ⟨[], [], .moves rfl rfl (fun o => ?_) (fun o => ?_) (fun _ hp => by cases hp),
      ⟨rfl, hwriter, hne.symm⟩, .inl hwriter⟩
    · simp [heldAt, pointers, JobPc.held, SwappableMemoryStorage.exchangeSecond]
      tauto
    · cases o with
      | table t => rfl
      | counter p => cases p <;> rfl
  | secondExchanged old =>
    obtain ⟨hzero, h⟩ := Option.ite_none_right_eq_some.1 h
    cases h
    exact ⟨[], [], .stays rfl (fun p hp => by cases hp; exact ⟨rfl, hzero⟩), hroles, hm.writer⟩
  | readerWaited old =>
    cases h
    obtain ⟨hsecond, hwriter, hold⟩ := hroles
    refine ⟨[], _, .frees rfl rfl ?_ ?_ rfl, ⟨hsecond, hwriter⟩, .inl hwriter⟩
    · simp [pointers, hsecond, hold]
    · intro p hp
      obtain rfl : p = .reader old := by simpa using hp
      rfl
  | readerDeleted =>
    cases h
    obtain ⟨hsecond, hwriter⟩ := hroles
    have hlt : s.storage.readerFirst < s.storage.nextTable :=
      (hm.allocated (.table s.storage.readerFirst)).2 (.inr (by simp [heldAt, pointers]))
    refine ⟨_, _, takes_storeFirst hsecond, ?_, .inr ?_⟩
    · exact (hsecond ▸ ne_of_lt hlt).symm
    · exact hwriter.trans hsecond.symm
  | ended => cases h

end

/-! ### What a step of a call does -/

section
variable {call : Call} {s s' : State} {pc pc' : CallPc} {job : JobPc}

/-- A step of a call changes rows and the count of the counter it holds, which is not zero then. -/
structure Follows (s s' : State) (pc pc' : CallPc) : Prop where
  roles : WriterSwitch.SameRoles s.storage s'.storage
  freed : s'.freed = s.freed
  count : ∀ p, (pc.holds? = some p → 0 < s.count p) →
    s'.count p + (if pc.holds? = some p then 1 else 0) = s.count p + (if pc'.holds? = some p then 1 else 0)
  ptr : ∀ p ∈ pc'.ptr?, pc.ptr? = some p ∨ .counter p ∈ pointers s.storage
  table : ∀ second p t, pc' = .counted second p t → t = s.ptr p
  jobs : s'.jobs = s.jobs ∧ s'.isJobRunning = s.isJobRunning ∨
    s'.jobs = (if s.isJobRunning then s.jobs else s.jobs ++ [.start]) ∧ s'.isJobRunning = true

theorem sameRoles_refl (st : SwappableMemoryStorage) : WriterSwitch.SameRoles st st :=
    ⟨rfl, rfl, rfl, rfl, rfl, fun _ => rfl⟩

theorem sameRoles_add (s : State) (p : Counter) : WriterSwitch.SameRoles s.storage (s.add p).storage := by
  cases p with
  | reader t => exact sameRoles_refl _
  | writer c => exact ⟨rfl, rfl, rfl, rfl, rfl, SwappableMemoryStorage.ptr_update⟩

theorem sameRoles_release (s : State) (p : Counter) :
    WriterSwitch.SameRoles s.storage (s.release p).storage := by
  cases p with
  | reader t => exact sameRoles_refl _
  | writer c => exact ⟨rfl, rfl, rfl, rfl, rfl, SwappableMemoryStorage.ptr_update⟩

theorem sameRoles_use (second : Bool) (t : TableId) (st : SwappableMemoryStorage) (call : Call) :
    WriterSwitch.SameRoles st (use second t st call).2 ∧ (use second t st call).2.counters = st.counters := by
  cases call with
  | get key =>
    have hsame : (use second t st (.get key)).2 = st := by
      simp only [use]
      split <;> rfl
    rw [hsame]
    exact ⟨sameRoles_refl _, rfl⟩
  | write w => exact ⟨⟨rfl, rfl, rfl, rfl, rfl, fun _ => rfl⟩, rfl⟩
  | trigger => exact ⟨sameRoles_refl _, rfl⟩

theorem count_add (s : State) (p q : Counter) : (s.add p).count q = s.count q + if p = q then 1 else 0 := by
  by_cases h : p = q
  · subst h
    cases p <;> simp [State.add, State.count, SwappableMemoryStorage.add]
  · cases p <;> cases q <;>
      simp_all [State.add, State.count, SwappableMemoryStorage.add, eq_comm]

theorem count_release (s : State) (p q : Counter) :
    (s.release p).count q = s.count q - if p = q then 1 else 0 := by
  by_cases h : p = q
  · subst h
    cases p <;> simp [State.release, State.count, SwappableMemoryStorage.release]
  · cases p <;> cases q <;>
      simp_all [State.release, State.count, SwappableMemoryStorage.release, eq_comm]

theorem load_mem (second : Bool) (st : SwappableMemoryStorage) (call : Call) :
    .counter (load second st call) ∈ pointers st := by
  cases call <;> cases second <;> simp [load, pointers]

theorem jobs_add (s : State) (p : Counter) : (s.add p).jobs = s.jobs ∧ (s.add p).isJobRunning =
    s.isJobRunning ∧ (s.add p).freed = s.freed := by
  cases p <;> exact ⟨rfl, rfl, rfl⟩

theorem jobs_release (s : State) (p : Counter) : (s.release p).jobs = s.jobs ∧
    (s.release p).isJobRunning = s.isJobRunning ∧ (s.release p).freed = s.freed := by
  cases p <;> exact ⟨rfl, rfl, rfl⟩

theorem follows_opStep (h : opStep call pc s = some (pc', s')) : Follows s s' pc pc' := by
  cases pc with
  | next n =>
    cases n with
    | load second =>
      cases h
      refine ⟨sameRoles_refl _, rfl, fun p _ => rfl, fun p hp => ?_, nofun, .inl ⟨rfl, rfl⟩⟩
      cases hp
      exact .inr (load_mem second s.storage call)
    | tryAcquire =>
      cases h
      exact ⟨sameRoles_refl _, rfl, fun p _ => by cases p <;> rfl, nofun, nofun, .inr ⟨rfl, rfl⟩⟩
    | finished res => cases h
  | loaded second p =>
    cases h
    obtain ⟨hjobs, hrunning, hfreed⟩ := jobs_add s p
    refine ⟨sameRoles_add s p, hfreed, fun q _ => ?_, fun q hq => .inl hq, ?_, .inl ⟨hjobs, hrunning⟩⟩
    · simp [count_add, CallPc.holds?]
    · rintro second' q t hpc
      cases hpc
      rfl
  | counted second p t =>
    cases h
    obtain ⟨hroles, hcounters⟩ := sameRoles_use second t s.storage call
    refine ⟨hroles, rfl, fun q _ => ?_, fun q hq => .inl hq, nofun, .inl ⟨rfl, rfl⟩⟩
    cases q with
    | reader t => rfl
    | writer c =>
      simp only [State.count, hcounters]
      rfl
  | used p n =>
    cases h
    obtain ⟨hjobs, hrunning, hfreed⟩ := jobs_release s p
    refine ⟨sameRoles_release s p, hfreed, fun q hpos => ?_, nofun, nofun, .inl ⟨hjobs, hrunning⟩⟩
    rw [count_release]
    by_cases hq : p = q
    · subst hq
      have := hpos rfl
      simp [CallPc.holds?]
      omega
    · simp [CallPc.holds?, hq]

/-- The counter a call has loaded leads to a table that is held. -/
theorem Memory.table_mem (hm : Memory s.storage job s.freed) {p : Counter}
    (hp : .counter p ∈ heldAt s.storage job) : .table (s.ptr p) ∈ heldAt s.storage job := by
  have hmem : ∀ t, t = s.storage.readerFirst ∨ t = s.storage.readerSecond →
    .table t ∈ heldAt s.storage job := by
    rintro t (rfl | rfl) <;> simp [heldAt, pointers]
  have hroles := hm.roles
  cases p with
  | reader t =>
    simp only [heldAt, pointers, List.mem_append] at hp ⊢
    rcases hp with hp | hp
    · left
      simpa [State.ptr] using hp
    · right
      cases job <;> simp_all [JobPc.held, State.ptr]
  | writer c =>
    have hc : c = s.storage.writer ∨ Object.counter (.writer c) ∈ job.held := by
      simpa [heldAt, pointers] using hp
    rcases hc with rfl | hc
    · exact hmem _ hm.writer
    · refine hmem _ ?_
      show (s.storage.counters c).ptr = _ ∨ (s.storage.counters c).ptr = _
      cases job with
      | exchanged old | waited old =>
        obtain rfl : c = old := by simpa [JobPc.held] using hc
        exact hroles.2.2.2
      | _ => simp [JobPc.held] at hc

theorem Memory.follows (hm : Memory s.storage job s.freed) (hf : Follows s s' pc pc') :
    Memory s'.storage job s'.freed ∧ heldAt s'.storage job = heldAt s.storage job := by
  obtain ⟨hfirst, hsecond, hwriter, htable, hcounter, hptr⟩ := hf.roles
  have hheld : heldAt s'.storage job = heldAt s.storage job := by
    simp only [heldAt, pointers, hfirst, hsecond, hwriter]
  have htables : s'.storage.writerTable = s.storage.writerTable := by
    unfold SwappableMemoryStorage.writerTable
    rw [hwriter, hptr]
  refine ⟨⟨?_, by rw [htables, hfirst, hsecond]; exact hm.writer, ?_, fun o => ?_⟩, hheld⟩
  · have hroles := hm.roles
    cases job <;> simpa only [JobPc.Roles, hfirst, hsecond, hwriter, htables, hptr] using hroles
  · rw [hf.freed, hheld]
    exact hm.disjoint
  · rw [hf.freed, hheld, ← hm.allocated o]
    cases o with
    | table t => simp only [Allocated, htable]
    | counter p => cases p <;> simp only [Allocated, htable, hcounter]

theorem quiet_pointers (hm : Memory s.storage job s.freed) {p : Counter} (hp : p ∈ job.waited?) :
    .counter p ∉ pointers s.storage := by
  have hroles := hm.roles
  cases job with
  | waited old =>
    cases hp
    simp [pointers, hroles.2.2.1]
  | readerWaited old =>
    cases hp
    simp [pointers, hroles.1, hroles.2.2]
  | _ => cases hp

theorem Calls.follows (hc : Calls s job) (hm : Memory s.storage job s.freed) {i : Nat}
    (hi : s.ops[i]? = some ⟨call, pc⟩) (hf : Follows s s' pc pc') :
    Calls { s' with ops := s.ops.set i ⟨call, pc'⟩ } job := by
  have hmem : ⟨call, pc⟩ ∈ s.ops := List.mem_of_getElem? hi
  have hheld := (hm.follows hf).2
  have hptr : ∀ p, s'.ptr p = s.ptr p := fun p => by
    cases p with
    | reader t => rfl
    | writer c => exact hf.roles.ptr c
  have hnew : ∀ p ∈ pc'.ptr?, .counter p ∈ heldAt s.storage job := fun p hp =>
    (hf.ptr p hp).elim (fun hp => hc.held _ hmem p hp) fun hp => List.mem_append_left _ hp
  refine ⟨fun o ho p hp => ?_, fun o ho second p t hpc => ?_, fun p hp o ho => ?_, fun p hp => ?_⟩
  · show _ ∈ heldAt s'.storage job
    rw [hheld]
    rcases List.mem_or_eq_of_mem_set ho with ho | rfl
    · exact hc.held o ho p hp
    · exact hnew p hp
  · show t = s'.ptr p
    rw [hptr]
    rcases List.mem_or_eq_of_mem_set ho with ho | rfl
    · exact hc.table o ho second p t hpc
    · exact hf.table second p t hpc
  · rcases List.mem_or_eq_of_mem_set ho with ho | rfl
    · exact hc.quiet p hp o ho
    · intro hptr
      rcases hf.ptr p hptr with hold | hpointers
      · exact hc.quiet p hp _ hmem hold
      · exact quiet_pointers hm hp hpointers
  · replace hp : .counter p ∈ heldAt s'.storage job := hp
    rw [hheld] at hp
    have hcount := hc.count p hp
    have hset := Pending.countP_set hi ⟨call, pc'⟩ fun o => o.pc.holds? = some p
    have hstep := hf.count p fun hholds => by
      rw [hcount, List.countP_pos_iff]
      exact ⟨_, hmem, decide_eq_true hholds⟩
    show s'.count p = (s.ops.set i ⟨call, pc'⟩).countP fun o => o.pc.holds? = some p
    simp only [decide_eq_true_eq] at hset
    omega

end

/-! ### Runs -/

section
variable {s s' : State} {a : Label}

theorem Inv.job_of_mem (hi : Inv s) {i : Nat} {pc : JobPc} (hpc : s.jobs[i]? = some pc) :
    i = 0 ∧ s.jobs = [pc] ∧ s.job = pc ∧ s.isJobRunning = true := by
  rcases hi.jobs with ⟨hnil, -⟩ | ⟨pc', hjobs, hrunning⟩
  · rw [hnil] at hpc
    cases hpc
  · rw [hjobs] at hpc
    cases i with
    | zero =>
      cases hpc
      exact ⟨rfl, hjobs, by rw [State.job, hjobs]; rfl, hrunning⟩
    | succ i => cases hpc

theorem Inv.held_eq (hi : Inv s) : held s = heldAt s.storage s.job := by
  rcases hi.jobs with ⟨hjobs, -⟩ | ⟨pc, hjobs, -⟩ <;> simp [held, heldAt, State.job, hjobs, JobPc.held]

/-- A job that holds nothing may begin or be over. -/
theorem Memory.idle {pc pc' : JobPc} (hm : Memory s.storage pc s.freed) (hheld : pc'.held = pc.held)
    (hroles : pc'.Roles s.storage) : Memory s.storage pc' s.freed := by
  have heq : heldAt s.storage pc' = heldAt s.storage pc := by rw [heldAt, heldAt, hheld]
  exact ⟨hroles, hm.writer, heq ▸ hm.disjoint, heq ▸ hm.allocated⟩

theorem Calls.idle {pc pc' : JobPc} (hc : Calls s pc) (hheld : pc'.held = pc.held)
    (hwaited : pc'.waited? = none) : Calls s pc' := by
  have heq : heldAt s.storage pc' = heldAt s.storage pc := by rw [heldAt, heldAt, hheld]
  exact ⟨heq ▸ hc.held, hc.table, by simp [hwaited], heq ▸ hc.count⟩

theorem Calls.congr {pc : JobPc} (hc : Calls s pc) (jobs : List JobPc) (isJobRunning : Bool) :
    Calls { s with jobs := jobs, isJobRunning := isJobRunning } pc := by
  refine ⟨hc.held, fun o ho second p t hpc => ?_, hc.quiet, fun p hp => ?_⟩
  · rw [hc.table o ho second p t hpc]
    cases p <;> rfl
  · have hcount := hc.count p hp
    cases p <;> exact hcount

/-- The jobs behind a step that leaves `pc` as the only one, or that ends it. -/
theorem Inv.set_job (hi : Inv s) {i : Nat} {pc pc' : JobPc} (hpc : s.jobs[i]? = some pc)
    (hheld : pc'.held = pc.held) (hwaited : pc'.waited? = none) (hroles : pc'.Roles s.storage) :
    Inv { s with jobs := s.jobs.set i pc' } := by
  obtain ⟨rfl, hjobs, hjob, hrunning⟩ := hi.job_of_mem hpc
  have hset : s.jobs.set 0 pc' = [pc'] := by rw [hjobs]; rfl
  have hmemory := hi.memory
  have hcalls := hi.calls
  rw [hjob] at hmemory hcalls
  refine ⟨.inr ⟨pc', hset, hrunning⟩, ?_, ?_⟩
  · rw [State.job, hset]
    exact hmemory.idle hheld hroles
  · rw [State.job, hset]
    exact (hcalls.idle hheld hwaited).congr _ _

theorem Inv.begin (hi : Inv s) (call : Call) :
    Inv { s with ops := s.ops ++ [⟨call, .next (.load false)⟩] } := by
  have hops : ∀ {P : Operation → Prop}, (∀ o ∈ s.ops, P o) → P ⟨call, .next (.load false)⟩ →
      ∀ o ∈ s.ops ++ [⟨call, .next (.load false)⟩], P o := by
    intro P hold hnew o ho
    rcases List.mem_append.1 ho with ho | ho
    · exact hold o ho
    · rw [List.mem_singleton.1 ho]
      exact hnew
  refine ⟨hi.jobs, hi.memory, ⟨hops hi.calls.held nofun, hops ?_ nofun,
    fun p hp => hops (hi.calls.quiet p hp) nofun, fun p hp => ?_⟩⟩
  · intro o ho second p t hpc
    rw [hi.calls.table o ho second p t hpc]
    cases p <;> rfl
  · have hcount := hi.calls.count p hp
    rw [List.countP_append, ← hcount]
    cases p <;> rfl

theorem Inv.op (hi : Inv s) {i : Nat} {o : Operation} (ho : s.ops[i]? = some o) {pc' : CallPc}
    (h : opStep o.call o.pc s = some (pc', s')) : Inv { s' with ops := s.ops.set i ⟨o.call, pc'⟩ } := by
  have hf := follows_opStep h
  have hmemory := (hi.memory.follows hf).1
  have hcalls := hi.calls.follows hi.memory ho hf
  rcases hf.jobs with ⟨hjobs, hrunning⟩ | ⟨hjobs, hrunning⟩
  · have hjob : s'.job = s.job := by rw [State.job, hjobs]; rfl
    refine ⟨?_, ?_, ?_⟩
    · show s'.jobs = [] ∧ s'.isJobRunning = false ∨ ∃ pc, s'.jobs = [pc] ∧ s'.isJobRunning = true
      rw [hjobs, hrunning]
      exact hi.jobs
    · exact hjob ▸ hmemory
    · exact hjob ▸ hcalls
  · rcases hi.jobs with ⟨hnil, hclear⟩ | ⟨pc, hone, hset⟩
    -- the job begins
    · have hjobs : s'.jobs = [.start] := by rw [hjobs, hnil, hclear]; rfl
      have hended : s.job = .ended := by rw [State.job, hnil]; rfl
      have hstart : s'.job = .start := by rw [State.job, hjobs]; rfl
      rw [hended] at hmemory hcalls
      refine ⟨.inr ⟨_, hjobs, hrunning⟩, ?_, ?_⟩
      · exact hstart ▸ hmemory.idle rfl hmemory.roles
      · exact hstart ▸ hcalls.idle rfl rfl
    · have hjobs : s'.jobs = s.jobs := by rw [hjobs, hset]; rfl
      have hjob : s'.job = s.job := by rw [State.job, hjobs]; rfl
      refine ⟨.inr ⟨pc, hjobs.trans hone, hrunning⟩, ?_, ?_⟩
      · exact hjob ▸ hmemory
      · exact hjob ▸ hcalls

theorem Inv.job_step (hi : Inv s) {i : Nat} {pc pc' : JobPc} (hpc : s.jobs[i]? = some pc)
    (hok : Ok s (.job i)) (h : jobStep pc s = some (pc', s')) : Inv { s' with jobs := s.jobs.set i pc' } := by
  obtain ⟨rfl, hjobs, hjob, hrunning⟩ := hi.job_of_mem hpc
  have hmemory := hi.memory
  have hcalls := hi.calls
  rw [hjob] at hmemory hcalls
  obtain ⟨new, old, htakes, hroles, hwriter⟩ := takes_jobStep hmemory h
  have hset : s.jobs.set 0 pc' = [pc'] := by rw [hjobs]; rfl
  refine ⟨.inr ⟨pc', hset, ?_⟩, ?_, ?_⟩
  · show s'.isJobRunning = true
    rw [isJobRunning_jobStep h, hrunning]
  · rw [State.job, hset]
    exact (hmemory.takes htakes hroles hwriter :)
  · rw [State.job, hset]
    exact (hcalls.takes hmemory htakes (hok pc hpc)).congr _ _

theorem Inv.release (hi : Inv s) {i : Nat} (hpc : s.jobs[i]? = some .ended) :
    Inv { s with isJobRunning := false, jobs := s.jobs.eraseIdx i } := by
  obtain ⟨rfl, hjobs, hjob, -⟩ := hi.job_of_mem hpc
  have herase : s.jobs.eraseIdx 0 = [] := by rw [hjobs]; rfl
  have hmemory := hi.memory
  have hcalls := hi.calls
  rw [hjob] at hmemory hcalls
  refine ⟨.inl ⟨herase, rfl⟩, ?_, ?_⟩
  · rw [State.job, herase]
    exact hmemory
  · rw [State.job, herase]
    exact hcalls.congr _ _

theorem inv_step (hi : Inv s) (hok : Ok s a) (hs : step s a = some s') : Inv s' := by
  cases a with
  | begin call =>
    cases hs
    exact hi.begin call
  | op i =>
    obtain ⟨o, ho, hs⟩ := Option.bind_eq_some_iff.1 hs
    obtain ⟨⟨pc', s''⟩, hstep, rfl⟩ := Option.map_eq_some_iff.1 hs
    exact hi.op ho hstep
  | job i =>
    obtain ⟨pc, hpc, hs⟩ := Option.bind_eq_some_iff.1 hs
    obtain ⟨⟨pc', s''⟩, hstep, rfl⟩ := Option.map_eq_some_iff.1 hs
    exact hi.job_step hpc hok hstep
  | release i =>
    obtain ⟨hpc, hs⟩ := Option.ite_none_right_eq_some.1 hs
    cases hs
    exact hi.release hpc
  | fail i =>
    obtain ⟨pc, hpc, hs⟩ := Option.bind_eq_some_iff.1 hs
    obtain ⟨-, -, hjob, -⟩ := hi.job_of_mem hpc
    have hroles := hi.memory.roles
    rw [hjob] at hroles
    cases pc with
    | start =>
      cases hs
      exact hi.set_job hpc rfl rfl hroles
    | copied data =>
      cases hs
      exact hi.set_job hpc rfl rfl hroles.1
    | _ => cases hs

theorem inv_init (hs : init s) : Inv s := by
  obtain ⟨other, rfl⟩ := hs
  refine ⟨.inl ⟨rfl, rfl⟩, ⟨Nat.zero_ne_one, .inr rfl, by simp, fun o => ?_⟩,
    ⟨by simp, by simp, by simp, fun p _ => by cases p <;> rfl⟩⟩
  have hheld : heldAt (.ofMap other) (State.job ⟨.ofMap other, fun _ => 0, [], [], false, []⟩) =
      [.counter (.reader 0), .table 0, .counter (.reader 1), .table 1, .counter (.writer 0)] := rfl
  have htwo (n : Nat) : n < 2 ↔ n = 0 ∨ n = 1 := by omega
  rw [hheld]
  cases o with
  | table t => simpa [Allocated, SwappableMemoryStorage.ofMap] using htwo t
  | counter p =>
    cases p with
    | reader t => simpa [Allocated, SwappableMemoryStorage.ofMap] using htwo t
    | writer c => simp [Allocated, SwappableMemoryStorage.ofMap]

theorem inv_of_reachableBy (h : system.ReachableBy Ok s) : Inv s :=
  h.invariant (fun _ => inv_init) fun _ _ _ hi hok hs => inv_step hi hok hs

theorem Inv.uses_held (hi : Inv s) (a : Label) : ∀ o ∈ uses s a, o ∈ heldAt s.storage s.job := by
  intro o ho
  cases a with
  | begin call => cases ho
  | fail i => cases ho
  | release i => cases ho
  | op i =>
    cases hop : s.ops[i]? with
    | none => simp [uses, hop] at ho
    | some op =>
      have hmem : op ∈ s.ops := List.mem_of_getElem? hop
      replace ho : o ∈ op.pc.uses := by simpa [uses, hop] using ho
      have hheld := hi.calls.held op hmem
      cases hpc : op.pc with
      | next n => simp [hpc, CallPc.uses] at ho
      | loaded second p | used p n =>
        obtain rfl : o = .counter p := by simpa [hpc, CallPc.uses] using ho
        exact hheld p (by rw [hpc]; rfl)
      | counted second p t =>
        obtain rfl : o = .table t := by simpa [hpc, CallPc.uses] using ho
        rw [hi.calls.table op hmem second p t hpc]
        exact hi.memory.table_mem (hheld p (by rw [hpc]; rfl))
  | job i =>
    cases hpc : s.jobs[i]? with
    | none => simp [uses, hpc] at ho
    | some pc =>
      obtain ⟨-, -, hjob, -⟩ := hi.job_of_mem hpc
      replace ho : o ∈ pc.uses s.storage := by simpa [uses, hpc] using ho
      rw [hjob]
      cases pc with
      | start | exchanged old | waited old | writerDeleted | secondExchanged old | readerWaited old =>
        simp [JobPc.uses, heldAt, pointers, JobPc.held] at ho ⊢
        tauto
      | _ => cases ho

theorem Inv.safe (hi : Inv s) : Safe s where
  live a o ho := by
    have hheld := hi.uses_held a o ho
    exact ⟨(hi.memory.allocated o).2 (.inr hheld), fun hfreed => hi.memory.disjoint o hfreed hheld⟩
  reached o ho hfreed := hi.held_eq ▸ ((hi.memory.allocated o).1 ho).resolve_left hfreed
  count p hp := hi.calls.count p (hi.held_eq ▸ hp)

end

/-- **Nothing is used after it was freed, nothing is freed twice and nothing leaks**, and a count is
the number of calls that have raised it, as long as no `Wait` ends between a load and the `Add` that
follows it. -/
theorem safe_of_reachableBy {s : State} (h : system.ReachableBy Ok s) : Safe s := (inv_of_reachableBy h).safe

/-- The steps from a state on. -/
def systemFrom (s : State) : System State Label := ofFun (· = s) step

theorem reachableBy_trans {s s' : State} (h : system.ReachableBy Ok s)
    (h' : (systemFrom s).ReachableBy Ok s') : system.ReachableBy Ok s' :=
  h'.invariant (fun _ heq => heq ▸ h) fun _ _ _ ih hok hs => .step ih hok hs

/-- Behind the end of a `Wait` the job frees the counter. -/
theorem jobStep_awaits {s s' : State} {pc pc' : JobPc} {p : Counter} (hp : p ∈ pc.awaits?)
    (h : jobStep pc s = some (pc', s')) :
    s' = s ∧ pc'.awaits? = none ∧ ∃ pc'' objects, .counter p ∈ objects ∧
      ∀ s, jobStep pc' s = some (pc'', s.free objects) := by
  cases pc with
  | exchanged old | secondExchanged old =>
    cases hp
    obtain ⟨-, h⟩ := Option.ite_none_right_eq_some.1 h
    cases h
    exact ⟨rfl, rfl, _, _, by simp, fun _ => rfl⟩
  | _ => cases hp

/-- Once a `Wait` has ended too early, the job may free the counter before the call gets to `Add`. -/
theorem uses_of_not_ok {s s' : State} {a : Label} (hs : step s a = some s') (hok : ¬ Ok s a) :
    ∃ s'', (systemFrom s').ReachableBy Ok s'' ∧ ∃ b, ∃ o ∈ uses s'' b, o ∈ s''.freed := by
  cases a with
  | begin call => exact absurd trivial hok
  | op i => exact absurd trivial hok
  | fail i => exact absurd trivial hok
  | release i => exact absurd trivial hok
  | job i =>
    simp only [Ok, not_forall, not_not] at hok
    obtain ⟨pc, hpc, p, hp, o, ho, hloaded⟩ := hok
    obtain ⟨k, hk⟩ := List.mem_iff_getElem?.1 ho
    obtain ⟨pc₁, hpc₁, hs⟩ := Option.bind_eq_some_iff.1 hs
    obtain rfl : pc = pc₁ := Option.some.inj (hpc.symm.trans hpc₁)
    obtain ⟨⟨pc', s₁⟩, hstep, rfl⟩ := Option.map_eq_some_iff.1 hs
    obtain ⟨hsame, hawaits, pc'', objects, hmem, hfree⟩ := jobStep_awaits hp hstep
    obtain rfl : s₁ = s := hsame
    have hi : i < s₁.jobs.length := (List.getElem?_eq_some_iff.1 hpc).1
    have hjob : (s₁.jobs.set i pc')[i]? = some pc' := List.getElem?_set_self hi
    refine ⟨_, .step (.init rfl) (a := .job i) ?_ (Option.bind_eq_some_iff.2 ⟨pc', hjob, by rw [hfree]; rfl⟩),
      .op k, .counter p, ?_, ?_⟩
    · intro pc₂ hpc₂
      obtain rfl : pc' = pc₂ := Option.some.inj (hjob.symm.trans hpc₂)
      simp [hawaits]
    · show _ ∈ (s₁.ops[k]?).elim [] fun o => o.pc.uses
      rw [hk]
      cases hcall : o.pc <;> simp_all [CallPc.loaded?, CallPc.uses]
    · exact List.mem_append_right _ hmem

/-- **Exactly when nothing that was freed is used**: a step from which on it never happens is one that
does not end a `Wait` between a load and the `Add` that follows it. -/
theorem ok_iff {s s' : State} {a : Label} (h : system.ReachableBy Ok s) (hs : step s a = some s') :
    Ok s a ↔ ∀ s'', (systemFrom s').ReachableBy Ok s'' → ∀ b, ∀ o ∈ uses s'' b, o ∉ s''.freed := by
  constructor
  · intro hok s'' h' b o ho
    exact ((safe_of_reachableBy (reachableBy_trans (.step h hok hs) h')).live b o ho).2
  · intro hnever
    by_contra hok
    obtain ⟨s'', h', b, o, ho, hfreed⟩ := uses_of_not_ok hs hok
    exact hnever s'' h' b o ho hfreed

/-! ### Every `Wait` can come to its end -/

def Next.rank : Next → Nat
  | .finished _ => 0
  | .tryAcquire => 1
  | .load true => 5
  | .load false => 9

/-- How many steps a call still takes at most. -/
def CallPc.rank : CallPc → Nat
  | .next n => n.rank
  | .used _ n => n.rank + 1
  | .counted second _ _ => if second then 3 else 7
  | .loaded second _ => if second then 4 else 8

def JobPc.rank : JobPc → Nat
  | .start => 10
  | .firstLoaded _ => 9
  | .exchanged _ => 8
  | .waited _ => 7
  | .writerDeleted => 6
  | .copied _ => 5
  | .secondExchanged _ => 4
  | .readerWaited _ => 3
  | .readerDeleted => 2
  | .ended => 1

/-- A call may spawn a job, which takes ten steps. -/
def rank (s : State) : Nat :=
  11 * (s.ops.map fun o => o.pc.rank).sum + (s.jobs.map JobPc.rank).sum

/-- All calls have returned and no job runs. -/
def AtRest (s : State) : Prop := s.jobs = [] ∧ ∀ o ∈ s.ops, ∃ res, o.pc = .next (.finished res)

section
variable {s s' : State}

theorem rank_opStep {call : Call} {pc pc' : CallPc} (h : opStep call pc s = some (pc', s')) :
    pc'.rank < pc.rank ∧ (s'.jobs.map JobPc.rank).sum ≤ (s.jobs.map JobPc.rank).sum + 10 := by
  have hf := follows_opStep h
  constructor
  · cases pc with
    | next n =>
      cases n with
      | load second => cases h; cases second <;> simp [CallPc.rank, Next.rank]
      | tryAcquire => cases h; simp [CallPc.rank, Next.rank]
      | finished res => cases h
    | loaded second p => cases h; cases second <;> simp [CallPc.rank]
    | counted second p t =>
      cases h
      cases call with
      | get key =>
        simp only [CallPc.rank, use]
        cases second <;> split <;> simp [Next.rank]
      | write w => cases second <;> simp [CallPc.rank, use, Next.rank]
      | trigger =>
        simp only [CallPc.rank, use]
        cases second <;> split <;> simp [Next.rank]
    | used p n => cases h; simp [CallPc.rank]
  · rcases hf.jobs with ⟨hjobs, -⟩ | ⟨hjobs, -⟩ <;> rw [hjobs]
    · exact Nat.le_add_right _ _
    · split
      · exact Nat.le_add_right _ _
      · simp [JobPc.rank]

theorem rank_jobStep {pc pc' : JobPc} (h : jobStep pc s = some (pc', s')) :
    pc'.rank < pc.rank ∧ s'.ops = s.ops := by
  cases pc with
  | exchanged old | secondExchanged old =>
    obtain ⟨-, h⟩ := Option.ite_none_right_eq_some.1 h
    cases h
    exact ⟨by simp [JobPc.rank], rfl⟩
  | ended => cases h
  | _ => cases h; exact ⟨by simp [JobPc.rank], rfl⟩

/-- A call that has not returned can go on. -/
theorem exists_opStep (call : Call) (pc : CallPc) (s : State) :
    (∃ res, pc = .next (.finished res)) ∨ ∃ next, opStep call pc s = some next := by
  cases pc with
  | next n =>
    cases n with
    | finished res => exact .inl ⟨res, rfl⟩
    | _ => exact .inr ⟨_, rfl⟩
  | _ => exact .inr ⟨_, rfl⟩

/-- A job can go on, unless it has ended, when no call is under way. -/
theorem Inv.exists_jobStep (hi : Inv s) (hops : ∀ o ∈ s.ops, ∃ res, o.pc = .next (.finished res))
    (hne : s.job ≠ .ended) : ∃ next, jobStep s.job s = some next := by
  have hzero : ∀ p, .counter p ∈ heldAt s.storage s.job → s.count p = 0 := by
    intro p hp
    rw [hi.calls.count p hp, List.countP_eq_zero]
    intro o ho
    obtain ⟨res, hres⟩ := hops o ho
    simp [hres, CallPc.holds?]
  cases hjob : s.job with
  | exchanged old =>
    have hcount := hzero (.writer old) (by simp [heldAt, hjob, JobPc.held])
    exact ⟨_, if_pos hcount⟩
  | secondExchanged old =>
    have hcount := hzero (.reader old) (by simp [heldAt, hjob, JobPc.held])
    exact ⟨_, if_pos hcount⟩
  | ended => exact absurd hjob hne
  | _ => exact ⟨_, rfl⟩

/-- Some step brings the calls and the job nearer to their ends. -/
theorem Inv.descends (hi : Inv s) : AtRest s ∨ ∃ a s', Ok s a ∧ step s a = some s' ∧
    s'.ops.map Operation.call = s.ops.map Operation.call ∧ rank s' < rank s := by
  by_cases hops : ∀ o ∈ s.ops, ∃ res, o.pc = .next (.finished res)
  · rcases hi.jobs with ⟨hnil, -⟩ | ⟨pc, hjobs, -⟩
    · exact .inl ⟨hnil, hops⟩
    right
    have hjob : s.job = pc := by rw [State.job, hjobs]; rfl
    have hget : s.jobs[0]? = some pc := by rw [hjobs]; rfl
    by_cases hended : pc = .ended
    · subst hended
      refine ⟨.release 0, _, trivial, if_pos hget, rfl, ?_⟩
      simp [rank, hjobs, JobPc.rank]
    · obtain ⟨⟨pc', s'⟩, hstep⟩ := hi.exists_jobStep hops (hjob ▸ hended)
      rw [hjob] at hstep
      obtain ⟨hlt, heq⟩ := rank_jobStep hstep
      refine ⟨.job 0, _, ?_, Option.bind_eq_some_iff.2 ⟨pc, hget, by rw [hstep]; rfl⟩, by rw [heq], ?_⟩
      · intro pc₁ _ p _ o ho hloaded
        obtain ⟨res, hres⟩ := hops o ho
        rw [hres] at hloaded
        cases hloaded
      · show 11 * (s'.ops.map _).sum + ((s.jobs.set 0 pc').map JobPc.rank).sum < _
        simp only [rank, heq, hjobs, List.set_cons_zero, List.map_cons, List.map_nil, List.sum_cons,
          List.sum_nil]
        omega
  · right
    simp only [not_forall] at hops
    obtain ⟨o, ho, hpc⟩ := hops
    obtain ⟨i, hi⟩ := List.mem_iff_getElem?.1 ho
    obtain ⟨⟨pc', s'⟩, hstep⟩ := (exists_opStep o.call o.pc s).resolve_left hpc
    obtain ⟨hlt, hjobs⟩ := rank_opStep hstep
    refine ⟨.op i, _, trivial, Option.bind_eq_some_iff.2 ⟨o, hi, by rw [hstep]; rfl⟩,
      Pending.map_set (f := Operation.call) (b := ⟨o.call, pc'⟩) hi rfl, ?_⟩
    have hsum := Pending.sum_map_set hi ⟨o.call, pc'⟩ fun o => o.pc.rank
    show 11 * ((s.ops.set i ⟨o.call, pc'⟩).map _).sum + (s'.jobs.map JobPc.rank).sum < _
    simp only [rank] at hsum ⊢
    omega

end

/-- **Every call and every job can come to its end**, without further calls: no `Wait` spins forever.
The three pointers then lead to all that is not freed. -/
theorem rests_of_reachableBy {s : State} (h : system.ReachableBy Ok s) :
    ∃ s', (systemFrom s).ReachableBy Ok s' ∧ s'.ops.map Operation.call = s.ops.map Operation.call ∧
      AtRest s' ∧ ∀ o, Allocated s'.storage o ∧ o ∉ s'.freed ↔ o ∈ pointers s'.storage := by
  have hstart : (systemFrom s).ReachableBy Ok s := .init rfl
  obtain ⟨s', h', ⟨hi, hcalls⟩, hrest⟩ := hstart.reaches (G := AtRest) (μ := rank)
    (L := fun s' => Inv s' ∧ s'.ops.map Operation.call = s.ops.map Operation.call) ⟨inv_of_reachableBy h, rfl⟩
    fun s₁ ⟨hi, hcalls⟩ => hi.descends.imp_right fun ⟨a, s₂, hok, hs, hsame, hlt⟩ =>
      ⟨a, s₂, hok, hs, ⟨inv_step hi hok hs, hsame.trans hcalls⟩, hlt⟩
  refine ⟨s', h', hcalls, hrest, fun o => ?_⟩
  have hheld : heldAt s'.storage s'.job = pointers s'.storage := by
    rw [heldAt, State.job, hrest.1]
    exact List.append_nil _
  have hallocated := hi.memory.allocated o
  have hdisjoint := hi.memory.disjoint o
  rw [hheld] at hallocated hdisjoint
  tauto

/-! ### A run -/

instance decidableOk : ∀ s a, Decidable (Ok s a)
  | s, .job i =>
    inferInstanceAs (Decidable (∀ pc ∈ s.jobs[i]?, ∀ p ∈ pc.awaits?, ∀ o ∈ s.ops, o.pc.loaded? ≠ some p))
  | _, .begin _ | _, .op _ | _, .fail _ | _, .release _ => isTrue trivial

def start : State := ⟨.new, fun _ => 0, [], [], false, []⟩

/-- Five rows are written and the job is spawned; it exchanges the writers when a call that writes has
taken `n` steps and a `Get` reads the first table. -/
def swapRun (n : Nat) : List Label :=
  List.flatten [
    (List.range 5).flatMap fun i =>
      .begin (.write (.insert ⟨[UInt8.ofNat i], [0], 1⟩)) :: List.replicate 4 (.op i),
    .begin .trigger :: List.replicate 5 (.op 5),
    .begin (.write (.insert ⟨[5], [0], 1⟩)) :: List.replicate n (.op 6),
    .begin (.get [0]) :: List.replicate 2 (.op 7),
    List.replicate 2 (.job 0)]

theorem reachableBy_swapRun {n : Nat} {s : State} (hs : execBy Ok step start (swapRun n) = some s) :
    exec step start (swapRun n) = some s ∧ system.ReachableBy Ok s :=
  reachableBy_execBy (.init ⟨MapStorage.empty, rfl⟩) hs

/-- The job waits for the counter that the call holds. -/
theorem safe_swapRun : ∃ s, (execBy Ok step start (swapRun 2) = some s ∧ s.jobs = [.exchanged 0] ∧
    s.count (.writer 0) = 1) ∧ Safe s := by
  obtain ⟨s, hs⟩ : ∃ s, execBy Ok step start (swapRun 2) = some s :=
    Option.isSome_iff_exists.1 (by decide +kernel)
  obtain ⟨hrun, hreach⟩ := reachableBy_swapRun hs
  exact ⟨s, ⟨hs, eq_of_map_exec hrun (f := State.jobs) (by decide +kernel),
    eq_of_map_exec hrun (f := fun s => s.count (.writer 0)) (by decide +kernel)⟩, safe_of_reachableBy hreach⟩

theorem rests_swapRun : ∃ s, (execBy Ok step start (swapRun 2) = some s ∧ s.jobs = [.exchanged 0]) ∧
    ∃ s', (systemFrom s).ReachableBy Ok s' ∧ s'.ops.map Operation.call = s.ops.map Operation.call ∧
      AtRest s' ∧ ∀ o, Allocated s'.storage o ∧ o ∉ s'.freed ↔ o ∈ pointers s'.storage := by
  obtain ⟨s, hs⟩ : ∃ s, execBy Ok step start (swapRun 2) = some s :=
    Option.isSome_iff_exists.1 (by decide +kernel)
  obtain ⟨hrun, hreach⟩ := reachableBy_swapRun hs
  exact ⟨s, ⟨hs, eq_of_map_exec hrun (f := State.jobs) (by decide +kernel)⟩, rests_of_reachableBy hreach⟩

/-- The call has loaded the counter, its count is zero, and the `Wait` can end. -/
theorem ok_iff_swapRun : ∃ s s', (execBy Ok step start (swapRun 1) = some s ∧ step s (.job 0) = some s' ∧
    ¬ Ok s (.job 0)) ∧
    (Ok s (.job 0) ↔ ∀ s'', (systemFrom s').ReachableBy Ok s'' → ∀ b, ∀ o ∈ uses s'' b, o ∉ s''.freed) := by
  obtain ⟨s, hs⟩ : ∃ s, execBy Ok step start (swapRun 1) = some s :=
    Option.isSome_iff_exists.1 (by decide +kernel)
  obtain ⟨hrun, hreach⟩ := reachableBy_swapRun hs
  have hok : decide (Ok s (.job 0)) = false :=
    eq_of_map_exec hrun (f := fun s => decide (Ok s (.job 0))) (by decide +kernel)
  have hsome : (step s (.job 0)).isSome = true :=
    eq_of_map_exec hrun (f := fun s => (step s (.job 0)).isSome) (by decide +kernel)
  obtain ⟨s', hs'⟩ := Option.isSome_iff_exists.1 hsome
  exact ⟨s, s', ⟨hs, hs', of_decide_eq_false hok⟩, ok_iff hreach hs'⟩

end CounterLifetimes

end Iu9Db
