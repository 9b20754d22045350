import Iu9Db.ConcurrentSwap

/-!
# Durability of operations that run during a job

What is known in every state of a run is split in four: the pointers and counts (`Pointers`), the WAL
files (`Logs`), which applied operations the collected table answers for (`Coverage`), and the tables
on disk (`Tables`). All four compare with the engine `s₀` that the run started from: its writer counter
is the one that `Collect` exchanges out, its second reader's table the one that is collected, its WAL
the one that is removed. `swap_durable_of_reachableBy` needs `Ok` for one thing: an operation with its record
in the old WAL writes to the collected table, before it is copied.
-/

namespace Iu9Db

open StorageSystem Transition

namespace SwapJob

/-- How many statements a job has done; the compaction at the end is left out. -/
def phase : SwapJob → Nat
  | start => 0
  | walCreated _ _ => 1
  | walSwapped _ => 2
  | writerExchanged _ _ => 3
  | writersWaited _ => 4
  | collected _ _ => 5
  | created _ _ => 6
  | listed _ _ => 7
  | added _ => 8
  | secondExchanged _ => 9
  | collectedRemoved _ => 10
  | _ => 11

/-- The WAL file that `remove_callback` is to remove. -/
def path? : SwapJob → Option FileId
  | walCreated _ path | walSwapped path | writerExchanged path _ | writersWaited path | collected path _
  | created path _ | listed path _ | added path | secondExchanged path | collectedRemoved path => some path
  | _ => none

end SwapJob

namespace ConcurrentSwap

open SwapJob (phase)

/-! ### The invariant -/

structure Pointers (s₀ : StorageSystem) (s : State) : Prop where
  ne : s₀.storage.readerFirst ≠ s₀.storage.readerSecond
  oldPtr : (s.system.storage.counters s₀.storage.writer).ptr = s₀.storage.readerSecond
  old_lt : s₀.storage.writer < s.system.storage.nextCounter
  oldWriter : ∀ path old, s.job = .writerExchanged path old → old = s₀.storage.writer
  before : phase s.job < 3 → s.system.storage.writer = s₀.storage.writer ∧
    s.system.storage.readerFirst = s₀.storage.readerFirst
  after : 3 ≤ phase s.job → s.system.storage.writer ≠ s₀.storage.writer ∧
    (s.system.storage.counters s.system.storage.writer).ptr = s₀.storage.readerFirst
  second : phase s.job < 9 → s.system.storage.readerSecond = s₀.storage.readerSecond
  count : (s.system.storage.counters s₀.storage.writer).referenceCount =
    s.ops.countP fun o => o.pc.holds s₀.storage.writer
  ptr : ∀ o ∈ s.ops, ∀ p, o.pc.ptr? = some p →
    p = s₀.storage.writer ∧ phase s.job < 4 ∨ p = s.system.storage.writer ∧ 3 ≤ phase s.job

structure Logs (s₀ : StorageSystem) (s : State) : Prop where
  wal : WalFiles s.job s.system
  path : ∀ path, s.job.path? = some path → path = s₀.walWriter
  before : phase s.job < 2 → s.system.walWriter = s₀.walWriter
  after : 2 ≤ phase s.job → s.system.walWriter ≠ s₀.walWriter
  logged : ∀ o ∈ s.ops, ∀ f, o.pc.file? = some f →
    f = s₀.walWriter ∧ phase s.job = 11 ∨ ∃ l, s.system.disk.wal f = some l ∧ o.write.record ∈ l
  late : 3 ≤ phase s.job → ∀ o ∈ s.ops, o.pc ≠ .logged s₀.walWriter ∧
    ∀ ptr, o.pc ≠ .writerLoaded s₀.walWriter ptr
  counted : 3 ≤ phase s.job → ∀ o ∈ s.ops, ∀ ptr, o.pc = .counted s₀.walWriter ptr → ptr = s₀.storage.writer

/-- Where an entry of the collected table is found at each statement. -/
def Saved (s₀ : StorageSystem) : SwapJob → StorageSystem → StorageEntry → Prop
  | .start, s, e | .walCreated _ _, s, e | .walSwapped _, s, e | .writerExchanged _ _, s, e
  | .writersWaited _, s, e => (s.storage.tables s₀.storage.readerSecond).find e.key = some e.toValue
  | .collected _ data, _, e => e ∈ data
  | .created _ persistent, _, e | .listed _ persistent, _, e => e ∈ persistent.entries
  | _, s, e => ∃ st ∈ s.persistentStorage.collection, e ∈ st.entries

structure Coverage (s₀ : StorageSystem) (s : State) : Prop where
  table : ∀ a ∈ s.applied, phase s.job < 3 ∨ a.file = s₀.walWriter → a.table = s₀.storage.readerSecond
  applied : ∀ i o f, s.ops[i]? = some o → o.pc.appliedFile? = some f →
    ∃ a ∈ s.applied, a.op = i ∧ a.write = o.write ∧ a.file = f
  saved : ∀ before a after, s.applied = before ++ a :: after → a.table = s₀.storage.readerSecond →
    ∃ b ∈ a :: after, b.write.key = a.write.key ∧
      Saved s₀ s.job s.system (b.write.value.toEntry b.write.key)

/-- The table that a job has created and not yet added. -/
def Pending : SwapJob → StorageSystem → Prop
  | .created _ persistent, s => OnDisk persistent s.disk
  | .listed _ persistent, s => OnDisk persistent s.disk ∧ s.disk.Listed persistent.path
  | _, _ => True

structure Tables (s : State) : Prop where
  files : Files s.system
  pending : Pending s.job s.system
  omitted : ∀ o ∈ s.ops, (o.pc = .omitted ∨ ∃ old, o.pc = .got old ∧ omits o.write.version old = true) →
    ∃ st ∈ s.system.persistentStorage.collection, ∃ e ∈ st.entries,
      e.key = o.write.key ∧ o.write.version < e.version

structure Inv (s₀ : StorageSystem) (s : State) : Prop where
  phase_le : phase s.job ≤ 11
  last : phase s.job = 11 → s.job = .walRemoved
  pointers : Pointers s₀ s
  logs : Logs s₀ s
  coverage : Coverage s₀ s
  tables : Tables s

section
variable {s₀ sys : StorageSystem} {s : State} {i : Nat} {o : Operation} {pc : OpPc} {job' : SwapJob}

/-! ### Statements of an operation -/

/-- The state after the `i`th operation has done a statement. -/
def afterOp (s : State) (i : Nat) (o : Operation) (pc : OpPc) (sys : StorageSystem) : State :=
  { s with
    system := sys
    ops := s.ops.set i ⟨o.write, pc⟩
    applied := s.applied ++ appliedBy i o s.system }

theorem mem_afterOp {o' : Operation} (h : o' ∈ (afterOp s i o pc sys).ops) :
    o' ∈ s.ops ∨ o' = ⟨o.write, pc⟩ := List.mem_or_eq_of_mem_set h

/-- An operation is as it was, or is the one that has done the statement. -/
theorem getElem?_afterOp {i' : Nat} {o' : Operation} (ho : s.ops[i]? = some o)
    (h : (afterOp s i o pc sys).ops[i']? = some o') : s.ops[i']? = some o' ∨ i' = i ∧ o' = ⟨o.write, pc⟩ := by
  have h : (s.ops.set i ⟨o.write, pc⟩)[i']? = some o' := h
  by_cases hi : i = i'
  · subst hi
    rw [List.getElem?_set_self (List.getElem?_eq_some_iff.1 ho).1] at h
    cases h
    exact .inr ⟨rfl, rfl⟩
  · rw [List.getElem?_set_ne hi] at h
    exact .inl h

theorem Pointers.op (hp : Pointers s₀ s) (ho : s.ops[i]? = some o)
    (hs : opStep o.write o.pc s.system = some (pc, sys)) : Pointers s₀ (afterOp s i o pc sys) := by
  obtain ⟨hi, hoi⟩ := List.getElem?_eq_some_iff.1 ho
  have hmem : o ∈ s.ops := List.mem_of_getElem? ho
  have hr := sameRoles_opStep hs
  refine ⟨hp.ne, (hr.ptr _).trans hp.oldPtr, hr.nextCounter ▸ hp.old_lt, hp.oldWriter, fun h => ?_,
    fun h => ?_, fun h => hr.readerSecond.trans (hp.second h), ?_, fun o' ho' p hpp => ?_⟩
  · obtain ⟨h1, h2⟩ := hp.before h
    exact ⟨hr.writer.trans h1, hr.readerFirst.trans h2⟩
  · obtain ⟨h1, h2⟩ := hp.after h
    show sys.storage.writer ≠ _ ∧ (sys.storage.counters sys.storage.writer).ptr = _
    rw [hr.writer, hr.ptr]
    exact ⟨h1, h2⟩
  · -- The count and the number of its holders change alike.
    show (sys.storage.counters s₀.storage.writer).referenceCount =
      (s.ops.set i ⟨o.write, pc⟩).countP fun o => o.pc.holds s₀.storage.writer
    rw [List.countP_set hi, hoi, ← hp.count]
    refine count_opStep hs _ fun hh => ?_
    rw [hp.count, List.countP_pos_iff]
    exact ⟨o, hmem, hh⟩
  · show p = _ ∧ _ ∨ p = sys.storage.writer ∧ _
    rw [hr.writer]
    rcases mem_afterOp ho' with ho' | rfl
    · exact hp.ptr o' ho' p hpp
    · rcases ptr_opStep hs hpp with hold | rfl
      · exact hp.ptr o hmem p hold
      · by_cases h3 : phase s.job < 3
        · exact .inl ⟨(hp.before h3).1, h3.trans (by decide)⟩
        · exact .inr ⟨rfl, not_lt.1 h3⟩

theorem Logs.op (hl : Logs s₀ s) (ho : s.ops[i]? = some o)
    (hs : opStep o.write o.pc s.system = some (pc, sys)) : Logs s₀ (afterOp s i o pc sys) := by
  have hmem : o ∈ s.ops := List.mem_of_getElem? ho
  have hr := sameRoles_opStep hs
  have hdisk := disk_opStep hs
  have hlogged : ∀ f r, (∃ l, s.system.disk.wal f = some l ∧ r ∈ l) → ∃ l, sys.disk.wal f = some l ∧
    r ∈ l := by
    intro f r h
    rcases hdisk with he | ⟨-, -, he⟩ <;> rw [he]
    · exact h
    · exact mem_wal_append h
  refine ⟨?_, hl.path, fun h => hr.walWriter.trans (hl.before h), fun h => ?_, fun o' ho' f hf => ?_,
    fun h3 o' ho' => ?_, fun h3 o' ho' ptr hpc => ?_⟩
  · exact walFiles_opStep hs hl.wal
  · show sys.walWriter ≠ _
    rw [hr.walWriter]
    exact hl.after h
  · rcases mem_afterOp ho' with ho' | rfl
    · exact (hl.logged o' ho' f hf).imp_right (hlogged f _)
    · rcases file_opStep hs hf with hf | ⟨hpc, rfl, rfl⟩
      · exact (hl.logged o hmem f hf).imp_right (hlogged f _)
      · obtain ⟨l, hwal⟩ := hl.wal.walWriter
        refine .inr ⟨l ++ [o.write.record], ?_, by simp⟩
        rcases hdisk with he | ⟨-, -, he⟩
        · rw [hpc] at hs
          cases hs
          simp [writeEntry, afterOp, hwal]
        · simp [afterOp, he, hwal]
  · rcases mem_afterOp ho' with ho' | rfl
    · exact hl.late h3 o' ho'
    · obtain ⟨h1, h2, -⟩ := logging_opStep hs
      refine ⟨fun hpc => ?_, fun ptr hpc => ?_⟩
      · exact hl.after (le_trans (by decide) h3) (h1 _ hpc).symm
      · exact (hl.late h3 o hmem).1 (h2 _ ptr hpc)
  · rcases mem_afterOp ho' with ho' | rfl
    · exact hl.counted h3 o' ho' ptr hpc
    · exact absurd ((logging_opStep hs).2.2 _ ptr hpc) ((hl.late h3 o hmem).2 ptr)

/-- The last of a list is the element split off, or what follows it ends with it. -/
theorem concat_eq_split {α : Type} {l before after : List α} {x a : α} (h : l ++ [x] = before ++ a :: after) :
    after = [] ∧ l = before ∧ x = a ∨ ∃ after', after = after' ++ [x] ∧ l = before ++ a :: after' := by
  rcases List.eq_nil_or_concat after with rfl | ⟨after', y, rfl⟩
  · obtain ⟨rfl, he⟩ := List.append_inj' h rfl
    cases he
    exact .inl ⟨rfl, rfl, rfl⟩
  · rw [List.concat_eq_append, ← List.cons_append, ← List.append_assoc] at h
    obtain ⟨rfl, he⟩ := List.append_inj' h rfl
    cases he
    exact .inr ⟨after', List.concat_eq_append, rfl⟩

/-- Before the table is copied, what is saved is in the table; from then on memory does not matter. -/
theorem saved_cases (s₀ : StorageSystem) (job : SwapJob) :
    (phase job < 5 ∧ ∀ s e, Saved s₀ job s e =
      ((s.storage.tables s₀.storage.readerSecond).find e.key = some e.toValue)) ∨
    5 ≤ phase job ∧ ∀ s s' e, s'.persistentStorage = s.persistentStorage →
      (Saved s₀ job s' e ↔ Saved s₀ job s e) := by
  cases job <;> first
    | exact .inl ⟨by simp [phase], fun _ _ => rfl⟩
    | refine .inr ⟨by simp [phase], fun s s' e h => ?_⟩
      simp only [Saved, h]

/-- A statement of an operation keeps what is saved, unless it writes that key to the collected table. -/
theorem saved_op {w : Write} {job : SwapJob} {system : StorageSystem} {pc pc' : OpPc} {e : StorageEntry}
    (hs : opStep w pc system = some (pc', sys)) (hsaved : Saved s₀ job system e)
    (hkey : ∀ file ptr, pc = .counted file ptr →
      (system.storage.counters ptr).ptr = s₀.storage.readerSecond → e.key ≠ w.key) : Saved s₀ job sys e := by
  rcases saved_cases s₀ job with ⟨-, heq⟩ | ⟨-, hiff⟩
  · rw [heq] at hsaved ⊢
    rcases tables_opStep hs with ⟨-, htab⟩ | ⟨file, ptr, hpc, -, htab⟩
    · rw [htab]
      exact hsaved
    · rw [htab]
      by_cases ht : (system.storage.counters ptr).ptr = s₀.storage.readerSecond
      · rw [ht, Function.update_self, Write.find_applyTo, if_neg (hkey file ptr hpc ht)]
        exact hsaved
      · rw [Function.update_of_ne (Ne.symm ht)]
        exact hsaved
  · exact (hiff _ _ _ (sameRoles_opStep hs).persistentStorage).2 hsaved

theorem Coverage.op (hc : Coverage s₀ s) (hp : Pointers s₀ s) (hl : Logs s₀ s) (ho : s.ops[i]? = some o)
    (hs : opStep o.write o.pc s.system = some (pc, sys)) : Coverage s₀ (afterOp s i o pc sys) := by
  have hmem : o ∈ s.ops := List.mem_of_getElem? ho
  rcases tables_opStep hs with ⟨hnot, htab⟩ | ⟨file, ptr, hpc, rfl, htab⟩
  · -- Nothing reaches memory.
    have hnil : appliedBy i o s.system = [] := by
      unfold appliedBy
      split
      · rename_i file ptr hpc; exact absurd hpc (hnot file ptr)
      · rfl
    have happ : (afterOp s i o pc sys).applied = s.applied := by simp [afterOp, hnil]
    refine ⟨fun a ha h => ?_, fun i' o' f ho' hf => ?_, fun before a after he ht => ?_⟩
    · exact hc.table a (happ ▸ ha) h
    · rw [happ]
      rcases getElem?_afterOp ho ho' with ho' | ⟨rfl, rfl⟩
      · exact hc.applied i' o' f ho' hf
      · rcases appliedFile_opStep hs hf with hf | ⟨ptr, hpc⟩
        · exact hc.applied _ o f ho hf
        · exact absurd hpc (hnot f ptr)
    · rw [happ] at he
      obtain ⟨b, hb, hk, hsaved⟩ := hc.saved before a after he ht
      exact ⟨b, hb, hk, saved_op hs hsaved fun file ptr hpc => absurd hpc (hnot file ptr)⟩
  · -- The operation writes its row.
    set table := (s.system.storage.counters ptr).ptr with htable
    have happ : (afterOp s i o (.written file ptr) sys).applied = s.applied ++
      [⟨i, o.write, table, file⟩] := by
      simp [afterOp, appliedBy, hpc, htable]
    have hptr := hp.ptr o hmem ptr (by rw [hpc]; rfl)
    have hcollected : table = s₀.storage.readerSecond → phase s.job < 4 := by
      intro ht
      rcases hptr with ⟨-, h4⟩ | ⟨rfl, h3⟩
      · exact h4
      · exact absurd ((hp.after h3).2.symm.trans (htable.symm.trans ht)) hp.ne
    have hwritten : table = s₀.storage.readerSecond →
        Saved s₀ s.job sys (o.write.value.toEntry o.write.key) := by
      intro ht
      have h4 := hcollected ht
      rcases saved_cases s₀ s.job with ⟨-, heq⟩ | ⟨h5, -⟩
      · rw [heq, htab, ht, Function.update_self, Write.find_applyTo]
        simp
      · omega
    refine ⟨fun a ha h => ?_, fun i' o' f ho' hf => ?_, fun before a after he ht => ?_⟩
    · rw [happ] at ha
      rcases List.mem_append.1 ha with ha | ha
      · exact hc.table a ha h
      · rw [List.mem_singleton.1 ha] at h ⊢
        have hold : ptr = s₀.storage.writer := by
          rcases h with h | h
          · rcases hptr with ⟨hold, -⟩ | ⟨-, h3⟩
            · exact hold
            · exact absurd h (not_lt.2 h3)
          · by_cases h3 : phase s.job < 3
            · rcases hptr with ⟨hold, -⟩ | ⟨-, h3'⟩
              · exact hold
              · exact absurd h3 (not_lt.2 h3')
            · exact hl.counted (not_lt.1 h3) o hmem ptr (by rw [hpc, show file = s₀.walWriter from h])
        show table = _
        rw [htable, hold, hp.oldPtr]
    · rw [happ]
      rcases getElem?_afterOp ho ho' with ho' | ⟨rfl, rfl⟩
      · obtain ⟨a, ha, h⟩ := hc.applied i' o' f ho' hf
        exact ⟨a, by simp [ha], h⟩
      · cases hf
        exact ⟨⟨i', o.write, table, file⟩, by simp, rfl, rfl, rfl⟩
    · rw [happ] at he
      show ∃ b ∈ a :: after, b.write.key = a.write.key ∧ Saved s₀ s.job sys _
      rcases concat_eq_split he with ⟨rfl, rfl, rfl⟩ | ⟨after', rfl, he'⟩
      · exact ⟨_, by simp, rfl, hwritten ht⟩
      · obtain ⟨b, hb, hk, hsaved⟩ := hc.saved before a after' he' ht
        by_cases hsame : table = s₀.storage.readerSecond ∧ o.write.key = a.write.key
        · exact ⟨⟨i, o.write, table, file⟩, by simp, hsame.2, hwritten hsame.1⟩
        · refine ⟨b, by rcases List.mem_cons.1 hb with rfl | hb <;> simp [*], hk, ?_⟩
          refine saved_op hs hsaved fun file' ptr' hpc' ht' hkey => hsame ⟨?_, hkey.symm.trans hk⟩
          obtain ⟨-, rfl⟩ : file = file' ∧ ptr = ptr' := by
            rw [hpc] at hpc'
            cases hpc'
            exact ⟨rfl, rfl⟩
          exact ht'

theorem Tables.op (ht : Tables s) (ho : s.ops[i]? = some o)
    (hs : opStep o.write o.pc s.system = some (pc, sys)) : Tables (afterOp s i o pc sys) := by
  have hmem : o ∈ s.ops := List.mem_of_getElem? ho
  have hr := sameRoles_opStep hs
  have hframe : sys.disk.data = s.system.disk.data ∧ sys.disk.metadata = s.system.disk.metadata ∧
      sys.disk.nextFile = s.system.disk.nextFile := by
    rcases disk_opStep hs with he | ⟨-, -, he⟩ <;> rw [he]
    · exact ⟨rfl, rfl, rfl⟩
    · exact ⟨rfl, rfl, rfl⟩
  obtain ⟨hdata, hmeta, hnext⟩ := hframe
  have honDisk : ∀ st, OnDisk st s.system.disk → OnDisk st sys.disk := fun st h =>
    h.mono (fun f _ => by rw [hdata]) hnext.ge
  have hlisted : ∀ path, s.system.disk.Listed path → sys.disk.Listed path := fun path h => by
    rwa [Disk.Listed, hmeta]
  refine ⟨⟨fun st hst => ?_, fun st hst => ?_⟩, ?_, fun o' ho' h => ?_⟩
  · exact honDisk st (ht.files.onDisk st (hr.persistentStorage ▸ hst))
  · exact hlisted _ (ht.files.listed st (hr.persistentStorage ▸ hst))
  · have hpend := ht.pending
    show Pending s.job sys
    cases hj : s.job <;> rw [hj] at hpend <;> first
      | trivial
      | exact honDisk _ hpend
      | exact ⟨honDisk _ hpend.1, hlisted _ hpend.2⟩
  · show ∃ st ∈ sys.persistentStorage.collection, _
    rw [hr.persistentStorage]
    rcases mem_afterOp ho' with ho' | rfl
    · exact ht.omitted o' ho' h
    · obtain ⟨h1, h2⟩ := omits_opStep hs
      rcases h with h | ⟨old, hgot, homits⟩
      · exact ht.omitted o hmem (.inr (h1 h))
      · exact h2 old hgot homits

/-! ### Statements of the job -/

/-- The state after the job has done a statement. -/
def afterJob (s : State) (job' : SwapJob) (sys : StorageSystem) : State :=
  { s with job := job', system := sys }

/-- A statement that leaves writers and counters alone. -/
theorem Pointers.frame (hp : Pointers s₀ s) (hwriter : sys.storage.writer = s.system.storage.writer)
    (hcounters : sys.storage.counters = s.system.storage.counters)
    (hnext : sys.storage.nextCounter = s.system.storage.nextCounter)
    (hfirst : phase job' < 3 → sys.storage.readerFirst = s.system.storage.readerFirst)
    (hsecond : phase job' < 9 → sys.storage.readerSecond = s.system.storage.readerSecond)
    (h3 : 3 ≤ phase job' ↔ 3 ≤ phase s.job) (h4 : phase job' < 4 ↔ phase s.job < 4)
    (h9 : phase job' < 9 → phase s.job < 9) (hex : ∀ path old, job' ≠ .writerExchanged path old) :
    Pointers s₀ (afterJob s job' sys) where
  ne := hp.ne
  oldPtr := by rw [afterJob, hcounters]; exact hp.oldPtr
  old_lt := by rw [afterJob, hnext]; exact hp.old_lt
  oldWriter path old he := absurd he (hex path old)
  before h := by
    have h : phase job' < 3 := h
    obtain ⟨h1, h2⟩ := hp.before (by rw [← not_le, ← h3, not_le]; exact h)
    exact ⟨hwriter.trans h1, (hfirst h).trans h2⟩
  after h := by
    obtain ⟨h1, h2⟩ := hp.after (h3.1 h)
    rw [afterJob, hwriter, hcounters]
    exact ⟨h1, h2⟩
  second h := (hsecond h).trans (hp.second (h9 h))
  count := by rw [afterJob, hcounters]; exact hp.count
  ptr o ho p hpp := by
    rw [afterJob, hwriter, h3, h4]
    exact hp.ptr o ho p hpp

theorem Pointers.job (hp : Pointers s₀ s) (hok : Ok s .job)
    (hs : SwapJob.step .succeeds s.job s.system = some (job', sys)) (h11 : phase s.job < 11) :
    Pointers s₀ (afterJob s job' sys) := by
  obtain ⟨system, job, ops, applied⟩ := s
  have hstep : SwapJob.Step .succeeds system job job' sys := SwapJob.step_cases hs
  cases hstep with
  | newWal _ | swapWal | copySecond | table _ | append _ | add =>
    exact hp.frame rfl rfl rfl (fun _ => rfl) (fun _ => rfl) (by simp [phase]) (by simp [phase])
      (by simp [phase]) (by simp)
  | exchangeWriter =>
    obtain ⟨hwriter, hfirst⟩ : system.storage.writer = s₀.storage.writer ∧
        system.storage.readerFirst = s₀.storage.readerFirst := hp.before (by simp [phase])
    have hfresh : s₀.storage.writer ≠ system.storage.nextCounter := ne_of_lt hp.old_lt
    refine ⟨hp.ne, ?_, Nat.lt_succ_of_lt hp.old_lt, fun path old he => ?_, fun h => ?_,
      fun _ => ⟨hfresh.symm, ?_⟩, fun _ => hp.second (by simp [phase]), ?_, fun o ho p hpp => ?_⟩
    · simp only [afterJob, SwappableMemoryStorage.exchangeWriter, Function.update_of_ne hfresh]
      exact hp.oldPtr
    · cases he
      exact hwriter
    · simp [afterJob, phase] at h
    · simp [afterJob, SwappableMemoryStorage.exchangeWriter, hfirst]
    · simp only [afterJob, SwappableMemoryStorage.exchangeWriter, Function.update_of_ne hfresh]
      exact hp.count
    · rcases hp.ptr o ho p hpp with ⟨hold, -⟩ | ⟨-, h3⟩
      · exact .inl ⟨hold, by simp [afterJob, phase]⟩
      · simp [phase] at h3
  | @waitWriters path old hzero =>
    obtain rfl := hp.oldWriter path old rfl
    obtain ⟨hw, hptr⟩ := hp.after (by simp [phase])
    refine ⟨hp.ne, hp.oldPtr, hp.old_lt, fun _ _ he => (by cases he), fun h => ?_, fun _ => ⟨hw, hptr⟩,
      fun _ => hp.second (by simp [phase]), hp.count, fun o ho p hpp => ?_⟩
    · simp [afterJob, phase] at h
    · rcases hp.ptr o ho p hpp with ⟨rfl, -⟩ | ⟨hnew, -⟩
      · -- No operation is left that uses the old counter.
        exfalso
        rw [hp.count, List.countP_eq_zero] at hzero
        have hnot := hzero o ho
        cases hpc : o.pc <;> rw [hpc] at hpp <;> cases hpp
        · exact hok o ho _ hpc
        · simp [hpc, OpPc.holds] at hnot
        · simp [hpc, OpPc.holds] at hnot
      · exact .inr ⟨hnew, by simp [afterJob, phase]⟩
  | exchangeSecond =>
    exact hp.frame rfl rfl rfl (fun _ => rfl) (by simp [phase]) (by simp [phase]) (by simp [phase])
      (by simp [phase]) (by simp)
  | storeFirst | removeWal =>
    exact hp.frame rfl rfl rfl (by simp [phase]) (by simp [phase]) (by simp [phase]) (by simp [phase])
      (by simp [phase]) (by simp)
  | newWalFails h | tableFails h | appendFails h => cases h
  | _ => simp [phase] at h11

/-- A statement after the exchange of the writer that leaves the WAL files alone. -/
theorem Logs.frame (hl : Logs s₀ s) (hw : WalFiles job' sys) (hpath : job'.path? = s.job.path?)
    (hwriter : sys.walWriter = s.system.walWriter) (hwal : sys.disk.wal = s.system.disk.wal)
    (h3 : 3 ≤ phase s.job) (h3' : 3 ≤ phase job') (h11 : phase s.job < 11) :
    Logs s₀ (afterJob s job' sys) where
  wal := hw
  path path h := hl.path path (hpath ▸ h)
  before h := absurd (h : phase job' < 2) (not_lt.2 (le_trans (by decide) h3'))
  after _ := by rw [afterJob, hwriter]; exact hl.after (le_trans (by decide) h3)
  logged o ho f hf := by
    rcases hl.logged o ho f hf with ⟨-, h⟩ | h
    · omega
    · exact .inr (by rw [afterJob, hwal]; exact h)
  late _ := hl.late h3
  counted _ := hl.counted h3

theorem Logs.job (hl : Logs s₀ s) (hp : Pointers s₀ s) (hok : Ok s .job)
    (hs : SwapJob.step .succeeds s.job s.system = some (job', sys)) (h11 : phase s.job < 11) :
    Logs s₀ (afterJob s job' sys) := by
  have hw := walFiles_step hl.wal hs
  obtain ⟨system, job, ops, applied⟩ := s
  have hstep : SwapJob.Step .succeeds system job job' sys := SwapJob.step_cases hs
  cases hstep with
  | newWal h =>
    cases h
    have hwriter := hl.before (by simp [phase])
    refine ⟨hw, fun path h => ?_, fun _ => hwriter, ?_, fun o ho f hf => ?_, ?_, ?_⟩
    · cases h
      exact hwriter
    · simp [afterJob, phase]
    · rcases hl.logged o ho f hf with ⟨-, h⟩ | ⟨l, h, hmem⟩
      · simp [phase] at h
      · exact .inr ⟨l, wal_newWal hl.wal.lt f l h, hmem⟩
    · simp [afterJob, phase]
    · simp [afterJob, phase]
  | @swapWal file path =>
    have hne : file ≠ path := hl.wal.pc.2
    have hpath := hl.path path rfl
    refine ⟨hw, fun path' h => ?_, ?_, fun _ => ?_, fun o ho f hf => ?_, ?_, ?_⟩
    · cases h
      exact hpath
    · simp [afterJob, phase]
    · exact hpath ▸ hne
    · rcases hl.logged o ho f hf with ⟨-, h⟩ | h
      · simp [phase] at h
      · exact .inr h
    · simp [afterJob, phase]
    · simp [afterJob, phase]
  | @exchangeWriter path =>
    have hpath := hl.path path rfl
    refine ⟨hw, fun path' h => ?_, ?_, fun _ => hl.after (by simp [phase]), fun o ho f hf => ?_,
      fun _ o ho => hpath ▸ hok o ho, fun _ o ho ptr hpc => ?_⟩
    · cases h
      exact hpath
    · simp [afterJob, phase]
    · rcases hl.logged o ho f hf with ⟨-, h⟩ | h
      · simp [phase] at h
      · exact .inr h
    · rcases hp.ptr o ho ptr (by rw [hpc]; rfl) with ⟨h, -⟩ | ⟨-, h⟩
      · exact h
      · simp [phase] at h
  | table h | append h =>
    cases h
    exact hl.frame hw rfl rfl rfl (by simp [phase]) (by simp [phase]) h11
  | waitWriters _ | copySecond | add | exchangeSecond | storeFirst =>
    exact hl.frame hw rfl rfl rfl (by simp [phase]) (by simp [phase]) h11
  | @removeWal path =>
    have hpath := hl.path path rfl
    have h3 : 3 ≤ phase (.collectedRemoved path) := by simp [phase]
    refine ⟨hw, fun _ h => (by cases h), ?_, fun _ => hl.after (by simp [phase]), fun o ho f hf => ?_,
      fun _ => hl.late h3, fun _ => hl.counted h3⟩
    · simp [afterJob, phase]
    · rcases hl.logged o ho f hf with ⟨-, h⟩ | ⟨l, h, hmem⟩
      · simp [phase] at h
      · by_cases hfp : f = path
        · exact .inl ⟨hfp.trans hpath, rfl⟩
        · refine .inr ⟨l, ?_, hmem⟩
          simp only [afterJob, Iu9Db.removeWal, Disk.setWal_wal, Function.update_of_ne hfp]
          exact h
  | newWalFails h | tableFails h | appendFails h => cases h
  | _ => simp [phase] at h11

/-- What the saved entries of one statement are for the next. -/
theorem saved_job (hp : Pointers s₀ s) (hs : SwapJob.step .succeeds s.job s.system = some (job', sys))
    (h11 : phase s.job < 11) {e : StorageEntry} (he : Saved s₀ s.job s.system e) : Saved s₀ job' sys e := by
  obtain ⟨system, job, ops, applied⟩ := s
  have hstep : SwapJob.Step .succeeds system job job' sys := SwapJob.step_cases hs
  cases hstep with
  | copySecond =>
    have hsecond : sys.storage.readerSecond = s₀.storage.readerSecond := hp.second (by simp [phase])
    show e ∈ (sys.storage.tables sys.storage.readerSecond).toEntries
    rw [hsecond]
    exact MapStorage.mem_toEntries.2 he
  | @table path data _ _ h =>
    cases h
    exact (List.perm_insertionSort (· ≤ ·) data).mem_iff.2 he
  | @add path persistent => exact ⟨persistent, by simp, he⟩
  | newWal _ | swapWal | exchangeWriter | waitWriters _ | append _ | exchangeSecond | storeFirst
  | removeWal =>
    exact he
  | newWalFails h | tableFails h | appendFails h => cases h
  | _ => simp [phase] at h11

theorem phase_job (hs : SwapJob.step .succeeds s.job s.system = some (job', sys)) (h11 : phase s.job < 11) :
    phase job' = phase s.job + 1 ∧ (phase job' = 11 → job' = .walRemoved) := by
  obtain ⟨system, job, ops, applied⟩ := s
  have hstep : SwapJob.Step .succeeds system job job' sys := SwapJob.step_cases hs
  cases hstep with
  | newWal _ | swapWal | exchangeWriter | waitWriters _ | copySecond | table _ | append _ | add
  | exchangeSecond | storeFirst => exact ⟨rfl, by simp [phase]⟩
  | removeWal => exact ⟨rfl, fun _ => rfl⟩
  | newWalFails h | tableFails h | appendFails h => cases h
  | _ => simp [phase] at h11

theorem Coverage.job (hc : Coverage s₀ s) (hp : Pointers s₀ s)
    (hs : SwapJob.step .succeeds s.job s.system = some (job', sys)) (h11 : phase s.job < 11) :
    Coverage s₀ (afterJob s job' sys) where
  table a ha h := hc.table a ha (h.imp_left fun h => by
    have := (phase_job hs h11).1
    have h : phase job' < 3 := h
    omega)
  applied := hc.applied
  saved before a after he ht := by
    obtain ⟨b, hb, hk, hsaved⟩ := hc.saved before a after he ht
    exact ⟨b, hb, hk, saved_job hp hs h11 hsaved⟩

theorem Tables.job (ht : Tables s) (hs : SwapJob.step .succeeds s.job s.system = some (job', sys))
    (h11 : phase s.job < 11) : Tables (afterJob s job' sys) := by
  obtain ⟨system, job, ops, applied⟩ := s
  have hpend := ht.pending
  have hf : Files system := ht.files
  have hstep : SwapJob.Step .succeeds system job job' sys := SwapJob.step_cases hs
  cases hstep with
  | newWal h =>
    cases h
    exact ⟨hf.setDisk (fun _ _ => rfl) (fun _ h => h) (Nat.le_succ _), trivial, ht.omitted⟩
  | swapWal | exchangeWriter | waitWriters _ | copySecond | exchangeSecond | storeFirst =>
    exact ⟨⟨hf.onDisk, hf.listed⟩, trivial, ht.omitted⟩
  | table h => exact ⟨hf.newPersistentStorage h, (onDisk_newPersistentStorage (fun _ => rfl) h).1, ht.omitted⟩
  | @append path persistent _ _ h =>
    have hframe := appendMetadata_frame .ok persistent system.disk .main
    have hkeep : AppendIO.KeepsListed ((system.disk.metadata .main).getD []) persistent.path .ok := trivial
    have hfiles : Files { system with disk := (appendMetadata .ok persistent system.disk).2 } :=
      hf.appendMetadata hkeep
    have hlisted := (listed_appendMetadata hkeep).2 rfl
    cases h
    exact ⟨hfiles, ⟨hpend.mono (fun f _ => by rw [← hframe.2.1]; rfl) hframe.2.2.1.ge, hlisted⟩, ht.omitted⟩
  | add =>
    refine ⟨⟨fun st hst => ?_, fun st hst => ?_⟩, trivial, fun o ho h => ?_⟩
    · rcases List.mem_append.1 hst with hst | hst
      · exact hf.onDisk st hst
      · rw [List.mem_singleton.1 hst]; exact hpend.1
    · rcases List.mem_append.1 hst with hst | hst
      · exact hf.listed st hst
      · rw [List.mem_singleton.1 hst]; exact hpend.2
    · obtain ⟨st, hst, h⟩ := ht.omitted o ho h
      exact ⟨st, List.mem_append_left _ hst, h⟩
  | removeWal => exact ⟨hf.setDisk (fun _ _ => rfl) (fun _ h => h) le_rfl, trivial, ht.omitted⟩
  | newWalFails h | tableFails h | appendFails h => cases h
  | _ => simp [phase] at h11

/-! ### The run -/

theorem inv_begin (hi : Inv s₀ s) (w : Write) : Inv s₀ { s with ops := s.ops ++ [⟨w, .start⟩] } := by
  obtain ⟨hle, hlast, hp, hl, hc, ht⟩ := hi
  have hnew : ∀ o ∈ s.ops ++ [⟨w, .start⟩], o ∈ s.ops ∨ o.pc = .start := fun o ho => by
    rcases List.mem_append.1 ho with ho | ho
    · exact .inl ho
    · exact .inr (by rw [List.mem_singleton.1 ho])
  refine ⟨hle, hlast, ⟨hp.ne, hp.oldPtr, hp.old_lt, hp.oldWriter, hp.before, hp.after, hp.second, ?_,
    fun o ho p hpp => ?_⟩, ⟨hl.wal, hl.path, hl.before, hl.after, fun o ho f hf => ?_, fun h3 o ho => ?_,
    fun h3 o ho ptr hpc => ?_⟩,
    ⟨hc.table, fun i o f ho hf => ?_, hc.saved⟩, ⟨ht.files, ht.pending, fun o ho h => ?_⟩⟩
  · rw [List.countP_append]
    exact hp.count
  · rcases hnew o ho with ho | ho
    · exact hp.ptr o ho p hpp
    · rw [ho] at hpp; cases hpp
  · rcases hnew o ho with ho | ho
    · exact hl.logged o ho f hf
    · rw [ho] at hf; cases hf
  · rcases hnew o ho with ho | ho
    · exact hl.late h3 o ho
    · rw [ho]; simp
  · rcases hnew o ho with ho | ho
    · exact hl.counted h3 o ho ptr hpc
    · rw [ho] at hpc; cases hpc
  · rcases hnew o (List.mem_of_getElem? ho) with hmem | hstart
    · by_cases hlt : i < s.ops.length
      · exact hc.applied i o f (by rwa [List.getElem?_append_left hlt] at ho) hf
      · rw [List.getElem?_append_right (not_lt.1 hlt)] at ho
        have hstart := List.mem_of_getElem? ho
        rw [List.mem_singleton.1 hstart] at hf
        cases hf
    · rw [hstart] at hf; cases hf
  · rcases hnew o ho with ho | ho
    · exact ht.omitted o ho h
    · rcases h with h | ⟨old, h, -⟩ <;> rw [ho] at h <;> cases h

theorem inv_init (hr : Ready s₀) : Inv s₀ ⟨s₀, .start, [], []⟩ where
  phase_le := by simp [phase]
  last := by simp [phase]
  pointers := ⟨hr.wf.storage.ne, hr.writer, hr.wf.storage.writer_lt, nofun, fun _ => ⟨rfl, rfl⟩,
    by simp [phase], fun _ => rfl, hr.count, nofun⟩
  logs := ⟨hr.wal, nofun, fun _ => rfl, by simp [phase], nofun, by simp [phase], by simp [phase]⟩
  coverage := ⟨nofun, nofun, fun before a after he => absurd he (by simp)⟩
  tables := ⟨hr.files, trivial, nofun⟩

/-- **Every allowed step keeps the invariant.** -/
theorem inv_step {s' : State} {a : Label} (hi : Inv s₀ s) (hok : Ok s a) (hs : step s a = some s') :
    Inv s₀ s' := by
  cases a with
  | begin w =>
    cases hs
    exact inv_begin hi w
  | op i =>
    obtain ⟨o, ho, h⟩ := Option.bind_eq_some_iff.1 hs
    obtain ⟨⟨pc, sys⟩, hstep, rfl⟩ := Option.map_eq_some_iff.1 h
    exact ⟨hi.phase_le, hi.last, hi.pointers.op ho hstep, hi.logs.op ho hstep,
      hi.coverage.op hi.pointers hi.logs ho hstep, hi.tables.op ho hstep⟩
  | job =>
    simp only [step] at hs
    split at hs
    · cases hs
    · rename_i hne
      obtain ⟨⟨job', sys⟩, hstep, rfl⟩ := Option.map_eq_some_iff.1 hs
      have h11 : phase s.job < 11 := lt_of_le_of_ne hi.phase_le fun h => hne (hi.last h)
      obtain ⟨hphase, hlast⟩ := phase_job hstep h11
      exact ⟨hphase.trans_le h11, hlast, hi.pointers.job hok hstep h11, hi.logs.job hi.pointers hok hstep h11,
        hi.coverage.job hi.pointers hstep h11, hi.tables.job hstep h11⟩

theorem stored_of_mem (ht : Tables s) {st : PersistentStorage} {e : StorageEntry}
    (hst : st ∈ s.system.persistentStorage.collection) (he : e ∈ st.entries) : s.system.disk.Stored e :=
  ⟨st.path, ht.files.listed st hst, st.entries, (ht.files.onDisk st hst).data, he⟩

theorem Inv.durable (hi : Inv s₀ s) : Durable s := by
  refine ⟨fun i o file ho hpc => ?_, fun o ho hpc => ?_⟩
  · obtain ⟨a, ha, hop, hw, hfile⟩ := hi.coverage.applied i o file ho (by rw [hpc]; rfl)
    obtain ⟨before, after, happ⟩ := List.append_of_mem ha
    refine ⟨before, a, after, happ, hop, hw, ?_⟩
    rcases hi.logs.logged o (List.mem_of_getElem? ho) file (by rw [hpc]; rfl) with ⟨hold, h11⟩ | hlog
    · -- The WAL of the operation is gone: the collected table has its key.
      have htable := hi.coverage.table a ha (.inr (hfile.trans hold))
      obtain ⟨b, hb, hk, hsaved⟩ := hi.coverage.saved before a after happ htable
      rw [hi.last h11] at hsaved
      obtain ⟨st, hst, he⟩ := hsaved
      exact ⟨b, hb, hk.trans (by rw [hw]), .inr (stored_of_mem hi.tables hst he)⟩
    · exact ⟨a, by simp, by rw [hw], .inl ⟨file, by rw [hw]; exact hlog⟩⟩
  · obtain ⟨st, hst, e, he, hk, hlt⟩ := hi.tables.omitted o ho (.inl hpc)
    exact ⟨e, hk, hlt, stored_of_mem hi.tables hst he⟩

end

/-- **Everything acknowledged is durable in every state of a run** in which `Collect` exchanges and frees
the writer's counter as `Ok` says. -/
theorem swap_durable_of_reachableBy {s : State} (h : system.ReachableBy Ok s) : Durable s := by
  obtain ⟨s₀, hi⟩ := h.invariant (I := fun s => ∃ s₀, Inv s₀ s) (fun _ ⟨s₀, hr, he⟩ => ⟨s₀, he ▸ inv_init hr⟩)
    fun _ _ _ ⟨s₀, hi⟩ hok hs => ⟨s₀, inv_step hi hok hs⟩
  exact hi.durable

theorem ready_new : Ready .new :=
  ⟨StorageSystem.wf_new, rfl, rfl, walFiles_new, ⟨nofun, nofun⟩⟩

def put (n : UInt8) : Write := .insert ⟨[n], [n], 1⟩

instance decidableNeWriterLoaded (pc : OpPc) (file : FileId) :
    Decidable (∀ ptr, pc ≠ .writerLoaded file ptr) :=
  decidable_of_iff (∀ ptr ∈ pc.ptr?, pc ≠ .writerLoaded file ptr) <| by cases pc <;> simp [OpPc.ptr?]

instance decidableNeLoaded (pc : OpPc) (ptr : CounterId) : Decidable (∀ file, pc ≠ .writerLoaded file ptr) :=
  decidable_of_iff (∀ file ∈ pc.file?, pc ≠ .writerLoaded file ptr) <| by cases pc <;> simp [OpPc.file?]

instance instDecidableOk (s : State) (a : Label) : Decidable (Ok s a) := by
  unfold Ok
  split
  · split <;> infer_instance
  · infer_instance

/-- Four operations from start to end; a fifth that has raised its count when the job exchanges the
writer, and a sixth from start to end behind it; the job goes on when the fifth is done. At last an
operation that is omitted. -/
def savingRun : List Label :=
  List.flatten [(List.range 4).flatMap fun i => .begin (put (.ofNat i)) :: List.replicate 12 (.op i),
    .begin (put 4) :: List.replicate 9 (.op 4), List.replicate 3 .job, .begin (put 5) :: List.replicate 12
      (.op 5),
    List.replicate 3 (.op 4), List.replicate 8 .job,
    .begin (.insert ⟨[0], [9], 0⟩) :: List.replicate 6 (.op 6)]

theorem swap_durable_savingRun : ∃ s, exec step ⟨.new, .start, [], []⟩ savingRun = some s ∧
    s.job = .walRemoved ∧ s.ops.map Operation.pc = List.replicate 5 (.acked 0) ++ [.acked 1, .omitted] ∧
    Durable s := by
  obtain ⟨s, hs⟩ : ∃ s, execBy Ok step ⟨.new, .start, [], []⟩ savingRun = some s :=
    Option.isSome_iff_exists.1 (by decide +kernel)
  obtain ⟨hexec, hreach⟩ : _ ∧ system.ReachableBy Ok s := reachableBy_execBy (.init ⟨_, ready_new, rfl⟩) hs
  exact ⟨s, hexec, eq_of_map_exec hexec (f := fun s => s.job) (by decide +kernel),
    eq_of_map_exec hexec (f := fun s => s.ops.map Operation.pc) (by decide +kernel),
    swap_durable_of_reachableBy hreach⟩

/-! ### A run that loses an operation -/

/-- Five operations from start to end; a sixth that has written its record when the job starts and
comes to its memory table when the job has removed the file. -/
def lossyRun : List Label :=
  (List.range 5).flatMap (fun i => .begin (put (.ofNat i)) :: List.replicate 12 (.op i)) ++
  .begin (put 5) :: List.replicate 7 (.op 5) ++ List.replicate 11 .job ++ List.replicate 5 (.op 5)

/-- The job removes the record of an operation that is only then written to memory. -/
theorem not_swap_durable : ¬ ∀ s, system.Reachable s → Durable s := by
  intro hall
  obtain ⟨s, hs⟩ : ∃ s, exec step ⟨.new, .start, [], []⟩ lossyRun = some s :=
    Option.isSome_iff_exists.1 (by decide +kernel)
  have hreach : system.Reachable s := reachable_exec (.init ⟨_, ready_new, rfl⟩) hs
  have hw : WalFiles s.job s.system :=
    hreach.invariant (fun _ ⟨_, hr, he⟩ => he ▸ hr.wal) fun _ _ _ hw _ hs =>
    walFiles_of_step hw hs
  have hnext : s.system.disk.nextFile = 3 :=
    eq_of_map_exec hs (f := fun s => s.system.disk.nextFile) (by decide +kernel)
  have hwal : (List.range 3).all (fun f => (s.system.disk.wal f).all fun l => (put 5).record ∉ l) = true :=
    eq_of_map_exec hs (f := fun s =>
      (List.range 3).all fun f => (s.system.disk.wal f).all fun l => (put 5).record ∉ l) (by decide +kernel)
  have hmeta : s.system.disk.metadata .main = some [2] :=
    eq_of_map_exec hs (f := fun s => s.system.disk.metadata .main) (by decide +kernel)
  have hdata :
      (s.system.disk.data 2).all (fun entries => (put 5).value.toEntry (put 5).key ∉ entries) = true :=
    eq_of_map_exec hs (f := fun s =>
      (s.system.disk.data 2).all fun entries => (put 5).value.toEntry
        (put 5).key ∉ entries) (by decide +kernel)
  have hop : s.ops[5]? = some ⟨put 5, .acked 0⟩ :=
    eq_of_map_exec hs (f := fun s => s.ops[5]?) (by decide +kernel)
  have happlied : s.applied = (List.range 5).map (fun i => ⟨i, put (.ofNat i), 1, 0⟩) ++ [⟨5, put 5, 0, 0⟩] :=
    eq_of_map_exec hs (f := fun s => s.applied) (by decide +kernel)
  obtain ⟨before, a, after, he, ha, -, b, hb, -, hrec⟩ := (hall s hreach).acked 5 _ 0 hop rfl
  rcases concat_eq_split (happlied.symm.trans he) with ⟨rfl, -, rfl⟩ | ⟨after', -, hinit⟩
  · rw [List.mem_singleton.1 hb] at hrec
    rcases hrec with ⟨f, l, hl, hmem⟩ | ⟨path, ⟨paths, hp, hpath⟩, entries, he, hmem⟩
    · have hf := List.all_eq_true.1 hwal f (List.mem_range.2 (hnext ▸ hw.lt f l hl))
      rw [hl] at hf
      exact of_decide_eq_true hf hmem
    · obtain rfl := Option.some.inj (hmeta.symm.trans hp)
      rw [List.mem_singleton.1 hpath] at he
      rw [he] at hdata
      exact of_decide_eq_true hdata hmem
  · have hmem : a ∈ (List.range 5).map fun i => (⟨i, put (.ofNat i), 1, 0⟩ : Applied) := hinit ▸ by simp
    obtain ⟨i, hi, rfl⟩ := List.mem_map.1 hmem
    exact absurd (List.mem_range.1 hi) (by rw [show i = 5 from ha]; decide)

end ConcurrentSwap

end Iu9Db
