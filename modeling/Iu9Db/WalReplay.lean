import Iu9Db.ConcurrentSwap
import Iu9Db.Recovery

/-!
# Replaying the log of concurrent operations

Any number of operations and no job. The strand fixes the order of the records, the executor the order in
which rows get to memory. `replays_of_reachableBy`: the log replays to what memory holds if operations on
one key get to memory in the order of their records.
-/

namespace Iu9Db

open Keyed StorageSystem Transition

namespace OpPc

/-- The record of the operation is in the log. -/
def isLogged (pc : OpPc) : Bool := pc.file?.isSome

/-- Its row is in memory. -/
def isApplied (pc : OpPc) : Bool := pc.appliedFile?.isSome

/-- `Insert` or `Remove` has returned. -/
def IsAcked (pc : OpPc) : Prop := pc = omitted ∨ ∃ file, pc = acked file

end OpPc

namespace WalReplay

/-- A call of `Insert` or `Remove`. -/
structure Call where
  write : Write
  pc : OpPc
deriving DecidableEq

/-- The engine, the operations, and the order in which their records got to the log and their rows to
memory. -/
structure State where
  system : StorageSystem
  ops : List Call
  log : List (Nat × Write)
  applied : List (Nat × Write)

inductive Label
  | begin (w : Write)
  | op (i : Nat)

/-- The operation, if its next statement takes it there. -/
def reached (there : OpPc → Bool) (i : Nat) (o : Call) (pc : OpPc) : List (Nat × Write) :=
  if there pc && !there o.pc then [(i, o.write)] else []

def step (s : State) : Label → Option State
  | .begin w => some { s with ops := s.ops ++ [⟨w, .start⟩] }
  | .op i => (s.ops[i]?).bind fun o => (opStep o.write o.pc s.system).map fun next =>
    { system := next.2
      ops := s.ops.set i ⟨o.write, next.1⟩
      log := s.log ++ reached OpPc.isLogged i o next.1
      applied := s.applied ++ reached OpPc.isApplied i o next.1 }

/-- An engine with nothing in memory and an empty log. -/
structure Fresh (s : StorageSystem) : Prop where
  wf : s.storage.Wf
  memory : ∀ k, s.storage.find k = none
  wal : s.disk.wal s.walWriter = some []

def init (s : State) : Prop := ∃ s₀, Fresh s₀ ∧ s = ⟨s₀, [], [], []⟩

def system : System State Label := ofFun init step

/-- Applying what `ReadWAL` reads to an empty table gives the rows in memory. -/
def Replays (s : StorageSystem) : Prop :=
  ∃ operations n storage, readWal s.walWriter s.disk = .ok (operations, n) ∧
    apply operations .empty = some storage ∧ ∀ k, storage.find k = s.storage.find k

/-- An operation writes its row only after those on its key that have written theirs have their records
before its own. -/
def Ok (s : State) : Label → Prop
  | .begin _ => True
  | .op i => match s.ops[i]? with
    | some ⟨w, .counted _ _⟩ => ∀ e ∈ s.applied, e.2.key = w.key → [e, (i, w)].Sublist s.log
    | _ => True

instance instDecidableOk (s : State) (a : Label) : Decidable (Ok s a) := by
  unfold Ok
  split
  · infer_instance
  · split <;> infer_instance

/-! ### The order in which the operations get somewhere -/

/-- The list has the operations that are there, each once. -/
structure Reaches (there : OpPc → Bool) (ops : List Call) (l : List (Nat × Write)) : Prop where
  nodup : l.Nodup
  mem : ∀ i w, (i, w) ∈ l ↔ ∃ pc, ops[i]? = some ⟨w, pc⟩ ∧ there pc = true

section
variable {there : OpPc → Bool} {ops : List Call} {l : List (Nat × Write)} {i : Nat} {o : Call}
  {pc : OpPc}

theorem Reaches.begin (h : Reaches there ops l) (hstart : there .start = false) (w : Write) :
    Reaches there (ops ++ [⟨w, .start⟩]) l := by
  refine ⟨h.nodup, fun j w' => (h.mem j w').trans ?_⟩
  rcases Nat.lt_or_ge j ops.length with hj | hj
  · rw [List.getElem?_append_left hj]
  · rw [List.getElem?_append_right hj, List.getElem?_eq_none hj]
    refine ⟨fun ⟨pc, hpc, _⟩ => (by cases hpc), fun ⟨pc, hpc, hthere⟩ => ?_⟩
    rw [List.getElem?_singleton] at hpc
    split at hpc <;> cases hpc
    rw [hstart] at hthere
    cases hthere

theorem pairwise_reached {R : Nat × Write → Nat × Write → Prop} : (reached there i o pc).Pairwise R := by
  unfold reached
  split
  · exact List.pairwise_singleton R _
  · exact List.Pairwise.nil

/-- An operation that is there stays there. -/
theorem Reaches.op (h : Reaches there ops l) (ho : ops[i]? = some o)
    (hstays : there o.pc = true → there pc = true) :
    Reaches there (ops.set i ⟨o.write, pc⟩) (l ++ reached there i o pc) := by
  have hi : i < ops.length := (List.getElem?_eq_some_iff.1 ho).1
  have hself : ∀ w, (∃ pc', (ops.set i ⟨o.write, pc⟩)[i]? = some ⟨w, pc'⟩ ∧ there pc' = true) ↔
      w = o.write ∧ there pc = true := by
    intro w
    rw [List.getElem?_set_self hi]
    constructor
    · rintro ⟨pc', hpc', ht⟩
      cases hpc'
      exact ⟨rfl, ht⟩
    · rintro ⟨rfl, ht⟩
      exact ⟨pc, rfl, ht⟩
  have hold : ∀ w, (i, w) ∈ l ↔ w = o.write ∧ there o.pc = true := by
    intro w
    rw [h.mem i w, ho]
    constructor
    · rintro ⟨pc', hpc', ht⟩
      cases hpc'
      exact ⟨rfl, ht⟩
    · rintro ⟨rfl, ht⟩
      exact ⟨o.pc, rfl, ht⟩
  have hmem : ∀ e, e ∈ reached there i o pc ↔ e = (i, o.write) ∧ there pc = true ∧ there o.pc = false := by
    intro e
    unfold reached
    split
    · rename_i hr
      simp only [Bool.and_eq_true, Bool.not_eq_true'] at hr
      simp [hr]
    · rename_i hr
      simp only [Bool.and_eq_true, Bool.not_eq_true', not_and, Bool.not_eq_false] at hr
      simp only [List.not_mem_nil, false_iff, not_and, Bool.not_eq_false]
      exact fun _ => hr
  refine ⟨?_, fun j w => ?_⟩
  · refine List.nodup_append.2 ⟨h.nodup, pairwise_reached, fun a ha b hb => ?_⟩
    rintro rfl
    obtain ⟨rfl, -, hnot⟩ := (hmem a).1 hb
    rw [((hold _).1 ha).2] at hnot
    cases hnot
  · rw [List.mem_append, hmem]
    by_cases hj : j = i
    · subst hj
      rw [hself, hold]
      constructor
      · rintro (⟨rfl, ht⟩ | ⟨he, ht, -⟩)
        · exact ⟨rfl, hstays ht⟩
        · exact ⟨congrArg Prod.snd he, ht⟩
      · rintro ⟨rfl, ht⟩
        cases hthere : there o.pc with
        | true => exact .inl ⟨rfl, rfl⟩
        | false => exact .inr ⟨rfl, ht, rfl⟩
    · rw [List.getElem?_set_ne (Ne.symm hj), h.mem j w]
      refine or_iff_left fun ⟨he, _⟩ => ?_
      exact hj (congrArg Prod.fst he)

end

/-! ### The invariant -/

structure Inv (s : State) : Prop where
  wf : s.system.storage.Wf
  ptr : ∀ o ∈ s.ops, ∀ p, o.pc.ptr? = some p → p = s.system.storage.writer
  log : Reaches OpPc.isLogged s.ops s.log
  applied : Reaches OpPc.isApplied s.ops s.applied
  wal : s.system.disk.wal s.system.walWriter = some (s.log.map fun e => e.2.record)
  memory : ∀ k, s.system.storage.find k = lastValue (s.applied.map Prod.snd) k
  order : s.applied.Pairwise fun a b => a.2.key = b.2.key → [a, b].Sublist s.log

section
variable {w : Write} {pc pc' : OpPc} {sys sys' : StorageSystem} {s s' : State}

theorem isLogged_opStep (h : opStep w pc sys = some (pc', sys')) (hl : pc.isLogged = true) :
    pc'.isLogged = true := by
  cases opStep_cases h with
  | loadWriter | add | write | release | ack => rfl
  | _ => cases hl

theorem isApplied_opStep (h : opStep w pc sys = some (pc', sys')) (ha : pc.isApplied = true) :
    pc'.isApplied = true := by
  cases opStep_cases h with
  | release | ack => rfl
  | _ => cases ha

/-- Writers stay where they are. -/
theorem wf_opStep (h : opStep w pc sys = some (pc', sys')) (hwf : sys.storage.Wf)
    (hptr : ∀ p, pc.ptr? = some p → p = sys.storage.writer) : sys'.storage.Wf := by
  cases opStep_cases h with
  | add | release =>
    refine ⟨hwf.ne, hwf.first_lt, hwf.second_lt, hwf.writer_lt, ?_⟩
    rw [SwappableMemoryStorage.writerTable]
    simp only [SwappableMemoryStorage.add, SwappableMemoryStorage.release, SwappableMemoryStorage.ptr_update]
    exact hwf.writer
  | write =>
    obtain rfl := hptr _ rfl
    exact hwf.setTable_writerTable _
  | _ => exact hwf

theorem find_opStep {i : Nat} (h : opStep w pc sys = some (pc', sys')) (hwf : sys.storage.Wf)
    (hptr : ∀ p, pc.ptr? = some p → p = sys.storage.writer) {ops : List Write}
    (hmem : ∀ k, sys.storage.find k = lastValue ops k) (k : Str) :
    sys'.storage.find k = lastValue (ops ++ (reached OpPc.isApplied i ⟨w, pc⟩ pc').map Prod.snd) k := by
  cases opStep_cases h with
  | write =>
    obtain rfl := hptr _ rfl
    refine Eq.trans (hwf.find_write (f := w.applyTo) (fun table k => Write.find_applyTo w table k) k) ?_
    rw [hmem k, ← lastValue_concat]
    rfl
  | _ => exact (hmem k).trans (by simp [reached, OpPc.isApplied, OpPc.appliedFile?])

theorem wal_opStep {i : Nat} (h : opStep w pc sys = some (pc', sys')) {log : List (Nat × Write)}
    (hwal : sys.disk.wal sys.walWriter = some (log.map fun e => e.2.record)) :
    sys'.disk.wal sys'.walWriter =
      some ((log ++ reached OpPc.isLogged i ⟨w, pc⟩ pc').map fun e => e.2.record) := by
  cases opStep_cases h with
  | log => simp [hwal, reached, OpPc.isLogged, OpPc.file?]
  | _ => simp [hwal, reached, OpPc.isLogged, OpPc.file?]

theorem counted_of_reached {i : Nat} {o : Call} (h : opStep o.write o.pc sys = some (pc', sys'))
    {e : Nat × Write} (he : e ∈ reached OpPc.isApplied i o pc') :
    e = (i, o.write) ∧ ∃ file ptr, o.pc = .counted file ptr := by
  unfold reached at he
  split at he
  · rename_i hr
    refine ⟨List.mem_singleton.1 he, ?_⟩
    simp only [Bool.and_eq_true, Bool.not_eq_true'] at hr
    obtain ⟨hthere, hnot⟩ := hr
    obtain ⟨f, hf⟩ := Option.isSome_iff_exists.1 hthere
    rcases appliedFile_opStep h hf with hold | ⟨ptr, hpc⟩
    · rw [OpPc.isApplied, hold] at hnot
      cases hnot
    · exact ⟨f, ptr, hpc⟩
  · cases he

theorem inv_init (hs : init s) : Inv s := by
  obtain ⟨s₀, hf, rfl⟩ := hs
  refine ⟨hf.wf, fun o ho => (by cases ho), ⟨List.nodup_nil, ?_⟩, ⟨List.nodup_nil, ?_⟩, hf.wal, hf.memory,
    List.Pairwise.nil⟩
  all_goals exact fun i w => ⟨fun h => (by cases h), fun ⟨pc, hpc, _⟩ => (by cases hpc)⟩

theorem inv_step {a : Label} (hi : Inv s) (hok : Ok s a) (hs : step s a = some s') : Inv s' := by
  cases a with
  | begin w =>
    cases hs
    refine ⟨hi.wf, fun o ho p hp => ?_, hi.log.begin rfl w, hi.applied.begin rfl w, hi.wal, hi.memory,
      hi.order⟩
    rcases List.mem_append.1 ho with ho | ho
    · exact hi.ptr o ho p hp
    · rw [List.mem_singleton.1 ho] at hp
      cases hp
  | op i =>
    obtain ⟨o, ho, h⟩ := Option.bind_eq_some_iff.1 hs
    obtain ⟨⟨pc', sys'⟩, hstep, rfl⟩ := Option.map_eq_some_iff.1 h
    have hmemo := List.mem_of_getElem? ho
    have hroles := sameRoles_opStep hstep
    refine ⟨wf_opStep hstep hi.wf (hi.ptr o hmemo), fun u hu p hp => ?_,
      hi.log.op ho (isLogged_opStep hstep), hi.applied.op ho (isApplied_opStep hstep),
      wal_opStep hstep hi.wal, fun k => ?_, ?_⟩
    · rw [hroles.writer]
      rcases List.mem_or_eq_of_mem_set hu with hu | rfl
      · exact hi.ptr u hu p hp
      · rcases ptr_opStep hstep hp with hp | rfl
        · exact hi.ptr o hmemo p hp
        · rfl
    · rw [List.map_append]
      exact find_opStep hstep hi.wf (hi.ptr o hmemo) hi.memory k
    · refine List.pairwise_append.2 ⟨hi.order.imp fun hab hk => (hab hk).trans (List.sublist_append_left _ _),
        pairwise_reached, fun a ha b hb hk => ?_⟩
      obtain ⟨rfl, file, ptr, hpc⟩ := counted_of_reached hstep hb
      have hcounted : s.ops[i]? = some ⟨o.write, .counted file ptr⟩ := by rw [ho, ← hpc]
      simp only [Ok, hcounted] at hok
      exact (hok a ha hk).trans (List.sublist_append_left _ _)

/-- When all operations have returned, those with a record are those with a row. -/
theorem Inv.mem_iff (hi : Inv s) (hacked : ∀ o ∈ s.ops, o.pc.IsAcked) (e : Nat × Write) :
    e ∈ s.applied ↔ e ∈ s.log := by
  obtain ⟨i, w⟩ := e
  rw [hi.applied.mem, hi.log.mem]
  refine exists_congr fun pc => and_congr_right fun ho => ?_
  rcases hacked _ (List.mem_of_getElem? ho) with hpc | ⟨file, hpc⟩
  · rw [show pc = .omitted from hpc]
    exact Iff.rfl
  · rw [show pc = .acked file from hpc]
    exact Iff.rfl

end

theorem isAcked_of_replicate {ops : List Call} {n : Nat} {file : FileId}
    (h : ops.map Call.pc = List.replicate n (.acked file)) : ∀ o ∈ ops, o.pc.IsAcked :=
  fun _ ho => .inr ⟨file, List.eq_of_mem_replicate (h ▸ List.mem_map_of_mem ho)⟩

/-- **Once every operation has returned, the log replays to memory** in every run that `Ok` allows. -/
theorem replays_of_reachableBy {s : State} (h : system.ReachableBy Ok s)
    (hacked : ∀ o ∈ s.ops, o.pc.IsAcked) : Replays s.system := by
  have hi : Inv s := h.invariant (fun _ => inv_init) fun _ _ _ hi hok hs => inv_step hi hok hs
  let ws := s.log.map Prod.snd
  have hwal : s.system.disk.wal s.system.walWriter = some (ws.map Write.record) := by
    rw [hi.wal, List.map_map]
    rfl
  refine ⟨_, _, replay ws, by rw [readWal, hwal], apply_records ws .empty, fun k => ?_⟩
  have hlast := findLast_eq_of_sublist (κ := Write.key ∘ Prod.snd) hi.log.nodup (hi.mem_iff hacked) hi.order k
  rw [find_replay, hi.memory, lastValue, lastValue, findLast_map, findLast_map, hlast]

theorem fresh_new : Fresh .new where
  wf := SwappableMemoryStorage.wf_ofMap _
  memory := SwappableMemoryStorage.find_new
  wal := rfl

/-- Two operations on one key that overlap and keep their order. -/
def orderedRun : List Label :=
  .begin (.insert ⟨[97], [1], 1⟩) :: .begin (.remove [97] 2) :: List.replicate 7 (.op 0) ++
    List.replicate 9 (.op 1) ++ List.replicate 5 (.op 0) ++ List.replicate 3 (.op 1)

theorem replays_orderedRun : ∃ s, exec step ⟨.new, [], [], []⟩ orderedRun = some s ∧ Replays s.system := by
  obtain ⟨s, hs⟩ : ∃ s, execBy Ok step ⟨.new, [], [], []⟩ orderedRun = some s :=
    Option.isSome_iff_exists.1 (by decide +kernel)
  obtain ⟨hexec, hreach⟩ : _ ∧ system.ReachableBy Ok s := reachableBy_execBy (.init ⟨.new, fresh_new, rfl⟩) hs
  have hops : s.ops.map Call.pc = List.replicate 2 (.acked 0) :=
    eq_of_map_exec hexec (f := fun s => s.ops.map Call.pc) (by decide +kernel)
  exact ⟨s, hexec, replays_of_reachableBy hreach (isAcked_of_replicate hops)⟩

/-- Two operations on one key: the first to have its record is the last to write its row. -/
def crossedRun : List Label :=
  .begin (.insert ⟨[97], [1], 1⟩) :: .begin (.insert ⟨[97], [2], 2⟩) :: List.replicate 7 (.op 0) ++
    List.replicate 12 (.op 1) ++ List.replicate 5 (.op 0)

/-- The log ends with version 2, memory holds version 1. -/
theorem not_replays : ¬ ∀ s, system.Reachable s → (∀ o ∈ s.ops, o.pc.IsAcked) → Replays s.system := by
  intro hall
  obtain ⟨s, hs⟩ : ∃ s, exec step ⟨.new, [], [], []⟩ crossedRun = some s :=
    Option.isSome_iff_exists.1 (by decide +kernel)
  have hops : s.ops.map Call.pc = List.replicate 2 (.acked 0) :=
    eq_of_map_exec hs (f := fun s => s.ops.map Call.pc) (by decide +kernel)
  have hwal : s.system.disk.wal s.system.walWriter = some [.insert [97] [1] 1, .insert [97] [2] 2] :=
    eq_of_map_exec hs (f := fun s => s.system.disk.wal s.system.walWriter) (by decide +kernel)
  have hmem : s.system.storage.find [97] = some ⟨some [1], 1⟩ :=
    eq_of_map_exec hs (f := fun s => s.system.storage.find [97]) (by decide +kernel)
  obtain ⟨operations, n, storage, hread, happly, hfind⟩ :=
    hall s (reachable_exec (.init ⟨.new, fresh_new, rfl⟩) hs) (isAcked_of_replicate hops)
  rw [readWal, hwal] at hread
  cases hread
  cases happly
  have hlast := hfind [97]
  rw [hmem] at hlast
  exact absurd hlast (by decide)

end WalReplay

end Iu9Db
