import Iu9Db.StorageSystem
import Iu9Db.Lib.Transition

/-!
# The version check and the write of an operation

`Insert` and `Remove` look their key up, check the version of what is there, and suspend before they
write to memory: at the strand of the collection if memory has no row, and at the strand of the WAL.
Between two suspension points an operation runs alone (`segments_exec`: without others in between it
does what `exec` does). Another one on the same key may write in the meantime, and then the check was
made against an entry that is not there any more, unless operations on one key take turns
(`unchanged_of_reachableBy`).
-/

namespace Iu9Db

open StorageSystem Transition

namespace VersionCheck

/-- Where an operation is suspended. -/
inductive Pc
  | begun
  | persistentStrand
  | persistentRead (persistentOpt : Result StorageEntry)
  | walStrand
  | walWritten (res : Result Unit)
  | returned (res : Result Unit)
deriving DecidableEq

/-- The call on the memory storage at the end of `Insert` and `Remove`. -/
def store : Write → SwappableMemoryStorage → SwappableMemoryStorage
  | .insert kwPair, storage => storage.insert kwPair
  | .remove key version, storage => storage.remove key version

/-- The check of the version, up to the strand of the WAL. -/
def check (w : Write) (oldOpt : Result ValueDTO) : Pc :=
  if omits w.version oldOpt then .returned (.ok ()) else .walStrand

/-- What `Insert` or `Remove` does until it is suspended again; `isOk` is the outcome of the serialisation. -/
def segment (isOk : Bool) (w : Write) : Pc → StorageSystem → Option (Pc × StorageSystem)
  | .begun, s =>
    match s.storage.get w.key with
    | .ok res => some (check w (fromMemory w.key res), s)
    | .error _ => some (.persistentStrand, s)
  | .persistentStrand, s => some (.persistentRead (s.persistentStorage.get w.key), s)
  | .persistentRead persistentOpt, s => some (check w (fromDisk w.key persistentOpt), s)
  | .walStrand, s =>
    let (res, d) := writeEntry isOk s.walWriter w.record s.disk
    some (.walWritten res, { s with disk := d })
  | .walWritten (.error e), s => some (.returned (.error e), s)
  | .walWritten (.ok _), s => some (.returned (.ok ()), { s with storage := store w s.storage })
  | .returned _, _ => none

/-- Between its look-up and its memory write. -/
def Pc.Pending : Pc → Prop
  | persistentStrand | persistentRead _ | walStrand | walWritten (.ok _) => True
  | begun | walWritten (.error _) | returned _ => False

/-- `looked`: how many memory writes there were when the operation looked its key up. `seen`: what was
stored under the key then. -/
structure Operation where
  write : Write
  pc : Pc
  looked : Nat
  seen : Option Value
deriving DecidableEq

/-- The engine, the operations, and the memory writes in the order in which they were made. -/
structure State where
  system : StorageSystem
  ops : List Operation
  written : List Write

inductive Label
  | begin (w : Write)
  | op (i : Nat) (isOk : Bool)

/-- The operation after a segment. -/
def Operation.after (o : Operation) (pc : Pc) (s : State) : Operation :=
  match o.pc with
  | .begun => ⟨o.write, pc, s.written.length, s.system.entry o.write.key⟩
  | _ => { o with pc := pc }

/-- The memory write of a segment. -/
def Operation.writes (o : Operation) : List Write :=
  match o.pc with
  | .walWritten (.ok _) => [o.write]
  | _ => []

def step (s : State) : Label → Option State
  | .begin w => some { s with ops := s.ops ++ [⟨w, .begun, 0, none⟩] }
  | .op i isOk => (s.ops[i]?).bind fun o => (segment isOk o.write o.pc s.system).map fun next =>
    ⟨next.2, s.ops.set i (o.after next.1 s), s.written ++ o.writes⟩

/-- Any engine, and no operation under way. -/
def init (s : State) : Prop := s.system.storage.Wf ∧ s.ops = [] ∧ s.written = []

def system : System State Label := ofFun init step

/-- An operation that is about to write to memory finds the entry that it checked: nothing was written
under its key since it looked. -/
structure Unchanged (s : State) : Prop where
  written : ∀ (i : Nat) (o : Operation), s.ops[i]? = some o → o.pc = .walWritten (.ok ()) →
    ∀ w ∈ s.written.drop o.looked, w.key ≠ o.write.key
  entry : ∀ (i : Nat) (o : Operation), s.ops[i]? = some o → o.pc = .walWritten (.ok ()) →
    s.system.entry o.write.key = o.seen

/-- An operation looks its key up when no other operation on the key is between its look-up and its
memory write. -/
def Ok (s : State) : Label → Prop
  | .begin _ => True
  | .op i _ => ∀ o : Operation, s.ops[i]? = some o → o.pc = .begun →
    ∀ (j : Nat) (o' : Operation), j ≠ i → s.ops[j]? = some o' → o'.write.key = o.write.key → ¬ o'.pc.Pending

/-! ### One operation alone -/

section
variable {isOk : Bool} {w : Write} {pc pc' : Pc} {s s' : StorageSystem}

abbrev Segments (isOk : Bool) (w : Write) : Pc × StorageSystem → Pc × StorageSystem → Prop :=
  Relation.ReflTransGen fun a b => segment isOk w a.1 a.2 = some b

theorem store_eq (w : Write) (storage : SwappableMemoryStorage) :
    store w storage =
    storage.setTable storage.writerTable (w.applyTo (storage.tables storage.writerTable)) := by
  cases w with
  | insert kwPair => exact SwappableMemoryStorage.insert_eq kwPair
  | remove key version => exact SwappableMemoryStorage.remove_eq version

theorem segments_check (oldOpt : Result ValueDTO) (hget : s.get w.key = oldOpt) :
    Segments isOk w (check w oldOpt, s) (.returned (exec isOk w s).1, (exec isOk w s).2) := by
  subst hget
  unfold check
  rcases exec_cases isOk w s with ⟨ho, he⟩ | ⟨ho, rfl, e, he⟩ | ⟨ho, rfl, he⟩
  · rw [he, if_pos ho]
  · rw [he, ho]
    have herror : StorageSystem.exec false w s = (.error (makeError (text "failed to write log entry")),
      s) := by
      cases w with
      | insert kwPair =>
        have ho : omits kwPair.version (s.get kwPair.key) = false := ho
        simp [StorageSystem.exec, StorageSystem.insert, ho, writeEntry]
      | remove key version =>
        have ho : omits version (s.get key) = false := ho
        simp [StorageSystem.exec, StorageSystem.remove, ho, writeEntry]
    rw [he] at herror
    cases herror
    exact .head rfl (.single rfl)
  · rw [he, ho, ← store_eq]
    exact .head rfl (.single rfl)

/-- **Without others in between an operation does what `exec` does.** -/
theorem segments_exec (isOk : Bool) (w : Write) (s : StorageSystem) :
    Segments isOk w (.begun, s) (.returned (exec isOk w s).1, (exec isOk w s).2) := by
  cases hget : s.storage.get w.key with
  | ok res =>
    refine .head (b := (check w (fromMemory w.key res), s)) (by simp only [segment, hget])
      (segments_check _ ?_)
    rw [StorageSystem.get, hget]
  | error e =>
    refine .head (b := (.persistentStrand, s)) (by simp only [segment, hget])
      (.head rfl (.head rfl (segments_check _ ?_)))
    rw [StorageSystem.get, hget]

/-- What a segment does: it looks the key up, goes on and leaves what is stored alone, or writes to memory. -/
theorem segment_cases (h : segment isOk w pc s = some (pc', s')) :
    (pc = .begun ∧ s' = s) ∨
    (pc ≠ .begun ∧ pc ≠ .walWritten (.ok ()) ∧ (pc'.Pending → pc.Pending) ∧ s'.storage = s.storage ∧
      s'.persistentStorage = s.persistentStorage) ∨
    (pc = .walWritten (.ok ()) ∧ pc' = .returned (.ok ()) ∧
      s' = { s with storage := store w s.storage }) := by
  cases pc with
  | begun =>
    simp only [segment] at h
    split at h <;> cases h
    · exact .inl ⟨rfl, rfl⟩
    · exact .inl ⟨rfl, rfl⟩
  | persistentStrand =>
    cases h
    exact .inr (.inl ⟨by simp, by simp, fun _ => trivial, rfl, rfl⟩)
  | persistentRead persistentOpt =>
    cases h
    exact .inr (.inl ⟨by simp, by simp, fun _ => trivial, rfl, rfl⟩)
  | walStrand =>
    cases h
    exact .inr (.inl ⟨by simp, by simp, fun _ => trivial, rfl, rfl⟩)
  | walWritten res =>
    cases res with
    | error e =>
      cases h
      exact .inr (.inl ⟨by simp, by simp, fun hp => hp.elim, rfl, rfl⟩)
    | ok u =>
      cases h
      exact .inr (.inr ⟨rfl, rfl, rfl⟩)
  | returned res => cases h

theorem entry_store (hwf : s.storage.Wf) {k : Str} (hk : k ≠ w.key) :
    StorageSystem.entry { s with storage := store w s.storage } k = s.entry k := by
  unfold StorageSystem.entry
  show ((store w s.storage).find k).or _ = _
  rw [store_eq, hwf.find_write (f := w.applyTo) (fun table k => Write.find_applyTo w table k), if_neg hk]

end

/-! ### Operations that take turns -/

/-- Between its look-up and its memory write an operation is the only one on its key, and nothing has
been written under the key. -/
structure Inv (s : State) : Prop where
  wf : s.system.storage.Wf
  looked : ∀ (i : Nat) (o : Operation), s.ops[i]? = some o → o.pc.Pending →
    (∀ w ∈ s.written.drop o.looked, w.key ≠ o.write.key) ∧ o.looked ≤ s.written.length
  seen : ∀ (i : Nat) (o : Operation), s.ops[i]? = some o → o.pc.Pending → s.system.entry o.write.key = o.seen
  alone : ∀ (i j : Nat) (o o' : Operation), i ≠ j → s.ops[i]? = some o → s.ops[j]? = some o' → o.pc.Pending →
    o'.pc.Pending → o.write.key ≠ o'.write.key

section
variable {s s' : State} {a : Label} {i j : Nat} {o o' : Operation} {isOk : Bool}

theorem inv_init (h : init s) : Inv s := by
  obtain ⟨hwf, hops, hwritten⟩ := h
  refine ⟨hwf, fun i o ho => ?_, fun i o ho => ?_, fun i j o o' _ ho => ?_⟩ <;> rw [hops] at ho <;> cases ho

theorem getElem?_begin {w : Write} (h : (s.ops ++ [(⟨w, .begun, 0, none⟩ : Operation)])[i]? = some o)
    (hp : o.pc.Pending) : s.ops[i]? = some o := by
  rcases lt_or_ge i s.ops.length with hi | hi
  · rwa [List.getElem?_append_left hi] at h
  · rw [List.getElem?_append_right hi, List.getElem?_singleton] at h
    split at h <;> cases h
    exact hp.elim

theorem Inv.begin (h : Inv s) (w : Write) : Inv { s with ops := s.ops ++ [⟨w, .begun, 0, none⟩] } := by
  refine ⟨h.wf, fun i o ho hp => ?_, fun i o ho hp => ?_, fun i j o o' hne ho ho' hp hp' => ?_⟩
  · exact h.looked i o (getElem?_begin ho hp) hp
  · exact h.seen i o (getElem?_begin ho hp) hp
  · exact h.alone i j o o' hne (getElem?_begin ho hp) (getElem?_begin ho' hp') hp hp'

theorem getElem?_set (h : (s.ops.set i o')[j]? = some o) : j = i ∧ o = o' ∨ j ≠ i ∧ s.ops[j]? = some o := by
  by_cases hj : j = i
  · subst hj
    obtain ⟨hlt, -⟩ := List.getElem?_eq_some_iff.1 h
    rw [List.length_set] at hlt
    rw [List.getElem?_set_self hlt] at h
    exact .inl ⟨rfl, (Option.some.inj h).symm⟩
  · rw [List.getElem?_set_ne (Ne.symm hj)] at h
    exact .inr ⟨hj, h⟩

theorem Inv.look (h : Inv s) (hturn : ∀ (j : Nat) (o' : Operation), j ≠ i → s.ops[j]? = some o' →
    o'.write.key = o.write.key → ¬ o'.pc.Pending) (pc : Pc) :
    Inv { s with ops := s.ops.set i ⟨o.write, pc, s.written.length, s.system.entry o.write.key⟩ } := by
  refine ⟨h.wf, fun j o₁ ho hp => ?_, fun j o₁ ho hp => ?_, fun j k o₁ o₂ hne ho ho' hp hp' => ?_⟩
  · rcases getElem?_set ho with ⟨rfl, rfl⟩ | ⟨-, ho⟩
    · refine ⟨fun w hw => ?_, le_rfl⟩
      rw [List.drop_length] at hw
      cases hw
    · exact h.looked j o₁ ho hp
  · rcases getElem?_set ho with ⟨rfl, rfl⟩ | ⟨-, ho⟩
    · rfl
    · exact h.seen j o₁ ho hp
  · rcases getElem?_set ho with ⟨rfl, rfl⟩ | ⟨hj, hoj⟩
    · rcases getElem?_set ho' with ⟨rfl, -⟩ | ⟨hk, hok⟩
      · exact absurd rfl hne
      · exact fun hkey => hturn k o₂ hk hok hkey.symm hp'
    · rcases getElem?_set ho' with ⟨rfl, rfl⟩ | ⟨-, hok⟩
      · exact fun hkey => hturn j o₁ hj hoj hkey hp
      · exact h.alone j k o₁ o₂ hne hoj hok hp hp'

theorem Inv.goOn (h : Inv s) (ho : s.ops[i]? = some o) {pc : Pc} (hpc : pc.Pending → o.pc.Pending)
    {sys : StorageSystem} (hstorage : sys.storage = s.system.storage)
    (hpersistent : sys.persistentStorage = s.system.persistentStorage) :
    Inv ⟨sys, s.ops.set i { o with pc := pc }, s.written⟩ := by
  have hentry (k : Str) : sys.entry k = s.system.entry k := by
    rw [StorageSystem.entry, StorageSystem.entry, hstorage, hpersistent]
  have hold {j : Nat} {o₁ : Operation} (h₁ : (s.ops.set i { o with pc := pc })[j]? = some o₁)
    (hp : o₁.pc.Pending) :
      ∃ o₂ : Operation, s.ops[j]? = some o₂ ∧ o₂.pc.Pending ∧ o₂.write = o₁.write ∧ o₂.looked = o₁.looked ∧
        o₂.seen = o₁.seen := by
    rcases getElem?_set h₁ with ⟨rfl, rfl⟩ | ⟨-, h₁⟩
    · exact ⟨o, ho, hpc hp, rfl, rfl, rfl⟩
    · exact ⟨o₁, h₁, hp, rfl, rfl, rfl⟩
  refine ⟨by rw [hstorage]; exact h.wf, fun j o₁ h₁ hp => ?_, fun j o₁ h₁ hp => ?_,
    fun j k o₁ o₁' hne h₁ h₁' hp hp' => ?_⟩
  · obtain ⟨o₂, h₂, hp₂, hw, hl, -⟩ := hold h₁ hp
    rw [← hw, ← hl]
    exact h.looked j o₂ h₂ hp₂
  · obtain ⟨o₂, h₂, hp₂, hw, -, hs⟩ := hold h₁ hp
    rw [← hw, ← hs, hentry]
    exact h.seen j o₂ h₂ hp₂
  · obtain ⟨o₂, h₂, hp₂, hw, -⟩ := hold h₁ hp
    obtain ⟨o₂', h₂', hp₂', hw', -⟩ := hold h₁' hp'
    rw [← hw, ← hw']
    exact h.alone j k o₂ o₂' hne h₂ h₂' hp₂ hp₂'

theorem Inv.write (h : Inv s) (ho : s.ops[i]? = some o) (hpc : o.pc = .walWritten (.ok ())) :
    Inv ⟨{ s.system with storage := store o.write s.system.storage },
      s.ops.set i { o with pc := .returned (.ok ()) }, s.written ++ [o.write]⟩ := by
  have hpending : o.pc.Pending := by
    rw [hpc]
    trivial
  have hother {j : Nat} {o₁ : Operation}
      (h₁ : (s.ops.set i { o with pc := .returned (.ok ()) })[j]? = some o₁)
      (hp : o₁.pc.Pending) : s.ops[j]? = some o₁ ∧ o₁.write.key ≠ o.write.key := by
    rcases getElem?_set h₁ with ⟨-, rfl⟩ | ⟨hj, h₁⟩
    · exact hp.elim
    · exact ⟨h₁, h.alone j i o₁ o hj h₁ ho hp hpending⟩
  refine ⟨?_, fun j o₁ h₁ hp => ?_, fun j o₁ h₁ hp => ?_, fun j k o₁ o₂ hne h₁ h₂ hp hp' => ?_⟩
  · show (store o.write s.system.storage).Wf
    rw [store_eq]
    exact h.wf.setTable_writerTable _
  · obtain ⟨h₁, hkey⟩ := hother h₁ hp
    obtain ⟨hdrop, hle⟩ := h.looked j o₁ h₁ hp
    refine ⟨fun w hw => ?_, by rw [List.length_append]; exact Nat.le_add_right_of_le hle⟩
    rw [List.drop_append_of_le_length hle, List.mem_append, List.mem_singleton] at hw
    rcases hw with hw | rfl
    · exact hdrop w hw
    · exact hkey.symm
  · obtain ⟨h₁, hkey⟩ := hother h₁ hp
    rw [entry_store h.wf hkey]
    exact h.seen j o₁ h₁ hp
  · exact h.alone j k o₁ o₂ hne (hother h₁ hp).1 (hother h₂ hp').1 hp hp'

theorem step_op (hs : step s (.op i isOk) = some s') : ∃ o pc sys, s.ops[i]? = some o ∧
    segment isOk o.write o.pc s.system = some (pc, sys) ∧
    s' = ⟨sys, s.ops.set i (o.after pc s), s.written ++ o.writes⟩ := by
  obtain ⟨o, ho, hs⟩ := Option.bind_eq_some_iff.1 hs
  obtain ⟨⟨pc, sys⟩, hseg, rfl⟩ := Option.map_eq_some_iff.1 hs
  exact ⟨o, pc, sys, ho, hseg, rfl⟩

theorem after_of_ne {pc : Pc} (hpc : o.pc ≠ .begun) : o.after pc s = { o with pc := pc } := by
  unfold Operation.after
  split
  · exact absurd ‹_› hpc
  · rfl

theorem writes_of_ne (hpc : o.pc ≠ .walWritten (.ok ())) : o.writes = [] := by
  unfold Operation.writes
  split
  · exact absurd ‹_› hpc
  · rfl

theorem inv_step (h : Inv s) (hok : Ok s a) (hs : step s a = some s') : Inv s' := by
  cases a with
  | begin w =>
    cases hs
    exact h.begin w
  | op i isOk =>
    obtain ⟨o, pc, sys, ho, hseg, rfl⟩ := step_op hs
    rcases segment_cases hseg with ⟨hpc, rfl⟩ | ⟨hne, hne', hpending, hstorage, hpersistent⟩ | ⟨hpc, rfl, rfl⟩
    · rw [writes_of_ne (by rw [hpc]; exact fun he => (by cases he)), List.append_nil, Operation.after, hpc]
      exact h.look (hok o ho hpc) pc
    · rw [after_of_ne hne, writes_of_ne hne', List.append_nil]
      exact h.goOn ho hpending hstorage hpersistent
    · rw [after_of_ne (by rw [hpc]; exact fun he => (by cases he)), Operation.writes, hpc]
      exact h.write ho hpc

theorem inv_of_reachableBy (h : system.ReachableBy Ok s) : Inv s :=
  h.invariant (fun _ hs => inv_init hs) fun _ _ _ hinv hok hs => inv_step hinv hok hs

end

/-- **Where operations on one key take turns, the entry that is checked is the entry that is overwritten.** -/
theorem unchanged_of_reachableBy {s : State} (h : system.ReachableBy Ok s) : Unchanged s := by
  have hinv := inv_of_reachableBy h
  have hpending {o : Operation} (hpc : o.pc = .walWritten (.ok ())) : o.pc.Pending := by
    rw [hpc]
    trivial
  exact ⟨fun i o ho hpc => (hinv.looked i o ho (hpending hpc)).1, fun i o ho hpc => hinv.seen i o ho
    (hpending hpc)⟩

/-- No operation has looked after a memory write that is still to come. -/
theorem looked_le_of_reachable {s : State} (h : system.Reachable s) {i : Nat} {o : Operation}
    (ho : s.ops[i]? = some o) : o.looked ≤ s.written.length := by
  refine h.invariant (I := fun s => ∀ (i : Nat) (o : Operation), s.ops[i]? = some o →
    o.looked ≤ s.written.length) ?_ ?_ i o ho
  · rintro s ⟨-, hops, -⟩ i o ho
    rw [hops] at ho
    cases ho
  · intro s a s' hle _ hs i o ho
    cases a with
    | begin w =>
      cases hs
      rcases lt_or_ge i s.ops.length with hi | hi
      · rw [List.getElem?_append_left hi] at ho
        exact hle i o ho
      · rw [List.getElem?_append_right hi, List.getElem?_singleton] at ho
        split at ho <;> cases ho
        exact Nat.zero_le _
    | op j isOk =>
      obtain ⟨o₁, pc, sys, ho₁, -, rfl⟩ := step_op hs
      show o.looked ≤ (s.written ++ o₁.writes).length
      rw [List.length_append]
      rcases getElem?_set ho with ⟨-, rfl⟩ | ⟨-, ho⟩
      · have hold := hle j o₁ ho₁
        unfold Operation.after
        split
        · exact Nat.le_add_right _ _
        · exact hold.trans (Nat.le_add_right _ _)
      · exact (hle i o ho).trans (Nat.le_add_right _ _)

/-- Two operations on one key that both get to their memory write: the one that is second finds
another entry. -/
theorem not_unchanged_of_overlap {s s' : State} (h : system.Reachable s) {i j : Nat} {o o' : Operation}
    {isOk : Bool} (hne : i ≠ j) (ho : s.ops[i]? = some o) (ho' : s.ops[j]? = some o')
    (hkey : o'.write.key = o.write.key)
    (hpc : o.pc = .walWritten (.ok ())) (hpc' : o'.pc = .walWritten (.ok ()))
    (hs : step s (.op j isOk) = some s') : ¬ Unchanged s' := by
  intro hunchanged
  have hle := looked_le_of_reachable h ho
  obtain ⟨o₁, pc, sys, ho₁, -, rfl⟩ := step_op hs
  obtain rfl : o' = o₁ := Option.some.inj (ho'.symm.trans ho₁)
  have hi : (s.ops.set j (o'.after pc s))[i]? = some o := by
    rw [List.getElem?_set_ne (Ne.symm hne)]
    exact ho
  have hwrites : o'.writes = [o'.write] := by rw [Operation.writes, hpc']
  refine hunchanged.written i o hi hpc o'.write ?_ hkey
  show o'.write ∈ (s.written ++ o'.writes).drop o.looked
  rw [hwrites, List.drop_append_of_le_length hle]
  exact List.mem_append_right _ List.mem_cons_self

instance decidablePending : ∀ pc : Pc, Decidable pc.Pending
  | .persistentStrand | .persistentRead _ | .walStrand | .walWritten (.ok _) => isTrue trivial
  | .begun | .walWritten (.error _) | .returned _ => isFalse id

instance decidableOk : ∀ s a, Decidable (Ok s a)
  | _, .begin _ => isTrue trivial
  | s, .op i _ => decidable_of_iff (∀ o ∈ s.ops[i]?, o.pc = .begun →
      ∀ p ∈ s.ops.zipIdx, p.2 ≠ i → p.1.write.key = o.write.key → ¬ p.1.pc.Pending) <| by
    simp only [Ok, Option.mem_def, Prod.forall, List.mem_zipIdx_iff_getElem?]
    constructor
    · exact fun h o ho hpc j o' hj ho' => h o ho hpc o' j ho' hj
    · exact fun h o ho hpc o' j ho' hj => h o ho hpc j o' hj ho'

/-- Two inserts of one key, the second of them with an older version. -/
def newer : Write := .insert ⟨[97], [2], 2⟩
def older : Write := .insert ⟨[97], [1], 1⟩

/-- The first insert runs to its end, and then the second up to its memory write. -/
def turnsRun : List Label :=
  [.begin newer, .begin older] ++ List.replicate 5 (.op 0 true) ++ [.op 1 true, .op 1 true]

/-- Both look the key up and go on in step. -/
def overlapRun : List Label :=
  [.begin newer, .begin older] ++ (List.replicate 4 [.op 0 true, .op 1 true]).flatten ++ [.op 0 true]

theorem unchanged_turnsRun : ∃ s, s.ops.map Operation.pc = [.returned (.ok ()), .walWritten (.ok ())] ∧
    system.ReachableBy Ok s ∧ Unchanged s := by
  have hstart : system.ReachableBy Ok ⟨.new, [], []⟩ := .init ⟨StorageSystem.wf_new.storage, rfl, rfl⟩
  obtain ⟨s, hs⟩ : ∃ s, execBy Ok step ⟨.new, [], []⟩ turnsRun = some s :=
    Option.isSome_iff_exists.1 (by decide +kernel)
  obtain ⟨hexec, hreach⟩ := reachableBy_execBy hstart hs
  exact ⟨s, eq_of_map_exec hexec (f := fun s => s.ops.map Operation.pc) (by decide +kernel), hreach,
    unchanged_of_reachableBy hreach⟩

/-- The older version is about to overwrite the newer one, which its check has not seen. -/
theorem not_unchanged : ¬ ∀ s, system.Reachable s → Unchanged s := by
  intro hall
  obtain ⟨s, hs⟩ : ∃ s, exec step ⟨.new, [], []⟩ overlapRun = some s :=
    Option.isSome_iff_exists.1 (by decide +kernel)
  have hreach : system.Reachable s := reachable_exec (.init ⟨StorageSystem.wf_new.storage, rfl, rfl⟩) hs
  have hops : s.ops[1]? = some ⟨older, .walWritten (.ok ()), 0, none⟩ :=
    eq_of_map_exec hs (f := fun s => s.ops[1]?) (by decide +kernel)
  have hwritten : s.written = [newer] := eq_of_map_exec hs (f := fun s => s.written) (by decide +kernel)
  have hkey := (hall s hreach).written 1 _ hops rfl newer (by rw [hwritten]; exact List.mem_cons_self)
  exact hkey rfl

end VersionCheck

end Iu9Db
