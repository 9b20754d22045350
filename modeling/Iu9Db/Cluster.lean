import Iu9Db.ApiBytes
import Iu9Db.ConcurrentSwap
import Iu9Db.RecoveryCrash
import Iu9Db.StoredEntries
import Iu9Db.WalFile

/-!
# Where the values of a cluster come from

Any number of nodes, with any number of calls at each, the jobs of a node, its crashes and its recoveries,
statement by statement; a `Get` stores what the best reply of the other nodes has. A node may answer with a
value that is not the last one, but not with one that no client has stored under the key
(`comesFromClients_of_reachableBy`), unless a node sends on what nobody asked for, or a recovery takes for an
operation what a record that is cut off has left: `Ok`. A value may lose its version, since `Get` reports what
memory has under version zero.
-/

namespace Iu9Db

open Keyed StorageSystem Transition Wire

namespace Cluster

/-! ### Nodes -/

/-- What a node is asked for: an operation of `StorageSystem`, the local part of `Controller::Get` behind
`GetNewestFromReplicas`, or the operation with which it stores a reply. -/
inductive Task
  | write (w : Write)
  | get (key : Str) (gotReplicas : Result ValueDTO)
  | repair (key : Str) (value : ValueDTO)

/-- The statements of `Get` are the first ones of an operation, and do not look at what it is. -/
def Task.operation : Task → Write
  | write w => w
  | get key _ => .remove key 0
  | repair key value => .insert ⟨key, value.value, value.version⟩

structure Call where
  task : Task
  pc : OpPc

/-- A node that runs, one that recovers, and the directory of one that does neither. -/
inductive Node
  | up (system : StorageSystem) (io : SwapJobIO) (job : SwapJob) (calls : List Call)
  | recovering (threshold : Nat) (r : RecoveryCrash.State)
  | down (d : Disk)

/-- A file that is being written when a node stops, and the disk without it. -/
inductive Writing
  | table (path : FileId) (data : List StorageEntry) (d : Disk)
  | metadata (file : MetadataFile) (paths : List FileId) (d : Disk)

/-- What `AppendMetadata` writes: the names of the main file and a new one. -/
def listing (d : Disk) (storage : PersistentStorage) : List FileId :=
  (d.metadata .main).getD [] ++ [storage.path]

def Node.writing : Node → Option Writing
  | up system _ (.collected _ data) _ => some (.table system.disk.nextFile data system.disk.takeName)
  | up system _ (.created _ persistent) _ =>
    some (.metadata .main (listing system.disk persistent) system.disk)
  | up system _ .walRemoved _ =>
    (mergeEntries system.persistentStorage.collection).map fun data =>
      .table system.disk.nextFile data system.disk.takeName
  | up system _ (.merged newStorage) _ => some (.metadata .new (listing system.disk newStorage) system.disk)
  | recovering _ ⟨.writing _ path data, _, _, d⟩ => some (.table path data d)
  | recovering _ ⟨.written _ storage, _, _, d⟩ => some (.metadata .main (listing d storage) d)
  | _ => none

def Node.disk : Node → Disk
  | up system _ _ _ => system.disk
  | recovering _ r => r.disk
  | down d => d

/-- What is on the disk when a node stops. A file that is being written may be there already: with some of its
records or names, or so that its reader rejects it. -/
def Node.crash (node : Node) : Option (Option Nat) → Disk
  | none => node.disk
  | some left =>
    match node.writing with
    | none => node.disk
    | some (.table path data d) => d.setData path (left.map fun n => (data.insertionSort (· ≤ ·)).take n)
    | some (.metadata file paths d) => d.setMetadata file (left.map fun n => paths.take n)

/-! ### What stands behind the records of a WAL file -/

/-- The records with an operation that the bytes begin with. -/
def operationsOf (tail : Bytes) : List WalEntry :=
  (WalEntry.record.readAll tail).1.filter fun entry => entry.toOperation.isSome

/-- The disk as `ReadWAL` finds it: what it takes for operations behind the complete records of a file
it goes past, and the next record is written behind that. -/
def readTails (tails : FileId → Bytes) (files : List FileId) (d : Disk) : Disk :=
  { d with wal := fun file =>
    if file ∈ files then (d.wal file).map fun entries => entries ++ operationsOf (tails file)
    else d.wal file }

/-- **Complete records with something behind them are read as the bytes of the file are.** -/
theorem readWal_readTails {tails : FileId → Bytes} {files : List FileId} {d : Disk} {file : FileId}
    {entries : List WalEntry} (hfile : file ∈ files) (hwal : d.wal file = some entries)
    (hfits : ∀ entry ∈ entries, WalEntry.record.Fits entry) :
    ((readWal file (readTails tails files d)).toOption.map Prod.fst) =
      some (WalFile.readWAL (WalEntry.record.encodeAll entries ++ tails file)).1 := by
  have hfound : (readTails tails files d).wal file = some (entries ++ operationsOf (tails file)) := by
    show (if file ∈ files then _ else _) = _
    rw [if_pos hfile, hwal]
    rfl
  have hskip : (operationsOf (tails file)).filterMap WalEntry.toOperation =
      (WalEntry.record.readAll (tails file)).1.filterMap WalEntry.toOperation := by
    rw [operationsOf, List.filterMap_filter]
    refine List.filterMap_congr fun entry _ => ?_
    cases entry.toOperation <;> rfl
  unfold readWal
  rw [hfound, WalFile.readWAL_eq, Delimited.Codec.readAll_append hfits]
  show some ((entries ++ operationsOf (tails file)).filterMap WalEntry.toOperation) = _
  rw [List.filterMap_append, List.filterMap_append, hskip]

/-! ### The cluster -/

/-- `tails` is what stands behind the complete records of a WAL file. `requested` has what clients
have asked to store, under the version that it got; `replies` what `Get` was answered with, by any
node to anyone. -/
structure State where
  node : Str → Node
  tails : Str → FileId → Bytes
  requested : List Write
  replies : List (Str × GetReply)

/-- `request` is a write of a client. `forward` is one that a node sends on: the loops of
`Replication` refer to data that `Insert` moves away meanwhile, so that it can be any. `attempts` are
the results of the requests that `ReplicaClient::Get` makes to each of the other nodes. Of a record
that does not get to its file whole, `tear` leaves bytes there; then the write fails, or it is lost at
the flush, whose result `WriteEntry` does not look at, or the node stops. -/
inductive Label
  | request (w : Write)
  | forward (w : Write)
  | get (key : Str) (attempts : Result (List (List (Result GetReply))))
  | statement (i : Nat)
  | tear (i : Nat) (bytes : Bytes)
  | logFails (i : Nat)
  | logLost (i : Nat)
  | finish (i : Nat)
  | startJob (io : SwapJobIO)
  | job
  | crash (left : Option (Option Nat))
  | recover (threshold : Nat) (files : List FileId)
  | recovery
  | start (io : RecoveryIO) (threshold : Nat)

/-- The WAL files that a start reads. -/
def Label.searched : Label → List FileId
  | recover _ files => files
  | start io _ => io.search.toOption.getD []
  | _ => []

/-- The replies among the attempts are replies to requests for the key. -/
def heard (replies : List (Str × GetReply)) (key : Str) : Result (List (List (Result GetReply))) → Bool
  | .error _ => true
  | .ok nodes => nodes.all fun attempts => attempts.all fun
    | .ok reply => decide ((key, reply) ∈ replies)
    | .error _ => true

/-- What `ReplicaClient::Get` returns for each node. -/
def outcomes (attempts : Result (List (List (Result GetReply)))) : Result (List (Result ValueDTO)) :=
  attempts.map fun nodes => nodes.map fun results =>
    ReplicaClient.get fun i => results.getD i (.error (failedRequest [] []))

/-- `GetHandler` answers. -/
def State.reply (s : State) (key : Str) (got : Result ValueDTO) : State :=
  match getReply got with
  | .ok reply => { s with replies := s.replies ++ [(key, reply)] }
  | .error _ => s

/-- The end of a call: the task that follows, or the key and what is answered. -/
def Call.finish : Call → Option (Option Task × Option (Str × Result ValueDTO))
  | ⟨.write _, .acked _⟩ | ⟨.write _, .omitted⟩ => some (none, none)
  | ⟨.repair key value, .acked _⟩ | ⟨.repair key value, .omitted⟩ => some (none, some (key, .ok value))
  | ⟨.get key gotReplicas, .got gotLocal⟩ =>
    match gotReplicas with
    | .error _ => some (none, some (key, gotLocal))
    | .ok value =>
      if takesReplicas gotLocal value then some (some (.repair key value), none)
      else some (none, some (key, gotLocal))
  | _ => none

/-- The record that the next statement of a call writes. -/
def Call.record : Call → Option WalEntry
  | ⟨.write w, .checked⟩ => some w.record
  | ⟨.repair key value, .checked⟩ => some (Task.operation (.repair key value)).record
  | _ => none

/-- The write to the WAL fails: a client is told so, and `Get` does not look at it. -/
def Call.logFails : Call → Option (Option (Str × Result ValueDTO))
  | ⟨.write _, .checked⟩ => some none
  | ⟨.repair key value, .checked⟩ => some (some (key, .ok value))
  | _ => none

/-- A statement of a call; the last one of `get` is where it has got. -/
def Call.step : Call → StorageSystem → Option (Call × StorageSystem)
  | ⟨.get _ _, .got _⟩, _ => none
  | ⟨task, pc⟩, system => (opStep task.operation pc system).map fun next => (⟨task, next.1⟩, next.2)

def State.setNode (s : State) (host : Str) (node : Node) : State :=
  { s with node := Function.update s.node host node }

def State.setTails (s : State) (host : Str) (tails : FileId → Bytes) : State :=
  { s with tails := Function.update s.tails host tails }

/-- Bytes at the end of the complete records, over what is there. -/
def State.tear (s : State) (host : Str) (file : FileId) (bytes : Bytes) : State :=
  s.setTails host (Function.update (s.tails host) file (Delimited.overwrite 0 bytes (s.tails host file)))

/-- A record is complete, and the end of the complete records is behind it. -/
def State.pass (s : State) (host : Str) (file : FileId) (entry : WalEntry) : State :=
  s.setTails host (Function.update (s.tails host) file
    ((s.tails host file).drop (WalEntry.record.encode entry).length))

/-- What is left when the files have been read. -/
def State.readFiles (s : State) (host : Str) (files : List FileId) : State :=
  s.setTails host fun file =>
    if file ∈ files then (WalEntry.record.readAll (s.tails host file)).2 else s.tails host file

def step (s : State) (host : Str) (a : Label) : Option State :=
  match a, s.node host with
  | .request w, .up system io job calls =>
    let s : State := { s with requested := s.requested ++ [w] }
    some (s.setNode host (.up system io job (calls ++ [⟨.write w, .start⟩])))
  | .forward w, .up system io job calls =>
    some (s.setNode host (.up system io job (calls ++ [⟨.write w, .start⟩])))
  | .get key attempts, .up system io job calls =>
    if heard s.replies key attempts then
      let task := Task.get key (getNewestFromReplicas (outcomes attempts))
      some (s.setNode host (.up system io job (calls ++ [⟨task, .start⟩])))
    else none
  | .statement i, .up system io job calls =>
    calls[i]?.bind fun call => (call.step system).map fun next =>
      (call.record.elim s (s.pass host system.walWriter)).setNode host
        (.up next.2 io job (calls.set i next.1))
  | .tear i bytes, .up system _ _ calls =>
    calls[i]?.bind fun call => call.record.map fun _ => s.tear host system.walWriter bytes
  | .logFails i, .up system io job calls =>
    calls[i]?.bind fun call => call.logFails.map fun answer =>
      let s := s.setNode host (.up system io job (calls.eraseIdx i))
      answer.elim s fun (key, got) => s.reply key got
  | .logLost i, .up system io job calls =>
    calls[i]?.bind fun call => call.record.bind fun _ => (call.step system).map fun next =>
      s.setNode host (.up { next.2 with disk := system.disk } io job (calls.set i next.1))
  | .finish i, .up system io job calls =>
    calls[i]?.bind fun call => call.finish.map fun (next, answer) =>
      let calls := next.elim (calls.eraseIdx i) fun task => calls.set i ⟨task, .start⟩
      let s := s.setNode host (.up system io job calls)
      answer.elim s fun (key, got) => s.reply key got
  | .startJob io, .up system _ .done calls => some (s.setNode host (.up system io .start calls))
  | .job, .up system io job calls =>
    (SwapJob.step io job system).map fun next => s.setNode host (.up next.2 io next.1 calls)
  | .crash left, node => some (s.setNode host (.down (node.crash left)))
  | .recover threshold files, .down d =>
    let d := readTails (s.tails host) files d
    some ((s.readFiles host files).setNode host
      (.recovering threshold ⟨.turn, files, ⟨⟨readCollection d⟩, .new, none, 0⟩, d⟩))
  | .recovery, .recovering threshold r =>
    (RecoveryCrash.step threshold r .next).map fun r => s.setNode host (.recovering threshold r)
  | .start io threshold, .down d =>
    let files := (Label.start io threshold).searched
    (initializeStorages io threshold (readTails (s.tails host) files d)).map fun
      | (.ok init, d) => (s.readFiles host files).setNode host (.up (init.storageSystem d) .succeeds .done [])
      | (.error _, d) => (s.readFiles host files).setNode host (.down d)
  | _, _ => none

def init (s : State) : Prop := s = ⟨fun _ => .up .new .succeeds .done [], fun _ _ => [], [], []⟩

def system : System State (Str × Label) := ofFun init fun s a => step s a.1 a.2

/-! ### What comes from clients -/

/-- A client has asked to store the value under the key, or to remove the key. -/
def Requested (requested : List Write) (e : StorageEntry) : Prop :=
  match e.value with
  | some value =>
    ∃ version, .insert ⟨e.key, value, version⟩ ∈ requested ∧ (e.version = version ∨ e.version = 0)
  | none => .remove e.key e.version ∈ requested

instance decidableRequested (requested : List Write) : ∀ e, Decidable (Requested requested e)
  | ⟨key, some value, version⟩ =>
    decidable_of_iff
      (∃ w ∈ requested, .insert ⟨key, value, w.version⟩ = w ∧ (version = w.version ∨ version = 0)) <| by
      constructor
      · rintro ⟨w, hw, he, hversion⟩
        exact ⟨w.version, he ▸ hw, hversion⟩
      · rintro ⟨version', hw, hversion⟩
        exact ⟨_, hw, rfl, hversion⟩
  | ⟨key, none, version⟩ => inferInstanceAs (Decidable (.remove key version ∈ requested))

/-- What a node sends on has been requested, and so has whatever a recovery takes for an operation
behind the complete records of a WAL file. -/
def Ok (s : State) : Str × Label → Prop
  | (_, .forward w) => Requested s.requested (w.value.toEntry w.key)
  | (host, a) => ∀ file ∈ a.searched, ∀ operation ∈ (WalFile.readWAL (s.tails host file)).1,
    Requested s.requested ⟨operation.key, operation.value, operation.version⟩

section
variable {P : StorageEntry → Prop} {w : Write} {pc pc' : OpPc} {s s' : StorageSystem} {d d' : Disk}

theorem holds_opStep (h : Holds P s) (hw : P (w.value.toEntry w.key)) (hs : opStep w pc s = some (pc', s')) :
    Holds P s' := by
  cases opStep_cases hs with
  | log =>
    refine h.setDisk (h.disk.setWal _ fun l hl r hr => ?_)
    obtain ⟨l₀, hl₀, rfl⟩ := Option.map_eq_some_iff.1 hl
    rcases List.mem_append.1 hr with hr | hr
    · exact h.disk.wal _ l₀ hl₀ r hr
    · exact ⟨w, (List.mem_singleton.1 hr).symm, hw⟩
  | add | release => exact ⟨h.tables, h.collection, h.disk⟩
  | write =>
    rename_i file ptr
    refine ⟨fun t k v hv => ?_, h.collection, h.disk⟩
    by_cases ht : t = (s.storage.counters ptr).ptr
    · subst ht
      simp only [SwappableMemoryStorage.write, SwappableMemoryStorage.setTable, Function.update_self,
        Write.find_applyTo] at hv
      split at hv
      · rename_i hk
        cases hv
        exact hk ▸ hw
      · exact h.tables _ k v hv
    · simp only [SwappableMemoryStorage.write, SwappableMemoryStorage.setTable, Function.update_of_ne ht]
        at hv
      exact h.tables t k v hv
  | _ => exact h

/-- A call that has not done more than read. -/
def Reads : OpPc → Prop
  | .start | .firstLoaded _ | .firstMissed | .secondLoaded _ | .memoryMissed | .got _ => True
  | _ => False

/-- A call that reads leaves all as it was. -/
theorem reads_opStep (hreads : Reads pc) (hpc : ∀ got, pc ≠ .got got) (hs : opStep w pc s = some (pc', s')) :
    s' = s ∧ Reads pc' := by
  cases opStep_cases hs with
  | loadFirst | findFirst _ | missFirst _ | loadSecond | findSecond _ | missSecond _ | readDisk =>
    exact ⟨rfl, trivial⟩
  | stale _ | check _ => exact absurd rfl (hpc _)
  | _ => cases hreads

/-- What a call reads is stored, but for the version. -/
theorem got_opStep (h : Holds P s)
    (hforget : ∀ k value version, P ⟨k, some value, version⟩ → P ⟨k, some value, 0⟩) {v : ValueDTO}
    (hs : opStep w pc s = some (.got (.ok v), s')) : P ⟨w.key, some v.value, v.version⟩ := by
  have hmemory {t : TableId} {res : Value} (hres : (s.storage.tables t).get w.key = .ok res)
      (hv : fromMemory w.key res = .ok v) : P ⟨w.key, some v.value, v.version⟩ := by
    unfold fromMemory at hv
    split at hv
    · rename_i value hvalue
      cases hv
      have hfind : (s.storage.tables t).find w.key = some res := by
        unfold MapStorage.get at hres
        split at hres
        · cases hres
        · rename_i value hfind
          cases hres
          exact hfind
      have hP := h.tables t w.key res hfind
      rw [Value.toEntry, hvalue] at hP
      exact hforget _ _ _ hP
    · cases hv
  have hs := opStep_cases hs
  generalize hgot : OpPc.got (.ok v) = pc' at hs
  cases hs with
  | findFirst hres | findSecond hres => exact hmemory hres (OpPc.got.inj hgot).symm
  | readDisk =>
    have hdisk := (OpPc.got.inj hgot).symm
    unfold fromDisk at hdisk
    split at hdisk
    · rename_i res hres
      split at hdisk
      · rename_i value hvalue
        cases hdisk
        have hfind : s.persistentStorage.find w.key = some res := by
          rw [← PersistentStorageCollection.get_eq h.wf, hres]
          rfl
        have hP := of_find h.collection hfind
        obtain ⟨key, value', version⟩ := res
        have hkey : key = w.key := PersistentStorageCollection.key_of_find hfind
        dsimp only at hvalue
        rw [hkey, hvalue] at hP
        exact hP
      · cases hdisk
    · cases hdisk
  | _ => cases hgot

/-! ### Recovery and crashes -/

/-- What a recovery has on the disk and what it is about to write. -/
def RecoveryHolds (P : StorageEntry → Prop) (r : RecoveryCrash.State) : Prop :=
  r.disk.Holds P ∧
    match r.pc with
    | .writing _ _ data => (data.map StorageEntry.key).Nodup ∧ ∀ e ∈ data, P e
    | _ => True

theorem recoveryHolds_step {threshold : Nat} {r r' : RecoveryCrash.State} (h : RecoveryHolds P r)
    (hs : RecoveryCrash.step threshold r .next = some r') : RecoveryHolds P r' := by
  obtain ⟨pc, files, recovering, d⟩ := r
  obtain ⟨hdisk, hpc⟩ := h
  cases pc with
  | turn =>
    cases files with
    | nil => cases hs
    | cons file files =>
      simp only [RecoveryCrash.step] at hs
      split at hs
      · cases hs
      · rename_i operations n hread
        split at hs
        · rename_i storage version happly hversion
          have hrows := holds_apply hdisk hread happly
          split at hs <;> cases hs
          · exact ⟨hdisk.congr rfl rfl, storage.toEntries_keys_nodup, fun e he =>
              hrows e.key _ (MapStorage.mem_toEntries.1 he)⟩
          · exact ⟨hdisk, trivial⟩
        · cases hs
  | writing file path data =>
    cases hs
    refine ⟨hdisk.setData path fun entries he => ?_, trivial⟩
    cases he
    exact tableHolds_insertionSort hpc.1 hpc.2
  | written file storage =>
    simp only [RecoveryCrash.step] at hs
    unfold PersistentStorageCollection.add at hs
    cases happ : appendMetadata .ok storage d with
    | mk res d' =>
      rw [happ] at hs
      cases res with
      | error e => cases hs
      | ok u =>
        cases hs
        exact ⟨hdisk.appendMetadata happ, trivial⟩
  | listed file =>
    cases hs
    exact ⟨hdisk.removeWal file, trivial⟩

/-- A recovery that fails leaves nothing on the disk that was not there. -/
theorem holds_initializeFrom_error {io : RecoveryIO} {threshold : Nat} {file : FileId} {r : Recovering}
    {e : Error} (h : d.Holds P) (hs : initializeFrom io threshold file r d = some (.error e, d')) :
    d'.Holds P := by
  unfold initializeFrom at hs
  split at hs
  · cases hs
    exact h
  · rename_i operations n hread
    split at hs
    · rename_i storage version happly hversion
      have hrows := holds_apply h hread happly
      have hkeys := storage.toEntries_keys_nodup
      have hall : ∀ e ∈ storage.toEntries, P e := fun e he => hrows e.key _ (MapStorage.mem_toEntries.1 he)
      split at hs
      · split at hs
        · rename_i hnew
          cases hs
          exact h.newPersistentStorage hkeys hall hnew
        · rename_i persistent d₁ hnew
          have hd₁ := h.newPersistentStorage hkeys hall hnew
          unfold PersistentStorageCollection.add at hs
          cases happ : appendMetadata (io.append file) persistent d₁ with
          | mk res d₂ =>
            rw [happ] at hs
            cases res with
            | error e =>
              cases hs
              exact hd₁.appendMetadata happ
            | ok u =>
              simp only at hs
              split at hs <;> cases hs
      · split at hs <;> cases hs
        exact h
    · cases hs

theorem holds_initializeLoop_error {io : RecoveryIO} {threshold : Nat} {files : List FileId}
    {r : Recovering} {e : Error} {walWriter : FileId}
    (h : Holds P ⟨walWriter, r.memstorage, r.persistentCollection, d⟩)
    (hs : initializeLoop io threshold files r d = some (.error e, d')) : d'.Holds P := by
  induction files generalizing r d with
  | nil => cases hs
  | cons file files ih =>
    unfold initializeLoop at hs
    cases hfrom : initializeFrom io threshold file r d with
    | none => rw [hfrom] at hs; cases hs
    | some res =>
      obtain ⟨res, d₁⟩ := res
      rw [hfrom] at hs
      cases res with
      | ok r₁ => exact ih (holds_initializeFrom h hfrom) hs
      | error e =>
        cases hs
        exact holds_initializeFrom_error h.disk hfrom

theorem holds_initializeStorages_error {io : RecoveryIO} {threshold : Nat} {e : Error} (h : d.Holds P)
    (hs : initializeStorages io threshold d = some (.error e, d')) : d'.Holds P := by
  have hstart : Holds P ⟨0, .new, ⟨readCollection d⟩, d⟩ := ⟨holds_ofMap of_find_empty, h.readCollection, h⟩
  unfold initializeStorages at hs
  split at hs
  · cases hs
    exact h
  · split at hs
    · cases hs
    · rename_i hloop
      cases hs
      exact holds_initializeLoop_error (r := ⟨⟨readCollection d⟩, .new, none, 0⟩) hstart hloop
    · rename_i r d₁ hloop
      have hloop' := holds_initializeLoop (r := ⟨⟨readCollection d⟩, .new, none, 0⟩) hstart hloop
      split at hs
      · cases hs
      · unfold newSwappableWalWriter at hs
        cases hnew : newWalWriter io.newWal d₁ with
        | mk res d₂ =>
          rw [hnew] at hs
          cases res with
          | error e =>
            cases hs
            exact hloop'.disk.newWalWriter hnew
          | ok file => cases hs

end

/-! ### Replies of other nodes -/

section
variable {α : Type} {attempt : Nat → Result α}

/-- The loop returns a reply of one of its attempts. -/
theorem exists_attempt {n i : Nat} {got : Result α} {reply : α}
    (h : backoffLoop attempt n i got = .ok reply) : got = .ok reply ∨ ∃ j, attempt j = .ok reply := by
  induction n generalizing i got with
  | zero => exact .inl h
  | succ n ih =>
    unfold backoffLoop at h
    split at h
    · rename_i res hres
      exact .inr ⟨i, hres.trans h⟩
    · rcases ih h with he | hj
      · cases he
      · exact .inr hj

theorem exists_attempt_of_makeRequestWithBackoff {initial reply : α}
    (h : makeRequestWithBackoff attempt initial = .ok reply) : ∃ j, attempt j = .ok reply := by
  unfold makeRequestWithBackoff kAttempts backoffLoop at h
  split at h
  · rename_i res hres
    exact ⟨0, hres.trans h⟩
  · rcases exists_attempt h with he | hj
    · cases he
    · exact hj

/-- The best reply is one that a node has given. -/
theorem exists_reply {heardReplies : List (Str × GetReply)} {key : Str}
    {attempts : Result (List (List (Result GetReply)))} {value : ValueDTO}
    (hheard : heard heardReplies key attempts = true)
    (h : getNewestFromReplicas (outcomes attempts) = .ok value) :
    ∃ reply, (key, reply) ∈ heardReplies ∧
    value = ⟨stringField reply.value?, uint64Field reply.version?⟩ := by
  have hnewest := toOption_getNewestFromReplicas (outcomes attempts)
  rw [h] at hnewest
  have hmem := (Versioned.isNewest_newestOf hnewest.symm).1
  cases attempts with
  | error e => cases hmem
  | ok nodes =>
    obtain ⟨got, hgot, hvalue⟩ := List.mem_filterMap.1 hmem
    obtain ⟨results, hresults, rfl⟩ := List.mem_map.1 hgot
    unfold ReplicaClient.get at hvalue
    split at hvalue
    · cases hvalue
    · rename_i reply hreply
      cases hvalue
      obtain ⟨j, hj⟩ := exists_attempt_of_makeRequestWithBackoff hreply
      have hmem : .ok reply ∈ results := by
        rw [List.getD_eq_getElem?_getD] at hj
        cases hget : results[j]? with
        | none => rw [hget] at hj; cases hj
        | some res =>
          rw [hget] at hj
          cases hj
          exact List.mem_of_getElem? hget
      have hone := List.all_eq_true.1 (List.all_eq_true.1 hheard results hresults) _ hmem
      exact ⟨reply, of_decide_eq_true hone, rfl⟩

end

/-! ### Calls and nodes -/

section
variable {P Q : StorageEntry → Prop} {c c' : Call} {system system' : StorageSystem} {node : Node}

/-- The entry that a value makes under a key. -/
abbrev entryOf (key : Str) (value : ValueDTO) : StorageEntry := ⟨key, some value.value, value.version⟩

def TaskHolds (P : StorageEntry → Prop) : Task → Prop
  | .write w => P (w.value.toEntry w.key)
  | .get key gotReplicas => ∀ value, gotReplicas = .ok value → P (entryOf key value)
  | .repair key value => P (entryOf key value)

structure CallHolds (P : StorageEntry → Prop) (c : Call) : Prop where
  task : TaskHolds P c.task
  reads : ∀ key gotReplicas, c.task = .get key gotReplicas → Reads c.pc
  got : ∀ value, c.pc = .got (.ok value) → P (entryOf c.task.operation.key value)

def NodeHolds (P : StorageEntry → Prop) : Node → Prop
  | .up system _ job calls => Holds P system ∧ PcHolds P job ∧ ∀ c ∈ calls, CallHolds P c
  | .recovering _ r => RecoveryHolds P r
  | .down d => d.Holds P

theorem TaskHolds.mono {task : Task} (h : TaskHolds P task) (hPQ : ∀ e, P e → Q e) : TaskHolds Q task := by
  cases task with
  | write w => exact hPQ _ h
  | get key gotReplicas => exact fun value hvalue => hPQ _ (h value hvalue)
  | repair key value => exact hPQ _ h

theorem NodeHolds.mono (h : NodeHolds P node) (hPQ : ∀ e, P e → Q e) : NodeHolds Q node := by
  cases node with
  | up system io job calls =>
    obtain ⟨hsystem, hjob, hcalls⟩ := h
    refine ⟨hsystem.mono hPQ, hjob.mono hPQ, fun c hc => ?_⟩
    exact ⟨(hcalls c hc).task.mono hPQ, (hcalls c hc).reads, fun value hvalue =>
      hPQ _ ((hcalls c hc).got value hvalue)⟩
  | recovering threshold r =>
    obtain ⟨hdisk, hpc⟩ := h
    refine ⟨hdisk.mono hPQ, ?_⟩
    split
    · rename_i hwriting
      rw [hwriting] at hpc
      exact ⟨hpc.1, fun e he => hPQ e (hpc.2 e he)⟩
    · trivial
  | down d => exact Disk.Holds.mono h hPQ

theorem callHolds_start {task : Task} (h : TaskHolds P task) : CallHolds P ⟨task, .start⟩ :=
  ⟨h, fun _ _ _ => trivial, fun _ hgot => by cases hgot⟩

theorem callHolds_append {calls : List Call} {task : Task} (h : ∀ c ∈ calls, CallHolds P c)
    (htask : TaskHolds P task) : ∀ c ∈ calls ++ [⟨task, .start⟩], CallHolds P c := by
  intro c hc
  rcases List.mem_append.1 hc with hc | hc
  · exact h c hc
  · rw [List.mem_singleton.1 hc]
    exact callHolds_start htask

theorem callHolds_set {calls : List Call} {i : Nat} (h : ∀ c ∈ calls, CallHolds P c) (hc' : CallHolds P c') :
    ∀ c ∈ calls.set i c', CallHolds P c := by
  intro c hc
  rcases List.mem_or_eq_of_mem_set hc with hc | rfl
  · exact h c hc
  · exact hc'

theorem Call.step_cases (hs : c.step system = some (c', system')) :
    c'.task = c.task ∧ opStep c.task.operation c.pc system = some (c'.pc, system') ∧
      ∀ key gotReplicas, c.task = .get key gotReplicas → ∀ got, c.pc ≠ .got got := by
  obtain ⟨task, pc⟩ := c
  unfold Call.step at hs
  split at hs
  · cases hs
  · rename_i task' pc' hnot heq
    cases heq
    obtain ⟨⟨pc', s'⟩, hop, he⟩ := Option.map_eq_some_iff.1 hs
    cases he
    refine ⟨rfl, hop, ?_⟩
    rintro key gotReplicas rfl got rfl
    exact hnot key gotReplicas got rfl rfl

/-- A statement of a call stores no entry but that of its operation. -/
theorem CallHolds.step (hc : CallHolds P c) (h : Holds P system)
    (hforget : ∀ k value version, P ⟨k, some value, version⟩ → P ⟨k, some value, 0⟩)
    (hs : c.step system = some (c', system')) : Holds P system' ∧ CallHolds P c' := by
  obtain ⟨htask, hop, hget⟩ := Call.step_cases hs
  have hgot : ∀ value, c'.pc = .got (.ok value) → P (entryOf c'.task.operation.key value) := by
    intro value hvalue
    rw [hvalue] at hop
    rw [htask]
    exact got_opStep h hforget hop
  cases hkind : c.task with
  | get key gotReplicas =>
    obtain ⟨rfl, hreads⟩ := reads_opStep (hc.reads key gotReplicas hkind) (hget key gotReplicas hkind) hop
    exact ⟨h, htask ▸ hc.task, fun _ _ _ => hreads, hgot⟩
  | write w =>
    have hw := hc.task
    rw [hkind] at hw hop
    refine ⟨holds_opStep h hw hop, htask ▸ hc.task, fun key gotReplicas h => ?_, hgot⟩
    rw [htask, hkind] at h
    cases h
  | repair key value =>
    have hw := hc.task
    rw [hkind] at hw hop
    refine ⟨holds_opStep (w := .insert ⟨key, value.value, value.version⟩) h hw hop, htask ▸ hc.task,
      fun key gotReplicas h => ?_, hgot⟩
    rw [htask, hkind] at h
    cases h

/-- What a call answers is what it has read, or what another node has answered. -/
theorem CallHolds.finish (hc : CallHolds P c) {next : Option Task} {answer : Option (Str × Result ValueDTO)}
    (hs : c.finish = some (next, answer)) :
    (∀ task, next = some task → TaskHolds P task) ∧ ∀ key value, answer = some (key, .ok value) →
    P (entryOf key value) := by
  unfold Call.finish at hs
  split at hs
  · cases hs
    exact ⟨fun _ h => (by cases h), fun _ _ h => (by cases h)⟩
  · cases hs
    exact ⟨fun _ h => (by cases h), fun _ _ h => (by cases h)⟩
  · cases hs
    refine ⟨fun _ h => (by cases h), fun key value h => ?_⟩
    cases h
    exact hc.task
  · cases hs
    refine ⟨fun _ h => (by cases h), fun key value h => ?_⟩
    cases h
    exact hc.task
  · split at hs
    · cases hs
      refine ⟨fun _ h => (by cases h), fun key value h => ?_⟩
      cases h
      exact hc.got value rfl
    · split at hs <;> cases hs
      · refine ⟨fun task h => ?_, fun _ _ h => (by cases h)⟩
        cases h
        exact hc.task _ rfl
      · refine ⟨fun _ h => (by cases h), fun key value h => ?_⟩
        cases h
        exact hc.got value rfl
  · cases hs

theorem CallHolds.logFails (hc : CallHolds P c) {answer : Option (Str × Result ValueDTO)}
    (hs : c.logFails = some answer) : ∀ key value, answer = some (key, .ok value) →
    P (entryOf key value) := by
  unfold Call.logFails at hs
  split at hs <;> cases hs
  · exact fun _ _ h => by cases h
  · intro key value h
    cases h
    exact hc.task

theorem tableHolds_take {data : List StorageEntry} (hkeys : (data.map StorageEntry.key).Nodup)
    (hall : ∀ e ∈ data, P e) (torn : Nat) : TableHolds P ((data.insertionSort (· ≤ ·)).take torn) := by
  have hsorted := tableHolds_insertionSort hkeys hall
  exact ⟨List.Pairwise.sublist (List.take_sublist _ _) hsorted.strict, fun e he => hsorted.all e
    (List.mem_of_mem_take he)⟩

/-- What a node is about to write is there already. -/
def WritingHolds (P : StorageEntry → Prop) : Writing → Prop
  | .table _ data d => (data.map StorageEntry.key).Nodup ∧ (∀ e ∈ data, P e) ∧ d.Holds P
  | .metadata _ _ d => d.Holds P

theorem NodeHolds.writing (h : NodeHolds P node) {writing : Writing} (hw : node.writing = some writing) :
    WritingHolds P writing := by
  unfold Node.writing at hw
  split at hw
  · cases hw
    exact ⟨h.2.1.1, h.2.1.2, h.1.disk.congr rfl rfl⟩
  · cases hw
    exact h.1.disk
  · obtain ⟨data, hdata, rfl⟩ := Option.map_eq_some_iff.1 hw
    obtain ⟨hkeys, hall⟩ := of_mergeEntries h.1.collection hdata
    exact ⟨hkeys, hall, h.1.disk.congr rfl rfl⟩
  · cases hw
    exact h.1.disk
  · cases hw
    exact ⟨h.2.1, h.2.2, h.1⟩
  · cases hw
    exact h.1
  · cases hw

theorem NodeHolds.disk (h : NodeHolds P node) : node.disk.Holds P := by
  cases node with
  | up system io job calls => exact h.1.disk
  | recovering threshold r => exact h.1
  | down d => exact h

/-- Whatever a crash interrupts, the disk has nothing that was not there. -/
theorem NodeHolds.crash (h : NodeHolds P node) (left : Option (Option Nat)) : (node.crash left).Holds P := by
  cases left with
  | none => exact h.disk
  | some left =>
    unfold Node.crash
    dsimp only
    split
    · exact h.disk
    · rename_i path data d hwriting
      obtain ⟨hkeys, hall, hd⟩ := h.writing hwriting
      refine hd.setData path fun entries he => ?_
      obtain ⟨n, -, rfl⟩ := Option.map_eq_some_iff.1 he
      exact tableHolds_take hkeys hall n
    · rename_i file paths d hwriting
      exact (show d.Holds P from h.writing hwriting).congr rfl rfl

/-- A recovery that takes nothing else for an operation finds nothing that does not hold. -/
theorem holds_readTails {d : Disk} {tails : FileId → Bytes} {files : List FileId} (h : d.Holds P)
    (hok : ∀ file ∈ files, ∀ operation ∈ (WalFile.readWAL (tails file)).1,
      P ⟨operation.key, operation.value, operation.version⟩) : (readTails tails files d).Holds P := by
  refine ⟨fun file l hl r hr => ?_, h.data⟩
  unfold readTails at hl
  dsimp only at hl
  split at hl
  · rename_i hfile
    obtain ⟨entries, hentries, rfl⟩ := Option.map_eq_some_iff.1 hl
    rcases List.mem_append.1 hr with hr | hr
    · exact h.wal file entries hentries r hr
    · obtain ⟨hread, hsome⟩ := List.mem_filter.1 hr
      obtain ⟨operation, hop⟩ := Option.isSome_iff_exists.1 hsome
      have hP := hok file hfile operation (by
        rw [WalFile.readWAL_eq]
        exact List.mem_filterMap.2 ⟨r, hread, hop⟩)
      cases r with
      | notSet => cases hop
      | remove key version =>
        cases hop
        exact ⟨.remove key version, rfl, hP⟩
      | insert key value version =>
        cases hop
        exact ⟨.insert ⟨key, value, version⟩, rfl, hP⟩
  · exact h.wal file l hl r hr

end

/-! ### Runs -/

section
variable {s s' : State} {host : Str} {a : Label} {requested requested' : List Write}

theorem requested_mono (hsub : requested ⊆ requested') (e : StorageEntry) (h : Requested requested e) :
    Requested requested' e := by
  unfold Requested at h ⊢
  split at h
  · obtain ⟨version, hmem, hversion⟩ := h
    exact ⟨version, hsub hmem, hversion⟩
  · exact hsub h

theorem requested_forget (k value : Str) (version : UInt64)
    (h : Requested requested ⟨k, some value, version⟩) : Requested requested ⟨k, some value, 0⟩ := by
  obtain ⟨version, hmem, -⟩ := h
  exact ⟨version, hmem, .inr rfl⟩

theorem requested_of_mem {w : Write} (hw : w ∈ requested) : Requested requested (w.value.toEntry w.key) := by
  cases w with
  | insert kwPair => exact ⟨kwPair.version, hw, .inl rfl⟩
  | remove key version => exact hw

structure Inv (s : State) : Prop where
  node : ∀ host, NodeHolds (Requested s.requested) (s.node host)
  replies : ∀ key reply, (key, reply) ∈ s.replies →
    Requested s.requested (entryOf key ⟨stringField reply.value?, uint64Field reply.version?⟩)

theorem Inv.setNode (hi : Inv s) {node : Node} (hnode : NodeHolds (Requested s.requested) node) :
    Inv (s.setNode host node) := by
  refine ⟨fun host' => ?_, hi.replies⟩
  show NodeHolds _ (Function.update s.node host node host')
  by_cases h : host' = host
  · rw [h, Function.update_self]
    exact hnode
  · rw [Function.update_of_ne h]
    exact hi.node host'

theorem Inv.reply (hi : Inv s) {key : Str} {got : Result ValueDTO}
    (hgot : ∀ value, got = .ok value → Requested s.requested (entryOf key value)) :
    Inv (s.reply key got) := by
  cases got with
  | error e => exact hi
  | ok value =>
    refine ⟨hi.node, fun key' reply hmem => ?_⟩
    rcases List.mem_append.1 hmem with hmem | hmem
    · exact hi.replies key' reply hmem
    · cases List.mem_singleton.1 hmem
      exact hgot value rfl

theorem Inv.setTails (hi : Inv s) (tails : FileId → Bytes) : Inv (s.setTails host tails) :=
    ⟨hi.node, hi.replies⟩

/-- A call is answered. -/
theorem Inv.answer (hi : Inv s) {answer : Option (Str × Result ValueDTO)}
    (hanswer : ∀ key value, answer = some (key, .ok value) → Requested s.requested (entryOf key value)) :
    Inv (answer.elim s fun (key, got) => s.reply key got) := by
  cases answer with
  | none => exact hi
  | some answer => exact hi.reply fun value hvalue => hanswer answer.1 value (by rw [← hvalue])

theorem inv_init (hs : init s) : Inv s := by
  rw [show s = _ from hs]
  exact ⟨fun _ => ⟨holds_new, trivial, fun c hc => absurd hc List.not_mem_nil⟩,
    fun _ _ h => absurd h List.not_mem_nil⟩

theorem inv_step (hi : Inv s) (hok : Ok s (host, a)) (hs : step s host a = some s') : Inv s' := by
  have hnode := hi.node host
  unfold step at hs
  split at hs
  · -- a client asks for a write
    rename_i w system io job calls heq
    rw [heq] at hnode
    cases hs
    have hmono := requested_mono (List.subset_append_left s.requested [w])
    have hi' : Inv { s with requested := s.requested ++ [w] } :=
      ⟨fun host => (hi.node host).mono hmono, fun key reply h => hmono _ (hi.replies key reply h)⟩
    obtain ⟨hsystem, hjob, hcalls⟩ := hnode.mono hmono
    exact hi'.setNode ⟨hsystem, hjob, callHolds_append hcalls
      (requested_of_mem (List.mem_append_right _ List.mem_cons_self))⟩
  · -- a node sends it on
    rename_i w system io job calls heq
    rw [heq] at hnode
    cases hs
    obtain ⟨hsystem, hjob, hcalls⟩ := hnode
    exact hi.setNode ⟨hsystem, hjob, callHolds_append hcalls hok⟩
  · -- a `Get` with the best of the replies
    rename_i key attempts system io job calls heq
    rw [heq] at hnode
    split at hs <;> cases hs
    rename_i hheard
    obtain ⟨hsystem, hjob, hcalls⟩ := hnode
    refine hi.setNode ⟨hsystem, hjob, callHolds_append hcalls fun value hvalue => ?_⟩
    obtain ⟨reply, hmem, rfl⟩ := exists_reply hheard hvalue
    exact hi.replies key reply hmem
  · -- a statement of a call
    rename_i i system io job calls heq
    rw [heq] at hnode
    obtain ⟨c, hc, hs⟩ := Option.bind_eq_some_iff.1 hs
    obtain ⟨⟨c', system'⟩, hstep, rfl⟩ := Option.map_eq_some_iff.1 hs
    obtain ⟨hsystem, hjob, hcalls⟩ := hnode
    obtain ⟨hsystem', hc'⟩ := (hcalls c (List.mem_of_getElem? hc)).step hsystem requested_forget hstep
    have hleft : NodeHolds (Requested s.requested) (.up system' io job (calls.set i c')) :=
      ⟨hsystem', hjob, callHolds_set hcalls hc'⟩
    cases c.record with
    | none => exact hi.setNode hleft
    | some entry => exact (hi.setTails _).setNode hleft
  · -- a part of a record
    rename_i i bytes system io job calls heq
    obtain ⟨c, -, hs⟩ := Option.bind_eq_some_iff.1 hs
    obtain ⟨entry, -, rfl⟩ := Option.map_eq_some_iff.1 hs
    exact hi.setTails _
  · -- the WAL cannot be written
    rename_i i system io job calls heq
    rw [heq] at hnode
    obtain ⟨c, hc, hs⟩ := Option.bind_eq_some_iff.1 hs
    obtain ⟨answer, hfails, rfl⟩ := Option.map_eq_some_iff.1 hs
    obtain ⟨hsystem, hjob, hcalls⟩ := hnode
    have hleft : NodeHolds (Requested s.requested) (.up system io job (calls.eraseIdx i)) :=
      ⟨hsystem, hjob, fun c hc => hcalls c (List.mem_of_mem_eraseIdx hc)⟩
    exact (hi.setNode hleft).answer ((hcalls c (List.mem_of_getElem? hc)).logFails hfails)
  · -- nobody sees that it was not written
    rename_i i system io job calls heq
    rw [heq] at hnode
    obtain ⟨c, hc, hs⟩ := Option.bind_eq_some_iff.1 hs
    obtain ⟨entry, -, hs⟩ := Option.bind_eq_some_iff.1 hs
    obtain ⟨⟨c', system'⟩, hstep, rfl⟩ := Option.map_eq_some_iff.1 hs
    obtain ⟨hsystem, hjob, hcalls⟩ := hnode
    obtain ⟨hsystem', hc'⟩ := (hcalls c (List.mem_of_getElem? hc)).step hsystem requested_forget hstep
    exact hi.setNode ⟨hsystem'.setDisk hsystem.disk, hjob, callHolds_set hcalls hc'⟩
  · -- a call comes to its end
    rename_i i system io job calls heq
    rw [heq] at hnode
    obtain ⟨c, hc, hs⟩ := Option.bind_eq_some_iff.1 hs
    obtain ⟨⟨next, answer⟩, hfinish, rfl⟩ := Option.map_eq_some_iff.1 hs
    obtain ⟨hsystem, hjob, hcalls⟩ := hnode
    obtain ⟨hnext, hanswer⟩ := (hcalls c (List.mem_of_getElem? hc)).finish hfinish
    have hleft : NodeHolds (Requested s.requested) (.up system io job
        (next.elim (calls.eraseIdx i) fun task => calls.set i ⟨task, .start⟩)) := by
      refine ⟨hsystem, hjob, ?_⟩
      cases next with
      | none => exact fun c hc => hcalls c (List.mem_of_mem_eraseIdx hc)
      | some task => exact callHolds_set hcalls (callHolds_start (hnext task rfl))
    exact (hi.setNode hleft).answer hanswer
  · -- a job begins
    rename_i heq
    rw [heq] at hnode
    cases hs
    exact hi.setNode ⟨hnode.1, trivial, hnode.2.2⟩
  · -- a statement of the job
    rename_i heq
    rw [heq] at hnode
    obtain ⟨⟨job', system'⟩, hstep, rfl⟩ := Option.map_eq_some_iff.1 hs
    obtain ⟨hsystem', hjob'⟩ := holdsAt_step hnode.1 hnode.2.1 hstep
    exact hi.setNode ⟨hsystem', hjob', hnode.2.2⟩
  · cases hs
    exact hi.setNode (hnode.crash _)
  · -- a recovery begins
    rename_i threshold files d heq
    rw [heq] at hnode
    cases hs
    exact (hi.setTails _).setNode ⟨holds_readTails hnode hok, trivial⟩
  · rename_i heq
    rw [heq] at hnode
    obtain ⟨r', hstep, rfl⟩ := Option.map_eq_some_iff.1 hs
    exact hi.setNode (recoveryHolds_step hnode hstep)
  · -- a recovery from the beginning to the end
    rename_i io threshold d heq
    rw [heq] at hnode
    obtain ⟨⟨res, d'⟩, hstart, rfl⟩ := Option.map_eq_some_iff.1 hs
    have hfound := holds_readTails hnode hok
    cases res with
    | ok init =>
      exact (hi.setTails _).setNode
        ⟨holds_initializeStorages hfound hstart, trivial, fun c hc => absurd hc List.not_mem_nil⟩
    | error e => exact (hi.setTails _).setNode (holds_initializeStorages_error hfound hstart)
  · cases hs

end

instance decidableOk : ∀ s a, Decidable (Ok s a)
  | s, (_, .forward w) => inferInstanceAs (Decidable (Requested s.requested (w.value.toEntry w.key)))
  | s, (host, .recover _ files) => inferInstanceAs (Decidable (∀ file ∈ files,
    ∀ operation ∈ (WalFile.readWAL (s.tails host file)).1,
      Requested s.requested ⟨operation.key, operation.value, operation.version⟩))
  | s, (host, .start io _) => inferInstanceAs (Decidable (∀ file ∈ io.search.toOption.getD [],
    ∀ operation ∈ (WalFile.readWAL (s.tails host file)).1,
      Requested s.requested ⟨operation.key, operation.value, operation.version⟩))
  | _, (_, .request _) | _, (_, .get _ _) | _, (_, .statement _) | _, (_, .tear _ _) | _, (_, .logFails _)
  | _, (_, .logLost _) | _, (_, .finish _) | _, (_, .startJob _) | _, (_, .job) | _, (_, .crash _)
  | _, (_, .recovery) => isTrue fun _ hfile => absurd hfile List.not_mem_nil

def put : Write := .insert ⟨[97], [1], 5⟩

def torn : Write := .remove [97] 6

end Cluster

end Iu9Db
