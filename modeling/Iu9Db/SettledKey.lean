import Iu9Db.ConcurrentSwap
import Iu9Db.MapRefinement

/-!
# A `Get` during swap jobs

One `Get` looks through the three layers at three moments, while any number of jobs, one at a time, move
rows downwards and operations on other keys come and go. The entry of the key only ever moves down, and a
layer below is filled before the one above is emptied: `Passed` is what the reader knows of the layers it
has left behind, and `answers_get_of_reachable` follows for the whole `Get`.
-/

namespace Iu9Db

open Keyed StorageSystem Transition

/-- Where a `Get` stands. -/
inductive GetPc
  | start
  | firstLoaded (table : TableId)
  | firstMissed
  | secondLoaded (table : TableId)
  | memoryMissed
  | got (res : Result ValueDTO)
deriving DecidableEq

/-- The next statement of `Get`. -/
def getStep (key : Str) : GetPc → StorageSystem → Option GetPc
  | .start, s => some (.firstLoaded s.storage.readerFirst)
  | .firstLoaded table, s =>
    match (s.storage.tables table).get key with
    | .ok res => some (.got (fromMemory key res))
    | .error _ => some .firstMissed
  | .firstMissed, s => some (.secondLoaded s.storage.readerSecond)
  | .secondLoaded table, s =>
    match (s.storage.tables table).get key with
    | .ok res => some (.got (fromMemory key res))
    | .error _ => some .memoryMissed
  | .memoryMissed, s => some (.got (fromDisk key (s.persistentStorage.get key)))
  | .got _, _ => none

/-- **A `Get` with nothing in between returns what `get` does.** -/
theorem getSteps_get (key : Str) (s : StorageSystem) :
    Relation.ReflTransGen (fun a b => getStep key a s = some b) .start (.got (s.get key)) := by
  refine .head rfl ?_
  cases hfirst : (s.storage.tables s.storage.readerFirst).get key with
  | ok res =>
    have hget : s.get key = fromMemory key res := by
      simp [StorageSystem.get, SwappableMemoryStorage.get, hfirst]
    exact .single (by simp only [getStep, hfirst, hget])
  | error e =>
    refine .head (b := .firstMissed) (by simp only [getStep, hfirst]) (.head rfl ?_)
    cases hsecond : (s.storage.tables s.storage.readerSecond).get key with
    | ok res =>
      have hget : s.get key = fromMemory key res := by
        simp [StorageSystem.get, SwappableMemoryStorage.get, hfirst, hsecond]
      exact .single (by simp only [getStep, hsecond, hget])
    | error e' =>
      have hget : s.get key = fromDisk key (s.persistentStorage.get key) := by
        simp [StorageSystem.get, SwappableMemoryStorage.get, hfirst, hsecond]
      exact .head (b := .memoryMissed) (by simp only [getStep, hsecond])
        (.single (by simp only [getStep, hget]))

namespace SettledKey

/-- The engine, the job that runs (`done` while none does), operations on other keys, and the reader. -/
structure State where
  system : StorageSystem
  io : SwapJobIO
  job : SwapJob
  ops : List ConcurrentSwap.Operation
  reader : GetPc

inductive Label
  | begin (w : Write)
  | op (i : Nat)
  | startJob (io : SwapJobIO)
  | job
  | get

/-- No operation on `key` begins. -/
def step (key : Str) (s : State) : Label → Option State
  | .begin w => if w.key = key then none else some { s with ops := s.ops ++ [⟨w, .start⟩] }
  | .op i => (s.ops[i]?).bind fun o => (opStep o.write o.pc s.system).map fun next => { s with
      system := next.2
      ops := s.ops.set i ⟨o.write, next.1⟩ }
  | .startJob io => if s.job = .done then some { s with io := io, job := .start } else none
  | .job => (SwapJob.step s.io s.job s.system).map fun next => { s with job := next.1, system := next.2 }
  | .get => (getStep key s.reader s.system).map fun reader => { s with reader := reader }

/-- The runs from the engine `s₀`, with `ops` under way. -/
def system (key : Str) (s₀ : StorageSystem) (ops : List ConcurrentSwap.Operation) : System State Label :=
  ofFun (fun s => s = ⟨s₀, .succeeds, .done, ops, .start⟩) (step key)

/-! ### Where the entry of the key is -/

/-- What the three layers hold for the key. -/
structure View where
  old : Option Value
  mid : Option Value
  recent : Option Value

namespace View

/-- What a reader finds. -/
def value (v : View) : Option Value := v.recent.or (v.mid.or v.old)

/-- The view after one statement of a job. -/
def next (v : View) : SwapJob → View
  | .secondExchanged _ => ⟨v.mid.or v.old, v.recent, none⟩
  | _ => v

@[simp] theorem value_next (v : View) (pc : SwapJob) : (v.next pc).value = v.value := by
  cases pc <;> simp [next, value]

end View

/-- What the collection holds for the key. -/
def onDisk (key : Str) (s : StorageSystem) : Option Value :=
  (s.persistentStorage.find key).map StorageEntry.toValue

/-- What a table in memory holds for it. -/
def inTable (key : Str) (s : StorageSystem) (table : TableId) : Option Value :=
  (s.storage.tables table).find key

/-- The three layers as they are between two calls. -/
structure Settled (key : Str) (v : View) (s : StorageSystem) : Prop where
  old : onDisk key s = v.old
  mid : inTable key s s.storage.readerSecond = v.mid
  recent : inTable key s s.storage.readerFirst = v.recent

/-- After `Add`, until `readerSecond` is exchanged. -/
structure Added (key : Str) (v : View) (s : StorageSystem) : Prop where
  old : onDisk key s = v.mid.or v.old
  mid : inTable key s s.storage.readerSecond = v.mid
  recent : inTable key s s.storage.readerFirst = v.recent

/-- Both readers are on the first table. -/
structure Exchanged (key : Str) (v : View) (s : StorageSystem) : Prop where
  old : onDisk key s = v.mid.or v.old
  second : s.storage.readerSecond = s.storage.readerFirst
  recent : inTable key s s.storage.readerFirst = v.recent

/-- A table on disk that holds for the key what the collected one does. -/
structure Holds (key : Str) (v : Option Value) (storage : PersistentStorage) : Prop where
  wf : storage.Wf
  find : (storage.find key).map StorageEntry.toValue = v

/-- The view at each statement of a job. -/
def ViewAt (key : Str) (v : View) : SwapJob → StorageSystem → Prop
  | .collected _ data, s => Settled key v s ∧ (data.map StorageEntry.key).Nodup ∧
      (Keyed.find StorageEntry.key key data).map StorageEntry.toValue = v.mid
  | .created _ persistent, s | .listed _ persistent, s => Settled key v s ∧ Holds key v.mid persistent
  | .added _, s => Added key v s
  | .secondExchanged _, s => Exchanged key v s
  | .merged newStorage, s | .newListed newStorage, s | .renamed newStorage _, s =>
      Settled key v s ∧ Holds key v.old newStorage
  | _, s => Settled key v s

/-- The collection is sorted, and the tables in use are allocated. -/
structure Sound (s : StorageSystem) : Prop where
  persistentStorage : s.persistentStorage.Wf
  first_lt : s.storage.readerFirst < s.storage.nextTable
  second_lt : s.storage.readerSecond < s.storage.nextTable

/-- What the reader knows: a layer that it has left behind no longer answers for the key, and stays so. -/
def Passed (key : Str) (v : View) (s : StorageSystem) : GetPc → Prop
  | .start => True
  | .firstLoaded table => table < s.storage.nextTable ∧
      (inTable key s table = none ∧ v.recent = none ∨ inTable key s table = v.value)
  | .firstMissed => v.recent = none
  | .secondLoaded table => table < s.storage.nextTable ∧
      (inTable key s table = none ∧ v.recent = none ∧ onDisk key s = v.value ∨ inTable key s table = v.value)
  | .memoryMissed => v.recent = none ∧ onDisk key s = v.value
  | .got res => Answers res (v.value.bind Value.value)

/-- The state as far as a reader of the key can tell. -/
structure SameView (key : Str) (s s' : StorageSystem) : Prop where
  persistentStorage : s'.persistentStorage = s.persistentStorage
  first : s'.storage.readerFirst = s.storage.readerFirst
  second : s'.storage.readerSecond = s.storage.readerSecond
  nextTable : s'.storage.nextTable = s.storage.nextTable
  rows : ∀ table, inTable key s' table = inTable key s table

section
variable {key : Str} {v : View} {s s' : StorageSystem}

theorem SameView.onDisk (h : SameView key s s') : onDisk key s' = onDisk key s := by
  rw [SettledKey.onDisk, h.persistentStorage, SettledKey.onDisk]

theorem Settled.congr (hv : Settled key v s) (h : SameView key s s') : Settled key v s' :=
  ⟨h.onDisk.trans hv.old, by rw [h.rows, h.second, hv.mid], by rw [h.rows, h.first, hv.recent]⟩

theorem Added.congr (hv : Added key v s) (h : SameView key s s') : Added key v s' :=
  ⟨h.onDisk.trans hv.old, by rw [h.rows, h.second, hv.mid], by rw [h.rows, h.first, hv.recent]⟩

theorem Exchanged.congr (hv : Exchanged key v s) (h : SameView key s s') : Exchanged key v s' :=
  ⟨h.onDisk.trans hv.old, by rw [h.second, h.first, hv.second], by rw [h.rows, h.first, hv.recent]⟩

theorem viewAt_congr {job : SwapJob} (hv : ViewAt key v job s) (h : SameView key s s') :
    ViewAt key v job s' := by
  cases job with
  | collected path data => exact ⟨hv.1.congr h, hv.2⟩
  | created path persistent | listed path persistent => exact ⟨hv.1.congr h, hv.2⟩
  | added path => exact Added.congr hv h
  | secondExchanged path => exact Exchanged.congr hv h
  | merged newStorage | newListed newStorage | renamed newStorage toDelete => exact ⟨hv.1.congr h, hv.2⟩
  | _ => exact Settled.congr hv h

theorem sound_of_wf (h : s.Wf) : Sound s :=
  ⟨h.persistentStorage, h.storage.first_lt, h.storage.second_lt⟩

theorem Sound.congr (hs : Sound s) (h : SameView key s s') : Sound s' :=
  ⟨h.persistentStorage ▸ hs.persistentStorage, by rw [h.first, h.nextTable]; exact hs.first_lt,
    by rw [h.second, h.nextTable]; exact hs.second_lt⟩

/-- What the reader knows stays true while the entry only moves down. -/
theorem passed_mono {v' : View} {reader : GetPc} (hp : Passed key v s reader) (hvalue : v'.value = v.value)
    (hrecent : v.recent = none → v'.recent = none)
    (hdisk : v.recent = none → onDisk key s = v.value → onDisk key s' = v.value)
    (hrows : ∀ table, table < s.storage.nextTable → inTable key s' table = inTable key s table)
    (hnext : s.storage.nextTable ≤ s'.storage.nextTable) : Passed key v' s' reader := by
  cases reader with
  | start => trivial
  | firstLoaded table =>
    obtain ⟨hlt, hpassed⟩ := hp
    refine ⟨hlt.trans_le hnext, ?_⟩
    rw [hrows table hlt, hvalue]
    exact hpassed.imp_left fun ⟨hnone, hr⟩ => ⟨hnone, hrecent hr⟩
  | firstMissed => exact hrecent hp
  | secondLoaded table =>
    obtain ⟨hlt, hpassed⟩ := hp
    refine ⟨hlt.trans_le hnext, ?_⟩
    rw [hrows table hlt, hvalue]
    exact hpassed.imp_left fun ⟨hnone, hr, hd⟩ => ⟨hnone, hrecent hr, hdisk hr hd⟩
  | memoryMissed => exact ⟨hrecent hp.1, (hdisk hp.1 hp.2).trans hvalue.symm⟩
  | got res =>
    rw [Passed, hvalue]
    exact hp

theorem passed_congr {reader : GetPc} (hp : Passed key v s reader) (h : SameView key s s') :
    Passed key v s' reader :=
  passed_mono hp rfl id (fun _ hd => h.onDisk.trans hd) (fun table _ => h.rows table) h.nextTable.ge

theorem sameView_opStep {w : Write} {pc pc' : OpPc} (hne : w.key ≠ key) (h : opStep w pc s = some (pc', s')) :
    SameView key s s' := by
  cases opStep_cases h with
  | add | release | log => exact ⟨rfl, rfl, rfl, rfl, fun _ => rfl⟩
  | @write file ptr =>
    refine ⟨rfl, rfl, rfl, rfl, fun table => ?_⟩
    by_cases ht : table = (s.storage.counters ptr).ptr
    · subst ht
      simp only [inTable, SwappableMemoryStorage.write, SwappableMemoryStorage.setTable, Function.update_self,
        Write.find_applyTo, if_neg hne.symm]
    · simp only [inTable, SwappableMemoryStorage.write, SwappableMemoryStorage.setTable,
        Function.update_of_ne ht]
  | _ => exact ⟨rfl, rfl, rfl, rfl, fun _ => rfl⟩

/-! ### The reader -/

theorem answers_fromMemory (key : Str) (row : Value) : Answers (fromMemory key row) row.value := by
  unfold fromMemory
  cases row.value with
  | some value => exact ⟨0, rfl⟩
  | none => exact ⟨_, rfl, wraps_makeError _ _ _⟩

theorem answers_fromDisk (hwf : s.persistentStorage.Wf) (key : Str) :
    Answers (fromDisk key (s.persistentStorage.get key)) ((onDisk key s).bind Value.value) := by
  have hfind := PersistentStorageCollection.get_eq hwf key
  unfold onDisk
  rw [← hfind]
  unfold fromDisk
  cases s.persistentStorage.get key with
  | error e => exact ⟨_, rfl, wraps_makeError _ _ _⟩
  | ok record =>
    obtain ⟨k, value, version⟩ := record
    cases value with
    | some value => exact ⟨version, rfl⟩
    | none => exact ⟨_, rfl, wraps_makeError _ _ _⟩

/-- A lookup in a loaded table ends the `Get` or leaves the table behind. -/
theorem get_cases {table : TableId} {pc missed : GetPc}
    (h : (match (s.storage.tables table).get key with
      | .ok res => some (.got (fromMemory key res))
      | .error _ => some missed) = some pc) :
    (∃ row, inTable key s table = some row ∧ pc = .got (fromMemory key row)) ∨
      inTable key s table = none ∧ pc = missed := by
  unfold MapStorage.get at h
  unfold inTable
  cases hf : (s.storage.tables table).find key with
  | some row => rw [hf] at h; cases h; exact .inl ⟨row, rfl, rfl⟩
  | none => rw [hf] at h; cases h; exact .inr ⟨rfl, rfl⟩

/-- The first table, when it is loaded, has the entry or nothing newer than what is below. -/
theorem passed_first {job : SwapJob} (hv : ViewAt key v job s) :
    inTable key s s.storage.readerFirst = none ∧ v.recent = none ∨
      inTable key s s.storage.readerFirst = v.value := by
  have hrecent : inTable key s s.storage.readerFirst = v.recent := by
    cases job with
    | collected _ _ | created _ _ | listed _ _ | merged _ | newListed _ | renamed _ _ => exact hv.1.recent
    | added _ => exact Added.recent hv
    | secondExchanged _ => exact Exchanged.recent hv
    | _ => exact Settled.recent hv
  rw [hrecent]
  cases hr : v.recent with
  | none => exact .inl ⟨rfl, rfl⟩
  | some row => exact .inr (by rw [View.value, hr, Option.some_or])

theorem passed_second {job : SwapJob} (hv : ViewAt key v job s) (hr : v.recent = none) :
    inTable key s s.storage.readerSecond = none ∧ v.recent = none ∧ onDisk key s = v.value ∨
      inTable key s s.storage.readerSecond = v.value := by
  have hvalue : v.value = v.mid.or v.old := by rw [View.value, hr, Option.none_or]
  have hsettled (h : Settled key v s) : inTable key s s.storage.readerSecond = none ∧ v.recent = none ∧
      onDisk key s = v.value ∨ inTable key s s.storage.readerSecond = v.value := by
    rw [h.mid, h.old, hvalue]
    cases v.mid with
    | none => exact .inl ⟨rfl, hr, rfl⟩
    | some row => exact .inr rfl
  cases job with
  | collected _ _ | created _ _ | listed _ _ | merged _ | newListed _ | renamed _ _ => exact hsettled hv.1
  | added _ =>
    have hadded : Added key v s := hv
    rw [hadded.mid, hadded.old, hvalue]
    cases v.mid with
    | none => exact .inl ⟨rfl, hr, rfl⟩
    | some row => exact .inr rfl
  | secondExchanged _ =>
    have hex : Exchanged key v s := hv
    refine .inl ⟨?_, hr, hex.old.trans hvalue.symm⟩
    rw [hex.second, hex.recent, hr]
  | _ => exact hsettled hv

theorem onDisk_eq_none {job : SwapJob} (hv : ViewAt key v job s) (hnone : v.value = none) :
    v.recent = none ∧ onDisk key s = none := by
  obtain ⟨hr, hrest⟩ := Option.or_eq_none_iff.1 hnone
  refine ⟨hr, ?_⟩
  cases job with
  | collected _ _ | created _ _ | listed _ _ | merged _ | newListed _ | renamed _ _ =>
    rw [hv.1.old, (Option.or_eq_none_iff.1 hrest).2]
  | added _ => rw [Added.old hv, hrest]
  | secondExchanged _ => rw [Exchanged.old hv, hrest]
  | _ => rw [Settled.old hv, (Option.or_eq_none_iff.1 hrest).2]

/-- **A statement of the `Get`.** -/
theorem passed_getStep {job : SwapJob} {pc pc' : GetPc} (hs : Sound s) (hv : ViewAt key v job s)
    (hp : Passed key v s pc) (h : getStep key pc s = some pc') : Passed key v s pc' := by
  cases pc with
  | start =>
    cases h
    exact ⟨hs.first_lt, passed_first hv⟩
  | firstLoaded table =>
    rcases get_cases h with ⟨row, hrow, rfl⟩ | ⟨hnone, rfl⟩
    · rcases hp.2 with ⟨hnone, -⟩ | hvalue
      · rw [hrow] at hnone
        cases hnone
      · rw [Passed, ← hvalue, hrow]
        exact answers_fromMemory key row
    · rcases hp.2 with ⟨-, hr⟩ | hvalue
      · exact hr
      · rw [hnone, View.value] at hvalue
        exact (Option.or_eq_none_iff.1 hvalue.symm).1
  | firstMissed =>
    cases h
    exact ⟨hs.second_lt, passed_second hv hp⟩
  | secondLoaded table =>
    rcases get_cases h with ⟨row, hrow, rfl⟩ | ⟨hnone, rfl⟩
    · rcases hp.2 with ⟨hnone, -⟩ | hvalue
      · rw [hrow] at hnone
        cases hnone
      · rw [Passed, ← hvalue, hrow]
        exact answers_fromMemory key row
    · rcases hp.2 with ⟨-, hpassed⟩ | hvalue
      · exact hpassed
      · rw [hnone] at hvalue
        obtain ⟨hr, hdisk⟩ := onDisk_eq_none hv hvalue.symm
        exact ⟨hr, hdisk.trans hvalue⟩
  | memoryMissed =>
    cases h
    rw [Passed, ← hp.2]
    exact answers_fromDisk hs.persistentStorage key
  | got res => cases h

/-! ### The job -/

theorem holds_newPersistentStorage {io : StorageIO} {data : List StorageEntry} {d d' : Disk}
    {persistent : PersistentStorage} {value : Option Value} (hkeys : (data.map StorageEntry.key).Nodup)
    (hfind : (Keyed.find StorageEntry.key key data).map StorageEntry.toValue = value)
    (hnew : newPersistentStorage io data d = (.ok persistent, d')) : Holds key value persistent := by
  obtain ⟨-, -, -, -, hok⟩ := newPersistentStorage_cases io data d
  rw [hnew] at hok
  obtain ⟨rfl, -⟩ := hok persistent rfl
  refine ⟨⟨strict_insertionSort hkeys⟩, ?_⟩
  rw [PersistentStorage.find, find_insertionSort hkeys, hfind]

theorem holds_mergeData {io : StorageIO} {d : Disk} {newStorage : PersistentStorage} (hs : Sound s)
    (hm : mergeData io s.persistentStorage s.disk = some (.ok newStorage, d)) :
    Holds key (onDisk key s) newStorage := by
  obtain ⟨data, hdata, hnew⟩ := Option.map_eq_some_iff.1 hm
  obtain ⟨hstrict, hfind⟩ := mergeEntries_eq_some hs.persistentStorage hdata
  exact holds_newPersistentStorage hstrict.nodup (by rw [hfind]; rfl) hnew

/-- A table at the end of the collection answers first. -/
theorem onDisk_add (storage : PersistentStorage) :
    onDisk key { s with persistentStorage := ⟨s.persistentStorage.collection ++ [storage]⟩ } =
      ((storage.find key).map StorageEntry.toValue).or (onDisk key s) := by
  rw [onDisk, PersistentStorageCollection.find_concat, onDisk]
  cases storage.find key <;> rfl

theorem inTable_storeFirst (table : TableId) : inTable key { s with storage := s.storage.storeFirst } table =
    if table = s.storage.nextTable then none else inTable key s table := by
  unfold inTable SwappableMemoryStorage.storeFirst
  by_cases ht : table = s.storage.nextTable
  · subst ht
    simp
  · simp [ht]

/-- The only statements of a job that a reader can notice. -/
inductive Moves (s : StorageSystem) : SwapJob → SwapJob → StorageSystem → Prop
  | add {path persistent} : Moves s (.listed path persistent) (.added path)
      { s with persistentStorage := ⟨s.persistentStorage.collection ++ [persistent]⟩ }
  | exchangeSecond {path} : Moves s (.added path) (.secondExchanged path)
      { s with storage := s.storage.exchangeSecond }
  | storeFirst {path} : Moves s (.secondExchanged path) (.collectedRemoved path)
      { s with storage := s.storage.storeFirst }
  | swapCollection {newStorage toDelete} : Moves s (.renamed newStorage toDelete) (.swapped toDelete)
      { s with persistentStorage := ⟨[newStorage]⟩ }

theorem moves_or_sameView {io : SwapJobIO} {pc pc' : SwapJob} (h : SwapJob.step io pc s = some (pc', s')) :
    Moves s pc pc' s' ∨ SameView key s s' ∧ v.next pc = v := by
  cases SwapJob.step_cases h with
  | add => exact .inl .add
  | exchangeSecond => exact .inl .exchangeSecond
  | storeFirst => exact .inl .storeFirst
  | swapCollection => exact .inl .swapCollection
  | _ => exact .inr ⟨⟨rfl, rfl, rfl, rfl, fun _ => rfl⟩, rfl⟩

theorem sound_step {io : SwapJobIO} {pc pc' : SwapJob} (hs : Sound s) (hv : ViewAt key v pc s)
    (h : SwapJob.step io pc s = some (pc', s')) : Sound s' := by
  rcases moves_or_sameView h with hm | ⟨(hsame : SameView key s s'), (_ : v.next pc = v)⟩
  · cases hm with
    | add => exact ⟨hs.persistentStorage.concat hv.2.wf, hs.first_lt, hs.second_lt⟩
    | exchangeSecond => exact ⟨hs.persistentStorage, hs.first_lt, hs.first_lt⟩
    | storeFirst => exact ⟨hs.persistentStorage, Nat.lt_succ_self _, Nat.lt_succ_of_lt hs.second_lt⟩
    | swapCollection => exact ⟨PersistentStorageCollection.Wf.singleton hv.2.wf, hs.first_lt, hs.second_lt⟩
  · exact hs.congr hsame

/-- **A statement of a job moves the entry down, or leaves it.** -/
theorem viewAt_step {io : SwapJobIO} {pc pc' : SwapJob} (hs : Sound s) (hv : ViewAt key v pc s)
    (h : SwapJob.step io pc s = some (pc', s')) : ViewAt key (v.next pc) pc' s' := by
  cases SwapJob.step_cases h with
  | copySecond =>
    refine ⟨hv, MapStorage.toEntries_keys_nodup _, ?_⟩
    have hmid : inTable key s s.storage.readerSecond = v.mid := Settled.mid hv
    show (Keyed.find StorageEntry.key key s.storage.copySecond).map StorageEntry.toValue = v.mid
    rw [SwappableMemoryStorage.copySecond, MapStorage.find_toEntries, Option.map_map, ← hmid, inTable]
    cases (s.storage.tables s.storage.readerSecond).find key <;> rfl
  | table hnew =>
    exact ⟨hv.1.congr ⟨rfl, rfl, rfl, rfl, fun _ => rfl⟩, holds_newPersistentStorage hv.2.1 hv.2.2 hnew⟩
  | add =>
    obtain ⟨hset, hholds⟩ := hv
    refine ⟨?_, hset.mid, hset.recent⟩
    rw [onDisk_add, hholds.find, hset.old]
    rfl
  | exchangeSecond =>
    have hadded : Added key v s := hv
    exact ⟨hadded.old, rfl, hadded.recent⟩
  | storeFirst =>
    have hex : Exchanged key v s := hv
    refine ⟨hex.old, ?_, (inTable_storeFirst _).trans (if_pos rfl)⟩
    refine ((inTable_storeFirst _).trans (if_neg (ne_of_lt hs.second_lt))).trans ?_
    exact (congrArg (inTable key s) hex.second).trans hex.recent
  | merge hm =>
    have hset : Settled key v s := hv
    refine ⟨hset.congr ⟨rfl, rfl, rfl, rfl, fun _ => rfl⟩, ?_⟩
    show Holds key v.old _
    rw [← hset.old]
    exact holds_mergeData hs hm
  | swapCollection =>
    obtain ⟨hset, hholds⟩ := hv
    refine ⟨?_, hset.mid, hset.recent⟩
    rw [onDisk, PersistentStorageCollection.find_singleton, hholds.find]
    rfl
  | tableFails _ | appendFails _ | appendNewFails _ =>
    exact Settled.congr hv.1 ⟨rfl, rfl, rfl, rfl, fun _ => rfl⟩
  | append _ | appendNew _ | rename => exact ⟨hv.1.congr ⟨rfl, rfl, rfl, rfl, fun _ => rfl⟩, hv.2⟩
  | _ => exact Settled.congr hv ⟨rfl, rfl, rfl, rfl, fun _ => rfl⟩

/-- **What the reader knows stays true.** -/
theorem passed_step {io : SwapJobIO} {pc pc' : SwapJob} {reader : GetPc} (hv : ViewAt key v pc s)
    (hp : Passed key v s reader) (h : SwapJob.step io pc s = some (pc', s')) :
    Passed key (v.next pc) s' reader := by
  rcases moves_or_sameView h with hm | ⟨(hsame : SameView key s s'), (hnext : v.next pc = v)⟩
  · cases hm with
    | add =>
      obtain ⟨hset, hholds⟩ := hv
      refine passed_mono hp rfl id (fun hr _ => ?_) (fun _ _ => rfl) le_rfl
      rw [onDisk_add, hholds.find, hset.old, View.value, hr, Option.none_or]
    | exchangeSecond => exact passed_mono hp rfl id (fun _ hd => hd) (fun _ _ => rfl) le_rfl
    | storeFirst =>
      exact passed_mono hp (View.value_next v _) (fun _ => rfl) (fun _ hd => hd)
        (fun table hlt => (inTable_storeFirst table).trans (if_neg (ne_of_lt hlt))) (Nat.le_succ _)
    | swapCollection =>
      obtain ⟨hset, hholds⟩ := hv
      refine passed_mono hp rfl id (fun _ hd => ?_) (fun _ _ => rfl) le_rfl
      rw [onDisk, PersistentStorageCollection.find_singleton, hholds.find, ← hd, hset.old]
  · rw [hnext]
    exact passed_congr hp hsame

/-! ### The run -/

structure Inv (key : Str) (value : Option Value) (s : State) : Prop where
  sound : Sound s.system
  view : ∃ v : View, v.value = value ∧ ViewAt key v s.job s.system ∧ Passed key v s.system s.reader
  ops : ∀ o ∈ s.ops, o.write.key ≠ key

theorem inv_init {ops : List ConcurrentSwap.Operation} (hsound : Sound s)
    (hops : ∀ o ∈ ops, o.write.key ≠ key) :
    Inv key (s.entry key) ⟨s, .succeeds, .done, ops, .start⟩ where
  sound := hsound
  view := by
    refine ⟨⟨onDisk key s, inTable key s s.storage.readerSecond, inTable key s s.storage.readerFirst⟩, ?_,
      ⟨rfl, rfl, rfl⟩, trivial⟩
    rw [View.value, entry, SwappableMemoryStorage.find, Option.or_assoc]
    rfl
  ops := hops

theorem inv_step {value : Option Value} {s s' : State} {a : Label} (hi : Inv key value s)
    (hs : step key s a = some s') : Inv key value s' := by
  obtain ⟨hsound, ⟨v, hvalue, hview, hpassed⟩, hops⟩ := hi
  cases a with
  | begin w =>
    simp only [step] at hs
    split at hs <;> cases hs
    rename_i hne
    refine ⟨hsound, ⟨v, hvalue, hview, hpassed⟩, fun o ho => ?_⟩
    rcases List.mem_append.1 ho with ho | ho
    · exact hops o ho
    · rw [List.mem_singleton.1 ho]
      exact hne
  | op i =>
    obtain ⟨o, ho, h⟩ := Option.bind_eq_some_iff.1 hs
    obtain ⟨next, hstep, rfl⟩ := Option.map_eq_some_iff.1 h
    have hne := hops o (List.mem_of_getElem? ho)
    have hsame := sameView_opStep hne hstep
    refine ⟨hsound.congr hsame, ⟨v, hvalue, viewAt_congr hview hsame, passed_congr hpassed hsame⟩,
      fun u hu => ?_⟩
    rcases List.mem_or_eq_of_mem_set hu with hu | rfl
    · exact hops u hu
    · exact hne
  | startJob io =>
    simp only [step] at hs
    split at hs <;> cases hs
    rename_i hjob
    rw [hjob] at hview
    exact ⟨hsound, ⟨v, hvalue, hview, hpassed⟩, hops⟩
  | job =>
    obtain ⟨next, hstep, rfl⟩ := Option.map_eq_some_iff.1 hs
    exact ⟨sound_step hsound hview hstep, ⟨v.next s.job, (v.value_next _).trans hvalue,
      viewAt_step hsound hview hstep, passed_step hview hpassed hstep⟩, hops⟩
  | get =>
    obtain ⟨reader, hstep, rfl⟩ := Option.map_eq_some_iff.1 hs
    exact ⟨hsound, ⟨v, hvalue, hview, passed_getStep hsound hview hpassed hstep⟩, hops⟩

end

/-- **A `Get` that overlaps with any number of jobs answers as it would have before the first of them.** -/
theorem answers_get_of_reachable {s₀ : StorageSystem} (h₀ : Sound s₀) {key : Str}
    {ops : List ConcurrentSwap.Operation} (hops : ∀ o ∈ ops, o.write.key ≠ key) {s : State}
    (hs : (system key s₀ ops).Reachable s) {res : Result ValueDTO} (hres : s.reader = .got res) :
    ∃ outcome, Answers (s₀.get key) outcome ∧ Answers res outcome := by
  have hi : Inv key (s₀.entry key) s := hs.invariant (fun _ hinit => hinit ▸ inv_init h₀ hops)
    fun _ _ _ hi _ hs => inv_step hi hs
  obtain ⟨v, hvalue, -, hpassed⟩ := hi.view
  rw [hres, Passed, hvalue] at hpassed
  exact ⟨_, answers_get h₀.persistentStorage key, hpassed⟩

/-- An engine with one row. -/
def oneRow : StorageSystem := (StorageSystem.new.exec true (.insert ⟨[97], [1], 1⟩)).2

/-- The `Get` loads the first pointer, two jobs run, and the `Get` goes on. -/
def overlappedRun : List Label :=
  .get :: .startJob .succeeds :: List.replicate 12 .job ++
    .get :: .startJob .succeeds :: List.replicate 12 .job ++
    [.get, .get, .get]

theorem answers_get_overlappedRun : ∃ s res,
    exec (step [97]) ⟨oneRow, .succeeds, .done, [], .start⟩ overlappedRun = some s ∧ s.reader = .got res ∧
      ∃ outcome, Answers (oneRow.get [97]) outcome ∧ Answers res outcome := by
  have hsound : Sound oneRow := sound_of_wf (exec_true wf_new _).2.1
  obtain ⟨s, hs⟩ : ∃ s, exec (step [97]) ⟨oneRow, .succeeds, .done, [], .start⟩ overlappedRun = some s :=
    Option.isSome_iff_exists.1 (by decide +kernel)
  have hreader : s.reader = .got (.ok ⟨[1], 1⟩) :=
    eq_of_map_exec hs (f := fun s => s.reader) (by decide +kernel)
  have hreach : (system [97] oneRow []).Reachable s := reachable_exec (.init rfl) hs
  exact ⟨s, _, hs, hreader, answers_get_of_reachable hsound (fun o ho => by cases ho) hreach hreader⟩

end SettledKey

end Iu9Db
