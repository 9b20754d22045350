import Iu9Db.Layers

/-!
# The storage engine as a plain map

`run` executes operations and, between them, swap jobs that get to their end or stop at an error.
With versions that never decrease on a key, what `Get` answers is what a plain map would
(`refines_plainMap`): the layers, the rotation of the two memory tables and the merges do not show.
-/

namespace Iu9Db

open StorageSystem

/-- What happens to the engine, one after another. -/
inductive Event
  | write (w : Write)
  | trigger (io : SwapJobIO)

namespace Event

/-- One event; every append to the log succeeds. -/
def step : Event → StorageSystem → Option StorageSystem
  | write w, s => some (s.exec true w).2
  | trigger io, s => s.triggerSwapToPersistentStorage io

def run (evs : List Event) (s : StorageSystem) : Option StorageSystem := evs.foldlM (fun s ev => ev.step s) s

def write? : Event → Option Write
  | write w => some w
  | trigger _ => none

/-- The operations of a run. -/
def writes (evs : List Event) : List Write := evs.filterMap write?

theorem run_concat (evs : List Event) (ev : Event) (s : StorageSystem) :
    run (evs ++ [ev]) s = (run evs s).bind ev.step := by
  simp only [run, List.foldlM_append, List.foldlM_cons, List.foldlM_nil, bind_pure, Option.bind_eq_bind]

end Event

/-! ### The plain map -/

/-- A map from keys to values. -/
abbrev PlainMap := Str → Option Str

def PlainMap.apply (m : PlainMap) : Write → PlainMap
  | .insert kwPair => Function.update m kwPair.key (some kwPair.value)
  | .remove key _ => Function.update m key none

/-- The map after the operations. -/
def PlainMap.ofWrites (ws : List Write) : PlainMap := ws.foldl apply fun _ => none

/-- What `Get` has to answer: the value, or a not-found error. -/
def Answers (got : Result ValueDTO) : Option Str → Prop
  | some value => ∃ version, got = .ok ⟨value, version⟩
  | none => ∃ e, got = .error e ∧ e.wraps .kNotFound = true

theorem Answers.unique {got : Result ValueDTO} {a b : Option Str} (ha : Answers got a) (hb : Answers got b) :
    a = b := by
  have key : ∀ {c}, Answers got c → got.toOption.map ValueDTO.value = c := by
    intro c hc
    cases c with
    | some value => obtain ⟨version, rfl⟩ := hc; rfl
    | none => obtain ⟨e, rfl, -⟩ := hc; rfl
  exact (key ha).symm.trans (key hb)

/-- On each key versions never decrease. -/
def VersionsSorted (ws : List Write) : Prop := ws.Pairwise fun w w' => w.key = w'.key → w.version ≤ w'.version

theorem PlainMap.ofWrites_concat (ws : List Write) (w : Write) :
    ofWrites (ws ++ [w]) = (ofWrites ws).apply w := by
  simp [ofWrites]

theorem PlainMap.apply_eq (m : PlainMap) (w : Write) (k : Str) :
    m.apply w k = if k = w.key then w.value.value else m k := by
  by_cases hk : k = w.key
  · subst hk
    cases w <;> simp [apply, Write.key, Write.value]
  · rw [if_neg hk]
    cases w <;> exact Function.update_of_ne hk _ _

/-- The map holds the value that the last operation on a key leaves. -/
theorem PlainMap.ofWrites_eq (ws : List Write) (k : Str) :
    ofWrites ws k = (lastValue ws k).bind Value.value := by
  induction ws using List.reverseRecOn with
  | nil => rfl
  | append_singleton ws w ih =>
    rw [ofWrites_concat, apply_eq, lastValue_concat, ih]
    split <;> rfl

/-! ### The invariant of a run -/

/-- The engine after the operations `ws`, between two events. -/
structure Between (ws : List Write) (h : History) (s : StorageSystem) : Prop where
  all : h.all = ws
  layers : Layers h s
  filled : s.persistentStorage.Filled
  second : s.storage.writerTable = s.storage.readerFirst →
    (s.storage.tables s.storage.readerSecond).toEntries ≠ []
  count : (s.storage.counters s.storage.writer).referenceCount = 0

section
variable {ws : List Write} {h : History} {s : StorageSystem}

theorem between_new : Between [] ⟨[], [], []⟩ .new where
  all := rfl
  layers := layers_new
  filled := by simp [PersistentStorageCollection.Filled, StorageSystem.new]
  second he := by cases he
  count := rfl

/-- An operation not older than those before it on its key is not omitted. -/
theorem Between.not_omits (hb : Between ws h s) {w : Write}
    (hw : ∀ u ∈ ws, u.key = w.key → u.version ≤ w.version) : omits w.version (s.get w.key) = false := by
  rw [Bool.eq_false_iff]
  intro ho
  obtain ⟨hnone, record, hrec, -, hlt⟩ := (omits_iff hb.layers.wf.persistentStorage _ _).1 ho
  obtain ⟨u, hu, hk, hv, -⟩ := hb.layers.exists_record hnone hrec
  have hmem : u ∈ ws := by rw [← hb.all, History.all, List.append_assoc]; simp [hu]
  have hle := hw u hmem hk
  have hversion : u.version = record.version := by rw [← Write.value_version, hv]; rfl
  exact absurd hlt (not_lt.2 (hversion ▸ hle))

theorem Between.write (hb : Between ws h s) {w : Write}
    (hw : ∀ u ∈ ws, u.key = w.key → u.version ≤ w.version) :
    Between (ws ++ [w]) (h.write s w) (s.exec true w).2 := by
  have hwf := hb.layers.wf.storage
  have ho := hb.not_omits hw
  rcases exec_cases true w s with ⟨ho', -⟩ | ⟨-, hok, -⟩ | ⟨-, -, he⟩
  · rw [ho] at ho'; cases ho'
  · cases hok
  · rw [he]
    refine ⟨?_, hb.layers.applied w _, hb.filled, fun hfirst => ?_, hb.count⟩
    · rw [hb.layers.all_write, hb.all]
    · have hfirst' : s.storage.writerTable = s.storage.readerFirst := hfirst
      have hsame : (s.storage.setTable s.storage.writerTable
          (w.applyTo (s.storage.tables s.storage.writerTable))).tables s.storage.readerSecond =
          s.storage.tables s.storage.readerSecond := by
        simp only [SwappableMemoryStorage.setTable, hfirst', Function.update_of_ne hwf.ne.symm]
      simp only [SwappableMemoryStorage.setTable] at hsame ⊢
      rw [hsame]
      exact hb.second hfirst'

theorem filled_mergeEntries {storages : List PersistentStorage} (hwf : ∀ s ∈ storages, s.Wf)
    (hne : ∀ s ∈ storages, s.entries ≠ []) (hpos : storages ≠ []) :
    ∃ data, mergeEntries storages = some data ∧ data ≠ [] := by
  obtain ⟨data, hdata, -, hfind⟩ := mergeEntries_spec hwf hne
  refine ⟨data, hdata, ?_⟩
  rintro rfl
  obtain ⟨init, st, rfl⟩ : ∃ init st, storages = init ++ [st] :=
    ⟨_, _, (List.dropLast_append_getLast hpos).symm⟩
  obtain ⟨e, l, hl⟩ := List.exists_cons_of_ne_nil (hne st (by simp))
  have := hfind e.key
  rw [PersistentStorageCollection.find_concat, PersistentStorage.find, hl, Keyed.find_cons, if_pos rfl]
    at this
  cases this

/-- A compaction of filled tables comes to its end and leaves filled tables. -/
theorem exists_runCompaction (mergeIo : StorageIO) (swapIo : AppendIO) {c : PersistentStorageCollection}
    (d : Disk) (hwf : c.Wf) (hfilled : c.Filled) :
    ∃ c' d', runCompaction mergeIo swapIo c d = some (c', d') ∧ c'.Filled := by
  unfold runCompaction
  split
  · exact ⟨c, d, rfl, hfilled⟩
  · rename_i hsize
    have hpos : c.collection ≠ [] := fun hnil => hsize (by simp [PersistentStorageCollection.size, hnil])
    obtain ⟨data, hdata, hne⟩ := filled_mergeEntries hwf hfilled hpos
    have hm : mergeData mergeIo c d = some (newPersistentStorage mergeIo data d) := by simp [mergeData, hdata]
    obtain ⟨-, -, -, -, hok⟩ := newPersistentStorage_cases mergeIo data d
    rw [hm]
    cases hnew : newPersistentStorage mergeIo data d with
    | mk r d₁ =>
      cases r with
      | error e => exact ⟨c, d₁, rfl, hfilled⟩
      | ok st =>
        rw [hnew] at hok
        obtain ⟨rfl, -⟩ := hok st rfl
        refine ⟨_, _, rfl, ?_⟩
        unfold PersistentStorageCollection.swapWith
        dsimp only
        split
        · exact hfilled
        · intro st hst
          rw [List.mem_singleton.1 hst]
          exact insertionSort_ne_nil hne

/-- **A job on filled tables comes to its end** and leaves filled tables. -/
theorem exists_swapToPersistentStorage (io : SwapJobIO) (hwf : s.persistentStorage.Wf)
    (hfilled : s.persistentStorage.Filled)
    (hsecond : (s.storage.tables s.storage.readerSecond).toEntries ≠ []) :
    ∃ s', s.swapToPersistentStorage io = some s' ∧ s'.persistentStorage.Filled := by
  unfold swapToPersistentStorage swapWal
  cases newWalWriter io.newWal s.disk with
  | mk r d =>
    cases r with
    | error e => exact ⟨_, rfl, hfilled⟩
    | ok file =>
      simp only [SwappableMemoryStorage.collect]
      obtain ⟨-, -, -, -, hok⟩ := newPersistentStorage_cases io.table s.storage.exchangeWriter.copySecond d
      cases hnew : newPersistentStorage io.table s.storage.exchangeWriter.copySecond d with
      | mk r d₁ =>
        cases r with
        | error e => exact ⟨_, rfl, hfilled⟩
        | ok st =>
          rw [hnew] at hok
          have hst : st.entries = s.storage.exchangeWriter.copySecond.insertionSort (· ≤ ·) := by
            rw [(hok st rfl).1]
          have hstwf : st.Wf := ⟨hst ▸ strict_insertionSort
            (MapStorage.toEntries_keys_nodup (s.storage.tables s.storage.readerSecond))⟩
          have hstne : st.entries ≠ [] := hst ▸ insertionSort_ne_nil hsecond
          simp only [PersistentStorageCollection.add]
          cases appendMetadata io.append st d₁ with
          | mk r d₂ =>
            cases r with
            | error e => exact ⟨_, rfl, hfilled⟩
            | ok u =>
              obtain ⟨c, d₃, hc, hcf⟩ :=
                exists_runCompaction io.mergeTable io.mergeAppend (removeWal s.walWriter d₂)
                (PersistentStorageCollection.Wf.concat hwf hstwf) (hfilled.concat hstne)
              exact ⟨_, by dsimp only; rw [hc]; rfl, hcf⟩

theorem Between.trigger (hb : Between ws h s) (io : SwapJobIO) :
    ∃ h' s', s.triggerSwapToPersistentStorage io = some s' ∧ Between ws h' s' := by
  unfold triggerSwapToPersistentStorage
  split
  · exact ⟨h, s, rfl, hb⟩
  · rename_i hsize
    have hwf := hb.layers.wf.storage
    have hsecond : (s.storage.tables s.storage.readerSecond).toEntries ≠ [] := by
      rcases hwf.writer with hfirst | ⟨hsecond, -⟩
      · exact hb.second hfirst
      · rw [← hsecond]
        intro hnil
        have hzero : s.storage.size = 0 := MapStorage.toEntries_eq_nil.1 hnil
        exact hsize (by rw [hzero]; decide)
    obtain ⟨s', hs', hfilled⟩ :=
      exists_swapToPersistentStorage io hb.layers.wf.persistentStorage hb.filled hsecond
    obtain ⟨h', hall, hl'⟩ := layers_of_steps (h := h) (a := (.start, s)) hb.layers
      (SwapJob.steps_swapToPersistentStorage hb.count hwf.writer_lt hs')
    have hl' : Layers h' s' := hl'
    refine ⟨h', s', hs', hall.trans hb.all, hl', hfilled, fun hfirst => ?_,
      SwapJob.count_swapToPersistentStorage hb.count hs'⟩
    rcases SwapJob.storage_swapToPersistentStorage hs' with he | he | he
    · rw [he]; exact hsecond
    · rw [he]; exact hsecond
    · rw [he] at hfirst
      have hw := SwappableMemoryStorage.Wf.writerTable_exchangeWriter s.storage
      exact absurd (hfirst.symm.trans hw).symm (ne_of_lt hwf.first_lt)

theorem exists_run (evs : List Event) (hv : VersionsSorted (Event.writes evs)) :
    ∃ h s, Event.run evs .new = some s ∧ Between (Event.writes evs) h s := by
  induction evs using List.reverseRecOn with
  | nil => exact ⟨_, _, rfl, between_new⟩
  | append_singleton evs ev ih =>
    rw [Event.writes, List.filterMap_append] at hv
    obtain ⟨hv, -, hlast⟩ := List.pairwise_append.1 hv
    obtain ⟨h, s, hrun, hb⟩ := ih hv
    rw [Event.run_concat, hrun, Event.writes, List.filterMap_append]
    cases ev with
    | write w =>
      exact ⟨h.write s w, _, rfl, hb.write fun u hu hk => hlast u hu w (by simp [Event.write?]) hk⟩
    | trigger io =>
      obtain ⟨h', s', hs', hb'⟩ := hb.trigger io
      refine ⟨h', s', hs', ?_⟩
      rw [show List.filterMap Event.write? [Event.trigger io] = [] from rfl, List.append_nil]
      exact hb'

theorem answers_get (hwf : s.persistentStorage.Wf) (k : Str) :
    Answers (s.get k) ((s.entry k).bind Value.value) := by
  rw [← get_value hwf k]
  cases hg : s.get k with
  | ok r => exact ⟨r.version, rfl⟩
  | error e => exact ⟨e, rfl, get_error hg⟩

end

/-- **The engine refines a plain map**: with versions that never decrease on a key, and jobs that
complete or stop wherever a job can stop, every `Get` is answered as a plain map would. -/
theorem refines_plainMap (evs : List Event) (hv : VersionsSorted (Event.writes evs)) :
    ∃ s, Event.run evs .new = some s ∧ ∀ k, Answers (s.get k) (PlainMap.ofWrites (Event.writes evs) k) := by
  obtain ⟨h, s, hrun, hb⟩ := exists_run evs hv
  refine ⟨s, hrun, fun k => ?_⟩
  rw [PlainMap.ofWrites_eq, ← hb.all, ← hb.layers.entry]
  exact answers_get hb.layers.wf.persistentStorage k

/-- Five insertions and a complete job, five more and a job that cannot list its table, removals of a
row on disk and of one in memory, three insertions and a complete job again. -/
def jobsRun : List Event :=
  List.flatten [(List.range 5).map fun i => .write (.insert ⟨[.ofNat i], [1], 1⟩), [.trigger .succeeds],
    (List.range 5).map fun i => .write (.insert ⟨[.ofNat (i + 4)], [2], 2⟩),
    [.trigger { SwapJobIO.succeeds with append := .openFails (makeError (text "disk full")) }],
    [.write (.remove [0] 2), .write (.remove [8] 3)],
    (List.range 3).map fun i => .write (.insert ⟨[.ofNat (i + 9)], [3], 3⟩), [.trigger .succeeds]]

theorem refines_plainMap_jobsRun : ∃ s, Event.run jobsRun .new = some s ∧
    s.persistentStorage.collection.map (fun storage => storage.entries.map StorageEntry.key) =
      [[[0], [1], [2], [3], [4]], [[4], [5], [6], [7], [8]]] ∧
    s.get [4] = .ok ⟨[2], 2⟩ ∧ (s.get [8]).isOk = false ∧
    ∀ k, Answers (s.get k) (PlainMap.ofWrites (Event.writes jobsRun) k) := by
  have hsorted : VersionsSorted (Event.writes jobsRun) := by
    unfold VersionsSorted
    decide +kernel
  obtain ⟨s, hrun, hanswers⟩ := refines_plainMap jobsRun hsorted
  have htables : (Event.run jobsRun .new).map (fun s =>
      s.persistentStorage.collection.map fun storage => storage.entries.map StorageEntry.key) =
      some [[[0], [1], [2], [3], [4]], [[4], [5], [6], [7], [8]]] := by decide +kernel
  have hfound : (Event.run jobsRun .new).map (fun s => s.get [4]) = some (.ok ⟨[2], 2⟩) := by decide +kernel
  have hremoved : (Event.run jobsRun .new).map (fun s => (s.get [8]).isOk) = some false := by decide +kernel
  rw [hrun] at htables hfound hremoved
  exact ⟨s, hrun, Option.some.inj htables, Option.some.inj hfound, Option.some.inj hremoved, hanswers⟩

end Iu9Db
