import Iu9Db.Layers

/-!
# Rounds of `Collect` and `RemoveCollected`

A round lasts from the first `Collect` after a `RemoveCollected` to the next `RemoveCollected`. The
first `Collect` of a round moves the writer on, and further ones change nothing: they all return what
was written up to the first one (`collectsRound_of_valid`).
-/

namespace Iu9Db

open Keyed

namespace CollectRounds

/-- A call of a method of `SwappableMemoryStorage`. -/
inductive Call
  | insert (data : KwPair)
  | remove (key : Str) (version : UInt64)
  | get (key : Str)
  | size
  | collect
  | removeCollected

/-- What a call leaves of the storage. -/
def Call.exec : Call → SwappableMemoryStorage → SwappableMemoryStorage
  | insert data, s => s.insert data
  | remove key version, s => s.remove key version
  | get _, s | size, s => s
  | collect, s => s.collect.1
  | removeCollected, s => s.removeCollected

/-- The storage after a sequential run. -/
def run (calls : List Call) (s : SwappableMemoryStorage) : SwappableMemoryStorage :=
  calls.foldl (fun s call => call.exec s) s

/-- The entries of a run, by the rounds. `written`: those since the first `Collect` of the previous
round, or since construction, up to the first `Collect` of this one. `since`: those since then.
`collected`: there is one. -/
structure Rounds where
  written : List Write
  since : List Write
  collected : Bool

namespace Rounds

def write (w : Write) (r : Rounds) : Rounds :=
  if r.collected then { r with since := r.since ++ [w] } else { r with written := r.written ++ [w] }

def call : Call → Rounds → Rounds
  | .insert data, r => r.write (.insert data)
  | .remove key version, r => r.write (.remove key version)
  | .get _, r | .size, r => r
  | .collect, r => { r with collected := true }
  | .removeCollected, r => ⟨r.since, [], false⟩

/-- The entries of the map that the storage is built from count as written. -/
def start (other : MapStorage) : Rounds :=
  ⟨other.toEntries.map fun e => e.value.elim (.remove e.key e.version) fun value => .insert ⟨e.key, value,
    e.version⟩, [], false⟩

def after (calls : List Call) (r : Rounds) : Rounds := calls.foldl (fun r call => r.call call) r

end Rounds

/-- Each `RemoveCollected` comes after a `Collect` of its round. -/
def Valid : List Call → Rounds → Prop
  | [], _ => True
  | call :: calls, r => (call = .removeCollected → r.collected = true) ∧ Valid calls (r.call call)

/-- What the calls do in a state with these rounds. -/
structure CollectsRound (s : SwappableMemoryStorage) (r : Rounds) : Prop where
  writer : s.writerTable = s.readerFirst ∨ s.writerTable = s.readerSecond
  found : ∀ key v, lastValue (r.written ++ r.since) key = some v → s.get key = .ok v
  notFound : ∀ key, lastValue (r.written ++ r.since) key = none →
    ∃ e, s.get key = .error e ∧ e.wraps .kNotFound = true
  collect_nodup : (s.collect.2.map StorageEntry.key).Nodup
  collect : ∀ e, e ∈ s.collect.2 ↔ lastValue r.written e.key = some e.toValue
  removeCollected : r.collected = true → ∀ key, s.removeCollected.find key = lastValue r.since key

/-- How the tables hold the rounds. -/
structure Inv (s : SwappableMemoryStorage) (r : Rounds) : Prop where
  wf : s.Wf
  writer : s.writerTable = if r.collected then s.readerFirst else s.readerSecond
  second : ∀ k, (s.tables s.readerSecond).find k = lastValue r.written k
  first : ∀ k, (s.tables s.readerFirst).find k = lastValue r.since k

section
variable {s : SwappableMemoryStorage} {r : Rounds} {other : MapStorage} {calls : List Call}

theorem lastValue_start (k : Str) : lastValue (Rounds.start other).written k = other.find k := by
  let toWrite (e : StorageEntry) : Write :=
    e.value.elim (.remove e.key e.version) fun value => .insert ⟨e.key, value, e.version⟩
  have hkey (e : StorageEntry) : (toWrite e).key = e.key := by
    obtain ⟨key, value, version⟩ := e
    cases value <;> rfl
  have hvalue (e : StorageEntry) : (toWrite e).value = e.toValue := by
    obtain ⟨key, value, version⟩ := e
    cases value <;> rfl
  show (findLast Write.key k (other.toEntries.map toWrite)).map Write.value = _
  rw [findLast_map, Option.map_map]
  have hlast : findLast (Write.key ∘ toWrite) k other.toEntries =
    find StorageEntry.key k other.toEntries := by
    rw [show Write.key ∘ toWrite = StorageEntry.key from funext hkey]
    exact findLast_eq_find other.toEntries_keys_nodup k
  rw [hlast, show Write.value ∘ toWrite = StorageEntry.toValue from funext hvalue, other.find_toEntries,
    Option.map_map]
  cases other.find k <;> rfl

theorem inv_ofMap : Inv (.ofMap other) (.start other) := by
  refine ⟨SwappableMemoryStorage.wf_ofMap other, rfl, fun k => ?_, fun k => ?_⟩
  · rw [lastValue_start]
    rfl
  · exact MapStorage.find_empty k

theorem Inv.write (h : Inv s r) (w : Write) :
    Inv (s.setTable s.writerTable (w.applyTo (s.tables s.writerTable))) (r.write w) := by
  have hwf := h.wf.setTable_writerTable (w.applyTo (s.tables s.writerTable))
  have hwriter := h.writer
  unfold Rounds.write
  cases hc : r.collected with
  | true =>
    rw [hc, if_pos rfl] at hwriter
    refine ⟨hwf, hwriter, fun k => ?_, fun k => ?_⟩
    · show ((Function.update s.tables s.writerTable _) s.readerSecond).find k = _
      rw [hwriter, Function.update_of_ne h.wf.ne.symm]
      exact h.second k
    · show ((Function.update s.tables s.writerTable _) s.readerFirst).find k = lastValue (r.since ++ [w]) k
      rw [hwriter, Function.update_self, Write.find_applyTo, h.first, lastValue_concat]
  | false =>
    rw [hc, if_neg Bool.false_ne_true] at hwriter
    refine ⟨hwf, hwriter, fun k => ?_, fun k => ?_⟩
    · show ((Function.update s.tables s.writerTable _) s.readerSecond).find k = lastValue (r.written ++ [w]) k
      rw [hwriter, Function.update_self, Write.find_applyTo, h.second, lastValue_concat]
    · show ((Function.update s.tables s.writerTable _) s.readerFirst).find k = _
      rw [hwriter, Function.update_of_ne h.wf.ne]
      exact h.first k

theorem Inv.exchangeWriter (h : Inv s r) : Inv s.exchangeWriter { r with collected := true } :=
  ⟨h.wf.exchangeWriter, SwappableMemoryStorage.Wf.writerTable_exchangeWriter s, h.second, h.first⟩

/-- `RemoveCollected` after a `Collect`: the table that is written becomes the one to be collected next. -/
theorem Inv.removeCollected (h : Inv s r) (hc : r.collected = true) :
    Inv s.removeCollected ⟨r.since, [], false⟩ := by
  have hwriter := h.writer
  rw [hc, if_pos rfl] at hwriter
  refine ⟨h.wf.removeCollected hwriter, hwriter, fun k => ?_, fun k => ?_⟩
  · rw [SwappableMemoryStorage.Wf.readerSecond_removeCollected,
      SwappableMemoryStorage.Wf.tables_removeCollected, if_neg (ne_of_lt h.wf.first_lt)]
    exact h.first k
  · rw [SwappableMemoryStorage.Wf.readerFirst_removeCollected,
      SwappableMemoryStorage.Wf.tables_removeCollected, if_pos rfl]
    exact MapStorage.find_empty k

theorem Inv.exec (h : Inv s r) {call : Call} (hvalid : call = .removeCollected → r.collected = true) :
    Inv (call.exec s) (r.call call) := by
  cases call with
  | insert data =>
    show Inv (s.insert data) _
    rw [SwappableMemoryStorage.insert_eq]
    exact h.write (.insert data)
  | remove key version =>
    show Inv (s.remove key version) _
    rw [SwappableMemoryStorage.remove_eq]
    exact h.write (.remove key version)
  | get key => exact h
  | size => exact h
  | collect => exact h.exchangeWriter
  | removeCollected => exact h.removeCollected (hvalid rfl)

theorem Inv.run (h : Inv s r) (hvalid : Valid calls r) : Inv (run calls s) (r.after calls) := by
  induction calls generalizing s r with
  | nil => exact h
  | cons call calls ih =>
    obtain ⟨hcall, hcalls⟩ := hvalid
    exact ih (h.exec hcall) hcalls

theorem Inv.collectsRound (h : Inv s r) : CollectsRound s r := by
  have hfind : ∀ key, s.find key = lastValue (r.written ++ r.since) key := by
    intro key
    rw [SwappableMemoryStorage.find, h.first, h.second, lastValue_append]
  refine ⟨?_, fun key v hv => ?_, fun key hnone => ?_, ?_, fun e => ?_, fun hc key => ?_⟩
  · rw [h.writer]
    cases r.collected with
    | true => exact .inl rfl
    | false => exact .inr rfl
  · exact (s.get_eq key).2 v ((hfind key).trans hv)
  · exact (s.get_eq key).1 ((hfind key).trans hnone)
  · exact (s.tables s.readerSecond).toEntries_keys_nodup
  · show e ∈ (s.tables s.readerSecond).toEntries ↔ _
    rw [MapStorage.mem_toEntries, h.second]
  · rw [h.wf.find_removeCollected, h.first]

end

/-- **A storage drops exactly what was collected**, after every run from a map in which each
`RemoveCollected` comes after a `Collect`. -/
theorem collectsRound_of_valid (other : MapStorage) (calls : List Call)
    (hvalid : Valid calls (.start other)) :
    CollectsRound (run calls (.ofMap other)) (Rounds.after calls (.start other)) :=
  (inv_ofMap.run hvalid).collectsRound

/-- Two rounds, in the second of which `Collect` is repeated. -/
def twoRounds : List Call :=
  [.insert ⟨[97], [1], 1⟩, .collect, .insert ⟨[97], [2], 2⟩, .removeCollected, .insert ⟨[98], [3], 3⟩,
    .collect, .remove [98] 4, .collect]

theorem collectsRound_twoRounds :
    Rounds.after twoRounds (.start .empty) =
    ⟨[.insert ⟨[97], [2], 2⟩, .insert ⟨[98], [3], 3⟩], [.remove [98] 4], true⟩ ∧
      CollectsRound (run twoRounds (.ofMap .empty)) (Rounds.after twoRounds (.start .empty)) :=
  ⟨rfl, collectsRound_of_valid .empty twoRounds (by simp [twoRounds, Valid, Rounds.call, Rounds.write,
    Rounds.start])⟩

end CollectRounds

end Iu9Db
