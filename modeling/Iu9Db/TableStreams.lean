import Iu9Db.TableBytes
import Iu9Db.Lib.OutStream

/-!
# When a new table is reported

`NewPersistentStorage` looks at the stream of the `.data` file after each record, but neither at its
flush nor at what becomes of the `.index` file, the rest of which is written when its stream is
destroyed. Without a failure it is the function of `TableBytes` (`newPersistentStorage_flushed`).
`loadsWhole_iff`: with failures, what it reports to be a table is one for `LoadPersistentStorage` when
the two files have got far enough, and only then if its keys are distinct.
-/

namespace Iu9Db

open Delimited Wire

namespace TableStreams

open TableBytes (record encodeEntry encodeIndex indexFields offsetsFrom)

/-- What the operating system does in a call: where the buffers overflow while the records and the
index are serialised, and how much room there is at the flush and when the streams are destroyed. A
stream that has failed takes nothing more, but what is in its buffer is written again when it is
destroyed. -/
structure WriteIO where
  createData : Result Unit
  entries : Nat → List Overflow
  createIndex : Result Unit
  index : List Overflow
  flushData : Nat
  openData : Result Unit
  closeIndex : Nat
  closeData : Nat

/-- A stream on a file that was created. -/
def created : OutStream UInt8 := ⟨[], 0, [], false⟩

/-- `SerializeDelimitedToOstream`. A message of two gigabytes is not serialised, and no file gets to
`2 ^ 63` bytes. -/
def serializeDelimited (overflows : List Overflow) (e : StorageEntry) (f : OutStream UInt8) :
    Bool × OutStream UInt8 :=
  if (encodeEntry e).length < 2 ^ 31 ∧ f.tell + (record.encode e).length < 2 ^ 63 then
    let f := f.write overflows (record.encode e)
    (!f.failed, f)
  else (false, f)

/-- The loop over the sorted records, of which the next one has the number `i`. -/
def writeEntries (overflows : Nat → List Overflow) : Nat → List StorageEntry → OutStream UInt8 → List UInt64 →
    Option (List UInt64) × OutStream UInt8
  | _, [], f, index => (some index, f)
  | i, e :: data, f, index =>
    let offset := UInt64.ofNat f.tell
    match serializeDelimited (overflows i) e f with
    | (false, f) => (none, f)
    | (true, f) => writeEntries overflows (i + 1) data f (index ++ [offset])

/-- `SerializeToOstream` of the index. -/
def serializeIndex (overflows : List Overflow) (mapSize : Nat) (index : List UInt64) (f : OutStream UInt8) :
    OutStream UInt8 :=
  if (encodeIndex mapSize index).length < 2 ^ 31 then f.write overflows (encodeIndex mapSize index) else f

/-- `NewPersistentStorage`. -/
def newPersistentStorage (io : WriteIO) (data : List StorageEntry) (dir : TableBytes.Directory) :
    Result TableBytes.PersistentStorage × TableBytes.Directory :=
  let path := dir.nextFile
  let dir := { dir with nextFile := dir.nextFile + 1 }
  match io.createData with
  | .error e => (.error (wrapError e (text "failed to create persistent storage")), dir)
  | .ok _ =>
    let data := data.insertionSort (· ≤ ·)
    match writeEntries io.entries 0 data created [] with
    | (none, f) =>
      (.error (makeError (text "failed to serialize entry")),
        { dir with data := Function.update dir.data path (some (f.close io.closeData)) })
    | (some index, f) =>
      match io.createIndex with
      | .error e =>
        (.error (wrapError e (text "failed to create index file")),
          { dir with data := Function.update dir.data path (some (f.close io.closeData)) })
      | .ok _ =>
        let indexF := serializeIndex io.index data.length index created
        let f := f.push io.flushData
        let dir := { dir with
          data := Function.update dir.data path (some (f.close io.closeData))
          index := Function.update dir.index path (some (indexF.close io.closeIndex)) }
        match io.openData with
        | .error e => (.error (wrapError e (text "failed to open persistent storage")), dir)
        | .ok _ => (.ok ⟨path, f.close io.closeData, index⟩, dir)

/-- The table of the sorted records with all of its files. -/
def complete (path : FileId) (data : List StorageEntry) : TableBytes.PersistentStorage :=
  ⟨path, record.encodeAll (data.insertionSort (· ≤ ·)), offsetsFrom 0 (data.insertionSort (· ≤ ·))⟩

/-- What is reported to be a table can be loaded, and answers every `Get` as the complete one. -/
def LoadsWhole (io : WriteIO) (data : List StorageEntry) (dir : TableBytes.Directory) : Prop :=
  ∀ s dir', newPersistentStorage io data dir = (.ok s, dir') →
    ∃ s', TableBytes.loadPersistentStorage s.path dir' = .ok s' ∧ ∀ key, s'.get key =
      (complete s.path data).get key

/-! ### What gets to the files -/

/-- Every record is serialised: it is not too large, and the overflows find room. -/
def Accepts (overflows : Nat → List Overflow) : Nat → Nat → List StorageEntry → Bytes → Prop
  | _, _, [], _ => True
  | i, start, e :: data, buffer =>
    ((encodeEntry e).length < 2 ^ 31 ∧ start + (record.encode e).length < 2 ^ 63) ∧
      OutStream.Fit (overflows i) buffer (record.encode e) ∧
      Accepts overflows (i + 1) (start + (record.encode e).length) data
        (OutStream.unpushed (overflows i) buffer (record.encode e))

/-- What is in the buffer at the flush. -/
def unflushed (overflows : Nat → List Overflow) : Nat → List StorageEntry → Bytes → Bytes
  | _, [], buffer => buffer
  | i, e :: data, buffer =>
    unflushed overflows (i + 1) data (OutStream.unpushed (overflows i) buffer (record.encode e))

/-- What gets to the `.data` file: what the overflows have written, then what the flush finds room
for; if that is not all, the buffer once more, when the stream is destroyed. -/
def WriteIO.dataWritten (io : WriteIO) (rows : List StorageEntry) : Bytes :=
  let buffer := unflushed io.entries 0 rows []
  (record.encodeAll rows).take ((record.encodeAll rows).length - buffer.length) ++ buffer.take io.flushData ++
    if buffer.length ≤ io.flushData then [] else buffer.take io.closeData

/-- What gets to the `.index` file. -/
def WriteIO.indexWritten (io : WriteIO) (rows : List StorageEntry) : Bytes :=
  let bytes := encodeIndex rows.length (offsetsFrom 0 rows)
  if bytes.length < 2 ^ 31 then bytes.take (OutStream.kept io.index io.closeIndex bytes.length) else []

/-- The `i`th record is read from the place in the `.data` file where it begins. -/
def ReadsAt (content : Bytes) (rows : List StorageEntry) (i : Nat) : Prop :=
  (record.read (content.drop (record.encodeAll (rows.take i)).length)).map Prod.fst = rows[i]?

/-- No failure that `NewPersistentStorage` looks at. -/
def WriteIO.Reports (io : WriteIO) (rows : List StorageEntry) : Prop :=
  io.createData.isOk ∧ Accepts io.entries 0 0 rows [] ∧ io.createIndex.isOk ∧ io.openData.isOk

/-- The `.index` file ends with a field, the records that it leads to have every key, and these
records are read. -/
def WriteIO.FarEnough (io : WriteIO) (rows : List StorageEntry) : Prop :=
  ∃ k ≤ rows.length + 1,
    io.indexWritten rows = field.encodeAll ((indexFields rows.length (offsetsFrom 0 rows)).take k) ∧
    (∀ e ∈ rows, ∃ e' ∈ rows.take (k - 1), e'.key = e.key) ∧
    ∀ i < k - 1, ReadsAt (io.dataWritten rows) rows i

/-! ### The streams -/

section
variable {overflows : Nat → List Overflow} {f : OutStream UInt8} {e : StorageEntry} {rows : List StorageEntry}

/-- A stream behind the bytes `written`, some of which are in its buffer. -/
structure Behind (written buffer : Bytes) (f : OutStream UInt8) : Prop where
  atEnd : f.AtEnd
  failed : f.failed = false
  written : f.file ++ f.buffer = written
  buffer : f.buffer = buffer

theorem behind_created : Behind [] [] created := ⟨rfl, rfl, rfl, rfl⟩

theorem Behind.tell {written buffer : Bytes} (h : Behind written buffer f) : f.tell = written.length := by
  rw [OutStream.tell, h.atEnd, ← h.written, List.length_append]

theorem Behind.serializeDelimited {written buffer : Bytes} (h : Behind written buffer f)
    (os : List Overflow) :
    (((encodeEntry e).length < 2 ^ 31 ∧ written.length + (record.encode e).length < 2 ^ 63) ∧
        OutStream.Fit os buffer (record.encode e) →
      ∃ f', serializeDelimited os e f = (true, f') ∧
        Behind (written ++ record.encode e) (OutStream.unpushed os buffer (record.encode e)) f') ∧
    (¬ (((encodeEntry e).length < 2 ^ 31 ∧ written.length + (record.encode e).length < 2 ^ 63) ∧
        OutStream.Fit os buffer (record.encode e)) → (serializeDelimited os e f).1 = false) := by
  obtain ⟨hfit, hbuffer⟩ := OutStream.write_fit os (record.encode e) h.failed
  rw [h.buffer] at hfit hbuffer
  unfold TableStreams.serializeDelimited
  rw [h.tell]
  constructor
  · rintro ⟨hsize, hos⟩
    have hok := hfit.2 hos
    have hend := h.atEnd.write os (record.encode e)
    obtain ⟨-, htarget, -⟩ := OutStream.target_write (le_of_eq h.atEnd) hok
    rw [if_pos hsize]
    refine ⟨_, by dsimp only; rw [hok]; rfl, hend, hok, ?_, hbuffer hos⟩
    rw [← hend.target, htarget, h.atEnd, overwrite_append_length, ← List.append_assoc, h.written]
  · intro hnot
    split
    · rename_i hsize
      show (!(f.write os (record.encode e)).failed) = false
      rw [Bool.not_eq_false', ← Bool.not_eq_false, hfit]
      exact fun hos => hnot ⟨hsize, hos⟩
    · rfl

/-- The loop gets to its end when every record is accepted, and then the stream is behind all of them. -/
theorem writeEntries_cases : ∀ (rows : List StorageEntry) (i : Nat) (f : OutStream UInt8)
    (written buffer : Bytes) (index : List UInt64), Behind written buffer f →
      (Accepts overflows i written.length rows buffer → ∃ f',
        writeEntries overflows i rows f index = (some (index ++ offsetsFrom written.length rows), f') ∧
        Behind (written ++ record.encodeAll rows) (unflushed overflows i rows buffer) f') ∧
      (¬ Accepts overflows i written.length rows buffer → (writeEntries overflows i rows f index).1 = none)
  | [], i, f, written, buffer, index, h => by
    refine ⟨fun _ => ⟨f, by rw [writeEntries, offsetsFrom, List.append_nil], ?_⟩,
      fun hnot => absurd trivial hnot⟩
    rw [Codec.encodeAll_nil, List.append_nil]
    exact h
  | e :: rows, i, f, written, buffer, index, h => by
    obtain ⟨hyes, hno⟩ := h.serializeDelimited (e := e) (overflows i)
    unfold Accepts writeEntries
    rw [← and_assoc]
    by_cases hrec : ((encodeEntry e).length < 2 ^ 31 ∧ written.length + (record.encode e).length < 2 ^ 63) ∧
        OutStream.Fit (overflows i) buffer (record.encode e)
    · obtain ⟨f', hf', hbehind⟩ := hyes hrec
      obtain ⟨hall, hnot⟩ := writeEntries_cases rows (i + 1) f' _ _ (index ++ [UInt64.ofNat f.tell]) hbehind
      rw [List.length_append] at hall hnot
      simp only [hf', and_iff_right hrec]
      refine ⟨fun hacc => ?_, hnot⟩
      obtain ⟨f'', hwrite, hbehind'⟩ := hall hacc
      refine ⟨f'', ?_, ?_⟩
      · rw [hwrite, h.tell, offsetsFrom, List.append_assoc]
        rfl
      · rw [Codec.encodeAll_cons, ← List.append_assoc]
        exact hbehind'
    · have hone := hno hrec
      refine ⟨fun hacc => absurd hacc.1 hrec, fun _ => ?_⟩
      cases hres : TableStreams.serializeDelimited (overflows i) e f with
      | mk isOk f' =>
        rw [hres] at hone
        obtain rfl : isOk = false := hone
        rfl

theorem fits_of_accepts : ∀ (rows : List StorageEntry) (i start : Nat) (buffer : Bytes), start < 2 ^ 63 →
    Accepts overflows i start rows buffer →
      (∀ e ∈ rows, record.Fits e) ∧ start + (record.encodeAll rows).length < 2 ^ 63
  | [], _, _, _, hstart, _ => ⟨fun _ he => absurd he List.not_mem_nil, hstart⟩
  | e :: rows, i, start, buffer, hstart, h => by
    obtain ⟨⟨hfit, hsize⟩, -, hrest⟩ := h
    obtain ⟨hfits, hlt⟩ := fits_of_accepts rows (i + 1) _ _ hsize hrest
    refine ⟨fun e' he' => ?_, ?_⟩
    · rcases List.mem_cons.1 he' with rfl | he'
      · exact hfit
      · exact hfits e' he'
    · rw [Codec.encodeAll_cons, List.length_append]
      omega

end

/-! ### The files -/

section
variable {io : WriteIO} {data rows : List StorageEntry} {dir dir' : TableBytes.Directory}
  {s : TableBytes.PersistentStorage} {path : FileId} {key : Str} {m i j : Nat}

theorem close_serializeIndex (io : WriteIO) (rows : List StorageEntry) :
    (serializeIndex io.index rows.length (offsetsFrom 0 rows) created).close io.closeIndex =
    io.indexWritten rows := by
  unfold serializeIndex WriteIO.indexWritten
  dsimp only
  split
  · exact OutStream.AtEnd.close_write (s := created) rfl rfl rfl
  · rw [OutStream.AtEnd.close (s := created) rfl]
    exact List.take_nil

theorem close_flush {f : OutStream UInt8}
    (hf : Behind (record.encodeAll rows) (unflushed io.entries 0 rows []) f) :
    (f.push io.flushData).close io.closeData = io.dataWritten rows := by
  have hfile : f.file = (record.encodeAll rows).take
      ((record.encodeAll rows).length - (unflushed io.entries 0 rows []).length) := by
    rw [← hf.written, ← hf.buffer, List.length_append, Nat.add_sub_cancel, List.take_left]
  rw [hf.atEnd.close_push hf.failed, hf.buffer, hfile]
  rfl

theorem WriteIO.Reports.outcomes (h : io.Reports rows) :
    io.createData = .ok () ∧ io.createIndex = .ok () ∧ io.openData = .ok () := by
  have hok (r : Result Unit) (hr : r.isOk) : r = .ok () := by
    cases r with
    | error e => cases hr
    | ok u => rfl
  obtain ⟨hdata, -, hindex, hopen⟩ := h
  exact ⟨hok _ hdata, hok _ hindex, hok _ hopen⟩

theorem newPersistentStorage_eq (h : io.Reports (data.insertionSort (· ≤ ·))) (dir : TableBytes.Directory) :
    newPersistentStorage io data dir =
      (.ok ⟨dir.nextFile, io.dataWritten (data.insertionSort (· ≤ ·)),
        offsetsFrom 0 (data.insertionSort (· ≤ ·))⟩, ⟨dir.nextFile + 1,
          Function.update dir.data dir.nextFile (some (io.dataWritten (data.insertionSort (· ≤ ·)))),
          Function.update dir.index dir.nextFile (some (io.indexWritten (data.insertionSort (· ≤ ·))))⟩) := by
  obtain ⟨hdata, hindex, hopen⟩ := h.outcomes
  obtain ⟨f, hwrite, hf⟩ := (writeEntries_cases _ 0 created [] [] [] behind_created).1 h.2.1
  rw [List.nil_append] at hf
  unfold newPersistentStorage
  rw [hdata]
  dsimp only
  rw [hwrite, hindex, hopen]
  dsimp only
  rw [close_flush hf, List.nil_append, List.length_nil, close_serializeIndex]

theorem reports_of_ok (h : newPersistentStorage io data dir = (.ok s, dir')) :
    io.Reports (data.insertionSort (· ≤ ·)) := by
  unfold newPersistentStorage at h
  cases hd : io.createData with
  | error e => rw [hd] at h; cases h
  | ok =>
    rw [hd] at h
    dsimp only at h
    have hacc : Accepts io.entries 0 0 (data.insertionSort (· ≤ ·)) [] := by
      by_contra hnot
      have hnone := (writeEntries_cases _ 0 created [] [] [] behind_created).2 hnot
      cases hw : writeEntries io.entries 0 (data.insertionSort (· ≤ ·)) created [] with
      | mk r f =>
        rw [hw] at hnone h
        obtain rfl : r = none := hnone
        cases h
    obtain ⟨f, hwrite, -⟩ := (writeEntries_cases _ 0 created [] [] [] behind_created).1 hacc
    rw [hwrite] at h
    cases hi : io.createIndex with
    | error e => rw [hi] at h; cases h
    | ok =>
      rw [hi] at h
      cases ho : io.openData with
      | error e => rw [ho] at h; cases h
      | ok => exact ⟨by rw [hd]; rfl, hacc, by rw [hi]; rfl, by rw [ho]; rfl⟩

/-! ### Tables of which the end is missing -/

/-- The table that is loaded when `content` and `j` offsets have got to the files. -/
def cut (path : FileId) (content : Bytes) (rows : List StorageEntry) (j : Nat) :
    TableBytes.PersistentStorage :=
  ⟨path, content, (offsetsFrom 0 rows).take j⟩

/-- Rows that can be written. -/
structure Writable (rows : List StorageEntry) : Prop where
  fits : ∀ e ∈ rows, record.Fits e
  size : (record.encodeAll rows).length < 2 ^ 63

theorem offsetsFrom_take : ∀ (start : Nat) (rows : List StorageEntry) (j : Nat),
    (offsetsFrom start rows).take j = offsetsFrom start (rows.take j)
  | _, [], j => by simp [offsetsFrom]
  | _, _ :: _, 0 => rfl
  | start, e :: rows, j + 1 => by
    rw [offsetsFrom, List.take_succ_cons, offsetsFrom_take, List.take_succ_cons, offsetsFrom]

theorem Writable.take (h : Writable rows) (j : Nat) : Writable (rows.take j) := by
  refine ⟨fun e he => h.fits e (List.mem_of_mem_take he), ?_⟩
  have hsize := h.size
  rw [← List.take_append_drop j rows, Codec.encodeAll_append, List.length_append] at hsize
  omega

theorem Writable.represents (h : Writable rows) (path : FileId) :
    TableBytes.Represents ⟨path, record.encodeAll rows, offsetsFrom 0 rows⟩ ⟨path, rows⟩ :=
  ⟨rfl, h.fits, h.size, rfl, rfl⟩

theorem writable_of_accepts {overflows : Nat → List Overflow} {buffer : Bytes}
    (h : Accepts overflows i 0 rows buffer) : Writable rows := by
  obtain ⟨hfits, hsize⟩ := fits_of_accepts rows i 0 buffer (by norm_num) h
  rw [Nat.zero_add] at hsize
  exact ⟨hfits, hsize⟩

theorem Writable.length_lt (h : Writable rows) : rows.length < 2 ^ 63 :=
  (Codec.length_le_encodeAll h.fits).trans_lt h.size

theorem length_index_cut (path : FileId) (content : Bytes) (hj : j ≤ rows.length) :
    (cut path content rows j).index.length = j := by
  rw [cut, List.length_take, TableBytes.length_offsetsFrom, Nat.min_eq_left hj]

theorem readEntryAt_cut (path : FileId) (content : Bytes) (h : Writable rows) (hi : i < rows.length)
    (hij : i < j) : ∃ offset, (cut path content rows j).index[i]? = some offset ∧
      ((cut path content rows j).readEntryAt offset).toOption =
        (record.read (content.drop (record.encodeAll (rows.take i)).length)).map Prod.fst := by
  obtain ⟨offset, hoffset, hnat⟩ := (h.represents path).getElem?_index hi
  refine ⟨offset, ?_, ?_⟩
  · rw [cut, List.getElem?_take_of_lt hij]
    exact hoffset
  · unfold TableBytes.PersistentStorage.readEntryAt cut
    rw [hnat]
    cases record.read (content.drop (record.encodeAll (rows.take i)).length) <;> rfl

/-- A record of which all bytes are in the file, in their places, is read. -/
theorem readsAt_of_prefix {content : Bytes} (h : Writable rows) (hi : i < rows.length)
    (hpre : record.encodeAll (rows.take (i + 1)) <+: content) : ReadsAt content rows i := by
  obtain ⟨rest, rfl⟩ := hpre
  rw [ReadsAt, List.take_add_one, List.getElem?_eq_getElem hi, Codec.encodeAll_append, List.append_assoc,
    List.drop_left, Option.toList_some, Codec.encodeAll_cons, Codec.encodeAll_nil, List.append_nil,
    record.read_encode _ (h.fits _ (List.getElem_mem hi)) rest]
  rfl

theorem get_cut {content : Bytes} (h : Writable rows) (hread : ∀ i < j, ReadsAt content rows i) (key : Str) :
    (cut path content rows j).get key = some (PersistentStorage.get ⟨path, rows.take j⟩ key) := by
  have hrep := (h.take j).represents path
  have hrel := @TableBytes.Represents.getThrough_rel _ _ _ _ Likeness.ofOption
    (fun offset => ((cut path content rows j).readEntryAt offset).toOption) hrep
      (fun i hi offset hoffset => ?_) key
  · obtain ⟨hget, -⟩ := hrel
    rw [← hget, TableBytes.PersistentStorage.get, ← offsetsFrom_take]
    rfl
  · have hij : i < j ∧ i < rows.length := by
      rw [List.length_take] at hi
      omega
    obtain ⟨offset', hoffset', hat⟩ := readEntryAt_cut path content h hij.2 hij.1
    rw [cut, offsetsFrom_take] at hoffset'
    obtain rfl : offset' = offset := Option.some.inj (hoffset'.symm.trans hoffset)
    refine ⟨?_, trivial⟩
    rw [hat, hread i hij.1, List.getElem?_eq_getElem hij.2, List.getElem_take]

/-- A search that finds a record has read it where it stopped, and a lesser key before. -/
theorem found_of_get {content : Bytes} {key : Str} {e : StorageEntry} (h : Writable rows)
    (hj : j ≤ rows.length) (hget : (cut path content rows j).get key = some (.ok e)) :
    let read (i : Nat) := (record.read (content.drop (record.encodeAll (rows.take i)).length)).map Prod.fst
    e.key = key ∧ ∃ r < j, read r = some e ∧ (0 < r → ∃ e', read (r - 1) = some e' ∧ e'.key < key) := by
  intro read
  let s := cut path content rows j
  let p : Nat → Option Bool := fun i =>
    ((s.readEntryAt (s.index.getD i 0)).toOption).bind fun entry => some (decide (entry.key < key))
  have hat (i : Nat) (hi : i < j) : ∃ offset, s.index[i]? = some offset ∧
    (s.readEntryAt offset).toOption = read i :=
    readEntryAt_cut path content h (hi.trans_le hj) hi
  have hp (i : Nat) (hi : i < j) : p i = (read i).map fun entry => decide (entry.key < key) := by
    obtain ⟨offset, hoffset, hread⟩ := hat i hi
    show (s.readEntryAt (s.index.getD i 0)).toOption.bind _ = _
    rw [List.getD_eq_getElem?_getD, hoffset, Option.getD_some, hread, Option.map_eq_bind]
    rfl
  obtain ⟨r, hr, hend⟩ :=
    Option.bind_eq_some_iff.1 (show (Keyed.lowerBoundM p s.index.length).bind _ = some _ from hget)
  rw [length_index_cut path content hj] at hr
  obtain ⟨-, -, -, hyes⟩ := Keyed.lowerBoundLoopM_stop le_rfl hr
  by_cases hrj : r < j
  · obtain ⟨offset, hoffset, hread⟩ := hat r hrj
    change (cut path content rows j).index[r]? = some offset at hoffset
    simp only [hoffset] at hend
    obtain ⟨entry, hentry, hend⟩ := Option.bind_eq_some_iff.1 hend
    have hend := Option.some.inj hend
    split at hend
    · rename_i hkey
      cases hend
      refine ⟨hkey, r, hrj, hread.symm.trans hentry, fun hpos => ?_⟩
      obtain ⟨e', he', hlt⟩ := Option.map_eq_some_iff.1 ((hp (r - 1) (by omega)).symm.trans (hyes hpos))
      exact ⟨e', he', of_decide_eq_true hlt⟩
    · cases hend
  · have hnone : (cut path content rows j).index[r]? = none :=
      List.getElem?_eq_none (by rw [length_index_cut path content hj]; omega)
    simp only [hnone] at hend
    cases Option.some.inj hend

/-! ### What is reported and what is loaded -/

theorem get_eq_elim (hrows : rows.Pairwise fun a b => a.key ≤ b.key) (path : FileId) (key : Str) :
    PersistentStorage.get ⟨path, rows⟩ key =
      (Keyed.find StorageEntry.key key rows).elim (PersistentStorage.get.notFound ⟨path, []⟩ key) .ok := by
  have hget := PersistentStorage.get_eq_of_le (s := ⟨path, rows⟩) hrows key
  cases hfind : Keyed.find StorageEntry.key key rows with
  | some e => exact Result.eq_ok (hget.trans hfind)
  | none =>
    rw [PersistentStorage.find, hfind] at hget
    unfold PersistentStorage.get at hget ⊢
    dsimp only at hget ⊢
    split
    · rename_i entry hentry
      rw [hentry] at hget
      dsimp only at hget
      split
      · rename_i hk
        rw [if_pos hk] at hget
        cases hget
      · rfl
    · rfl

/-- Offsets of which the end is missing lead to the same answers while a record of every key is left. -/
theorem get_take_iff (hrows : rows.Pairwise fun a b => a.key ≤ b.key) (path : FileId) (j : Nat) :
    (∀ key, PersistentStorage.get ⟨path, rows.take j⟩ key = PersistentStorage.get ⟨path, rows⟩ key) ↔
      ∀ e ∈ rows, ∃ e' ∈ rows.take j, e'.key = e.key := by
  have htake : (rows.take j).Pairwise fun a b => a.key ≤ b.key := hrows.sublist (List.take_sublist j rows)
  constructor
  · intro hsame e he
    have hsome : (Keyed.find StorageEntry.key e.key rows).isSome := Keyed.isSome_find.2 ⟨e, he, rfl⟩
    obtain ⟨e₀, he₀⟩ := Option.isSome_iff_exists.1 hsome
    have hget := hsame e.key
    rw [get_eq_elim htake, get_eq_elim hrows, he₀] at hget
    cases hfind : Keyed.find StorageEntry.key e.key (rows.take j) with
    | none => rw [hfind] at hget; cases hget
    | some e' => exact ⟨e', Keyed.mem_of_find hfind, Keyed.key_of_find hfind⟩
  · intro hcover key
    have hfind : Keyed.find StorageEntry.key key (rows.take j) = Keyed.find StorageEntry.key key rows := by
      cases hj : Keyed.find StorageEntry.key key (rows.take j) with
      | some e =>
        rw [← List.take_append_drop j rows, Keyed.find_append, hj]
        rfl
      | none =>
        symm
        rw [Keyed.find_eq_none]
        intro e he hkey
        obtain ⟨e', he', hkey'⟩ := hcover e he
        exact Keyed.find_eq_none.1 hj e' he' (hkey'.trans hkey)
    rw [get_eq_elim htake, get_eq_elim hrows, hfind]

/-- The table that is loaded answers as the complete one does when every key has an offset left, and
what these lead to is read. -/
theorem get_cut_eq {content : Bytes} (path : FileId) (h : Writable rows)
    (hrows : rows.Pairwise fun a b => a.key ≤ b.key)
    (hcover : ∀ e ∈ rows, ∃ e' ∈ rows.take j, e'.key = e.key) (hread : ∀ i < j, ReadsAt content rows i)
    (key : Str) :
    (cut path content rows j).get key = some (PersistentStorage.get ⟨path, rows⟩ key) := by
  rw [get_cut h hread, (get_take_iff hrows path j).2 hcover]

/-- With distinct keys nothing less will do. -/
theorem readsAt_of_get {content : Bytes} (h : Writable rows) (hstrict : Keyed.Strict StorageEntry.key rows)
    (hj : j ≤ rows.length)
    (hsame : ∀ key, (cut path content rows j).get key = some (PersistentStorage.get ⟨path, rows⟩ key)) :
    j = rows.length ∧ ∀ i < rows.length, ReadsAt content rows i := by
  refine hstrict.eq_of_found hj fun e he => ?_
  have hfind : Keyed.find StorageEntry.key e.key rows = some e :=
    (Keyed.find_eq_some_iff hstrict.nodup).2 ⟨he, rfl⟩
  have hget := hsame e.key
  rw [get_eq_elim (hstrict.imp fun hlt => le_of_lt hlt), hfind] at hget
  exact (found_of_get h hj hget).2

theorem loadPersistentStorage_written {data index : FileId → Option Bytes} {content bytes : Bytes}
    (hdata : data path = some content) (hindex : index path = some bytes) (nextFile : FileId) :
    (TableBytes.loadPersistentStorage path ⟨nextFile, data, index⟩).toOption =
      (TableBytes.parseIndex bytes).map fun index => ⟨path, content, index⟩ := by
  unfold TableBytes.loadPersistentStorage
  dsimp only
  rw [hindex]
  dsimp only
  cases TableBytes.parseIndex bytes with
  | none => rfl
  | some index =>
    rw [hdata]
    rfl

theorem parseIndex_indexWritten (h : Writable rows) {index : List UInt64} :
    TableBytes.parseIndex (io.indexWritten rows) = some index ↔
      ∃ k ≤ rows.length + 1,
        io.indexWritten rows = field.encodeAll ((indexFields rows.length (offsetsFrom 0 rows)).take k) ∧
          index = (offsetsFrom 0 rows).take (k - 1) := by
  have hlen : rows.length < 2 ^ 64 := h.length_lt.trans (by norm_num)
  have hsize : (io.indexWritten rows).length < 2 ^ 31 := by
    unfold WriteIO.indexWritten
    dsimp only
    split
    · rename_i hlt
      rw [List.length_take]
      exact (Nat.min_le_right _ _).trans_lt hlt
    · exact Nat.two_pow_pos 31
  constructor
  · intro hparse
    by_cases hlt : (encodeIndex rows.length (offsetsFrom 0 rows)).length < 2 ^ 31
    · have hprefix : io.indexWritten rows <+: encodeIndex rows.length (offsetsFrom 0 rows) := by
        unfold WriteIO.indexWritten
        dsimp only
        rw [if_pos hlt]
        exact List.take_prefix _ _
      obtain ⟨k, hle, hk, hindex⟩ := TableBytes.parseIndex_prefix hlen hlt hprefix hparse
      rw [TableBytes.length_offsetsFrom] at hle
      exact ⟨k, hle, hk, hindex⟩
    · have hnil : io.indexWritten rows = [] := if_neg hlt
      rw [hnil] at hparse
      exact ⟨0, Nat.zero_le _, hnil, (Option.some.inj hparse).symm⟩
  · rintro ⟨k, -, hk, rfl⟩
    rw [hk] at hsize ⊢
    exact TableBytes.parseIndex_take _ k hlen hsize

end

/-- **What is reported to be a table can be loaded and answers as the complete table does, when its
files have got far enough**, and, if the keys are distinct, only then. -/
theorem loadsWhole_iff (io : WriteIO) (data : List StorageEntry) (dir : TableBytes.Directory) :
    ((io.Reports (data.insertionSort (· ≤ ·)) → io.FarEnough (data.insertionSort (· ≤ ·))) →
      LoadsWhole io data dir) ∧ ((data.map StorageEntry.key).Nodup → LoadsWhole io data dir →
        io.Reports (data.insertionSort (· ≤ ·)) → io.FarEnough (data.insertionSort (· ≤ ·))) := by
  unfold LoadsWhole complete
  have hnew := @newPersistentStorage_eq io data
  have hok (s : TableBytes.PersistentStorage) (dir' : TableBytes.Directory)
      (h : newPersistentStorage io data dir = (.ok s, dir')) := reports_of_ok h
  have hrows : (data.insertionSort (· ≤ ·)).Pairwise fun a b => a.key ≤ b.key :=
    (List.pairwise_insertionSort (· ≤ ·) data).imp fun hle => StorageEntry.key_le_of_le hle
  have hstrict := @strict_insertionSort data
  generalize data.insertionSort (· ≤ ·) = rows at hnew hok hrows hstrict ⊢
  have hload := loadPersistentStorage_written
    (Function.update_self dir.nextFile (some (io.dataWritten rows)) dir.data)
    (Function.update_self dir.nextFile (some (io.indexWritten rows)) dir.index) (dir.nextFile + 1)
  constructor
  · intro hfar s dir' heq
    have hreports := hok s dir' heq
    have hw : Writable rows := writable_of_accepts hreports.2.1
    rw [hnew hreports dir] at heq
    cases heq
    obtain ⟨k, hle, hk, hcover, hread⟩ := hfar hreports
    rw [(parseIndex_indexWritten hw).2 ⟨k, hle, hk, rfl⟩] at hload
    refine ⟨cut dir.nextFile (io.dataWritten rows) rows (k - 1), Result.eq_ok hload, fun key => ?_⟩
    rw [(hw.represents dir.nextFile).get_eq]
    exact get_cut_eq dir.nextFile hw hrows hcover hread key
  · intro hnodup hloads hreports
    have hw : Writable rows := writable_of_accepts hreports.2.1
    obtain ⟨s', hs', hget⟩ := hloads _ _ (hnew hreports dir)
    rw [hs'] at hload
    obtain ⟨index, hparse, rfl⟩ := Option.map_eq_some_iff.1 hload.symm
    obtain ⟨k, hle, hk, rfl⟩ := (parseIndex_indexWritten hw).1 hparse
    obtain ⟨hlen, hread⟩ := readsAt_of_get hw (hstrict hnodup) (j := k - 1) (by omega) fun key => by
      rw [← (hw.represents dir.nextFile).get_eq]
      exact hget key
    refine ⟨k, hle, hk, fun e he => ⟨e, ?_, rfl⟩, fun i hi => hread i (by omega)⟩
    rw [hlen, List.take_length]
    exact he

-- The flush finds no room, and the destruction of the stream room for all: nothing is missing.
example : WriteIO.dataWritten ⟨.ok (), fun _ => [], .ok (), [], 0, .ok (), 100, 100⟩ [⟨[97], some [1], 1⟩] =
    record.encodeAll [⟨[97], some [1], 1⟩] := by decide

/-! ### Where nothing is lost -/

/-- Every byte gets to the two files. -/
structure WriteIO.LosesNothing (io : WriteIO) (rows : List StorageEntry) : Prop where
  data : (unflushed io.entries 0 rows []).length ≤ io.flushData
  size : (encodeIndex rows.length (offsetsFrom 0 rows)).length < 2 ^ 31
  index : OutStream.kept io.index io.closeIndex (encodeIndex rows.length (offsetsFrom 0 rows)).length =
    (encodeIndex rows.length (offsetsFrom 0 rows)).length

section
variable {io : WriteIO} {data rows : List StorageEntry}

theorem WriteIO.LosesNothing.indexWritten_eq (h : io.LosesNothing rows) :
    io.indexWritten rows = encodeIndex rows.length (offsetsFrom 0 rows) := by
  unfold WriteIO.indexWritten
  dsimp only
  rw [if_pos h.size, h.index, List.take_length]

/-- What is left in the buffer is the end of the records. -/
theorem unflushed_suffix (overflows : Nat → List Overflow) : ∀ (rows : List StorageEntry) (i : Nat)
    (buffer : Bytes), unflushed overflows i rows buffer <:+ buffer ++ record.encodeAll rows
  | [], _, buffer => by rw [unflushed, Codec.encodeAll_nil, List.append_nil]
  | e :: rows, i, buffer => by
    have hrec := unflushed_suffix overflows rows (i + 1) (OutStream.unpushed (overflows i) buffer
      (record.encode e))
    have hone := OutStream.unpushed_suffix (overflows i) buffer (record.encode e)
    rw [unflushed, Codec.encodeAll_cons, ← List.append_assoc]
    obtain ⟨pre, hpre⟩ := hone
    refine hrec.trans ⟨pre, ?_⟩
    rw [← List.append_assoc, hpre]

theorem WriteIO.LosesNothing.dataWritten_eq (h : io.LosesNothing rows) :
    io.dataWritten rows = record.encodeAll rows := by
  obtain ⟨pre, hpre⟩ := unflushed_suffix io.entries rows 0 []
  rw [List.nil_append] at hpre
  unfold WriteIO.dataWritten
  dsimp only
  rw [if_pos h.data, List.take_of_length_le h.data, List.append_nil, ← hpre, List.length_append,
    Nat.add_sub_cancel, List.take_left]

theorem take_indexFields (rows : List StorageEntry) :
    (indexFields rows.length (offsetsFrom 0 rows)).take (rows.length + 1) =
      indexFields rows.length (offsetsFrom 0 rows) :=
  List.take_of_length_le (by simp [indexFields, TableBytes.length_offsetsFrom])

theorem farEnough_of_losesNothing (h : io.LosesNothing rows) (hw : Writable rows) : io.FarEnough rows := by
  refine ⟨rows.length + 1, le_rfl, ?_, fun e he => ⟨e, ?_, rfl⟩, fun i hi => ?_⟩
  · rw [h.indexWritten_eq, take_indexFields]
    rfl
  · rw [Nat.add_sub_cancel, List.take_length]
    exact he
  · rw [h.dataWritten_eq]
    refine readsAt_of_prefix hw hi ⟨record.encodeAll (rows.drop (i + 1)), ?_⟩
    rw [← Codec.encodeAll_append, List.take_append_drop]

/-- **Where nothing is lost the call is that of `TableBytes`.** -/
theorem newPersistentStorage_flushed (h : io.Reports (data.insertionSort (· ≤ ·)))
    (hlost : io.LosesNothing (data.insertionSort (· ≤ ·))) (dir : TableBytes.Directory) :
    newPersistentStorage io data dir =
      TableBytes.newPersistentStorage ⟨io.createData, true, io.createIndex, io.openData⟩ data dir := by
  rw [newPersistentStorage_eq h, hlost.dataWritten_eq, hlost.indexWritten_eq]
  have hw := writable_of_accepts h.2.1
  have hwrite := TableBytes.writeEntries_of_fits (data.insertionSort (· ≤ ·)) [] [] hw.fits hw.size
  rw [List.nil_append, List.nil_append, List.length_nil] at hwrite
  obtain ⟨hdata, hindex, hopen⟩ := h.outcomes
  rw [hdata, hindex, hopen]
  unfold TableBytes.newPersistentStorage
  dsimp only
  rw [hwrite]
  dsimp only
  rw [TableBytes.serializeIndex, if_pos hlost.size]
  rfl

end

/-- There is room for three bytes when the stream of the one record is flushed, and for none after that. -/
def fullDisk : WriteIO := ⟨.ok (), fun _ => [], .ok (), [], 3, .ok (), 0, 0⟩

theorem not_loadsWhole : ¬ ∀ (io : WriteIO) (data : List StorageEntry) (dir : TableBytes.Directory),
    LoadsWhole io data dir := by
  intro hall
  let dir : TableBytes.Directory := ⟨0, fun _ => none, fun _ => none⟩
  have hnew : (newPersistentStorage fullDisk [⟨[97], some [1], 1⟩] dir).1 = .ok ⟨0, [8, 10, 1], [0]⟩ := by
    decide +kernel
  have hload : TableBytes.loadPersistentStorage 0
    (newPersistentStorage fullDisk [⟨[97], some [1], 1⟩] dir).2 =
      .ok ⟨0, [8, 10, 1], []⟩ := by decide +kernel
  obtain ⟨s', hs', hget⟩ := hall fullDisk [⟨[97], some [1], 1⟩] dir ⟨0, [8, 10, 1], [0]⟩ _ (Prod.ext hnew rfl)
  obtain rfl := Except.ok.inj (hload.symm.trans hs')
  exact absurd (hget [97]) (by decide +kernel)

end TableStreams

end Iu9Db
