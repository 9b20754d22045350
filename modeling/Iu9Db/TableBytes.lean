import Iu9Db.Disk
import Iu9Db.Lib.Wire
import Iu9Db.Lib.LowerBound

/-!
# The bytes of a table

`NewPersistentStorage` writes the sorted records one behind the other into the `.data` file, and where
each of them begins into the `.index` file; `ReadEntryAt` reads the record that begins at an offset.
The other models know a table by its records: `Represents.get_eq` and `Represents.iterate_eq` say that
the bytes stand for them, `newPersistentStorage_cases` and `loadPersistentStorage_eq` that the bytes
of a table that was written do, and still do when it is loaded. So a table is a map
(`isMapOf_of_written`).
-/

namespace Iu9Db

open Wire Delimited

namespace TableBytes

/-! ### `persistent.proto` -/

/-- The fields of `persistent::Entry`; the value of a tombstone is not set. -/
def entryFields (e : StorageEntry) : List Field :=
  ⟨1, .lengthDelimited e.key⟩ :: (e.value.toList.map fun value => ⟨2, .lengthDelimited value⟩) ++
    [⟨3, .varint e.version.toNat⟩]

def encodeEntry (e : StorageEntry) : Bytes := field.encodeAll (entryFields e)

/-- A parsed field of `Entry`. -/
def mergeField (e : StorageEntry) (f : Field) : StorageEntry :=
  match f.number, f.payload with
  | 1, .lengthDelimited key => { e with key := key }
  | 2, .lengthDelimited value => { e with value := some value }
  | 3, .varint version => { e with version := UInt64.ofNat version }
  | _, _ => e

def parseEntry (bytes : Bytes) : Option StorageEntry :=
  (parseFields recursionLimit bytes).map fun fs => fs.foldl mergeField ⟨[], none, 0⟩

theorem isPlain_entryFields (e : StorageEntry) : ∀ f ∈ entryFields e, f.IsPlain := by
  obtain ⟨key, value, version⟩ := e
  cases value <;> simp [entryFields, Field.IsPlain, version.toNat_lt]

theorem parseEntry_encodeEntry (e : StorageEntry) (h : (encodeEntry e).length < 2 ^ 31) :
    parseEntry (encodeEntry e) = some e := by
  rw [parseEntry, encodeEntry, parseFields_encodeAll (isPlain_entryFields e) h, Option.map_some]
  obtain ⟨key, value, version⟩ := e
  cases value <;> simp [entryFields, mergeField]

/-- A record of a table. -/
def record : Codec StorageEntry UInt8 := Message.delimited ⟨encodeEntry, parseEntry, parseEntry_encodeEntry⟩

/-- The fields of `persistent::TableIndex`. -/
def indexFields (mapSize : Nat) (index : List UInt64) : List Field :=
  ⟨1, .varint mapSize⟩ :: index.map fun offset => ⟨2, .varint offset.toNat⟩

def encodeIndex (mapSize : Nat) (index : List UInt64) : Bytes := field.encodeAll (indexFields mapSize index)

/-- Numbers in packed form. -/
def unpack : Nat → Bytes → Option (List UInt64)
  | _, [] => some []
  | 0, _ :: _ => none
  | fuel + 1, bytes =>
    (readVarint 10 bytes).bind fun r => (unpack fuel r.2).map fun rest => UInt64.ofNat r.1 :: rest

/-- A parsed field of `TableIndex`; its `map_size` is not looked at. -/
def mergeIndex (index : List UInt64) (f : Field) : Option (List UInt64) :=
  match f.number, f.payload with
  | 2, .varint offset => some (index ++ [UInt64.ofNat offset])
  | 2, .lengthDelimited bytes => (unpack bytes.length bytes).map fun offsets => index ++ offsets
  | _, _ => some index

def parseIndex (bytes : Bytes) : Option (List UInt64) :=
  (parseFields recursionLimit bytes).bind fun fs => fs.foldlM mergeIndex []

theorem isPlain_indexFields {mapSize : Nat} (hsize : mapSize < 2 ^ 64) (index : List UInt64) :
    ∀ f ∈ indexFields mapSize index, f.IsPlain := by
  intro f hf
  rcases List.mem_cons.1 hf with rfl | hf
  · exact ⟨Nat.one_pos, (by norm_num : 1 < 2 ^ 29), hsize⟩
  · obtain ⟨offset, -, rfl⟩ := List.mem_map.1 hf
    exact ⟨Nat.two_pos, (by norm_num : 2 < 2 ^ 29), offset.toNat_lt⟩

theorem foldlM_mergeIndex (l parsed : List UInt64) :
    (l.map fun offset => (⟨2, .varint offset.toNat⟩ : Field)).foldlM mergeIndex parsed =
    some (parsed ++ l) := by
  induction l generalizing parsed with
  | nil => simp
  | cons offset l ih => simp [mergeIndex, ih]

/-- The first fields of an index: the number of records, and then an offset each. -/
theorem foldlM_indexFields (mapSize : Nat) (index : List UInt64) (k : Nat) :
    ((indexFields mapSize index).take k).foldlM mergeIndex [] = some (index.take (k - 1)) := by
  cases k with
  | zero => rfl
  | succ k =>
    rw [indexFields, List.take_succ_cons, List.foldlM_cons, ← List.map_take]
    exact (foldlM_mergeIndex _ []).trans (by rw [List.nil_append]; rfl)

theorem parseIndex_take {mapSize : Nat} (index : List UInt64) (k : Nat) (hsize : mapSize < 2 ^ 64)
    (h : (field.encodeAll ((indexFields mapSize index).take k)).length < 2 ^ 31) :
    parseIndex (field.encodeAll ((indexFields mapSize index).take k)) = some (index.take (k - 1)) := by
  have hplain := isPlain_indexFields hsize index
  rw [parseIndex, parseFields_encodeAll (fun f hf => hplain f (List.mem_of_mem_take hf)) h, Option.bind_some,
    foldlM_indexFields]

theorem parseIndex_encodeIndex {mapSize : Nat} {index : List UInt64} (hsize : mapSize < 2 ^ 64)
    (h : (encodeIndex mapSize index).length < 2 ^ 31) :
    parseIndex (encodeIndex mapSize index) = some index := by
  have hall : (indexFields mapSize index).take (index.length + 1) = indexFields mapSize index :=
    List.take_of_length_le (by simp [indexFields])
  have htake := parseIndex_take index (index.length + 1) hsize (by rw [hall]; exact h)
  rw [hall, Nat.add_sub_cancel, List.take_length] at htake
  exact htake

/-- An index that is cut off is parsed only where a field ends, to the offsets before. -/
theorem parseIndex_prefix {mapSize : Nat} {index parsed : List UInt64} {bs : Bytes} (hsize : mapSize < 2 ^ 64)
    (h : (encodeIndex mapSize index).length < 2 ^ 31) (hbs : bs <+: encodeIndex mapSize index)
    (hparse : parseIndex bs = some parsed) : ∃ k ≤ index.length + 1,
      bs = field.encodeAll ((indexFields mapSize index).take k) ∧ parsed = index.take (k - 1) := by
  obtain ⟨fs, hfs, hfold⟩ := Option.bind_eq_some_iff.1 hparse
  obtain ⟨k, hk, rfl, rfl⟩ := parseFields_prefix (isPlain_indexFields hsize index) h hbs hfs
  rw [foldlM_indexFields] at hfold
  refine ⟨k, ?_, rfl, (Option.some.inj hfold).symm⟩
  simpa [indexFields] using hk

/-! ### The files -/

/-- The `.data` and `.index` files. -/
structure Directory where
  nextFile : FileId
  data : FileId → Option Bytes
  index : FileId → Option Bytes

/-- A `PersistentStorage`: what is read through its descriptor, and where its records begin. -/
structure PersistentStorage where
  path : FileId
  content : Bytes
  index : List UInt64
deriving DecidableEq, Repr

/-- `SerializeDelimitedToOstream`. A message of two gigabytes is not serialised, and no file gets to
`2 ^ 63` bytes. -/
def serializeDelimited (isOk : Bool) (e : StorageEntry) (f : Bytes) : Option Bytes :=
  if isOk ∧ (encodeEntry e).length < 2 ^ 31 ∧ (f ++ record.encode e).length < 2 ^ 63 then
    some (f ++ record.encode e)
  else none

/-- `SerializeToOstream` of the index. -/
def serializeIndex (mapSize : Nat) (index : List UInt64) : Option Bytes :=
  if (encodeIndex mapSize index).length < 2 ^ 31 then some (encodeIndex mapSize index) else none

/-- The loop over the sorted records: what the stream has got, and the index unless a record fails. -/
def writeEntries (isOk : Bool) : List StorageEntry → Bytes → List UInt64 → Option (List UInt64) × Bytes
  | [], f, index => (some index, f)
  | e :: data, f, index =>
    let offset := UInt64.ofNat f.length
    match serializeDelimited isOk e f with
    | none => (none, f)
    | some f => writeEntries isOk data f (index ++ [offset])

/-- `NewPersistentStorage`; the outcome of writing the index is not looked at. -/
def newPersistentStorage (io : TableIO) (data : List StorageEntry) (dir : Directory) :
    Result PersistentStorage × Directory :=
  let path := dir.nextFile
  let dir := { dir with nextFile := dir.nextFile + 1 }
  match io.createData with
  | .error e => (.error (wrapError e (text "failed to create persistent storage")), dir)
  | .ok _ =>
    let data := data.insertionSort (· ≤ ·)
    match writeEntries io.serialize data [] [] with
    | (none, f) =>
      (.error (makeError (text "failed to serialize entry")),
        { dir with data := Function.update dir.data path (some f) })
    | (some index, f) =>
      let dir := { dir with data := Function.update dir.data path (some f) }
      match io.createIndex with
      | .error e => (.error (wrapError e (text "failed to create index file")), dir)
      | .ok _ =>
        let bytes := (serializeIndex data.length index).getD []
        let dir := { dir with index := Function.update dir.index path (some bytes) }
        match io.openData with
        | .error e => (.error (wrapError e (text "failed to open persistent storage")), dir)
        | .ok _ => (.ok ⟨path, f, index⟩, dir)

/-- `LoadPersistentStorage`; a file that is missing cannot be opened. -/
def loadPersistentStorage (path : FileId) (dir : Directory) : Result PersistentStorage :=
  match dir.index path with
  | none => .error ((makeError (text "failed to open file at " ++ Disk.pathString path "index")).wrap
      .kUnknown (text "failed to load index file"))
  | some bytes =>
    match parseIndex bytes with
    | none => .error (makeError (text "failed to parse persistent storage header"))
    | some index =>
      match dir.data path with
      | none => .error ((makeError (text "failed to open file at " ++ Disk.pathString path "data")).wrap
          .kUnknown (text "failed to open persistent storage"))
      | some content => .ok ⟨path, content, index⟩

namespace PersistentStorage

/-- `ReadEntryAt`. -/
def readEntryAt (s : PersistentStorage) (offset : UInt64) : Result StorageEntry :=
  match record.read (s.content.drop offset.toNat) with
  | none => .error (makeError (text "failed to read entry from persistent storage"))
  | some (e, _) => .ok e

section
variable {m : Type → Type} [Monad m]

/-- `PersistentStorage::Get` over the `value()` of a read. -/
def getThrough (value : UInt64 → m StorageEntry) (s : PersistentStorage) (key : Str) :
    m (Result StorageEntry) := do
  let it ← Keyed.lowerBoundM (fun i => do
    let entry ← value (s.index.getD i 0)
    pure (decide (entry.key < key))) s.index.length
  match s.index[it]? with
  | some offset => do
    let entry ← value offset
    pure (if entry.key = key then .ok entry else notFound s key)
  | none => pure (notFound s key)
where
  notFound (s : PersistentStorage) (key : Str) : Result StorageEntry :=
    .error (makeError (text "key " ++ key ++ text " not found in persistent storage " ++
      Disk.pathString s.path "data"))

end

theorem getThrough_likeness {m m' : Type → Type} [Monad m] [Monad m'] (R : Likeness m m')
    (s : PersistentStorage) {value : UInt64 → m StorageEntry} {value' : UInt64 → m' StorageEntry}
    (hvalue : ∀ offset ∈ s.index, R.rel (fun _ => True) (value offset) (value' offset)) (key : Str) :
    R.rel (fun _ => True) (s.getThrough value key) (s.getThrough value' key) := by
  refine R.bind (Keyed.lowerBoundM_rel R fun i hi => ?_) fun it _ => ?_
  · rw [List.getD_eq_getElem?_getD, List.getElem?_eq_getElem hi]
    exact R.bind (hvalue _ (List.getElem_mem hi)) fun _ _ => R.pure trivial
  · cases hit : s.index[it]? with
    | none => exact R.pure trivial
    | some offset => exact R.bind (hvalue _ (List.mem_of_getElem? hit)) fun _ _ => R.pure trivial

/-- `PersistentStorage::Get`; `none` where `value()` of a failed read throws. -/
def get (s : PersistentStorage) (key : Str) : Option (Result StorageEntry) :=
  s.getThrough (fun offset => (s.readEntryAt offset).toOption) key

/-- `*it` from `begin()` to `end()`. -/
def iterate (s : PersistentStorage) : List (Result StorageEntry) := s.index.map s.readEntryAt

end PersistentStorage

/-! ### Bytes that stand for records -/

/-- Where records begin that are written one behind the other from `start` on. -/
def offsetsFrom : Nat → List StorageEntry → List UInt64
  | _, [] => []
  | start, e :: data => UInt64.ofNat start :: offsetsFrom (start + (record.encode e).length) data

/-- The bytes of a table of records. -/
structure Represents (s : PersistentStorage) (t : Iu9Db.PersistentStorage) : Prop where
  path : s.path = t.path
  fits : ∀ e ∈ t.entries, (encodeEntry e).length < 2 ^ 31
  size : (record.encodeAll t.entries).length < 2 ^ 63
  content : s.content = record.encodeAll t.entries
  index : s.index = offsetsFrom 0 t.entries

section
variable {s : PersistentStorage} {t : Iu9Db.PersistentStorage} {rows : List StorageEntry}

theorem length_offsetsFrom : ∀ (start : Nat) (rows : List StorageEntry), (offsetsFrom start rows).length =
    rows.length
  | _, [] => rfl
  | start, e :: rows => by simp [offsetsFrom, length_offsetsFrom]

theorem getElem?_offsetsFrom : ∀ (start : Nat) (rows : List StorageEntry) (i : Nat), i < rows.length →
    (offsetsFrom start rows)[i]? = some (UInt64.ofNat (start + (record.encodeAll (rows.take i)).length))
  | _, [], _, hi => absurd hi (Nat.not_lt_zero _)
  | start, e :: rows, 0, _ => by simp [offsetsFrom]
  | start, e :: rows, i + 1, hi => by
    have hrec := getElem?_offsetsFrom (start + (record.encode e).length) rows i (Nat.lt_of_succ_lt_succ hi)
    rw [offsetsFrom, List.getElem?_cons_succ, hrec, List.take_succ_cons, Codec.encodeAll_cons,
      List.length_append, Nat.add_assoc]

theorem writeEntries_cases : ∀ (rows : List StorageEntry) (f f' : Bytes) (index index' : List UInt64)
    {isOk : Bool}, f.length < 2 ^ 63 → writeEntries isOk rows f index = (some index', f') →
    (∀ e ∈ rows, (encodeEntry e).length < 2 ^ 31) ∧ f'.length < 2 ^ 63 ∧ f' = f ++ record.encodeAll rows ∧
      index' = index ++ offsetsFrom f.length rows
  | [], f, f', index, index', isOk, hf, h => by
    cases h
    exact ⟨fun _ he => absurd he List.not_mem_nil, hf, (List.append_nil f).symm, (List.append_nil index).symm⟩
  | e :: rows, f, f', index, index', isOk, hf, h => by
    unfold writeEntries serializeDelimited at h
    split at h
    · cases h
    · rename_i next hnext
      obtain ⟨⟨-, hfit, hsize⟩, hnext⟩ := Option.ite_none_right_eq_some.1 hnext
      cases hnext
      obtain ⟨hfits, hlt, rfl, rfl⟩ := writeEntries_cases rows _ _ _ _ hsize h
      refine ⟨fun e' he' => ?_, hlt, ?_, ?_⟩
      · rcases List.mem_cons.1 he' with rfl | he'
        · exact hfit
        · exact hfits e' he'
      · rw [Codec.encodeAll_cons, List.append_assoc]
      · rw [offsetsFrom, List.length_append, List.append_assoc]
        rfl

theorem writeEntries_of_fits : ∀ (rows : List StorageEntry) (f : Bytes) (index : List UInt64),
    (∀ e ∈ rows, record.Fits e) → (f ++ record.encodeAll rows).length < 2 ^ 63 →
      writeEntries true rows f index =
        (some (index ++ offsetsFrom f.length rows), f ++ record.encodeAll rows)
  | [], f, index, _, _ => by
    rw [writeEntries, offsetsFrom, Codec.encodeAll_nil, List.append_nil, List.append_nil]
  | e :: rows, f, index, hfits, hsize => by
    rw [Codec.encodeAll_cons, ← List.append_assoc] at hsize ⊢
    have hfit : (encodeEntry e).length < 2 ^ 31 := hfits e List.mem_cons_self
    have hlt : (f ++ record.encode e).length < 2 ^ 63 := by
      rw [List.length_append] at hsize
      omega
    have hone : serializeDelimited true e f = some (f ++ record.encode e) := if_pos ⟨rfl, hfit, hlt⟩
    rw [writeEntries, hone]
    dsimp only
    rw [writeEntries_of_fits rows _ _ (fun e' he' => hfits e' (List.mem_cons_of_mem _ he')) hsize,
      offsetsFrom, List.length_append, List.append_assoc]
    rfl

namespace Represents

theorem length_index (h : Represents s t) : s.index.length = t.entries.length := by
  rw [h.index, length_offsetsFrom]

theorem getElem?_index (h : Represents s t) {i : Nat} (hi : i < t.entries.length) :
    ∃ offset, s.index[i]? = some offset ∧ offset.toNat = (record.encodeAll (t.entries.take i)).length := by
  refine ⟨_, by rw [h.index]; exact getElem?_offsetsFrom 0 t.entries i hi, ?_⟩
  have hsize := h.size
  rw [← List.take_append_drop i t.entries, Codec.encodeAll_append, List.length_append] at hsize
  rw [Nat.zero_add, UInt64.toNat_ofNat', Nat.mod_eq_of_lt (by omega)]

theorem encode_prefix (h : Represents s t) {i : Nat} (hi : i < t.entries.length) :
    record.encode t.entries[i] <+: s.content.drop (record.encodeAll (t.entries.take i)).length := by
  have hsplit : record.encodeAll t.entries = record.encodeAll (t.entries.take i) ++
      (record.encode t.entries[i] ++ record.encodeAll (t.entries.drop (i + 1))) := by
    rw [← Codec.encodeAll_cons, ← Codec.encodeAll_append, List.getElem_cons_drop, List.take_append_drop]
  rw [h.content, hsplit, List.drop_left]
  exact List.prefix_append _ _

theorem deref_eq (h : Represents s t) {i : Nat} (hi : i < t.entries.length) :
    ∃ offset, s.index[i]? = some offset ∧ s.readEntryAt offset = .ok t.entries[i] := by
  obtain ⟨offset, hoffset, hnat⟩ := h.getElem?_index hi
  obtain ⟨rest, hrest⟩ := h.encode_prefix hi
  refine ⟨offset, hoffset, ?_⟩
  rw [PersistentStorage.readEntryAt, hnat, ← hrest,
    record.read_encode _ (h.fits _ (List.getElem_mem hi)) rest]

theorem iterate_eq (h : Represents s t) : s.iterate = t.entries.map .ok := by
  refine List.ext_getElem (by simp [PersistentStorage.iterate, h.length_index]) fun i hi hi' => ?_
  have hi : i < t.entries.length := by simpa using hi'
  obtain ⟨offset, hoffset, hread⟩ := h.deref_eq hi
  obtain ⟨_, rfl⟩ := List.getElem?_eq_some_iff.1 hoffset
  simpa [PersistentStorage.iterate] using hread

/-- `Get` runs like `Get` on the records, over reads that do. -/
theorem getThrough_rel {m : Type → Type} [Monad m] (R : Likeness Id m) {value : UInt64 → m StorageEntry}
    (h : Represents s t) (hvalue : ∀ i, (hi : i < t.entries.length) → ∀ offset, s.index[i]? = some offset →
      R.rel (fun _ => True) t.entries[i] (value offset)) (key : Str) :
    R.rel (fun _ => True) (t.get key) (s.getThrough value key) := by
  have hget : t.get key = Keyed.lowerBoundM (m := Id) (fun i => (t.entries[i]?).any fun entry =>
      decide (entry.key < key)) t.entries.length >>= fun it => (t.entries[it]?).elim
        (Iu9Db.PersistentStorage.get.notFound t key)
        fun entry => if entry.key = key then .ok entry else Iu9Db.PersistentStorage.get.notFound t key := by
    rw [Keyed.lowerBoundM_id]
    unfold Iu9Db.PersistentStorage.get
    generalize Keyed.lowerBound _ _ = it
    dsimp only
    show _ = (t.entries[it]?).elim _ _
    cases t.entries[it]? <;> rfl
  have hnotFound : PersistentStorage.getThrough.notFound s key =
    Iu9Db.PersistentStorage.get.notFound t key := by
    rw [PersistentStorage.getThrough.notFound, Iu9Db.PersistentStorage.get.notFound, h.path]
  rw [hget, PersistentStorage.getThrough, h.length_index, hnotFound]
  refine R.bind (Keyed.lowerBoundM_rel R fun i hi => ?_) fun it _ => ?_
  · obtain ⟨offset, hoffset, -⟩ := h.getElem?_index hi
    have hindex : s.index.getD i 0 = offset := by rw [List.getD_eq_getElem?_getD, hoffset, Option.getD_some]
    rw [List.getElem?_eq_getElem hi, hindex]
    exact R.map (hvalue i hi offset hoffset) (fun entry => decide (entry.key < key)) fun _ _ => trivial
  · by_cases hit : it < t.entries.length
    · obtain ⟨offset, hoffset, -⟩ := h.getElem?_index hit
      rw [hoffset, List.getElem?_eq_getElem hit]
      exact R.map (q := fun _ => True) (hvalue it hit offset hoffset)
        (fun entry => if entry.key = key then .ok entry else Iu9Db.PersistentStorage.get.notFound t key)
        fun _ _ => trivial
    · have hnone : s.index[it]? = none := List.getElem?_eq_none (by rw [h.length_index]; omega)
      rw [hnone, List.getElem?_eq_none (by omega)]
      exact R.pure trivial

/-- **`Get` on the bytes is `Get` on the records.** -/
theorem get_eq (h : Represents s t) (key : Str) : s.get key = some (t.get key) := by
  have hvalue : ∀ i, (hi : i < t.entries.length) → ∀ offset, s.index[i]? = some offset →
      Likeness.ofOption.rel (fun _ => True) t.entries[i] (s.readEntryAt offset).toOption := by
    intro i hi offset hoffset
    obtain ⟨offset', hoffset', hread⟩ := h.deref_eq hi
    obtain rfl : offset' = offset := Option.some.inj (hoffset'.symm.trans hoffset)
    exact ⟨by rw [hread]; rfl, trivial⟩
  exact (h.getThrough_rel Likeness.ofOption hvalue key).1

end Represents

/-- What a table leaves that was written: its records, and the files that stand for them. -/
theorem newPersistentStorage_cases {io : TableIO} {data : List StorageEntry} {dir dir' : Directory}
    (h : newPersistentStorage io data dir = (.ok s, dir')) :
    Represents s ⟨dir.nextFile, data.insertionSort (· ≤ ·)⟩ ∧ dir'.data s.path = some s.content ∧
      dir'.index s.path = some ((serializeIndex data.length s.index).getD []) := by
  unfold newPersistentStorage at h
  dsimp only at h
  split at h
  · cases h
  · split at h
    · cases h
    · rename_i index f hwrite
      obtain ⟨hfits, hsize, rfl, rfl⟩ := writeEntries_cases _ _ _ _ _ (by simp) hwrite
      split at h
      · cases h
      · split at h <;> cases h
        refine ⟨⟨rfl, hfits, hsize, rfl, rfl⟩, Function.update_self .., ?_⟩
        dsimp only
        rw [Function.update_self, List.length_insertionSort]

/-- **Records that fit are written**, when nothing fails. -/
theorem newPersistentStorage_of_fits {data : List StorageEntry} (dir : Directory)
    (hfits : ∀ e ∈ data, record.Fits e) (hsize : (record.encodeAll data).length < 2 ^ 63) :
    ∃ dir', newPersistentStorage .succeeds data dir =
      (.ok ⟨dir.nextFile, record.encodeAll (data.insertionSort (· ≤ ·)),
        offsetsFrom 0 (data.insertionSort (· ≤ ·))⟩, dir') := by
  have hperm := List.perm_insertionSort (· ≤ ·) data
  have hlen : (record.encodeAll (data.insertionSort (· ≤ ·))).length = (record.encodeAll data).length :=
    (hperm.flatMap_right record.encode).length_eq
  have hwrite := writeEntries_of_fits (data.insertionSort (· ≤ ·)) [] []
    (fun e he => hfits e (hperm.mem_iff.1 he)) (by rw [List.nil_append, hlen]; exact hsize)
  unfold newPersistentStorage TableIO.succeeds
  dsimp only
  rw [hwrite]
  exact ⟨_, rfl⟩

theorem loadPersistentStorage_eq {dir : Directory} (h : Represents s t)
    (hdata : dir.data s.path = some s.content)
    (hindex : dir.index s.path = serializeIndex t.entries.length s.index)
    (hsome : (serializeIndex t.entries.length s.index).isSome) :
    loadPersistentStorage s.path dir = .ok s := by
  have hlen : t.entries.length < 2 ^ 64 := by
    have hle := Codec.length_le_encodeAll (c := record) h.fits
    have hsize := h.size
    omega
  obtain ⟨bytes, hbytes⟩ := Option.isSome_iff_exists.1 hsome
  obtain ⟨hfit, hencode⟩ := Option.ite_none_right_eq_some.1 hbytes
  cases hencode
  unfold loadPersistentStorage
  rw [hindex, hbytes]
  dsimp only
  rw [parseIndex_encodeIndex hlen hfit]
  dsimp only
  rw [hdata]

/-! ### The table is a map -/

/-- `Get` answers with the records of `data` and with nothing else, and the iterator yields them in
the order of their keys. -/
structure IsMapOf (s : PersistentStorage) (data : List StorageEntry) : Prop where
  get_mem : ∀ e ∈ data, s.get e.key = some (.ok e)
  get_absent : ∀ key, key ∉ data.map StorageEntry.key → ∃ e, s.get key = some (.error e)
  iterate : ∃ rows, s.iterate = rows.map .ok ∧ rows.Perm data ∧ Keyed.Strict StorageEntry.key rows

theorem Represents.isMapOf {path : FileId} {data : List StorageEntry}
    (h : Represents s ⟨path, data.insertionSort (· ≤ ·)⟩) (hkeys : (data.map StorageEntry.key).Nodup) :
    IsMapOf s data := by
  have hstrict := strict_insertionSort hkeys
  have hget (key : Str) :=
    (Iu9Db.PersistentStorage.get_eq (s := ⟨path, data.insertionSort (· ≤ ·)⟩) hstrict key).trans
    (find_insertionSort hkeys key)
  refine ⟨fun e he => ?_, fun key hkey => ?_, _, h.iterate_eq, List.perm_insertionSort _ _, hstrict⟩
  · have hfound := hget e.key
    rw [Keyed.find_of_mem hkeys he] at hfound
    rw [h.get_eq, Result.eq_ok hfound]
  · have hfound := hget key
    rw [Keyed.find_eq_none.2 fun e he (hek : e.key = key) => hkey (hek ▸ List.mem_map_of_mem he)] at hfound
    obtain ⟨err, herr⟩ := Result.exists_error hfound
    exact ⟨err, by rw [h.get_eq, herr]⟩

/-- **A table is a map, and so is what is loaded from its files**: as soon as it is written, its index
included. -/
theorem isMapOf_of_written {io : TableIO} {data : List StorageEntry} {dir dir' : Directory}
    (hkeys : (data.map StorageEntry.key).Nodup) (hnew : newPersistentStorage io data dir = (.ok s, dir'))
    (hindex : (serializeIndex data.length s.index).isSome) :
    IsMapOf s data ∧ ∃ s', loadPersistentStorage s.path dir' = .ok s' ∧ IsMapOf s' data := by
  obtain ⟨hrep, hfile, hheader⟩ := newPersistentStorage_cases hnew
  have hmap := hrep.isMapOf hkeys
  obtain ⟨bytes, hbytes⟩ := Option.isSome_iff_exists.1 hindex
  refine ⟨hmap, s, loadPersistentStorage_eq hrep hfile ?_ ?_, hmap⟩
  · rw [hheader, List.length_insertionSort, hbytes]
    rfl
  · rw [List.length_insertionSort]
    exact hindex

end

/-- A tombstone, an empty value and an empty key. -/
def mixedData : List StorageEntry := [⟨[98], some [], 7⟩, ⟨[97], none, 9⟩, ⟨[], some [1, 2], 0⟩]

theorem isMapOf_mixedData :
    ∃ s dir', newPersistentStorage .succeeds mixedData ⟨0, fun _ => none, fun _ => none⟩ =
    (.ok s, dir') ∧ IsMapOf s mixedData ∧ ∃ s', loadPersistentStorage s.path dir' = .ok s' ∧
    IsMapOf s' mixedData := by
  obtain ⟨dir', hnew⟩ := newPersistentStorage_of_fits ⟨0, fun _ => none, fun _ => none⟩
    (by decide : ∀ e ∈ mixedData, (encodeEntry e).length < 2 ^ 31) (by decide)
  exact ⟨_, dir', hnew, isMapOf_of_written (by decide) hnew (by decide)⟩

end TableBytes

end Iu9Db
