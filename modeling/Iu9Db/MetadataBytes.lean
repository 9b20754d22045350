import Iu9Db.PersistentStorageCollection
import Iu9Db.Lib.Wire

/-!
# The bytes of `persistent.metadata`

`AppendMetadata` reads the file, opens it with `trunc` and writes the whole list again. Until the last byte is
written the file has a prefix of the new list, which parses only at the end of an entry: `crashAtomic_iff`
says which crashes that survives. `SwapWith` writes the list to another file and renames it.
-/

namespace Iu9Db

open Wire Delimited

/-- The data directory: how a table's file is named, and what `LoadPersistentStorage` makes of a name.
`Add` leaves the tables alone. -/
structure DataDir where
  filename : FileId → Str
  load : Str → Option PersistentStorage

namespace MetadataBytes

/-! ### `persistent.proto` -/

def entryFields (filename : Str) : List Field := [⟨1, .lengthDelimited filename⟩]

/-- The fields of `persistent::Metadata`. -/
def metadataFields (filenames : List Str) : List Field :=
  filenames.map fun filename => ⟨1, .lengthDelimited (field.encodeAll (entryFields filename))⟩

def encode (filenames : List Str) : Bytes := field.encodeAll (metadataFields filenames)

/-- A parsed field of `MetadataEntry`. -/
def mergeFilename (filename : Str) (f : Field) : Str :=
  match f.number, f.payload with
  | 1, .lengthDelimited bytes => bytes
  | _, _ => filename

/-- A parsed field of `Metadata`: one more entry. -/
def mergeEntry (filenames : List Str) (f : Field) : Option (List Str) :=
  match f.number, f.payload with
  | 1, .lengthDelimited bytes => (parseFields (recursionLimit - 1) bytes).map fun fs =>
    filenames ++ [fs.foldl mergeFilename []]
  | _, _ => some filenames

def parse (bytes : Bytes) : Option (List Str) :=
  (parseFields recursionLimit bytes).bind fun fs => fs.foldlM mergeEntry []

/-! ### The file -/

/-- `ReadMetadata`; a file that is missing is `none`. -/
def readMetadata (file : Option Bytes) : Result (List Str) :=
  match file with
  | none => .error (makeError (text "failed to open metadata file"))
  | some bytes =>
    match parse bytes with
    | none => .error (makeError (text "failed to parse metadata file"))
    | some filenames => .ok filenames

/-- How the file system treats an `AppendMetadata`: whether the file is opened, whether
`SerializeToOstream` finds its writes to succeed, and how many bytes are written to the file before a
crash or a failure. -/
structure AppendBytesIO where
  opened : Result Unit
  serialized : Bool
  written : Nat

/-- `AppendMetadata`, as far as it gets. A message of two gigabytes is not serialised, and a flush
that fails is not looked at. -/
def appendMetadata (io : AppendBytesIO) (filename : Str) (file : Option Bytes) : Result Unit × Option Bytes :=
  let metadata := match readMetadata file with
    | .ok filenames => filenames
    | .error _ => []
  match io.opened with
  | .error e => (.error (wrapError e (text "failed to open metadata file")), file)
  | .ok _ =>
    let bytes := encode (metadata ++ [filename])
    if bytes.length < 2 ^ 31 then
      (if io.serialized then .ok () else .error (makeError (text "failed to write metadata")),
        some (bytes.take io.written))
    else (.error (makeError (text "failed to write metadata")), some [])

/-- `ReadCollection`. -/
def readCollection (dir : DataDir) (file : Option Bytes) : List PersistentStorage :=
  match readMetadata file with
  | .error _ => []
  | .ok filenames => filenames.filterMap dir.load

section
variable {filenames : List Str}

theorem isPlain_metadataFields : ∀ f ∈ metadataFields filenames, f.IsPlain := by
  simp [metadataFields, Field.IsPlain]

theorem metadataFields_take (k : Nat) : (metadataFields filenames).take k =
    metadataFields (filenames.take k) :=
  List.map_take.symm

/-- One entry of a list that is not too long. -/
theorem mergeEntry_entry {filename : Str} (h : (field.encodeAll (entryFields filename)).length < 2 ^ 31)
    (filenames : List Str) :
    mergeEntry filenames ⟨1, .lengthDelimited (field.encodeAll (entryFields filename))⟩ =
    some (filenames ++ [filename]) := by
  have hplain : ∀ f ∈ entryFields filename, f.IsPlain := by simp [entryFields, Field.IsPlain]
  simp only [mergeEntry, parseFields_encodeAll hplain h, Option.map_some]
  rfl

theorem foldlM_mergeEntry (h : (encode filenames).length < 2 ^ 31) (parsed : List Str) :
    (metadataFields filenames).foldlM mergeEntry parsed = some (parsed ++ filenames) := by
  induction filenames generalizing parsed with
  | nil => simp [metadataFields]
  | cons filename filenames ih =>
    have hencode : encode (filename :: filenames) =
        Field.encode ⟨1, .lengthDelimited (field.encodeAll (entryFields filename))⟩ ++ encode filenames :=
      Codec.encodeAll_cons
    rw [hencode, List.length_append] at h
    have hentry := (Field.length_le_encode 1 (field.encodeAll (entryFields filename))).trans_lt
      ((Nat.le_add_right _ _).trans_lt h)
    rw [metadataFields, List.map_cons, List.foldlM_cons, mergeEntry_entry hentry]
    have hrest := ih ((Nat.le_add_left _ _).trans_lt h) (parsed ++ [filename])
    rw [List.append_assoc] at hrest
    exact hrest

theorem parse_encode (h : (encode filenames).length < 2 ^ 31) :
    parse (encode filenames) = some filenames := by
  rw [parse, encode, parseFields_encodeAll isPlain_metadataFields h, Option.bind_some, foldlM_mergeEntry h,
    List.nil_append]

/-- **A list that is cut off parses only behind an entry**, to the entries before. -/
theorem parse_prefix (h : (encode filenames).length < 2 ^ 31) {bytes : Bytes}
    (hp : bytes <+: encode filenames) {parsed : List Str} (hparse : parse bytes = some parsed) :
    ∃ k ≤ filenames.length, bytes = encode (filenames.take k) ∧ parsed = filenames.take k := by
  obtain ⟨fs, hfs, -⟩ := Option.bind_eq_some_iff.1 hparse
  obtain ⟨k, hk, rfl, -⟩ := parseFields_prefix isPlain_metadataFields h hp hfs
  rw [metadataFields_take] at hparse
  have hlt : (encode (filenames.take k)).length < 2 ^ 31 := by
    rw [encode, ← metadataFields_take]
    exact hp.length_le.trans_lt h
  rw [← encode, parse_encode hlt, Option.some.injEq] at hparse
  refine ⟨k, ?_, by rw [metadataFields_take]; rfl, hparse.symm⟩
  rwa [metadataFields, List.length_map] at hk

end

/-! ### The disk of file names -/

/-- The bytes that stand for a list of files, or for a file that cannot be read. -/
def Represents (dir : DataDir) (file : Option Bytes) (paths : Option (List FileId)) : Prop :=
  (readMetadata file).toOption = paths.map (List.map dir.filename)

section
variable {dir : DataDir} {file : Option Bytes} {d : Disk}

theorem readCollection_eq (hfile : Represents dir file (d.metadata .main))
    (hload : ∀ path, dir.load (dir.filename path) = (loadPersistentStorage path d).toOption) :
    readCollection dir file = Iu9Db.readCollection d := by
  unfold Represents at hfile
  unfold readCollection Iu9Db.readCollection Iu9Db.readMetadata
  cases hd : d.metadata .main with
  | none =>
    rw [hd] at hfile
    cases hread : readMetadata file with
    | error e => rfl
    | ok filenames => rw [hread] at hfile; cases hfile
  | some paths =>
    rw [hd] at hfile
    cases hread : readMetadata file with
    | error e => rw [hread] at hfile; cases hfile
    | ok filenames =>
      rw [hread] at hfile
      obtain rfl : filenames = paths.map dir.filename := Option.some.inj hfile
      dsimp only
      rw [List.filterMap_map]
      exact List.filterMap_congr fun path _ => hload path

/-- **Whatever happens to the bytes is one of the outcomes that the disk of file names knows.** -/
theorem appendMetadata_eq (hfile : Represents dir file (d.metadata .main)) (io : AppendBytesIO)
    (storage : PersistentStorage) : ∃ io', (Iu9Db.appendMetadata io' storage d).1 =
        (appendMetadata io (dir.filename storage.path) file).1 ∧
      Represents dir (appendMetadata io (dir.filename storage.path) file).2
        ((Iu9Db.appendMetadata io' storage d).2.metadata .main) := by
  let paths := (d.metadata .main).getD []
  have hfilenames : (match readMetadata file with
      | .ok filenames => filenames
      | .error _ => []) = paths.map dir.filename := by
    unfold Represents at hfile
    cases hd : d.metadata .main <;> rw [hd] at hfile <;>
      cases hread : readMetadata file <;> rw [hread] at hfile <;> cases hfile
    · simp [paths, hd]
    · simp [paths, hd]
  have hnew : paths.map dir.filename ++ [dir.filename storage.path] =
    (paths ++ [storage.path]).map dir.filename := by
    rw [List.map_append]
    rfl
  have hfails (left : Option (List FileId)) :
    ((Iu9Db.appendMetadata (.writeFails left) storage d).2.metadata .main) =
      left := by simp [Iu9Db.appendMetadata]
  have hok (io' : AppendIO) (hres : (Iu9Db.appendMetadata io' storage d).1 = .ok ()) :
      (Iu9Db.appendMetadata io' storage d).2.metadata .main = io'.written (paths ++ [storage.path]) :=
    appendMetadata_ok io' storage d .main hres
  unfold appendMetadata
  rw [hfilenames]
  dsimp only
  rw [hnew]
  cases io.opened with
  | error e => exact ⟨.openFails e, rfl, hfile⟩
  | ok u =>
    dsimp only
    split
    · rename_i hfits
      cases hparse : parse ((encode ((paths ++ [storage.path]).map dir.filename)).take io.written) with
      | none =>
        cases io.serialized with
        | true =>
          refine ⟨.flushFails none, rfl, ?_⟩
          rw [hok _ rfl, Represents, readMetadata, hparse]
          rfl
        | false =>
          refine ⟨.writeFails none, rfl, ?_⟩
          rw [hfails, Represents, readMetadata, hparse]
          rfl
      | some parsed =>
        obtain ⟨k, -, -, rfl⟩ := parse_prefix hfits (List.take_prefix io.written _) hparse
        cases io.serialized with
        | true =>
          -- The flush has written `k` names, all of them or not the last one.
          by_cases hk : k ≤ paths.length
          · refine ⟨.flushFails (some ⟨k, 0, 0⟩), rfl, ?_⟩
            have hnames : Rewritten.names ⟨k, 0, 0⟩ (paths ++ [storage.path]) =
              (paths ++ [storage.path]).take k := by
              rw [Rewritten.names, List.dropLast_concat, List.take_append_of_le_length hk]
              exact List.append_nil _
            rw [hok _ rfl, AppendIO.written, Option.map_some, hnames, Represents, readMetadata, hparse,
              Option.map_some, List.map_take]
            rfl
          · refine ⟨.ok, rfl, ?_⟩
            have hall : (paths ++ [storage.path]).length ≤ k := by
              rw [List.length_append, List.length_singleton]
              omega
            rw [hok _ rfl, Represents, readMetadata, hparse,
              List.take_of_length_le (by rwa [List.length_map])]
            rfl
        | false =>
          refine ⟨.writeFails (some ((paths ++ [storage.path]).take k)), rfl, ?_⟩
          rw [hfails, Represents, readMetadata, hparse, Option.map_some, List.map_take]
          rfl
    · refine ⟨.writeFails (some []), rfl, ?_⟩
      rw [hfails]
      rfl

end

/-! ### A crash of `Add` -/

/-- A collection as its metadata file lists it; there is no file before the first table. -/
structure Listing (dir : DataDir) where
  storages : List PersistentStorage
  loads : ∀ storage ∈ storages, dir.load (dir.filename storage.path) = some storage
  file : Option Bytes
  lists : file = some (encode (storages.map fun storage => dir.filename storage.path)) ∨ file = none ∧
    storages = []
  fits : (encode (storages.map fun storage => dir.filename storage.path)).length < 2 ^ 31

namespace Listing

variable {dir : DataDir}

def filenames (l : Listing dir) : List Str := l.storages.map fun storage => dir.filename storage.path

/-- The file after as much of `Add` as `io` lets happen. -/
def fileAfter (l : Listing dir) (storage : PersistentStorage) (io : AppendBytesIO) : Option Bytes :=
  (appendMetadata io (dir.filename storage.path) l.file).2

/-- What is read at the next start is the old list or the new one. -/
def CrashAtomic (l : Listing dir) (storage : PersistentStorage) (io : AppendBytesIO) : Prop :=
  readCollection dir (l.fileAfter storage io) = l.storages ∨
    readCollection dir (l.fileAfter storage io) = l.storages ++ [storage]

/-- Nothing was listed, or the file was not opened, or it has exactly the old list or all of the new one. -/
def Survives (l : Listing dir) (storage : PersistentStorage) (io : AppendBytesIO) : Prop :=
  l.storages = [] ∨ io.opened.isOk = false ∨
    (encode (l.filenames ++ [dir.filename storage.path])).length < 2 ^ 31 ∧
      (io.written = (encode l.filenames).length ∨
        (encode (l.filenames ++ [dir.filename storage.path])).length ≤ io.written)

theorem metadata_eq (l : Listing dir) : (match readMetadata l.file with
    | .ok filenames => filenames
    | .error _ => []) = l.filenames := by
  rcases l.lists with h | ⟨h, hnil⟩
  · simp only [h, readMetadata, parse_encode l.fits]
    rfl
  · simp only [h, readMetadata, filenames, hnil, List.map_nil]

theorem fileAfter_eq (l : Listing dir) (storage : PersistentStorage) (io : AppendBytesIO) :
    l.fileAfter storage io =
      if io.opened.isOk then
        if (encode (l.filenames ++ [dir.filename storage.path])).length < 2 ^ 31 then
          some ((encode (l.filenames ++ [dir.filename storage.path])).take io.written)
        else some []
      else l.file := by
  unfold fileAfter appendMetadata
  rw [metadata_eq]
  cases io.opened with
  | error e => rfl
  | ok u =>
    dsimp only
    split <;> rfl

/-- A list of tables that load is read as they are. -/
theorem readCollection_encode {storages : List PersistentStorage}
    (hload : ∀ storage ∈ storages, dir.load (dir.filename storage.path) = some storage)
    (h : (encode (storages.map fun storage => dir.filename storage.path)).length < 2 ^ 31) :
    readCollection dir (some (encode (storages.map fun storage => dir.filename storage.path))) =
    storages := by
  simp only [readCollection, readMetadata, parse_encode h]
  clear h
  induction storages with
  | nil => rfl
  | cons storage storages ih =>
    rw [List.map_cons, List.filterMap_cons_some (hload storage List.mem_cons_self),
      ih fun s hs => hload s (List.mem_cons_of_mem _ hs)]

theorem readCollection_file (l : Listing dir) : readCollection dir l.file = l.storages := by
  rcases l.lists with h | ⟨h, hnil⟩
  · rw [h]
    exact readCollection_encode l.loads l.fits
  · rw [h, hnil]
    rfl

theorem filenames_append (l : Listing dir) (storage : PersistentStorage) :
    l.filenames ++ [dir.filename storage.path] =
      (l.storages ++ [storage]).map fun storage => dir.filename storage.path := by
  rw [List.map_append]
  rfl

theorem loads_append (l : Listing dir) {storage : PersistentStorage}
    (hload : dir.load (dir.filename storage.path) = some storage) :
    ∀ s ∈ l.storages ++ [storage], dir.load (dir.filename s.path) = some s := by
  intro s hs
  rcases List.mem_append.1 hs with hs | hs
  · exact l.loads s hs
  · rw [List.mem_singleton.1 hs]
    exact hload

theorem readCollection_prefix (l : Listing dir) {storage : PersistentStorage}
    (hload : dir.load (dir.filename storage.path) = some storage) {bytes : Bytes}
    (h : (encode (l.filenames ++ [dir.filename storage.path])).length < 2 ^ 31)
    (hp : bytes <+: encode (l.filenames ++ [dir.filename storage.path])) :
    readCollection dir (some bytes) = [] ∨
    ∃ k, bytes = encode ((l.filenames ++ [dir.filename storage.path]).take k) ∧
      readCollection dir (some bytes) = (l.storages ++ [storage]).take k := by
  cases hparse : parse bytes with
  | none => exact .inl (by simp only [readCollection, readMetadata, hparse])
  | some parsed =>
    obtain ⟨k, -, rfl, -⟩ := parse_prefix h hp hparse
    have hlt := hp.length_le.trans_lt h
    refine .inr ⟨k, rfl, ?_⟩
    rw [filenames_append, ← List.map_take] at hlt ⊢
    exact readCollection_encode (fun s hs => l.loads_append hload s (List.mem_of_mem_take hs)) hlt

theorem readCollection_nil : readCollection dir (some []) = [] :=
  @readCollection_encode dir [] (fun s hs => (by cases hs)) (Nat.two_pow_pos 31)

/-- A file of exactly the old list or of the whole new one is read as such. -/
theorem crashAtomic_of_survives (l : Listing dir) {storage : PersistentStorage}
    (hload : dir.load (dir.filename storage.path) = some storage) {io : AppendBytesIO}
    (h : l.Survives storage io) : l.CrashAtomic storage io := by
  unfold CrashAtomic
  rw [fileAfter_eq]
  cases hopened : io.opened.isOk with
  | false => exact .inl (by rw [if_neg Bool.false_ne_true, readCollection_file])
  | true =>
    rw [if_pos rfl]
    rcases h with hnil | hfails | ⟨hfits, hold | hnew⟩
    · split
      · rename_i hfits
        rcases l.readCollection_prefix hload hfits (List.take_prefix io.written _) with hread | ⟨k, -, hread⟩
        · exact .inl (by rw [hread, hnil])
        · rw [hread, hnil]
          cases k with
          | zero => exact .inl rfl
          | succ k => exact .inr (by simp)
      · exact .inl (by rw [readCollection_nil, hnil])
    · rw [hopened] at hfails
      cases hfails
    · left
      have hold' : encode (l.filenames ++ [dir.filename storage.path]) =
          encode l.filenames ++ encode [dir.filename storage.path] := by
        simp [encode, metadataFields]
      rw [if_pos hfits, hold, hold', List.take_left]
      exact readCollection_encode l.loads l.fits
    · right
      rw [if_pos hfits, List.take_of_length_le hnew]
      rw [filenames_append] at hfits ⊢
      exact readCollection_encode (l.loads_append hload) hfits

/-- Any other crash loses tables that were listed. -/
theorem survives_of_crashAtomic (l : Listing dir) {storage : PersistentStorage}
    (hload : dir.load (dir.filename storage.path) = some storage) {io : AppendBytesIO}
    (h : l.CrashAtomic storage io) : l.Survives storage io := by
  unfold CrashAtomic at h
  rw [fileAfter_eq] at h
  have hempty : ∀ file, readCollection dir file = [] →
      (readCollection dir file = l.storages ∨ readCollection dir file = l.storages ++ [storage]) →
        l.storages = [] := by
    intro file hfile hread
    rw [hfile] at hread
    rcases hread with hread | hread
    · exact hread.symm
    · simp at hread
  cases hopened : io.opened.isOk with
  | false => exact .inr (.inl hopened)
  | true =>
    rw [hopened, if_pos rfl] at h
    split at h
    · rename_i hfits
      rcases l.readCollection_prefix hload hfits (List.take_prefix io.written _) with hread |
        ⟨k, hbytes, hread⟩
      · exact .inl (hempty _ hread h)
      · have hlen := congrArg List.length hbytes
        rw [List.length_take] at hlen
        refine .inr (.inr ⟨hfits, ?_⟩)
        have hlength : l.filenames.length = l.storages.length := List.length_map _
        rw [hread] at h
        rcases h with h | h
        · have hk := congrArg List.length h
          rw [List.length_take, List.length_append, List.length_singleton] at hk
          obtain rfl : k = l.filenames.length := by omega
          rw [List.take_left] at hlen
          omega
        · have hk := congrArg List.length h
          rw [List.length_take, List.length_append, List.length_singleton] at hk
          rw [List.take_of_length_le (by rw [List.length_append, List.length_singleton]; omega)] at hlen
          omega
    · exact .inl (hempty _ readCollection_nil h)

end Listing

/-- **A crash of `Add` leaves the old list or the new one exactly when nothing was listed, the file was not
opened, or what was written of it is exactly the old list or the whole new one.** -/
theorem crashAtomic_iff {dir : DataDir} (l : Listing dir) {storage : PersistentStorage}
    (hload : dir.load (dir.filename storage.path) = some storage) (io : AppendBytesIO) :
    l.CrashAtomic storage io ↔ l.Survives storage io :=
  ⟨l.survives_of_crashAtomic hload, l.crashAtomic_of_survives hload⟩

def firstStorage : PersistentStorage := ⟨0, [⟨[97], some [1], 1⟩]⟩
def secondStorage : PersistentStorage := ⟨1, [⟨[98], some [2], 2⟩]⟩

/-- A directory with two tables. -/
def twoTables : DataDir where
  filename file := text "v1-" ++ text (toString file) ++ text ".data"
  load filename :=
    if filename = text "v1-0.data" then some firstStorage
    else if filename = text "v1-1.data" then some secondStorage
    else none

/-- Of which one is listed. -/
def oneListed : Listing twoTables where
  storages := [firstStorage]
  loads := by decide +kernel
  file := some (encode [text "v1-0.data"])
  lists := by decide +kernel
  fits := by decide +kernel

theorem crashAtomic_oneListed : oneListed.CrashAtomic secondStorage ⟨.ok (), true, 13⟩ ↔
    oneListed.Survives secondStorage ⟨.ok (), true, 13⟩ :=
  crashAtomic_iff oneListed (by decide +kernel) ⟨.ok (), true, 13⟩

/-- A crash after the file was truncated: the first table is no longer listed. -/
theorem not_crashAtomic : ¬ ∀ (dir : DataDir) (l : Listing dir) (storage : PersistentStorage)
    (io : AppendBytesIO), dir.load (dir.filename storage.path) = some storage → l.CrashAtomic storage io := by
  intro hall
  have hcrash := hall twoTables oneListed secondStorage ⟨.ok (), true, 0⟩ (by decide +kernel)
  have hread : readCollection twoTables (oneListed.fileAfter secondStorage ⟨.ok (), true, 0⟩) = [] := by
    decide +kernel
  rw [Listing.CrashAtomic, hread] at hcrash
  rcases hcrash with hcrash | hcrash <;> cases hcrash

end MetadataBytes

end Iu9Db
