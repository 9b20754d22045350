import Iu9Db.CompactionCrash
import Iu9Db.MetadataBytes
import Iu9Db.TableStreams
import Iu9Db.TornTail

/-!
# The bytes of the data directory

The WAL files, the tables and the metadata files in bytes, and what the code does to them. The other
models know a directory by its records (`Disk`): `Represents` says that the bytes stand for them.
Every operation keeps it, with the result that it has on the records for some outcome of the system
calls, as long as there is room for what the source writes without looking at the result
(`FindsRoom`).
-/

namespace Iu9Db

open Wire Delimited

namespace DirectoryBytes

/-! ### The directory -/

structure Directory where
  tables : TableBytes.Directory
  wal : FileId → Option Bytes
  metadata : MetadataFile → Option Bytes

namespace Directory

def empty : Directory := ⟨⟨0, fun _ => none, fun _ => none⟩, fun _ => none, fun _ => none⟩

/-- The directory after `filesystem::GetPath` has used up a name. -/
def takeName (b : Directory) : Directory :=
  { b with tables := { b.tables with nextFile := b.tables.nextFile + 1 } }

def setWal (b : Directory) (path : FileId) (content : Option Bytes) : Directory :=
  { b with wal := Function.update b.wal path content }

def setMetadata (b : Directory) (file : MetadataFile) (content : Option Bytes) : Directory :=
  { b with metadata := Function.update b.metadata file content }

/-- `fs::remove` of a `.data` file; the `.index` file stays. -/
def removeData (b : Directory) (path : FileId) : Directory :=
  { b with tables := { b.tables with data := Function.update b.tables.data path none } }

end Directory

/-- A `WALWriterImpl`: its file, and where its stream writes. -/
structure WalWriter where
  path : FileId
  position : Nat
deriving DecidableEq, Repr

/-- `NewWALWriter`. -/
def Directory.newWalWriter (created : Result Unit) (b : Directory) : Result WalWriter × Directory :=
  match created with
  | .error e => (.error (wrapError e (text "failed to create WAL")), b.takeName)
  | .ok _ => (.ok ⟨b.tables.nextFile, WalFile.newWALWriter.position⟩,
      b.takeName.setWal b.tables.nextFile (some WalFile.newWALWriter.content))

/-- `WALWriterImpl::WriteEntry`; a file that was removed has no name any more. -/
def Directory.writeEntry (entry : WalEntry) (w : WalWriter) (b : Directory) :
    Result Unit × WalWriter × Directory :=
  let (res, f) := WalFile.writeEntry entry ⟨(b.wal w.path).getD [], w.position⟩
  (res, ⟨w.path, f.position⟩, b.setWal w.path ((b.wal w.path).map fun _ => f.content))

/-- A node that stops in `WriteEntry`: so many bytes of the record have got to the file. -/
def Directory.tearEntry (entry : WalEntry) (n : Nat) (w : WalWriter) (b : Directory) : Directory :=
  b.setWal w.path ((b.wal w.path).map fun content => overwrite w.position
    ((WalEntry.record.encode entry).take n) content)

/-- The callback that `Swap` returns. -/
def Directory.removeWal (path : FileId) (b : Directory) : Directory := b.setWal path none

/-- `ReadWAL`: the operations, and where in the file the last complete record ends. -/
def Directory.readWal (path : FileId) (b : Directory) : Result (List Operation × Nat) :=
  match b.wal path with
  | none => .error ((makeError (text "failed to open file at " ++ Disk.pathString path "wal")).wrap
      .kUnknown (text "failed to open WAL file"))
  | some content => .ok (WalFile.readWAL content)

/-- `NewPersistentStorage`. -/
def Directory.newPersistentStorage (io : TableStreams.WriteIO) (data : List StorageEntry) (b : Directory) :
    Result TableBytes.PersistentStorage × Directory :=
  let (res, tables) := TableStreams.newPersistentStorage io data b.tables
  (res, { b with tables := tables })

/-- `path.filename()` of a table. -/
def filename (path : FileId) : Str := text "v1-" ++ text (toString path) ++ text ".data"

/-- The table of that name, if it is one of the names that `GetPath` has given. -/
def named (name : Str) (nextFile : FileId) : Option FileId :=
  (List.range nextFile).find? fun path => filename path = name

/-- `LoadPersistentStorage` of a name in the directory; `ReadCollection` only reports why one does not
load. -/
def Directory.load (name : Str) (b : Directory) : Option TableBytes.PersistentStorage :=
  (named name b.tables.nextFile).bind fun path => (TableBytes.loadPersistentStorage path b.tables).toOption

/-- `ReadCollection`. -/
def Directory.readCollection (b : Directory) : List TableBytes.PersistentStorage :=
  match MetadataBytes.readMetadata (b.metadata .main) with
  | .error _ => []
  | .ok filenames => filenames.filterMap fun name => b.load name

/-- What the operating system does in an `AppendMetadata`: whether it opens the file, where the buffer
overflows while the list is serialised, and how much room there is at the flush and when the stream is
destroyed. -/
structure ListIO where
  opened : Result Unit
  overflows : List Overflow
  flush : Nat
  close : Nat

/-- What `AppendMetadata` does with the extended list. -/
def Directory.writeList (io : ListIO) (filenames : List Str) (b : Directory) (file : MetadataFile) :
    Result Unit × Directory :=
  match io.opened with
  | .error e => (.error (wrapError e (text "failed to open metadata file")), b)
  | .ok _ =>
    let bytes := MetadataBytes.encode filenames
    let f :=
      if bytes.length < 2 ^ 31 then TableStreams.created.write io.overflows bytes else TableStreams.created
    let isOk := bytes.length < 2 ^ 31 ∧ f.failed = false
    (if isOk then .ok () else .error (makeError (text "failed to write metadata")),
      b.setMetadata file (some ((f.push io.flush).close io.close)))

/-- `AppendMetadata`. -/
def Directory.appendMetadata (io : ListIO) (storage : TableBytes.PersistentStorage) (b : Directory)
    (file : MetadataFile := .main) : Result Unit × Directory :=
  match MetadataBytes.readMetadata (b.metadata .main) with
  | .ok filenames => b.writeList io (filenames ++ [filename storage.path]) file
  | .error _ => b.writeList io [filename storage.path] file

/-- So many rows have an index that is serialised. -/
def maxRows : Nat := 2 ^ 27

/-- There is room for what is left of a list when its stream is flushed. -/
def ListIO.FindsRoom (io : ListIO) : Prop := ∀ bytes : Bytes, bytes.length < 2 ^ 31 →
  OutStream.Fit io.overflows [] bytes → (OutStream.unpushed io.overflows [] bytes).length ≤ io.flush

end DirectoryBytes

/-- There is room for what is left of a table when its `.data` file is flushed, and for its index. -/
def TableStreams.WriteIO.FindsRoom (io : TableStreams.WriteIO) : Prop :=
  ∀ rows, rows.length ≤ DirectoryBytes.maxRows →
  TableStreams.Accepts io.entries 0 0 rows [] → io.LosesNothing rows

namespace DirectoryBytes

/-! ### Bytes that stand for a disk of records -/

/-- The bytes before the position are records with the operations of `entries`, and nowhere behind it
does an operation begin. -/
structure HoldsUpTo (content : Bytes) (position : Nat) (entries : List WalEntry) : Prop where
  le : position ≤ content.length
  holds : ∃ as, WalEntry.record.Holds (content.take position) as ∧
    as.filterMap WalEntry.toOperation = entries.filterMap WalEntry.toOperation
  inert : ∀ k, position ≤ k → TornFile.NoOperation (content.drop k)

/-- What a WAL file stands for, or that it is missing. -/
def IsWal : Option Bytes → Option (List WalEntry) → Prop :=
  Option.Rel fun content entries => ∃ position, HoldsUpTo content position entries

/-- What `LoadPersistentStorage` makes of the files. -/
def IsTable (tables : TableBytes.Directory) (path : FileId) : Option (List StorageEntry) → Prop
  | some entries =>
    ∃ s, TableBytes.loadPersistentStorage path tables = .ok s ∧ TableBytes.Represents s ⟨path, entries⟩
  | none => ∃ e, TableBytes.loadPersistentStorage path tables = .error e

/-- The names of a list, and the tables that they lead to. One that `GetPath` has not given leads to none. -/
inductive Names : List Str → List FileId → Prop
  | nil : Names [] []
  | table (path) {names paths} (h : Names names paths) : Names (filename path :: names) (path :: paths)
  | other {name names paths} (hname : ∀ path, filename path ≠ name) (h : Names names paths) : Names
    (name :: names) paths

/-- What `ReadMetadata` makes of a metadata file. -/
def IsMetadata (file : Option Bytes) (paths : Option (List FileId)) : Prop :=
  Option.Rel Names (MetadataBytes.readMetadata file).toOption paths

structure Represents (b : Directory) (d : Disk) : Prop where
  nextFile : b.tables.nextFile = d.nextFile
  wal : ∀ path, IsWal (b.wal path) (d.wal path)
  table : ∀ path, IsTable b.tables path (d.data path)
  metadata : ∀ file, IsMetadata (b.metadata file) (d.metadata file)
  fresh : ∀ path, d.nextFile ≤ path → b.tables.index path = none

/-- The stream of a writer is behind the records of its file. -/
def AtEnd (w : WalWriter) (b : Directory) : Prop :=
  ∀ content ∈ b.wal w.path, ∃ entries, HoldsUpTo content w.position entries

/-- Functions that are related stay so where both are updated. -/
theorem rel_update {α β γ : Type} [DecidableEq α] {R : β → γ → Prop} {f : α → β} {g : α → γ}
    (h : ∀ a, R (f a) (g a)) (a : α) {x : β} {y : γ} (hxy : R x y) (a' : α) :
    R (Function.update f a x a') (Function.update g a y a') := by
  by_cases ha : a' = a
  · rw [ha, Function.update_self, Function.update_self]
    exact hxy
  · rw [Function.update_of_ne ha, Function.update_of_ne ha]
    exact h a'

namespace HoldsUpTo

variable {content : Bytes} {position : Nat} {entries : List WalEntry}

theorem nil : HoldsUpTo [] 0 [] where
  le := le_rfl
  holds := ⟨[], Codec.holds_nil, rfl⟩
  inert k _ := by
    rw [List.drop_nil]
    exact (TornFile.noOperation_iff []).2 rfl

/-- A record at the position, over whatever was there. -/
theorem writeEntry (h : HoldsUpTo content position entries) {entry : WalEntry}
    (hfit : WalEntry.record.Fits entry) :
    HoldsUpTo (overwrite position (WalEntry.record.encode entry) content)
      (position + (WalEntry.record.encode entry).length) (entries ++ [entry]) where
  le := by
    simp only [overwrite, List.length_append, List.length_take, Nat.min_eq_left h.le]
    omega
  holds := by
    obtain ⟨as, has, hops⟩ := h.holds
    have hone : WalEntry.record.Holds (WalEntry.record.encode entry) [entry] := by
      have hall : WalEntry.record.Holds (WalEntry.record.encodeAll [entry]) [entry] :=
        Codec.holds_encodeAll fun e he => List.mem_singleton.1 he ▸ hfit
      rwa [Codec.encodeAll_cons, Codec.encodeAll_nil, List.append_nil] at hall
    refine ⟨as ++ [entry], ?_, by rw [List.filterMap_append, List.filterMap_append, hops]⟩
    rw [take_overwrite h.le]
    exact has.append hone
  inert k hk := by
    rw [drop_overwrite h.le hk]
    exact h.inert k ((Nat.le_add_right _ _).trans hk)

/-- A record that is cut off leaves the ones before it. -/
theorem tear (h : HoldsUpTo content position entries) {bytes : Bytes}
    (hinert : ∀ k, position ≤ k → TornFile.NoOperation ((overwrite position bytes content).drop k)) :
    HoldsUpTo (overwrite position bytes content) position entries where
  le := by
    simp only [overwrite, List.length_append, List.length_take, Nat.min_eq_left h.le]
    omega
  holds := by
    rw [take_overwrite_left h.le]
    exact h.holds
  inert := hinert

/-- **`ReadWAL` finds the operations, and a position where the next record can be written.** -/
theorem readWAL (h : HoldsUpTo content position entries) :
    (WalFile.readWAL content).1 = entries.filterMap WalEntry.toOperation ∧
      HoldsUpTo content (WalFile.readWAL content).2 entries := by
  obtain ⟨as, has, hops⟩ := h.holds
  have hrest := (TornFile.noOperation_iff _).1 (h.inert position le_rfl)
  obtain ⟨pre, hpre, hholds⟩ :=
    (Codec.reads_readAll (c := WalEntry.record)
      (content.drop position)).holds WalEntry.message.delimited_local
  have hread := has (content.drop position)
  rw [List.take_append_drop] at hread
  generalize WalEntry.record.readAll (content.drop position) = r at hrest hpre hholds hread
  obtain ⟨as', rest⟩ := r
  dsimp only at hrest hpre hholds hread
  have hcontent : content = content.take position ++ pre ++ rest := by
    rw [List.append_assoc, ← hpre, List.take_append_drop]
  have hlen : content.length - rest.length = (content.take position ++ pre).length := by
    conv_lhs => rw [hcontent, List.length_append, Nat.add_sub_cancel]
  have hle : position ≤ content.length - rest.length := by
    rw [hlen, List.length_append, List.length_take, Nat.min_eq_left h.le]
    exact Nat.le_add_right _ _
  have hall : (as ++ as').filterMap WalEntry.toOperation = entries.filterMap WalEntry.toOperation := by
    rw [List.filterMap_append, hrest, List.append_nil, hops]
  rw [WalFile.readWAL_eq, hread]
  refine ⟨hall, Nat.sub_le _ _, ⟨as ++ as', ?_, hall⟩, fun k hk => h.inert k (hle.trans hk)⟩
  have htake : content.take (content.length - rest.length) = content.take position ++ pre := by
    have hleft : (content.take position ++ pre ++ rest).take (content.take position ++ pre).length =
      content.take position ++ pre := List.take_left
    rwa [← hcontent, ← hlen] at hleft
  show WalEntry.record.Holds (content.take (content.length - rest.length)) _
  rw [htake]
  exact has.append hholds

/-- What is read does not depend on where one looks for it. -/
theorem congr {position' : Nat} {entries' : List WalEntry} (h : HoldsUpTo content position entries)
    (h' : HoldsUpTo content position' entries') : HoldsUpTo content position entries' where
  le := h.le
  holds := by
    obtain ⟨as, has, hops⟩ := h.holds
    exact ⟨as, has, by rw [hops, ← h.readWAL.1, h'.readWAL.1]⟩
  inert := h.inert

end HoldsUpTo

theorem filename_injective : Function.Injective filename := by
  intro path path' h
  have htext := List.append_cancel_left (List.append_cancel_right h)
  have hbytes : (toString path).toByteArray = (toString path').toByteArray :=
    ByteArray.ext (Array.toList_inj.1 htext)
  exact Nat.repr_injective (String.toByteArray_inj.1 hbytes)

theorem named_filename {path nextFile : FileId} (h : path < nextFile) :
    named (filename path) nextFile = some path := by
  unfold named
  cases hfind : (List.range nextFile).find? fun p => filename p = filename path with
  | none => simpa using List.find?_eq_none.1 hfind path (List.mem_range.2 h)
  | some p =>
    have hname := List.find?_some hfind
    exact congrArg some (filename_injective (of_decide_eq_true hname))

theorem named_filename_of_le {path nextFile : FileId} (h : nextFile ≤ path) :
    named (filename path) nextFile = none := by
  refine List.find?_eq_none.2 fun p hp hname => ?_
  obtain rfl := filename_injective (of_decide_eq_true hname)
  exact absurd (List.mem_range.1 hp) (Nat.not_lt.2 h)

section
variable {tables tables' : TableBytes.Directory} {path : FileId} {b : Directory} {d d' : Disk}

theorem IsTable.congr {entries : Option (List StorageEntry)} (h : IsTable tables path entries)
    (hdata : tables'.data path = tables.data path) (hindex : tables'.index path = tables.index path) :
    IsTable tables' path entries := by
  have hload : TableBytes.loadPersistentStorage path tables' =
    TableBytes.loadPersistentStorage path tables := by
    unfold TableBytes.loadPersistentStorage
    rw [hdata, hindex]
  cases entries <;> simpa only [IsTable, hload] using h

/-- A table without an index does not load. -/
theorem isTable_of_index (h : tables.index path = none) : IsTable tables path none := by
  show ∃ e, TableBytes.loadPersistentStorage path tables = .error e
  unfold TableBytes.loadPersistentStorage
  rw [h]
  exact ⟨_, rfl⟩

/-- Neither does one without records. -/
theorem isTable_of_data (h : tables.data path = none) : IsTable tables path none := by
  show ∃ e, TableBytes.loadPersistentStorage path tables = .error e
  unfold TableBytes.loadPersistentStorage
  rw [h]
  split
  · exact ⟨_, rfl⟩
  · split
    · exact ⟨_, rfl⟩
    · exact ⟨_, rfl⟩

theorem IsTable.eq_none {entries : Option (List StorageEntry)} (h : IsTable tables path entries)
    (hindex : tables.index path = none) : entries = none := by
  cases entries with
  | none => rfl
  | some entries =>
    obtain ⟨s, hload, -⟩ := h
    obtain ⟨e, he⟩ := isTable_of_index hindex
    rw [he] at hload
    cases hload

namespace Represents

theorem data_eq_none (h : Represents b d) (hpath : d.nextFile ≤ path) : d.data path = none :=
  (h.table path).eq_none (h.fresh path hpath)

theorem empty : Represents .empty .empty where
  nextFile := rfl
  wal _ := .none
  table _ := isTable_of_index rfl
  metadata _ := .none
  fresh _ _ := rfl

theorem takeName (h : Represents b d) : Represents b.takeName d.takeName where
  nextFile := congrArg (· + 1) h.nextFile
  wal := h.wal
  table path := (h.table path).congr rfl rfl
  metadata := h.metadata
  fresh path hpath := h.fresh path (Nat.le_of_succ_le hpath)

theorem setWal (h : Represents b d) (path : FileId) {content : Option Bytes}
    {entries : Option (List WalEntry)} (hwal : IsWal content entries) : Represents (b.setWal path content)
    (d.setWal path entries) where
  nextFile := h.nextFile
  wal := rel_update h.wal path hwal
  table := h.table
  metadata := h.metadata
  fresh := h.fresh

theorem setMetadata (h : Represents b d) (file : MetadataFile) {content : Option Bytes}
    {paths : Option (List FileId)} (hmeta : IsMetadata content paths) :
    Represents (b.setMetadata file content) (d.setMetadata file paths) where
  nextFile := h.nextFile
  wal := h.wal
  table := h.table
  metadata := rel_update h.metadata file hmeta
  fresh := h.fresh

theorem removeData (h : Represents b d) (path : FileId) : Represents (b.removeData path)
    (d.setData path none) where
  nextFile := h.nextFile
  wal := h.wal
  table p := by
    by_cases hp : p = path
    · subst hp
      rw [Disk.setData_data, Function.update_self]
      exact isTable_of_data (Function.update_self ..)
    · rw [Disk.setData_data, Function.update_of_ne hp]
      exact (h.table p).congr (Function.update_of_ne hp ..) rfl
  metadata := h.metadata
  fresh := h.fresh

/-- Files under a fresh name. -/
theorem addTable (h : Represents b d) (hnext : tables'.nextFile = d.nextFile + 1)
    (hnext' : d'.nextFile = d.nextFile + 1) (hwal : d'.wal = d.wal) (hmeta : d'.metadata = d.metadata)
    (hother : ∀ p ≠ d.nextFile, tables'.data p = b.tables.data p ∧ tables'.index p = b.tables.index p ∧
      d'.data p = d.data p)
    (htable : IsTable tables' d.nextFile (d'.data d.nextFile)) :
    Represents { b with tables := tables' } d' where
  nextFile := hnext.trans hnext'.symm
  wal := hwal ▸ h.wal
  table p := by
    by_cases hp : p = d.nextFile
    · rw [hp]
      exact htable
    · obtain ⟨hdata, hindex, hrows⟩ := hother p hp
      rw [hrows]
      exact (h.table p).congr hdata hindex
  metadata := hmeta ▸ h.metadata
  fresh p hp := by
    rw [hnext'] at hp
    rw [(hother p (Nat.ne_of_gt hp)).2.1]
    exact h.fresh p (Nat.le_of_succ_le hp)

end Represents

end

/-! ### Operations -/

/-- The same error, or values that are related. -/
inductive Alike {α β : Type} (R : α → β → Prop) : Result α → Result β → Prop
  | ok {a b} (h : R a b) : Alike R (.ok a) (.ok b)
  | error (e : Error) : Alike R (.error e) (.error e)

/-- There is room for everything. -/
def ListIO.succeeds : ListIO := ⟨.ok (), [], 2 ^ 31, 0⟩

end DirectoryBytes

/-- There is room for everything. -/
def TableStreams.WriteIO.succeeds : TableStreams.WriteIO :=
  ⟨.ok (), fun _ => [], .ok (), [], 2 ^ 63, .ok (), 2 ^ 31, 0⟩

namespace DirectoryBytes

section
variable {b : Directory} {d : Disk} {path : FileId}

theorem atEnd_setWal {position : Nat} {content : Option Bytes} :
    AtEnd ⟨path, position⟩ (b.setWal path content) ↔
    ∀ bytes ∈ content, ∃ entries, HoldsUpTo bytes position entries := by
  show (∀ bytes ∈ Function.update b.wal path content path, _) ↔ _
  rw [Function.update_self]

theorem wal_newWalWriter_error {created : Result Unit} {e : Error} {b' : Directory}
    (h : b.newWalWriter created = (.error e, b')) : b'.wal = b.wal := by
  cases created <;> cases h
  rfl

theorem AtEnd.mono {w : WalWriter} {b' : Directory} (h : AtEnd w b)
    (hwal : ∀ content ∈ b'.wal w.path, content ∈ b.wal w.path) : AtEnd w b' :=
  fun content hc => h content (hwal content hc)

theorem Names.concat {names : List Str} {paths : List FileId} (h : Names names paths) (path : FileId) :
    Names (names ++ [filename path]) (paths ++ [path]) := by
  induction h with
  | nil => exact .table path .nil
  | table path' _ ih => exact .table path' ih
  | other hname _ ih => exact .other hname ih

/-- Whatever bytes there are, they lead to some tables or are no list. -/
theorem exists_isMetadata (file : Option Bytes) : ∃ paths, IsMetadata file paths := by
  unfold IsMetadata
  cases MetadataBytes.readMetadata file with
  | error e => exact ⟨none, .none⟩
  | ok names =>
    suffices h : ∃ paths, Names names paths from h.imp' some fun _ hpaths => .some hpaths
    induction names with
    | nil => exact ⟨[], .nil⟩
    | cons name names ih =>
      obtain ⟨paths, hpaths⟩ := ih
      by_cases hname : ∃ path, filename path = name
      · obtain ⟨path, rfl⟩ := hname
        exact ⟨path :: paths, .table path hpaths⟩
      · exact ⟨paths, .other (fun path h => hname ⟨path, h⟩) hpaths⟩

/-- A new file gets all that is written to it, if the flush finds room. -/
theorem close_push_created {overflows : List Overflow} {bytes : Bytes} {flush : Nat} (close : Nat)
    (hfailed : (TableStreams.created.write overflows bytes).failed = false)
    (hflush : OutStream.Fit overflows [] bytes → (OutStream.unpushed overflows [] bytes).length ≤ flush) :
    ((TableStreams.created.write overflows bytes).push flush).close close = bytes := by
  have hcreated : TableStreams.created.AtEnd := rfl
  obtain ⟨hfit, hbuffer⟩ := OutStream.write_fit (s := TableStreams.created) overflows bytes rfl
  have hos := hfit.1 hfailed
  have hend := hcreated.write overflows bytes
  obtain ⟨-, htarget, -⟩ := OutStream.target_write (s := TableStreams.created) le_rfl hfailed
  have hle := hflush hos
  rw [← show _ = OutStream.unpushed overflows [] bytes from hbuffer hos] at hle
  rw [hend.close_push hfailed, if_pos hle, List.take_of_length_le hle, List.append_nil, ← hend.target,
    htarget]
  simp [TableStreams.created, overwrite]

/-- Where every write finds room the call is that of `MetadataBytes`. -/
theorem appendMetadata_flushed (b : Directory) {io : ListIO} (hopened : io.opened = .ok ())
    (hroom : io.FindsRoom) (hfit : ∀ bytes : Bytes, OutStream.Fit io.overflows [] bytes)
    (s : TableBytes.PersistentStorage) (file : MetadataFile) : b.appendMetadata io s file =
      ((MetadataBytes.appendMetadata ⟨.ok (), true, 2 ^ 31⟩ (filename s.path) (b.metadata .main)).1,
        b.setMetadata file (MetadataBytes.appendMetadata ⟨.ok (), true, 2 ^ 31⟩ (filename s.path)
          (b.metadata .main)).2) := by
  have hlist (names : List Str) : b.writeList io names file =
      if (MetadataBytes.encode names).length < 2 ^ 31 then
        (.ok (), b.setMetadata file (some ((MetadataBytes.encode names).take (2 ^ 31))))
      else (.error (makeError (text "failed to write metadata")), b.setMetadata file (some [])) := by
    unfold Directory.writeList
    rw [hopened]
    dsimp only
    by_cases hfits : (MetadataBytes.encode names).length < 2 ^ 31
    · have hfailed :=
        (OutStream.write_fit (s := TableStreams.created) io.overflows (MetadataBytes.encode names) rfl).1.2
        (hfit _)
      rw [if_pos hfits, if_pos ⟨hfits, hfailed⟩, close_push_created io.close hfailed (hroom _ hfits),
        if_pos hfits, List.take_of_length_le hfits.le]
    · rw [if_neg hfits, if_neg fun h => hfits h.1, if_neg hfits,
        OutStream.AtEnd.close_push (s := TableStreams.created) rfl rfl]
      simp [TableStreams.created]
  unfold Directory.appendMetadata MetadataBytes.appendMetadata
  cases MetadataBytes.readMetadata (b.metadata .main) with
  | ok names =>
    dsimp only
    rw [hlist]
    split <;> rfl
  | error e =>
    dsimp only
    rw [List.nil_append, hlist]
    split <;> rfl

namespace Represents

theorem newWalWriter (h : Represents b d) (created : Result Unit) :
    Alike (fun w file => w.path = file ∧ AtEnd w (b.newWalWriter created).2)
        (b.newWalWriter created).1 (Iu9Db.newWalWriter created d).1 ∧
      Represents (b.newWalWriter created).2 (Iu9Db.newWalWriter created d).2 := by
  cases created with
  | error e => exact ⟨.error _, h.takeName⟩
  | ok u =>
    have hempty : IsWal (some []) (some []) := .some ⟨0, .nil⟩
    refine ⟨.ok ⟨h.nextFile, atEnd_setWal.2 fun content hcontent => ?_⟩, ?_⟩
    · cases hcontent
      exact ⟨[], .nil⟩
    · show Represents (b.takeName.setWal b.tables.nextFile _) (d.takeName.setWal d.nextFile _)
      rw [h.nextFile]
      exact h.takeName.setWal d.nextFile hempty

/-- A record is written unless it has two gigabytes. -/
theorem writeEntry (h : Represents b d) {w : WalWriter} (hw : AtEnd w b) (entry : WalEntry) :
    ∃ isOk, (WalEntry.record.Fits entry → isOk = true) ∧
      (b.writeEntry entry w).1 = (Iu9Db.writeEntry isOk w.path entry d).1 ∧
      (b.writeEntry entry w).2.1.path = w.path ∧
      AtEnd (b.writeEntry entry w).2.1 (b.writeEntry entry w).2.2 ∧
      Represents (b.writeEntry entry w).2.2 (Iu9Db.writeEntry isOk w.path entry d).2 := by
  refine ⟨decide (WalEntry.record.Fits entry), fun hfit => decide_eq_true hfit, ?_⟩
  have hfile := h.wal w.path
  unfold Directory.writeEntry WalFile.writeEntry Iu9Db.writeEntry
  by_cases hfit : WalEntry.record.Fits entry
  · have hlt : entry.encode.length < 2 ^ 31 := hfit
    simp only [if_pos hlt, if_pos (decide_eq_true hfit)]
    refine ⟨trivial, trivial, atEnd_setWal.2 fun content hc => ?_, h.setWal w.path ?_⟩
    · obtain ⟨old, hold, rfl⟩ := Option.map_eq_some_iff.1 hc
      obtain ⟨entries, hentries⟩ := hw old hold
      rw [hold]
      exact ⟨_, hentries.writeEntry hfit⟩
    · generalize hold : b.wal w.path = old at hfile
      generalize d.wal w.path = entries at hfile
      cases hfile with
      | none => exact .none
      | some hholds =>
        obtain ⟨position, hholds⟩ := hholds
        obtain ⟨entries', hentries⟩ := hw _ hold
        exact .some ⟨_, (hentries.congr hholds).writeEntry hfit⟩
  · have hlt : ¬ entry.encode.length < 2 ^ 31 := hfit
    have hnot : ¬ decide (WalEntry.record.Fits entry) = true := fun hd => hfit (of_decide_eq_true hd)
    have hsame : b.setWal w.path ((b.wal w.path).map fun _ => (b.wal w.path).getD []) = b := by
      have hfile : ((b.wal w.path).map fun _ => (b.wal w.path).getD []) = b.wal w.path := by
        cases b.wal w.path <;> rfl
      rw [hfile, Directory.setWal, Function.update_eq_self]
    simp only [if_neg hlt, if_neg hnot, hsame]
    exact ⟨trivial, trivial, hw, h⟩

/-- A record that is cut off is not there. -/
theorem tearEntry (h : Represents b d) {w : WalWriter} (hw : AtEnd w b) (entry : WalEntry) (n : Nat)
    (hinert : ∀ content ∈ (b.tearEntry entry n w).wal w.path, ∀ k, w.position ≤ k →
      TornFile.NoOperation (content.drop k)) : Represents (b.tearEntry entry n w) d := by
  have hfile := h.wal w.path
  have hset : d.setWal w.path (d.wal w.path) = d := by rw [Disk.setWal, Function.update_eq_self]
  rw [← hset]
  refine h.setWal w.path ?_
  have hwal : (b.tearEntry entry n w).wal w.path = (b.wal w.path).map fun content =>
      overwrite w.position ((WalEntry.record.encode entry).take n) content := Function.update_self ..
  rw [hwal] at hinert
  generalize hold : b.wal w.path = old at hfile hinert
  generalize d.wal w.path = entries at hfile
  cases hfile with
  | none => exact .none
  | some hholds =>
    obtain ⟨position, hholds⟩ := hholds
    obtain ⟨entries', hentries⟩ := hw _ hold
    exact .some ⟨_, (hentries.congr hholds).tear (hinert _ rfl)⟩

theorem readWal (h : Represents b d) (path : FileId) :
    Alike (fun r r' => r.1 = r'.1 ∧ AtEnd ⟨path, r.2⟩ b) (b.readWal path) (Iu9Db.readWal path d) := by
  have hfile := h.wal path
  unfold Directory.readWal Iu9Db.readWal
  generalize hcontent : b.wal path = content at hfile
  generalize d.wal path = entries at hfile
  cases hfile with
  | none => exact .error _
  | @some content entries hholds =>
    obtain ⟨position, hholds⟩ := hholds
    obtain ⟨hops, hend⟩ := hholds.readWAL
    refine .ok ⟨hops, fun content' hc => ⟨entries, ?_⟩⟩
    obtain rfl : content = content' := Option.some.inj (hcontent.symm.trans hc)
    exact hend

/-- What becomes of a table's files is one of the outcomes that the disk of records knows, and none in
which something is lost without an error. -/
theorem newPersistentStorage (h : Represents b d) {io : TableStreams.WriteIO} (hroom : io.FindsRoom)
    {data : List StorageEntry} (hrows : data.length ≤ maxRows) :
    ∃ io', io'.written = .whole ∧ Alike TableBytes.Represents (b.newPersistentStorage io data).1
        (Iu9Db.newPersistentStorage io' data d).1 ∧
      Represents (b.newPersistentStorage io data).2 (Iu9Db.newPersistentStorage io' data d).2 := by
  have hother {α : Type} (f : FileId → Option α) (x : Option α) (p : FileId) (hp : p ≠ d.nextFile) :
      Function.update f b.tables.nextFile x p = f p := by rw [h.nextFile, Function.update_of_ne hp]
  -- Without its index a table is not there.
  have hfails (f : Bytes) : Represents { b with tables :=
      ⟨b.tables.nextFile + 1, Function.update b.tables.data b.tables.nextFile (some f),
        b.tables.index⟩ } d.takeName := by
    refine h.addTable (congrArg (· + 1) h.nextFile) rfl rfl rfl (fun p hp => ⟨hother _ _ p hp, rfl, rfl⟩) ?_
    rw [Disk.takeName_data, h.data_eq_none le_rfl]
    exact isTable_of_index (h.fresh _ le_rfl)
  generalize hsorted : data.insertionSort (· ≤ ·) = rows
  have hlength : rows.length ≤ maxRows := by
    rw [← hsorted, List.length_insertionSort]
    exact hrows
  obtain ⟨hyes, hno⟩ := @TableStreams.writeEntries_cases io.entries rows 0 TableStreams.created [] [] []
    TableStreams.behind_created
  rw [List.length_nil, List.nil_append, List.nil_append] at hyes
  rw [List.length_nil] at hno
  unfold Directory.newPersistentStorage TableStreams.newPersistentStorage
  rw [hsorted]
  cases hcreate : io.createData with
  | error e =>
    refine ⟨⟨⟨.error e, true, .ok (), .ok ()⟩, .whole⟩, rfl, ?_⟩
    exact ⟨.error _, h.takeName⟩
  | ok u =>
    dsimp only
    by_cases hacc : TableStreams.Accepts io.entries 0 0 rows []
    · obtain ⟨f, hwrite, hf⟩ := hyes hacc
      have hlost := hroom rows hlength hacc
      have hw := TableStreams.writable_of_accepts hacc
      rw [hwrite]
      cases hcreateIndex : io.createIndex with
      | error e =>
        refine ⟨⟨⟨.ok (), true, .error e, .ok ()⟩, .whole⟩, rfl, ?_⟩
        exact ⟨.error _, hfails _⟩
      | ok u =>
        have hrep := hw.represents b.tables.nextFile
        have hindex : TableBytes.serializeIndex rows.length (TableBytes.offsetsFrom 0 rows) =
            some (TableBytes.encodeIndex rows.length (TableBytes.offsetsFrom 0 rows)) := if_pos hlost.size
        dsimp only
        rw [TableStreams.close_flush hf, TableStreams.close_serializeIndex, hlost.dataWritten_eq,
          hlost.indexWritten_eq]
        have htables : Represents { b with tables :=
            ⟨b.tables.nextFile + 1, Function.update b.tables.data b.tables.nextFile
              (some (TableBytes.record.encodeAll rows)), Function.update b.tables.index b.tables.nextFile
                (some (TableBytes.encodeIndex rows.length (TableBytes.offsetsFrom 0 rows)))⟩ }
            (d.takeName.setData d.nextFile (some rows)) := by
          refine h.addTable (congrArg (· + 1) h.nextFile) rfl rfl rfl (fun p hp =>
            ⟨hother _ _ p hp, hother _ _ p hp, Function.update_of_ne hp ..⟩) ?_
          rw [Disk.setData_data, Function.update_self]
          refine ⟨_, ?_, h.nextFile ▸ hrep⟩
          rw [← h.nextFile]
          exact TableBytes.loadPersistentStorage_eq hrep (Function.update_self ..)
            ((Function.update_self ..).trans hindex.symm) (by rw [hindex]; rfl)
        cases io.openData with
        | error e =>
          refine ⟨⟨⟨.ok (), true, .ok (), .error e⟩, .whole⟩, rfl, ?_⟩
          simp only [Iu9Db.newPersistentStorage, hsorted]
          exact ⟨.error _, htables⟩
        | ok u =>
          refine ⟨.succeeds, rfl, ?_⟩
          simp only [Iu9Db.newPersistentStorage, hsorted]
          exact ⟨.ok (h.nextFile ▸ hrep), htables⟩
    · have hnone := hno hacc
      refine ⟨⟨⟨.ok (), false, .ok (), .ok ()⟩, .whole⟩, rfl, ?_⟩
      generalize TableStreams.writeEntries io.entries 0 rows TableStreams.created [] = x at hnone ⊢
      obtain ⟨index, f⟩ := x
      obtain rfl : index = none := hnone
      exact ⟨.error _, hfails _⟩

theorem load_filename (h : Represents b d) (path : FileId) : b.load (filename path) =
    if path < d.nextFile then (TableBytes.loadPersistentStorage path b.tables).toOption else none := by
  unfold Directory.load
  rw [h.nextFile]
  split
  · rw [named_filename ‹_›]
    rfl
  · rw [named_filename_of_le (Nat.le_of_not_lt ‹_›)]
    rfl

theorem load_other (b : Directory) {name : Str} (hname : ∀ path, filename path ≠ name) :
    b.load name = none := by
  have hnamed : named name b.tables.nextFile = none :=
    List.find?_eq_none.2 fun path _ h => hname path (of_decide_eq_true h)
  rw [Directory.load, hnamed]
  rfl

theorem readCollection (h : Represents b d) :
    List.Forall₂ TableBytes.Represents (b.readCollection) (Iu9Db.readCollection d) := by
  have hmeta := h.metadata .main
  unfold IsMetadata at hmeta
  unfold Directory.readCollection Iu9Db.readCollection readMetadata
  generalize MetadataBytes.readMetadata (b.metadata .main) = r at hmeta ⊢
  generalize d.metadata .main = paths at hmeta ⊢
  cases r with
  | error e =>
    cases hmeta
    exact .nil
  | ok names =>
    cases hmeta with
    | @some _ paths hnames =>
      dsimp only
      induction hnames with
      | nil => exact .nil
      | table path _ ih =>
        have htable := h.table path
        rw [List.filterMap_cons, List.filterMap_cons, h.load_filename,
          CompactionCrash.toOption_loadPersistentStorage]
        cases hdata : d.data path with
        | none =>
          rw [hdata] at htable
          obtain ⟨e, he⟩ := htable
          rw [he]
          simpa [Except.toOption] using ih
        | some entries =>
          rw [hdata] at htable
          obtain ⟨s, hs, hrep⟩ := htable
          have hlt : path < d.nextFile := by
            by_contra hle
            rw [h.data_eq_none (Nat.le_of_not_lt hle)] at hdata
            cases hdata
          rw [hs, if_pos hlt]
          exact .cons hrep ih
      | other hname _ ih =>
        rw [List.filterMap_cons, load_other b hname]
        exact ih

/-- The names that are written again. -/
theorem exists_names (h : Represents b d) : ∃ names, Names names ((d.metadata .main).getD []) ∧
    ∀ io s file, b.appendMetadata io s file = b.writeList io (names ++ [filename s.path]) file := by
  have hmeta := h.metadata .main
  unfold IsMetadata at hmeta
  unfold Directory.appendMetadata
  generalize MetadataBytes.readMetadata (b.metadata .main) = r at hmeta ⊢
  generalize d.metadata .main = paths at hmeta ⊢
  cases r with
  | error e =>
    cases hmeta
    exact ⟨[], .nil, fun _ _ _ => rfl⟩
  | ok names =>
    cases hmeta with
    | some hnames => exact ⟨names, hnames, fun _ _ _ => rfl⟩

/-- A list that is written in part is read as some list, or not at all. -/
theorem appendMetadata (h : Represents b d) {io : ListIO} (hroom : io.FindsRoom)
    {s : TableBytes.PersistentStorage} {t : PersistentStorage} (hpath : s.path = t.path)
    (file : MetadataFile) : ∃ io' : AppendIO, (∀ left, io' ≠ .flushFails left) ∧
      (b.appendMetadata io s file).1 = (Iu9Db.appendMetadata io' t d file).1 ∧
      Represents (b.appendMetadata io s file).2 (Iu9Db.appendMetadata io' t d file).2 := by
  obtain ⟨names, hnames, hwrite⟩ := h.exists_names
  rw [hwrite, hpath]
  generalize hbytes : MetadataBytes.encode (names ++ [filename t.path]) = bytes
  unfold Directory.writeList
  cases io.opened with
  | error e => exact ⟨.openFails e, fun _ he => (by cases he), rfl, h⟩
  | ok u =>
    dsimp only
    rw [hbytes]
    generalize hf : (if bytes.length < 2 ^ 31 then TableStreams.created.write io.overflows bytes
      else TableStreams.created) = f
    by_cases hok : bytes.length < 2 ^ 31 ∧ f.failed = false
    · obtain ⟨hfits, hfailed⟩ := hok
      rw [if_pos hfits] at hf
      have hwritten : (f.push io.flush).close io.close = bytes := by
        subst hf
        exact close_push_created io.close hfailed (hroom bytes hfits)
      rw [if_pos ⟨hfits, hfailed⟩, hwritten]
      refine ⟨.ok, fun _ he => (by cases he), ?_⟩
      rw [appendMetadata_eq_ok]
      refine ⟨rfl, h.setMetadata file ?_⟩
      have hread : MetadataBytes.readMetadata (some bytes) = .ok (names ++ [filename t.path]) := by
        rw [← hbytes] at hfits ⊢
        simp only [MetadataBytes.readMetadata, MetadataBytes.parse_encode hfits]
      unfold IsMetadata
      rw [hread]
      exact .some (hnames.concat t.path)
    · rw [if_neg hok]
      obtain ⟨left, hleft⟩ := exists_isMetadata (some ((f.push io.flush).close io.close))
      exact ⟨.writeFails left, fun _ he => (by cases he), rfl, h.setMetadata file hleft⟩

end Represents

end

end DirectoryBytes

end Iu9Db
