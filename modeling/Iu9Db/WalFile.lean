import Iu9Db.StorageSystem
import Iu9Db.Lib.Wire

/-!
# The bytes of a WAL file

The messages of `wal.proto`, and what `WALWriterImpl` and `ReadWAL` do with the bytes of a file. Other models
know a file by its complete records; `readWAL_eq` says what the loop of `ReadWAL` makes of the bytes, and
`readWAL_take` what it makes of a file that was written and then cut.
-/

namespace Iu9Db

open Wire Delimited

/-! ### `wal.proto` -/

namespace WalEntry

def removeFields (key : Str) (version : UInt64) : List Field :=
  [⟨1, .lengthDelimited key⟩, ⟨2, .varint version.toNat⟩]

def insertFields (key value : Str) (version : UInt64) : List Field :=
  [⟨1, .lengthDelimited key⟩, ⟨2, .lengthDelimited value⟩, ⟨3, .varint version.toNat⟩]

/-- The fields of `wal::Entry`; those of its member are all set, also to an empty string or to zero. -/
def fields : WalEntry → List Field
  | notSet => []
  | remove key version => [⟨1, .lengthDelimited (field.encodeAll (removeFields key version))⟩]
  | insert key value version => [⟨2, .lengthDelimited (field.encodeAll (insertFields key value version))⟩]

def encode (entry : WalEntry) : Bytes := field.encodeAll entry.fields

/-- A parsed field of `Remove`; a field of another number or type is unknown. -/
def mergeRemove (op : Str × UInt64) (f : Field) : Str × UInt64 :=
  match f.number, f.payload with
  | 1, .lengthDelimited key => (key, op.2)
  | 2, .varint version => (op.1, UInt64.ofNat version)
  | _, _ => op

/-- A parsed field of `Insert`. -/
def mergeInsert (op : Str × Str × UInt64) (f : Field) : Str × Str × UInt64 :=
  match f.number, f.payload with
  | 1, .lengthDelimited key => (key, op.2)
  | 2, .lengthDelimited value => (op.1, value, op.2.2)
  | 3, .varint version => (op.1, op.2.1, UInt64.ofNat version)
  | _, _ => op

/-- The members as they are before a field of theirs is parsed: of a oneof, setting one clears the other. -/
def toRemove : WalEntry → Str × UInt64
  | remove key version => (key, version)
  | _ => ([], 0)

def toInsert : WalEntry → Str × Str × UInt64
  | insert key value version => (key, value, version)
  | _ => ([], [], 0)

/-- A parsed field of `Entry`. -/
def mergeField (entry : WalEntry) (f : Field) : Option WalEntry :=
  match f.number, f.payload with
  | 1, .lengthDelimited bytes => (parseFields (recursionLimit - 1) bytes).map fun fs =>
    let op := fs.foldl mergeRemove entry.toRemove
    remove op.1 op.2
  | 2, .lengthDelimited bytes => (parseFields (recursionLimit - 1) bytes).map fun fs =>
    let op := fs.foldl mergeInsert entry.toInsert
    insert op.1 op.2.1 op.2.2
  | _, _ => some entry

def parse (bytes : Bytes) : Option WalEntry :=
  (parseFields recursionLimit bytes).bind fun fs => fs.foldlM mergeField notSet

section
variable {key value : Str} {version : UInt64}

theorem isPlain_removeFields : ∀ f ∈ removeFields key version, f.IsPlain := by
  simp [removeFields, Field.IsPlain, version.toNat_lt]

theorem isPlain_insertFields : ∀ f ∈ insertFields key value version, f.IsPlain := by
  simp [insertFields, Field.IsPlain, version.toNat_lt]

theorem isPlain_fields (entry : WalEntry) : ∀ f ∈ entry.fields, f.IsPlain := by
  cases entry <;> simp [fields, Field.IsPlain]

/-- **What is serialised is parsed back.** -/
theorem parse_encode (entry : WalEntry) (h : entry.encode.length < 2 ^ 31) :
    parse entry.encode = some entry := by
  have hsub (number : Nat) (bytes : Bytes) (hbytes : entry.fields = [⟨number, .lengthDelimited bytes⟩]) :
      bytes.length < 2 ^ 31 := by
    have hmem : (⟨number, .lengthDelimited bytes⟩ : Field) ∈ entry.fields := by
      rw [hbytes]
      exact List.mem_cons_self
    have hle := Codec.length_encode_le (c := field) hmem
    exact ((Field.length_le_encode number bytes).trans hle).trans_lt h
  rw [parse, encode, parseFields_encodeAll entry.isPlain_fields h, Option.bind_some]
  cases entry with
  | notSet => rfl
  | remove key version =>
    have hfields : parseFields (recursionLimit - 1) (field.encodeAll (removeFields key version)) = _ :=
      parseFields_encodeAll isPlain_removeFields (hsub 1 _ rfl)
    simp only [fields, List.foldlM_cons, List.foldlM_nil, mergeField, hfields, Option.map_some]
    simp [removeFields, mergeRemove]
  | insert key value version =>
    have hfields : parseFields (recursionLimit - 1) (field.encodeAll (insertFields key value version)) = _ :=
      parseFields_encodeAll isPlain_insertFields (hsub 2 _ rfl)
    simp only [fields, List.foldlM_cons, List.foldlM_nil, mergeField, hfields, Option.map_some]
    simp [insertFields, mergeInsert]

end

/-- `wal::Entry`. -/
def message : Message WalEntry := ⟨encode, parse, parse_encode⟩

/-- A record of the log: `SerializeDelimitedToOstream` and `ParseDelimitedFromZeroCopyStream`. -/
def record : Codec WalEntry UInt8 := message.delimited

instance instDecidableFits (entry : WalEntry) : Decidable (record.Fits entry) :=
  inferInstanceAs (Decidable (entry.encode.length < 2 ^ 31))

end WalEntry

/-! ### The file -/

/-- A `WALWriterImpl`: the bytes of its file, and where the stream writes. -/
structure WalFile where
  content : Bytes
  position : Nat
deriving DecidableEq, Repr

namespace WalFile

/-- `NewWALWriter`. -/
def newWALWriter : WalFile := ⟨[], 0⟩

/-- `LoadWALWriter`: opened with `in`, the stream does not truncate the file. -/
def loadWALWriter (content : Bytes) (seek : Nat) : WalFile := ⟨content, seek⟩

/-- `WriteEntry`. A message of two gigabytes is not serialised. -/
def writeEntry (entry : WalEntry) (f : WalFile) : Result Unit × WalFile :=
  let bytes := WalEntry.record.encode entry
  if entry.encode.length < 2 ^ 31 then
    (.ok (), ⟨overwrite f.position bytes f.content, f.position + bytes.length⟩)
  else (.error (makeError (text "failed to write log entry")), f)

/-- Entries that are all written. -/
def writeAll : List WalEntry → WalFile → Option WalFile
  | [], f => some f
  | entry :: entries, f =>
    match f.writeEntry entry with
    | (.ok _, f) => writeAll entries f
    | (.error _, _) => none

/-- The loop of `ReadWAL` on a stream; it ends alike at the end of the file and at a bad entry. -/
def readWALLoop : Nat → List Operation → Bytes → List Operation × Bytes
  | 0, result, stream => (result, stream)
  | n + 1, result, stream =>
    match WalEntry.record.read stream with
    | none => (result, stream)
    | some (entry, stream) =>
      match entry.toOperation with
      | some operation => readWALLoop n (result ++ [operation]) stream
      | none => readWALLoop n result stream

/-- `ReadWAL`: the operations, and where the last complete record ends. -/
def readWAL (content : Bytes) : List Operation × Nat :=
  let (result, stream) := readWALLoop content.length [] content
  (result, content.length - stream.length)

section
variable {entries : List WalEntry} {f f' : WalFile}

theorem readWALLoop_eq (n : Nat) (result : List Operation) (stream : Bytes) :
    readWALLoop n result stream =
    (result ++ (WalEntry.record.readUpTo n stream).1.filterMap WalEntry.toOperation,
      (WalEntry.record.readUpTo n stream).2) := by
  induction n generalizing result stream with
  | zero => simp [readWALLoop, Codec.readUpTo]
  | succ n ih =>
    unfold readWALLoop Codec.readUpTo
    cases WalEntry.record.read stream with
    | none => simp
    | some r =>
      cases hop : r.1.toOperation with
      | none => simp [ih, hop]
      | some operation => simp [ih, hop]

/-- **`ReadWAL` returns the operations of the records that are complete.** -/
theorem readWAL_eq (content : Bytes) :
    readWAL content = ((WalEntry.record.readAll content).1.filterMap WalEntry.toOperation,
      content.length - (WalEntry.record.readAll content).2.length) := by
  simp only [readWAL, readWALLoop_eq, Codec.readAll, List.nil_append]

/-- Behind whole records, a record that is cut off is where the next one belongs. -/
theorem readWAL_torn (hentries : ∀ entry ∈ entries, WalEntry.record.Fits entry) {cut : WalEntry}
    (hcut : WalEntry.record.Fits cut) {torn : Bytes} (hp : torn <+: WalEntry.record.encode cut)
    (hne : torn ≠ WalEntry.record.encode cut) :
    readWAL (WalEntry.record.encodeAll entries ++ torn) =
      (entries.filterMap WalEntry.toOperation, (WalEntry.record.encodeAll entries).length) := by
  rw [readWAL_eq, Codec.readAll_torn hentries hcut hp hne, List.length_append, Nat.add_sub_cancel]

theorem readWAL_encodeAll (hentries : ∀ entry ∈ entries, WalEntry.record.Fits entry) :
    readWAL (WalEntry.record.encodeAll entries) =
      (entries.filterMap WalEntry.toOperation, (WalEntry.record.encodeAll entries).length) := by
  rw [readWAL_eq, Codec.readAll_encodeAll hentries]
  rfl

theorem writeEntry_ok {entry : WalEntry} {u : Unit} (h : f.writeEntry entry = (.ok u, f')) :
    WalEntry.record.Fits entry ∧
      f' = ⟨overwrite f.position (WalEntry.record.encode entry) f.content,
        f.position + (WalEntry.record.encode entry).length⟩ := by
  unfold writeEntry at h
  dsimp only at h
  split at h
  · rename_i hfits
    cases h
    exact ⟨hfits, rfl⟩
  · cases h

/-- Entries one behind the other are written as one piece. -/
theorem writeAll_eq_some (hpos : f.position ≤ f.content.length) (h : writeAll entries f = some f') :
    (∀ entry ∈ entries, WalEntry.record.Fits entry) ∧
      f'.content = overwrite f.position (WalEntry.record.encodeAll entries) f.content := by
  induction entries generalizing f with
  | nil =>
    cases h
    exact ⟨fun entry h => (by cases h), by simp [overwrite]⟩
  | cons entry entries ih =>
    unfold writeAll at h
    split at h
    · rename_i f₁ hwrite
      obtain ⟨hfits, rfl⟩ := writeEntry_ok hwrite
      obtain ⟨hrest, hcontent⟩ := ih (by simp [overwrite]; omega) h
      refine ⟨fun e he => ?_, ?_⟩
      · rcases List.mem_cons.1 he with rfl | he
        · exact hfits
        · exact hrest e he
      · rw [hcontent, overwrite_overwrite hpos, Codec.encodeAll_cons]
    · cases h

/-! ### The disk of records -/

/-- Bytes of which the complete records are `entries`. -/
structure Represents (content : Bytes) (entries : List WalEntry) : Prop where
  fits : ∀ entry ∈ entries, WalEntry.record.Fits entry
  torn : ∃ cut torn, WalEntry.record.Fits cut ∧ torn <+: WalEntry.record.encode cut ∧
    torn ≠ WalEntry.record.encode cut ∧ content = WalEntry.record.encodeAll entries ++ torn

/-- Whole records and nothing else, with the stream at their end. -/
structure IsWhole (f : WalFile) (entries : List WalEntry) : Prop where
  fits : ∀ entry ∈ entries, WalEntry.record.Fits entry
  content : f.content = WalEntry.record.encodeAll entries
  position : f.position = f.content.length

theorem IsWhole.represents (hf : f.IsWhole entries) : Represents f.content entries :=
  ⟨hf.fits, .notSet, [], by decide, List.nil_prefix, by decide, by rw [hf.content, List.append_nil]⟩

theorem isWhole_newWALWriter : newWALWriter.IsWhole [] := ⟨fun entry h => (by cases h), rfl, rfl⟩

theorem IsWhole.writeEntry (hf : f.IsWhole entries) {entry : WalEntry} {u : Unit}
    (h : f.writeEntry entry = (.ok u, f')) : f'.IsWhole (entries ++ [entry]) := by
  obtain ⟨hfit, rfl⟩ := writeEntry_ok h
  refine ⟨fun e he => ?_, ?_, ?_⟩
  · rcases List.mem_append.1 he with he | he
    · exact hf.fits e he
    · rw [List.mem_singleton.1 he]
      exact hfit
  · show overwrite f.position _ f.content = _
    rw [hf.position, overwrite_append_length, hf.content, Codec.encodeAll_append, Codec.encodeAll_cons,
      Codec.encodeAll_nil, List.append_nil]
  · show f.position + _ = (overwrite f.position _ f.content).length
    rw [hf.position, overwrite_append_length, List.length_append]

/-- **`ReadWAL` on the bytes is `readWal` on the disk of records.** -/
theorem readWal_eq {d : Disk} {file : FileId} (hwal : d.wal file = some entries) {content : Bytes}
    (hc : Represents content entries) : readWal file d = .ok ((readWAL content).1, entries.length) := by
  obtain ⟨cut, torn, hcut, hp, hne, rfl⟩ := hc.torn
  rw [readWAL_torn hc.fits hcut hp hne, readWal, hwal]

/-- **`WriteEntry` on the bytes is `writeEntry` on the disk of records.** -/
theorem writeEntry_eq {d : Disk} {file : FileId} (hwal : d.wal file = some entries) (hf : f.IsWhole entries)
    (entry : WalEntry) : ∃ isOk entries', (Iu9Db.writeEntry isOk file entry d).1 = (f.writeEntry entry).1 ∧
      (Iu9Db.writeEntry isOk file entry d).2.wal file = some entries' ∧
        (f.writeEntry entry).2.IsWhole entries' := by
  cases hwrite : f.writeEntry entry with
  | mk res f' =>
    cases res with
    | ok u =>
      refine ⟨true, entries ++ [entry], rfl, ?_, hf.writeEntry hwrite⟩
      rw [Iu9Db.writeEntry, if_pos rfl, Disk.setWal_wal, Function.update_self, hwal, Option.map_some]
    | error e =>
      unfold WalFile.writeEntry at hwrite
      dsimp only at hwrite
      split at hwrite <;> cases hwrite
      exact ⟨false, entries, rfl, hwal, hf⟩

end

end WalFile

/-! ### A file that is cut -/

/-- What `ReadWAL` is to make of the record of an operation. -/
def Write.toOperation : Write → Operation
  | insert kwPair => ⟨.kInsert, kwPair.key, some kwPair.value, kwPair.version⟩
  | remove key version => ⟨.kRemove, key, none, version⟩

theorem filterMap_record (ops : List Write) :
    (ops.map Write.record).filterMap WalEntry.toOperation = ops.map Write.toOperation := by
  induction ops with
  | nil => rfl
  | cons w ops ih => cases w <;> simp [Write.record, WalEntry.toOperation, Write.toOperation, ih]

namespace WalFile

/-- How many bytes the records of operations take. -/
def size (ops : List Write) : Nat := (WalEntry.record.encodeAll (ops.map Write.record)).length

/-- The longest beginning of `ops` whose records lie within the first `n` bytes has `k` operations. -/
structure IsLongest (ops : List Write) (n k : Nat) : Prop where
  le : k ≤ ops.length
  within : size (ops.take k) ≤ n
  longest : ∀ j ≤ ops.length, size (ops.take j) ≤ n → j ≤ k

/-- **Reading a WAL undoes writing it, wherever the file is cut.** -/
theorem readWAL_take {ops : List Write} {f : WalFile}
    (h : writeAll (ops.map Write.record) newWALWriter = some f) :
    (∀ n ≤ f.content.length, ∃ k, IsLongest ops n k ∧
      readWAL (f.content.take n) = ((ops.take k).map Write.toOperation, size (ops.take k))) ∧
    readWAL f.content = (ops.map Write.toOperation, f.content.length) := by
  obtain ⟨hfits, hcontent⟩ := writeAll_eq_some le_rfl h
  have hcontent : f.content = WalEntry.record.encodeAll (ops.map Write.record) := by
    rw [hcontent]
    exact overwrite_append_length [] _
  constructor
  · intro n _
    obtain ⟨k, hk, hwithin, hlongest, torn, hcut, hread⟩ := Codec.readAll_take hfits n
    simp only [← List.map_take, List.length_map] at hk hwithin hlongest hcut hread
    refine ⟨k, ⟨hk, hwithin, hlongest⟩, ?_⟩
    rw [readWAL_eq, hcontent, hread, hcut, List.length_append, Nat.add_sub_cancel, filterMap_record, size]
  · rw [hcontent, readWAL_encodeAll hfits, filterMap_record]

/-- An insertion and a removal, written to a fresh file. -/
theorem readWAL_take_two : ∃ f, writeAll ([Write.insert ⟨[97], [1], 1⟩, .remove [97] 2].map Write.record)
      newWALWriter = some f ∧
    (∀ n ≤ f.content.length, ∃ k, IsLongest [.insert ⟨[97], [1], 1⟩, .remove [97] 2] n k ∧
      readWAL (f.content.take n) =
        (([Write.insert ⟨[97], [1], 1⟩, .remove [97] 2].take k).map Write.toOperation,
        size ([.insert ⟨[97], [1], 1⟩, .remove [97] 2].take k))) ∧
    readWAL f.content = ([⟨.kInsert, [97], some [1], 1⟩, ⟨.kRemove, [97], none, 2⟩], f.content.length) := by
  obtain ⟨f, hf⟩ : ∃ f, writeAll ([Write.insert ⟨[97], [1], 1⟩, .remove [97] 2].map Write.record)
    newWALWriter = some f := Option.isSome_iff_exists.1 (by decide +kernel)
  exact ⟨f, hf, readWAL_take hf⟩

end WalFile

end Iu9Db
