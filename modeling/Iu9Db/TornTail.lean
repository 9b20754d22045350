import Iu9Db.WalFile

/-!
# Appending behind a torn record

A writer that is opened where `ReadWAL` stopped writes over the torn record and does not cut the file. What
is left of the torn record behind the new ones is read as records, and its bytes may come from a client.
-/

namespace Iu9Db

open Wire Delimited

/-- A WAL file after a crash: whole records, and one that is cut off. -/
structure TornFile where
  entries : List WalEntry
  cut : WalEntry
  torn : Bytes
  fits : ∀ entry ∈ entries, WalEntry.record.Fits entry
  cut_fits : WalEntry.record.Fits cut
  isPrefix : torn <+: WalEntry.record.encode cut
  ne : torn ≠ WalEntry.record.encode cut

namespace TornFile

def content (t : TornFile) : Bytes := WalEntry.record.encodeAll t.entries ++ t.torn

/-- The writer that `LoadSwappableWalWriter` opens. -/
def writer (t : TornFile) : WalFile := .loadWALWriter t.content (WalFile.readWAL t.content).2

/-- A later `ReadWAL` returns the complete operations and the new ones. -/
def AppendsSafely (t : TornFile) (new : List Write) (f : WalFile) : Prop :=
  (WalFile.readWAL f.content).1 =
    t.entries.filterMap WalEntry.toOperation ++ (new.map Write.record).filterMap WalEntry.toOperation

/-- What the records of the new operations leave of the torn one. -/
def leftover (t : TornFile) (new : List Write) : Bytes :=
  t.torn.drop (WalEntry.record.encodeAll (new.map Write.record)).length

/-- None of the complete records that the bytes begin with is an operation. -/
def NoOperation (bytes : Bytes) : Prop :=
  ∀ entries rest, WalEntry.record.Reads bytes entries rest → ∀ entry ∈ entries, entry.toOperation = none

theorem noOperation_iff (bytes : Bytes) :
    NoOperation bytes ↔ (WalEntry.record.readAll bytes).1.filterMap WalEntry.toOperation = [] := by
  rw [List.filterMap_eq_nil_iff]
  constructor
  · exact fun h => h _ _ (Codec.reads_readAll bytes)
  · intro h entries rest hreads
    rw [hreads.readAll_eq] at h
    exact h

/-- Of a torn record that is no longer than the new ones nothing is left. -/
theorem noOperation_leftover {t : TornFile} {new : List Write}
    (h : t.torn.length ≤ (WalEntry.record.encodeAll (new.map Write.record)).length) :
    NoOperation (t.leftover new) := by
  rw [leftover, List.drop_of_length_le h]
  exact (noOperation_iff []).2 rfl

theorem writer_eq (t : TornFile) : t.writer = ⟨t.content, (WalEntry.record.encodeAll t.entries).length⟩ := by
  rw [writer, content, WalFile.readWAL_torn t.fits t.cut_fits t.isPrefix t.ne]
  rfl

theorem readWAL_writeAll {t : TornFile} {new : List Write} {f : WalFile}
    (h : WalFile.writeAll (new.map Write.record) t.writer = some f) :
    (WalFile.readWAL f.content).1 =
      t.entries.filterMap WalEntry.toOperation ++ (new.map Write.record).filterMap WalEntry.toOperation ++
        (WalEntry.record.readAll (t.leftover new)).1.filterMap WalEntry.toOperation := by
  rw [writer_eq] at h
  have hpos : (WalEntry.record.encodeAll t.entries).length ≤ t.content.length := by
    rw [content, List.length_append]
    exact Nat.le_add_right _ _
  obtain ⟨hnew, hcontent⟩ := WalFile.writeAll_eq_some hpos h
  rw [WalFile.readWAL_eq, hcontent, content, Codec.readAll_overwrite t.fits hnew, leftover]
  simp only [List.filterMap_append]

end TornFile

/-- **Appending behind a torn record is safe exactly when what is left of it begins with no operation.** -/
theorem appendsSafely_iff (t : TornFile) (new : List Write) {f : WalFile}
    (h : WalFile.writeAll (new.map Write.record) t.writer = some f) :
    t.AppendsSafely new f ↔ TornFile.NoOperation (t.leftover new) := by
  rw [TornFile.AppendsSafely, TornFile.readWAL_writeAll h, TornFile.noOperation_iff,
    List.append_right_eq_self]

/-- A client's insert whose value is the record of a removal, cut off behind the value. -/
def tornInsert : TornFile where
  entries := [.insert [97] [1] 1]
  cut := .insert [98] [7, 10, 5, 10, 1, 97, 16, 3] 2
  torn := [17, 18, 15, 10, 1, 98, 18, 8, 7, 10, 5, 10, 1, 97, 16, 3]
  fits := by decide
  cut_fits := by decide
  isPrefix := by decide
  ne := by decide

/-- An operation that is longer than the torn record. -/
def longerInsert : Write := .insert ⟨[99], [1, 2, 3, 4, 5, 6, 7, 8], 3⟩

theorem appendsSafely_longerInsert :
    ∃ f, WalFile.writeAll ([longerInsert].map Write.record) tornInsert.writer = some f ∧
    (tornInsert.AppendsSafely [longerInsert] f ↔
      TornFile.NoOperation (tornInsert.leftover [longerInsert])) := by
  obtain ⟨f, hf⟩ : ∃ f, WalFile.writeAll ([longerInsert].map Write.record) tornInsert.writer = some f :=
    Option.isSome_iff_exists.1 (by decide +kernel)
  exact ⟨f, hf, appendsSafely_iff _ _ hf⟩

/-- A removal that is as long as the head of the torn record: the client's value is read as one more
removal. -/
theorem not_appendsSafely : ¬ ∀ (t : TornFile) (new : List Write) (f : WalFile),
    WalFile.writeAll (new.map Write.record) t.writer = some f → t.AppendsSafely new f := by
  intro hall
  obtain ⟨f, hf⟩ : ∃ f, WalFile.writeAll ([Write.remove [99] 4].map Write.record) tornInsert.writer =
    some f :=
    Option.isSome_iff_exists.1 (by decide +kernel)
  have hcontent : (WalFile.writeAll ([Write.remove [99] 4].map Write.record) tornInsert.writer).map
      (fun f => (WalFile.readWAL f.content).1) = some [⟨.kInsert, [97], some [1], 1⟩,
        ⟨.kRemove, [99], none, 4⟩, ⟨.kRemove, [97], none, 3⟩] := by decide +kernel
  rw [hf, Option.map_some, Option.some.injEq] at hcontent
  have hsafe := hall tornInsert [.remove [99] 4] f hf
  rw [TornFile.AppendsSafely, hcontent] at hsafe
  exact absurd hsafe (by decide)

end Iu9Db
