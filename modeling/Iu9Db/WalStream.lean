import Iu9Db.WalFile
import Iu9Db.Lib.OutStream

/-!
# When an append to the WAL is acknowledged

`WALWriterImpl::WriteEntry` asks the stream whether the record was serialised, and flushes the stream
then. The writer of `WalFile` is the one whose stream never fails (`writeEntry_flushed`). Otherwise a
record that stayed in the buffer is acknowledged although its flush fails
(`acknowledged_of_flushesSucceed`).
-/

namespace Iu9Db

open Wire Delimited

namespace WalStream

/-- The stream of a `WALWriterImpl` that `NewWALWriter` or `LoadWALWriter` returns. -/
def ofFile (f : WalFile) : OutStream UInt8 := ⟨f.content, f.position, [], false⟩

/-- A call of `WriteEntry`, and what the operating system does in it: where the buffer overflows while
the record is serialised, and how much room there is at the flush. -/
structure Call where
  entry : WalEntry
  overflows : List Overflow
  room : Nat

namespace Call

def record (call : Call) : Bytes := WalEntry.record.encode call.entry

/-- No overflow of the call fails. -/
def Serialised (call : Call) : Prop := OutStream.Fit call.overflows [] call.record

/-- What is in the buffer at the flush. -/
def buffered (call : Call) : Bytes := OutStream.unpushed call.overflows [] call.record

end Call

/-- `SerializeDelimitedToOstream`. A message of two gigabytes does not get to the stream. -/
def serializeDelimited (call : Call) (f : OutStream UInt8) : Bool × OutStream UInt8 :=
  if call.entry.encode.length < 2 ^ 31 then
    let f := f.write call.overflows call.record
    (!f.failed, f)
  else (false, f)

/-- `WALWriterImpl::WriteEntry`. -/
def writeEntry (call : Call) (f : OutStream UInt8) : Result Unit × OutStream UInt8 :=
  let (isOk, f) := serializeDelimited call f
  let f := f.push call.room
  if isOk then (.ok (), f) else (.error (makeError (text "failed to write log entry")), f)

/-- The stream after some calls. -/
def after : List Call → OutStream UInt8 → OutStream UInt8
  | [], f => f
  | call :: calls, f => after calls (writeEntry call f).2

/-- Each call that returns `Ok` has its record in the file by then, at the place where the stream
stood before. -/
def Acknowledged (calls : List Call) (f : OutStream UInt8) : Prop :=
  ∀ before call rest, calls = before ++ call :: rest → (writeEntry call (after before f)).1 = .ok () →
    call.record <+: (writeEntry call (after before f)).2.file.drop (after before f).tell

/-- Before the first overflow that fails, every flush finds room for what the overflows have left of
the record. -/
def FlushesSucceed : List Call → Prop
  | [] => True
  | call :: calls =>
    if WalEntry.record.Fits call.entry then
      call.Serialised → call.buffered.length ≤ call.room ∧ FlushesSucceed calls
    else FlushesSucceed calls

instance (call : Call) : Decidable call.Serialised := inferInstanceAs (Decidable (OutStream.Fit _ _ _))

instance decidableFlushesSucceed : ∀ calls, Decidable (FlushesSucceed calls)
  | [] => isTrue trivial
  | call :: calls =>
    have := decidableFlushesSucceed calls
    inferInstanceAs (Decidable (if WalEntry.record.Fits call.entry then
      call.Serialised → call.buffered.length ≤ call.room ∧ FlushesSucceed calls else FlushesSucceed calls))

/-- The stream between two calls, as long as it has not failed. -/
structure Ready (f : OutStream UInt8) : Prop where
  position : f.position ≤ f.file.length
  buffer : f.buffer = []
  failed : f.failed = false

section
variable {call : Call} {calls : List Call} {f : OutStream UInt8}

theorem ready_ofFile {f : WalFile} (h : f.position ≤ f.content.length) : Ready (ofFile f) := ⟨h, rfl, rfl⟩

theorem Ready.push (hf : Ready f) (room : Nat) : f.push room = f := by
  obtain ⟨file, position, buffer, failed⟩ := f
  obtain ⟨-, rfl, rfl⟩ := hf
  rw [OutStream.push_of_le rfl (Nat.zero_le _)]
  simp [OutStream.target, OutStream.tell, overwrite]

theorem writeEntry_large (hf : Ready f) (h : ¬ WalEntry.record.Fits call.entry) :
    (writeEntry call f).1 ≠ .ok () ∧ (writeEntry call f).2 = f := by
  have hs : serializeDelimited call f = (false, f) := if_neg h
  rw [writeEntry, hs]
  exact ⟨fun he => (by cases he), hf.push _⟩

theorem writeEntry_failed (call : Call) (hf : f.failed = true) :
    (writeEntry call f).1 ≠ .ok () ∧ (writeEntry call f).2 = f := by
  have hs : serializeDelimited call f = (false, f) := by
    unfold serializeDelimited
    dsimp only
    rw [OutStream.write_of_failed hf, hf]
    split <;> rfl
  rw [writeEntry, hs]
  exact ⟨fun he => (by cases he), OutStream.push_of_failed hf⟩

theorem writeEntry_overflow (hf : Ready f) (hfits : WalEntry.record.Fits call.entry) (h : ¬ call.Serialised) :
    (writeEntry call f).1 ≠ .ok () ∧ (writeEntry call f).2.failed = true := by
  have hfit := (OutStream.write_fit call.overflows call.record hf.failed).1
  rw [hf.buffer] at hfit
  have hfailed : (f.write call.overflows call.record).failed = true := by
    rw [← Bool.not_eq_false, hfit]
    exact h
  have hs : serializeDelimited call f = (false, f.write call.overflows call.record) := by
    unfold serializeDelimited
    dsimp only
    rw [if_pos (show call.entry.encode.length < 2 ^ 31 from hfits), hfailed]
    rfl
  rw [writeEntry, hs]
  refine ⟨fun he => (by cases he), ?_⟩
  show ((f.write call.overflows call.record).push call.room).failed = true
  rw [OutStream.push_of_failed hfailed, hfailed]

/-- A record that is serialised is acknowledged, whatever becomes of the flush. -/
theorem writeEntry_serialised (hf : Ready f) (hfits : WalEntry.record.Fits call.entry) (h : call.Serialised) :
    (writeEntry call f).1 = .ok () ∧ (writeEntry call f).2 =
    (f.write call.overflows call.record).push call.room ∧
      (f.write call.overflows call.record).failed = false ∧
      (f.write call.overflows call.record).buffer = call.buffered := by
  obtain ⟨hfit, hbuffer⟩ := OutStream.write_fit call.overflows call.record hf.failed
  rw [hf.buffer] at hfit hbuffer
  have hfailed := hfit.2 h
  have hs : serializeDelimited call f = (true, f.write call.overflows call.record) := by
    unfold serializeDelimited
    dsimp only
    rw [if_pos (show call.entry.encode.length < 2 ^ 31 from hfits), hfailed]
    rfl
  rw [writeEntry, hs]
  exact ⟨rfl, rfl, hfailed, hbuffer h⟩

/-- **Where nothing fails, `WriteEntry` is `writeEntry` of `WalFile`.** -/
theorem writeEntry_flushed {f : WalFile} (hpos : f.position ≤ f.content.length)
    (hfits : WalEntry.record.Fits call.entry) (h : call.Serialised)
    (hroom : call.buffered.length ≤ call.room) :
    writeEntry call (ofFile f) = ((f.writeEntry call.entry).1, ofFile (f.writeEntry call.entry).2) := by
  obtain ⟨hok, hstream, hfailed, hbuffer⟩ := writeEntry_serialised (ready_ofFile hpos) hfits h
  obtain ⟨-, htarget, htell⟩ := OutStream.target_write hpos hfailed
  have hfile : f.writeEntry call.entry =
      (.ok (), ⟨overwrite f.position call.record f.content, f.position + call.record.length⟩) := if_pos hfits
  refine Prod.ext ?_ ?_
  · rw [hok, hfile]
  · rw [hstream, OutStream.push_of_le hfailed (by rw [hbuffer]; exact hroom), htarget, htell, hfile]
    rfl

theorem ofFile_of_ready (hf : Ready f) : f = ofFile ⟨f.file, f.position⟩ := by
  obtain ⟨file, position, buffer, failed⟩ := f
  obtain ⟨-, rfl, rfl⟩ := hf
  rfl

theorem flushed (hf : Ready f) (hfits : WalEntry.record.Fits call.entry) (h : call.Serialised)
    (hroom : call.buffered.length ≤ call.room) : Ready (writeEntry call f).2 ∧
      call.record <+: (writeEntry call f).2.file.drop f.tell ∧ (f.AtEnd → (writeEntry call f).2.AtEnd) := by
  have htell : f.tell = f.position := by rw [OutStream.tell, hf.buffer, List.length_nil, Nat.add_zero]
  have hcall := writeEntry_flushed (f := ⟨f.file, f.position⟩) hf.position hfits h hroom
  have hfile : WalFile.writeEntry call.entry ⟨f.file, f.position⟩ =
      (.ok (), ⟨overwrite f.position call.record f.file, f.position + call.record.length⟩) := if_pos hfits
  rw [← ofFile_of_ready hf, hfile] at hcall
  rw [hcall, htell]
  refine ⟨ready_ofFile (OutStream.length_overwrite hf.position), prefix_drop_overwrite hf.position,
    fun hend => ?_⟩
  show f.position + call.record.length = (overwrite f.position call.record f.file).length
  rw [hend, overwrite_append_length, List.length_append]

/-- At the end of a file, the record of a call whose flush fails is not whole. -/
theorem not_prefix_of_full (hf : Ready f) (hend : f.AtEnd) (hfits : WalEntry.record.Fits call.entry)
    (h : call.Serialised) (hroom : call.room < call.buffered.length) :
    ¬ call.record <+: (writeEntry call f).2.file.drop f.tell := by
  obtain ⟨-, hstream, hfailed, hbuffer⟩ := writeEntry_serialised hf hfits h
  rw [← hbuffer] at hroom
  obtain ⟨-, -, htell⟩ := OutStream.target_write hf.position hfailed
  have hpos : 0 < call.record.length := Codec.length_encode_pos hfits
  have hpush : ((f.write call.overflows call.record).push call.room).AtEnd := (hend.write _ _).push
  intro hpre
  -- The file ends where the push stopped, and that is before the end of the record.
  have hlen := hpre.length_le
  rw [List.length_drop, hstream, ← hpush, OutStream.push_of_lt hfailed hroom] at hlen
  simp only [OutStream.tell] at htell hlen
  omega

theorem acknowledged_cons : Acknowledged (call :: calls) f ↔
    ((writeEntry call f).1 = .ok () → call.record <+: (writeEntry call f).2.file.drop f.tell) ∧
      Acknowledged calls (writeEntry call f).2 := by
  constructor
  · intro hack
    refine ⟨fun hok => hack [] call calls rfl hok, fun before call' rest hcalls hok => ?_⟩
    exact hack (call :: before) call' rest (by rw [hcalls]; rfl) hok
  · rintro ⟨hhead, htail⟩ before call' rest hcalls hok
    cases before with
    | nil =>
      obtain ⟨rfl, rfl⟩ := List.cons.inj hcalls
      exact hhead hok
    | cons first before =>
      obtain ⟨rfl, rfl⟩ := List.cons.inj hcalls
      exact htail before call' rest rfl hok

theorem acknowledged_of_failed (hf : f.failed = true) : Acknowledged calls f := by
  induction calls with
  | nil => exact fun before call rest hcalls _ => absurd hcalls (by simp)
  | cons call calls ih =>
    obtain ⟨hnot, hstream⟩ := writeEntry_failed call hf
    rw [acknowledged_cons, hstream]
    exact ⟨fun hok => absurd hok hnot, ih⟩

theorem acknowledged_of_ready (hf : Ready f) (hflush : FlushesSucceed calls) : Acknowledged calls f := by
  induction calls generalizing f with
  | nil => exact fun before call rest hcalls _ => absurd hcalls (by simp)
  | cons call calls ih =>
    rw [FlushesSucceed] at hflush
    rw [acknowledged_cons]
    by_cases hfits : WalEntry.record.Fits call.entry
    · rw [if_pos hfits] at hflush
      by_cases hs : call.Serialised
      · obtain ⟨hroom, hrest⟩ := hflush hs
        obtain ⟨hready, hpre, -⟩ := flushed hf hfits hs hroom
        exact ⟨fun _ => hpre, ih hready hrest⟩
      · obtain ⟨hnot, hfailed⟩ := writeEntry_overflow hf hfits hs
        exact ⟨fun hok => absurd hok hnot, acknowledged_of_failed hfailed⟩
    · rw [if_neg hfits] at hflush
      obtain ⟨hnot, hstream⟩ := writeEntry_large hf hfits
      rw [hstream]
      exact ⟨fun hok => absurd hok hnot, ih hf hflush⟩

theorem flushesSucceed_of_atEnd (hf : Ready f) (hend : f.AtEnd) (hack : Acknowledged calls f) :
    FlushesSucceed calls := by
  induction calls generalizing f with
  | nil => trivial
  | cons call calls ih =>
    obtain ⟨hhead, htail⟩ := acknowledged_cons.1 hack
    rw [FlushesSucceed]
    split
    · rename_i hfits
      intro hs
      have hroom : call.buffered.length ≤ call.room := by
        by_contra hlt
        exact not_prefix_of_full hf hend hfits hs (not_le.1 hlt) (hhead (writeEntry_serialised hf hfits hs).1)
      obtain ⟨hready, -, hend'⟩ := flushed hf hfits hs hroom
      exact ⟨hroom, ih hready (hend' hend) htail⟩
    · rename_i hfits
      rw [(writeEntry_large hf hfits).2] at htail
      exact ih hf hend htail

end

/-- **Every acknowledged record is in the file if no flush fails**, and, when the stream began at the
end of its file, only then. -/
theorem acknowledged_of_flushesSucceed (f : WalFile) (hpos : f.position ≤ f.content.length)
    (calls : List Call) : (FlushesSucceed calls → Acknowledged calls (ofFile f)) ∧
      (f.position = f.content.length → Acknowledged calls (ofFile f) → FlushesSucceed calls) :=
  ⟨acknowledged_of_ready (ready_ofFile hpos), fun hend hack => flushesSucceed_of_atEnd
    (ready_ofFile hpos) hend hack⟩

/-- A record that stays in the buffer, one that overflows it, one whose overflow finds no room, and
one more. -/
def fullOverflow : List Call :=
  [⟨.insert [97] [1] 1, [], 100⟩, ⟨.insert [98] (List.replicate 20 2) 2, [⟨10, 100⟩], 100⟩,
    ⟨.insert [99] (List.replicate 20 3) 3, [⟨10, 4⟩], 100⟩, ⟨.remove [97] 4, [], 100⟩]

theorem acknowledged_fullOverflow : (List.range 4).map (fun i => (fullOverflow[i]?).map fun call =>
      (writeEntry call (after (fullOverflow.take i) (ofFile .newWALWriter))).1.isOk) =
    [some true, some true, some false, some false] ∧ Acknowledged fullOverflow (ofFile .newWALWriter) :=
  ⟨by decide +kernel, (acknowledged_of_flushesSucceed .newWALWriter le_rfl fullOverflow).1
    (by decide +kernel)⟩

/-- Two small records: there is room for the first one at its flush, and for half of the second one. -/
def fullDisk : List Call := [⟨.insert [97] [1] 1, [], 100⟩, ⟨.insert [98] [2] 2, [], 5⟩]

/-- The second call returns `Ok` as well. -/
theorem not_acknowledged : ¬ ∀ (f : WalFile) (calls : List Call), f.position ≤ f.content.length →
    Acknowledged calls (ofFile f) := by
  intro hall
  have hpre := hall .newWALWriter fullDisk le_rfl (fullDisk.take 1) ⟨.insert [98] [2] 2, [], 5⟩ [] rfl
    (by decide)
  exact absurd hpre (by decide)

end WalStream

end Iu9Db
