import Iu9Db.Lib.Delimited

/-!
# Buffered output

What is written to a stream stays in its buffer until the operating system is asked to write the
buffer to the file. It may find room for a part only, and then the stream has failed: it takes nothing
more. Its buffer keeps all that it had, and is written once more, from its beginning, when the stream
is closed. Whether a write fails is a matter of the room that its overflows find (`write_fit`). One
that did not fail is in the file or in the buffer (`target_write`). What a stream leaves in a file, at
the end of which it writes, is `AtEnd.close_push` and `AtEnd.close_write`.
-/

open Delimited

/-- A stream on a file, written at `position`. -/
structure OutStream (β : Type) where
  file : List β
  position : Nat
  buffer : List β
  failed : Bool
deriving DecidableEq, Repr

/-- In the middle of a write, the buffer does not hold the next `taken` of it: these are written
behind the buffer. There is room for `room`. -/
structure Overflow where
  taken : Nat
  room : Nat

namespace OutStream

variable {β : Type}

/-- The operating system writes the buffer and `block` behind it to the file, or what there is room for. -/
def drain (room : Nat) (block : List β) (s : OutStream β) : OutStream β :=
  let all := s.buffer ++ block
  if all.length ≤ room then ⟨overwrite s.position all s.file, s.position + all.length, [], s.failed⟩
  else ⟨overwrite s.position (all.take room) s.file, s.position + room, s.buffer, true⟩

/-- A flush. A stream that has failed is not flushed. -/
def push (room : Nat) (s : OutStream β) : OutStream β := if s.failed then s else s.drain room []

/-- The file when the stream is closed. What is in the buffer is written, whether or not the stream
has failed. -/
def close (room : Nat) (s : OutStream β) : List β := (s.drain room []).file

/-- A write; what is left after the last overflow stays in the buffer. -/
def write : List Overflow → List β → OutStream β → OutStream β
  | [], bytes, s => if s.failed then s else { s with buffer := s.buffer ++ bytes }
  | o :: overflows, bytes, s =>
    if s.failed then s else write overflows (bytes.drop o.taken) (s.drain o.room (bytes.take o.taken))

/-- Every overflow of a write finds room for what is in the buffer by then. -/
def Fit : List Overflow → List β → List β → Prop
  | [], _, _ => True
  | o :: overflows, buffer, bytes =>
    (buffer ++ bytes.take o.taken).length ≤ o.room ∧ Fit overflows [] (bytes.drop o.taken)

instance decidableFit : ∀ overflows (buffer bytes : List β), Decidable (Fit overflows buffer bytes)
  | [], _, _ => isTrue trivial
  | _ :: overflows, _, _ => @instDecidableAnd _ _ _ (decidableFit overflows _ _)

/-- What a write leaves in the buffer when every overflow finds room. -/
def unpushed : List Overflow → List β → List β → List β
  | [], buffer, bytes => buffer ++ bytes
  | o :: overflows, _, bytes => unpushed overflows [] (bytes.drop o.taken)

/-- How much of `n` elements gets to the file, when they are written behind an empty buffer and the
stream is closed. -/
def kept : List Overflow → Nat → Nat → Nat
  | [], room, n => min room n
  | o :: overflows, room, n =>
    if min o.taken n ≤ o.room then min o.taken n + kept overflows room (n - o.taken) else o.room

/-- Where the next element goes. -/
def tell (s : OutStream β) : Nat := s.position + s.buffer.length

/-- The file as it is when the buffer is pushed. -/
def target (s : OutStream β) : List β := overwrite s.position s.buffer s.file

/-- The stream writes behind all that the file has. -/
def AtEnd (s : OutStream β) : Prop := s.position = s.file.length

variable {s : OutStream β} {room : Nat} {overflows : List Overflow} {bytes block : List β}

theorem drain_of_le (hle : (s.buffer ++ block).length ≤ room) : s.drain room block =
    ⟨overwrite s.position (s.buffer ++ block) s.file, s.position + (s.buffer ++ block).length, [],
      s.failed⟩ :=
  if_pos hle

theorem drain_of_lt (hlt : room < (s.buffer ++ block).length) : s.drain room block =
    ⟨overwrite s.position ((s.buffer ++ block).take room) s.file, s.position + room, s.buffer, true⟩ :=
  if_neg (not_le.2 hlt)

theorem failed_drain (h : s.failed = false) :
    (s.drain room block).failed = false ↔ (s.buffer ++ block).length ≤ room := by
  rcases le_or_gt (s.buffer ++ block).length room with hle | hlt
  · rw [drain_of_le hle]
    exact iff_of_true h hle
  · rw [drain_of_lt hlt]
    exact iff_of_false (by simp) (not_le.2 hlt)

theorem push_of_failed (h : s.failed = true) : s.push room = s := if_pos h

theorem push_of_not_failed (h : s.failed = false) : s.push room = s.drain room [] :=
  if_neg (by rw [h]; exact Bool.false_ne_true)

theorem push_of_le (h : s.failed = false) (hle : s.buffer.length ≤ room) :
    s.push room = ⟨s.target, s.tell, [], false⟩ := by
  rw [push_of_not_failed h, drain_of_le (by rwa [List.append_nil]), List.append_nil, h]
  rfl

theorem push_of_lt (h : s.failed = false) (hlt : room < s.buffer.length) :
    s.push room = ⟨overwrite s.position (s.buffer.take room) s.file, s.position + room, s.buffer, true⟩ := by
  rw [push_of_not_failed h, drain_of_lt (by rwa [List.append_nil]), List.append_nil]

theorem write_of_failed (h : s.failed = true) : s.write overflows bytes = s := by
  cases overflows with
  | nil => exact if_pos h
  | cons o overflows => exact if_pos h

theorem write_nil (h : s.failed = false) : s.write [] bytes = { s with buffer := s.buffer ++ bytes } :=
  if_neg (by rw [h]; exact Bool.false_ne_true)

theorem write_cons {o : Overflow} (h : s.failed = false) : s.write (o :: overflows) bytes =
    (s.drain o.room (bytes.take o.taken)).write overflows (bytes.drop o.taken) :=
  if_neg (by rw [h]; exact Bool.false_ne_true)

theorem length_overwrite {pos : Nat} {new old : List β} (hpos : pos ≤ old.length) :
    pos + new.length ≤ (overwrite pos new old).length := by
  simp only [overwrite, List.length_append, List.length_take]
  omega

/-- **A write that does not fail**: it began on a stream that had not failed, and it is where it belongs. -/
theorem target_write (hpos : s.position ≤ s.file.length) (h : (s.write overflows bytes).failed = false) :
    s.failed = false ∧ (s.write overflows bytes).target = overwrite s.position (s.buffer ++ bytes) s.file ∧
      (s.write overflows bytes).tell = s.tell + bytes.length := by
  cases hs : s.failed with
  | true =>
    rw [write_of_failed hs, hs] at h
    cases h
  | false =>
    refine ⟨rfl, ?_⟩
    induction overflows generalizing s bytes with
    | nil =>
      rw [write_nil hs]
      exact ⟨rfl, by simp [tell, Nat.add_assoc]⟩
    | cons o overflows ih =>
      rw [write_cons hs] at h ⊢
      have hok : (s.drain o.room (bytes.take o.taken)).failed = false := by
        cases hf : (s.drain o.room (bytes.take o.taken)).failed with
        | false => rfl
        | true =>
          rw [write_of_failed hf, hf] at h
          cases h
      have hle := (failed_drain hs).1 hok
      rw [drain_of_le hle] at h hok ⊢
      obtain ⟨htarget, htell⟩ := ih (length_overwrite hpos) h hok
      refine ⟨htarget.trans ?_, htell.trans ?_⟩
      · show overwrite (s.position + (s.buffer ++ bytes.take o.taken).length) ([] ++ _) _ = _
        rw [List.nil_append, overwrite_overwrite hpos, List.append_assoc, List.take_append_drop]
      · show s.position + (s.buffer ++ bytes.take o.taken).length + 0 + _ = s.position + s.buffer.length +
          bytes.length
        simp only [List.length_append, List.length_take, List.length_drop]
        omega

/-- Whether a write fails, and what it leaves in the buffer, is known beforehand. -/
theorem write_fit (overflows : List Overflow) (bytes : List β) (hs : s.failed = false) :
    ((s.write overflows bytes).failed = false ↔ Fit overflows s.buffer bytes) ∧
      (Fit overflows s.buffer bytes →
        (s.write overflows bytes).buffer = unpushed overflows s.buffer bytes) := by
  induction overflows generalizing s bytes with
  | nil =>
    rw [write_nil hs]
    exact ⟨iff_of_true hs trivial, fun _ => rfl⟩
  | cons o overflows ih =>
    rw [write_cons hs]
    rcases le_or_gt (s.buffer ++ bytes.take o.taken).length o.room with hle | hlt
    · rw [drain_of_le hle]
      obtain ⟨hfailed, hbuffer⟩ := ih (s := ⟨overwrite s.position (s.buffer ++ bytes.take o.taken) s.file,
        s.position + (s.buffer ++ bytes.take o.taken).length, [], s.failed⟩) (bytes.drop o.taken) hs
      refine ⟨?_, fun hfit => hbuffer hfit.2⟩
      rw [hfailed]
      exact (and_iff_right hle).symm
    · rw [drain_of_lt hlt, write_of_failed rfl]
      exact ⟨iff_of_false (by simp) fun hfit => absurd hfit.1 (not_le.2 hlt),
        fun hfit => absurd hfit.1 (not_le.2 hlt)⟩

theorem unpushed_suffix : ∀ (overflows : List Overflow) (buffer bytes : List β),
    unpushed overflows buffer bytes <:+ buffer ++ bytes
  | [], _, _ => List.suffix_rfl
  | o :: overflows, buffer, bytes =>
    (unpushed_suffix overflows [] (bytes.drop o.taken)).trans
      ((List.drop_suffix o.taken bytes).trans (List.suffix_append buffer bytes))

/-! ### Streams at the end of a file -/

theorem AtEnd.target (h : s.AtEnd) : s.target = s.file ++ s.buffer := by
  rw [OutStream.target, h, overwrite_append_length]

theorem AtEnd.drain (h : s.AtEnd) : (s.drain room block).AtEnd := by
  rcases le_or_gt (s.buffer ++ block).length room with hle | hlt
  · rw [drain_of_le hle]
    show s.position + (s.buffer ++ block).length = (overwrite s.position (s.buffer ++ block) s.file).length
    rw [h, overwrite_append_length, ← List.length_append]
  · rw [drain_of_lt hlt]
    show s.position + room = (overwrite s.position ((s.buffer ++ block).take room) s.file).length
    rw [h, overwrite_append_length, List.length_append, List.length_take, Nat.min_eq_left hlt.le]

theorem AtEnd.push (h : s.AtEnd) : (s.push room).AtEnd := by
  unfold OutStream.push
  split
  · exact h
  · exact h.drain

theorem AtEnd.write (overflows : List Overflow) (bytes : List β) (h : s.AtEnd) :
    (s.write overflows bytes).AtEnd := by
  induction overflows generalizing s bytes with
  | nil =>
    unfold OutStream.write
    split <;> exact h
  | cons o overflows ih =>
    unfold OutStream.write
    split
    · exact h
    · exact ih _ h.drain

theorem AtEnd.close (h : s.AtEnd) (room : Nat) : s.close room = s.file ++ s.buffer.take room := by
  unfold OutStream.close
  rcases le_or_gt (s.buffer ++ []).length room with hle | hlt
  · rw [List.append_nil] at hle
    rw [drain_of_le (by rwa [List.append_nil]), List.take_of_length_le hle, List.append_nil, h,
      overwrite_append_length]
  · rw [drain_of_lt hlt, List.append_nil, h, overwrite_append_length]

/-- **What a flush and the close leave in the file**: where the flush does not find room for all, the
close begins with the buffer again. -/
theorem AtEnd.close_push (h : s.AtEnd) (hs : s.failed = false) (flushRoom room : Nat) :
    (s.push flushRoom).close room = s.file ++ s.buffer.take flushRoom ++
      if s.buffer.length ≤ flushRoom then [] else s.buffer.take room := by
  have hend : (s.push flushRoom).AtEnd := h.push
  rw [hend.close]
  split
  · rename_i hle
    rw [push_of_le hs hle, List.take_of_length_le hle, List.take_nil, List.append_nil, List.append_nil,
      h.target]
  · rename_i hlt
    rw [push_of_lt hs (not_le.1 hlt), h, overwrite_append_length]

/-- **What a write and the close leave in the file**, when the buffer is empty before: a part from the
beginning. -/
theorem AtEnd.close_write (h : s.AtEnd) (hs : s.failed = false) (hbuffer : s.buffer = []) :
    (s.write overflows bytes).close room = s.file ++ bytes.take (kept overflows room bytes.length) := by
  induction overflows generalizing s bytes with
  | nil =>
    have hend : ({ s with buffer := s.buffer ++ bytes } : OutStream β).AtEnd := h
    rw [write_nil hs, hend.close, kept, ← List.take_eq_take_min]
    show s.file ++ (s.buffer ++ bytes).take room = _
    rw [hbuffer, List.nil_append]
  | cons o overflows ih =>
    rw [write_cons hs, kept, ← List.length_take]
    have hall : s.buffer ++ bytes.take o.taken = bytes.take o.taken := by rw [hbuffer, List.nil_append]
    split
    · rename_i hle
      have hend : (s.drain o.room (bytes.take o.taken)).AtEnd := h.drain
      rw [drain_of_le (by rwa [hall]), hall] at hend ⊢
      rw [ih hend hs rfl, List.length_take, List.length_drop, h, overwrite_append_length, List.append_assoc]
      congr 1
      rcases le_total o.taken bytes.length with htaken | htaken
      · rw [Nat.min_eq_left htaken, List.take_add]
      · rw [List.drop_eq_nil_of_le htaken, List.take_nil, List.append_nil, Nat.min_eq_right htaken,
          List.take_of_length_le htaken, List.take_of_length_le (Nat.le_add_right _ _)]
    · rename_i hlt
      have hend : (s.drain o.room (bytes.take o.taken)).AtEnd := h.drain
      rw [drain_of_lt (by rw [hall]; exact not_le.1 hlt), hall] at hend ⊢
      rw [write_of_failed rfl, hend.close, hbuffer, List.take_nil, List.append_nil, h,
        overwrite_append_length, List.take_take, Nat.min_eq_left (by rw [List.length_take] at hlt; omega)]

end OutStream
