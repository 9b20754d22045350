import Iu9Db.TableBytes
import Iu9Db.PersistentStorageCollection

/-!
# `Get` on a damaged table

Nothing that `LoadPersistentStorage` checks bounds the offsets or the records, and `Get` takes the
`value()` of what `ReadEntryAt` returns. `returns_iff`: it returns exactly when the search comes to no
record that cannot be read; over a collection, up to the first table that has the key.
-/

namespace Iu9Db

open Keyed Delimited Wire

namespace DamagedTables

open TableBytes (record)

/-- What the operating system does with a descriptor: the greatest offset that `lseek` takes, and
where the `read`s of a `FileInputStream` leave it that begins at a position of a file. -/
structure Descriptor where
  limit : Nat
  ends : Bytes → Nat → Nat

/-- `lseek`; an offset that it refuses leaves the position. -/
def Descriptor.lseek (io : Descriptor) (offset : UInt64) (position : Nat) : Nat :=
  if offset.toNat ≤ io.limit then offset.toNat else position

/-- `ReadEntryAt`, with the position of the descriptor. -/
def readEntryAt (io : Descriptor) (s : TableBytes.PersistentStorage) (offset : UInt64) :
    StateM Nat (Result StorageEntry) :=
  fun position =>
    let position := io.lseek offset position
    let entry := match record.read (s.content.drop position) with
      | none => .error (makeError (text "failed to read entry from persistent storage"))
      | some (e, _) => .ok e
    (entry, io.ends s.content position)

/-- `ReadEntryAt(offset).value()`; `none` where it throws. -/
def value (io : Descriptor) (s : TableBytes.PersistentStorage) (offset : UInt64) :
    StateT Nat Option StorageEntry :=
  fun position =>
    match readEntryAt io s offset position with
    | (.error _, _) => none
    | (.ok entry, position) => some (entry, position)

/-- `PersistentStorage::Get`. -/
def get (io : Descriptor) (s : TableBytes.PersistentStorage) (key : Str) :
    StateT Nat Option (Result StorageEntry) :=
  s.getThrough (value io s) key

/-- A table with its descriptor. -/
structure OpenStorage where
  storage : TableBytes.PersistentStorage
  position : Nat

/-- The loop of `PersistentStorageCollection::Get`. -/
def getFrom (io : Descriptor) (key : Str) : List OpenStorage → Option (Result StorageEntry)
  | [] => some (.error (makeError (text "key " ++ key ++ text " not found in persistent storage")))
  | t :: rest =>
    match get io t.storage key t.position with
    | none => none
    | some (.ok res, _) => some (.ok res)
    | some (.error _, _) => getFrom io key rest

/-- `PersistentStorageCollection::Get`. -/
def getOfCollection (io : Descriptor) (key : Str) (collection : List OpenStorage) :
    Option (Result StorageEntry) :=
  getFrom io key collection.reverse

/-! ### Where the descriptor does not matter -/

/-- A computation, and one with a position that runs alike wherever it starts. -/
def anywhere : Likeness Option (StateT Nat Option) where
  rel p x y := (∀ position, (y position).map Prod.fst = x) ∧ ∀ a, x = some a → p a
  mono h hpq := ⟨h.1, fun a ha => hpq a (h.2 a ha)⟩
  pure h := ⟨fun _ => rfl, fun _ ha => Option.some.inj ha ▸ h⟩
  bind := by
    intro α β p q x y f g hx hf
    refine ⟨fun position => ?_, fun b hb => ?_⟩
    · have hrun := hx.1 position
      show ((y position).bind fun r => g r.1 r.2).map Prod.fst = x.bind f
      cases hy : y position with
      | none =>
        rw [hy] at hrun
        obtain rfl : none = x := hrun
        rfl
      | some r =>
        rw [hy] at hrun
        obtain rfl : some r.1 = x := hrun
        exact (hf r.1 (hx.2 _ rfl)).1 r.2
    · obtain ⟨a, ha, hb⟩ := Option.bind_eq_some_iff.1 hb
      exact (hf a (hx.2 a ha)).2 b hb

/-- `Get` is the one that the other models know if `lseek` takes the offsets. -/
theorem map_get {io : Descriptor} {s : TableBytes.PersistentStorage}
    (h : ∀ offset ∈ s.index, offset.toNat ≤ io.limit) (key : Str) (position : Nat) :
    (get io s key position).map Prod.fst = s.get key := by
  refine (s.getThrough_likeness anywhere (fun offset hoffset => ?_) key).1 position
  refine ⟨fun position => ?_, fun _ _ => trivial⟩
  unfold value readEntryAt TableBytes.PersistentStorage.readEntryAt Descriptor.lseek
  rw [if_pos (h offset hoffset)]
  dsimp only
  cases record.read (s.content.drop offset.toNat) <;> rfl

/-! ### Where the search comes to -/

/-- The comparison of `lower_bound`. -/
def isLess (io : Descriptor) (s : TableBytes.PersistentStorage) (key : Str) (i : Nat) :
    StateT Nat Option Bool := do
  let entry ← value io s (s.index.getD i 0)
  pure (decide (entry.key < key))

/-- The search for the key comes to `len` offsets from `first` on. -/
abbrev Searches (io : Descriptor) (s : TableBytes.PersistentStorage) (key : Str)
    (start first len position : Nat) : Prop :=
  Arrives (isLess io s key) s.index.length start first len position

/-- Wherever the search comes, the record in the middle can be read. -/
def Readable (io : Descriptor) (s : TableBytes.PersistentStorage) (key : Str) (start : Nat) : Prop :=
  ∀ first len position, Searches io s key start first len position → first + len / 2 < s.index.length →
    (readEntryAt io s (s.index.getD (first + len / 2) 0) position).1.isOk

/-- The search ends at a record of the key. -/
def Holds (io : Descriptor) (s : TableBytes.PersistentStorage) (key : Str) (start : Nat) : Prop :=
  ∃ first position e, Searches io s key start first 0 position ∧ first < s.index.length ∧
    (readEntryAt io s (s.index.getD first 0) position).1 = .ok e ∧ e.key = key

/-- The tables, the newest one first, can be read up to one that has the key. -/
def ReadableUntil (io : Descriptor) (key : Str) : List OpenStorage → Prop
  | [] => True
  | t :: rest => Readable io t.storage key t.position ∧
      (Holds io t.storage key t.position ∨ ReadableUntil io key rest)

section
variable {io : Descriptor} {s : TableBytes.PersistentStorage} {key : Str} {start first len position i : Nat}
  {offset : UInt64}

theorem value_eq_none_iff : value io s offset position = none ↔
    ¬ (readEntryAt io s offset position).1.isOk := by
  unfold value
  cases hread : readEntryAt io s offset position with
  | mk r p => cases r <;> simp [Except.isOk, Except.toBool]

theorem value_eq_some {e : StorageEntry} {p : Nat} (h : value io s offset position = some (e, p)) :
    (readEntryAt io s offset position).1 = .ok e := by
  unfold value at h
  split at h
  · cases h
  · rename_i hread
    cases h
    rw [hread]

theorem isLess_eq_none_iff :
    isLess io s key i position = none ↔ value io s (s.index.getD i 0) position = none := by
  show (value io s (s.index.getD i 0) position).bind _ = none ↔ _
  cases value io s (s.index.getD i 0) position with
  | none => exact ⟨fun _ => rfl, fun _ => rfl⟩
  | some r => exact ⟨fun h => (by cases h), fun h => (by cases h)⟩

theorem get_of_searches (h : Searches io s key start first 0 position) :
    get io s key start = if first < s.index.length then
      (value io s (s.index.getD first 0) position).map fun r =>
        (if r.1.key = key then .ok r.1 else TableBytes.PersistentStorage.getThrough.notFound s key, r.2)
    else some (TableBytes.PersistentStorage.getThrough.notFound s key, position) := by
  have hsearch : lowerBoundM (isLess io s key) s.index.length start = some (first, position) :=
    h.lowerBoundM_eq_some
  show (lowerBoundM (isLess io s key) s.index.length start).bind _ = _
  rw [hsearch, Option.bind_some]
  dsimp only
  by_cases hfirst : first < s.index.length
  · rw [if_pos hfirst, List.getD_eq_getElem?_getD, List.getElem?_eq_getElem hfirst, Option.getD_some]
    show (value io s s.index[first] position).bind _ = _
    cases value io s s.index[first] position <;> rfl
  · rw [if_neg hfirst, List.getElem?_eq_none (Nat.not_lt.1 hfirst)]
    rfl

theorem Readable.ends (h : Readable io s key start) :
    ∃ first position, Searches io s key start first 0 position := by
  refine Arrives.ends .start fun first len position hsearch hlen hnone => ?_
  have hle := hsearch.le
  have hread := h first len position hsearch (by omega)
  exact value_eq_none_iff.1 (isLess_eq_none_iff.1 hnone) hread

/-- **A table answers, or reports that it has no answer, exactly when the search comes to no damaged
record.** -/
theorem get_ne_none_iff : get io s key start ≠ none ↔ Readable io s key start := by
  constructor
  · intro hget first len position hsearch hlt
    by_contra hread
    have hvalue := value_eq_none_iff.2 hread
    by_cases hlen : len = 0
    · subst hlen
      rw [get_of_searches hsearch, if_pos (show first < s.index.length from hlt)] at hget
      rw [Nat.zero_div, Nat.add_zero] at hvalue
      exact hget (by rw [hvalue]; rfl)
    · have hnone := hsearch.lowerBoundM_eq_none hlen (isLess_eq_none_iff.2 hvalue)
      refine hget ?_
      show (lowerBoundM (isLess io s key) s.index.length start).bind _ = none
      rw [hnone]
      rfl
  · intro h hget
    obtain ⟨first, position, hsearch⟩ := h.ends
    rw [get_of_searches hsearch] at hget
    split at hget
    · rename_i hlt
      exact value_eq_none_iff.1 (Option.map_eq_none_iff.1 hget) (h first 0 position hsearch hlt)
    · cases hget

/-- What a table finds stands where the search ends. -/
theorem holds_iff (h : Readable io s key start) :
    Holds io s key start ↔ ∃ e position, get io s key start = some (.ok e, position) := by
  constructor
  · rintro ⟨first, position, e, hsearch, hlt, hread, hkey⟩
    have hsome : value io s (s.index.getD first 0) position ≠ none := by
      rw [Ne, value_eq_none_iff, hread]
      exact not_not_intro rfl
    obtain ⟨⟨e', p⟩, hvalue⟩ := Option.ne_none_iff_exists'.1 hsome
    obtain rfl : e' = e := Except.ok.inj ((value_eq_some hvalue).symm.trans hread)
    refine ⟨e', p, ?_⟩
    rw [get_of_searches hsearch, if_pos hlt, hvalue, Option.map_some, if_pos hkey]
  · rintro ⟨e, p, hget⟩
    obtain ⟨first, position, hsearch⟩ := h.ends
    rw [get_of_searches hsearch] at hget
    split at hget
    · rename_i hlt
      obtain ⟨⟨e', p'⟩, hvalue, hres⟩ := Option.map_eq_some_iff.1 hget
      have hread := value_eq_some hvalue
      by_cases hkey : e'.key = key
      · exact ⟨first, position, e', hsearch, hlt, hread, hkey⟩
      · rw [if_neg hkey] at hres
        cases hres
    · cases hget

theorem getFrom_ne_none_iff (tables : List OpenStorage) :
    getFrom io key tables ≠ none ↔ ReadableUntil io key tables := by
  induction tables with
  | nil => exact ⟨fun _ => trivial, fun _ hnone => (by cases hnone)⟩
  | cons t rest ih =>
    rw [getFrom, ReadableUntil, ← ih]
    cases hget : get io t.storage key t.position with
    | none =>
      refine ⟨fun hne => absurd rfl hne, fun h => absurd hget (get_ne_none_iff.2 h.1)⟩
    | some r =>
      have hread : Readable io t.storage key t.position :=
        get_ne_none_iff.1 (by rw [hget]; exact Option.some_ne_none r)
      obtain ⟨res, position⟩ := r
      cases res with
      | ok e =>
        exact ⟨fun _ => ⟨hread, .inl ((holds_iff hread).2 ⟨e, position, hget⟩)⟩,
          fun _ => Option.some_ne_none _⟩
      | error e =>
        refine ⟨fun hrest => ⟨hread, .inr hrest⟩, fun h => ?_⟩
        rcases h.2 with hholds | hrest
        · obtain ⟨e', p, hok⟩ := (holds_iff hread).1 hholds
          rw [hget] at hok
          cases hok
        · exact hrest

/-- **`Get` of a table and of a collection return exactly when no damaged record is in their way.** -/
theorem returns_iff (io : Descriptor) (key : Str) :
    (∀ s start, get io s key start ≠ none ↔ Readable io s key start) ∧
    ∀ collection, getOfCollection io key collection ≠ none ↔ ReadableUntil io key collection.reverse :=
  ⟨fun _ _ => get_ne_none_iff, fun collection => getFrom_ne_none_iff collection.reverse⟩

/-- When every offset that the index has leads to a record nothing is in the way of any search. -/
theorem readable_of_forall (h : ∀ offset ∈ s.index, ∀ position, (readEntryAt io s offset position).1.isOk)
    (key : Str) (start : Nat) : Readable io s key start := by
  intro first len position _ hlt
  refine h _ ?_ position
  rw [List.getD_eq_getElem?_getD, List.getElem?_eq_getElem hlt]
  exact List.getElem_mem hlt

end

/-! ### An offset past the end -/

/-- A file of a few bytes, which are read at once. -/
def smallFiles : Descriptor := ⟨2 ^ 63 - 1, fun content _ => content.length⟩

/-- The index has an offset past the end of the data. -/
def pastEnd : TableBytes.Directory :=
  ⟨1, Function.update (fun _ => none) 0 (some []),
    Function.update (fun _ => none) 0 (some (TableBytes.encodeIndex 1 [100]))⟩

theorem not_reported : ¬ ∀ (io : Descriptor) (dir : TableBytes.Directory) (path : FileId)
    (s : TableBytes.PersistentStorage), TableBytes.loadPersistentStorage path dir = .ok s →
      ∀ key position, get io s key position ≠ none ∧ getOfCollection io key [⟨s, position⟩] ≠ none := by
  intro hall
  have hload : TableBytes.loadPersistentStorage 0 pastEnd = .ok ⟨0, [], [100]⟩ := by decide +kernel
  exact (hall smallFiles pastEnd 0 ⟨0, [], [100]⟩ hload [1] 0).1 (by decide +kernel)

end DamagedTables

end Iu9Db
