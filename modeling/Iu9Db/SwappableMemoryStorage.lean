import Iu9Db.MapStorage

/-!
# `SwappableMemoryStorage`, two tables whose roles rotate

The three atomic pointers are addresses: `readerFirst` and `readerSecond` of tables, `writer` of a
`ReferenceCounter` that points to a table without owning it. Each method is the composition of its
atomic steps, so that the concurrent model can take them one at a time. Freed tables and counters
stay in the two heaps; nothing reachable through the three pointers is ever freed by these methods
(`Wf`).
-/

namespace Iu9Db

abbrev TableId := Nat
abbrev CounterId := Nat

/-- `ReferenceCounter<MapStorage>`. -/
structure ReferenceCounter where
  ptr : TableId
  referenceCount : Nat
deriving DecidableEq, Repr

structure SwappableMemoryStorage where
  tables : TableId → MapStorage
  counters : CounterId → ReferenceCounter
  nextTable : TableId
  nextCounter : CounterId
  readerFirst : TableId
  readerSecond : TableId
  writer : CounterId

namespace SwappableMemoryStorage

/-- Construction around a table: it becomes the second reader and the one written to. -/
def ofMap (other : MapStorage) : SwappableMemoryStorage where
  tables := Function.update (fun _ => .empty) 1 other
  counters := fun _ => ⟨1, 0⟩
  nextTable := 2
  nextCounter := 1
  readerFirst := 0
  readerSecond := 1
  writer := 0

def new : SwappableMemoryStorage := ofMap .empty

/-! ### Atomic steps -/

/-- `ReferenceCounter::Add`. -/
def add (s : SwappableMemoryStorage) (ptr : CounterId) : SwappableMemoryStorage :=
  { s with
    counters := Function.update s.counters ptr
      { s.counters ptr with referenceCount := (s.counters ptr).referenceCount + 1 } }

/-- `ReferenceCounter::Remove`. -/
def release (s : SwappableMemoryStorage) (ptr : CounterId) : SwappableMemoryStorage :=
  { s with
    counters := Function.update s.counters ptr
      { s.counters ptr with referenceCount := (s.counters ptr).referenceCount - 1 } }

def setTable (s : SwappableMemoryStorage) (t : TableId) (table : MapStorage) : SwappableMemoryStorage :=
  { s with tables := Function.update s.tables t table }

/-- A call on the table a counter points to. -/
def write (s : SwappableMemoryStorage) (ptr : CounterId) (f : MapStorage → MapStorage) :
    SwappableMemoryStorage :=
  s.setTable (s.counters ptr).ptr (f (s.tables (s.counters ptr).ptr))

/-- Step 1 of `Collect`: writers go to the first reader's table from now on. The counter that was
exchanged out is the value `writer` had. -/
def exchangeWriter (s : SwappableMemoryStorage) : SwappableMemoryStorage :=
  { s with
    counters := Function.update s.counters s.nextCounter ⟨s.readerFirst, 0⟩
    nextCounter := s.nextCounter + 1
    writer := s.nextCounter }

/-- Step 3 of `Collect`: the rows of the second reader's table. -/
def copySecond (s : SwappableMemoryStorage) : List StorageEntry := (s.tables s.readerSecond).toEntries

/-- Step 4, in `RemoveCollected`: the first reader's table replaces the second's. -/
def exchangeSecond (s : SwappableMemoryStorage) : SwappableMemoryStorage :=
  { s with readerSecond := s.readerFirst }

/-- Step 5: a fresh table for the first reader. -/
def storeFirst (s : SwappableMemoryStorage) : SwappableMemoryStorage :=
  { s with
    tables := Function.update s.tables s.nextTable .empty
    nextTable := s.nextTable + 1
    readerFirst := s.nextTable }

/-! ### Methods -/

def get (s : SwappableMemoryStorage) (key : Str) : Result Value :=
  match (s.tables s.readerFirst).get key with
  | .ok res => .ok res
  | .error _ => (s.tables s.readerSecond).get key

def remove (s : SwappableMemoryStorage) (key : Str) (version : UInt64) : SwappableMemoryStorage :=
  let ptr := s.writer
  (((s.add ptr).write ptr fun table => table.remove key version)).release ptr

def insert (s : SwappableMemoryStorage) (data : KwPair) : SwappableMemoryStorage :=
  let ptr := s.writer
  (((s.add ptr).write ptr fun table => table.insert data)).release ptr

def size (s : SwappableMemoryStorage) : Nat := (s.tables (s.counters s.writer).ptr).size

/-- `Collect`, when no writer is under way and Step 2 therefore has nothing to wait for. -/
def collect (s : SwappableMemoryStorage) : SwappableMemoryStorage × List StorageEntry :=
  (s.exchangeWriter, s.exchangeWriter.copySecond)

def removeCollected (s : SwappableMemoryStorage) : SwappableMemoryStorage := s.exchangeSecond.storeFirst

/-! ### What the methods do to the tables in use -/

/-- The table writers go to. -/
def writerTable (s : SwappableMemoryStorage) : TableId := (s.counters s.writer).ptr

/-- What a reader finds: the first table, then the second. -/
def find (s : SwappableMemoryStorage) (key : Str) : Option Value :=
  ((s.tables s.readerFirst).find key).or ((s.tables s.readerSecond).find key)

/-- The pointers as the class keeps them between two calls: two different allocated tables, and
writers on the first one or, while that one is empty, on the second. -/
structure Wf (s : SwappableMemoryStorage) : Prop where
  ne : s.readerFirst ≠ s.readerSecond
  first_lt : s.readerFirst < s.nextTable
  second_lt : s.readerSecond < s.nextTable
  writer_lt : s.writer < s.nextCounter
  writer : s.writerTable = s.readerFirst ∨
    s.writerTable = s.readerSecond ∧ s.tables s.readerFirst = .empty

section
variable {s : SwappableMemoryStorage} {k key : Str}

/-- `insert` and `remove` are one write to the writer's table; the count they raise is back down. -/
theorem add_write_release (s : SwappableMemoryStorage) (f : MapStorage → MapStorage) :
    ((s.add s.writer).write s.writer f).release s.writer =
      s.setTable s.writerTable (f (s.tables s.writerTable)) := by
  simp [add, write, release, writerTable, setTable]

theorem ptr_update {counters : CounterId → ReferenceCounter} {c : CounterId} {n : Nat} (c' : CounterId) :
    (Function.update counters c { counters c with referenceCount := n } c').ptr = (counters c').ptr := by
  by_cases h : c' = c
  · subst h; simp
  · rw [Function.update_of_ne h]

theorem insert_eq (data : KwPair) :
    s.insert data = s.setTable s.writerTable ((s.tables s.writerTable).insert data) :=
  add_write_release s fun table => table.insert data

theorem remove_eq (version : UInt64) :
    s.remove key version = s.setTable s.writerTable ((s.tables s.writerTable).remove key version) :=
  add_write_release s fun table => table.remove key version

theorem get_eq (s : SwappableMemoryStorage) (key : Str) :
    (s.find key = none → ∃ e, s.get key = .error e ∧ e.wraps .kNotFound = true) ∧
      ∀ v, s.find key = some v → s.get key = .ok v := by
  unfold get find MapStorage.get
  cases (s.tables s.readerFirst).find key with
  | none => cases (s.tables s.readerSecond).find key <;> simp
  | some v => simp

theorem wf_ofMap (other : MapStorage) : (ofMap other).Wf where
  ne := Nat.zero_ne_one
  first_lt := Nat.zero_lt_two
  second_lt := Nat.one_lt_two
  writer_lt := Nat.zero_lt_one
  writer := .inr ⟨rfl, rfl⟩

@[simp] theorem find_ofMap (other : MapStorage) (k : Str) : (ofMap other).find k = other.find k := by
  simp [find, ofMap]

@[simp] theorem find_new (k : Str) : new.find k = none := by simp [new]

namespace Wf

/-- Writing a row of `key` to the writer's table changes what a reader finds under `key`, and
nothing else. -/
theorem find_write (h : s.Wf) {f : MapStorage → MapStorage} {v : Value}
    (hf : ∀ table k, (f table).find k = if k = key then some v else table.find k) (k : Str) :
    (s.setTable s.writerTable (f (s.tables s.writerTable))).find k =
      if k = key then some v else s.find k := by
  rcases h.writer with hw | ⟨hw, hempty⟩
  · simp only [find, setTable, hw, Function.update_self, Function.update_of_ne h.ne.symm, hf]
    split <;> simp
  · simp only [find, setTable, hw, Function.update_self, Function.update_of_ne h.ne, hempty,
      MapStorage.find_empty, Option.none_or, hf]

theorem find_insert (h : s.Wf) (data : KwPair) (k : Str) :
    (s.insert data).find k = if k = data.key then some ⟨some data.value, data.version⟩ else s.find k := by
  rw [insert_eq]
  exact h.find_write (f := fun table => table.insert data) (fun _ _ => MapStorage.find_insert data) k

theorem find_remove (h : s.Wf) (version : UInt64) (k : Str) :
    (s.remove key version).find k = if k = key then some ⟨none, version⟩ else s.find k := by
  rw [remove_eq]
  exact h.find_write (f := fun table => table.remove key version)
    (fun _ _ => MapStorage.find_remove version) k

theorem setTable_writerTable (h : s.Wf) (table : MapStorage) : (s.setTable s.writerTable table).Wf where
  ne := h.ne
  first_lt := h.first_lt
  second_lt := h.second_lt
  writer_lt := h.writer_lt
  writer := h.writer.imp_right fun ⟨hw, hempty⟩ => ⟨hw, by
    show Function.update s.tables s.writerTable _ s.readerFirst = _
    rw [Function.update_of_ne (hw ▸ h.ne), hempty]⟩

theorem insert (h : s.Wf) (data : KwPair) : (s.insert data).Wf := by
  rw [insert_eq]; exact h.setTable_writerTable _

theorem remove (h : s.Wf) (version : UInt64) : (s.remove key version).Wf := by
  rw [remove_eq]; exact h.setTable_writerTable _

/-- After Step 1 writers are on the first reader's table. -/
theorem writerTable_exchangeWriter (s : SwappableMemoryStorage) :
    s.exchangeWriter.writerTable = s.readerFirst := by
  simp [writerTable, exchangeWriter]

theorem exchangeWriter (h : s.Wf) : s.exchangeWriter.Wf where
  ne := h.ne
  first_lt := h.first_lt
  second_lt := h.second_lt
  writer_lt := Nat.lt_succ_self _
  writer := .inl (writerTable_exchangeWriter s)

theorem find_exchangeWriter (s : SwappableMemoryStorage) (k : Str) : s.exchangeWriter.find k = s.find k :=
  rfl

@[simp] theorem copySecond_exchangeWriter (s : SwappableMemoryStorage) :
    s.exchangeWriter.copySecond = s.copySecond := rfl

@[simp] theorem readerFirst_removeCollected (s : SwappableMemoryStorage) :
    s.removeCollected.readerFirst = s.nextTable := rfl

@[simp] theorem readerSecond_removeCollected (s : SwappableMemoryStorage) :
    s.removeCollected.readerSecond = s.readerFirst := rfl

@[simp] theorem writerTable_removeCollected (s : SwappableMemoryStorage) :
    s.removeCollected.writerTable = s.writerTable := rfl

theorem tables_removeCollected (s : SwappableMemoryStorage) (t : TableId) :
    s.removeCollected.tables t = if t = s.nextTable then .empty else s.tables t := by
  by_cases h : t = s.nextTable <;> simp [removeCollected, storeFirst, exchangeSecond, h]

/-- `removeCollected` after a `collect`: writers are on the second reader again. -/
theorem removeCollected (h : s.Wf) (hw : s.writerTable = s.readerFirst) : s.removeCollected.Wf where
  ne := ne_of_gt h.first_lt
  first_lt := Nat.lt_succ_self _
  second_lt := Nat.lt_succ_of_lt h.first_lt
  writer_lt := h.writer_lt
  writer := .inr ⟨hw, by rw [tables_removeCollected, readerFirst_removeCollected]; simp⟩

/-- What is left after `removeCollected`: the first reader's rows. -/
theorem find_removeCollected (h : s.Wf) (k : Str) :
    s.removeCollected.find k = (s.tables s.readerFirst).find k := by
  rw [find, readerFirst_removeCollected, readerSecond_removeCollected, tables_removeCollected,
    tables_removeCollected, if_pos rfl, if_neg (ne_of_lt h.first_lt)]
  simp

end Wf

end

end SwappableMemoryStorage

end Iu9Db
