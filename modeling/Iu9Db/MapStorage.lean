import Iu9Db.Basic
import Iu9Db.Lib.Keyed

/-!
# `MapStorage`, one table in memory

The `concurrent_flat_map` is a finite map with distinct keys; its order is the order `toEntries`
lists the rows in, and nothing may depend on it.
-/

namespace Iu9Db

structure MapStorage where
  map : AList fun _ : Str => Value

namespace MapStorage

def empty : MapStorage := ⟨∅⟩

/-- The row of `key`, as the `visit` in `get` finds it. -/
def find (s : MapStorage) (key : Str) : Option Value := s.map.lookup key

def get (s : MapStorage) (key : Str) : Result Value :=
  match s.find key with
  | none => .error (makeError (text "key " ++ key ++ text " not found in storage") .kNotFound)
  | some value => .ok value

def remove (s : MapStorage) (key : Str) (version : UInt64) : MapStorage :=
  ⟨s.map.insert key ⟨none, version⟩⟩

def insert (s : MapStorage) (data : KwPair) : MapStorage :=
  ⟨s.map.insert data.key ⟨some data.value, data.version⟩⟩

def size (s : MapStorage) : Nat := s.map.entries.length

/-- `ToEntries` of the underlying map. -/
def toEntries (s : MapStorage) : List StorageEntry := s.map.entries.map fun row => row.2.toEntry row.1

variable {s : MapStorage} {k key : Str}

@[simp] theorem find_empty (k : Str) : empty.find k = none := AList.lookup_empty k

theorem find_remove (version : UInt64) :
    (s.remove key version).find k = if k = key then some ⟨none, version⟩ else s.find k := by
  by_cases h : k = key
  · subst h; simp [find, remove, AList.lookup_insert]
  · simp [find, remove, AList.lookup_insert_ne h, h]

theorem find_insert (data : KwPair) :
    (s.insert data).find k = if k = data.key then some ⟨some data.value, data.version⟩ else s.find k := by
  by_cases h : k = data.key
  · subst h; simp [find, insert, AList.lookup_insert]
  · simp [find, insert, AList.lookup_insert_ne h, h]

theorem toEntries_keys (s : MapStorage) : s.toEntries.map StorageEntry.key = s.map.keys := by
  simp [toEntries, AList.keys, List.keys, Function.comp_def]

theorem toEntries_keys_nodup (s : MapStorage) : (s.toEntries.map StorageEntry.key).Nodup := by
  rw [toEntries_keys]; exact s.map.keys_nodup

theorem mem_toEntries {e : StorageEntry} : e ∈ s.toEntries ↔ s.find e.key = some e.toValue := by
  simp only [toEntries, List.mem_map, find]
  rw [← Option.mem_def, AList.mem_lookup_iff]
  constructor
  · rintro ⟨⟨k, v⟩, h, rfl⟩
    exact h
  · exact fun h => ⟨_, h, by simp⟩

/-- The rows `toEntries` lists are the rows of the map. -/
theorem find_toEntries (s : MapStorage) (k : Str) :
    Keyed.find StorageEntry.key k s.toEntries = (s.find k).map fun v => v.toEntry k := by
  ext e
  rw [Keyed.find_eq_some_iff s.toEntries_keys_nodup, mem_toEntries, Option.map_eq_some_iff]
  constructor
  · rintro ⟨h, rfl⟩
    exact ⟨_, h, by simp⟩
  · rintro ⟨v, h, rfl⟩
    exact ⟨h, rfl⟩

theorem toEntries_eq_nil : s.toEntries = [] ↔ s.size = 0 := by
  simp [toEntries, size]

theorem eq_empty_of_size (h : s.size = 0) : s = empty := by
  obtain ⟨m⟩ := s
  have : m = ∅ := AList.ext (List.length_eq_zero_iff.1 h)
  rw [this]; rfl

end MapStorage

end Iu9Db
