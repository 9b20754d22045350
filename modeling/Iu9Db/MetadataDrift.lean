import Iu9Db.PersistentStorageCollection

/-!
# The metadata file over runs of `Add` and `SwapWith`

`Add` and `SwapWith` extend the list of `persistent.metadata` by one name, and `SwapWith` leaves one
table in the collection. The two stay the same list as long as `SwapWith` finds an empty collection.
-/

namespace Iu9Db

namespace MetadataDrift

/-- A call with the table that `NewPersistentStorage` has made of `data`. -/
inductive Op
  | add (data : List StorageEntry)
  | swapWith (data : List StorageEntry)
deriving DecidableEq

def Op.data : Op → List StorageEntry
  | add data | swapWith data => data

structure State where
  collection : PersistentStorageCollection
  disk : Disk

/-- A collection that is opened over an empty data directory. -/
def start : State := ⟨⟨readCollection .empty⟩, .empty⟩

/-- One call; every file operation succeeds. -/
def step (s : State) (op : Op) : State :=
  match newPersistentStorage .succeeds op.data s.disk with
  | (.error _, d) => { s with disk := d }
  | (.ok storage, d) =>
    let (_, c, d) := match op with
      | .add _ => s.collection.add .ok storage d
      | .swapWith _ => s.collection.swapWith .ok storage d
    ⟨c, d⟩

def run (ops : List Op) : State := ops.foldl step start

/-- `entries` are the names of the tables, and each of the files exists. -/
structure Names (s : State) (entries : List FileId) : Prop where
  names : entries = s.collection.collection.map PersistentStorage.path
  exist : ∀ path ∈ entries, s.disk.data path ≠ none
  size : entries.length = s.collection.size

/-- `persistent.metadata` describes the collection. -/
def Describes (s : State) : Prop := ∃ entries, readMetadata s.disk = .ok entries ∧ Names s entries

/-! ### One call -/

section
variable {s : State}

theorem getD_of_readMetadata {d : Disk} {entries : List FileId} (h : readMetadata d = .ok entries) :
    (d.metadata .main).getD [] = entries := by
  unfold readMetadata at h
  split at h <;> cases h
  rename_i hm
  rw [hm]
  rfl

theorem readMetadata_step (s : State) (op : Op) :
    readMetadata (step s op).disk = .ok ((s.disk.metadata .main).getD [] ++ [s.disk.nextFile]) := by
  cases op with
  | add data =>
    cases h : s.disk.metadata .main <;>
      simp [step, newPersistentStorage, StorageIO.succeeds, TableIO.succeeds, PersistentStorageCollection.add,
        appendMetadata, readMetadata, h]
  | swapWith data =>
    cases h : s.disk.metadata .main <;>
      simp [step, newPersistentStorage, StorageIO.succeeds, TableIO.succeeds,
        PersistentStorageCollection.swapWith, appendMetadata, readMetadata,
        PersistentStorageCollection.metadata_removeFiles, h]

/-- The table that a call is given. -/
def newTable (s : State) (op : Op) : PersistentStorage := ⟨s.disk.nextFile, op.data.insertionSort (· ≤ ·)⟩

theorem collection_swapWith (s : State) (data : List StorageEntry) :
    (step s (.swapWith data)).collection.collection = [newTable s (.swapWith data)] := rfl

theorem names_start : Names start [] := ⟨rfl, fun _ h => absurd h List.not_mem_nil, rfl⟩

theorem names_add {entries : List FileId} (h : Names s entries) (data : List StorageEntry) :
    Names (step s (.add data)) (entries ++ [s.disk.nextFile]) := by
  have hc : (step s (.add data)).collection.collection = s.collection.collection ++
    [newTable s (.add data)] := rfl
  have hd : (step s (.add data)).disk.data =
      Function.update s.disk.data s.disk.nextFile (some (data.insertionSort (· ≤ ·))) := rfl
  refine ⟨?_, fun path hpath => ?_, ?_⟩
  · rw [hc, List.map_append, h.names]
    rfl
  · rw [hd]
    by_cases hp : path = s.disk.nextFile
    · rw [hp, Function.update_self]
      exact Option.some_ne_none _
    · rw [Function.update_of_ne hp]
      rcases List.mem_append.1 hpath with hold | hnew
      · exact h.exist path hold
      · exact absurd (List.mem_singleton.1 hnew) hp
  · rw [PersistentStorageCollection.size, hc, List.length_append, List.length_append, h.size]
    rfl

theorem Names.congr {s' : State} {entries : List FileId} (h : Names s entries)
    (hc : s'.collection = s.collection) (hd : s'.disk.data = s.disk.data) : Names s' entries :=
  ⟨hc ▸ h.names, hd ▸ h.exist, hc ▸ h.size⟩

theorem names_swapWith {entries : List FileId} (hs : s.collection.collection = []) (h : Names s entries)
    (data : List StorageEntry) : Names (step s (.swapWith data)) (entries ++ [s.disk.nextFile]) := by
  refine (names_add h data).congr ?_ ?_ <;>
  · obtain ⟨⟨collection⟩, d⟩ := s
    obtain rfl : collection = [] := hs
    rfl

theorem collection_ne_nil (s : State) (op : Op) : (step s op).collection.collection ≠ [] := by
  cases op with
  | add data => exact List.append_ne_nil_of_right_ne_nil _ (List.cons_ne_nil _ _)
  | swapWith data => exact List.cons_ne_nil _ _

/-- After a `SwapWith` the file still names the tables that the collection had. -/
theorem not_describes_swapWith (h : Describes s) (hs : s.collection.collection ≠ [])
    (data : List StorageEntry) : ¬ Describes (step s (.swapWith data)) := by
  rintro ⟨entries', hr', hn'⟩
  obtain ⟨entries, hr, hn⟩ := h
  have hlen : entries.length ≠ 0 := by
    rw [hn.size]
    exact mt List.length_eq_zero_iff.1 hs
  rw [readMetadata_step, getD_of_readMetadata hr] at hr'
  cases hr'
  have hsize := hn'.size
  rw [List.length_append, PersistentStorageCollection.size, collection_swapWith] at hsize
  simp only [List.length_singleton] at hsize
  omega

end

/-! ### Runs -/

theorem run_concat (ops : List Op) (op : Op) : run (ops ++ [op]) = step (run ops) op :=
    List.foldl_concat _ _ _ _

theorem describes_step {s : State} {entries : List FileId} {op : Op}
    (hm : (s.disk.metadata .main).getD [] = entries)
    (h : Names (step s op) (entries ++ [s.disk.nextFile])) : Describes (step s op) :=
  ⟨_, by rw [readMetadata_step, hm], h⟩

theorem Describes.add {s : State} (h : Describes s) (data : List StorageEntry) :
    Describes (step s (.add data)) := by
  obtain ⟨entries, hr, hn⟩ := h
  exact describes_step (getD_of_readMetadata hr) (names_add hn data)

theorem describes_first (op : Op) : Describes (step start op) := by
  cases op with
  | add data => exact describes_step rfl (names_add names_start data)
  | swapWith data => exact describes_step rfl (names_swapWith rfl names_start data)

/-- **The metadata file describes the collection after every call, in exactly the runs in which no call
but the first is a `SwapWith`.** -/
theorem describes_iff (ops : List Op) :
    (∀ calls, calls ≠ [] → calls <+: ops → Describes (run calls)) ↔
      ∀ op ∈ ops.tail, ∃ data, op = .add data := by
  constructor
  · intro h op hop
    cases op with
    | add data => exact ⟨data, rfl⟩
    | swapWith data =>
      exfalso
      cases ops with
      | nil => cases hop
      | cons first rest =>
        obtain ⟨before, after, rfl⟩ := List.append_of_mem hop
        have hne : first :: before ≠ [] := List.cons_ne_nil _ _
        have hbefore : Describes (run (first :: before)) := h _ hne ⟨.swapWith data :: after, rfl⟩
        refine not_describes_swapWith hbefore ?_ data ?_
        · rw [← List.dropLast_append_getLast hne, run_concat]
          exact collection_ne_nil _ _
        · rw [← run_concat]
          exact h _ (by simp) ⟨after, by simp⟩
  · intro h calls hne hpre
    induction calls using List.reverseRecOn with
    | nil => exact absurd rfl hne
    | append_singleton before op ih =>
      rw [run_concat]
      cases before with
      | nil => exact describes_first op
      | cons first before =>
        obtain ⟨after, rfl⟩ := hpre
        obtain ⟨data, rfl⟩ := h op (by simp)
        exact (ih (List.cons_ne_nil _ _) ⟨.add data :: after, by simp⟩).add data

/-- One table, and a `SwapWith` of the next. -/
theorem not_describes :
    ¬ ∀ ops calls, calls ≠ [] → calls <+: ops → Describes (run calls) := by
  intro h
  let ops : List Op := [.add [⟨[1], some [1], 1⟩], .swapWith [⟨[1], some [1], 1⟩]]
  obtain ⟨entries, hr, hn⟩ := h ops ops (List.cons_ne_nil _ _) (List.prefix_refl _)
  have hentries : readMetadata (run ops).disk = .ok [0, 1] := rfl
  rw [hentries] at hr
  cases hr
  exact absurd hn.size (by decide)

end MetadataDrift

end Iu9Db
