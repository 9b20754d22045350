import Iu9Db.JobFiles
import Iu9Db.Lib.Transition

/-!
# Durability of sequential runs with failing jobs

Operations and swap jobs one after another, the jobs statement by statement and with every outcome of
their system calls. A job that fails after the exchange of the writer leaves the two memory tables
rotated half-way; the next job that gets to its end then stores the older table and removes the WAL of
the newer one. `durable_of_reachableBy`: without that, and without a write of a table or of the
metadata file that loses something unnoticed, everything acknowledged can be recovered at every point
of the run.
-/

namespace Iu9Db

open Keyed StorageSystem Transition

namespace JobDurability

/-- The engine with the job that runs, `done` while none does, and what has been acknowledged:
operations that were applied, in order, and omitted ones with what was applied before them. -/
structure State where
  system : StorageSystem
  io : SwapJobIO
  pc : SwapJob
  applied : List Write
  omitted : List (List Write × Write)

inductive Label
  | write (isOk : Bool) (w : Write)
  | startJob (io : SwapJobIO)
  | jobStep

def init (s : State) : Prop := s = ⟨.new, .succeeds, .done, [], []⟩

def step (s : State) : Label → Option State
  | .write isOk w =>
    if s.pc = .done then
      match s.system.exec isOk w with
      | (.error _, system) => some { s with system := system }
      | (.ok _, system) =>
        if omits w.version (s.system.get w.key) then
          some { s with system := system, omitted := (s.applied, w) :: s.omitted }
        else some { s with system := system, applied := s.applied ++ [w] }
    else none
  | .startJob io => if s.pc = .done then some { s with io := io, pc := .start } else none
  | .jobStep => (SwapJob.step s.io s.pc s.system).map fun next => { s with pc := next.1, system := next.2 }

def system : System State Label := ofFun init step

/-- Every acknowledged operation can be recovered: it, or one applied to its key later, is in a WAL
file that exists or in a listed table. For an omitted one a greater version will do. -/
structure Durable (s : State) : Prop where
  applied : ∀ before w after, s.applied = before ++ w :: after →
    ∃ u ∈ w :: after, u.key = w.key ∧ s.system.disk.Recorded u
  omitted : ∀ before w, (before, w) ∈ s.omitted → ∃ after, s.applied = before ++ after ∧
    ∃ u, u.key = w.key ∧ s.system.disk.Recorded u ∧ (u ∈ after ∨ u ∈ before ∧ w.version < u.version)

/-- A job starts only where the tables are not half-way rotated, or nothing is in the WAL yet, or it
stops before it comes to the removal; and what it writes to its files does not get lost. -/
def Ok (s : State) : Label → Prop
  | .write _ _ => True
  | .startJob io => s.system.storage.writerTable = s.system.storage.readerSecond ∨
      s.system.disk.wal s.system.walWriter = some [] ∨
      (io.newWal.isOk && io.table.isOk && io.append.isOk) = false
  | .jobStep => LosesNothing s.io s.system.disk s.pc

instance (s : State) (a : Label) : Decidable (Ok s a) := by
  unfold Ok
  split <;> infer_instance

/-! ### The invariant -/

/-- An omitted operation and the newer one before it that it was compared with. -/
def OmittedBy (applied before : List Write) (w : Write) : Prop :=
  (∃ after, applied = before ++ after) ∧ ∃ l u l', before = l ++ u :: l' ∧ u.key = w.key ∧
    w.version < u.version ∧ ∀ x ∈ l', x.key ≠ w.key

structure Inv (s : State) : Prop where
  wal : WalFiles s.pc s.system
  system : ∃ h : History, h.all = s.applied ∧ LayersAt h s.pc s.system ∧ FilesAt s.io h s.pc s.system
  omitted : ∀ before w, (before, w) ∈ s.omitted → OmittedBy s.applied before w

section
variable {s s' : State} {h : History} {sys : StorageSystem}

theorem walFiles_init (hs : init s) : WalFiles s.pc s.system := by
  subst hs
  exact ⟨walFiles_new.walWriter, walFiles_new.lt, trivial⟩

theorem walFiles_of_step {a : Label} (hw : WalFiles s.pc s.system) (hs : step s a = some s') :
    WalFiles s'.pc s'.system := by
  cases a with
  | write isOk w =>
    simp only [step] at hs
    split at hs
    · rename_i hpc
      rw [hpc] at hw
      rcases exec_cases isOk w s.system with ⟨ho, he⟩ | ⟨ho, -, e, he⟩ | ⟨ho, -, he⟩
      · simp only [he, ho, if_true] at hs
        cases hs
        exact hpc ▸ hw
      · simp only [he] at hs
        cases hs
        exact hpc ▸ hw
      · simp only [he, ho] at hs
        cases hs
        simp only [hpc]
        exact hw.append (e := w.record) rfl rfl
    · cases hs
  | startJob io =>
    simp only [step] at hs
    split at hs <;> cases hs
    exact ⟨hw.walWriter, hw.lt, trivial⟩
  | jobStep =>
    obtain ⟨⟨pc', sys'⟩, hstep, rfl⟩ := Option.map_eq_some_iff.1 hs
    exact walFiles_step hw hstep

theorem inv_init (hs : init s) : Inv s := by
  have hw := walFiles_init hs
  subst hs
  exact ⟨hw, ⟨⟨[], [], []⟩, rfl, layers_new, ⟨nofun, nofun⟩, nofun, trivial⟩, nofun⟩

/-- The record of an applied operation joins the WAL. -/
theorem filesAt_applied {io : SwapJobIO} (hf : FilesAt io h .done sys) (hw : WalFiles .done sys) (w : Write)
    (storage : SwappableMemoryStorage) :
    FilesAt io (h.write sys w) .done { sys with
      disk := sys.disk.setWal sys.walWriter ((sys.disk.wal sys.walWriter).map fun l => l ++ [w.record])
      storage := storage } := by
  obtain ⟨hfiles, hlog, -⟩ := hf
  refine ⟨⟨fun st hst => (hfiles.onDisk st hst).mono (fun _ _ => rfl) le_rfl, hfiles.listed⟩,
    fun u hu => ?_, trivial⟩
  have hu' : u ∈ h.mid ++ h.recent ∨ u = w := by
    simp only [History.write] at hu
    split at hu <;> simp only [List.mem_append, List.mem_singleton] at hu ⊢ <;> tauto
  rcases hu' with hu' | rfl
  · obtain ⟨f, hf⟩ := hlog u hu'
    exact ⟨f, mem_wal_append hf⟩
  · obtain ⟨l, hwal⟩ := hw.walWriter
    exact ⟨sys.walWriter, l ++ [u.record], by simp [hwal], by simp⟩

/-- An omitted operation is older than the last one applied to its key. -/
theorem omittedBy_of_omits (hl : Layers h sys) {w : Write} (ho : omits w.version (sys.get w.key) = true) :
    OmittedBy h.all h.all w := by
  obtain ⟨hnone, record, hrec, -, hlt⟩ := (omits_iff hl.wf.persistentStorage _ _).1 ho
  have hentry : sys.entry w.key = some record.toValue := by simp [entry, hnone, hrec]
  rw [hl.entry] at hentry
  obtain ⟨u, hu, hv⟩ := Option.map_eq_some_iff.1 hentry
  obtain ⟨l, l', hall, hk, hlast⟩ := findLast_split hu
  refine ⟨⟨[], by simp⟩, l, u, l', hall, hk, ?_, hlast⟩
  rw [← Write.value_version u, hv]
  exact hlt

theorem OmittedBy.append {applied before : List Write} {w : Write} (ho : OmittedBy applied before w)
    (w' : Write) : OmittedBy (applied ++ [w']) before w := by
  obtain ⟨⟨after, rfl⟩, hu⟩ := ho
  exact ⟨⟨after ++ [w'], by simp⟩, hu⟩

/-- **Every allowed step keeps the invariant.** -/
theorem inv_step {a : Label} (hi : Inv s) (hok : Ok s a) (hs : step s a = some s') : Inv s' := by
  have hw' := walFiles_of_step hi.wal hs
  obtain ⟨hw, ⟨h, hall, hl, hf⟩, hom⟩ := hi
  cases a with
  | write isOk w =>
    simp only [step] at hs
    split at hs
    · rename_i hpc
      rw [hpc] at hl hf hw
      have hl : Layers h s.system := hl
      rcases exec_cases isOk w s.system with ⟨ho, he⟩ | ⟨ho, -, e, he⟩ | ⟨ho, -, he⟩
      · simp only [he, ho, if_true] at hs
        cases hs
        refine ⟨hw', ⟨h, hall, hpc ▸ hl, hpc ▸ hf⟩, fun before u hu => ?_⟩
        rcases List.mem_cons.1 hu with he | hu
        · cases he
          exact hall ▸ omittedBy_of_omits hl ho
        · exact hom before u hu
      · simp only [he] at hs
        cases hs
        exact ⟨hw', ⟨h, hall, hpc ▸ hl, hpc ▸ hf⟩, hom⟩
      · simp only [he, ho] at hs
        cases hs
        refine ⟨hw', ⟨h.write s.system w, ?_, ?_, ?_⟩, fun before u hu => (hom before u hu).append w⟩
        · rw [hl.all_write, hall]
        · simp only [hpc]
          exact hl.applied w _
        · simp only [hpc]
          exact filesAt_applied hf hw w _
    · cases hs
  | startJob io =>
    simp only [step] at hs
    split at hs
    · rename_i hpc
      cases hs
      rw [hpc] at hl hf
      have hl : Layers h s.system := hl
      refine ⟨hw', ⟨h, hall, hl, hf.files, hf.logged, fun hn ht ha => ?_⟩, hom⟩
      rcases hok with hsecond | hempty | hstops
      · rw [hl.writer hsecond]
        exact nofun
      · intro w hmem'
        obtain ⟨f, l, hfl, hmem⟩ := hf.logged w (by simp [hmem'])
        refine ⟨f, l, fun he => ?_, hfl, hmem⟩
        rw [he, hempty] at hfl
        cases hfl
        cases hmem
      · rw [hn, ht, ha] at hstops
        cases hstops
    · cases hs
  | jobStep =>
    obtain ⟨⟨pc', sys'⟩, hstep, rfl⟩ := Option.map_eq_some_iff.1 hs
    exact ⟨hw', ⟨h.next s.pc, (h.all_next _).trans hall, layersAt_step hl hstep,
      filesAt_step hf hw hok hstep⟩, hom⟩

/-! ### What the invariant gives -/

/-- The tables answer for a beginning of the history and the rest is in the WAL files. -/
theorem split_of_layersAt {pc : SwapJob} (hl : LayersAt h pc sys) :
    ∃ onDisk rest, h.all = onDisk ++ rest ∧ (∀ w ∈ rest, w ∈ h.mid ++ h.recent) ∧
      ∀ k, (sys.persistentStorage.find k).map StorageEntry.toValue = lastValue onDisk k := by
  have hold (hl : Layers h sys) : ∃ onDisk rest, h.all = onDisk ++ rest ∧
      (∀ w ∈ rest, w ∈ h.mid ++ h.recent) ∧
      ∀ k, (sys.persistentStorage.find k).map StorageEntry.toValue = lastValue onDisk k :=
    ⟨h.old, h.mid ++ h.recent, by rw [History.all, List.append_assoc], fun _ hw => hw, hl.disk⟩
  cases pc with
  | start => exact hold hl
  | walCreated file path => exact hold hl
  | walSwapped path => exact hold hl
  | writerExchanged path oldWriter => exact hold hl.toLayers
  | writersWaited path => exact hold hl.toLayers
  | collected path data => exact hold hl.1.toLayers
  | created path persistent => exact hold hl.1.toLayers
  | listed path persistent => exact hold hl.1.toLayers
  | added path => exact ⟨h.old ++ h.mid, h.recent, rfl, fun _ hw => by simp [hw], hl.disk⟩
  | secondExchanged path => exact ⟨h.old ++ h.mid, h.recent, rfl, fun _ hw => by simp [hw], hl.disk⟩
  | collectedRemoved path => exact hold hl
  | walRemoved => exact hold hl
  | merged newStorage => exact hold hl.1
  | newListed newStorage => exact hold hl.1
  | renamed newStorage toDelete => exact hold hl.1
  | swapped toDelete => exact hold hl
  | done => exact hold hl

theorem stored_of_find (hf : Files sys) {k : Str} {record : StorageEntry}
    (hrec : sys.persistentStorage.find k = some record) : sys.disk.Stored record := by
  obtain ⟨st, hst, hfind⟩ := List.exists_of_findSome?_eq_some hrec
  have hst := List.mem_reverse.1 hst
  exact ⟨st.path, hf.listed st hst, st.entries, (hf.onDisk st hst).data, mem_of_find hfind⟩

theorem Inv.durable_applied (hi : Inv s) {before after : List Write} {w : Write}
    (he : s.applied = before ++ w :: after) : ∃ u ∈ w :: after, u.key = w.key ∧ s.system.disk.Recorded u := by
  obtain ⟨h, hall, hl, hf⟩ := hi.system
  obtain ⟨onDisk, rest, hsplit, hrest, hdisk⟩ := split_of_layersAt hl
  rw [← hall, hsplit] at he
  by_cases hw : w ∈ rest
  · exact ⟨w, by simp, rfl, .inl (hf.logged w (hrest w hw))⟩
  · -- The operation is in the part that the tables answer for.
    rcases List.append_eq_append_iff.1 he with ⟨l, -, hl'⟩ | ⟨l, hl', he'⟩
    · exact absurd (hl' ▸ by simp) hw
    · cases l with
      | nil => exact absurd (by simp only [List.nil_append] at he'; simp [← he']) hw
      | cons c l =>
        rw [List.cons_append, List.cons.injEq] at he'
        obtain ⟨rfl, rfl⟩ := he'
        obtain ⟨u, hu, hlast⟩ := findLast_after (κ := Write.key) before l (rfl : w.key = w.key)
        have hk := key_of_findLast hlast
        have hfind := hdisk w.key
        rw [hl', lastValue, hlast, Option.map_some] at hfind
        obtain ⟨record, hrec, hv⟩ := Option.map_eq_some_iff.1 hfind
        refine ⟨u, ?_, hk, .inr ?_⟩
        · rcases List.mem_cons.1 hu with rfl | hu
          · simp
          · simp [hu]
        · have hrecord : u.value.toEntry u.key = record := by
            rw [← hv, hk, ← PersistentStorageCollection.key_of_find hrec, StorageEntry.toEntry_toValue]
          rw [hrecord]
          exact stored_of_find hf.files hrec

theorem Inv.durable (hi : Inv s) : Durable s := by
  refine ⟨fun before w after he => hi.durable_applied he, fun before w ho => ?_⟩
  obtain ⟨⟨after, happ⟩, l, u, l', rfl, hk, hlt, hlast⟩ := hi.omitted before w ho
  refine ⟨after, happ, ?_⟩
  have happ' : s.applied = l ++ u :: (l' ++ after) := by simp [happ]
  obtain ⟨x, hx, hxk, hrec⟩ := hi.durable_applied happ'
  refine ⟨x, hxk.trans hk, hrec, ?_⟩
  rcases List.mem_cons.1 hx with rfl | hx
  · exact .inr ⟨by simp, hlt⟩
  · rcases List.mem_append.1 hx with hx | hx
    · exact absurd (hxk.trans hk) (hlast x hx)
    · exact .inl hx

end

def put (n : UInt8) : Write := .insert ⟨[n], [n], 1⟩

/-- A job whose table cannot be written. -/
def failing : SwapJobIO :=
  { SwapJobIO.succeeds with table := ⟨{ TableIO.succeeds with serialize := false }, .whole⟩ }

/-- Five operations and a job that fails at the table; five more, and a job that removes its WAL. -/
def lossyRun : List Label :=
  [put 1, put 2, put 3, put 4, put 5].map (.write true) ++ .startJob failing :: List.replicate 6 .jobStep ++
  [put 6, put 7, put 8, put 9, put 10].map (.write true) ++ .startJob .succeeds :: List.replicate 11 .jobStep

end JobDurability

end Iu9Db
