import Iu9Db.Views

/-!
# The versions of client writes

A client sends a write without a version, and the controller would give it one and replicate it. The
handlers read the absent field as version zero, so that the controller never sees a write without a
version: `replicationTasks_handle`.
-/

namespace Iu9Db

namespace ClientWrites

/-- A write request, with the outcome of its write to the WAL. -/
inductive Request
  | insert (isOk : Bool) (request : KeyValueRequest)
  | remove (isOk : Bool) (request : KeyRequest)

namespace Request

def source : Request → Source
  | insert _ request => sourceField request.source?
  | remove _ request => sourceField request.source?

def version? : Request → Option UInt64
  | insert _ request => request.version?
  | remove _ request => request.version?

/-- A client names no version, a node names one. -/
def WellFormed (r : Request) : Prop :=
  r.source = .client ∧ r.version? = none ∨ r.source = .node ∧ r.version?.isSome

/-- The operation under a version. -/
def exec (version : UInt64) : Request → StorageSystem → StorageSystem
  | insert isOk request, s =>
    (s.exec isOk (.insert ⟨stringField request.key?, stringField request.value?, version⟩)).2
  | remove isOk request, s => (s.exec isOk (.remove (stringField request.key?) version)).2

/-- The replication of the operation. -/
def task : Request → Task
  | insert _ _ => .sendInsertToReplicas
  | remove _ _ => .sendRemoveToReplicas

end Request

/-- The master, from the beginning to the end of a request. -/
def master : Flags := ⟨true, false⟩

/-- A request at the master. -/
def handle (c : Controller) : Request → Controller
  | .insert isOk request => (HandlersProxy.insertHandler master master isOk request c).2
  | .remove isOk request => (HandlersProxy.removeHandler master master isOk request c).2

/-- The master before the `i`-th request. -/
def stateAt (c : Controller) (requests : List Request) (i : Nat) : Controller :=
  (requests.take i).foldl handle c

def replicationTasks (c : Controller) : List Task :=
  c.spawned.filter fun task => task ≠ .swapToPersistentStorage

/-- Client writes are stored under generated versions that increase, and they alone are replicated. -/
structure VersionedAndReplicated (c : Controller) (requests : List Request) : Prop where
  stored : ∀ i r, requests[i]? = some r → r.source = .client →
    let c' := stateAt c requests i
    (stateAt c requests (i + 1)).storageSystem = r.exec c'.versionGenerator.generate.1 c'.storageSystem ∧
      (stateAt c requests (i + 1)).versionGenerator = c'.versionGenerator.generate.2
  increasing : ∀ i j r r', requests[i]? = some r → requests[j]? = some r' → i < j → r.source = .client →
    r'.source = .client →
    (stateAt c requests i).versionGenerator.generate.1 < (stateAt c requests j).versionGenerator.generate.1
  replicated : ∀ i r, requests[i]? = some r → replicationTasks (stateAt c requests (i + 1)) =
    replicationTasks (stateAt c requests i) ++ if r.source = .client then [r.task] else []

section
variable {c : Controller} {requests : List Request}

theorem replicationTasks_triggerSwap (c : Controller) :
    replicationTasks c.triggerSwapToPersistentStorage = replicationTasks c := by
  unfold Controller.triggerSwapToPersistentStorage
  split
  · rfl
  · split
    · rfl
    · simp [replicationTasks, Controller.spawn]

theorem replicationTasks_insert (isOk : Bool) (key value : Str) (version : UInt64) (c : Controller) :
    replicationTasks (c.insert isOk ⟨key, value, some version⟩).2 = replicationTasks c := by
  unfold Controller.insert Controller.takeVersion
  dsimp only
  split
  · rfl
  · rw [replicationTasks_triggerSwap]
    rfl

theorem replicationTasks_remove (isOk : Bool) (key : Str) (version : UInt64) (c : Controller) :
    replicationTasks (c.remove isOk ⟨key, some version⟩).2 = replicationTasks c := by
  unfold Controller.remove Controller.takeVersion
  dsimp only
  split <;> rfl

/-- At the master every request gets to its handler. -/
theorem master_passes {ρ : Type} (source : Source) (handler : Handler Controller ρ) (c : Controller) :
    (withIsExpiredMiddleware master master (withIsMasterMiddleware master master source handler) c).2 =
      (handler c).2 := by
  simp only [withIsExpiredMiddleware, withIsMasterMiddleware, master]
  cases source <;> simp

theorem insertHandler_snd (isOk : Bool) (request : KeyValueRequest) (c : Controller) :
    (insertHandler isOk request c).2 = (c.insert isOk
      ⟨stringField request.key?, stringField request.value?, some (uint64Field request.version?)⟩).2 := by
  unfold insertHandler
  split <;> rename_i heq <;> rw [heq]

theorem removeHandler_snd (isOk : Bool) (request : KeyRequest) (c : Controller) :
    (removeHandler isOk request c).2 =
      (c.remove isOk ⟨stringField request.key?, some (uint64Field request.version?)⟩).2 := by
  unfold removeHandler
  split <;> rename_i heq <;> rw [heq]

/-- **No request at the master is replicated.** -/
theorem replicationTasks_handle (c : Controller) (r : Request) :
    replicationTasks (handle c r) = replicationTasks c := by
  cases r with
  | insert isOk request =>
    rw [handle, HandlersProxy.insertHandler, master_passes, insertHandler_snd]
    exact replicationTasks_insert _ _ _ _ c
  | remove isOk request =>
    rw [handle, HandlersProxy.removeHandler, master_passes, removeHandler_snd]
    exact replicationTasks_remove _ _ _ c

/-- Every write is stored under the version that it names, and under zero if it names none. -/
theorem storageSystem_handle (c : Controller) (r : Request) :
    (handle c r).storageSystem = r.exec (r.version?.getD 0) c.storageSystem := by
  cases r with
  | insert isOk request =>
    rw [handle, HandlersProxy.insertHandler, master_passes, insertHandler_snd]
    unfold Controller.insert Controller.takeVersion
    dsimp only
    split <;> rename_i heq
    · exact (congrArg Prod.snd heq).symm
    · rw [Controller.storageSystem_triggerSwapToPersistentStorage]
      exact (congrArg Prod.snd heq).symm
  | remove isOk request =>
    rw [handle, HandlersProxy.removeHandler, master_passes, removeHandler_snd]
    unfold Controller.remove Controller.takeVersion
    dsimp only
    split <;> rename_i heq <;> exact (congrArg Prod.snd heq).symm

theorem stateAt_succ {i : Nat} {r : Request} (h : requests[i]? = some r) :
    stateAt c requests (i + 1) = handle (stateAt c requests i) r := by
  rw [stateAt, List.take_add_one, h, List.foldl_append]
  rfl

end

/-- **The master versions and replicates the client writes of a run exactly when there are none.** -/
theorem versionedAndReplicated_iff (c : Controller) (requests : List Request) :
    VersionedAndReplicated c requests ↔ ∀ r ∈ requests, r.source ≠ .client := by
  constructor
  · intro hv r hr hclient
    obtain ⟨i, hi⟩ := List.mem_iff_getElem?.1 hr
    have htasks := hv.replicated i r hi
    rw [stateAt_succ hi, replicationTasks_handle, if_pos hclient, List.self_eq_append_right] at htasks
    cases htasks
  · intro hnone
    refine ⟨fun i r hi hclient => ?_, fun i j r r' hi hj _ hclient => ?_, fun i r hi => ?_⟩
    · exact absurd hclient (hnone r (List.mem_of_getElem? hi))
    · exact absurd hclient (hnone r (List.mem_of_getElem? hi))
    · rw [stateAt_succ hi, replicationTasks_handle, if_neg (hnone r (List.mem_of_getElem? hi)),
        List.append_nil]

/-- A node that has just started. -/
def started : Controller := ⟨.new, ⟨1⟩, false, []⟩

/-- A client's write: it is stored under version zero and not replicated. -/
theorem not_versionedAndReplicated : ¬ ∀ (c : Controller) (requests : List Request),
    (∀ r ∈ requests, r.WellFormed) → VersionedAndReplicated c requests := by
  intro hall
  have hv := hall started [.insert true ⟨some [97], some [1], none, some .client⟩] fun r hr => by
    rw [List.mem_singleton.1 hr]
    exact .inl ⟨rfl, rfl⟩
  exact absurd (hv.replicated 0 _ rfl) (by decide +kernel)

end ClientWrites

end Iu9Db
