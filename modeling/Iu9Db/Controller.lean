import Iu9Db.SwapJob
import Iu9Db.VersionNumberGenerator
import Iu9Db.Replication

/-!
# `Controller`

A write without a version is one of a client: it is given a new version and replicated. A write with a
version comes from another node. `get` asks the other nodes and writes what is newer to the local
storage. Coroutines that a call spawns on the executor are listed in `spawned`; they run on their own.
-/

namespace Iu9Db

/-- A coroutine spawned on the executor. -/
inductive Task
  | sendInsertToReplicas
  | sendRemoveToReplicas
  | swapToPersistentStorage
deriving DecidableEq, Repr

structure Controller where
  storageSystem : StorageSystem
  versionGenerator : VersionNumberGenerator
  /-- `swap_job_guard_` is acquired. -/
  swapJobGuard : Bool
  spawned : List Task

namespace Controller

def spawn (task : Task) (c : Controller) : Controller := { c with spawned := c.spawned ++ [task] }

/-- `TriggerSwapToPersistentStorage`. -/
def triggerSwapToPersistentStorage (c : Controller) : Controller :=
  if c.storageSystem.storage.size < StorageSystem.kThreshold then c
  else if c.swapJobGuard then c
  else { c with swapJobGuard := true }.spawn .swapToPersistentStorage

@[simp] theorem storageSystem_triggerSwapToPersistentStorage (c : Controller) :
    c.triggerSwapToPersistentStorage.storageSystem = c.storageSystem := by
  unfold triggerSwapToPersistentStorage
  split
  · rfl
  · split <;> rfl

@[simp] theorem versionGenerator_triggerSwapToPersistentStorage (c : Controller) :
    c.triggerSwapToPersistentStorage.versionGenerator = c.versionGenerator := by
  unfold triggerSwapToPersistentStorage
  split
  · rfl
  · split <;> rfl

/-- The head of `Insert` and of `Remove`: the version under which the write is stored. -/
def takeVersion (version : Option UInt64) (replicate : Task) (c : Controller) : UInt64 × Controller :=
  match version with
  | none =>
    let (version, versionGenerator) := c.versionGenerator.generate
    (version, { c with versionGenerator := versionGenerator }.spawn replicate)
  | some version => (version, { c with versionGenerator := c.versionGenerator.updateMaxVersion version })

/-- `Controller::Insert`; `isOk` is the outcome of the write to the WAL. -/
def insert (isOk : Bool) (data : KwDTO) (c : Controller) : Result Unit × Controller :=
  let (version, c) := c.takeVersion data.version .sendInsertToReplicas
  match c.storageSystem.insert isOk ⟨data.key, data.value, version⟩ with
  | (.error e, s) => (.error e, { c with storageSystem := s })
  | (.ok _, s) => (.ok (), { c with storageSystem := s }.triggerSwapToPersistentStorage)

/-- `Controller::Remove`. -/
def remove (isOk : Bool) (data : KeyDTO) (c : Controller) : Result Unit × Controller :=
  let (version, c) := c.takeVersion data.version .sendRemoveToReplicas
  match c.storageSystem.remove isOk data.key version with
  | (.error e, s) => (.error e, { c with storageSystem := s })
  | (.ok _, s) => (.ok (), { c with storageSystem := s })

end Controller

/-! ### Get -/

/-- Does `Controller::Get` take the replicas' value? -/
def takesReplicas (gotLocal : Result ValueDTO) (value : ValueDTO) : Bool :=
  match gotLocal with
  | .ok localValue => localValue.version < value.version
  | .error _ => true

/-- `Controller::Get` after `GetNewestFromReplicas`; `isOk` is the outcome of the write to the WAL that
the repair makes. -/
def getLocal (isOk : Bool) (data : GetRequestDTO) (gotReplicas : Result ValueDTO) (s : StorageSystem) :
    Result ValueDTO × StorageSystem :=
  let gotLocal := s.get data.key
  match gotReplicas with
  | .error _ => (gotLocal, s)
  | .ok value =>
    if takesReplicas gotLocal value then
      (.ok value, (s.insert isOk ⟨data.key, value.value, value.version⟩).2)
    else (gotLocal, s)

/-- `Controller::Get`. -/
def Controller.get (isOk : Bool) (data : GetRequestDTO) (outcomes : Result (List (Result ValueDTO)))
    (c : Controller) : Result ValueDTO × Controller :=
  let (res, s) := getLocal isOk data (getNewestFromReplicas outcomes) c.storageSystem
  (res, { c with storageSystem := s })

end Iu9Db
