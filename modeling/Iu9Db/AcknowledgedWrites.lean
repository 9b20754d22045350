import Iu9Db.Controller
import Iu9Db.MapRefinement
import Iu9Db.StoredEntries
import Iu9Db.Lib.Transition

/-!
# Client writes that were acknowledged

Calls and swap jobs at one node, one after another. A write of a client takes effect as long as the
generator is not behind the stored versions: then the write is never omitted. Writes keep it so, by
`Generate` and `UpdateMaxVersion`; the write with which `Get` repairs the local entry does neither.
-/

namespace Iu9Db

open Keyed StorageSystem Transition

/-- The coroutine that `TriggerSwapToPersistentStorage` spawns. -/
def Controller.runSwapJob (io : SwapJobIO) (c : Controller) : Option Controller :=
  if .swapToPersistentStorage ∈ c.spawned then
    (c.storageSystem.swapToPersistentStorage io).map fun storageSystem => { c with
      storageSystem := storageSystem
      swapJobGuard := false
      spawned := c.spawned.erase .swapToPersistentStorage }
  else none

namespace AcknowledgedWrites

/-- A write: of a client without a version, of a node with one. -/
inductive Request
  | insert (data : KwDTO)
  | remove (data : KeyDTO)

namespace Request

def key : Request → Str
  | insert data => data.key
  | remove data => data.key

def version : Request → Option UInt64
  | insert data => data.version
  | remove data => data.version

/-- The value that `Get` has to return after it. -/
def value : Request → Option Str
  | insert data => some data.value
  | remove _ => none

def call (isOk : Bool) : Request → Controller → Result Unit × Controller
  | insert data, c => c.insert isOk data
  | remove data, c => c.remove isOk data

/-- What the engine is asked to do. -/
def write (version : UInt64) : Request → Write
  | insert data => .insert ⟨data.key, data.value, version⟩
  | remove data => .remove data.key version

def task : Request → Task
  | insert _ => .sendInsertToReplicas
  | remove _ => .sendRemoveToReplicas

@[simp] theorem write_key (version : UInt64) (r : Request) : (r.write version).key = r.key := by
  cases r <;> rfl

@[simp] theorem write_version (version : UInt64) (r : Request) : (r.write version).version = version := by
  cases r <;> rfl

@[simp] theorem write_value (version : UInt64) (r : Request) :
    (r.write version).value = ⟨r.value, version⟩ := by
  cases r <;> rfl

end Request

structure State where
  controller : Controller
  /-- How many writes came without a version. -/
  clientWrites : Nat
  /-- For a key whose last operation was a client's write that returned `Ok`: what `Get` has to find. -/
  expected : Str → Option (Option Str)

inductive Label
  | write (isOk : Bool) (r : Request)
  | get (isOk : Bool) (data : GetRequestDTO) (outcomes : Result (List (Result ValueDTO)))
  | swapJob (io : SwapJobIO)

/-- An empty node; `InitializeStorages` starts the generator at one. -/
def init (s : State) : Prop := s = ⟨⟨.new, ⟨1⟩, false, []⟩, 0, fun _ => none⟩

/-- What a write that returned `res` promises. -/
def promised (r : Request) (res : Result Unit) : Option (Option Str) :=
  match r.version, res with
  | none, .ok _ => some r.value
  | _, _ => none

def step (s : State) : Label → Option State
  | .write isOk r =>
    let (res, controller) := r.call isOk s.controller
    some ⟨controller, if r.version = none then s.clientWrites + 1 else s.clientWrites,
      Function.update s.expected r.key (promised r res)⟩
  | .get isOk data outcomes =>
    some { s with
      controller := (s.controller.get isOk data outcomes).2
      expected := Function.update s.expected data.key none }
  | .swapJob io => (s.controller.runSwapJob io).map fun controller => { s with controller := controller }

def system : System State Label := ofFun init step

/-- Versions and the number of client writes below `2^63`. -/
def Bounded (s : State) : Label → Prop
  | .write _ r =>
    match r.version with
    | none => s.clientWrites + 1 < 2 ^ 63
    | some version => version.toNat < 2 ^ 63
  | .get _ _ outcomes => ∀ got ∈ replies outcomes, got.version.toNat < 2 ^ 63
  | .swapJob _ => True

/-- A repair stores no version that the generator has not reached. -/
def RepairSeen (s : State) : Label → Prop
  | .get isOk data outcomes =>
    match getNewestFromReplicas outcomes with
    | .ok value => isOk = true → takesReplicas (s.controller.storageSystem.get data.key) value = true →
        value.version ≤ s.controller.versionGenerator.current
    | .error _ => True
  | _ => True

def Ok (s : State) (a : Label) : Prop := Bounded s a ∧ RepairSeen s a

instance instDecidableBounded (s : State) (a : Label) : Decidable (Bounded s a) := by
  unfold Bounded
  split
  · split <;> infer_instance
  · infer_instance
  · infer_instance

instance instDecidableRepairSeen (s : State) (a : Label) : Decidable (RepairSeen s a) := by
  unfold RepairSeen
  split
  · split <;> infer_instance
  · infer_instance

instance instDecidableOk (s : State) (a : Label) : Decidable (Ok s a) := inferInstanceAs (Decidable (_ ∧ _))

/-- Acknowledged writes are found, and the next one of a client will not be omitted. -/
structure TakesEffect (s : State) : Prop where
  answers : ∀ key value, s.expected key = some value → Answers (s.controller.storageSystem.get key) value
  version_le : ∀ key e, s.controller.storageSystem.entry key = some e →
    e.version ≤ s.controller.versionGenerator.generate.1
  not_omits : ∀ key, omits s.controller.versionGenerator.generate.1 (s.controller.storageSystem.get key) =
    false

/-! ### The generator and the engine -/

/-- The engine while the generator is at `current`. -/
structure Engine (current : UInt64) (expected : Str → Option (Option Str)) (s : StorageSystem) : Prop where
  layers : ∃ h, Layers h s
  count : (s.storage.counters s.storage.writer).referenceCount = 0
  seen : Holds (fun e => e.version ≤ current) s
  expected : ∀ key value, expected key = some value → (s.entry key).map Value.value = some value

structure Inv (s : State) : Prop where
  engine : Engine s.controller.versionGenerator.current s.expected s.controller.storageSystem
  current : s.controller.versionGenerator.current.toNat ≤ 2 ^ 63 + s.clientWrites
  clientWrites : s.clientWrites < 2 ^ 63

section
variable {current current' : UInt64} {expected : Str → Option (Option Str)} {s : StorageSystem}

/-- An operation that is applied changes the entry of its own key. -/
theorem entry_applied {h : History} (hl : Layers h s) (w : Write) (d : Disk) (k : Str) :
    StorageSystem.entry { s with
      disk := d
      storage := s.storage.setTable s.storage.writerTable
        (w.applyTo (s.storage.tables s.storage.writerTable)) } k =
      if k = w.key then some w.value else s.entry k := by
  rw [(hl.applied w d).entry, hl.all_write, lastValue_concat, hl.entry]

/-- A version that the generator has reached is not omitted. -/
theorem Engine.not_omits (he : Engine current expected s) {version : UInt64} (hle : current ≤ version)
    (key : Str) : omits version (s.get key) = false := by
  rw [Bool.eq_false_iff]
  intro ho
  obtain ⟨-, record, hrec, -, hlt⟩ := (omits_iff he.seen.wf version key).1 ho
  have hseen : record.version ≤ current := of_find he.seen.collection hrec
  exact absurd hlt (not_lt.2 (hseen.trans hle))

theorem Engine.mono (he : Engine current expected s) (hle : current ≤ current') :
    Engine current' expected s :=
  ⟨he.layers, he.count, he.seen.mono fun _ h => h.trans hle, he.expected⟩

theorem Engine.forget (he : Engine current expected s) (key : Str) :
    Engine current (Function.update expected key none) s where
  layers := he.layers
  count := he.count
  seen := he.seen
  expected k value hk := by
    by_cases h : k = key
    · rw [h, Function.update_self] at hk
      cases hk
    · rw [Function.update_of_ne h] at hk
      exact he.expected k value hk

/-- An operation with a version that the generator has reached afterwards; what it promises is stored. -/
theorem Engine.exec (he : Engine current expected s) (isOk : Bool) {w : Write}
    (hw : isOk = true → w.version ≤ current) {promise : Option (Option Str)}
    (hpromise : ∀ value, promise = some value →
      omits w.version (s.get w.key) = false ∧ isOk = true ∧ w.value.value = value) :
    Engine current (Function.update expected w.key promise) (s.exec isOk w).2 := by
  obtain ⟨h, hl⟩ := he.layers
  have hseen : Holds (fun e => e.version ≤ current) (s.exec isOk w).2 := he.seen.exec isOk fun _ hok => by
    show w.value.version ≤ current
    rw [Write.value_version]
    exact hw hok
  cases hpr : promise with
  | none =>
    rcases exec_cases isOk w s with ⟨-, hexec⟩ | ⟨-, -, e, hexec⟩ | ⟨-, -, hexec⟩
    · rw [hexec]
      exact he.forget w.key
    · rw [hexec]
      exact he.forget w.key
    · rw [hexec] at hseen ⊢
      refine ⟨⟨_, hl.applied w _⟩, he.count, hseen, fun k value hk => ?_⟩
      have hne : k ≠ w.key := by
        rintro rfl
        rw [Function.update_self] at hk
        cases hk
      rw [Function.update_of_ne hne] at hk
      rw [entry_applied hl, if_neg hne]
      exact he.expected k value hk
  | some value =>
    obtain ⟨ho, rfl, hvalue⟩ := hpromise value hpr
    rcases exec_cases true w s with ⟨ho', -⟩ | ⟨-, hok, -⟩ | ⟨-, -, hexec⟩
    · rw [ho] at ho'
      cases ho'
    · cases hok
    · rw [hexec] at hseen ⊢
      refine ⟨⟨_, hl.applied w _⟩, he.count, hseen, fun k value' hk => ?_⟩
      rw [entry_applied hl]
      by_cases h : k = w.key
      · rw [h, Function.update_self, Option.some.injEq] at hk
        rw [if_pos h, Option.map_some, hvalue, hk]
      · rw [Function.update_of_ne h] at hk
        rw [if_neg h]
        exact he.expected k value' hk

/-- **A job changes no entry.** -/
theorem Engine.swapToPersistentStorage (he : Engine current expected s) {io : SwapJobIO} {s' : StorageSystem}
    (hs : s.swapToPersistentStorage io = some s') : Engine current expected s' := by
  obtain ⟨h, hl⟩ := he.layers
  have hsteps := SwapJob.steps_swapToPersistentStorage he.count hl.wf.storage.writer_lt hs
  obtain ⟨h', hall, hl'⟩ := layers_of_steps (h := h) (a := (.start, s)) hl hsteps
  have hl' : Layers h' s' := hl'
  refine ⟨⟨h', hl'⟩, SwapJob.count_swapToPersistentStorage he.count hs,
    holds_steps (a := (.start, s)) he.seen trivial hsteps, fun k value hk => ?_⟩
  rw [hl'.entry, hall, ← hl.entry]
  exact he.expected k value hk

end

/-! ### Calls -/

/-- `Insert` and `Remove` take a version and hand the operation to the engine. -/
theorem call_eq (isOk : Bool) (r : Request) (c : Controller) :
    let res := c.storageSystem.exec isOk (r.write (c.takeVersion r.version r.task).1)
    (r.call isOk c).1 = res.1.map (fun _ => ()) ∧ (r.call isOk c).2.storageSystem = res.2 ∧
      (r.call isOk c).2.versionGenerator = (c.takeVersion r.version r.task).2.versionGenerator := by
  have hsystem : (c.takeVersion r.version r.task).2.storageSystem = c.storageSystem := by
    unfold Controller.takeVersion
    cases r.version <;> rfl
  rw [← hsystem]
  cases r with
  | insert data =>
    simp only [Request.call, Controller.insert, Request.write, Request.version, Request.task,
      StorageSystem.exec]
    cases StorageSystem.insert isOk _ _ with
    | mk res s =>
      cases res with
      | error e => exact ⟨rfl, rfl, rfl⟩
      | ok u =>
        exact ⟨rfl, Controller.storageSystem_triggerSwapToPersistentStorage _,
          Controller.versionGenerator_triggerSwapToPersistentStorage _⟩
  | remove data =>
    simp only [Request.call, Controller.remove, Request.write, Request.version, Request.task,
      StorageSystem.exec]
    cases StorageSystem.remove isOk _ _ _ with
    | mk res s =>
      cases res with
      | error e => exact ⟨rfl, rfl, rfl⟩
      | ok u => exact ⟨rfl, rfl, rfl⟩

/-- `Get` leaves the node as it is, or stores the best reply. -/
theorem get_cases (isOk : Bool) (data : GetRequestDTO) (outcomes : Result (List (Result ValueDTO)))
    (c : Controller) :
    (c.get isOk data outcomes).2 = c ∨ ∃ value, getNewestFromReplicas outcomes = .ok value ∧
      takesReplicas (c.storageSystem.get data.key) value = true ∧
      (c.get isOk data outcomes).2 = { c with
        storageSystem :=
          (c.storageSystem.exec isOk (.insert ⟨data.key, value.value, value.version⟩)).2 } := by
  cases hnew : getNewestFromReplicas outcomes with
  | error e => exact .inl (by simp only [Controller.get, getLocal, hnew])
  | ok value =>
    cases htakes : takesReplicas (c.storageSystem.get data.key) value with
    | true =>
      exact .inr ⟨value, rfl, htakes,
        by simp only [Controller.get, getLocal, hnew, htakes, if_true, StorageSystem.exec]⟩
    | false => exact .inl (by simp [Controller.get, getLocal, hnew, htakes])

/-- The version of a write: the generator reaches it, and for a client it was at it. -/
theorem takeVersion_spec (version : Option UInt64) (task : Task) (c : Controller)
    (hc : version = none → c.versionGenerator.current.toNat + 1 < 2 ^ 64) :
    c.versionGenerator.current ≤ (c.takeVersion version task).2.versionGenerator.current ∧
    (c.takeVersion version task).1 ≤ (c.takeVersion version task).2.versionGenerator.current ∧
    (version = none → (c.takeVersion version task).1 = c.versionGenerator.current) := by
  cases version with
  | none =>
    have hnext : (c.takeVersion none task).2.versionGenerator.current = c.versionGenerator.current + 1 := rfl
    have hle : c.versionGenerator.current ≤ c.versionGenerator.current + 1 := by
      rw [UInt64.le_iff_toNat_le, UInt64.toNat_add]
      exact (Nat.le_succ _).trans (Nat.mod_eq_of_lt (hc rfl)).ge
    rw [hnext]
    exact ⟨hle, hle, fun _ => rfl⟩
  | some version =>
    exact ⟨c.versionGenerator.le_updateMaxVersion version,
      c.versionGenerator.version_le_updateMaxVersion version, fun h => (by cases h)⟩

/-- The generator grows by one, or to a version that it is shown. -/
theorem toNat_takeVersion (version : Option UInt64) (task : Task) (c : Controller) :
    (c.takeVersion version task).2.versionGenerator.current.toNat ≤
      match version with
      | none => c.versionGenerator.current.toNat + 1
      | some version => max c.versionGenerator.current.toNat version.toNat := by
  cases version with
  | none =>
    show (c.versionGenerator.current + 1).toNat ≤ _
    rw [UInt64.toNat_add]
    exact Nat.mod_le _ _
  | some version =>
    show (c.versionGenerator.updateMaxVersion version).current.toNat ≤ _
    unfold VersionNumberGenerator.updateMaxVersion
    split
    · exact le_max_left _ _
    · exact le_max_right _ _

theorem promised_eq_some {r : Request} {res : Result Unit} {value : Option Str}
    (h : promised r res = some value) : r.version = none ∧ res = .ok () ∧ r.value = value := by
  unfold promised at h
  cases hv : r.version with
  | some version => rw [hv] at h; cases h
  | none =>
    rw [hv] at h
    cases res with
    | error e => cases h
    | ok u => exact ⟨rfl, rfl, Option.some.inj h⟩

section
variable {s s' : State} {a : Label}

theorem inv_init (hs : init s) : Inv s := by
  subst hs
  exact ⟨⟨⟨_, layers_new⟩, rfl, holds_new, fun key value h => (by cases h)⟩, by decide, by decide⟩

theorem inv_write (hi : Inv s) {isOk : Bool} {r : Request} (hb : Bounded s (.write isOk r))
    (hs : step s (.write isOk r) = some s') : Inv s' := by
  have hcurrent := hi.current
  have hwrites := hi.clientWrites
  obtain ⟨hres, hsystem, hgenerator⟩ := call_eq isOk r s.controller
  have hroom : r.version = none → s.controller.versionGenerator.current.toNat + 1 < 2 ^ 64 := by
    intro hv
    have hlt : s.clientWrites + 1 < 2 ^ 63 := by simpa only [Bounded, hv] using hb
    omega
  obtain ⟨hle, hversion, hclient⟩ := takeVersion_spec r.version r.task s.controller hroom
  have htoNat := toNat_takeVersion r.version r.task s.controller
  simp only [step, Option.some.injEq] at hs
  subst hs
  refine ⟨?_, ?_, ?_⟩
  · dsimp only
    rw [hsystem, hgenerator]
    have hpromise : ∀ value, promised r (r.call isOk s.controller).1 = some value →
        omits (r.write (s.controller.takeVersion r.version r.task).1).version
          (s.controller.storageSystem.get (r.write (s.controller.takeVersion r.version r.task).1).key) =
            false ∧
        isOk = true ∧ (r.write (s.controller.takeVersion r.version r.task).1).value.value = value := by
      intro value hpromised
      obtain ⟨hnone, hok, hvalue⟩ := promised_eq_some hpromised
      rw [Request.write_version, Request.write_key, Request.write_value]
      have homits := hi.engine.not_omits (hclient hnone).ge r.key
      refine ⟨homits, ?_, hvalue⟩
      rcases exec_cases isOk (r.write
        (s.controller.takeVersion r.version r.task).1) s.controller.storageSystem with
        ⟨ho, -⟩ | ⟨-, -, e, he⟩ | ⟨-, hisOk, -⟩
      · rw [Request.write_version, Request.write_key, homits] at ho
        cases ho
      · rw [he, hok] at hres
        cases hres
      · exact hisOk
    have hexec :=
      (hi.engine.mono hle).exec isOk (fun _ => by rw [Request.write_version]; exact hversion) hpromise
    rw [Request.write_key] at hexec
    exact hexec
  · dsimp only
    rw [hgenerator]
    refine htoNat.trans ?_
    cases hv : r.version with
    | none =>
      show _ + 1 ≤ 2 ^ 63 + (s.clientWrites + 1)
      omega
    | some version =>
      have hlt : version.toNat < 2 ^ 63 := by simpa only [Bounded, hv] using hb
      show max _ _ ≤ 2 ^ 63 + s.clientWrites
      omega
  · dsimp only
    split
    · rename_i hv
      simpa only [Bounded, hv] using hb
    · exact hwrites

theorem inv_step (hi : Inv s) (hok : Ok s a) (hs : step s a = some s') : Inv s' := by
  cases a with
  | write isOk r => exact inv_write hi hok.1 hs
  | get isOk data outcomes =>
    simp only [step, Option.some.injEq] at hs
    subst hs
    rcases get_cases isOk data outcomes s.controller with he | ⟨value, hnew, htakes, he⟩
    · rw [he]
      exact ⟨hi.engine.forget data.key, hi.current, hi.clientWrites⟩
    · have hseen := hok.2
      simp only [RepairSeen, hnew] at hseen
      rw [he]
      exact ⟨hi.engine.exec isOk (w := .insert ⟨data.key, value.value, value.version⟩)
        (fun hisOk => hseen hisOk htakes) fun v h => (by cases h), hi.current, hi.clientWrites⟩
  | swapJob io =>
    obtain ⟨controller, hrun, rfl⟩ := Option.map_eq_some_iff.1 hs
    unfold Controller.runSwapJob at hrun
    split at hrun
    · obtain ⟨storageSystem, hjob, rfl⟩ := Option.map_eq_some_iff.1 hrun
      exact ⟨hi.engine.swapToPersistentStorage hjob, hi.current, hi.clientWrites⟩
    · cases hrun

end

/-- **Where repairs store no version that the generator has not reached, every acknowledged write of a client
takes effect**, and the next one will. -/
theorem takesEffect_of_reachableBy {s : State} (h : system.ReachableBy Ok s) : TakesEffect s := by
  have hi : Inv s := h.invariant (fun _ => inv_init) fun _ _ _ hi hok hs => inv_step hi hok hs
  refine ⟨fun key value hexp => ?_, fun key e he => hi.engine.seen.entry he, hi.engine.not_omits le_rfl⟩
  obtain ⟨e, he, rfl⟩ := Option.map_eq_some_iff.1 (hi.engine.expected key value hexp)
  have hanswers := answers_get hi.engine.seen.wf key
  rw [he] at hanswers
  exact hanswers

/-- Four client writes, with which memory has enough rows for a job. -/
def fillMemory : List Label :=
  [[98], [99], [100], [101]].map fun key => .write true (.insert ⟨key, [1], none⟩)

/-- A node's write, a repair with a version that the node has seen, a job, and two client writes. -/
def seenRun : List Label :=
  .write true (.insert ⟨[97], [1], some 7⟩) :: fillMemory ++
    [.get true ⟨[102]⟩ (.ok [.ok ⟨[2], 5⟩]), .swapJob .succeeds, .write true (.insert ⟨[97], [3], none⟩),
      .write true (.remove ⟨[98], none⟩)]

theorem takesEffect_seenRun : ∃ s, exec step ⟨⟨.new, ⟨1⟩, false, []⟩, 0, fun _ => none⟩ seenRun = some s ∧
    TakesEffect s := by
  obtain ⟨s, hs⟩ : ∃ s, execBy Ok step ⟨⟨.new, ⟨1⟩, false, []⟩, 0, fun _ => none⟩ seenRun = some s :=
    Option.isSome_iff_exists.1 (by decide +kernel)
  obtain ⟨hexec, hreach⟩ : _ ∧ system.ReachableBy Ok s := reachableBy_execBy (.init rfl) hs
  exact ⟨s, hexec, takesEffect_of_reachableBy hreach⟩

/-- A repair with version 100, a job that moves it to disk, and a client write. -/
def repairedRun : List Label :=
  .get true ⟨[97]⟩ (.ok [.ok ⟨[1], 100⟩]) :: fillMemory ++ [.write true (.insert ⟨[102], [1], none⟩),
    .swapJob .succeeds, .write true (.insert ⟨[97], [2], none⟩)]

/-- The client's write returns `Ok` and is omitted. -/
theorem not_takesEffect : ¬ ∀ s, system.ReachableBy Bounded s → TakesEffect s := by
  intro hall
  obtain ⟨s, hs⟩ : ∃ s, execBy Bounded step ⟨⟨.new, ⟨1⟩, false, []⟩, 0, fun _ => none⟩ repairedRun = some s :=
    Option.isSome_iff_exists.1 (by decide +kernel)
  obtain ⟨hexec, hreach⟩ : _ ∧ system.ReachableBy Bounded s := reachableBy_execBy (.init rfl) hs
  have hexp : s.expected [97] = some (some [2]) :=
    eq_of_map_exec hexec (f := fun s => s.expected [97]) (by decide +kernel)
  have hget : (s.controller.storageSystem.get [97]).toOption = some ⟨[1], 100⟩ :=
    eq_of_map_exec hexec (f := fun s => (s.controller.storageSystem.get [97]).toOption) (by decide +kernel)
  obtain ⟨version, hanswers⟩ := (hall s hreach).answers _ _ hexp
  rw [hanswers] at hget
  cases hget

end AcknowledgedWrites

end Iu9Db
