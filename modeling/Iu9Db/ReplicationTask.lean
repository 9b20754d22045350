import Iu9Db.Controller
import Iu9Db.Lib.Transition

/-!
# What the replication task sends

`Controller::Insert` and `Controller::Remove` spawn a task that captures their parameter `data` by
reference, and go on to move from it and to return. The task copies `data` when it first runs, which may be
at any time after that: `carriesStored_iff` says for which copies the replicas get what is stored.
-/

namespace Iu9Db

open Transition

namespace ReplicationTask

/-- How far a handler is; `moved` and `versioned` come in this order in `Remove` and the other way round in
`Insert`. -/
inductive Pc
  | start
  | moved
  | versioned
  | stored
  | returned
deriving DecidableEq, Repr

/-- The spawned coroutine; `sending` is inside the loop over the nodes, with the copy of `data`. -/
inductive Task (δ : Type)
  | notSpawned
  | spawned
  | sending (data : δ) (nodes : List Str)
  | finished
  | threw

/-- The moment at which the task first runs: where the handler is, what the memory of `data` holds, and the
list of nodes that `GetNodes` returns, empty if it fails. -/
structure Start (δ : Type) where
  pc : Pc
  memory : δ
  nodes : List Str

/-- One call of a handler and its task. `data` is what the memory of the parameter holds, `bound` what the
structured binding takes out of it, `stored` the operation passed to the storage. -/
structure Run (δ ρ : Type) where
  pc : Pc
  data : δ
  bound : Option δ
  versionGenerator : VersionNumberGenerator
  stored : Option Write
  task : Task δ
  start : Option (Start δ)
  sent : List (Str × ρ)

/-- A handler by its statements and the request its task builds. A statement gets what the memory of `data`
holds in the places that the statement leaves unspecified. -/
structure Body (δ ρ : Type) where
  statement : δ → Run δ ρ → Option (Run δ ρ)
  request : δ → Option ρ

inductive Label (δ : Type)
  | statement (left : δ)
  | startTask (nodes : Result (List Str))
  | send (attempts : Nat)

/-- The task sends one request for each node, several times if it fails. -/
def step {δ ρ : Type} (b : Body δ ρ) (s : Run δ ρ) : Label δ → Option (Run δ ρ)
  | .statement left => b.statement left s
  | .startTask nodes =>
    match s.task with
    | .spawned =>
      let nodes := nodes.toOption.getD []
      some { s with task := .sending s.data nodes, start := some ⟨s.pc, s.data, nodes⟩ }
    | _ => none
  | .send attempts =>
    match s.task with
    | .sending _ [] => some { s with task := .finished }
    | .sending data (node :: nodes) =>
      match b.request data with
      | none => some { s with task := .threw }
      | some request =>
        if 0 < attempts ∧ attempts ≤ kAttempts then
          some { s with
            task := .sending data nodes, sent := s.sent ++ List.replicate attempts (node, request) }
        else none
    | _ => none

/-! ### The two handlers -/

/-- A statement of `Controller::Insert`. -/
def insertStatement (left : KwDTO) (s : Run KwDTO KeyValueRequest) : Option (Run KwDTO KeyValueRequest) :=
  match s.pc, s.bound with
  | .start, _ =>
    match s.data.version with
    | none =>
      let (version, versionGenerator) := s.versionGenerator.generate
      some { s with
        pc := .versioned
        versionGenerator := versionGenerator
        data := { s.data with version := some version }
        task := .spawned }
    | some version =>
      some { s with pc := .versioned, versionGenerator := s.versionGenerator.updateMaxVersion version }
  -- A string that was moved from holds anything, a number what it held.
  | .versioned, _ =>
    some { s with pc := .moved, bound := some s.data, data := { left with version := s.data.version } }
  | .moved, some bound =>
    bound.version.map fun version =>
      { s with pc := .stored, stored := some (.insert ⟨bound.key, bound.value, version⟩) }
  | .stored, _ => some { s with pc := .returned, data := left }
  | _, _ => none

/-- A statement of `Controller::Remove`: the version is generated into the structured binding. -/
def removeStatement (left : KeyDTO) (s : Run KeyDTO KeyRequest) : Option (Run KeyDTO KeyRequest) :=
  match s.pc, s.bound with
  | .start, _ =>
    some { s with pc := .moved, bound := some s.data, data := { left with version := s.data.version } }
  | .moved, some bound =>
    match bound.version with
    | none =>
      let (version, versionGenerator) := s.versionGenerator.generate
      some { s with
        pc := .versioned
        versionGenerator := versionGenerator
        bound := some { bound with version := some version }
        task := .spawned }
    | some _ =>
      s.data.version.map fun version =>
        { s with pc := .versioned, versionGenerator := s.versionGenerator.updateMaxVersion version }
  | .versioned, some bound =>
    bound.version.map fun version => { s with pc := .stored, stored := some (.remove bound.key version) }
  | .stored, _ => some { s with pc := .returned, data := left }
  | _, _ => none

def insertBody : Body KwDTO KeyValueRequest := ⟨insertStatement, ReplicaClient.insertRequest⟩

def removeBody : Body KeyDTO KeyRequest := ⟨removeStatement, ReplicaClient.removeRequest⟩

/-- A call of a handler with `data`. -/
def call {δ ρ : Type} (data : δ) (g : VersionNumberGenerator) : Run δ ρ :=
  ⟨.start, data, none, g, none, .notSpawned, none, []⟩

/-- A client's call of `Insert`. -/
def insertSystem (key value : Str) (g : VersionNumberGenerator) : System (Run KwDTO KeyValueRequest)
    (Label KwDTO) :=
  ofFun (fun s => s = call ⟨key, value, none⟩ g) (step insertBody)

/-- A client's call of `Remove`. -/
def removeSystem (key : Str) (g : VersionNumberGenerator) : System (Run KeyDTO KeyRequest) (Label KeyDTO) :=
  ofFun (fun s => s = call ⟨key, none⟩ g) (step removeBody)

/-- Nothing but `request` is sent, for the operation `w` that alone is stored, and building it does not
throw. -/
structure CarriesStored {δ ρ : Type} (w : Write) (request : ρ) (s : Run δ ρ) : Prop where
  stored : ∀ w', s.stored = some w' → w' = w
  sent : ∀ r ∈ s.sent, r.2 = request
  notThrew : s.task ≠ .threw

/-- `Insert` stores the value under a version and sends the same to the replicas. -/
abbrev InsertCarries (key value : Str) (version : UInt64) (s : Run KwDTO KeyValueRequest) : Prop :=
  CarriesStored (.insert ⟨key, value, version⟩) ⟨some key, some value, some version, some .node⟩ s

/-- `Remove` stores the tombstone under a version and sends the same to the replicas. -/
abbrev RemoveCarries (key : Str) (version : UInt64) (s : Run KeyDTO KeyRequest) : Prop :=
  CarriesStored (.remove key version) ⟨some key, some version, some .node⟩ s

/-- The task has run to its end, or an exception has ended it. -/
def Ended {δ ρ : Type} (s : Run δ ρ) : Prop := s.task = .finished ∨ s.task = .threw

/-- The task of `Insert` starts in time: there are no nodes; or the DTO has not been moved out yet; or the
strings hold after the move what they held before; or the freed memory does. -/
def InsertStartsWell (key value : Str) (version : UInt64) (st : Start KwDTO) : Prop :=
  st.nodes = [] ∨ match st.pc with
    | .versioned => True
    | .returned => st.memory = ⟨key, value, some version⟩
    | _ => st.memory.key = key ∧ st.memory.value = value

/-- The task of `Remove` never does while the handler is under way. -/
def RemoveStartsWell (key : Str) (version : UInt64) (st : Start KeyDTO) : Prop :=
  st.nodes = [] ∨ st.pc = .returned ∧ st.memory = ⟨key, some version⟩

/-! ### What any such task sends -/

section
variable {δ ρ : Type} {b : Body δ ρ} {s s' : Run δ ρ} {w : Write} {request : ρ}

/-- What the task has done so far comes from the one copy it took. -/
def TaskInv (b : Body δ ρ) (s : Run δ ρ) : Prop :=
  match s.task with
  | .notSpawned | .spawned => s.start = none ∧ s.sent = []
  | .sending data nodes => ∃ st done, s.start = some st ∧ data = st.memory ∧ st.nodes = done ++ nodes ∧
      (∀ r ∈ s.sent, b.request st.memory = some r.2) ∧ (done = [] ↔ s.sent = [])
  | .finished => ∃ st, s.start = some st ∧ (∀ r ∈ s.sent, b.request st.memory = some r.2) ∧
      (st.nodes = [] ↔ s.sent = [])
  | .threw => ∃ st, s.start = some st ∧ st.nodes ≠ [] ∧ b.request st.memory = none

/-- A statement of the handler does nothing to the task but spawn it. -/
theorem TaskInv.statement (h : TaskInv b s) (hstart : s'.start = s.start) (hsent : s'.sent = s.sent)
    (htask : s'.task = s.task ∨ s.task = .notSpawned ∧ s'.task = .spawned) : TaskInv b s' := by
  unfold TaskInv at h ⊢
  rw [hstart, hsent]
  rcases htask with htask | ⟨hold, hnew⟩
  · rw [htask]
    exact h
  · rw [hold] at h
    rw [hnew]
    exact h

theorem startTask_eq {nodes : Result (List Str)} (hs : step b s (.startTask nodes) = some s') :
    s.task = .spawned ∧ ∃ nodes, s' = { s with
      task := .sending s.data nodes
      start := some ⟨s.pc, s.data, nodes⟩ } := by
  simp only [step] at hs
  cases ht : s.task with
  | spawned =>
    rw [ht] at hs
    cases hs
    exact ⟨rfl, _, rfl⟩
  | _ => rw [ht] at hs; cases hs

/-- A turn of its loop touches nothing of the handler. -/
theorem send_eq {attempts : Nat} (hs : step b s (.send attempts) = some s') :
    s.task ≠ .notSpawned ∧ ∃ task sent, s' = { s with task := task, sent := sent } := by
  simp only [step] at hs
  cases ht : s.task with
  | sending data nodes =>
    rw [ht] at hs
    refine ⟨by simp, ?_⟩
    cases nodes with
    | nil => cases hs; exact ⟨_, _, rfl⟩
    | cons node nodes =>
      simp only at hs
      split at hs
      · cases hs; exact ⟨_, _, rfl⟩
      · split at hs <;> cases hs
        exact ⟨_, _, rfl⟩
  | _ => rw [ht] at hs; cases hs

theorem TaskInv.startTask (h : TaskInv b s) {nodes : Result (List Str)}
    (hs : step b s (.startTask nodes) = some s') : TaskInv b s' := by
  obtain ⟨ht, nodes, rfl⟩ := startTask_eq hs
  unfold TaskInv at h
  rw [ht] at h
  obtain ⟨-, hsent⟩ := h
  refine ⟨_, [], rfl, rfl, rfl, fun r hr => ?_, by simp [hsent]⟩
  rw [hsent] at hr
  cases hr

theorem TaskInv.send (h : TaskInv b s) {attempts : Nat} (hs : step b s (.send attempts) = some s') :
    TaskInv b s' := by
  unfold TaskInv at h
  simp only [step] at hs
  cases ht : s.task with
  | sending data nodes =>
    rw [ht] at hs h
    obtain ⟨st, done, hstart, rfl, hnodes, hall, hdone⟩ := h
    cases nodes with
    | nil =>
      cases hs
      rw [List.append_nil] at hnodes
      exact ⟨st, hstart, hall, by rw [hnodes]; exact hdone⟩
    | cons node nodes =>
      simp only at hs
      cases hr : b.request st.memory with
      | none =>
        rw [hr] at hs
        cases hs
        exact ⟨st, hstart, by simp [hnodes], hr⟩
      | some request =>
        rw [hr] at hs
        simp only at hs
        split at hs
        · rename_i hattempts
          cases hs
          refine ⟨st, done ++ [node], hstart, rfl, by simp [hnodes], fun r hmem => ?_, ?_⟩
          · rcases List.mem_append.1 hmem with hmem | hmem
            · exact hall r hmem
            · rw [List.eq_of_mem_replicate hmem]
              exact hr
          · simp only [List.append_eq_nil_iff, List.cons_ne_self, and_false, false_iff,
              List.replicate_eq_nil_iff]
            omega
        · cases hs
  | _ => rw [ht] at hs; cases hs

/-- A copy that makes the right request, or none. -/
theorem TaskInv.carries (h : TaskInv b s) (hstored : ∀ w', s.stored = some w' → w' = w)
    (hgood : ∀ st, s.start = some st → st.nodes = [] ∨ b.request st.memory = some request) :
    CarriesStored w request s := by
  have hsent : ∀ st, s.start = some st → (st.nodes = [] → s.sent = []) →
      (∀ r ∈ s.sent, b.request st.memory = some r.2) → ∀ r ∈ s.sent, r.2 = request := by
    intro st hst hnil hall r hr
    rcases hgood st hst with hnodes | hreq
    · rw [hnil hnodes] at hr
      cases hr
    · exact Option.some.inj ((hall r hr).symm.trans hreq)
  unfold TaskInv at h
  cases ht : s.task with
  | notSpawned | spawned =>
    rw [ht] at h
    refine ⟨hstored, fun r hr => ?_, by rw [ht]; simp⟩
    rw [h.2] at hr
    cases hr
  | sending data nodes =>
    rw [ht] at h
    obtain ⟨st, done, hst, -, hnodes, hall, hdone⟩ := h
    refine ⟨hstored, hsent st hst (fun hnil => hdone.1 ?_) hall, by rw [ht]; simp⟩
    rw [hnil] at hnodes
    exact (List.append_eq_nil_iff.1 hnodes.symm).1
  | finished =>
    rw [ht] at h
    obtain ⟨st, hst, hall, hnil⟩ := h
    exact ⟨hstored, hsent st hst hnil.1 hall, by rw [ht]; simp⟩
  | threw =>
    rw [ht] at h
    obtain ⟨st, hst, hnodes, hnone⟩ := h
    rcases hgood st hst with hnil | hreq
    · exact absurd hnil hnodes
    · rw [hnone] at hreq
      cases hreq

/-- Once the task has ended, only such a copy explains that all was well. -/
theorem TaskInv.good_of_carries (h : TaskInv b s) (hended : Ended s) (hc : CarriesStored w request s) :
    ∀ st, s.start = some st → st.nodes = [] ∨ b.request st.memory = some request := by
  intro st hst
  rcases hended with ht | ht
  · unfold TaskInv at h
    rw [ht] at h
    obtain ⟨st', hst', hall, hnil⟩ := h
    cases hst.symm.trans hst'
    by_cases hsent : s.sent = []
    · exact .inl (hnil.2 hsent)
    · obtain ⟨r, hr⟩ := List.exists_mem_of_ne_nil _ hsent
      rw [← hc.sent r hr]
      exact .inr (hall r hr)
  · exact absurd ht hc.notThrew

end

/-! ### What each handler leaves in `data` -/

section
variable {key value : Str} {version : UInt64}

structure InsertInv (key value : Str) (version : UInt64) (s : Run KwDTO KeyValueRequest) : Prop where
  task : TaskInv insertBody s
  stored : ∀ w, s.stored = some w → w = .insert ⟨key, value, version⟩
  frame : match s.pc with
    | .start => s.data = ⟨key, value, none⟩ ∧ s.versionGenerator.current = version ∧ s.task = .notSpawned
    | .versioned => s.data = ⟨key, value, some version⟩
    | .moved => s.bound = some ⟨key, value, some version⟩ ∧ s.data.version = some version
    | .stored => s.data.version = some version
    | .returned => True
  start : ∀ st, s.start = some st → match st.pc with
    | .start => False
    | .versioned => st.memory = ⟨key, value, some version⟩
    | .moved | .stored => st.memory.version = some version
    | .returned => True

theorem insertInv_call (g : VersionNumberGenerator) :
    InsertInv key value g.current (call ⟨key, value, none⟩ g) where
  task := ⟨rfl, rfl⟩
  stored w hw := by cases hw
  frame := ⟨rfl, rfl, rfl⟩
  start st hst := by cases hst

theorem insertInv_step {s s' : Run KwDTO KeyValueRequest} {a : Label KwDTO}
    (h : InsertInv key value version s) (hs : step insertBody s a = some s') :
    InsertInv key value version s' := by
  obtain ⟨htask, hstored, hframe, hstart⟩ := h
  cases a with
  | statement left =>
    have hs : insertStatement left s = some s' := hs
    unfold insertStatement at hs
    cases hpc : s.pc with
    | start =>
      rw [hpc] at hframe hs
      obtain ⟨hdata, rfl, hnot⟩ := hframe
      simp only [hdata, VersionNumberGenerator.generate] at hs
      cases hs
      exact ⟨htask.statement rfl rfl (.inr ⟨hnot, rfl⟩), hstored, rfl, hstart⟩
    | versioned =>
      rw [hpc] at hframe hs
      cases hs
      refine ⟨htask.statement rfl rfl (.inl rfl), hstored, ⟨congrArg some hframe, ?_⟩, hstart⟩
      exact congrArg KwDTO.version hframe
    | moved =>
      rw [hpc] at hframe hs
      obtain ⟨hbound, hversion⟩ := hframe
      rw [hbound] at hs
      cases hs
      exact ⟨htask.statement rfl rfl (.inl rfl), fun w hw => (Option.some.inj hw).symm, hversion, hstart⟩
    | stored =>
      rw [hpc] at hs
      cases hs
      exact ⟨htask.statement rfl rfl (.inl rfl), hstored, trivial, hstart⟩
    | returned => rw [hpc] at hs; cases hs
  | startTask nodes =>
    have htask' := htask.startTask hs
    obtain ⟨ht, nodes, rfl⟩ := startTask_eq hs
    cases hpc : s.pc with
    | start =>
      rw [hpc] at hframe
      rw [hframe.2.2] at ht
      cases ht
    | versioned | moved | stored | returned =>
      rw [hpc] at hframe htask'
      refine ⟨htask', hstored, hframe, fun st hst => ?_⟩
      cases hst
      first | exact hframe | exact hframe.2
  | send attempts =>
    have htask' := htask.send hs
    obtain ⟨ht, task, sent, rfl⟩ := send_eq hs
    cases hpc : s.pc with
    | start =>
      rw [hpc] at hframe
      exact absurd hframe.2.2 ht
    | versioned | moved | stored | returned =>
      rw [hpc] at hframe htask'
      exact ⟨htask', hstored, hframe, hstart⟩

structure RemoveInv (key : Str) (version : UInt64) (s : Run KeyDTO KeyRequest) : Prop where
  task : TaskInv removeBody s
  stored : ∀ w, s.stored = some w → w = .remove key version
  frame : match s.pc with
    | .start => s.data = ⟨key, none⟩ ∧ s.versionGenerator.current = version ∧ s.task = .notSpawned
    | .moved => s.bound = some ⟨key, none⟩ ∧ s.versionGenerator.current = version ∧ s.task = .notSpawned ∧
        s.data.version = none
    | .versioned => s.bound = some ⟨key, some version⟩ ∧ s.data.version = none
    | .stored => s.data.version = none
    | .returned => True
  start : ∀ st, s.start = some st → match st.pc with
    | .start | .moved => False
    | .versioned | .stored => st.memory.version = none
    | .returned => True

theorem removeInv_call (g : VersionNumberGenerator) : RemoveInv key g.current (call ⟨key, none⟩ g) where
  task := ⟨rfl, rfl⟩
  stored w hw := by cases hw
  frame := ⟨rfl, rfl, rfl⟩
  start st hst := by cases hst

theorem removeInv_step {s s' : Run KeyDTO KeyRequest} {a : Label KeyDTO} (h : RemoveInv key version s)
    (hs : step removeBody s a = some s') : RemoveInv key version s' := by
  obtain ⟨htask, hstored, hframe, hstart⟩ := h
  cases a with
  | statement left =>
    have hs : removeStatement left s = some s' := hs
    unfold removeStatement at hs
    cases hpc : s.pc with
    | start =>
      rw [hpc] at hframe hs
      obtain ⟨hdata, hversion, hnot⟩ := hframe
      cases hs
      refine ⟨htask.statement rfl rfl (.inl rfl), hstored, ⟨congrArg some hdata, hversion, hnot, ?_⟩, hstart⟩
      exact congrArg KeyDTO.version hdata
    | moved =>
      rw [hpc] at hframe hs
      obtain ⟨hbound, rfl, hnot, hversion⟩ := hframe
      simp only [hbound, VersionNumberGenerator.generate] at hs
      cases hs
      exact ⟨htask.statement rfl rfl (.inr ⟨hnot, rfl⟩), hstored, ⟨rfl, hversion⟩, hstart⟩
    | versioned =>
      rw [hpc] at hframe hs
      obtain ⟨hbound, hversion⟩ := hframe
      rw [hbound] at hs
      cases hs
      exact ⟨htask.statement rfl rfl (.inl rfl), fun w hw => (Option.some.inj hw).symm, hversion, hstart⟩
    | stored =>
      rw [hpc] at hs
      cases hs
      exact ⟨htask.statement rfl rfl (.inl rfl), hstored, trivial, hstart⟩
    | returned => rw [hpc] at hs; cases hs
  | startTask nodes =>
    have htask' := htask.startTask hs
    obtain ⟨ht, nodes, rfl⟩ := startTask_eq hs
    cases hpc : s.pc with
    | start =>
      rw [hpc] at hframe
      rw [hframe.2.2] at ht
      cases ht
    | moved =>
      rw [hpc] at hframe
      rw [hframe.2.2.1] at ht
      cases ht
    | versioned | stored | returned =>
      rw [hpc] at hframe htask'
      refine ⟨htask', hstored, hframe, fun st hst => ?_⟩
      cases hst
      first | exact hframe | exact hframe.2
  | send attempts =>
    have htask' := htask.send hs
    obtain ⟨ht, task, sent, rfl⟩ := send_eq hs
    cases hpc : s.pc with
    | start =>
      rw [hpc] at hframe
      exact absurd hframe.2.2 ht
    | moved =>
      rw [hpc] at hframe
      exact absurd hframe.2.2.1 ht
    | versioned | stored | returned =>
      rw [hpc] at hframe htask'
      exact ⟨htask', hstored, hframe, hstart⟩

/-- The copies of which `ReplicaClient::Insert` makes the right request. -/
theorem InsertInv.startsWell_iff {s : Run KwDTO KeyValueRequest} (h : InsertInv key value version s)
    {st : Start KwDTO} (hst : s.start = some st) : InsertStartsWell key value version st ↔
      st.nodes = [] ∨ insertBody.request st.memory = some ⟨some key, some value, some version,
        some .node⟩ := by
  have hrequest : insertBody.request st.memory = some ⟨some key, some value, some version, some .node⟩ ↔
      st.memory = ⟨key, value, some version⟩ := by
    obtain ⟨pc, ⟨k, v, ver⟩, nodes⟩ := st
    cases ver <;> simp [insertBody, ReplicaClient.insertRequest]
  have hmemory := h.start st hst
  rw [hrequest, InsertStartsWell]
  refine or_congr_right ?_
  obtain ⟨pc, ⟨k, v, ver⟩, nodes⟩ := st
  cases pc <;> simp_all

theorem RemoveInv.startsWell_iff {s : Run KeyDTO KeyRequest} (h : RemoveInv key version s)
    {st : Start KeyDTO} (hst : s.start = some st) : RemoveStartsWell key version st ↔
      st.nodes = [] ∨ removeBody.request st.memory = some ⟨some key, some version, some .node⟩ := by
  have hrequest : removeBody.request st.memory = some ⟨some key, some version, some .node⟩ ↔
      st.memory = ⟨key, some version⟩ := by
    obtain ⟨pc, ⟨k, ver⟩, nodes⟩ := st
    cases ver <;> simp [removeBody, ReplicaClient.removeRequest]
  have hmemory := h.start st hst
  rw [hrequest, RemoveStartsWell]
  refine or_congr_right ?_
  obtain ⟨pc, ⟨k, ver⟩, nodes⟩ := st
  cases pc <;> simp_all

end

/-- **The replicas get what is stored if the task starts well, and a task that did not has not sent that when
it ends.** -/
theorem carriesStored_iff (key value : Str) (g : VersionNumberGenerator) :
    (∀ s, (insertSystem key value g).Reachable s →
      ((∀ st, s.start = some st → InsertStartsWell key value g.generate.1 st) →
        InsertCarries key value g.generate.1 s) ∧
      (Ended s → (InsertCarries key value g.generate.1 s ↔
        ∀ st, s.start = some st → InsertStartsWell key value g.generate.1 st))) ∧
    ∀ s, (removeSystem key g).Reachable s →
      ((∀ st, s.start = some st → RemoveStartsWell key g.generate.1 st) → RemoveCarries key g.generate.1 s) ∧
      (Ended s → (RemoveCarries key g.generate.1 s ↔
        ∀ st, s.start = some st → RemoveStartsWell key g.generate.1 st)) := by
  refine ⟨fun s hs => ?_, fun s hs => ?_⟩
  · have hi : InsertInv key value g.current s :=
      hs.invariant (fun _ hinit => hinit ▸ insertInv_call g) fun _ _ _ hi _ hs => insertInv_step hi hs
    have hcarries : (∀ st, s.start = some st → InsertStartsWell key value g.generate.1 st) →
        InsertCarries key value g.generate.1 s := fun hwell =>
      hi.task.carries hi.stored fun st hst => (hi.startsWell_iff hst).1 (hwell st hst)
    refine ⟨hcarries, fun hended => ⟨fun hc st hst => ?_, hcarries⟩⟩
    exact (hi.startsWell_iff hst).2 (hi.task.good_of_carries hended hc st hst)
  · have hi : RemoveInv key g.current s :=
      hs.invariant (fun _ hinit => hinit ▸ removeInv_call g) fun _ _ _ hi _ hs => removeInv_step hi hs
    have hcarries : (∀ st, s.start = some st → RemoveStartsWell key g.generate.1 st) →
        RemoveCarries key g.generate.1 s := fun hwell =>
      hi.task.carries hi.stored fun st hst => (hi.startsWell_iff hst).1 (hwell st hst)
    refine ⟨hcarries, fun hended => ⟨fun hc st hst => ?_, hcarries⟩⟩
    exact (hi.startsWell_iff hst).2 (hi.task.good_of_carries hended hc st hst)

/-- A task that runs at once. -/
def atOnce : List (Label KwDTO) := [.statement ⟨[], [], none⟩, .startTask (.ok [[110]]), .send 1, .send 1]

theorem carriesStored_atOnce : ∃ s, exec (step insertBody) (call ⟨[97], [1], none⟩ ⟨7⟩) atOnce = some s ∧
    InsertCarries [97] [1] 7 s := by
  obtain ⟨s, hs⟩ : ∃ s, exec (step insertBody) (call ⟨[97], [1], none⟩ ⟨7⟩) atOnce = some s :=
    Option.isSome_iff_exists.1 (by decide)
  have hpc : s.start.map Start.pc = some .versioned :=
    eq_of_map_exec hs (f := fun s => s.start.map Start.pc) (by decide)
  refine ⟨s, hs, ((carriesStored_iff [97] [1] ⟨7⟩).1 s (reachable_exec (.init rfl) hs)).1 fun st hst => ?_⟩
  rw [hst, Option.map_some, Option.some.injEq] at hpc
  rw [InsertStartsWell, hpc]
  exact .inr trivial

/-- `Insert` sends empty strings once its DTO has been moved out, and `Remove` throws. -/
theorem not_carriesStored :
    (¬ ∀ key value g s, (insertSystem key value g).Reachable s → InsertCarries key value g.generate.1 s) ∧
    ¬ ∀ key g s, (removeSystem key g).Reachable s → RemoveCarries key g.generate.1 s := by
  refine ⟨fun hall => ?_, fun hall => ?_⟩
  · let run : List (Label KwDTO) := [.statement ⟨[], [], none⟩, .statement ⟨[], [], none⟩,
      .startTask (.ok [[110]]), .send 1]
    obtain ⟨s, hs⟩ : ∃ s, exec (step insertBody) (call ⟨[97], [1], none⟩ ⟨7⟩) run = some s :=
      Option.isSome_iff_exists.1 (by decide)
    have hsent : s.sent = [([110], ⟨some [], some [], some 7, some .node⟩)] :=
      eq_of_map_exec hs (f := fun s => s.sent) (by decide)
    have hreq := (hall [97] [1] ⟨7⟩ s (reachable_exec (.init rfl) hs)).sent _
      (hsent ▸ List.mem_singleton_self _)
    exact absurd hreq (by decide)
  · let run : List (Label KeyDTO) :=
      [.statement ⟨[], none⟩, .statement ⟨[], none⟩, .startTask (.ok [[110]]), .send 1]
    obtain ⟨s, hs⟩ : ∃ s, exec (step removeBody) (call ⟨[97], none⟩ ⟨7⟩) run = some s :=
      Option.isSome_iff_exists.1 (by decide)
    have hthrew : (match s.task with | .threw => true | _ => false) = true :=
      eq_of_map_exec hs (f := fun s => match s.task with | .threw => true | _ => false) (by decide)
    refine (hall [97] ⟨7⟩ s (reachable_exec (.init rfl) hs)).notThrew ?_
    cases ht : s.task with
    | threw => rfl
    | _ => rw [ht] at hthrew; cases hthrew

end ReplicationTask

end Iu9Db
