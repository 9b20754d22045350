import Iu9Db.Basic
import Iu9Db.Lib.Versioned

/-!
# Messages between nodes, and `Replication`

The messages of `api.proto` with fields that may be absent: `has_version()` is `version?.isSome`, and
`version()` is zero where the field is absent. `Replication` sends them to every node of the list; a
request that fails is repeated four times.
-/

namespace Iu9Db

/-! ### `api.proto` -/

/-- `iu9db::Source`. -/
inductive Source
  | client
  | node
deriving DecidableEq, Repr

structure KeyValueRequest where
  key? : Option Str
  value? : Option Str
  version? : Option UInt64
  source? : Option Source
deriving DecidableEq, Repr

structure KeyRequest where
  key? : Option Str
  version? : Option UInt64
  source? : Option Source
deriving DecidableEq, Repr

structure GetRequest where
  key? : Option Str
  source? : Option Source
  isMaster? : Option Bool
deriving DecidableEq, Repr

structure GetReply where
  value? : Option Str
  version? : Option UInt64
deriving DecidableEq, Repr

structure EmptyReply where
deriving DecidableEq, Repr

/-- `key()`, `value()`: empty if absent. -/
abbrev stringField (field? : Option Str) : Str := field?.getD []

/-- `version()`: zero if absent. -/
abbrev uint64Field (field? : Option UInt64) : UInt64 := field?.getD 0

/-- `source()`: a client if absent. -/
abbrev sourceField (field? : Option Source) : Source := field?.getD .client

/-! ### Data transfer objects -/

structure KwDTO where
  key : Str
  value : Str
  version : Option UInt64
deriving DecidableEq, Repr

structure KeyDTO where
  key : Str
  version : Option UInt64
deriving DecidableEq, Repr

structure GetRequestDTO where
  key : Str
deriving DecidableEq, Repr

/-! ### Requests to one replica -/

/-- The loop of `MakeRequestWithBackoff`: `attempt i` is what the `i`-th request comes to. -/
def backoffLoop {α : Type} (attempt : Nat → Result α) : Nat → Nat → Result α → Result α
  | 0, _, got => got
  | n + 1, i, _ =>
    match attempt i with
    | .ok res => .ok res
    | .error e => backoffLoop attempt n (i + 1) (.error e)

/-- How often a request is made before it counts as failed. -/
def kAttempts : Nat := 5

def makeRequestWithBackoff {α : Type} (attempt : Nat → Result α) (initial : α) : Result α :=
  backoffLoop attempt kAttempts 0 (.ok initial)

namespace ReplicaClient

/-- The request that `ReplicaClient::Get` sends. -/
def getRequest (data : GetRequestDTO) : GetRequest := ⟨some data.key, some .node, none⟩

/-- `ReplicaClient::Get`. -/
def get (attempt : Nat → Result GetReply) : Result ValueDTO :=
  match makeRequestWithBackoff attempt ⟨none, none⟩ with
  | .error e => .error (wrapError e (text "get"))
  | .ok reply => .ok ⟨stringField reply.value?, uint64Field reply.version?⟩

/-- The request that `ReplicaClient::Insert` sends; `data.version.value()` throws if there is none. -/
def insertRequest (data : KwDTO) : Option KeyValueRequest :=
  data.version.map fun version => ⟨some data.key, some data.value, some version, some .node⟩

/-- The request that `ReplicaClient::Remove` sends. -/
def removeRequest (data : KeyDTO) : Option KeyRequest :=
  data.version.map fun version => ⟨some data.key, some version, some .node⟩

end ReplicaClient

/-! ### The newest answer -/

/-- One turn of the loop in `GetNewestFromReplicas`. -/
def newer (result err : Result ValueDTO) : Result ValueDTO :=
  match err with
  | .error _ => result
  | .ok got =>
    match result with
    | .ok best => if best.version < got.version then .ok got else .ok best
    | .error _ => .ok got

/-- `Replication::GetNewestFromReplicas`; `outcomes` is what `ReplicaClient::Get` returned for each node of
the list, in the order of the list, or why there is no list. -/
def getNewestFromReplicas (outcomes : Result (List (Result ValueDTO))) : Result ValueDTO :=
  match outcomes with
  | .error e => .error (wrapError e (text "failed to get nodes list"))
  | .ok outcomes => outcomes.foldl newer (.error (makeError (text "failed to retrieve value from replicas")))

/-- The replies among the outcomes. -/
def replies (outcomes : Result (List (Result ValueDTO))) : List ValueDTO :=
  match outcomes with
  | .error _ => []
  | .ok outcomes => outcomes.filterMap Except.toOption

/-- The loop keeps the first reply of the greatest version. -/
theorem toOption_getNewestFromReplicas (outcomes : Result (List (Result ValueDTO))) :
    (getNewestFromReplicas outcomes).toOption = Versioned.newestOf ValueDTO.version (replies outcomes) := by
  cases outcomes with
  | error e => rfl
  | ok outcomes =>
    unfold getNewestFromReplicas replies
    dsimp only
    induction outcomes using List.reverseRecOn with
    | nil => rfl
    | append_singleton outcomes err ih =>
      rw [List.foldl_append, List.foldl_cons, List.foldl_nil, List.filterMap_append]
      cases err with
      | error e =>
        have hnone : [(.error e : Result ValueDTO)].filterMap Except.toOption = [] := rfl
        rw [hnone, List.append_nil, ← ih]
        rfl
      | ok got =>
        have hsingle : [(.ok got : Result ValueDTO)].filterMap Except.toOption = [got] := rfl
        rw [hsingle, Versioned.newestOf_concat, ← ih]
        cases outcomes.foldl newer _ with
        | error e => rfl
        | ok best =>
          by_cases hlt : best.version < got.version <;> simp [newer, hlt, Except.toOption]

end Iu9Db
