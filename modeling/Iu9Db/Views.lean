import Iu9Db.Controller

/-!
# Handlers and middlewares

A handler turns a request into a call of the controller and its result into a reply. The middlewares
around it ask the coordination module, before and after, whether the node may answer at all. A handler
is a function of the node's state; `Flags` is what the coordination module says at one moment.
-/

namespace Iu9Db

structure Flags where
  isMaster : Bool
  isConnectionExpired : Bool
deriving DecidableEq, Repr

abbrev Handler (σ ρ : Type) := σ → Result ρ × σ

/-! ### Middlewares -/

def notMaster : Error := makeError (text "node is not master") .kNotMaster

def notConnected : Error := makeError (text "node is not connected to cluster") .kNotConnected

section
variable {σ ρ : Type} (before after : Flags)

/-- `WithIsMasterMiddleware`: a request of another node passes. -/
def withIsMasterMiddleware (source : Source) (handler : Handler σ ρ) : Handler σ ρ := fun s =>
  if source = .node then handler s
  else if !before.isMaster then (.error notMaster, s)
  else
    let (res, s) := handler s
    if !after.isMaster then (.error notMaster, s) else (res, s)

/-- `WithIsMasterMiddleware<GetController, GetRPC>`: only the master answers if the request says so. -/
def withIsMasterMiddlewareGet (request : GetRequest) (handler : Handler σ GetReply) :
    Handler σ GetReply := fun s =>
  if sourceField request.source? = .node then handler s
  else if request.isMaster?.getD false && !before.isMaster then (.error notMaster, s)
  else
    let (res, s) := handler s
    if request.isMaster?.getD false && !after.isMaster then (.error notMaster, s) else (res, s)

/-- `WithIsExpiredMiddleware`. -/
def withIsExpiredMiddleware (handler : Handler σ ρ) : Handler σ ρ := fun s =>
  if before.isConnectionExpired then (.error notConnected, s)
  else
    let (res, s) := handler s
    if after.isConnectionExpired then (.error notConnected, s) else (res, s)

end

inductive StatusCode
  | notFound
  | failedPrecondition
  | unavailable
  | unknown
deriving DecidableEq, Repr

/-- `WithErrorHandlingMiddleware`: the reply, or a status with a message. -/
def withErrorHandlingMiddleware {ρ : Type} (got : Result ρ) : Except (StatusCode × Str) ρ :=
  match got with
  | .error error =>
    if error.wraps .kNotFound then .error (.notFound, error.what)
    else if error.wraps .kNotMaster then .error (.failedPrecondition, error.what)
    else if error.wraps .kNotConnected then .error (.unavailable, error.what)
    else .error (.unknown, text "unknown error")
  | .ok reply => .ok reply

/-! ### Handlers -/

/-- `InsertHandler`. -/
def insertHandler (isOk : Bool) (request : KeyValueRequest) : Handler Controller EmptyReply := fun c =>
  match c.insert isOk
    ⟨stringField request.key?, stringField request.value?, some (uint64Field request.version?)⟩ with
  | (.error e, c) => (.error (wrapError e (text "insert controller failed")), c)
  | (.ok _, c) => (.ok ⟨⟩, c)

/-- `RemoveHandler`. -/
def removeHandler (isOk : Bool) (request : KeyRequest) : Handler Controller EmptyReply := fun c =>
  match c.remove isOk ⟨stringField request.key?, some (uint64Field request.version?)⟩ with
  | (.error e, c) => (.error (wrapError e (text "remove controller failed")), c)
  | (.ok _, c) => (.ok ⟨⟩, c)

/-- The reply of `GetHandler` to what the controller returned. -/
def getReply : Result ValueDTO → Result GetReply
  | .error e => .error (wrapError e (text "get controller failed"))
  | .ok got => .ok ⟨some got.value, some got.version⟩

/-- `GetHandler`. -/
def getHandler (isOk : Bool) (outcomes : Result (List (Result ValueDTO))) (request : GetRequest) :
    Handler Controller GetReply := fun c =>
  let (got, c) := c.get isOk ⟨stringField request.key?⟩ outcomes
  (getReply got, c)

namespace HandlersProxy

variable (before after : Flags)

/-- `HandlersProxy::InsertHandler`, up to the reply. -/
def insertHandler (isOk : Bool) (request : KeyValueRequest) : Handler Controller EmptyReply :=
  withIsExpiredMiddleware before after
    (withIsMasterMiddleware before after (sourceField request.source?) (Iu9Db.insertHandler isOk request))

/-- `HandlersProxy::RemoveHandler`, up to the reply. -/
def removeHandler (isOk : Bool) (request : KeyRequest) : Handler Controller EmptyReply :=
  withIsExpiredMiddleware before after
    (withIsMasterMiddleware before after (sourceField request.source?) (Iu9Db.removeHandler isOk request))

/-- `HandlersProxy::GetHandler`, up to the reply. -/
def getHandler (isOk : Bool) (outcomes : Result (List (Result ValueDTO))) (request : GetRequest) :
    Handler Controller GetReply :=
  withIsExpiredMiddleware before after
    (withIsMasterMiddlewareGet before after request (Iu9Db.getHandler isOk outcomes request))

end HandlersProxy

end Iu9Db
