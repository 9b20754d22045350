import Iu9Db.Views
import Iu9Db.Lib.Transition

/-!
# Coordination through ZooKeeper

The server is a linearizable store: `/master` and `/nodes/<host>` are ephemeral and vanish when the
server expires the session that owns them. A node submits requests and goes on; the server applies a
request of a live session at any time, and the node gets the answer, or a loss, at any later time. A
request that is reported lost may still be applied (`lost`). Events wait in `events`; all waiting
things are delivered in any order. A node learns that its session has expired from the event that it
gets when it connects again; the handle is then closed with everything that waits on it.
-/

namespace Iu9Db

open Transition

namespace Coordination

abbrev SessionId := Nat

/-- The codes a completion is called with: `ZOK`, `ZCONNECTIONLOSS`, `ZOPERATIONTIMEOUT`, `ZNODEEXISTS` and
`ZNONODE`. -/
inductive Rc
  | ok
  | connectionLoss
  | operationTimeout
  | nodeExists
  | noNode
deriving DecidableEq, Repr

/-- The requests, by the function that submits them. -/
inductive Op
  | bootstrapServiceDiscovery
  | registerNode
  | discoverNodes
  | tryBecomeMaster
  | checkMaster
deriving DecidableEq, Repr

/-- The arguments of a completion. -/
structure Answer (ι : Type) where
  rc : Rc
  value : Option ι
  strings : List ι
deriving DecidableEq, Repr

def Answer.ofRc {ι : Type} (rc : Rc) : Answer ι := ⟨rc, none, []⟩

/-- A request on a handle; the answer once the server has applied it. -/
structure Request (ι : Type) where
  op : Op
  answer : Option (Answer ι)
deriving DecidableEq, Repr

inductive Event
  | connected
  | disconnected
  | expiredSession
  | masterDeleted
  | nodesChanged
deriving DecidableEq, Repr

/-! ### The server -/

/-- `/master` with its owner and its data, `/nodes` with the owners of its children, and the sessions that
watch the one and the other. -/
structure Server (ι : Type) where
  nextSession : SessionId
  alive : SessionId → Bool
  master : Option (SessionId × ι)
  nodes : Bool
  registered : List (ι × SessionId)
  masterWatches : List SessionId
  nodesWatches : List SessionId

namespace Server

variable {ι : Type}

def new : Server ι := ⟨0, fun _ => false, none, false, [], [], []⟩

/-- The session that owns `/master`. -/
def owner (server : Server ι) : Option SessionId := server.master.map Prod.fst

/-- Applies a request of a session; the last component are the sessions that see `/nodes` change. -/
def apply [DecidableEq ι] (session : SessionId) (host : ι) (op : Op) (server : Server ι) :
    Answer ι × Server ι × List SessionId :=
  match op with
  | .bootstrapServiceDiscovery =>
    if server.nodes then (.ofRc .nodeExists, server, []) else (.ofRc .ok, { server with nodes := true }, [])
  | .registerNode =>
    if !server.nodes then (.ofRc .noNode, server, [])
    else if host ∈ server.registered.map Prod.fst then (.ofRc .nodeExists, server, [])
    else
      (.ofRc .ok, { server with registered := server.registered ++ [(host, session)], nodesWatches := [] },
        server.nodesWatches)
  | .discoverNodes =>
    if !server.nodes then (.ofRc .noNode, server, [])
    else
      (⟨.ok, none, server.registered.map Prod.fst⟩,
        { server with nodesWatches := session :: server.nodesWatches }, [])
  | .tryBecomeMaster =>
    match server.master with
    | some _ => (.ofRc .nodeExists, server, [])
    | none => (.ofRc .ok, { server with master := some (session, host) }, [])
  | .checkMaster =>
    match server.master with
    | some (_, value) =>
      (⟨.ok, some value, []⟩, { server with masterWatches := session :: server.masterWatches }, [])
    | none => (.ofRc .noNode, server, [])

end Server

/-! ### A node -/

/-- The globals of `zookeeper.cpp`, and what waits on the handle. The handle has no session before it has
connected for the first time. -/
structure Client (ι : Type) where
  connected : Bool
  expired : Bool
  isMaster : Bool
  masterNode : Option ι
  nodes : Option (List ι)
  session : Option SessionId
  requests : List (Request ι)
  lost : List Op
  events : List Event

namespace Client

variable {ι : Type}

def submit (op : Op) (c : Client ι) : Client ι := { c with requests := c.requests ++ [⟨op, none⟩] }

/-- `InitZookeeper`. -/
def init : Client ι :=
  (Client.mk false false false none none none [] [] []).submit .bootstrapServiceDiscovery
    |>.submit .tryBecomeMaster

/-- `SessionWatcher`, and the watchers of `/master` and `/nodes`. -/
def watcher (c : Client ι) : Event → Client ι
  | .connected =>
    let isExpired := c.expired
    let c := { c with connected := true, expired := false }
    if isExpired then (c.submit .tryBecomeMaster).submit .registerNode else c
  | .disconnected => { c with connected := false }
  | .expiredSession =>
    -- The handle is closed, and a new one opened.
    { c with
      connected := false
      isMaster := false
      expired := true
      session := none
      requests := []
      lost := []
      events := [] }
  | .masterDeleted => c.submit .tryBecomeMaster
  | .nodesChanged => c.submit .discoverNodes

/-- `CheckMasterCompletion`. -/
def checkMasterCompletion (answer : Answer ι) (c : Client ι) : Client ι :=
  match answer.rc with
  | .connectionLoss | .operationTimeout => c.submit .checkMaster
  | .ok =>
    match answer.value with
    | none => c.submit .tryBecomeMaster
    | some value => { c with masterNode := some value }
  | .noNode => c.submit .tryBecomeMaster
  | .nodeExists => c

/-- `TryBecomeMasterCompletion`. -/
def tryBecomeMasterCompletion (host : ι) (answer : Answer ι) (c : Client ι) : Client ι :=
  match answer.rc with
  | .connectionLoss | .operationTimeout => c.submit .checkMaster
  | .ok => { c with isMaster := true, masterNode := some host }
  | .nodeExists => c.submit .checkMaster
  | .noNode => c

/-- `RegisterNodeCompletion`. -/
def registerNodeCompletion (answer : Answer ι) (c : Client ι) : Client ι :=
  match answer.rc with
  | .connectionLoss | .operationTimeout => c.submit .registerNode
  | .ok | .nodeExists => c.submit .discoverNodes
  | .noNode => c

/-- `DiscoverNodesCompletion`. -/
def discoverNodesCompletion (answer : Answer ι) (c : Client ι) : Client ι :=
  match answer.rc with
  | .connectionLoss | .operationTimeout => c.submit .discoverNodes
  | .ok => { c with nodes := some answer.strings }
  | .nodeExists | .noNode => c

/-- `BootstrapServiceDiscoveryCompletion`. -/
def bootstrapServiceDiscoveryCompletion (answer : Answer ι) (c : Client ι) : Client ι :=
  match answer.rc with
  | .connectionLoss | .operationTimeout => c.submit .bootstrapServiceDiscovery
  | .ok | .nodeExists => c.submit .registerNode
  | .noNode => c

def completion (host : ι) : Op → Answer ι → Client ι → Client ι
  | .bootstrapServiceDiscovery => bootstrapServiceDiscoveryCompletion
  | .registerNode => registerNodeCompletion
  | .discoverNodes => discoverNodesCompletion
  | .tryBecomeMaster => tryBecomeMasterCompletion host
  | .checkMaster => checkMasterCompletion

/-- `IsMaster` and `IsConnectionExpired`. -/
def flags (c : Client ι) : Flags := ⟨c.isMaster, c.expired⟩

end Client

/-! ### The cluster -/

structure State (ι : Type) where
  server : Server ι
  client : ι → Client ι

inductive Label (ι : Type)
  | connect (n : ι)
  | disconnect (n : ι)
  | expire (session : SessionId)
  | apply (n : ι) (i : Nat)
  | applyLost (n : ι) (i : Nat)
  | complete (n : ι) (i : Nat)
  | lose (n : ι) (i : Nat) (isTimeout : Bool)
  | deliver (n : ι) (i : Nat)
deriving DecidableEq, Repr

namespace State

variable {ι : Type}

/-- The event reaches the nodes whose sessions are listed. -/
def fire (sessions : List SessionId) (event : Event) (s : State ι) : State ι :=
  { s with client := fun n =>
    let c := s.client n
    if c.session.any fun session => session ∈ sessions then { c with events := c.events ++ [event] } else c }

def setClient [DecidableEq ι] (s : State ι) (n : ι) (c : Client ι) : State ι :=
  { s with client := Function.update s.client n c }

def init : State ι := ⟨.new, fun _ => .init⟩

/-- The server expires a session: what it owns vanishes, and its watches with it. -/
def expireSession (session : SessionId) (s : State ι) : State ι :=
  let server := s.server
  let ownsMaster := server.owner = some session
  let ownsNode := server.registered.any fun node => node.2 = session
  let s := { s with server := { server with
    alive := fun id => if id = session then false else server.alive id
    master := if ownsMaster then none else server.master
    registered := server.registered.filter fun node => node.2 ≠ session
    masterWatches := if ownsMaster then [] else server.masterWatches.filter (· ≠ session)
    nodesWatches := if ownsNode then [] else server.nodesWatches.filter (· ≠ session) } }
  let s := if ownsMaster then s.fire (server.masterWatches.filter (· ≠ session)) .masterDeleted else s
  if ownsNode then s.fire (server.nodesWatches.filter (· ≠ session)) .nodesChanged else s

end State

variable {ι : Type} [DecidableEq ι]

def step (s : State ι) : Label ι → Option (State ι)
  | .connect n =>
    let c := s.client n
    match c.session with
    | some session =>
      let event := if s.server.alive session then Event.connected else .expiredSession
      some (s.setClient n { c with events := c.events ++ [event] })
    | none =>
      let session := s.server.nextSession
      some (State.setClient { s with server := { s.server with
          nextSession := session + 1
          alive := fun id => if id = session then true else s.server.alive id } }
        n { c with session := some session, events := c.events ++ [.connected] })
  | .disconnect n =>
    let c := s.client n
    some (s.setClient n { c with events := c.events ++ [.disconnected] })
  | .expire session => if s.server.alive session then some (s.expireSession session) else none
  | .apply n i =>
    let c := s.client n
    match c.session, c.requests[i]? with
    | some session, some ⟨op, none⟩ =>
      if s.server.alive session then
        let (answer, server, watching) := s.server.apply session n op
        some (State.fire watching .nodesChanged
          ({ s with server := server }.setClient n { c with requests := c.requests.set i ⟨op, some answer⟩ }))
      else none
    | _, _ => none
  | .applyLost n i =>
    let c := s.client n
    match c.session, c.lost[i]? with
    | some session, some op =>
      if s.server.alive session then
        let (_, server, watching) := s.server.apply session n op
        some (State.fire watching .nodesChanged
          ({ s with server := server }.setClient n { c with lost := c.lost.eraseIdx i }))
      else none
    | _, _ => none
  | .complete n i =>
    let c := s.client n
    match c.requests[i]? with
    | some ⟨op, some answer⟩ =>
      some (s.setClient n (Client.completion n op answer { c with requests := c.requests.eraseIdx i }))
    | _ => none
  | .lose n i isTimeout =>
    let c := s.client n
    match c.requests[i]? with
    | some ⟨op, answer⟩ =>
      let c := { c with
        requests := c.requests.eraseIdx i
        lost := if answer.isSome then c.lost else c.lost ++ [op] }
      some (s.setClient n
        (Client.completion n op (.ofRc (if isTimeout then .operationTimeout else .connectionLoss)) c))
    | none => none
  | .deliver n i =>
    let c := s.client n
    match c.events[i]? with
    | some event => some (s.setClient n (Client.watcher { c with events := c.events.eraseIdx i } event))
    | none => none

def system : System (State ι) (Label ι) := ofFun (· = .init) step

end Coordination

end Iu9Db
