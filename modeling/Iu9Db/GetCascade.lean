import Iu9Db.Views
import Iu9Db.Lib.Transition

/-!
# The requests that one `Get` sets off

The handlers of one `Get` and of the `Get` requests sent on its behalf, as a stack: each handler asks the
hosts of its node's list one after another and waits for the reply. `DTO`s do not carry the source of a
request, so that the handler of a request from a node asks every host again, its own among them. It asks from
within a visit of `host_to_client_`, and a second handler on its node waits until the visit is over. Without
timeouts the handlers end up waiting for each other (`answer_eq_none`).
-/

namespace Iu9Db

open Transition

namespace GetCascade

/-- What the coordination module of each node says, the hosts of its list, and the lock of
`host_to_client_` under which it keeps the client of a host. The map has a lock for a group of
elements; a visit holds it exclusively. -/
structure Cluster (ι : Type) where
  flags : ι → Flags
  nodes : ι → Result (List ι)
  lock : ι → ι → Nat

/-- A running `GetHandler`, in the loop of `GetNewestFromReplicas`: the hosts from the one that is asked on,
how often it has been asked, and the newest reply. -/
structure Frame (ι : Type) where
  node : ι
  request : GetRequest
  hosts : List ι
  attempt : Nat
  newest : Result ValueDTO

structure State (ι : Type) where
  storages : ι → StorageSystem
  stack : List (Frame ι)
  /-- All `Get` requests sent, and those of them that a handler of a request from a node sent. -/
  sent : Nat
  sentForNodes : Nat
  answer : Option (Result GetReply)

/-! ### The two halves of a handler -/

/-- What the middlewares check before the handler. -/
def checkBefore (flags : Flags) (request : GetRequest) : Result Unit :=
  if flags.isConnectionExpired then .error notConnected
  else if sourceField request.source? = .node then .ok ()
  else if request.isMaster?.getD false && !flags.isMaster then .error notMaster
  else .ok ()

/-- What the middlewares make of the handler's result. -/
def checkAfter (flags : Flags) (request : GetRequest) (res : Result GetReply) : Result GetReply :=
  match checkBefore flags request with
  | .error e => .error e
  | .ok _ => res

/-- The two halves around the handler are the middlewares, for flags that do not change meanwhile. -/
theorem getHandler_eq (flags : Flags) (isOk : Bool) (outcomes : Result (List (Result ValueDTO)))
    (request : GetRequest) (c : Controller) :
    HandlersProxy.getHandler flags flags isOk outcomes request c =
      match checkBefore flags request with
      | .error e => (.error e, c)
      | .ok _ =>
        (checkAfter flags request (getHandler isOk outcomes request c).1,
          (getHandler isOk outcomes request c).2) := by
  unfold HandlersProxy.getHandler withIsExpiredMiddleware withIsMasterMiddlewareGet checkAfter checkBefore
  cases flags.isConnectionExpired <;> cases sourceField request.source? <;>
    cases request.isMaster?.getD false <;> cases flags.isMaster <;> rfl

variable {ι : Type}

/-- The handler of a request, up to the first host of the list. -/
def start (cl : Cluster ι) (node : ι) (request : GetRequest) : Result (Frame ι) :=
  match checkBefore (cl.flags node) request with
  | .error e => .error e
  | .ok _ =>
    match cl.nodes node with
    | .error e => .ok ⟨node, request, [], 0, .error (wrapError e (text "failed to get nodes list"))⟩
    | .ok hosts =>
      .ok ⟨node, request, hosts, 0, .error (makeError (text "failed to retrieve value from replicas"))⟩

/-- A reply of the host that is asked: the next host, or another attempt. -/
def Frame.receive (frame : Frame ι) : Result GetReply → Frame ι
  | .ok reply =>
    { frame with
      hosts := frame.hosts.tail
      attempt := 0
      newest := newer frame.newest (.ok ⟨stringField reply.value?, uint64Field reply.version?⟩) }
  | .error _ =>
    if frame.attempt + 1 < kAttempts then { frame with attempt := frame.attempt + 1 }
    else { frame with hosts := frame.hosts.tail, attempt := 0 }

/-- A handler that waits for a reply is on the same node, in a visit that holds the lock of the host's
client. -/
def held [DecidableEq ι] (cl : Cluster ι) (node host : ι) (waiting : List (Frame ι)) : Bool :=
  waiting.any fun frame =>
    frame.node = node && frame.hosts.head?.any fun h => cl.lock node h = cl.lock node host

/-- The running handler asks the next host, once it has the lock; without a host it answers from what
it has. -/
def step [DecidableEq ι] (cl : Cluster ι) (s : State ι) : Option (State ι) :=
  match s.stack with
  | [] => none
  | frame :: below =>
    let data : GetRequestDTO := ⟨stringField frame.request.key?⟩
    match frame.hosts with
    | host :: _ =>
      if held cl frame.node host below then none else
      let s := { s with
        sent := s.sent + 1
        sentForNodes := s.sentForNodes + if sourceField frame.request.source? = Source.node then 1 else 0 }
      match start cl host (ReplicaClient.getRequest data) with
      | .error e => some { s with stack := frame.receive (.error e) :: below }
      | .ok callee => some { s with stack := callee :: frame :: below }
    | [] =>
      let (got, storage) := getLocal true data frame.newest (s.storages frame.node)
      let reply := checkAfter (cl.flags frame.node) frame.request (getReply got)
      let s := { s with storages := Function.update s.storages frame.node storage }
      match below with
      | [] => some { s with stack := [], answer := some reply }
      | caller :: below => some { s with stack := caller.receive reply :: below }

/-- A client's request arrives at a node. -/
def arrive (cl : Cluster ι) (node : ι) (request : GetRequest) (storages : ι → StorageSystem) : State ι :=
  match start cl node request with
  | .error e => ⟨storages, [], 0, 0, some (.error e)⟩
  | .ok frame => ⟨storages, [frame], 0, 0, none⟩

def system [DecidableEq ι] (cl : Cluster ι) (node : ι) (request : GetRequest) (storages : ι → StorageSystem) :
    System (State ι) Unit :=
  ofFun (· = arrive cl node request storages) fun s _ => step cl s

/-- Finitely many `Get` requests are sent, and none by the handler of a request from a node, which
answers without waiting for anyone. -/
structure Finite [DecidableEq ι] (cl : Cluster ι) (node : ι) (request : GetRequest)
    (storages : ι → StorageSystem) : Prop where
  bounded : ∃ n, ∀ s, (system cl node request storages).Reachable s → s.sent ≤ n
  silent : ∀ s, (system cl node request storages).Reachable s → s.sentForNodes = 0
  answers : ∀ s frame below, (system cl node request storages).Reachable s → s.stack = frame :: below →
    sourceField frame.request.source? = .node →
    ∃ s', step cl s = some s' ∧ s'.sent = s.sent ∧ s'.stack.length = below.length

/-- The middlewares of the node turn the request away. -/
def TurnedAway (cl : Cluster ι) (node : ι) (request : GetRequest) : Prop :=
  (cl.flags node).isConnectionExpired = true ∨
    request.isMaster?.getD false = true ∧ (cl.flags node).isMaster = false

section
variable {cl : Cluster ι} {node : ι} {request : GetRequest} {storages : ι → StorageSystem} {s : State ι}

/-- The running handler is on a node that is not expired, and has that node still to ask. -/
def Live (cl : Cluster ι) (s : State ι) : Prop :=
  ∃ frame below, s.stack = frame :: below ∧ (cl.flags frame.node).isConnectionExpired = false ∧
    frame.node ∈ frame.hosts

theorem start_ok {host : ι} (h : (checkBefore (cl.flags host) request).isOk = true) {hosts : List ι}
    (hl : cl.nodes host = .ok hosts) : start cl host request =
      .ok ⟨host, request, hosts, 0, .error (makeError (text "failed to retrieve value from replicas"))⟩ := by
  unfold start
  cases ha : checkBefore (cl.flags host) request with
  | error e => rw [ha] at h; cases h
  | ok u => simp only [hl]

theorem isOk_checkBefore_node (flags : Flags) (data : GetRequestDTO) :
    (checkBefore flags (ReplicaClient.getRequest data)).isOk = !flags.isConnectionExpired := by
  unfold checkBefore
  cases flags.isConnectionExpired <;> rfl

theorem held_nil [DecidableEq ι] (node host : ι) : held cl node host [] = false := rfl

/-- What a step at a host does: it sends a request, which the host turns away or handles. -/
theorem step_host [DecidableEq ι] {frame : Frame ι} {below : List (Frame ι)} {host : ι} {rest : List ι}
    {s' : State ι} (hstack : s.stack = frame :: below) (hhosts : frame.hosts = host :: rest)
    (hs : step cl s = some s') :
    held cl frame.node host below = false ∧ s'.sent = s.sent + 1 ∧ s'.answer = s.answer ∧
      ((∃ e, start cl host (ReplicaClient.getRequest ⟨stringField frame.request.key?⟩) = .error e ∧
        s'.stack = frame.receive (.error e) :: below) ∨
      ∃ callee, start cl host (ReplicaClient.getRequest ⟨stringField frame.request.key?⟩) = .ok callee ∧
        s'.stack = callee :: frame :: below) := by
  simp only [step, hstack, hhosts] at hs
  split at hs
  · cases hs
  · rename_i hheld
    refine ⟨Bool.eq_false_iff.2 hheld, ?_⟩
    split at hs <;> cases hs
    · exact ⟨rfl, rfl, .inl ⟨_, ‹_›, rfl⟩⟩
    · exact ⟨rfl, rfl, .inr ⟨_, ‹_›, rfl⟩⟩

/-- A host that is not expired handles the request of a node, and its handler has that host still to ask. -/
theorem start_node (hself : ∀ n, ∃ hosts, cl.nodes n = .ok hosts ∧ n ∈ hosts) (host : ι)
    (data : GetRequestDTO) : ((cl.flags host).isConnectionExpired = true ∧
      start cl host (ReplicaClient.getRequest data) = .error notConnected) ∨
    ∃ callee, start cl host (ReplicaClient.getRequest data) = .ok callee ∧ callee.node = host ∧
      (cl.flags host).isConnectionExpired = false ∧ host ∈ callee.hosts ∧
      sourceField callee.request.source? = .node := by
  cases hexpired : (cl.flags host).isConnectionExpired with
  | true => exact .inl ⟨rfl, by simp [start, checkBefore, hexpired]⟩
  | false =>
    obtain ⟨hosts, hl, hhost⟩ := hself host
    have hcheck : (checkBefore (cl.flags host) (ReplicaClient.getRequest data)).isOk = true := by
      rw [isOk_checkBefore_node, hexpired]
      rfl
    exact .inr ⟨_, start_ok hcheck hl, rfl, rfl, hhost, rfl⟩

/-- After an error the handler asks the same host again, or the next one; it comes to its own node all
the same. -/
theorem Frame.receive_error {frame : Frame ι} {host : ι} {rest : List ι} (e : Error)
    (hhosts : frame.hosts = host :: rest) (hne : frame.node ≠ host) (hmem : frame.node ∈ frame.hosts) :
    (frame.receive (.error e)).node = frame.node ∧ frame.node ∈ (frame.receive (.error e)).hosts := by
  rw [hhosts] at hmem
  unfold Frame.receive
  dsimp only
  split
  · exact ⟨rfl, hhosts ▸ hmem⟩
  · exact ⟨rfl, by rw [hhosts]; exact (List.mem_cons.1 hmem).resolve_left hne⟩

/-- **Every step of a live state leads to a live state**, without an answer. -/
theorem step_live [DecidableEq ι] (hself : ∀ n, ∃ hosts, cl.nodes n = .ok hosts ∧ n ∈ hosts) (h : Live cl s)
    {s' : State ι} (hs : step cl s = some s') : Live cl s' ∧ s'.answer = s.answer := by
  obtain ⟨frame, below, hstack, hflags, hmem⟩ := h
  obtain ⟨host, rest, hhosts⟩ := List.exists_cons_of_ne_nil (List.ne_nil_of_mem hmem)
  obtain ⟨-, -, hanswer, hcases⟩ := step_host hstack hhosts hs
  refine ⟨?_, hanswer⟩
  rcases start_node hself host ⟨stringField frame.request.key?⟩ with ⟨hexpired, herror⟩ |
    ⟨callee, hok, rfl, hnode⟩
  · -- The host turns the request away; it is not the node itself, which is asked later.
    have hne : frame.node ≠ host := by
      rintro rfl
      rw [hflags] at hexpired
      cases hexpired
    rcases hcases with ⟨e, -, hstack'⟩ | ⟨callee, hcallee, -⟩
    · obtain ⟨hnode, hmem'⟩ := Frame.receive_error e hhosts hne hmem
      exact ⟨_, below, hstack', hnode ▸ hflags, hnode ▸ hmem'⟩
    · rw [herror] at hcallee
      cases hcallee
  · rcases hcases with ⟨e, herror, -⟩ | ⟨callee', hcallee, hstack'⟩
    · rw [herror] at hok
      cases hok
    · obtain rfl := Except.ok.inj (hok.symm.trans hcallee)
      exact ⟨callee, frame :: below, hstack', hnode.1, hnode.2.1⟩

theorem isOk_checkBefore_client (hclient : sourceField request.source? = .client) :
    (checkBefore (cl.flags node) request).isOk = true ↔ ¬ TurnedAway cl node request := by
  unfold checkBefore TurnedAway
  rw [hclient]
  cases (cl.flags node).isConnectionExpired <;> cases request.isMaster?.getD false <;>
    cases (cl.flags node).isMaster <;> simp [Except.isOk, Except.toBool]

/-- The client's handler is the only one, and has its node still to ask. -/
def Alone (cl : Cluster ι) (s : State ι) : Prop :=
  ∃ frame, s.stack = [frame] ∧ (cl.flags frame.node).isConnectionExpired = false ∧ frame.node ∈ frame.hosts ∧
    frame.attempt < kAttempts

theorem alone_arrive (hself : ∀ n, ∃ hosts, cl.nodes n = .ok hosts ∧ n ∈ hosts)
    (hclient : sourceField request.source? = .client) (h : ¬ TurnedAway cl node request) :
    Alone cl (arrive cl node request storages) ∧ (arrive cl node request storages).answer = none := by
  obtain ⟨hosts, hl, hmem⟩ := hself node
  have hstart := start_ok ((isOk_checkBefore_client hclient).2 h) hl
  unfold arrive
  rw [hstart]
  exact ⟨⟨_, rfl, Bool.eq_false_iff.2 fun hexpired => h (.inl hexpired), hmem, Nat.succ_pos _⟩, rfl⟩

variable [DecidableEq ι]

/-- How often the client's handler may ask before it comes to a host that is not expired. -/
def attemptsLeft (s : State ι) : Nat :=
  match s.stack with
  | [frame] => frame.hosts.length * kAttempts - frame.attempt
  | _ => 0

/-- A handler of a request from a node has a host to ask. -/
def Asking (s : State ι) : Prop :=
  ∃ frame below, s.stack = frame :: below ∧ sourceField frame.request.source? = .node ∧ frame.hosts ≠ []

theorem step_alone (hself : ∀ n, ∃ hosts, cl.nodes n = .ok hosts ∧ n ∈ hosts) (h : Alone cl s) :
    ∃ s', step cl s = some s' ∧ (Asking s' ∨ Alone cl s') ∧ attemptsLeft s' < attemptsLeft s := by
  obtain ⟨frame, hstack, hflags, hmem, hattempt⟩ := h
  obtain ⟨host, rest, hhosts⟩ := List.exists_cons_of_ne_nil (List.ne_nil_of_mem hmem)
  have hstep : ∃ s', step cl s = some s' := by
    simp only [step, hstack, hhosts, held_nil, Bool.false_eq_true, if_false]
    split <;> exact ⟨_, rfl⟩
  obtain ⟨s', hs'⟩ := hstep
  obtain ⟨-, -, -, hcases⟩ := step_host hstack hhosts hs'
  refine ⟨s', hs', ?_⟩
  rcases hcases with ⟨e, herror, hstack'⟩ | ⟨callee, hcallee, hstack'⟩
  · have hne : frame.node ≠ host := by
      rintro rfl
      rcases start_node hself frame.node ⟨stringField frame.request.key?⟩ with ⟨hexpired, -⟩ |
        ⟨callee, hok, -⟩
      · rw [hflags] at hexpired
        cases hexpired
      · rw [herror] at hok
        cases hok
    obtain ⟨hnode, hmem'⟩ := Frame.receive_error e hhosts hne hmem
    refine ⟨.inr ⟨_, hstack', hnode ▸ hflags, hnode ▸ hmem', ?_⟩, ?_⟩
    · unfold Frame.receive
      dsimp only
      split
      · assumption
      · exact Nat.succ_pos _
    · unfold attemptsLeft
      rw [hstack, hstack']
      unfold Frame.receive
      dsimp only
      split
      · show frame.hosts.length * kAttempts - (frame.attempt + 1) <
          frame.hosts.length * kAttempts - frame.attempt
        rw [hhosts, List.length_cons, Nat.succ_mul]
        omega
      · show frame.hosts.tail.length * kAttempts - 0 < frame.hosts.length * kAttempts - frame.attempt
        rw [hhosts, List.tail_cons, List.length_cons, Nat.succ_mul]
        omega
  · rcases start_node hself host ⟨stringField frame.request.key?⟩ with ⟨-, herror⟩ |
      ⟨callee', hok, -, -, hhost, hsource⟩
    · rw [herror] at hcallee
      cases hcallee
    · obtain rfl := Except.ok.inj (hok.symm.trans hcallee)
      refine ⟨.inl ⟨callee', [frame], hstack', hsource, List.ne_nil_of_mem hhost⟩, ?_⟩
      unfold attemptsLeft
      rw [hstack, hstack']
      dsimp only
      rw [hhosts, List.length_cons, Nat.succ_mul]
      omega

/-- A request that is not turned away leads to a handler of a request from a node that has a host to ask. -/
theorem exists_asking (hself : ∀ n, ∃ hosts, cl.nodes n = .ok hosts ∧ n ∈ hosts)
    (hclient : sourceField request.source? = .client) (h : ¬ TurnedAway cl node request) :
    ∃ s, (system cl node request storages).Reachable s ∧ Asking s := by
  have hinit : (system cl node request storages).Reachable (arrive cl node request storages) := .init rfl
  obtain ⟨s, hs, -, hasking⟩ := hinit.reaches (L := fun s => Asking s ∨ Alone cl s) (G := Asking)
    (μ := attemptsLeft) (.inr (alone_arrive hself hclient h).1) fun s hl => by
      rcases hl with hasking | halone
      · exact .inl hasking
      · obtain ⟨s', hstep, hl', hlt⟩ := step_alone hself halone
        exact .inr ⟨(), s', trivial, hstep, hl', hlt⟩
  exact ⟨s, hs, hasking⟩

/-- With no timeouts, a request that is not turned away is never answered. -/
theorem answer_eq_none (hself : ∀ n, ∃ hosts, cl.nodes n = .ok hosts ∧ n ∈ hosts)
    (hclient : sourceField request.source? = .client) (h : ¬ TurnedAway cl node request)
    (hs : (system cl node request storages).Reachable s) : s.answer = none := by
  refine (hs.invariant (I := fun s => Live cl s ∧ s.answer = none)
    (fun s hinit => ?_) fun s _ s' ⟨hl, ha⟩ _ hstep => ?_).2
  · have halone : Alone cl (arrive cl node request storages) ∧ (arrive cl node request storages).answer =
      none :=
      alone_arrive hself hclient h
    obtain ⟨⟨frame, hstack, hflags, hmem, -⟩, ha⟩ := halone
    exact hinit ▸ ⟨⟨frame, [], hstack, hflags, hmem⟩, ha⟩
  · obtain ⟨hl', ha'⟩ := step_live hself hl hstep
    exact ⟨hl', ha'.trans ha⟩

theorem finite_of_turnedAway (hclient : sourceField request.source? = .client)
    (h : TurnedAway cl node request) : Finite cl node request storages := by
  have hidle : ∀ s, (system cl node request storages).Reachable s →
      s.stack = [] ∧ s.sent = 0 ∧ s.sentForNodes = 0 := by
    intro s hs
    refine hs.invariant (I := fun s => s.stack = [] ∧ s.sent = 0 ∧ s.sentForNodes = 0) (fun s hinit => ?_)
      fun s _ s' ⟨hstack, _, _⟩ _ hstep => ?_
    · have hstart : ∃ e, start cl node request = .error e := by
        unfold start
        cases ha : checkBefore (cl.flags node) request with
        | error e => exact ⟨e, rfl⟩
        | ok u => exact absurd h ((isOk_checkBefore_client hclient).1 (by rw [ha]; rfl))
      obtain ⟨e, he⟩ := hstart
      rw [hinit, arrive, he]
      exact ⟨rfl, rfl, rfl⟩
    · simp [system, ofFun, step, hstack] at hstep
  refine ⟨⟨0, fun s hs => (hidle s hs).2.1.le⟩, fun s hs => (hidle s hs).2.2,
    fun s frame below hs hstack _ => ?_⟩
  rw [(hidle s hs).1] at hstack
  cases hstack

end

/-- **A client's `Get` sets off finitely many requests, and none by the handler of one of them,
exactly when it is turned away.** -/
theorem finite_iff {ι : Type} [DecidableEq ι] (cl : Cluster ι) (node : ι) (request : GetRequest)
    (storages : ι → StorageSystem) (hself : ∀ n, ∃ hosts, cl.nodes n = .ok hosts ∧ n ∈ hosts)
    (hclient : sourceField request.source? = .client) :
    Finite cl node request storages ↔ TurnedAway cl node request := by
  constructor
  · intro hf
    by_contra h
    have hasking : ∃ s, (system cl node request storages).Reachable s ∧ Asking s :=
      exists_asking hself hclient h
    obtain ⟨s, hs, frame, below, hstack, hsource, hne⟩ := hasking
    obtain ⟨host, rest, hhosts⟩ := List.exists_cons_of_ne_nil hne
    obtain ⟨s', hstep, hsent, -⟩ := hf.answers s frame below hs hstack hsource
    -- It does not answer: it sends a request or waits for the lock.
    obtain ⟨-, hsent', -, -⟩ := step_host hstack hhosts hstep
    omega
  · exact finite_of_turnedAway hclient

/-- A cluster of two nodes, each of which lists both. -/
def twoNodes (isExpired : Bool) : Cluster Bool :=
  ⟨fun _ => ⟨true, isExpired⟩, fun _ => .ok [false, true], fun _ host => if host then 1 else 0⟩

def clientGet : GetRequest := ⟨some [97], some .client, none⟩

theorem mem_twoNodes (isExpired : Bool) (n : Bool) : ∃ hosts, (twoNodes isExpired).nodes n = .ok hosts ∧
    n ∈ hosts :=
  ⟨[false, true], rfl, by cases n <;> simp⟩

theorem finite_expired : Finite (twoNodes true) true clientGet fun _ => .new :=
  (finite_iff (twoNodes true) true clientGet _ (mem_twoNodes true) rfl).2 (.inl rfl)

/-- The second node asks the first one, whose handler sends a request to itself. -/
theorem not_finite : ¬ ∀ (ι : Type) (_ : DecidableEq ι) (cl : Cluster ι) (node : ι) (request : GetRequest)
    (storages : ι → StorageSystem), (∀ n, ∃ hosts, cl.nodes n = .ok hosts ∧ n ∈ hosts) →
    sourceField request.source? = .client → Finite cl node request storages := by
  intro hall
  have hsilent :=
    (hall Bool inferInstance (twoNodes false) true clientGet (fun _ => .new) (mem_twoNodes false) rfl).silent
  let s := arrive (twoNodes false) true clientGet fun _ => .new
  obtain ⟨s', hs'⟩ : ∃ s', exec (fun s (_ : Unit) => step (twoNodes false) s) s [(), ()] = some s' :=
    Option.isSome_iff_exists.1 (by decide +kernel)
  have hsent : s'.sentForNodes = 1 := eq_of_map_exec hs' (f := State.sentForNodes) (by decide +kernel)
  rw [hsilent s' (reachable_exec (.init rfl) hs')] at hsent
  cases hsent

end GetCascade

end Iu9Db
