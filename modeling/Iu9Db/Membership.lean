import Iu9Db.MasterWatch

/-!
# A node that stays registered

A process may end and be started again on its host while the server still holds the session of the
earlier process and with it `/nodes/<host>`. The registration is then answered with `ZNODEEXISTS`, and
when the old session expires the entry goes: the watch of `/nodes` only lists the nodes again.
-/

namespace Iu9Db

open Transition

namespace Coordination

variable {ι : Type}

namespace Membership

/-- `earlier`: the sessions of earlier processes on the host. `answered`: a registration on the present
handle of the node has been answered. -/
structure State (ι : Type) where
  cluster : Coordination.State ι
  earlier : ι → List SessionId
  answered : ι → Bool

/-- `restart`: the process ends, and a new one calls `InitZookeeper`; the server keeps the old session.
`late`: a registration that an earlier process has submitted is applied. -/
inductive Label (ι : Type)
  | cluster (a : Coordination.Label ι)
  | restart (n : ι)
  | late (n : ι) (i : Nat)
deriving DecidableEq

section
variable [DecidableEq ι]

/-- Which nodes have been answered after a step. -/
def noteAnswer (s : State ι) : Coordination.Label ι → ι → Bool
  | .complete n i | .lose n i _ =>
    if ((s.cluster.client n).requests[i]?).any fun r => r.op = .registerNode then
      Function.update s.answered n true
    else s.answered
  | .deliver n i =>
    if (s.cluster.client n).events[i]? = some .expiredSession then Function.update s.answered n false
    else s.answered
  | _ => s.answered

def step (s : State ι) : Label ι → Option (State ι)
  | .cluster a => (Coordination.step s.cluster a).map fun cluster => { s with
      cluster := cluster
      answered := noteAnswer s a }
  | .restart n =>
    some {
      cluster := s.cluster.setClient n .init
      earlier := Function.update s.earlier n ((s.cluster.client n).session.toList ++ s.earlier n)
      answered := Function.update s.answered n false }
  | .late n i =>
    match (s.earlier n)[i]? with
    | some session =>
      if s.cluster.server.alive session then
        let (_, server, watching) := s.cluster.server.apply session n .registerNode
        some { s with
          cluster := Coordination.State.fire watching .nodesChanged { s.cluster with server := server } }
      else none
    | none => none

def init : State ι := ⟨.init, fun _ => [], fun _ => false⟩

def system : System (State ι) (Label ι) := ofFun (· = init) step

end

/-- The handler of the event submits a registration. -/
def SubmitsRegistration (c : Client ι) (event : Event) : Prop :=
  ⟨.registerNode, none⟩ ∈ (Client.watcher { c with requests := [] } event).requests

/-- Once its registration has been answered, a node whose session is alive and that does not know of an
expiry owns `/nodes/<host>`, or a registration is in flight, or an event waits that leads to one. -/
def StaysMember (s : State ι) : Prop := ∀ n id, (s.cluster.client n).session = some id →
  s.cluster.server.alive id = true → (s.cluster.client n).expired = false → s.answered n = true →
  (n, id) ∈ s.cluster.server.registered ∨ (∃ r ∈ (s.cluster.client n).requests, r.op = .registerNode) ∨
    ∃ event ∈ (s.cluster.client n).events, SubmitsRegistration (s.cluster.client n) event

/-- A registration that the server applies finds `/nodes`, and there no entry of another session for the
host. -/
def Ok (s : State ι) : Label ι → Prop
  | .cluster (.apply n i) => (s.cluster.client n).requests[i]? = some ⟨.registerNode, none⟩ →
      s.cluster.server.nodes = true ∧ ∀ id ∈ (s.cluster.client n).session,
        ∀ node ∈ s.cluster.server.registered, node.1 = n → node.2 = id
  | _ => True

end Membership

/-! ### What leads to a registration -/

/-- A bootstrap, or a registration that the server has not applied. -/
def Request.Joining (r : Request ι) : Prop := r.op = .bootstrapServiceDiscovery ∨ r.op = .registerNode ∧
    r.answer = none

namespace Client

/-- The node is registered, or a request waits that will register it. -/
def Joins (registered : List (ι × SessionId)) (n : ι) (c : Client ι) : Prop :=
  (∃ id, c.session = some id ∧ (n, id) ∈ registered) ∨ ∃ r ∈ c.requests, r.Joining

variable {c c' : Client ι} {registered registered' : List (ι × SessionId)} {n : ι}

theorem Joins.keeps (h : c.Joins registered n) (hk : c.Keeps c')
    (hr : ∀ id, c.session = some id → (n, id) ∈ registered → (n, id) ∈ registered') :
    c'.Joins registered' n := by
  rcases h with ⟨id, hid, hmem⟩ | ⟨r, hmem, hjoin⟩
  · exact .inl ⟨id, hk.session id hid, hr id hid hmem⟩
  · exact .inr ⟨r, hk.requests r hmem, hjoin⟩

theorem joins_submit {op : Op} (h : op = .bootstrapServiceDiscovery ∨ op = .registerNode) (c : Client ι) :
    (c.submit op).Joins registered n :=
  .inr ⟨⟨op, none⟩, List.mem_append_right _ (List.mem_singleton_self _), h.imp_right fun h => ⟨h, rfl⟩⟩

/-- The code of a bootstrap, or the code of a registration that is lost. -/
theorem joins_completion {host : ι} {op : Op} {answer : Answer ι}
    (h : op = .bootstrapServiceDiscovery ∧ answer.rc ≠ .noNode ∨
      op = .registerNode ∧ (answer.rc = .connectionLoss ∨ answer.rc = .operationTimeout)) (c : Client ι) :
    (completion host op answer c).Joins registered n := by
  rcases h with ⟨rfl, hrc⟩ | ⟨rfl, hrc⟩
  · dsimp only [completion, bootstrapServiceDiscoveryCompletion]
    split
    · exact joins_submit (.inl rfl) _
    · exact joins_submit (.inl rfl) _
    · exact joins_submit (.inr rfl) _
    · exact joins_submit (.inr rfl) _
    · rename_i hno
      exact absurd hno hrc
  · dsimp only [completion, registerNodeCompletion]
    rcases hrc with hrc | hrc <;> rw [hrc]
    · exact joins_submit (.inr rfl) _
    · exact joins_submit (.inr rfl) _

theorem Joins.complete (hj : c.Joins registered n) {i : Nat} {r : Request ι} (hr : c.requests[i]? = some r)
    (host : ι) (answer : Answer ι) (lost : List Op)
    (h : r.Joining → r.op = .bootstrapServiceDiscovery ∧ answer.rc ≠ .noNode ∨
      r.op = .registerNode ∧ (answer.rc = .connectionLoss ∨ answer.rc = .operationTimeout)) :
    (completion host r.op answer { c with
      requests := c.requests.eraseIdx i, lost := lost }).Joins registered n := by
  have hk := keeps_completion host r.op answer { c with requests := c.requests.eraseIdx i, lost := lost }
  by_cases hjoin : r.Joining
  · exact joins_completion (h hjoin) _
  · have hleft : Joins registered n { c with requests := c.requests.eraseIdx i, lost := lost } := by
      refine hj.imp_right fun ⟨r', hr', hjoin'⟩ => ⟨r', Pending.mem_eraseIdx_of_ne hr hr' ?_, hjoin'⟩
      rintro rfl
      exact hjoin hjoin'
    exact hleft.keeps hk fun _ _ h => h

end Client

/-! ### The server -/

section
variable [DecidableEq ι]

/-- No request takes an entry away, and a bootstrap is answered with `ZOK` or `ZNODEEXISTS`. -/
theorem Server.apply_registered (session : SessionId) (host : ι) (op : Op) (server : Server ι) :
    let res := server.apply session host op
    (∀ node ∈ server.registered, node ∈ res.2.1.registered) ∧
      (op = .bootstrapServiceDiscovery → res.1.rc ≠ .noNode) := by
  cases op with
  | bootstrapServiceDiscovery =>
    unfold apply
    dsimp only
    split <;> exact ⟨fun _ h => h, fun _ h => nomatch h⟩
  | registerNode =>
    unfold apply
    dsimp only
    split
    · exact ⟨fun _ h => h, fun h => nomatch h⟩
    · split
      · exact ⟨fun _ h => h, fun h => nomatch h⟩
      · exact ⟨fun _ => List.mem_append_left _, fun h => nomatch h⟩
  | discoverNodes | tryBecomeMaster | checkMaster =>
    unfold apply
    dsimp only
    split <;> exact ⟨fun _ h => h, fun h => nomatch h⟩

/-- A registration that finds no entry of another session leaves the entry of its own. -/
theorem Server.registered_apply {session : SessionId} {host : ι} {server : Server ι}
    (hnodes : server.nodes = true) (hown : ∀ node ∈ server.registered, node.1 = host → node.2 = session) :
    (host, session) ∈ (server.apply session host .registerNode).2.1.registered := by
  unfold apply
  dsimp only
  rw [hnodes]
  simp only [Bool.not_true, Bool.false_eq_true, if_false]
  split
  · rename_i hmem
    obtain ⟨⟨host', id⟩, hnode, rfl⟩ := List.mem_map.1 hmem
    exact hown _ hnode rfl ▸ hnode
  · exact List.mem_append_right _ (List.mem_singleton_self _)

end

theorem Client.Joins.answer [DecidableEq ι] {c : Client ι} {server : Server ι} {n : ι} {id : SessionId}
    {op : Op} {i : Nat} (hj : c.Joins server.registered n) (hr : c.requests[i]? = some ⟨op, none⟩)
    (hsession : c.session = some id)
    (hok : op = .registerNode → server.nodes = true ∧ ∀ node ∈ server.registered, node.1 = n → node.2 = id) :
    Client.Joins (server.apply id n op).2.1.registered n
      { c with requests := c.requests.set i ⟨op, some (server.apply id n op).1⟩ } := by
  obtain ⟨hgrows, -⟩ := Server.apply_registered id n op server
  have hi : i < c.requests.length := (List.getElem?_eq_some_iff.1 hr).1
  rcases hj with ⟨id', hid', hmem⟩ | ⟨r, hmem, hjoin⟩
  · exact .inl ⟨id', hid', hgrows _ hmem⟩
  · by_cases hrr : r = ⟨op, none⟩
    · subst hrr
      rcases hjoin with rfl | ⟨rfl, -⟩
      · exact .inr ⟨_, List.mem_set hi _, .inl rfl⟩
      · obtain ⟨hnodes, hown⟩ := hok rfl
        exact .inl ⟨id, hsession, Server.registered_apply hnodes hown⟩
    · exact .inr ⟨r, Pending.mem_set_of_ne hr hmem hrr, hjoin⟩

/-! ### The bootstrap comes first -/

/-- The requests that lead to a registration. -/
def Op.starts : Op → Bool
  | bootstrapServiceDiscovery | registerNode => true
  | discoverNodes | tryBecomeMaster | checkMaster => false

namespace Client

def ops (c : Client ι) : List Op := c.requests.map Request.op

/-- While the bootstrap is in flight there is no registration, nor has there been one on this handle. -/
def BootsFirst (answered : Bool) (c : Client ι) : Prop := .bootstrapServiceDiscovery ∈ c.ops →
  c.ops.countP Op.starts ≤ 1 ∧ c.expired = false ∧ answered = false

variable {c c' : Client ι} {answered : Bool}

theorem ops_submit (op : Op) (c : Client ι) : (c.submit op).ops = c.ops ++ [op] := List.map_append

theorem BootsFirst.congr (h : c.BootsFirst answered) (hops : c'.ops = c.ops)
    (hexpired : c'.expired = c.expired) : c'.BootsFirst answered := by
  unfold BootsFirst
  rw [hops, hexpired]
  exact h

theorem BootsFirst.append (h : c.BootsFirst answered) {l : List Op} (hops : c'.ops = c.ops ++ l)
    (hexpired : c'.expired = c.expired) (hl : ∀ op ∈ l, op.starts = false) : c'.BootsFirst answered := by
  intro hmem
  rw [hops] at hmem ⊢
  rcases List.mem_append.1 hmem with hmem | hmem
  · obtain ⟨hcount, he, ha⟩ := h hmem
    have hzero : l.countP Op.starts = 0 := List.countP_eq_zero.2 fun op hop => by simp [hl op hop]
    rw [List.countP_append, hzero, hexpired]
    exact ⟨hcount, he, ha⟩
  · exact nomatch hl _ hmem

/-- What a completion submits: at most one request; only that of a bootstrap submits a bootstrap, and only
those two submit a registration. -/
theorem ops_completion (host : ι) (op : Op) (answer : Answer ι) (c : Client ι) :
    ∃ l, (completion host op answer c).ops = c.ops ++ l ∧ l.length ≤ 1 ∧
      (op ≠ .bootstrapServiceDiscovery → .bootstrapServiceDiscovery ∉ l) ∧
      (op.starts = false → ∀ op' ∈ l, op'.starts = false) := by
  have hnone : ∀ c' : Client ι, c'.ops = c.ops → ∃ l, c'.ops = c.ops ++ l ∧ l.length ≤ 1 ∧
      (op ≠ .bootstrapServiceDiscovery → .bootstrapServiceDiscovery ∉ l) ∧
      (op.starts = false → ∀ op' ∈ l, op'.starts = false) :=
    fun c' h => ⟨[], by rw [h, List.append_nil], Nat.zero_le _, fun _ => List.not_mem_nil,
      fun _ _ h => absurd h List.not_mem_nil⟩
  have hone : ∀ new : Op, (op ≠ .bootstrapServiceDiscovery → new ≠ .bootstrapServiceDiscovery) →
      (op.starts = false → new.starts = false) → ∃ l, (c.submit new).ops = c.ops ++ l ∧ l.length ≤ 1 ∧
      (op ≠ .bootstrapServiceDiscovery → .bootstrapServiceDiscovery ∉ l) ∧
      (op.starts = false → ∀ op' ∈ l, op'.starts = false) :=
    fun new hb hs => ⟨[new], ops_submit _ _, Nat.le_refl _,
      fun h hmem => hb h (List.mem_singleton.1 hmem).symm, fun h op' hmem => List.mem_singleton.1 hmem ▸ hs h⟩
  cases op with
  | bootstrapServiceDiscovery =>
    dsimp only [completion, bootstrapServiceDiscoveryCompletion]
    split <;> first | exact hone _ (fun h => absurd rfl h) (fun h => nomatch h) | exact hnone _ rfl
  | registerNode =>
    dsimp only [completion, registerNodeCompletion]
    split <;> first | exact hone _ (fun _ h => nomatch h) (fun h => nomatch h) | exact hnone _ rfl
  | discoverNodes =>
    dsimp only [completion, discoverNodesCompletion]
    split <;> first | exact hone _ (fun _ h => nomatch h) (fun _ => rfl) | exact hnone _ rfl
  | tryBecomeMaster =>
    dsimp only [completion, tryBecomeMasterCompletion]
    split <;> first | exact hone _ (fun _ h => nomatch h) (fun _ => rfl) | exact hnone _ rfl
  | checkMaster =>
    dsimp only [completion, checkMasterCompletion]
    split <;> first | exact hone _ (fun _ h => nomatch h) (fun _ => rfl) | exact hnone _ rfl | skip
    split
    · exact hone _ (fun _ h => nomatch h) (fun _ => rfl)
    · exact hnone _ rfl

theorem BootsFirst.complete (h : c.BootsFirst answered) {i : Nat} {r : Request ι}
    (hr : c.requests[i]? = some r) (host : ι) (answer : Answer ι) (lost : List Op) :
    (completion host r.op answer { c with requests := c.requests.eraseIdx i, lost := lost }).BootsFirst
      (if r.op = .registerNode then true else answered) := by
  obtain ⟨l, hops, hlen, hboot, hstarts⟩ :=
    ops_completion host r.op answer { c with requests := c.requests.eraseIdx i, lost := lost }
  have hop : c.ops[i]? = some r.op := by rw [ops, List.getElem?_map, hr]; rfl
  have herase : ops { c with requests := c.requests.eraseIdx i, lost := lost } = c.ops.eraseIdx i :=
    (List.eraseIdx_map _ _ _).symm
  have hcount := Pending.countP_eraseIdx hop Op.starts
  intro hmem
  rw [hops, herase] at hmem
  have hbefore : .bootstrapServiceDiscovery ∈ c.ops.eraseIdx i →
      c.ops.countP Op.starts ≤ 1 ∧ c.expired = false ∧ answered = false :=
        fun h' => h (List.mem_of_mem_eraseIdx h')
  rw [hops, herase, expired_completion, List.countP_append]
  by_cases hb : r.op = .bootstrapServiceDiscovery
  · -- It was the only one that starts, and what it submits is the only one now.
    have hlen' := List.countP_le_length (p := Op.starts) (l := l)
    obtain ⟨hone, he, ha⟩ := h (hb ▸ List.mem_of_getElem? hop)
    rw [hb] at hcount ⊢
    simp only [Op.starts, if_true] at hcount
    exact ⟨by omega, he, ha⟩
  · have hrest := (List.mem_append.1 hmem).resolve_right (hboot hb)
    obtain ⟨hone, he, ha⟩ := hbefore hrest
    have hpos : 0 < (c.ops.eraseIdx i).countP Op.starts := List.countP_pos_iff.2 ⟨_, hrest, rfl⟩
    cases hs : r.op.starts with
    | true =>
      rw [hs] at hcount
      simp only [if_true] at hcount
      omega
    | false =>
      have hzero : l.countP Op.starts = 0 := List.countP_eq_zero.2 fun op hop => by simp [hstarts hs op hop]
      have hne : r.op ≠ .registerNode := by
        intro hr
        rw [hr] at hs
        cases hs
      rw [if_neg hne]
      exact ⟨by omega, he, ha⟩

/-- The bootstrap of an expired handle is gone; the registration comes with the next connection. -/
theorem BootsFirst.deliver (h : c.BootsFirst answered) {event : Event} (hne : event ≠ .expiredSession)
    (i : Nat) : (watcher { c with events := c.events.eraseIdx i } event).BootsFirst answered := by
  cases event with
  | connected =>
    unfold watcher
    dsimp only
    split
    · rename_i hexpired
      intro hmem
      rw [ops_submit, ops_submit, List.append_assoc] at hmem
      rcases List.mem_append.1 hmem with hmem | hmem
      · exact nomatch hexpired.symm.trans (h hmem).2.1
      · simp at hmem
    · rename_i hexpired
      exact h.congr rfl (Bool.eq_false_iff.2 hexpired).symm
  | disconnected => exact h.congr rfl rfl
  | expiredSession => exact absurd rfl hne
  | masterDeleted | nodesChanged =>
    exact h.append (ops_submit _ _) rfl fun op hop => by rw [List.mem_singleton.1 hop]; rfl

end Client

/-! ### Runs -/

/-- The server answers a bootstrap so that the registration follows. -/
def Request.Boots (r : Request ι) : Prop := r.op = .bootstrapServiceDiscovery →
    ∀ answer, r.answer = some answer →
  answer.rc ≠ .noNode

/-- The node is on its way to be registered, unless its session is gone or it knows that it was. -/
def State.Joins (s : State ι) (n : ι) : Prop := (s.client n).expired = false →
  (∀ id, (s.client n).session = some id → s.server.alive id = true) → (s.client n).Joins s.server.registered n

theorem State.Joins.server {s : State ι} {m : ι} (h : s.Joins m) {server : Server ι}
    (hs : ∀ id, (s.client m).session = some id → server.alive id = true →
      s.server.alive id = true ∧ ((m, id) ∈ s.server.registered → (m, id) ∈ server.registered)) :
    State.Joins { s with server := server } m :=
  fun he ha => (h he fun id hid => (hs id hid (ha id hid)).1).keeps (.refl _) fun id hid =>
    (hs id hid (ha id hid)).2

theorem State.Joins.fire {s : State ι} {m : ι} (h : s.Joins m) (sessions : List SessionId) (event : Event) :
    (s.fire sessions event).Joins m := by
  obtain ⟨hk, hsession, hexpired, -⟩ := State.fire_client sessions event s m
  intro he ha
  rw [hexpired] at he
  rw [hsession] at ha
  exact (h he ha).keeps hk fun _ _ h => h

theorem State.Joins.expireSession {s : State ι} {m : ι} (h : s.Joins m) (id : SessionId) :
    (s.expireSession id).Joins m := by
  unfold State.expireSession
  dsimp only
  have hkept : ∀ id', (if id' = id then false else s.server.alive id') = true → s.server.alive id' = true ∧
      ((m, id') ∈ s.server.registered → (m, id') ∈ s.server.registered.filter fun node => node.2 ≠ id) := by
    intro id' ha
    obtain ⟨hne, ha⟩ := ne_of_alive ha
    exact ⟨ha, fun hmem => List.mem_filter.2 ⟨hmem, by simpa using hne⟩⟩
  split <;> split
  · exact Joins.fire (Joins.fire (Joins.server h fun id' _ ha => hkept id' ha) _ _) _ _
  · exact Joins.fire (Joins.server h fun id' _ ha => hkept id' ha) _ _
  · exact Joins.fire (Joins.server h fun id' _ ha => hkept id' ha) _ _
  · exact Joins.server h fun id' _ ha => hkept id' ha

namespace Membership

structure Inv (s : State ι) : Prop where
  boots : ∀ n, ∀ r ∈ (s.cluster.client n).requests, r.Boots
  first : ∀ n, (s.cluster.client n).BootsFirst (s.answered n)
  joins : ∀ n, s.cluster.Joins n

theorem boots_init : ∀ r ∈ (Client.init (ι := ι)).requests, r.Boots := by
  intro r hr
  rcases List.mem_pair.1 (show r ∈ [_, _] from hr) with rfl | rfl <;> exact fun _ _ ha => nomatch ha

theorem bootsFirst_init : (Client.init (ι := ι)).BootsFirst false := fun _ => ⟨Nat.le_refl _, rfl, rfl⟩

theorem joins_init {registered : List (ι × SessionId)} {n : ι} : (Client.init (ι := ι)).Joins registered n :=
  (Client.joins_submit (.inl rfl) _).keeps (Client.keeps_submit _ _) fun _ _ h => h

theorem inv_init : Inv (init (ι := ι)) :=
    ⟨fun _ => boots_init, fun _ => bootsFirst_init, fun _ _ _ => joins_init⟩

theorem boots_of_keeps {c c' : Client ι} (hk : c.Keeps c') (h : ∀ r ∈ c.requests, r.Boots) :
    ∀ r ∈ c'.requests, r.Boots := by
  intro r hr
  rcases hk.fresh r hr with hold | hnone
  · exact h r hold
  · intro _ answer ha
    rw [hnone] at ha
    cases ha

theorem Inv.fire {s : State ι} (hi : Inv s) (sessions : List SessionId) (event : Event) :
    Inv { s with cluster := s.cluster.fire sessions event } := by
  refine ⟨fun m => ?_, fun m => ?_, fun m => (hi.joins m).fire sessions event⟩ <;>
    obtain ⟨-, -, hexpired, hrequests⟩ := State.fire_client sessions event s.cluster m
  · rw [hrequests]
    exact hi.boots m
  · exact (hi.first m).congr (congrArg (List.map Request.op) hrequests) hexpired

theorem Inv.staysMember {s : State ι} (hi : Inv s) : StaysMember s := by
  intro n id hsession halive hexpired hanswered
  rcases hi.joins n hexpired fun i hi => Option.some.inj (hsession.symm.trans hi) ▸ halive with
    ⟨i, hi, hmem⟩ | ⟨r, hr, hop | ⟨hop, -⟩⟩
  · exact .inl (Option.some.inj (hi.symm.trans hsession) ▸ hmem)
  · have hboot : .bootstrapServiceDiscovery ∈ (s.cluster.client n).ops := hop ▸ List.mem_map_of_mem hr
    exact nomatch hanswered.symm.trans (hi.first n hboot).2.2
  · exact .inr (.inl ⟨r, hr, hop⟩)

section
variable [DecidableEq ι] {s s' : State ι} {n : ι}

theorem Inv.setClient (hi : Inv s) {server : Server ι} {c : Client ι} {answered : ι → Bool}
    (hs : ∀ m id, m ≠ n → (s.cluster.client m).session = some id → server.alive id = true →
      s.cluster.server.alive id = true ∧ ((m, id) ∈ s.cluster.server.registered →
        (m, id) ∈ server.registered))
    (ha : ∀ m, m ≠ n → answered m = s.answered m)
    (hboots : ∀ r ∈ c.requests, r.Boots) (hfirst : c.BootsFirst (answered n))
    (hc : c.expired = false → (∀ id, c.session = some id → server.alive id = true) →
      c.Joins server.registered n) :
    Inv { s with
      cluster := Coordination.State.setClient { s.cluster with server := server } n c
      answered := answered } := by
  refine ⟨fun m => ?_, fun m => ?_, fun m => ?_⟩
  · dsimp only
    rw [State.setClient_client]
    split
    · exact hboots
    · exact hi.boots m
  · dsimp only
    rw [State.setClient_client]
    split
    · rename_i hm
      exact hm ▸ hfirst
    · rename_i hm
      exact ha m hm ▸ hi.first m
  · unfold State.Joins
    dsimp only
    rw [State.setClient_client]
    split
    · rename_i hm
      exact hm ▸ hc
    · rename_i hm
      exact (hi.joins m).server fun id => hs m id hm

theorem Inv.setOwn (hi : Inv s) {c : Client ι} {answered : ι → Bool}
    (ha : ∀ m, m ≠ n → answered m = s.answered m) (hboots : ∀ r ∈ c.requests, r.Boots)
    (hfirst : c.BootsFirst (answered n))
    (hc : c.expired = false → (∀ id, c.session = some id → s.cluster.server.alive id = true) →
      c.Joins s.cluster.server.registered n) :
    Inv { s with cluster := s.cluster.setClient n c, answered := answered } :=
  hi.setClient (fun _ _ _ _ h => ⟨h, id⟩) ha hboots hfirst hc

theorem Inv.keeps (hi : Inv s) {c : Client ι} (hk : (s.cluster.client n).Keeps c)
    (hexpired : c.expired = (s.cluster.client n).expired) (hops : c.ops = (s.cluster.client n).ops) :
    Inv { s with cluster := s.cluster.setClient n c } := by
  refine hi.setOwn (fun _ _ => rfl)
    (boots_of_keeps hk (hi.boots n)) ((hi.first n).congr hops hexpired) fun he ha => ?_
  rw [hexpired] at he
  exact (hi.joins n he fun id hid => ha id (hk.session id hid)).keeps hk fun _ _ h => h

theorem Inv.apply (hi : Inv s) {id : SessionId} {op : Op} {c : Client ι}
    (hboots : ∀ r ∈ c.requests, r.Boots) (hops : c.ops = (s.cluster.client n).ops)
    (hexpired : c.expired = (s.cluster.client n).expired)
    (hsession : c.session = (s.cluster.client n).session)
    (hc : (s.cluster.client n).Joins s.cluster.server.registered n →
      c.Joins (s.cluster.server.apply id n op).2.1.registered n) :
    Inv { s with
      cluster := Coordination.State.fire (s.cluster.server.apply id n op).2.2 .nodesChanged
        ({ s.cluster with server := (s.cluster.server.apply id n op).2.1 }.setClient n c) } := by
  have halive : (s.cluster.server.apply id n op).2.1.alive = s.cluster.server.alive :=
    (Server.apply_cases id n op s.cluster.server).1
  obtain ⟨hgrows, -⟩ := Server.apply_registered id n op s.cluster.server
  refine Inv.fire (s := { s with cluster := _ }) (hi.setClient
    (fun m i _ _ ha => ⟨halive ▸ ha, hgrows _⟩) (fun _ _ => rfl) hboots
    ((hi.first n).congr hops hexpired) fun he ha => ?_) _ _
  rw [hexpired] at he
  rw [hsession] at ha
  exact hc (hi.joins n he fun i hi => by rw [← halive]; exact ha i hi)

theorem Inv.complete (hi : Inv s) {i : Nat} {r : Request ι} {answer : Answer ι} {lost : List Op}
    {answered : ι → Bool} (hr : (s.cluster.client n).requests[i]? = some r)
    (ha : answered = if r.op = .registerNode then Function.update s.answered n true else s.answered)
    (h : r.Joining → r.op = .bootstrapServiceDiscovery ∧ answer.rc ≠ .noNode ∨
      r.op = .registerNode ∧ (answer.rc = .connectionLoss ∨ answer.rc = .operationTimeout)) :
    Inv { s with
      cluster := s.cluster.setClient n (Client.completion n r.op answer
        { s.cluster.client n with requests := (s.cluster.client n).requests.eraseIdx i, lost := lost })
      answered := answered } := by
  have hk := Client.keeps_completion n r.op answer
    { s.cluster.client n with requests := (s.cluster.client n).requests.eraseIdx i, lost := lost }
  refine hi.setOwn (fun m hm => ?_)
    (boots_of_keeps hk fun r hr => hi.boots n r (List.mem_of_mem_eraseIdx hr)) ?_ fun he ha => ?_
  · rw [ha]
    split
    · rw [Function.update_of_ne hm]
    · rfl
  · have hn : answered n = if r.op = .registerNode then true else s.answered n := by
      rw [ha]
      split
      · rw [Function.update_self]
      · rfl
    rw [hn]
    exact (hi.first n).complete hr n answer lost
  · rw [Client.expired_completion] at he
    exact (hi.joins n he fun id hid => ha id (hk.session id hid)).complete hr n answer lost h

theorem Inv.deliver (hi : Inv s) {i : Nat} {event : Event} {answered : ι → Bool}
    (ha : answered = if event = .expiredSession then Function.update s.answered n false else s.answered) :
    Inv { s with
      cluster := s.cluster.setClient n (Client.watcher
        { s.cluster.client n with events := (s.cluster.client n).events.eraseIdx i } event)
      answered := answered } := by
  by_cases hne : event = .expiredSession
  · subst hne
    rw [if_pos rfl] at ha
    refine hi.setOwn (fun m hm => by rw [ha, Function.update_of_ne hm]) (fun _ h => absurd h List.not_mem_nil)
      (fun h => absurd h List.not_mem_nil) fun he => nomatch he
  · rw [if_neg hne] at ha
    subst ha
    have hk := Client.keeps_watcher hne { s.cluster.client n with
      events := (s.cluster.client n).events.eraseIdx i }
    refine hi.setOwn (fun _ _ => rfl)
      (boots_of_keeps hk (hi.boots n)) ((hi.first n).deliver hne i) fun he ha => ?_
    cases hexpired : (s.cluster.client n).expired with
    | false =>
      have hj := hi.joins n hexpired fun id hid => ha id (hk.session id hid)
      exact Client.Joins.keeps (c := { s.cluster.client n with
        events := (s.cluster.client n).events.eraseIdx i })
        hj hk fun _ _ h => h
    | true =>
      -- The watcher of the new session submits the registration.
      cases event with
      | connected =>
        unfold Client.watcher
        dsimp only
        rw [if_pos hexpired]
        exact Client.joins_submit (.inr rfl) _
      | disconnected | masterDeleted | nodesChanged => exact nomatch hexpired.symm.trans he
      | expiredSession => exact absurd rfl hne

theorem inv_cluster (hcl : Coordination.Inv s.cluster) (hi : Inv s) {a : Coordination.Label ι}
    (hok : Ok s (.cluster a)) {cluster : Coordination.State ι}
    (hs : Coordination.step s.cluster a = some cluster) :
    Inv { s with cluster := cluster, answered := noteAnswer s a } := by
  cases a with
  | connect n =>
    simp only [Coordination.step] at hs
    split at hs
    · cases hs
      exact hi.keeps (Client.keeps_event _ _) rfl rfl
    · rename_i hsession
      cases hs
      refine hi.setClient (fun m id _ hid ha => ⟨?_, fun h => h⟩) (fun _ _ => rfl) (hi.boots n)
        (hi.first n) fun he _ => ?_
      · dsimp only at ha
        rwa [if_neg (ne_of_lt (hcl.session_lt m id hid))] at ha
      · have hnone : ∀ id, (s.cluster.client n).session ≠ some id := by
          intro id hid
          rw [hsession] at hid
          cases hid
        rcases hi.joins n he fun id hid => absurd hid (hnone id) with ⟨id, hid, -⟩ | hj
        · exact absurd hid (hnone id)
        · exact .inr hj
  | disconnect n =>
    simp only [Coordination.step] at hs
    cases hs
    exact hi.keeps (Client.keeps_event _ _) rfl rfl
  | expire id =>
    simp only [Coordination.step] at hs
    split at hs
    · cases hs
      refine ⟨fun m r hr => hi.boots m r ((State.expireSession_client id m).2 ▸ hr), fun m => ?_,
        fun m => (hi.joins m).expireSession id⟩
      obtain ⟨hexpired, hrequests⟩ := State.expireSession_client (s := s.cluster) id m
      exact (hi.first m).congr (congrArg (List.map Request.op) hrequests) hexpired
    · cases hs
  | apply n i =>
    simp only [Coordination.step] at hs
    split at hs
    · rename_i id op hsession hr
      split at hs
      · cases hs
        refine hi.apply (fun r hr' => ?_) (Pending.map_set hr rfl) rfl rfl fun hj => hj.answer hr hsession
          fun hop => ?_
        · rcases List.mem_or_eq_of_mem_set hr' with hold | rfl
          · exact hi.boots n r hold
          · intro hop answer ha
            cases ha
            exact (Server.apply_registered id n op s.cluster.server).2 hop
        · obtain ⟨hnodes, hown⟩ := hok (hop ▸ hr)
          exact ⟨hnodes, hown id hsession⟩
      · cases hs
    · cases hs
  | applyLost n i =>
    simp only [Coordination.step] at hs
    split at hs
    · rename_i id op hsession hr
      split at hs
      · cases hs
        obtain ⟨hgrows, -⟩ := Server.apply_registered id n op s.cluster.server
        exact hi.apply (hi.boots n) rfl rfl rfl fun hj => hj.keeps (.of_eq rfl rfl rfl rfl) fun i _ =>
          hgrows _
      · cases hs
    · cases hs
  | complete n i =>
    simp only [Coordination.step] at hs
    split at hs
    · rename_i op answer hr
      cases hs
      refine hi.complete hr ?_ fun hjoin => ?_
      · simp [noteAnswer, hr]
      · rcases hjoin with hop | ⟨hop, hnone⟩
        · exact .inl ⟨hop, hi.boots n _ (List.mem_of_getElem? hr) hop answer rfl⟩
        · cases hnone
    · cases hs
  | lose n i isTimeout =>
    simp only [Coordination.step] at hs
    split at hs
    · rename_i op answer hr
      cases hs
      refine hi.complete hr ?_ fun hjoin => ?_
      · simp [noteAnswer, hr]
      · rcases hjoin with hop | ⟨hop, -⟩
        · exact .inl ⟨hop, fun h => by cases isTimeout <;> cases h⟩
        · exact .inr ⟨hop, by cases isTimeout; exact .inl rfl; exact .inr rfl⟩
    · cases hs
  | deliver n i =>
    simp only [Coordination.step] at hs
    split at hs
    · rename_i event hevent
      cases hs
      refine hi.deliver ?_
      simp [noteAnswer, hevent]
    · cases hs

theorem inv_restart (hcl : Coordination.Inv s.cluster) (n : ι) :
    Coordination.Inv (s.cluster.setClient n .init) := by
  have hc : Change True s.cluster (s.cluster.setClient n .init) := by
    refine .closed n rfl ?_ ?_ fun m hm => ?_ <;> rw [State.setClient_client]
    · rw [if_pos rfl]; rfl
    · rw [if_pos rfl]; exact not_believes_init
    · rw [if_neg hm]; exact .refl _
  exact inv_change hcl hc

theorem inv_register (hcl : Coordination.Inv s.cluster) (id : SessionId) (n : ι) :
    Coordination.Inv (Coordination.State.fire (s.cluster.server.apply id n .registerNode).2.2 .nodesChanged
      { s.cluster with server := (s.cluster.server.apply id n .registerNode).2.1 }) := by
  have hquiet := State.quiet_fire (s.cluster.server.apply id n .registerNode).2.2 .nodesChanged
    { s.cluster with server := (s.cluster.server.apply id n .registerNode).2.1 }
  obtain ⟨halive, hnext, ⟨hop, -⟩ | ⟨howner, -⟩⟩ := Server.apply_cases id n .registerNode s.cluster.server
  · cases hop
  · have hc : Change True s.cluster _ := .quiet halive howner hnext (fun m => (hquiet m).session)
      (fun m => (hquiet m).believes.1) fun _ m => (hquiet m).believes.2
    exact inv_change hcl hc

theorem inv_step (hcl : Coordination.Inv s.cluster) (hi : Inv s) {a : Label ι} (hok : Ok s a)
    (hs : step s a = some s') : Coordination.Inv s'.cluster ∧ Inv s' := by
  cases a with
  | cluster a =>
    obtain ⟨cluster, hstep, rfl⟩ := Option.map_eq_some_iff.1 hs
    exact ⟨inv_change hcl (step_change hstep), inv_cluster hcl hi hok hstep⟩
  | restart n =>
    cases hs
    have hold : Inv { s with
        earlier := Function.update s.earlier n ((s.cluster.client n).session.toList ++ s.earlier n) } :=
      ⟨hi.boots, hi.first, hi.joins⟩
    refine ⟨inv_restart hcl n, hold.setClient (fun _ _ _ _ ha => ⟨ha, id⟩)
      (fun m hm => Function.update_of_ne hm _ _)
      boots_init ?_ fun _ _ => joins_init⟩
    rw [Function.update_self]
    exact bootsFirst_init
  | late n i =>
    simp only [step] at hs
    split at hs
    · rename_i id _
      split at hs
      · cases hs
        have halive : (s.cluster.server.apply id n .registerNode).2.1.alive = s.cluster.server.alive :=
          (Server.apply_cases id n .registerNode s.cluster.server).1
        obtain ⟨hgrows, -⟩ := Server.apply_registered id n .registerNode s.cluster.server
        have hserver : Inv { s with
            cluster := { s.cluster with server := (s.cluster.server.apply id n .registerNode).2.1 } } :=
          ⟨hi.boots, hi.first, fun m => (hi.joins m).server fun i _ ha => ⟨halive ▸ ha, hgrows _⟩⟩
        exact ⟨inv_register hcl id n, hserver.fire _ _⟩
      · cases hs
    · cases hs

/-- **A live node stays a member** in every run in which no registration that the server applies for it
finds `/nodes` missing or the entry of another session. -/
theorem staysMember_of_reachableBy (h : system.ReachableBy Ok s) : StaysMember s := by
  refine Inv.staysMember (h.invariant (I := fun s => Coordination.Inv s.cluster ∧ Inv s) (fun s hs => ?_)
    fun s a s' ⟨hcl, hi⟩ hok hs => inv_step hcl hi hok hs).2
  rw [hs]
  exact ⟨Coordination.inv_init, inv_init⟩

end

instance decidableOk : ∀ (s : State Unit) a, Decidable (Ok s a)
  | s, .cluster (.apply n _) => inferInstanceAs (Decidable (_ → _ ∧ ∀ id ∈ (s.cluster.client n).session, _))
  | _, .cluster (.connect _) | _, .cluster (.disconnect _) | _, .cluster (.expire _)
  | _, .cluster (.applyLost _ _) | _, .cluster (.complete _ _) | _, .cluster (.lose _ _ _)
  | _, .cluster (.deliver _ _) | _, .restart _ | _, .late _ _ => isTrue trivial

/-- The server applies the bootstrap and the registration of a node that has just connected. -/
def register : List (Label Unit) :=
  [.cluster (.connect ()), .cluster (.deliver () 0), .cluster (.apply () 0), .cluster (.complete () 0),
    .cluster (.apply () 1), .cluster (.complete () 1)]

/-- The process is started again; when it has registered, the old session expires, and the node lists the
nodes again. -/
def restartedRun : List (Label Unit) :=
  register ++ .restart () :: register ++ [.cluster (.apply () 1), .cluster (.complete () 1),
    .cluster (.expire 0), .cluster (.deliver () 0), .cluster (.apply () 1), .cluster (.complete () 1)]

theorem staysMember_register : ∃ s : State Unit, s.cluster.server.registered = [((), 0)] ∧
    s.answered () = true ∧ StaysMember s := by
  obtain ⟨s, hs⟩ : ∃ s, execBy Ok step (init (ι := Unit)) register = some s :=
    Option.isSome_iff_exists.1 (by decide +kernel)
  have hinit : system.ReachableBy Ok (init (ι := Unit)) := .init rfl
  obtain ⟨hexec, hreach⟩ := reachableBy_execBy hinit hs
  have hserver : s.cluster.server.registered = [((), 0)] ∧ s.answered () = true := by
    rw [← Prod.mk.injEq]
    exact eq_of_map_exec hexec (f := fun s => (s.cluster.server.registered, s.answered ()))
      (by decide +kernel)
  exact ⟨s, hserver.1, hserver.2, staysMember_of_reachableBy hreach⟩

/-- No entry, nothing in flight, and nothing that waits. -/
theorem not_staysMember : ¬ ∀ s : State Unit, system.Reachable s → StaysMember s := by
  intro hall
  obtain ⟨s, hs⟩ : ∃ s, exec step (init (ι := Unit)) restartedRun = some s :=
    Option.isSome_iff_exists.1 (by decide +kernel)
  have hclient : (s.cluster.client ()).session = some 1 ∧ (s.cluster.client ()).expired = false ∧
      (s.cluster.client ()).requests = [⟨.tryBecomeMaster, none⟩] ∧ (s.cluster.client ()).events = [] := by
    simp only [← Prod.mk.injEq]
    exact eq_of_map_exec hs (f := fun s => ((s.cluster.client ()).session, (s.cluster.client ()).expired,
      (s.cluster.client ()).requests, (s.cluster.client ()).events)) (by decide +kernel)
  have hserver : s.cluster.server.alive 1 = true ∧ s.answered () = true ∧ s.cluster.server.registered =
    [] := by
    simp only [← Prod.mk.injEq]
    exact eq_of_map_exec hs (f := fun s => (s.cluster.server.alive 1, s.answered (),
      s.cluster.server.registered)) (by decide +kernel)
  obtain ⟨hsession, hexpired, hrequests, hevents⟩ := hclient
  obtain ⟨halive, hanswered, hregistered⟩ := hserver
  rcases hall s (reachable_exec (.init rfl) hs) () 1 hsession halive hexpired hanswered with h |
    ⟨r, hr, hop⟩ | ⟨e, he, -⟩
  · rw [hregistered] at h
    exact absurd h List.not_mem_nil
  · rw [hrequests] at hr
    rw [List.mem_singleton.1 hr] at hop
    cases hop
  · rw [hevents] at he
    exact absurd he List.not_mem_nil

end Membership

end Coordination

end Iu9Db
