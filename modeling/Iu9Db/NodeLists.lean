import Iu9Db.Membership

/-!
# The list of nodes that a node replicates to

`kNodes` is what the last listing of `/nodes` that was answered has returned. The listing sets the
watch of `/nodes`, which fires once; every callback hands on to the next request until the list has
come. `current_of_reachableBy`: as long as the server takes and answers the requests of a handle in
order, the list of a live node is the one that the server has, with the watch set, or a new one is on
its way.
-/

namespace Iu9Db

open Transition

namespace Coordination

variable {ι : Type}

namespace NodeLists

/-- The hosts that have registered. -/
def hosts (server : Server ι) : List ι := server.registered.map Prod.fst

/-- A request that leads to a listing of the nodes, or is one. -/
def Lists (op : Op) : Prop := op = .bootstrapServiceDiscovery ∨ op = .registerNode ∨ op = .discoverNodes

/-- The node has the list that the server has, and will be told when it changes. -/
def Current (s : State ι) (n : ι) (id : SessionId) : Prop :=
  (s.client n).nodes = some (hosts s.server) ∧ id ∈ s.server.nodesWatches

/-- A request that leads to a new list, or the event of the watch, is under way. -/
def Renewing (s : State ι) (n : ι) : Prop :=
  (∃ r ∈ (s.client n).requests, Lists r.op) ∨ .nodesChanged ∈ (s.client n).events

/-- The server applies the requests of a handle in order, and answers or losses come in that order. A
registration that is applied finds `/nodes`. -/
def Ok (s : State ι) : Label ι → Prop
  | .apply n i => (∀ r ∈ (s.client n).requests.take i, r.answer ≠ none) ∧
      ((s.client n).requests[i]? = some ⟨.registerNode, none⟩ → s.server.nodes = true)
  | .complete _ i | .lose _ i _ => i = 0
  | _ => True

end NodeLists

open NodeLists (hosts)

/-! ### What leads to a list -/

/-- Its completion submits another request that leads to a list, or the list is still to be made. -/
def Request.Renews (r : Request ι) : Prop :=
  r.op = .bootstrapServiceDiscovery ∨ r.op = .registerNode ∨ r.op = .discoverNodes ∧ r.answer = none

/-- A code that the server answers with when it has `/nodes`. -/
def Request.Listed (r : Request ι) : Prop := ∀ answer, r.answer = some answer →
  ((r.op = .bootstrapServiceDiscovery ∨ r.op = .registerNode) → answer.rc = .ok ∨ answer.rc = .nodeExists) ∧
    (r.op = .discoverNodes → answer.rc = .ok)

/-- The list that an answer brings. -/
def Request.list? (r : Request ι) : Option (List ι) :=
  match r.op, r.answer with
  | .discoverNodes, some answer => some answer.strings
  | _, _ => none

namespace Client

/-- The list that the node has when the answers that wait have come. -/
def known (c : Client ι) : Option (List ι) := c.requests.foldl (fun nodes r => r.list?.or nodes) c.nodes

/-- The requests that have been answered come first. -/
def InOrder (c : Client ι) : Prop := c.requests.Pairwise fun r r' => r'.answer ≠ none → r.answer ≠ none

/-- A list is to come, or the one that is known is that of the server and watched. -/
def Follows (watches : List SessionId) (registered : List ι) (c : Client ι) : Prop :=
  (∃ r ∈ c.requests, r.Renews) ∨ .nodesChanged ∈ c.events ∨
    ∃ id, c.session = some id ∧ id ∈ watches ∧ c.known = some registered

variable {c c' : Client ι} {watches watches' : List SessionId} {registered : List ι}

theorem list?_none (op : Op) : Request.list? (⟨op, none⟩ : Request ι) = none := by cases op <;> rfl

theorem known_submit (op : Op) (c : Client ι) : (c.submit op).known = c.known := by
  unfold known
  simp [submit, list?_none]

theorem foldl_list?_none {l : List (Request ι)} (h : ∀ r ∈ l, r.list? = none) (nodes : Option (List ι)) :
    l.foldl (fun nodes r => r.list?.or nodes) nodes = nodes := by
  induction l generalizing nodes with
  | nil => rfl
  | cons r l ih =>
    rw [List.foldl_cons, h r (by simp), Option.none_or]
    exact ih (fun r hr => h r (by simp [hr])) nodes

theorem inOrder_submit (h : c.InOrder) (op : Op) : (c.submit op).InOrder := by
  refine List.pairwise_append.2 ⟨h, List.pairwise_singleton _ _, fun r _ r' hr' hne => ?_⟩
  rw [List.mem_singleton.1 hr'] at hne
  exact absurd rfl hne

theorem Follows.keeps (h : c.Follows watches registered) (hk : c.Keeps c') (hknown : c'.known = c.known)
    (hw : ∀ id, c.session = some id → id ∈ watches → id ∈ watches') : c'.Follows watches' registered := by
  rcases h with ⟨r, hr, hrenews⟩ | he | ⟨id, hid, hmem, hlist⟩
  · exact .inl ⟨r, hk.requests r hr, hrenews⟩
  · exact .inr (.inl (hk.events _ he))
  · exact .inr (.inr ⟨id, hk.session id hid, hw id hid hmem, hknown.trans hlist⟩)

theorem follows_submit {op : Op} (h : NodeLists.Lists op) (c : Client ι) :
    (c.submit op).Follows watches registered := by
  refine .inl ⟨⟨op, none⟩, List.mem_append_right _ (List.mem_singleton_self _), ?_⟩
  rcases h with rfl | rfl | rfl
  · exact .inl rfl
  · exact .inr (.inl rfl)
  · exact .inr (.inr ⟨rfl, rfl⟩)

/-! ### Completions and watchers -/

/-- A completion submits one request, which is a listing only after a registration or a listing, or it
submits none; only that of a listing changes the list. -/
theorem completion_cases (host : ι) (op : Op) (answer : Answer ι) (c : Client ι) :
    (∃ op', completion host op answer c = c.submit op' ∧ (op' = .discoverNodes →
      op = .registerNode ∧ (answer.rc = .ok ∨ answer.rc = .nodeExists) ∨ op = .discoverNodes)) ∨
    ∃ isMaster masterNode nodes, completion host op answer c =
      { c with isMaster := isMaster, masterNode := masterNode, nodes := nodes } ∧
        (op ≠ .discoverNodes → nodes = c.nodes) := by
  cases op with
  | bootstrapServiceDiscovery =>
    dsimp only [completion, bootstrapServiceDiscoveryCompletion]
    split <;> first | exact .inl ⟨_, rfl, nofun⟩ | exact .inr ⟨_, _, _, rfl, fun _ => rfl⟩
  | registerNode =>
    dsimp only [completion, registerNodeCompletion]
    split
    · exact .inl ⟨_, rfl, nofun⟩
    · exact .inl ⟨_, rfl, nofun⟩
    · exact .inl ⟨_, rfl, fun _ => .inl ⟨rfl, .inl ‹_›⟩⟩
    · exact .inl ⟨_, rfl, fun _ => .inl ⟨rfl, .inr ‹_›⟩⟩
    · exact .inr ⟨_, _, _, rfl, fun _ => rfl⟩
  | discoverNodes =>
    dsimp only [completion, discoverNodesCompletion]
    split <;> first
      | exact .inl ⟨_, rfl, fun _ => .inr rfl⟩
      | exact .inr ⟨_, _, _, rfl, fun h => absurd rfl h⟩
  | tryBecomeMaster =>
    dsimp only [completion, tryBecomeMasterCompletion]
    split <;> first | exact .inl ⟨_, rfl, nofun⟩ | exact .inr ⟨_, _, _, rfl, fun _ => rfl⟩
  | checkMaster =>
    dsimp only [completion, checkMasterCompletion]
    split <;> first | exact .inl ⟨_, rfl, nofun⟩ | exact .inr ⟨_, _, _, rfl, fun _ => rfl⟩ | skip
    split
    · exact .inl ⟨_, rfl, nofun⟩
    · exact .inr ⟨_, _, _, rfl, fun _ => rfl⟩

theorem known_completion (host : ι) {op : Op} (answer : Answer ι) (hop : op ≠ .discoverNodes) (c : Client ι) :
    (completion host op answer c).known = c.known := by
  rcases completion_cases host op answer c with ⟨op', h, -⟩ | ⟨_, _, nodes, h, hnodes⟩ <;> rw [h]
  · exact known_submit op' c
  · rw [hnodes hop]
    rfl

theorem inOrder_completion (h : c.InOrder) (host : ι) (op : Op) (answer : Answer ι) :
    (completion host op answer c).InOrder := by
  rcases completion_cases host op answer c with ⟨op', hc, -⟩ | ⟨_, _, nodes, hc, -⟩ <;> rw [hc]
  · exact inOrder_submit h op'
  · exact h

/-- The code of a bootstrap or a registration that was applied, or the code of a loss. -/
theorem follows_completion {host : ι} {op : Op} {answer : Answer ι} (hop : NodeLists.Lists op)
    (hrc : answer.rc = .connectionLoss ∨ answer.rc = .operationTimeout ∨
      op ≠ .discoverNodes ∧ (answer.rc = .ok ∨ answer.rc = .nodeExists)) (c : Client ι) :
    (completion host op answer c).Follows watches registered := by
  rcases hop with rfl | rfl | rfl
  · dsimp only [completion, bootstrapServiceDiscoveryCompletion]
    rcases hrc with hrc | hrc | ⟨-, hrc | hrc⟩ <;> rw [hrc]
    · exact follows_submit (.inl rfl) _
    · exact follows_submit (.inl rfl) _
    · exact follows_submit (.inr (.inl rfl)) _
    · exact follows_submit (.inr (.inl rfl)) _
  · dsimp only [completion, registerNodeCompletion]
    rcases hrc with hrc | hrc | ⟨-, hrc | hrc⟩ <;> rw [hrc]
    · exact follows_submit (.inr (.inl rfl)) _
    · exact follows_submit (.inr (.inl rfl)) _
    · exact follows_submit (.inr (.inr rfl)) _
    · exact follows_submit (.inr (.inr rfl)) _
  · dsimp only [completion, discoverNodesCompletion]
    rcases hrc with hrc | hrc | ⟨hne, -⟩
    · rw [hrc]; exact follows_submit (.inr (.inr rfl)) _
    · rw [hrc]; exact follows_submit (.inr (.inr rfl)) _
    · exact absurd rfl hne

theorem inOrder_watcher (h : c.InOrder) {event : Event} (hne : event ≠ .expiredSession) :
    (c.watcher event).InOrder := by
  cases event with
  | connected =>
    unfold watcher
    dsimp only
    split
    · exact inOrder_submit (inOrder_submit h _) _
    · exact h
  | disconnected => exact h
  | expiredSession => exact absurd rfl hne
  | masterDeleted | nodesChanged => exact inOrder_submit h _

theorem known_watcher {event : Event} (hne : event ≠ .expiredSession) (c : Client ι) :
    (c.watcher event).known = c.known := by
  cases event with
  | connected =>
    unfold watcher
    dsimp only
    split
    · rw [known_submit, known_submit]
      rfl
    · rfl
  | disconnected => rfl
  | expiredSession => exact absurd rfl hne
  | masterDeleted | nodesChanged => exact known_submit _ _

/-- The list that a node will have when the next request of it has been applied. -/
theorem known_set {i : Nat} {op : Op} (h : c.InOrder) (hr : c.requests[i]? = some ⟨op, none⟩)
    (answer : Answer ι) : known { c with requests := c.requests.set i ⟨op, some answer⟩ } =
      (Request.list? ⟨op, some answer⟩).or c.known := by
  obtain ⟨hsplit, hset⟩ := Pending.split_set hr ⟨op, some answer⟩
  -- nothing behind the request has an answer
  have hafter : ∀ r ∈ c.requests.drop (i + 1), r.list? = none := by
    intro r hr
    have hnone : r.answer = none := by
      by_contra hne
      unfold InOrder at h
      rw [hsplit, List.pairwise_append] at h
      exact (List.pairwise_cons.1 h.2.1).1 r hr hne rfl
    obtain ⟨op', answer'⟩ := r
    obtain rfl : answer' = none := hnone
    exact list?_none op'
  unfold known
  dsimp only
  conv_rhs => rw [hsplit]
  rw [hset, List.foldl_append, List.foldl_append, List.foldl_cons, List.foldl_cons, foldl_list?_none hafter,
    foldl_list?_none hafter, list?_none, Option.none_or]

theorem inOrder_set {i : Nat} {op : Op} (h : c.InOrder) (hr : c.requests[i]? = some ⟨op, none⟩)
    (hbefore : ∀ r ∈ c.requests.take i, r.answer ≠ none) (answer : Answer ι) :
    InOrder { c with requests := c.requests.set i ⟨op, some answer⟩ } := by
  obtain ⟨hsplit, hset⟩ := Pending.split_set hr ⟨op, some answer⟩
  unfold InOrder at h ⊢
  rw [hsplit, List.pairwise_append, List.pairwise_cons] at h
  rw [hset, List.pairwise_append, List.pairwise_cons]
  obtain ⟨htake, ⟨-, hdrop⟩, -⟩ := h
  exact ⟨htake, ⟨fun _ _ _ => nofun, hdrop⟩, fun r hr _ _ _ => hbefore r hr⟩

/-! ### One request less -/

theorem known_tail {r : Request ι} (hr : c.requests[0]? = some r) (lost : List Op) :
    c.known = known { c with
      nodes := r.list?.or c.nodes, requests := c.requests.eraseIdx 0, lost := lost } := by
  cases hc : c.requests with
  | nil =>
    rw [hc] at hr
    cases hr
  | cons r' l =>
    rw [hc] at hr
    cases hr
    rw [known, known, hc]
    rfl

theorem inOrder_eraseIdx (h : c.InOrder) (i : Nat) (lost : List Op) :
    InOrder { c with requests := c.requests.eraseIdx i, lost := lost } :=
  List.Pairwise.sublist (List.eraseIdx_sublist _ _) h

/-- The first request comes to its end: with the answer of the server, or with the code of a loss. -/
theorem Follows.complete (hf : c.Follows watches registered) {r : Request ι}
    (hr : c.requests[0]? = some r) (host : ι) (answer : Answer ι) (lost : List Op)
    (h : answer.rc = .connectionLoss ∨ answer.rc = .operationTimeout ∨ r.answer = some answer ∧ r.Listed) :
    (completion host r.op answer { c with requests := c.requests.eraseIdx 0, lost := lost }).Follows watches
      registered := by
  have hk := keeps_completion host r.op answer { c with requests := c.requests.eraseIdx 0, lost := lost }
  by_cases hlists : NodeLists.Lists r.op
  · by_cases hrc : answer.rc = .connectionLoss ∨ answer.rc = .operationTimeout ∨
        r.op ≠ .discoverNodes ∧ (answer.rc = .ok ∨ answer.rc = .nodeExists)
    · exact follows_completion hlists hrc _
    -- a listing that the server has made
    obtain ⟨ha, hlisted⟩ : r.answer = some answer ∧ r.Listed := by tauto
    obtain ⟨hregister, hdiscover⟩ := hlisted answer ha
    have hop : r.op = .discoverNodes := by
      rcases hlists with hop | hop | hop
      · exact absurd (.inr (.inr ⟨by rw [hop]; exact nofun, hregister (.inl hop)⟩)) hrc
      · exact absurd (.inr (.inr ⟨by rw [hop]; exact nofun, hregister (.inr hop)⟩)) hrc
      · exact hop
    have hc : completion host r.op answer { c with requests := c.requests.eraseIdx 0, lost := lost } =
        { c with nodes := r.list?.or c.nodes, requests := c.requests.eraseIdx 0, lost := lost } := by
      simp only [hop, completion, discoverNodesCompletion, hdiscover hop, Request.list?, ha, Option.some_or]
    rw [hc]
    rcases hf with ⟨r', hr', hrenews⟩ | he | ⟨id, hid, hmem, hlist⟩
    · refine .inl ⟨r', Pending.mem_eraseIdx_of_ne hr hr' ?_, hrenews⟩
      rintro rfl
      rcases hrenews with h | h | ⟨-, h⟩
      · rw [hop] at h; cases h
      · rw [hop] at h; cases h
      · rw [ha] at h; cases h
    · exact .inr (.inl he)
    · exact .inr (.inr ⟨id, hid, hmem, (known_tail hr lost).symm.trans hlist⟩)
  · have hop : r.op ≠ .discoverNodes := fun h => hlists (.inr (.inr h))
    have hnone : r.list? = none := by
      unfold Request.list?
      split
      · exact absurd ‹_› hop
      · rfl
    have htail := known_tail hr lost
    rw [hnone, Option.none_or] at htail
    have hleft : Follows watches registered { c with requests := c.requests.eraseIdx 0, lost := lost } := by
      rcases hf with ⟨r', hr', hrenews⟩ | he | ⟨id, hid, hmem, hlist⟩
      · refine .inl ⟨r', Pending.mem_eraseIdx_of_ne hr hr' ?_, hrenews⟩
        rintro rfl
        rcases hrenews with h | h | ⟨h, -⟩
        · exact hlists (.inl h)
        · exact hlists (.inr (.inl h))
        · exact hop h
      · exact .inr (.inl he)
      · exact .inr (.inr ⟨id, hid, hmem, htail.symm.trans hlist⟩)
    exact hleft.keeps hk (known_completion host answer hop _) fun _ _ h => h

theorem Follows.deliver (hf : c.Follows watches registered) {i : Nat} {event : Event}
    (he : c.events[i]? = some event) (hne : event ≠ .expiredSession) :
    (watcher { c with events := c.events.eraseIdx i } event).Follows watches registered := by
  by_cases hchanged : event = .nodesChanged
  · subst hchanged
    exact follows_submit (.inr (.inr rfl)) _
  · have hleft : Follows watches registered { c with events := c.events.eraseIdx i } :=
      hf.imp_right fun hf => hf.imp_left fun hmem => Pending.mem_eraseIdx_of_ne he hmem (Ne.symm hchanged)
    exact hleft.keeps (keeps_watcher hne _) (known_watcher hne _) fun _ _ h => h

/-! ### Before `/nodes` exists -/

/-- Nothing is under way that has found `/nodes`. -/
structure Bare (c : Client ι) : Prop where
  requests : ∀ r ∈ c.requests, r.op ≠ .discoverNodes ∧ (r.op = .registerNode → r.answer = none)
  events : .nodesChanged ∉ c.events

theorem Bare.submit (h : c.Bare) {op : Op} (hop : op ≠ .discoverNodes) : (c.submit op).Bare := by
  refine ⟨fun r hr => ?_, h.events⟩
  rcases List.mem_append.1 hr with hr | hr
  · exact h.requests r hr
  · rw [List.mem_singleton.1 hr]
    exact ⟨hop, fun _ => rfl⟩

theorem Bare.event (h : c.Bare) {event : Event} (hne : event ≠ .nodesChanged) :
    Bare { c with events := c.events ++ [event] } := by
  refine ⟨h.requests, fun hmem => ?_⟩
  rcases List.mem_append.1 hmem with hmem | hmem
  · exact h.events hmem
  · exact hne (List.mem_singleton.1 hmem).symm

theorem Bare.complete (h : c.Bare) {r : Request ι} {i : Nat} (hr : c.requests[i]? = some r) (host : ι)
    (answer : Answer ι) (lost : List Op)
    (hrc : r.answer = none → answer.rc ≠ .ok ∧ answer.rc ≠ .nodeExists) :
    Bare (completion host r.op answer { c with requests := c.requests.eraseIdx i, lost := lost }) := by
  obtain ⟨hdiscover, hregister⟩ := h.requests r (List.mem_of_getElem? hr)
  have hleft : Bare { c with requests := c.requests.eraseIdx i, lost := lost } :=
    ⟨fun r hr => h.requests r (List.mem_of_mem_eraseIdx hr), h.events⟩
  rcases completion_cases host r.op answer { c with requests := c.requests.eraseIdx i, lost := lost } with
    ⟨op', hc, hop'⟩ | ⟨_, _, _, hc, -⟩ <;> rw [hc]
  · refine hleft.submit fun heq => ?_
    rcases hop' heq with ⟨hop, hok⟩ | hop
    · obtain ⟨hne, hne'⟩ := hrc (hregister hop)
      exact hok.elim hne hne'
    · exact hdiscover hop
  · exact ⟨hleft.requests, hleft.events⟩

theorem Bare.deliver (h : c.Bare) {i : Nat} {event : Event} (he : c.events[i]? = some event) :
    (watcher { c with events := c.events.eraseIdx i } event).Bare := by
  have hleft : Bare { c with events := c.events.eraseIdx i } :=
    ⟨h.requests, fun hmem => h.events (List.mem_of_mem_eraseIdx hmem)⟩
  cases event with
  | connected =>
    have hflags : Bare { c with events := c.events.eraseIdx i, connected := true, expired := false } :=
      ⟨hleft.requests, hleft.events⟩
    unfold watcher
    dsimp only
    split
    · exact (hflags.submit (by decide)).submit (by decide)
    · exact hflags
  | disconnected => exact ⟨hleft.requests, hleft.events⟩
  | expiredSession => exact ⟨by simp [watcher], by simp [watcher]⟩
  | masterDeleted => exact hleft.submit nofun
  | nodesChanged => exact absurd (List.mem_of_getElem? he) h.events

theorem listed_of_keeps (hk : c.Keeps c') (h : ∀ r ∈ c.requests, r.Listed) : ∀ r ∈ c'.requests, r.Listed := by
  intro r hr
  rcases hk.fresh r hr with hold | hnone
  · exact h r hold
  · intro answer ha
    rw [hnone] at ha
    cases ha

end Client

/-! ### The server -/

section
variable [DecidableEq ι]

/-- A request that is applied leaves the list of the nodes alone, or it registers one and fires the
watches. A listing returns the list and sets the watch. -/
theorem Server.apply_lists (session : SessionId) (host : ι) (op : Op) (server : Server ι) :
    let res := server.apply session host op
    (server.nodes = true → res.2.1.nodes = true) ∧
      (res.2.1.registered = server.registered ∧ res.2.2 = [] ∧
          (∀ id ∈ server.nodesWatches, id ∈ res.2.1.nodesWatches) ∨
        op = .registerNode ∧ server.nodes = true ∧ res.2.2 = server.nodesWatches) ∧
      ((op = .registerNode ∨ op = .discoverNodes → server.nodes = true) → Request.Listed ⟨op, some res.1⟩) ∧
      (op = .discoverNodes → server.nodes = true →
        res.1.strings = hosts server ∧ session ∈ res.2.1.nodesWatches) := by
  cases op with
  | bootstrapServiceDiscovery =>
    unfold apply
    dsimp only
    split
    · exact ⟨id, .inl ⟨rfl, rfl, fun _ h => h⟩,
        fun _ _ ha => by cases ha; exact ⟨fun _ => .inr rfl, nofun⟩, nofun⟩
    · exact ⟨fun _ => rfl, .inl ⟨rfl, rfl, fun _ h => h⟩,
        fun _ _ ha => by cases ha; exact ⟨fun _ => .inl rfl, nofun⟩, nofun⟩
  | registerNode =>
    unfold apply
    dsimp only
    split
    · rename_i hmissing
      have hnodes : server.nodes = false := by simpa using hmissing
      exact ⟨id, .inl ⟨rfl, rfl, fun _ h => h⟩, fun h => absurd (h (.inl rfl)) (by simp [hnodes]), nofun⟩
    · rename_i hthere
      have hnodes : server.nodes = true := by simpa using hthere
      split
      · exact ⟨id, .inl ⟨rfl, rfl, fun _ h => h⟩,
          fun _ _ ha => by cases ha; exact ⟨fun _ => .inr rfl, nofun⟩, nofun⟩
      · exact ⟨id, .inr ⟨rfl, hnodes, rfl⟩,
          fun _ _ ha => by cases ha; exact ⟨fun _ => .inl rfl, nofun⟩, nofun⟩
  | discoverNodes =>
    unfold apply
    dsimp only
    split
    · rename_i hmissing
      have hnodes : server.nodes = false := by simpa using hmissing
      exact ⟨id, .inl ⟨rfl, rfl, fun _ h => h⟩, fun h => absurd (h (.inr rfl)) (by simp [hnodes]),
        fun _ h => absurd h (by simp [hnodes])⟩
    · exact ⟨id, .inl ⟨rfl, rfl, fun _ => List.mem_cons_of_mem _⟩,
        fun _ _ ha => by cases ha; exact ⟨nofun, fun _ => rfl⟩, fun _ _ => ⟨rfl, List.mem_cons_self⟩⟩
  | tryBecomeMaster | checkMaster =>
    unfold apply
    dsimp only
    split <;> exact ⟨id, .inl ⟨rfl, rfl, fun _ h => h⟩, fun _ _ _ => ⟨nofun, nofun⟩, nofun⟩

end

namespace State

/-- The node follows the list, unless its session is gone or it knows that it was. -/
def Follows (s : State ι) (n : ι) : Prop := (s.client n).expired = false →
  (∀ id, (s.client n).session = some id → s.server.alive id = true) →
    (s.client n).Follows s.server.nodesWatches (hosts s.server)

variable {s : State ι} {m : ι}

theorem known_fire (sessions : List SessionId) (event : Event) (s : State ι) (m : ι) :
    ((s.fire sessions event).client m).known = (s.client m).known := by
  dsimp only [fire]
  split <;> rfl

theorem Follows.fire (h : s.Follows m) (sessions : List SessionId) (event : Event) :
    (s.fire sessions event).Follows m := by
  obtain ⟨hk, hsession, hexpired, -⟩ := fire_client sessions event s m
  intro he ha
  rw [hexpired] at he
  rw [hsession] at ha
  exact (h he ha).keeps hk (known_fire sessions event s m) fun _ _ h => h

/-- A server with the same nodes, on which the session of the node has kept its watch. -/
theorem Follows.server (h : s.Follows m) {server : Server ι} (hhosts : hosts server = hosts s.server)
    (hs : ∀ id, (s.client m).session = some id → server.alive id = true →
      s.server.alive id = true ∧ (id ∈ s.server.nodesWatches → id ∈ server.nodesWatches)) :
    Follows { s with server := server } m := by
  intro he ha
  show (s.client m).Follows server.nodesWatches (hosts server)
  rw [hhosts]
  exact (h he fun id hid => (hs id hid (ha id hid)).1).keeps (.refl _) rfl fun id hid =>
    (hs id hid (ha id hid)).2

/-- A server with other nodes; the watches have fired. -/
theorem Follows.fire_nodesChanged (h : s.Follows m) {server : Server ι} {sessions : List SessionId}
    (hs : ∀ id, (s.client m).session = some id → server.alive id = true →
      s.server.alive id = true ∧ (id ∈ s.server.nodesWatches → id ∈ sessions)) :
    (State.fire sessions .nodesChanged { s with server := server }).Follows m := by
  obtain ⟨hk, hsession, hexpired, -⟩ := fire_client sessions .nodesChanged { s with server := server } m
  intro he ha
  rw [hexpired] at he
  rw [hsession] at ha
  rcases h he fun id hid => (hs id hid (ha id hid)).1 with ⟨r, hr, hrenews⟩ | hevent | ⟨id, hid, hmem, -⟩
  · exact .inl ⟨r, hk.requests r hr, hrenews⟩
  · exact .inr (.inl (hk.events _ hevent))
  · have hfired := (hs id hid (ha id hid)).2 hmem
    exact .inr (.inl (mem_events_fire (s := { s with server := server }) hid hfired))

theorem Follows.expireSession (h : s.Follows m) (id : SessionId) : (s.expireSession id).Follows m := by
  unfold State.expireSession
  dsimp only
  have hkept : ∀ id', (if id' = id then false else s.server.alive id') = true →
      s.server.alive id' = true ∧
        (id' ∈ s.server.nodesWatches → id' ∈ s.server.nodesWatches.filter (· ≠ id)) := by
    intro id' ha
    obtain ⟨hne, ha⟩ := ne_of_alive ha
    exact ⟨ha, fun hmem => List.mem_filter.2 ⟨hmem, by simpa using hne⟩⟩
  have hsame : ¬ (s.server.registered.any fun node => decide (node.2 = id)) = true →
      s.server.registered.filter (fun node => decide (node.2 ≠ id)) = s.server.registered := by
    intro hnone
    refine List.filter_eq_self.2 fun node hnode => decide_eq_true fun heq => hnone ?_
    exact List.any_eq_true.2 ⟨node, hnode, decide_eq_true heq⟩
  have hfire := (h.fire (s.server.masterWatches.filter (· ≠ id)) .masterDeleted)
  split
  · split
    · exact hfire.fire_nodesChanged fun id' _ ha => hkept id' ha
    · exact h.fire_nodesChanged fun id' _ ha => hkept id' ha
  · rename_i hnone
    split
    · exact hfire.server (congrArg (List.map Prod.fst) (hsame hnone)) fun id' _ ha => hkept id' ha
    · exact h.server (congrArg (List.map Prod.fst) (hsame hnone)) fun id' _ ha => hkept id' ha

theorem follows_setClient [DecidableEq ι] {n : ι} {c : Client ι} (h : m ≠ n → s.Follows m)
    (hc : c.expired = false → (∀ id, c.session = some id → s.server.alive id = true) →
      c.Follows s.server.nodesWatches (hosts s.server)) : (s.setClient n c).Follows m := by
  unfold Follows
  rw [setClient_client]
  split
  · exact hc
  · rename_i hm
    exact h hm

end State

/-! ### Runs -/

namespace NodeLists

structure Inv (s : State ι) : Prop where
  listed : ∀ n, ∀ r ∈ (s.client n).requests, r.Listed
  inOrder : ∀ n, (s.client n).InOrder
  bare : s.server.nodes = false → s.server.registered = [] ∧ ∀ n, (s.client n).Bare
  follows : ∀ n, s.Follows n

theorem inv_init : Inv (State.init (ι := ι)) where
  listed _ r hr := by
    rcases List.mem_pair.1 (show r ∈ [_, _] from hr) with rfl | rfl <;> exact fun _ ha => nomatch ha
  inOrder _ := by
    have hnil : (Client.mk (ι := ι) false false false none none none [] [] []).InOrder := List.Pairwise.nil
    exact Client.inOrder_submit (Client.inOrder_submit hnil _) _
  bare _ := ⟨rfl, fun _ => (Client.Bare.submit ⟨by simp, by simp⟩ (by decide)).submit (by decide)⟩
  follows _ _ _ :=
    (Client.follows_submit (.inl rfl) _).keeps (Client.keeps_submit _ _) (Client.known_submit _ _)
    fun _ _ h => h

theorem fire_nil (event : Event) (s : State ι) : s.fire [] event = s := by
  simp [State.fire]

theorem Inv.expire {s : State ι} (hi : Inv s) (id : SessionId) : Inv (s.expireSession id) := by
  refine ⟨fun m r hr => hi.listed m r ((State.expireSession_client id m).2 ▸ hr), fun m => ?_,
    fun hmissing => ?_, fun m => (hi.follows m).expireSession id⟩
  · unfold Client.InOrder
    rw [(State.expireSession_client id m).2]
    exact hi.inOrder m
  · have hserver : (s.expireSession id).server.nodes = s.server.nodes ∧
      (s.expireSession id).server.registered =
        s.server.registered.filter fun node => node.2 ≠ id := by
      unfold State.expireSession
      dsimp only
      split <;> split <;> exact ⟨rfl, rfl⟩
    obtain ⟨hnone, hold⟩ := hi.bare (hserver.1 ▸ hmissing)
    refine ⟨by rw [hserver.2, hnone]; rfl, fun m => ?_⟩
    unfold State.expireSession
    dsimp only
    rw [if_neg (by simp [hnone])]
    split
    · unfold State.fire
      dsimp only
      split
      · exact (hold m).event (by decide)
      · exact hold m
    · exact hold m

section
variable [DecidableEq ι] {s s' : State ι} {a : Label ι} {n : ι}

/-- A step of a node that changes the sessions of the server at most. -/
theorem Inv.setClient (hi : Inv s) {server : Server ι} {c : Client ι}
    (hnodes : s.server.nodes = true → server.nodes = true)
    (hregistered : server.registered = s.server.registered)
    (hs : ∀ m id, m ≠ n → (s.client m).session = some id → server.alive id = true →
      s.server.alive id = true ∧ (id ∈ s.server.nodesWatches → id ∈ server.nodesWatches))
    (hlisted : ∀ r ∈ c.requests, r.Listed) (horder : c.InOrder)
    (hbare : s.server.nodes = false → (s.client n).Bare → c.Bare)
    (hc : c.expired = false → (∀ id, c.session = some id → server.alive id = true) →
      c.Follows server.nodesWatches
        (hosts server)) : Inv (State.setClient { s with server := server } n c) := by
  refine ⟨fun m => ?_, fun m => ?_, fun hmissing => ?_, fun m => State.follows_setClient (fun hm => ?_) hc⟩
  · rw [State.setClient_client]
    split
    · exact hlisted
    · exact hi.listed m
  · rw [State.setClient_client]
    split
    · exact horder
    · exact hi.inOrder m
  · have hmissing : s.server.nodes = false := by
      by_contra hne
      exact nomatch (hnodes (Bool.eq_true_of_not_eq_false hne)).symm.trans hmissing
    obtain ⟨hnone, hold⟩ := hi.bare hmissing
    refine ⟨hregistered.trans hnone, fun m => ?_⟩
    rw [State.setClient_client]
    split
    · exact hbare hmissing (hold n)
    · exact hold m
  · exact (hi.follows m).server (congrArg (List.map Prod.fst) hregistered) fun id => hs m id hm

theorem Inv.setOwn (hi : Inv s) {c : Client ι} (hlisted : ∀ r ∈ c.requests, r.Listed) (horder : c.InOrder)
    (hbare : s.server.nodes = false → (s.client n).Bare → c.Bare)
    (hc : c.expired = false → (∀ id, c.session = some id → s.server.alive id = true) →
      c.Follows s.server.nodesWatches (hosts s.server)) : Inv (s.setClient n c) :=
  hi.setClient id rfl (fun _ _ _ _ ha => ⟨ha, id⟩) hlisted horder hbare hc

/-- A request is applied; the node keeps its session and all but the request. -/
theorem Inv.apply (hi : Inv s) {id : SessionId} {op : Op} {c : Client ι}
    (hlisted : ∀ r ∈ c.requests, r.Listed) (horder : c.InOrder)
    (hbare : s.server.nodes = false → (s.client n).Bare → c.Bare)
    (hexpired : c.expired = (s.client n).expired) (hsession : c.session = (s.client n).session)
    (hc : ∀ watches, (∀ i ∈ s.server.nodesWatches, i ∈ watches) →
      (op = .discoverNodes → s.server.nodes = true → id ∈ watches) →
      (s.client n).Follows s.server.nodesWatches (hosts s.server) → c.Follows watches (hosts s.server)) :
    Inv (State.fire (s.server.apply id n op).2.2 .nodesChanged
      ({ s with server := (s.server.apply id n op).2.1 }.setClient n c)) := by
  have halive : (s.server.apply id n op).2.1.alive = s.server.alive := (Server.apply_cases id n op s.server).1
  obtain ⟨hnodes, hlists, -, hlist⟩ := Server.apply_lists id n op s.server
  have hold : c.expired = false → (∀ i, c.session = some i → s.server.alive i = true) →
      (s.client n).Follows s.server.nodesWatches (hosts s.server) := by
    intro he ha
    rw [hexpired] at he
    rw [hsession] at ha
    exact hi.follows n he ha
  rcases hlists with ⟨hregistered, hwatching, hwatches⟩ | ⟨hop, hthere, hwatching⟩
  · rw [hwatching, fire_nil]
    refine hi.setClient hnodes hregistered
      (fun _ i _ _ ha => ⟨halive ▸ ha, hwatches i⟩) hlisted horder hbare fun he ha => ?_
    rw [halive] at ha
    rw [show hosts (s.server.apply id n op).2.1 = hosts s.server from congrArg
      (List.map Prod.fst) hregistered]
    exact hc _ hwatches (fun hop hthere => (hlist hop hthere).2) (hold he ha)
  · -- the node in question has been registered, and its own watch has fired with the others
    have howner : Inv (s.setClient n c) := hi.setOwn hlisted horder hbare fun he ha =>
      hc _ (fun _ h => h) (fun h => by rw [hop] at h; cases h) (hold he ha)
    rw [hwatching]
    refine ⟨fun m r hr => ?_, fun m => ?_, fun hmissing => ?_, fun m => ?_⟩
    · rw [(State.fire_client _ _ _ m).2.2.2] at hr
      exact howner.listed m r hr
    · unfold Client.InOrder
      rw [(State.fire_client _ _ _ m).2.2.2]
      exact howner.inOrder m
    · exact nomatch (hnodes hthere).symm.trans hmissing
    · exact State.Follows.fire_nodesChanged (howner.follows m) fun i _ ha => ⟨halive ▸ ha, fun h => h⟩

theorem Inv.deliver (hi : Inv s) {i : Nat} {event : Event} (hevent : (s.client n).events[i]? = some event) :
    Inv (s.setClient n (Client.watcher { s.client n with
      events := (s.client n).events.eraseIdx i } event)) := by
  by_cases hne : event = .expiredSession
  · subst hne
    exact hi.setOwn (fun _ h => absurd h List.not_mem_nil) List.Pairwise.nil (fun _ hb => hb.deliver hevent)
      fun he => nomatch he
  · have hk := Client.keeps_watcher hne { s.client n with events := (s.client n).events.eraseIdx i }
    have horder : Client.InOrder { s.client n with events := (s.client n).events.eraseIdx i } := hi.inOrder n
    refine hi.setOwn (Client.listed_of_keeps hk (hi.listed n)) (Client.inOrder_watcher horder hne)
      (fun _ hb => hb.deliver hevent) fun he ha => ?_
    cases hexpired : (s.client n).expired with
    | false => exact (hi.follows n hexpired fun id hid => ha id (hk.session id hid)).deliver hevent hne
    | true =>
      -- only the event of the new session clears `kExpired`, and its watcher submits a registration
      cases event with
      | connected =>
        unfold Client.watcher
        dsimp only
        rw [if_pos hexpired]
        exact Client.follows_submit (.inr (.inl rfl)) _
      | disconnected | masterDeleted | nodesChanged => exact nomatch hexpired.symm.trans he
      | expiredSession => exact absurd rfl hne

theorem Inv.complete (hi : Inv s) {r : Request ι} (hr : (s.client n).requests[0]? = some r)
    {answer : Answer ι} (lost : List Op)
    (h : answer.rc = .connectionLoss ∨ answer.rc = .operationTimeout ∨ r.answer = some answer) :
    Inv (s.setClient n (Client.completion n r.op answer
      { s.client n with requests := (s.client n).requests.eraseIdx 0, lost := lost })) := by
  have hmem := List.mem_of_getElem? hr
  have hk := Client.keeps_completion n r.op answer
    { s.client n with requests := (s.client n).requests.eraseIdx 0, lost := lost }
  refine hi.setOwn (Client.listed_of_keeps hk fun r hr => hi.listed n r (List.mem_of_mem_eraseIdx hr))
    (Client.inOrder_completion (Client.inOrder_eraseIdx (hi.inOrder n) 0 lost) n r.op answer)
    (fun _ hb => hb.complete hr n answer lost fun hnone => ?_) fun he ha => ?_
  · rcases h with h | h | h
    · rw [h]; exact ⟨nofun, nofun⟩
    · rw [h]; exact ⟨nofun, nofun⟩
    · rw [hnone] at h; cases h
  · rw [Client.expired_completion] at he
    exact (hi.follows n he fun id hid => ha id (hk.session id hid)).complete hr n answer lost
      (h.imp_right fun h => h.imp_right fun h => ⟨h, hi.listed n r hmem⟩)

/-- The answer to a request, which follows all that were answered. -/
theorem follows_answer {c : Client ι} {server : Server ι} {id : SessionId} {i : Nat} {op : Op}
    {watches : List SessionId} (horder : c.InOrder) (hsession : c.session = some id)
    (hr : c.requests[i]? = some ⟨op, none⟩)
    (hw : ∀ j ∈ server.nodesWatches, j ∈ watches) (hwatched : op = .discoverNodes → id ∈ watches)
    (hlist : op = .discoverNodes → (server.apply id n op).1.strings = hosts server)
    (hf : c.Follows server.nodesWatches (hosts server)) :
    Client.Follows watches (hosts server)
      { c with requests := c.requests.set i ⟨op, some (server.apply id n op).1⟩ } := by
  have hi : i < c.requests.length := (List.getElem?_eq_some_iff.1 hr).1
  have hknown := Client.known_set horder hr (server.apply id n op).1
  by_cases hdiscover : op = .discoverNodes
  · subst hdiscover
    refine .inr (.inr ⟨id, hsession, hwatched rfl, ?_⟩)
    rw [hknown, ← hlist rfl]
    rfl
  have hnone : Request.list? ⟨op, some (server.apply id n op).1⟩ = none := by
    cases op <;> first | rfl | exact absurd rfl hdiscover
  rcases hf with ⟨r, hmem, hrenews⟩ | he | ⟨j, hj, hmem, hlast⟩
  · by_cases hrr : r = ⟨op, none⟩
    · subst hrr
      refine .inl ⟨_, List.mem_set hi _, ?_⟩
      exact hrenews.imp_right fun h => h.imp_right fun h => absurd h.1 hdiscover
    · exact .inl ⟨r, Pending.mem_set_of_ne hr hmem hrr, hrenews⟩
  · exact .inr (.inl he)
  · refine .inr (.inr ⟨j, hj, hw j hmem, ?_⟩)
    rw [hknown, hnone, Option.none_or]
    exact hlast

theorem inv_step (hcl : Coordination.Inv s) (hi : Inv s) (hok : Ok s a) (hs : step s a = some s') :
    Inv s' := by
  cases a with
  | connect n =>
    simp only [step] at hs
    split at hs
    · cases hs
      exact hi.setOwn (hi.listed n) (hi.inOrder n) (fun _ hb => hb.event (by split <;> decide))
        fun he ha => (hi.follows n he ha).keeps (Client.keeps_event _ _) rfl fun _ _ h => h
    · rename_i hsession
      cases hs
      refine hi.setClient id rfl (fun m id _ hid ha => ⟨?_, fun h => h⟩) (hi.listed n) (hi.inOrder n)
        (fun _ hb => ⟨hb.requests, (hb.event (by decide)).events⟩) fun he _ => ?_
      · dsimp only at ha
        rwa [if_neg (ne_of_lt (hcl.session_lt m id hid))] at ha
      · have hnone : ∀ id, (s.client n).session ≠ some id := by
          intro id hid
          rw [hsession] at hid
          cases hid
        rcases hi.follows n he fun id hid => absurd hid (hnone id) with ⟨r, hr, hrenews⟩ | hevent |
          ⟨id, hid, -⟩
        · exact .inl ⟨r, hr, hrenews⟩
        · exact .inr (.inl (List.mem_append_left _ hevent))
        · exact absurd hid (hnone id)
  | disconnect n =>
    simp only [step] at hs
    cases hs
    exact hi.setOwn (hi.listed n) (hi.inOrder n) (fun _ hb => hb.event (by decide))
      fun he ha => (hi.follows n he ha).keeps (Client.keeps_event _ _) rfl fun _ _ h => h
  | expire id =>
    simp only [step] at hs
    split at hs
    · cases hs
      exact hi.expire id
    · cases hs
  | apply n i =>
    simp only [step] at hs
    split at hs
    · rename_i id op hsession hr
      split at hs
      · cases hs
        obtain ⟨hbefore, hregister⟩ := hok
        obtain ⟨-, -, hlisted, hlist⟩ := Server.apply_lists id n op s.server
        -- a listing is only asked for when `/nodes` exists
        have hthere : op = .discoverNodes → s.server.nodes = true := by
          rintro rfl
          by_contra hne
          exact (((hi.bare (Bool.eq_false_iff.2 hne)).2 n).requests _ (List.mem_of_getElem? hr)).1 rfl
        have hregister : op = .registerNode → s.server.nodes = true := fun h => hregister (h ▸ hr)
        refine hi.apply (fun r hr' => ?_) (Client.inOrder_set (hi.inOrder n) hr hbefore _)
          (fun hmissing hb => ?_) rfl
          rfl fun watches hw hwatched hf => ?_
        · rcases List.mem_or_eq_of_mem_set hr' with hold | rfl
          · exact hi.listed n r hold
          · exact hlisted fun h => h.elim hregister hthere
        · refine ⟨fun r hr' => ?_, hb.events⟩
          rcases List.mem_or_eq_of_mem_set hr' with hold | rfl
          · exact hb.requests r hold
          · have hnot : s.server.nodes ≠ true := ne_true_of_eq_false hmissing
            exact ⟨fun h => absurd (hthere h) hnot, fun h => absurd (hregister h) hnot⟩
        · exact follows_answer (hi.inOrder n) hsession hr hw (fun h => hwatched h (hthere h))
            (fun h => (hlist h (hthere h)).1) hf
      · cases hs
    · cases hs
  | applyLost n i =>
    simp only [step] at hs
    split at hs
    · split at hs
      · cases hs
        exact hi.apply (hi.listed n) (hi.inOrder n) (fun _ hb => ⟨hb.requests, hb.events⟩) rfl rfl
          fun watches hw _ hf => hf.keeps (.of_eq rfl rfl rfl rfl) rfl fun i _ => hw i
      · cases hs
    · cases hs
  | complete n i =>
    obtain rfl : i = 0 := hok
    simp only [step] at hs
    split at hs
    · rename_i op answer hr
      cases hs
      exact hi.complete hr _ (.inr (.inr rfl))
    · cases hs
  | lose n i isTimeout =>
    obtain rfl : i = 0 := hok
    simp only [step] at hs
    split at hs
    · rename_i op answer hr
      cases hs
      refine hi.complete hr _ ?_
      cases isTimeout
      · exact .inl rfl
      · exact .inr (.inl rfl)
    · cases hs
  | deliver n i =>
    simp only [step] at hs
    split at hs
    · rename_i event hevent
      cases hs
      exact hi.deliver hevent
    · cases hs

theorem inv_of_reachableBy (h : system.ReachableBy Ok s) : Coordination.Inv s ∧ Inv s := by
  refine h.invariant (I := fun s => Coordination.Inv s ∧ Inv s) (fun s hs => ?_) fun s a s'
    ⟨hcl, hi⟩ hok hs =>
    ⟨inv_change hcl (step_change hs), inv_step hcl hi hok hs⟩
  rw [hs]
  exact ⟨Coordination.inv_init, inv_init⟩

/-- **A live node has the list of the nodes that the server has and watches it, or a new one is on its
way**, as long as the requests of a handle are applied and answered in order. -/
theorem current_of_reachableBy (h : system.ReachableBy Ok s) {id : SessionId}
    (hsession : (s.client n).session = some id) (halive : s.server.alive id = true)
    (hexpired : (s.client n).expired = false) : Current s n id ∨ Renewing s n := by
  have hf := (inv_of_reachableBy h).2.follows n hexpired fun i hi => Option.some.inj
    (hsession.symm.trans hi) ▸ halive
  by_cases hrenewing : ∃ r ∈ (s.client n).requests, Lists r.op
  · exact .inr (.inl hrenewing)
  rcases hf with ⟨r, hr, hrenews⟩ | he | ⟨i, hi, hmem, hlist⟩
  · exact absurd ⟨r, hr, hrenews.imp_right fun h => h.imp_right And.left⟩ hrenewing
  · exact .inr (.inr he)
  · left
    have hnone : ∀ r ∈ (s.client n).requests, r.list? = none := by
      intro r hr
      unfold Request.list?
      split
      · exact absurd ⟨r, hr, .inr (.inr ‹_›)⟩ hrenewing
      · rfl
    rw [Client.known, Client.foldl_list?_none hnone] at hlist
    exact ⟨hlist, Option.some.inj (hi.symm.trans hsession) ▸ hmem⟩

/-- Two nodes for which no list is on its way replicate to the same nodes. -/
theorem agree_of_reachableBy (h : system.ReachableBy Ok s) {m : ι} {id id' : SessionId}
    (hn : (s.client n).session = some id ∧ s.server.alive id = true ∧ (s.client n).expired = false ∧
      ¬ Renewing s n)
    (hm : (s.client m).session = some id' ∧ s.server.alive id' = true ∧ (s.client m).expired = false ∧
      ¬ Renewing s m) :
    (s.client n).nodes = (s.client m).nodes := by
  have hn := (current_of_reachableBy h hn.1 hn.2.1 hn.2.2.1).resolve_right hn.2.2.2
  have hm := (current_of_reachableBy h hm.1 hm.2.1 hm.2.2.1).resolve_right hm.2.2.2
  exact hn.1.trans hm.1.symm

end

/-! ### A run -/

instance decidableOk : ∀ (s : State Bool) a, Decidable (Ok s a)
  | s, .apply n i => inferInstanceAs (Decidable ((∀ r ∈ (s.client n).requests.take i, r.answer ≠ none) ∧
      ((s.client n).requests[i]? = some ⟨.registerNode, none⟩ → s.server.nodes = true)))
  | _, .complete _ i | _, .lose _ i _ => inferInstanceAs (Decidable (i = 0))
  | _, .connect _ | _, .disconnect _ | _, .expire _ | _, .applyLost _ _ | _, .deliver _ _ => isTrue trivial

/-- A node connects, and its first `k` requests come to their ends. -/
def join (n : Bool) (k : Nat) : List (Label Bool) :=
  [.connect n, .deliver n 0] ++ (List.replicate k [.apply n 0, .complete n 0]).flatten

/-- The second node has joined, and the event of that waits for the first one. -/
def joinRun : List (Label Bool) := join true 4 ++ join false 5

theorem current_joinRun : ∃ s : State Bool, (s.client false).nodes = some [true, false] ∧
    (s.client true).nodes = some [true] ∧ (Current s true 0 ∨ Renewing s true) := by
  obtain ⟨s, hs⟩ : ∃ s, execBy Ok step (State.init (ι := Bool)) joinRun = some s :=
    Option.isSome_iff_exists.1 (by decide +kernel)
  have hinit : system.ReachableBy Ok (State.init (ι := Bool)) := .init rfl
  obtain ⟨hexec, hreach⟩ := reachableBy_execBy hinit hs
  have hlists : ((s.client false).nodes, (s.client true).nodes) = (some [true, false], some [true]) :=
    eq_of_map_exec hexec (f := fun s => ((s.client false).nodes, (s.client true).nodes)) (by decide +kernel)
  have hlive : ((s.client true).session, s.server.alive 0, (s.client true).expired) = (some 0, true, false) :=
    eq_of_map_exec hexec (f := fun s => ((s.client true).session, s.server.alive 0, (s.client true).expired))
      (by decide +kernel)
  simp only [Prod.mk.injEq] at hlists hlive
  obtain ⟨hsession, halive, hexpired⟩ := hlive
  exact ⟨s, hlists.1, hlists.2, current_of_reachableBy hreach hsession halive hexpired⟩

end NodeLists

end Coordination

end Iu9Db
