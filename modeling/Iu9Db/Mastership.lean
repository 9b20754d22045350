import Iu9Db.Zookeeper
import Iu9Db.Lib.Pending

/-!
# Who passes as master

`Change` says what one step can do to the owner of `/master`, to the sessions, and to what the nodes
believe (`Believes`: a node has set `kIsMaster`, or has the answer that will make it do so). Two
invariants follow. A node that believes owns `/master`, unless its session has expired at the server
(`single_of_alive`). And the owner believes, unless the answer to its create was lost
(`knowsMaster_of_reachableBy`).
-/

namespace Iu9Db

open Transition

namespace Coordination

variable {ι : Type}

/-- The server has applied the request and made the node master. -/
def Request.Won (r : Request ι) : Prop := r.op = .tryBecomeMaster ∧ ∃ answer, r.answer = some answer ∧
    answer.rc = .ok

/-- The node is master, or will be when it gets an answer that waits. -/
def Client.Believes (c : Client ι) : Prop := c.isMaster = true ∨ ∃ r ∈ c.requests, r.Won

/-- Nothing happens to the session and to what the node believes. -/
structure Client.Quiet (c c' : Client ι) : Prop where
  session : c'.session = c.session
  believes : c'.Believes ↔ c.Believes

namespace Client

variable {c c' : Client ι} {i : Nat} {r : Request ι}

theorem Quiet.refl (c : Client ι) : c.Quiet c := ⟨rfl, Iff.rfl⟩

theorem Quiet.trans {c'' : Client ι} (h : c.Quiet c') (h' : c'.Quiet c'') : c.Quiet c'' :=
  ⟨h'.session.trans h.session, h'.believes.trans h.believes⟩

/-- The flags and lists that do not matter. -/
theorem Quiet.of_eq (hs : c'.session = c.session) (hm : c'.isMaster = c.isMaster)
    (hr : c'.requests = c.requests) : c.Quiet c' :=
  ⟨hs, by rw [Believes, Believes, hm, hr]⟩

theorem quiet_submit (op : Op) (c : Client ι) : c.Quiet (c.submit op) := by
  refine ⟨rfl, or_congr Iff.rfl ⟨?_, fun ⟨r, hr, hw⟩ => ⟨r, List.mem_append_left _ hr, hw⟩⟩⟩
  rintro ⟨r, hr, hw⟩
  rcases List.mem_append.1 hr with hr | hr
  · exact ⟨r, hr, hw⟩
  · obtain ⟨-, answer, hanswer, -⟩ := hw
    rw [List.mem_singleton.1 hr] at hanswer
    cases hanswer

theorem quiet_watcher (c : Client ι) {event : Event} (h : event ≠ .expiredSession) :
    c.Quiet (c.watcher event) := by
  cases event with
  | connected =>
    have hflags : c.Quiet { c with connected := true, expired := false } := .of_eq (rfl) (rfl) (rfl)
    unfold watcher
    dsimp only
    split
    · exact hflags.trans ((quiet_submit _ _).trans (quiet_submit _ _))
    · exact hflags
  | disconnected => exact .of_eq (rfl) (rfl) (rfl)
  | expiredSession => exact absurd (rfl) h
  | masterDeleted => exact quiet_submit _ _
  | nodesChanged => exact quiet_submit _ _

/-- A completion other than that of the create that made the node master. -/
theorem quiet_completion (host : ι) (c : Client ι) (op : Op) (answer : Answer ι)
    (h : ¬ (op = .tryBecomeMaster ∧ answer.rc = .ok)) : c.Quiet (completion host op answer c) := by
  cases op with
  | bootstrapServiceDiscovery =>
    dsimp only [completion, bootstrapServiceDiscoveryCompletion]
    split <;> first | exact quiet_submit _ _ | exact .refl _
  | registerNode =>
    dsimp only [completion, registerNodeCompletion]
    split <;> first | exact quiet_submit _ _ | exact .refl _
  | discoverNodes =>
    dsimp only [completion, discoverNodesCompletion]
    split <;> first | exact quiet_submit _ _ | exact .of_eq (rfl) (rfl) (rfl)
  | tryBecomeMaster =>
    dsimp only [completion, tryBecomeMasterCompletion]
    split
    · exact quiet_submit _ _
    · exact quiet_submit _ _
    · rename_i hok
      exact absurd ⟨rfl, hok⟩ h
    · exact quiet_submit _ _
    · exact .refl _
  | checkMaster =>
    dsimp only [completion, checkMasterCompletion]
    split
    · exact quiet_submit _ _
    · exact quiet_submit _ _
    · split
      · exact quiet_submit _ _
      · exact .of_eq (rfl) (rfl) (rfl)
    · exact quiet_submit _ _
    · exact .refl _

theorem believes_of_eraseIdx {lost : List Op}
    (h : Believes { c with requests := c.requests.eraseIdx i, lost := lost }) : c.Believes :=
  h.imp_right fun ⟨r, hr, hw⟩ => ⟨r, List.mem_of_mem_eraseIdx hr, hw⟩

theorem believes_eraseIdx {lost : List Op} (hr : c.requests[i]? = some r) (hw : ¬ r.Won) (h : c.Believes) :
    Believes { c with requests := c.requests.eraseIdx i, lost := lost } := by
  refine h.imp_right fun ⟨r', hr', hw'⟩ => ⟨r', Pending.mem_eraseIdx_of_ne hr hr' ?_, hw'⟩
  rintro rfl
  exact hw hw'

/-- An answer to a request that had none. -/
theorem believes_set (answer : Answer ι) {op : Op} (hr : c.requests[i]? = some ⟨op, none⟩) :
    Believes { c with requests := c.requests.set i ⟨op, some answer⟩ } ↔
      c.Believes ∨ op = .tryBecomeMaster ∧ answer.rc = .ok := by
  have hi : i < c.requests.length := (List.getElem?_eq_some_iff.1 hr).1
  constructor
  · rintro (hm | ⟨r, hmem, hw⟩)
    · exact .inl (.inl hm)
    · rcases List.mem_or_eq_of_mem_set hmem with hmem | rfl
      · exact .inl (.inr ⟨r, hmem, hw⟩)
      · obtain ⟨hop, answer', ha, hrc⟩ := hw
        cases ha
        exact .inr ⟨hop, hrc⟩
  · rintro ((hm | ⟨r, hmem, hw⟩) | ⟨hop, hrc⟩)
    · exact .inl hm
    · refine .inr ⟨r, Pending.mem_set_of_ne hr hmem ?_, hw⟩
      rintro rfl
      obtain ⟨-, answer', ha, -⟩ := hw
      cases ha
    · exact .inr ⟨_, List.mem_set hi _, hop, answer, rfl, hrc⟩

end Client

/-- What the server makes of a request: the first create of `/master`, or nothing that concerns it. -/
theorem Server.apply_cases [DecidableEq ι] (session : SessionId) (host : ι) (op : Op) (server : Server ι) :
    let res := server.apply session host op
    res.2.1.alive = server.alive ∧ res.2.1.nextSession = server.nextSession ∧
      ((op = .tryBecomeMaster ∧ server.master = none ∧ res.2.1.owner = some session ∧ res.1.rc = .ok) ∨
        (res.2.1.owner = server.owner ∧ ¬ (op = .tryBecomeMaster ∧ res.1.rc = .ok) ∧
          (op = .tryBecomeMaster → server.master ≠ none))) := by
  cases op with
  | bootstrapServiceDiscovery =>
    unfold apply; dsimp only; split <;> exact ⟨rfl, rfl, .inr ⟨rfl, nofun, nofun⟩⟩
  | registerNode =>
    unfold apply
    dsimp only
    split
    · exact ⟨rfl, rfl, .inr ⟨rfl, nofun, nofun⟩⟩
    · split <;> exact ⟨rfl, rfl, .inr ⟨rfl, nofun, nofun⟩⟩
  | discoverNodes => unfold apply; dsimp only; split <;> exact ⟨rfl, rfl, .inr ⟨rfl, nofun, nofun⟩⟩
  | tryBecomeMaster =>
    unfold apply
    dsimp only
    cases hm : server.master with
    | some m => exact ⟨rfl, rfl, .inr ⟨rfl, nofun, fun _ => nofun⟩⟩
    | none => exact ⟨rfl, rfl, .inl ⟨rfl, rfl, rfl, rfl⟩⟩
  | checkMaster =>
    unfold apply
    dsimp only
    rcases hm : server.master with _ | ⟨session', value⟩
    · exact ⟨rfl, rfl, .inr ⟨rfl, nofun, nofun⟩⟩
    · exact ⟨rfl, rfl, .inr ⟨by rw [owner, owner, hm], nofun, nofun⟩⟩

/-! ### What one step changes -/

/-- A step, as far as mastership is concerned; `told` if no create that was applied is reported lost. -/
inductive Change (told : Prop) (s s' : State ι) : Prop
  | quiet (alive : s'.server.alive = s.server.alive) (owner : s'.server.owner = s.server.owner)
      (next : s'.server.nextSession = s.server.nextSession)
      (session : ∀ m, (s'.client m).session = (s.client m).session)
      (believes : ∀ m, (s'.client m).Believes → (s.client m).Believes)
      (still : told → ∀ m, (s.client m).Believes → (s'.client m).Believes)
  | elected (n : ι) (id : SessionId) (holder : (s.client n).session = some id)
      (holder_alive : s.server.alive id = true) (vacant : s.server.owner = none)
      (owner : s'.server.owner = some id) (alive : s'.server.alive = s.server.alive)
      (next : s'.server.nextSession = s.server.nextSession)
      (session : ∀ m, (s'.client m).session = (s.client m).session)
      (believes : ∀ m, m ≠ n → ((s'.client m).Believes ↔ (s.client m).Believes))
      (still : told → (s'.client n).Believes)
  | expired (id : SessionId) (alive : ∀ i, s'.server.alive i = if i = id then false else s.server.alive i)
      (owner : s'.server.owner = if s.server.owner = some id then none else s.server.owner)
      (next : s'.server.nextSession = s.server.nextSession)
      (quiet : ∀ m, (s.client m).Quiet (s'.client m))
  | opened (n : ι) (fresh : (s.client n).session = none)
      (opened : (s'.client n).session = some s.server.nextSession)
      (next : s'.server.nextSession = s.server.nextSession + 1)
      (alive : ∀ i, s'.server.alive i = if i = s.server.nextSession then true else s.server.alive i)
      (owner : s'.server.owner = s.server.owner)
      (session : ∀ m, m ≠ n → (s'.client m).session = (s.client m).session)
      (believes : ∀ m, (s'.client m).Believes ↔ (s.client m).Believes)
  | closed (n : ι) (server : s'.server = s.server) (session : (s'.client n).session = none)
      (believes : ¬ (s'.client n).Believes) (quiet : ∀ m, m ≠ n → (s.client m).Quiet (s'.client m))

theorem State.quiet_fire (sessions : List SessionId) (event : Event) (s : State ι) (m : ι) :
    (s.client m).Quiet ((s.fire sessions event).client m) := by
  dsimp only [State.fire]
  split
  · exact .of_eq rfl rfl rfl
  · exact .refl _

theorem Change.of_expire (told : Prop) (id : SessionId) (s : State ι) :
    Change told s (s.expireSession id) := by
  have hserver : (s.expireSession id).server.alive = (fun i => if i = id then false else s.server.alive i) ∧
      (s.expireSession id).server.master = (if s.server.owner = some id then none else s.server.master) ∧
      (s.expireSession id).server.nextSession = s.server.nextSession := by
    unfold State.expireSession
    dsimp only
    split <;> split <;> exact ⟨rfl, by simp_all [State.fire], rfl⟩
  obtain ⟨halive, hmaster, hnext⟩ := hserver
  refine .expired id (fun i => by rw [halive]) ?_ hnext fun m => ?_
  · rw [Server.owner, hmaster]
    split
    · rfl
    · rfl
  · unfold State.expireSession
    dsimp only
    split <;> split
    · exact (State.quiet_fire _ _ _ m).trans (State.quiet_fire _ _ _ m)
    · exact State.quiet_fire _ _ _ m
    · exact State.quiet_fire _ _ _ m
    · exact .refl _

section
variable [DecidableEq ι] {s s' : State ι} {a : Label ι} {n : ι}

theorem State.setClient_client (s : State ι) (n m : ι) (c : Client ι) :
    (s.setClient n c).client m = if m = n then c else s.client m := Function.update_apply _ _ _ _

/-- A step of one node that leaves the server alone. -/
theorem Change.of_setClient {told : Prop} {c : Client ι} (hs : c.session = (s.client n).session)
    (hb : c.Believes → (s.client n).Believes) (hstill : told → (s.client n).Believes → c.Believes) :
    Change told s (s.setClient n c) := by
  refine .quiet rfl rfl rfl (fun m => ?_) (fun m => ?_) fun ht m => ?_ <;> rw [State.setClient_client] <;>
    split
  · rename_i hm; rw [hm, hs]
  · rfl
  · rename_i hm; rw [hm]; exact hb
  · exact id
  · rename_i hm; rw [hm]; exact hstill ht
  · exact id

theorem Change.of_quiet {told : Prop} {c : Client ι} (h : (s.client n).Quiet c) :
    Change told s (s.setClient n c) :=
  .of_setClient h.session h.believes.1 fun _ => h.believes.2

/-- No create of `/master` that the server applies is reported lost to the node. -/
def Told (s : State ι) : Label ι → Prop
  | .lose n i _ => ∀ r, (s.client n).requests[i]? = some r → ¬ r.Won
  | .applyLost n i => (s.client n).lost[i]? = some .tryBecomeMaster → s.server.master ≠ none
  | _ => True

/-- The server applies a request of a node, which keeps its session. -/
theorem Change.of_apply {told : Prop} {id : SessionId} {op : Op} {c : Client ι}
    (hsession : (s.client n).session = some id) (halive : s.server.alive id = true)
    (hs : c.session = (s.client n).session)
    (hlost : (op = .tryBecomeMaster ∧ (s.server.apply id n op).1.rc = .ok) → told → c.Believes)
    (hb : ¬ (op = .tryBecomeMaster ∧ (s.server.apply id n op).1.rc = .ok) →
      (c.Believes ↔ (s.client n).Believes)) :
    Change told s (State.fire (s.server.apply id n op).2.2 .nodesChanged
      ({ s with server := (s.server.apply id n op).2.1 }.setClient n c)) := by
  have hquiet := State.quiet_fire (s.server.apply id n op).2.2 .nodesChanged
    ({ s with server := (s.server.apply id n op).2.1 }.setClient n c)
  have hclient := State.setClient_client { s with server := (s.server.apply id n op).2.1 } n
  have hsessions : ∀ m, ((State.fire (s.server.apply id n op).2.2 .nodesChanged
      ({ s with server := (s.server.apply id n op).2.1 }.setClient n c)).client m).session =
      (s.client m).session := by
    intro m
    rw [(hquiet m).session, hclient]
    split
    · rename_i hm; rw [hm, hs]
    · rfl
  obtain ⟨hal, hnext, ⟨hop, hvacant, howner, hrc⟩ | ⟨howner, hnot, -⟩⟩ := Server.apply_cases id n op s.server
  · refine .elected n id hsession halive ?_ howner hal hnext hsessions (fun m hm => ?_) fun ht => ?_
    · rw [Server.owner, hvacant]; rfl
    · rw [(hquiet m).believes, hclient, if_neg hm]
    · rw [(hquiet n).believes, hclient, if_pos rfl]
      exact hlost ⟨hop, hrc⟩ ht
  · have hbelieves : ∀ m, ((State.fire (s.server.apply id n op).2.2 .nodesChanged
        ({ s with server := (s.server.apply id n op).2.1 }.setClient n c)).client m).Believes ↔
          (s.client m).Believes := by
      intro m
      rw [(hquiet m).believes, hclient]
      split
      · rename_i hm; rw [hm]; exact hb hnot
      · rfl
    exact .quiet hal howner hnext hsessions (fun m => (hbelieves m).1) fun _ m => (hbelieves m).2

theorem Change.of_connect {told : Prop} (hsession : (s.client n).session = none) :
    Change told s (State.setClient { s with server := { s.server with
        nextSession := s.server.nextSession + 1
        alive := fun id => if id = s.server.nextSession then true else s.server.alive id } }
      n { s.client n with
        session := some s.server.nextSession
        events := (s.client n).events ++ [.connected] }) := by
  have hclient := State.setClient_client { s with server := { s.server with
    nextSession := s.server.nextSession + 1
    alive := fun id => if id = s.server.nextSession then true else s.server.alive id } } n
  refine .opened n hsession ?_ rfl (fun _ => rfl) rfl (fun m hm => ?_) fun m => ?_ <;> rw [hclient]
  · rw [if_pos rfl]
  · rw [if_neg hm]
  · split
    · rename_i hm; rw [hm]; rfl
    · rfl

theorem Change.of_complete {told : Prop} {i : Nat} {op : Op} {answer : Answer ι}
    (hr : (s.client n).requests[i]? = some ⟨op, some answer⟩) :
    Change told s (s.setClient n (Client.completion n op answer
      { s.client n with requests := (s.client n).requests.eraseIdx i })) := by
  by_cases hwon : op = .tryBecomeMaster ∧ answer.rc = .ok
  · obtain ⟨rfl, hrc⟩ := hwon
    have hc : Client.completion n .tryBecomeMaster answer
        { s.client n with requests := (s.client n).requests.eraseIdx i } =
        { s.client n with
          requests := (s.client n).requests.eraseIdx i
          isMaster := true
          masterNode := some n } := by
      simp only [Client.completion, Client.tryBecomeMasterCompletion, hrc]
    rw [hc]
    refine .of_setClient rfl (fun _ => ?_) fun _ _ => .inl rfl
    exact .inr ⟨_, List.mem_of_getElem? hr, rfl, answer, rfl, hrc⟩
  · have hquiet := Client.quiet_completion n { s.client n with
      requests := (s.client n).requests.eraseIdx i } op answer hwon
    have hnot : ¬ Request.Won ⟨op, some answer⟩ := by
      rintro ⟨hop, answer', ha, hrc⟩
      exact hwon ⟨hop, Option.some.inj ha ▸ hrc⟩
    exact .of_setClient hquiet.session (fun h => Client.believes_of_eraseIdx (hquiet.believes.1 h))
      fun _ h => hquiet.believes.2 (Client.believes_eraseIdx hr hnot h)

theorem Change.of_deliver {told : Prop} (event : Event) (i : Nat) :
    Change told s (s.setClient n (Client.watcher
      { s.client n with events := (s.client n).events.eraseIdx i } event)) := by
  by_cases he : event = .expiredSession
  · subst he
    refine .closed n rfl ?_ ?_ fun m hm => ?_ <;> rw [State.setClient_client]
    · rw [if_pos rfl]; rfl
    · rw [if_pos rfl]
      rintro (h | ⟨r, hr, -⟩)
      · cases h
      · cases hr
    · rw [if_neg hm]; exact .refl _
  · have herase : (s.client n).Quiet { s.client n with events := (s.client n).events.eraseIdx i } :=
      .of_eq rfl rfl rfl
    exact .of_quiet (herase.trans (Client.quiet_watcher _ he))

theorem step_change (hs : step s a = some s') : Change (Told s a) s s' := by
  cases a with
  | connect n =>
    simp only [step] at hs
    cases hsession : (s.client n).session with
    | some id =>
      simp only [hsession] at hs
      cases hs
      exact .of_quiet (.of_eq hsession.symm rfl rfl)
    | none =>
      simp only [hsession] at hs
      cases hs
      exact .of_connect hsession
  | disconnect n =>
    simp only [step] at hs
    cases hs
    exact .of_quiet (.of_eq rfl rfl rfl)
  | expire id =>
    simp only [step] at hs
    split at hs
    · cases hs
      exact .of_expire _ id s
    · cases hs
  | apply n i =>
    simp only [step] at hs
    split at hs
    · rename_i id op hsession hr
      split at hs
      · rename_i halive
        cases hs
        have hb := Client.believes_set (s.server.apply id n op).1 hr
        exact .of_apply hsession halive rfl (fun hwon _ => hb.2 (.inr hwon))
          fun hnot => hb.trans (or_iff_left hnot)
      · cases hs
    · cases hs
  | applyLost n i =>
    simp only [step] at hs
    split at hs
    · rename_i id op hsession hop
      split at hs
      · rename_i halive
        cases hs
        refine .of_apply hsession halive rfl (fun hwon ht => ?_) fun _ => Iff.rfl
        -- `Told` excludes that a create is applied after it was reported lost.
        obtain ⟨-, -, ⟨-, hvacant, -⟩ | ⟨-, hnot, -⟩⟩ := Server.apply_cases id n op s.server
        · exact absurd hvacant (ht (by rw [hop, hwon.1]))
        · exact absurd hwon hnot
      · cases hs
    · cases hs
  | complete n i =>
    simp only [step] at hs
    split at hs
    · rename_i op answer hr
      cases hs
      exact .of_complete hr
    · cases hs
  | lose n i isTimeout =>
    simp only [step] at hs
    split at hs
    · rename_i op answer hr
      cases hs
      have hquiet := Client.quiet_completion n { s.client n with
          requests := (s.client n).requests.eraseIdx i
          lost := if answer.isSome then (s.client n).lost else (s.client n).lost ++ [op] }
        op (.ofRc (if isTimeout then .operationTimeout else .connectionLoss))
        (by cases isTimeout <;> rintro ⟨-, h⟩ <;> cases h)
      exact .of_setClient hquiet.session (fun h => Client.believes_of_eraseIdx (hquiet.believes.1 h))
        fun ht h => hquiet.believes.2 (Client.believes_eraseIdx hr (ht _ hr) h)
    · cases hs
  | deliver n i =>
    simp only [step] at hs
    split at hs
    · rename_i event hevent
      cases hs
      exact .of_deliver event i
    · cases hs

end

/-! ### The invariants -/

/-- Sessions belong to one node each, and a node that believes owns `/master` while its session is alive. -/
structure Inv (s : State ι) : Prop where
  alive_lt : ∀ id, s.server.alive id = true → id < s.server.nextSession
  session_lt : ∀ m id, (s.client m).session = some id → id < s.server.nextSession
  distinct : ∀ m n id, (s.client m).session = some id → (s.client n).session = some id → m = n
  owner_alive : ∀ id, s.server.owner = some id → s.server.alive id = true
  holds : ∀ m, (s.client m).Believes → ∃ id, (s.client m).session = some id ∧
    (s.server.alive id = true → s.server.owner = some id)

/-- The owner of `/master` believes. -/
def Known (s : State ι) : Prop :=
  ∀ m id, (s.client m).session = some id → s.server.owner = some id → (s.client m).Believes

theorem not_believes_init : ¬ (Client.init (ι := ι)).Believes := by
  rintro (h | ⟨r, hr, -, answer, ha, -⟩)
  · cases h
  · rcases List.mem_pair.1 (show r ∈ [_, _] from hr) with rfl | rfl <;> cases ha

theorem inv_init : Inv (State.init (ι := ι)) where
  alive_lt _ h := by cases h
  session_lt _ _ h := by cases h
  distinct _ _ _ h := by cases h
  owner_alive _ h := by cases h
  holds _ h := absurd h not_believes_init

section
variable {told : Prop} {s s' : State ι}

theorem inv_change (h : Inv s) (hc : Change told s s') : Inv s' := by
  cases hc with
  | quiet alive owner next session believes still =>
    refine ⟨?_, ?_, ?_, ?_, fun m hm => ?_⟩ <;> simp only [alive, owner, next, session]
    · exact h.alive_lt
    · exact h.session_lt
    · exact h.distinct
    · exact h.owner_alive
    · exact h.holds m (believes m hm)
  | elected n id holder holder_alive vacant owner alive next session believes still =>
    refine ⟨?_, ?_, ?_, fun i hi => ?_, fun m hm => ?_⟩ <;> simp only [alive, next, session]
    · exact h.alive_lt
    · exact h.session_lt
    · exact h.distinct
    · rw [← Option.some.inj (owner.symm.trans hi)]; exact holder_alive
    · by_cases hmn : m = n
      · exact ⟨id, hmn ▸ holder, fun _ => owner⟩
      · -- Another node that believes would own `/master`, unless its session has expired.
        obtain ⟨i, hi, hown⟩ := h.holds m ((believes m hmn).1 hm)
        exact ⟨i, hi, fun ha => absurd (vacant.symm.trans (hown ha)) nofun⟩
  | expired id alive owner next quiet =>
    have hsession := fun m => (quiet m).session
    refine ⟨fun i hi => ?_, fun m i hi => next ▸ h.session_lt m i ((hsession m).symm.trans hi),
      fun m m' i hi hi' => h.distinct m m' i ((hsession m).symm.trans hi) ((hsession m').symm.trans hi'),
      fun i hi => ?_, fun m hm => ?_⟩
    · rw [alive] at hi
      rw [next]
      split at hi
      · cases hi
      · exact h.alive_lt i hi
    · rw [owner] at hi
      split at hi
      · cases hi
      · rename_i hne
        have hid : i ≠ id := by
          rintro rfl
          exact hne hi
        rw [alive, if_neg hid]
        exact h.owner_alive i hi
    · obtain ⟨i, hi, hown⟩ := h.holds m ((quiet m).believes.1 hm)
      refine ⟨i, (hsession m).trans hi, fun ha => ?_⟩
      rw [alive] at ha
      split at ha
      · cases ha
      · rename_i hne
        rw [owner, hown ha, if_neg fun he => hne (Option.some.inj he)]
  | opened n fresh opened next alive owner session believes =>
    have hold : ∀ m, m ≠ n → ∀ i, (s'.client m).session = some i → i < s.server.nextSession :=
      fun m hm i hi =>
      h.session_lt m i ((session m hm).symm.trans hi)
    have hnew : ∀ i, (s'.client n).session = some i → i = s.server.nextSession := fun i hi =>
      (Option.some.inj (opened.symm.trans hi)).symm
    refine ⟨fun i hi => ?_, fun m i hi => ?_, fun m m' i hi hi' => ?_, fun i hi => ?_, fun m hm => ?_⟩
    · rw [alive] at hi
      rw [next]
      split at hi
      · rename_i he; rw [he]; exact Nat.lt_succ_self _
      · exact Nat.lt_succ_of_lt (h.alive_lt i hi)
    · rw [next]
      by_cases hm : m = n
      · subst hm; rw [hnew i hi]; exact Nat.lt_succ_self _
      · exact Nat.lt_succ_of_lt (hold m hm i hi)
    · by_cases hm : m = n <;> by_cases hm' : m' = n
      · rw [hm, hm']
      · subst hm; exact absurd (hnew i hi) (ne_of_lt (hold m' hm' i hi'))
      · subst hm'; exact absurd (hnew i hi') (ne_of_lt (hold m hm i hi))
      · exact h.distinct m m' i ((session m hm).symm.trans hi) ((session m' hm').symm.trans hi')
    · rw [owner] at hi
      rw [alive]
      split
      · rfl
      · exact h.owner_alive i hi
    · obtain ⟨i, hi, hown⟩ := h.holds m ((believes m).1 hm)
      have hmn : m ≠ n := by
        rintro rfl
        exact absurd (fresh.symm.trans hi) nofun
      refine ⟨i, (session m hmn).trans hi, fun ha => ?_⟩
      rw [alive, if_neg (ne_of_lt (h.session_lt m i hi))] at ha
      rw [owner]
      exact hown ha
  | closed n server session believes quiet =>
    have hold : ∀ m i, (s'.client m).session = some i → m ≠ n ∧ (s.client m).session = some i := by
      intro m i hi
      have hm : m ≠ n := by
        rintro rfl
        exact absurd (session.symm.trans hi) nofun
      exact ⟨hm, (quiet m hm).session.symm.trans hi⟩
    refine ⟨server ▸ h.alive_lt, fun m i hi => server ▸ h.session_lt m i (hold m i hi).2,
      fun m m' i hi hi' => h.distinct m m' i (hold m i hi).2 (hold m' i hi').2, server ▸ h.owner_alive,
        fun m hm => ?_⟩
    · have hmn : m ≠ n := by
        rintro rfl
        exact believes hm
      obtain ⟨i, hi, hown⟩ := h.holds m ((quiet m hmn).believes.1 hm)
      exact ⟨i, (quiet m hmn).session.trans hi, server ▸ hown⟩

/-- As long as no create that was applied is reported lost. -/
theorem known_change (h : Inv s) (hk : Known s) (hc : Change told s s') (ht : told) : Known s' := by
  intro m id hsession howner
  cases hc with
  | quiet alive owner next session believes still =>
    exact still ht m (hk m id ((session m).symm.trans hsession) (owner.symm.trans howner))
  | elected n id' holder holder_alive vacant owner alive next session believes still =>
    obtain rfl := Option.some.inj (owner.symm.trans howner)
    rw [h.distinct m n _ ((session m).symm.trans hsession) holder]
    exact still ht
  | expired id' alive owner next quiet =>
    rw [owner] at howner
    split at howner
    · cases howner
    · exact (quiet m).believes.2 (hk m id ((quiet m).session.symm.trans hsession) howner)
  | opened n fresh opened next alive owner session believes =>
    rw [owner] at howner
    by_cases hm : m = n
    · subst hm
      have hlt := h.alive_lt id (h.owner_alive id howner)
      rw [← Option.some.inj (opened.symm.trans hsession)] at hlt
      exact absurd hlt (lt_irrefl _)
    · exact (believes m).2 (hk m id ((session m hm).symm.trans hsession) howner)
  | closed n server session believes quiet =>
    have hm : m ≠ n := by
      rintro rfl
      exact absurd (session.symm.trans hsession) nofun
    rw [server] at howner
    exact (quiet m hm).believes.2 (hk m id ((quiet m hm).session.symm.trans hsession) howner)

end

/-! ### At most one live master -/

/-- A client's write gets past `WithIsExpiredMiddleware` and `WithIsMasterMiddleware`. -/
def PassesChecks (s : State ι) (n : ι) : Prop := (s.client n).flags = ⟨true, false⟩

/-- The server has not expired the session of the node. -/
def SessionAlive (s : State ι) (n : ι) : Prop := ∃ id, (s.client n).session = some id ∧
    s.server.alive id = true

/-- The checks before and after the handler let its result through exactly for such a node. -/
theorem passesChecks_iff (s : State ι) (n : ι) : PassesChecks s n ↔
    ∀ c, (withIsExpiredMiddleware (s.client n).flags (s.client n).flags
      (withIsMasterMiddleware (s.client n).flags (s.client n).flags .client fun c : Unit =>
        (.ok (), c)) c).1 = .ok () := by
  unfold PassesChecks withIsExpiredMiddleware withIsMasterMiddleware
  generalize (s.client n).flags = flags
  obtain ⟨isMaster, isConnectionExpired⟩ := flags
  cases isMaster <;> cases isConnectionExpired <;> simp

section
variable [DecidableEq ι] {s : State ι}

theorem inv_of_reachable (h : system.Reachable s) : Inv s :=
  h.invariant (fun _ hs => hs ▸ inv_init) fun _ _ _ hi _ hs => inv_change hi (step_change hs)

/-- **Of the nodes that pass as master at most one has a session that is alive.** -/
theorem single_of_alive (h : system.Reachable s) : ∀ n m, PassesChecks s n → SessionAlive s n →
    PassesChecks s m → SessionAlive s m → n = m := by
  have hi := inv_of_reachable h
  have howner : ∀ n, PassesChecks s n → SessionAlive s n → ∃ id, (s.client n).session = some id ∧
      s.server.owner = some id := by
    intro n hp ⟨id, hsession, halive⟩
    obtain ⟨id', hsession', hown⟩ := hi.holds n (.inl (congrArg Flags.isMaster hp))
    obtain rfl := Option.some.inj (hsession.symm.trans hsession')
    exact ⟨id, hsession, hown halive⟩
  intro n m hn hna hm hma
  obtain ⟨id, hsession, hown⟩ := howner n hn hna
  obtain ⟨id', hsession', hown'⟩ := howner m hm hma
  obtain rfl := Option.some.inj (hown.symm.trans hown')
  exact hi.distinct n m id hsession hsession'

end

/-- The node connects, and the server applies its create of `/master` and answers. -/
def elect (n : ι) : List (Label ι) := [.connect n, .apply n 1, .complete n 1]

theorem single_of_alive_elected : ∃ s : State Bool, (PassesChecks s true ∧ SessionAlive s true) ∧
    ∀ n m, PassesChecks s n → SessionAlive s n → PassesChecks s m → SessionAlive s m → n = m := by
  obtain ⟨s, hs⟩ : ∃ s, exec step (State.init (ι := Bool)) (elect true) = some s :=
    Option.isSome_iff_exists.1 (by decide +kernel)
  have hflags : (s.client true).flags = ⟨true, false⟩ :=
    eq_of_map_exec hs (f := fun s => (s.client true).flags) (by decide +kernel)
  have hsession : ((s.client true).session, s.server.alive 0) = (some 0, true) :=
    eq_of_map_exec hs (f := fun s => ((s.client true).session, s.server.alive 0)) (by decide +kernel)
  rw [Prod.mk.injEq] at hsession
  exact ⟨s, ⟨hflags, 0, hsession⟩, single_of_alive (reachable_exec (.init rfl) hs)⟩

/-- The master is cut off, the server expires its session, and another node becomes master. -/
def partitionRun : List (Label Bool) := elect true ++ .expire 0 :: elect false

theorem not_single : ¬ ∀ s : State Bool, system.Reachable s → ∀ n m, PassesChecks s n → PassesChecks s m →
    n = m := by
  intro hall
  obtain ⟨s, hs⟩ : ∃ s, exec step (State.init (ι := Bool)) partitionRun = some s :=
    Option.isSome_iff_exists.1 (by decide +kernel)
  have hflags : (s.client true).flags = ⟨true, false⟩ ∧ (s.client false).flags = ⟨true, false⟩ := by
    rw [← Prod.mk.injEq]
    exact eq_of_map_exec hs (f := fun s => ((s.client true).flags, (s.client false).flags))
      (by decide +kernel)
  exact absurd (hall s (reachable_exec (.init rfl) hs) true false hflags.1 hflags.2) nofun

/-! ### The owner of `/master` -/

/-- A node that owns `/master` and has no request about it under way has set `kIsMaster`. -/
def KnowsMaster (s : State ι) : Prop :=
  ∀ n id, (s.client n).session = some id → s.server.alive id = true → s.server.owner = some id →
    (∀ r ∈ (s.client n).requests, r.op ≠ .tryBecomeMaster ∧ r.op ≠ .checkMaster) → (s.client n).isMaster =
      true

theorem knowsMaster_of_known {s : State ι} (h : Known s) : KnowsMaster s := by
  intro n id hsession _ howner hidle
  rcases h n id hsession howner with hm | ⟨r, hr, hop, -⟩
  · exact hm
  · exact absurd hop (hidle r hr).1

/-- **The owner of `/master` knows that it is master** in every run in which no create that the server
applies is reported lost. -/
theorem knowsMaster_of_reachableBy [DecidableEq ι] {s : State ι} (h : system.ReachableBy Told s) :
    KnowsMaster s := by
  refine knowsMaster_of_known (h.invariant (I := fun s => Inv s ∧ Known s) (fun s hs => ?_)
    fun s _ s' ⟨hi, hk⟩ ht hs => ?_).2
  · rw [hs]
    exact ⟨inv_init, fun _ _ hsession => by cases hsession⟩
  · have hc := step_change hs
    exact ⟨inv_change hi hc, known_change hi hk hc ht⟩

theorem knowsMaster_elected : ∃ s : State Unit, (s.client ()).isMaster = true ∧ KnowsMaster s := by
  obtain ⟨s, hs⟩ : ∃ s, exec step (State.init (ι := Unit)) (elect ()) = some s :=
    Option.isSome_iff_exists.1 (by decide +kernel)
  have hm : (s.client ()).isMaster = true :=
    eq_of_map_exec hs (f := fun s => (s.client ()).isMaster) (by decide +kernel)
  refine ⟨s, hm, knowsMaster_of_reachableBy (reachableBy_exec (.init rfl) (fun s a ha => ?_) hs)⟩
  simp only [elect, List.mem_cons, List.not_mem_nil, or_false] at ha
  rcases ha with rfl | rfl | rfl <;> trivial

/-- The create is applied, but the node is told that the connection was lost; it then reads its own name. -/
def lostAnswerRun : List (Label Unit) :=
  [.connect (), .apply () 1, .lose () 1 false, .apply () 1, .complete () 1]

theorem not_knowsMaster : ¬ ∀ s : State Unit, system.Reachable s → KnowsMaster s := by
  intro hall
  obtain ⟨s, hs⟩ : ∃ s, exec step (State.init (ι := Unit)) lostAnswerRun = some s :=
    Option.isSome_iff_exists.1 (by decide +kernel)
  have hserver : (s.client ()).session = some 0 ∧ s.server.alive 0 = true ∧ s.server.owner = some 0 := by
    rw [← Prod.mk.injEq, ← Prod.mk.injEq]
    exact eq_of_map_exec hs (f := fun s => ((s.client ()).session, s.server.alive 0, s.server.owner))
      (by decide +kernel)
  have hclient : (s.client ()).requests = [⟨.bootstrapServiceDiscovery, none⟩] ∧ (s.client ()).isMaster =
    false := by
    rw [← Prod.mk.injEq]
    exact eq_of_map_exec hs (f := fun s => ((s.client ()).requests, (s.client ()).isMaster))
      (by decide +kernel)
  obtain ⟨hsession, halive, howner⟩ := hserver
  obtain ⟨hrequests, hm⟩ := hclient
  have hknows := hall s (reachable_exec (.init rfl) hs) () 0 hsession halive howner fun r hr => by
    rw [hrequests] at hr
    rw [List.mem_singleton.1 hr]
    exact ⟨nofun, nofun⟩
  rw [hm] at hknows
  cases hknows

end Coordination

end Iu9Db
