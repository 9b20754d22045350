import Iu9Db.Mastership

/-!
# No node is deaf to a lost master

A node listens when something is under way that makes it ask for `/master` again: it is master, a
request about `/master` is open, its watch is set, or the event of its watch waits. A get that has
been answered with a master is not open any more; the server has set its watch with the answer. Every
callback hands on from one of these to the next.
-/

namespace Iu9Db

open Transition

namespace Coordination

variable {ι : Type}

/-- Its completion sets `kIsMaster` or submits another request about `/master`. -/
def Request.Open (r : Request ι) : Prop :=
  r.op = .tryBecomeMaster ∨ r.op = .checkMaster ∧ ∀ answer, r.answer = some answer → answer.rc ≠ .ok

/-- A code that the server answers the two requests about `/master` with. -/
def Request.Sound (r : Request ι) : Prop := ∀ answer, r.answer = some answer →
  (r.op = .tryBecomeMaster → answer.rc = .ok ∨ answer.rc = .nodeExists) ∧
    (r.op = .checkMaster → answer.rc = .ok ∨ answer.rc = .noNode)

namespace Client

/-- Something waits that will make the node ask for `/master`; `watches` are the sessions that watch it. -/
def Listens (watches : List SessionId) (c : Client ι) : Prop :=
  c.isMaster = true ∨ (∃ r ∈ c.requests, r.Open) ∨ (∃ id, c.session = some id ∧ id ∈ watches) ∨
    .masterDeleted ∈ c.events

/-- The node drops nothing, and no request of it is answered. -/
structure Keeps (c c' : Client ι) : Prop where
  isMaster : c.isMaster = true → c'.isMaster = true
  requests : ∀ r ∈ c.requests, r ∈ c'.requests
  fresh : ∀ r ∈ c'.requests, r ∈ c.requests ∨ r.answer = none
  session : ∀ id, c.session = some id → c'.session = some id
  events : ∀ e ∈ c.events, e ∈ c'.events

variable {c c' : Client ι} {watches watches' : List SessionId}

theorem Keeps.of_eq (hm : c'.isMaster = c.isMaster) (hr : c'.requests = c.requests)
    (hs : c'.session = c.session) (he : c'.events = c.events) : c.Keeps c' :=
  ⟨hm ▸ id, hr ▸ fun _ => id, hr ▸ fun _ => .inl, hs ▸ fun _ => id, he ▸ fun _ => id⟩

theorem Keeps.refl (c : Client ι) : c.Keeps c := .of_eq rfl rfl rfl rfl

theorem Keeps.trans {c'' : Client ι} (h : c.Keeps c') (h' : c'.Keeps c'') : c.Keeps c'' :=
  ⟨fun hm => h'.isMaster (h.isMaster hm), fun r hr => h'.requests r (h.requests r hr),
    fun r hr => (h'.fresh r hr).elim (h.fresh r) .inr, fun id hi => h'.session id (h.session id hi),
      fun e he => h'.events e (h.events e he)⟩

theorem keeps_submit (op : Op) (c : Client ι) : c.Keeps (c.submit op) := by
  refine ⟨id, fun _ => List.mem_append_left _, fun r hr => ?_, fun _ => id, fun _ => id⟩
  rcases List.mem_append.1 hr with hr | hr
  · exact .inl hr
  · rw [List.mem_singleton.1 hr]; exact .inr rfl

theorem keeps_event (event : Event) (c : Client ι) : c.Keeps { c with events := c.events ++ [event] } :=
  ⟨id, fun _ => id, fun _ => .inl, fun _ => id, fun _ => List.mem_append_left _⟩

theorem Listens.keeps (h : c.Listens watches) (hk : c.Keeps c')
    (hw : ∀ id, c.session = some id → id ∈ watches → id ∈ watches') : c'.Listens watches' := by
  rcases h with hm | ⟨r, hr, hopen⟩ | ⟨id, hid, hmem⟩ | he
  · exact .inl (hk.isMaster hm)
  · exact .inr (.inl ⟨r, hk.requests r hr, hopen⟩)
  · exact .inr (.inr (.inl ⟨id, hk.session id hid, hw id hid hmem⟩))
  · exact .inr (.inr (.inr (hk.events _ he)))

theorem listens_submit {op : Op} (h : op = .tryBecomeMaster ∨ op = .checkMaster) (c : Client ι) :
    (c.submit op).Listens watches := by
  refine .inr (.inl ⟨⟨op, none⟩, List.mem_append_right _ (List.mem_singleton_self _), ?_⟩)
  exact h.imp_right fun h => ⟨h, fun _ ha => nomatch ha⟩

/-! ### Completions and watchers -/

theorem keeps_completion (host : ι) (op : Op) (answer : Answer ι) (c : Client ι) :
    c.Keeps (completion host op answer c) := by
  cases op with
  | bootstrapServiceDiscovery =>
    dsimp only [completion, bootstrapServiceDiscoveryCompletion]
    split <;> first | exact keeps_submit _ _ | exact .refl _
  | registerNode =>
    dsimp only [completion, registerNodeCompletion]
    split <;> first | exact keeps_submit _ _ | exact .refl _
  | discoverNodes =>
    dsimp only [completion, discoverNodesCompletion]
    split <;> first | exact keeps_submit _ _ | exact .of_eq (rfl) (rfl) (rfl) (rfl)
  | tryBecomeMaster =>
    dsimp only [completion, tryBecomeMasterCompletion]
    split
    · exact keeps_submit _ _
    · exact keeps_submit _ _
    · exact ⟨fun _ => rfl, fun _ => id, fun _ => .inl, fun _ => id, fun _ => id⟩
    · exact keeps_submit _ _
    · exact .refl _
  | checkMaster =>
    dsimp only [completion, checkMasterCompletion]
    split
    · exact keeps_submit _ _
    · exact keeps_submit _ _
    · split
      · exact keeps_submit _ _
      · exact .of_eq (rfl) (rfl) (rfl) (rfl)
    · exact keeps_submit _ _
    · exact .refl _

/-- The code that a request which is open is answered with, or the code of a loss. -/
theorem listens_completion {host : ι} {op : Op} {answer : Answer ι}
    (h : op = .tryBecomeMaster ∧ answer.rc ≠ .noNode ∨
      op = .checkMaster ∧ answer.rc ≠ .ok ∧ answer.rc ≠ .nodeExists) (c : Client ι) :
    (completion host op answer c).Listens watches := by
  rcases h with ⟨rfl, hrc⟩ | ⟨rfl, hok, hexists⟩
  · dsimp only [completion, tryBecomeMasterCompletion]
    split
    · exact listens_submit (.inr rfl) _
    · exact listens_submit (.inr rfl) _
    · exact .inl rfl
    · exact listens_submit (.inr rfl) _
    · rename_i hno
      exact absurd hno hrc
  · dsimp only [completion, checkMasterCompletion]
    split
    · exact listens_submit (.inr rfl) _
    · exact listens_submit (.inr rfl) _
    · rename_i h
      exact absurd h hok
    · exact listens_submit (.inl rfl) _
    · rename_i h
      exact absurd h hexists

theorem expired_completion (host : ι) (op : Op) (answer : Answer ι) (c : Client ι) :
    (completion host op answer c).expired = c.expired := by
  cases op with
  | bootstrapServiceDiscovery => dsimp only [completion, bootstrapServiceDiscoveryCompletion]; split <;> rfl
  | registerNode => dsimp only [completion, registerNodeCompletion]; split <;> rfl
  | discoverNodes => dsimp only [completion, discoverNodesCompletion]; split <;> rfl
  | tryBecomeMaster => dsimp only [completion, tryBecomeMasterCompletion]; split <;> rfl
  | checkMaster =>
    dsimp only [completion, checkMasterCompletion]
    split <;> first | rfl | split <;> rfl

theorem Listens.answer (hl : c.Listens watches) {i : Nat} {op : Op} {answer : Answer ι} {id : SessionId}
    (hr : c.requests[i]? = some ⟨op, none⟩) (hsession : c.session = some id)
    (hw : ∀ i ∈ watches, i ∈ watches') (harmed : op = .checkMaster → answer.rc = .ok → id ∈ watches') :
    Listens watches' { c with requests := c.requests.set i ⟨op, some answer⟩ } := by
  have hi : i < c.requests.length := (List.getElem?_eq_some_iff.1 hr).1
  rcases hl with hm | ⟨r, hmem, hopen⟩ | ⟨id', hid', hwatch⟩ | he
  · exact .inl hm
  · by_cases hrr : r = ⟨op, none⟩
    · subst hrr
      rcases hopen with rfl | ⟨rfl, -⟩
      · exact .inr (.inl ⟨_, List.mem_set hi _, .inl rfl⟩)
      · by_cases hok : answer.rc = .ok
        · exact .inr (.inr (.inl ⟨id, hsession, harmed rfl hok⟩))
        · exact .inr (.inl ⟨_, List.mem_set hi _, .inr ⟨rfl, fun _ ha => Option.some.inj ha ▸ hok⟩⟩)
    · exact .inr (.inl ⟨r, Pending.mem_set_of_ne hr hmem hrr, hopen⟩)
  · exact .inr (.inr (.inl ⟨id', hid', hw id' hwatch⟩))
  · exact .inr (.inr (.inr he))

theorem Listens.complete (hl : c.Listens watches) {i : Nat} {r : Request ι} (hr : c.requests[i]? = some r)
    (host : ι) (answer : Answer ι) (lost : List Op)
    (h : r.Open → r.op = .tryBecomeMaster ∧ answer.rc ≠ .noNode ∨
      r.op = .checkMaster ∧ answer.rc ≠ .ok ∧ answer.rc ≠ .nodeExists) :
    (completion host r.op answer { c with
      requests := c.requests.eraseIdx i, lost := lost }).Listens watches := by
  have hk := keeps_completion host r.op answer { c with requests := c.requests.eraseIdx i, lost := lost }
  by_cases hopen : r.Open
  · exact listens_completion (h hopen) _
  · have hleft : Listens watches { c with requests := c.requests.eraseIdx i, lost := lost } := by
      refine hl.imp_right fun hl => hl.imp_left fun ⟨r', hr', hopen'⟩ =>
        ⟨r', Pending.mem_eraseIdx_of_ne hr hr' ?_, hopen'⟩
      rintro rfl
      exact hopen hopen'
    exact hleft.keeps hk fun _ _ => id

theorem keeps_watcher {event : Event} (h : event ≠ .expiredSession) (c : Client ι) :
    c.Keeps (c.watcher event) := by
  cases event with
  | connected =>
    have hflags : c.Keeps { c with connected := true, expired := false } := .of_eq (rfl) (rfl) (rfl) (rfl)
    unfold watcher
    dsimp only
    split
    · exact hflags.trans ((keeps_submit _ _).trans (keeps_submit _ _))
    · exact hflags
  | disconnected => exact .of_eq (rfl) (rfl) (rfl) (rfl)
  | expiredSession => exact absurd (rfl) h
  | masterDeleted => exact keeps_submit _ _
  | nodesChanged => exact keeps_submit _ _

theorem Listens.deliver (hl : c.Listens watches) {i : Nat} {event : Event} (he : c.events[i]? = some event)
    (hne : event ≠ .expiredSession) :
    (watcher { c with events := c.events.eraseIdx i } event).Listens watches := by
  by_cases hdeleted : event = .masterDeleted
  · subst hdeleted
    exact listens_submit (.inl rfl) _
  · have hl' : Listens watches { c with events := c.events.eraseIdx i } := by
      refine hl.imp_right fun hl => hl.imp_right fun hl => hl.imp_right fun hmem => ?_
      exact Pending.mem_eraseIdx_of_ne he hmem (Ne.symm hdeleted)
    exact hl'.keeps (keeps_watcher hne _) fun _ _ => id

theorem Keeps.sound (hk : c.Keeps c') (h : ∀ r ∈ c.requests, r.Sound) : ∀ r ∈ c'.requests, r.Sound := by
  intro r hr
  rcases hk.fresh r hr with hold | hnone
  · exact h r hold
  · intro answer ha
    rw [hnone] at ha
    cases ha

end Client

/-! ### The server -/

/-- Applying a request arms watches, and answers soundly; a get that finds a master has armed the watch. -/
theorem Server.apply_watches [DecidableEq ι] (session : SessionId) (host : ι) (op : Op) (server : Server ι) :
    let res := server.apply session host op
    (∀ id ∈ server.masterWatches, id ∈ res.2.1.masterWatches) ∧ Request.Sound ⟨op, some res.1⟩ ∧
      (op = .checkMaster → res.1.rc = .ok → session ∈ res.2.1.masterWatches) := by
  cases op with
  | bootstrapServiceDiscovery | discoverNodes =>
    unfold apply
    dsimp only
    split <;> exact ⟨fun _ => id, fun _ _ => ⟨nofun, nofun⟩, nofun⟩
  | registerNode =>
    unfold apply
    dsimp only
    split
    · exact ⟨fun _ => id, fun _ _ => ⟨nofun, nofun⟩, nofun⟩
    · split <;> exact ⟨fun _ => id, fun _ _ => ⟨nofun, nofun⟩, nofun⟩
  | tryBecomeMaster =>
    unfold apply
    dsimp only
    split
    · exact ⟨fun _ => id, fun _ ha => ⟨fun _ => by cases ha; exact .inr rfl, nofun⟩, nofun⟩
    · exact ⟨fun _ => id, fun _ ha => ⟨fun _ => by cases ha; exact .inl rfl, nofun⟩, nofun⟩
  | checkMaster =>
    unfold apply
    dsimp only
    split
    · exact ⟨fun _ => List.mem_cons_of_mem _, fun _ ha => ⟨nofun, fun _ => by cases ha; exact .inl rfl⟩,
        fun _ _ => List.mem_cons_self⟩
    · exact ⟨fun _ => id, fun _ ha => ⟨nofun, fun _ => by cases ha; exact .inr rfl⟩, nofun⟩

namespace State

/-- The node listens, unless its session is gone or it knows that it was. -/
def Attends (s : State ι) (n : ι) : Prop := (s.client n).expired = false →
  (∀ id, (s.client n).session = some id → s.server.alive id = true) →
    (s.client n).Listens s.server.masterWatches

variable {s : State ι}

theorem fire_client (sessions : List SessionId) (event : Event) (s : State ι) (m : ι) :
    (s.client m).Keeps ((s.fire sessions event).client m) ∧
      ((s.fire sessions event).client m).session = (s.client m).session ∧
      ((s.fire sessions event).client m).expired = (s.client m).expired ∧
      ((s.fire sessions event).client m).requests = (s.client m).requests := by
  dsimp only [fire]
  split
  · exact ⟨Client.keeps_event _ _, rfl, rfl, rfl⟩
  · exact ⟨.refl _, rfl, rfl, rfl⟩

theorem mem_events_fire {sessions : List SessionId} {event : Event} {m : ι} {id : SessionId}
    (hsession : (s.client m).session = some id) (hid : id ∈ sessions) :
    event ∈ ((s.fire sessions event).client m).events := by
  dsimp only [fire]
  rw [if_pos (by rw [hsession]; simpa using hid)]
  exact List.mem_append_right _ (List.mem_singleton_self _)

theorem Attends.fire {m : ι} (h : s.Attends m) (sessions : List SessionId) (event : Event) :
    (s.fire sessions event).Attends m := by
  obtain ⟨hk, hsession, hexpired, -⟩ := fire_client sessions event s m
  intro he ha
  rw [hexpired] at he
  rw [hsession] at ha
  exact (h he ha).keeps hk fun _ _ => id

/-- A server on which the session of the node, if it is alive, was alive and has kept its watch. -/
theorem Attends.server {m : ι} (h : s.Attends m) {server : Server ι}
    (hs : ∀ id, (s.client m).session = some id → server.alive id = true →
      s.server.alive id = true ∧ (id ∈ s.server.masterWatches → id ∈ server.masterWatches)) :
    Attends { s with server := server } m :=
  fun he ha => (h he fun id hid => (hs id hid (ha id hid)).1).keeps (.refl _) fun id hid =>
    (hs id hid (ha id hid)).2

theorem Attends.fire_masterDeleted {m : ι} (h : s.Attends m) {server : Server ι} {sessions : List SessionId}
    (hs : ∀ id, (s.client m).session = some id → server.alive id = true →
      s.server.alive id = true ∧ (id ∈ s.server.masterWatches → id ∈ sessions)) :
    (State.fire sessions .masterDeleted { s with server := server }).Attends m := by
  obtain ⟨hk, hsession, hexpired, -⟩ := fire_client sessions .masterDeleted { s with server := server } m
  intro he ha
  rw [hexpired] at he
  rw [hsession] at ha
  rcases h he fun id hid => (hs id hid (ha id hid)).1 with hm | ⟨r, hr, hopen⟩ | ⟨id, hid, hmem⟩ | hevent
  · exact .inl (hk.isMaster hm)
  · exact .inr (.inl ⟨r, hk.requests r hr, hopen⟩)
  · have hfired := (hs id hid (ha id hid)).2 hmem
    exact .inr (.inr (.inr (mem_events_fire (s := { s with server := server }) hid hfired)))
  · exact .inr (.inr (.inr (hk.events _ hevent)))

theorem expireSession_client (id : SessionId) (m : ι) :
    ((s.expireSession id).client m).expired = (s.client m).expired ∧
      ((s.expireSession id).client m).requests = (s.client m).requests := by
  have hfire := fun (sessions : List SessionId) event (t : State ι) => (fire_client sessions event t m).2.2
  unfold State.expireSession
  dsimp only
  split <;> split
  · obtain ⟨he, hr⟩ := hfire (s.server.masterWatches.filter (· ≠ id)) .masterDeleted { s with server := _ }
    obtain ⟨he', hr'⟩ := hfire (s.server.nodesWatches.filter (· ≠ id)) .nodesChanged
      (State.fire (s.server.masterWatches.filter (· ≠ id)) .masterDeleted { s with server := _ })
    exact ⟨he'.trans he, hr'.trans hr⟩
  · exact hfire _ _ _
  · exact hfire _ _ _
  · exact ⟨rfl, rfl⟩

theorem ne_of_alive {id id' : SessionId} (h : (if id' = id then false else s.server.alive id') = true) :
    id' ≠ id ∧ s.server.alive id' = true := by
  split at h
  · cases h
  · exact ⟨‹_›, h⟩

/-- What the owner of `/master` leaves when its session expires, and what any other session leaves. -/
theorem Attends.expireSession {m : ι} (h : s.Attends m) (id : SessionId) :
    (s.expireSession id).Attends m := by
  unfold State.expireSession
  dsimp only
  have hkept : ∀ id', (if id' = id then false else s.server.alive id') = true →
      s.server.alive id' = true ∧
        (id' ∈ s.server.masterWatches → id' ∈ s.server.masterWatches.filter (· ≠ id)) := by
    intro id' ha
    obtain ⟨hne, ha⟩ := ne_of_alive ha
    exact ⟨ha, fun hmem => List.mem_filter.2 ⟨hmem, by simpa using hne⟩⟩
  split <;> split
  · exact Attends.fire (Attends.fire_masterDeleted h fun id' _ ha => hkept id' ha) _ _
  · exact Attends.fire (Attends.server h fun id' _ ha => hkept id' ha) _ _
  · exact Attends.fire_masterDeleted h fun id' _ ha => hkept id' ha
  · exact Attends.server h fun id' _ ha => hkept id' ha

theorem attends_setClient [DecidableEq ι] {n m : ι} {c : Client ι} (h : m ≠ n → s.Attends m)
    (hc : c.expired = false → (∀ id, c.session = some id → s.server.alive id = true) →
      c.Listens s.server.masterWatches) : (s.setClient n c).Attends m := by
  unfold Attends
  rw [setClient_client]
  split
  · exact hc
  · rename_i hm
    exact h hm

end State

/-! ### Runs -/

structure Watching (s : State ι) : Prop where
  inv : Inv s
  sound : ∀ n, ∀ r ∈ (s.client n).requests, r.Sound
  attends : ∀ n, s.Attends n

theorem watching_init : Watching (State.init (ι := ι)) where
  inv := inv_init
  sound _ r hr := by
    rcases List.mem_pair.1 (show r ∈ [_, _] from hr) with rfl | rfl <;> exact fun _ ha => nomatch ha
  attends _ _ _ := Client.listens_submit (.inl rfl) _

section
variable [DecidableEq ι] {s s' : State ι} {a : Label ι} {n : ι}

theorem sound_setClient {c : Client ι} (h : ∀ n, ∀ r ∈ (s.client n).requests, r.Sound)
    (hc : ∀ r ∈ c.requests, r.Sound) : ∀ m, ∀ r ∈ ((s.setClient n c).client m).requests, r.Sound := by
  intro m
  rw [State.setClient_client]
  split
  · exact hc
  · exact h m

/-- A request that the server applies; the node keeps its session and all but the request. -/
theorem Watching.apply (hw : Watching s) {id : SessionId} {op : Op} {c : Client ι}
    (hinv : Inv (State.fire (s.server.apply id n op).2.2 .nodesChanged
      ({ s with server := (s.server.apply id n op).2.1 }.setClient n c)))
    (hsound : ∀ r ∈ c.requests, r.Sound)
    (hexpired : c.expired = (s.client n).expired) (hsession : c.session = (s.client n).session)
    (hc : (s.client n).Listens s.server.masterWatches →
      c.Listens (s.server.apply id n op).2.1.masterWatches) :
    Watching (State.fire (s.server.apply id n op).2.2 .nodesChanged
      ({ s with server := (s.server.apply id n op).2.1 }.setClient n c)) := by
  have halive : (s.server.apply id n op).2.1.alive = s.server.alive := (Server.apply_cases id n op s.server).1
  obtain ⟨hwatches, -⟩ := Server.apply_watches id n op s.server
  refine ⟨hinv, fun m r hr => ?_, fun m => State.Attends.fire (State.attends_setClient (fun _ => ?_) ?_) _ _⟩
  · rw [(State.fire_client _ _ _ m).2.2.2] at hr
    exact sound_setClient (s := { s with server := (s.server.apply id n op).2.1 }) hw.sound hsound m r hr
  · exact (hw.attends m).server fun id' _ ha => ⟨halive ▸ ha, hwatches id'⟩
  · intro he ha
    rw [hexpired] at he
    rw [hsession] at ha
    exact hc (hw.attends n he fun i hi => by rw [← halive]; exact ha i hi)

theorem Watching.setClient (hw : Watching s) {c : Client ι} (hinv : Inv (s.setClient n c))
    (hsound : ∀ r ∈ c.requests, r.Sound)
    (hc : c.expired = false → (∀ id, c.session = some id → s.server.alive id = true) →
      c.Listens s.server.masterWatches) : Watching (s.setClient n c) :=
  ⟨hinv, sound_setClient hw.sound hsound, fun m => State.attends_setClient (fun _ => hw.attends m) hc⟩

/-- A client whose requests are those of the node, as far as they have answers. -/
theorem Watching.keeps (hw : Watching s) {c : Client ι} (hinv : Inv (s.setClient n c))
    (hk : (s.client n).Keeps c) (hexpired : c.expired = (s.client n).expired) :
    Watching (s.setClient n c) := by
  refine hw.setClient hinv (hk.sound (hw.sound n)) fun he ha => ?_
  rw [hexpired] at he
  exact (hw.attends n he fun id hid => ha id (hk.session id hid)).keeps hk fun _ _ => fun h => h

theorem Watching.connect (hw : Watching s) (hsession : (s.client n).session = none) {server : Server ι}
    {c : Client ι} (hinv : Inv ({ s with server := server }.setClient n c))
    (halive : ∀ id, server.alive id = true → id = s.server.nextSession ∨ s.server.alive id = true)
    (hwatches : server.masterWatches = s.server.masterWatches) (hk : (s.client n).Keeps c)
    (hexpired : c.expired = (s.client n).expired) : Watching ({ s with server := server }.setClient n c) := by
  refine ⟨hinv, sound_setClient (s := { s with server := server }) hw.sound (hk.sound (hw.sound n)),
    fun m => ?_⟩
  refine State.attends_setClient (fun _ => (hw.attends m).server fun id hid ha =>
    ⟨?_, fun h => hwatches ▸ h⟩) fun he _ => ?_
  · exact (halive id ha).resolve_left (ne_of_lt (hw.inv.session_lt m id hid))
  · rw [hexpired] at he
    refine (hw.attends n he fun id hid => ?_).keeps hk fun _ _ h => hwatches ▸ h
    rw [hsession] at hid
    cases hid

theorem Watching.complete (hw : Watching s) {i : Nat} {r : Request ι} {answer : Answer ι} {lost : List Op}
    (hinv : Inv (s.setClient n (Client.completion n r.op answer
      { s.client n with requests := (s.client n).requests.eraseIdx i, lost := lost })))
    (hr : (s.client n).requests[i]? = some r)
    (h : r.Open → r.op = .tryBecomeMaster ∧ answer.rc ≠ .noNode ∨
      r.op = .checkMaster ∧ answer.rc ≠ .ok ∧ answer.rc ≠ .nodeExists) :
    Watching (s.setClient n (Client.completion n r.op answer
      { s.client n with requests := (s.client n).requests.eraseIdx i, lost := lost })) := by
  have hk := Client.keeps_completion n r.op answer
    { s.client n with requests := (s.client n).requests.eraseIdx i, lost := lost }
  refine hw.setClient hinv (hk.sound fun r hr => hw.sound n r (List.mem_of_mem_eraseIdx hr)) fun he ha => ?_
  rw [Client.expired_completion] at he
  exact (hw.attends n he fun id hid => ha id (hk.session id hid)).complete hr n answer lost h

theorem Watching.deliver (hw : Watching s) {i : Nat} {event : Event}
    (hinv : Inv (s.setClient n
      (Client.watcher { s.client n with events := (s.client n).events.eraseIdx i } event)))
    (hevent : (s.client n).events[i]? = some event) :
    Watching (s.setClient n (Client.watcher { s.client n with
      events := (s.client n).events.eraseIdx i } event)) := by
  by_cases hne : event = .expiredSession
  · subst hne
    exact hw.setClient hinv (fun _ h => absurd h List.not_mem_nil) fun he => nomatch he
  · have hk := Client.keeps_watcher hne { s.client n with events := (s.client n).events.eraseIdx i }
    refine hw.setClient hinv (hk.sound (hw.sound n)) fun he ha => ?_
    cases hexpired : (s.client n).expired with
    | false => exact (hw.attends n hexpired fun id hid => ha id (hk.session id hid)).deliver hevent hne
    | true =>
      -- Only the event of the new session clears `kExpired`, and its watcher asks for `/master`.
      cases event with
      | connected =>
        unfold Client.watcher
        dsimp only
        rw [if_pos hexpired]
        exact (Client.listens_submit (.inl rfl) _).keeps (Client.keeps_submit _ _) fun _ _ h => h
      | disconnected | masterDeleted | nodesChanged => exact nomatch hexpired.symm.trans he
      | expiredSession => exact absurd rfl hne

theorem watching_step (hw : Watching s) (hs : step s a = some s') : Watching s' := by
  have hinv := inv_change hw.inv (step_change hs)
  cases a with
  | connect n =>
    simp only [step] at hs
    split at hs
    · cases hs
      exact hw.keeps hinv (Client.keeps_event _ _) rfl
    · rename_i hsession
      cases hs
      refine hw.connect hsession hinv (fun id ha => ?_) rfl ?_ rfl
      · dsimp only at ha
        split at ha
        · exact .inl ‹_›
        · exact .inr ha
      · refine ⟨id, fun _ => id, fun _ => .inl, fun i hi => ?_, fun _ => List.mem_append_left _⟩
        rw [hsession] at hi
        cases hi
  | disconnect n =>
    simp only [step] at hs
    cases hs
    exact hw.keeps hinv (Client.keeps_event _ _) rfl
  | expire id =>
    simp only [step] at hs
    split at hs
    · cases hs
      exact ⟨hinv, fun m r hr => hw.sound m r ((State.expireSession_client id m).2 ▸ hr),
        fun m => (hw.attends m).expireSession id⟩
    · cases hs
  | apply n i =>
    simp only [step] at hs
    split at hs
    · rename_i id op hsession hr
      split at hs
      · cases hs
        obtain ⟨hwatches, hsound, harmed⟩ := Server.apply_watches id n op s.server
        refine hw.apply hinv (fun r hr' => ?_) rfl rfl fun hl => ?_
        · rcases List.mem_or_eq_of_mem_set hr' with hold | rfl
          · exact hw.sound n r hold
          · exact hsound
        · exact hl.answer hr hsession (fun i => hwatches i) harmed
      · cases hs
    · cases hs
  | applyLost n i =>
    simp only [step] at hs
    split at hs
    · rename_i id op hsession hr
      split at hs
      · cases hs
        obtain ⟨hwatches, -⟩ := Server.apply_watches id n op s.server
        exact hw.apply hinv (hw.sound n) rfl rfl fun hl => hl.keeps (.of_eq rfl rfl rfl rfl) fun i _ =>
          hwatches i
      · cases hs
    · cases hs
  | complete n i =>
    simp only [step] at hs
    split at hs
    · rename_i op answer hr
      cases hs
      refine hw.complete hinv hr fun hopen => ?_
      obtain ⟨hcreate, hget⟩ := hw.sound n _ (List.mem_of_getElem? hr) answer rfl
      rcases hopen with hop | ⟨hop, hrc⟩
      · refine .inl ⟨hop, fun hno => ?_⟩
        rcases hcreate hop with h | h <;> rw [hno] at h <;> cases h
      · refine .inr ⟨hop, hrc answer rfl, fun hexists => ?_⟩
        rcases hget hop with h | h <;> rw [hexists] at h <;> cases h
    · cases hs
  | lose n i isTimeout =>
    simp only [step] at hs
    split at hs
    · rename_i op answer hr
      cases hs
      refine hw.complete hinv hr fun hopen => ?_
      rcases hopen with hop | ⟨hop, -⟩
      · refine .inl ⟨hop, fun h => ?_⟩
        cases isTimeout <;> cases h
      · refine .inr ⟨hop, fun h => ?_, fun h => ?_⟩ <;> cases isTimeout <;> cases h
    · cases hs
  | deliver n i =>
    simp only [step] at hs
    split at hs
    · rename_i event hevent
      cases hs
      exact hw.deliver hinv hevent
    · cases hs

/-- **A node whose session is alive and that does not know of an expiry is master, or has a request about
`/master` in flight, or its watch set, or the event of its watch waiting.** -/
theorem listens_of_reachable (h : system.Reachable s) {n : ι} {id : SessionId}
    (hsession : (s.client n).session = some id) (halive : s.server.alive id = true)
    (hexpired : (s.client n).expired = false) :
    (s.client n).isMaster = true ∨
      (∃ r ∈ (s.client n).requests, r.op = .tryBecomeMaster ∨ r.op = .checkMaster) ∨
      id ∈ s.server.masterWatches ∨ .masterDeleted ∈ (s.client n).events := by
  have hw : Watching s :=
    h.invariant (fun _ hs => hs ▸ watching_init) fun _ _ _ hw _ hs => watching_step hw hs
  have hl := hw.attends n hexpired fun i hi => Option.some.inj (hsession.symm.trans hi) ▸ halive
  refine hl.imp_right fun hl => ?_
  rcases hl with ⟨r, hr, hopen⟩ | ⟨i, hi, hmem⟩ | he
  · exact .inl ⟨r, hr, hopen.imp_right And.left⟩
  · exact .inr (.inl (Option.some.inj (hi.symm.trans hsession) ▸ hmem))
  · exact .inr (.inr he)

end

/-- The first node is master, and the second has found it: its watch is set and nothing is in flight. -/
def watchingRun : List (Label Bool) :=
  elect true ++ [.connect false, .apply false 1, .complete false 1, .apply false 1, .complete false 1]

theorem listens_watchingRun : ∃ s : State Bool, (s.client false).requests =
    [⟨.bootstrapServiceDiscovery, none⟩] ∧ (s.client false).isMaster = false ∧
    ((s.client false).isMaster = true ∨
      (∃ r ∈ (s.client false).requests, r.op = .tryBecomeMaster ∨ r.op = .checkMaster) ∨
      1 ∈ s.server.masterWatches ∨ .masterDeleted ∈ (s.client false).events) := by
  obtain ⟨s, hs⟩ : ∃ s, exec step (State.init (ι := Bool)) watchingRun = some s :=
    Option.isSome_iff_exists.1 (by decide +kernel)
  have hclient : ((s.client false).requests, (s.client false).isMaster, (s.client false).session,
      s.server.alive 1, (s.client false).expired) = ([⟨.bootstrapServiceDiscovery, none⟩], false, some 1,
        true, false) :=
    eq_of_map_exec hs (f := fun s => ((s.client false).requests, (s.client false).isMaster,
      (s.client false).session, s.server.alive 1, (s.client false).expired)) (by decide +kernel)
  simp only [Prod.mk.injEq] at hclient
  obtain ⟨hrequests, hm, hsession, halive, hexpired⟩ := hclient
  exact ⟨s, hrequests, hm, listens_of_reachable (reachable_exec (.init rfl) hs) hsession halive hexpired⟩

end Coordination

end Iu9Db
