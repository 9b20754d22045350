import Iu9Db.Controller

/-!
# What `Controller::Get` returns and repairs

`Get` compares the local version that `StorageSystem::Get` reports with the best reply. For a live value
in a table on disk that is the stored version. For a row in memory it is zero, and for a tombstone there
is none; there the reply wins whatever its version. `getsNewest_iff` says when that does no harm.
-/

namespace Iu9Db

open StorageSystem

namespace ReadRepair

/-- The local entry and the replies, as entries. -/
def candidates (outcomes : Result (List (Result ValueDTO))) (key : Str) (s : StorageSystem) : List Value :=
  (s.entry key).toList ++ (replies outcomes).map fun got => ⟨some got.value, got.version⟩

/-- An answer that is the newest candidate; that is not-found where the newest one is a tombstone. -/
def AnswersNewest (candidates : List Value) : Result ValueDTO → Prop
  | .ok got => Versioned.IsNewest Value.version candidates ⟨some got.value, got.version⟩
  | .error e => e.wraps .kNotFound = true ∧
      (candidates = [] ∨ ∃ version, Versioned.IsNewest Value.version candidates ⟨none, version⟩)

/-- The call returns the newest entry, and the local one does not get older. -/
structure GetsNewest (isOk : Bool) (outcomes : Result (List (Result ValueDTO))) (key : Str) (c : Controller) :
    Prop where
  returned : AnswersNewest (candidates outcomes key c.storageSystem) (c.get isOk ⟨key⟩ outcomes).1
  kept : ∀ e, c.storageSystem.entry key = some e →
    ∃ e', (c.get isOk ⟨key⟩ outcomes).2.storageSystem.entry key = some e' ∧ e.version ≤ e'.version
  buried : ∀ version, c.storageSystem.entry key = some ⟨none, version⟩ →
    (∀ got ∈ replies outcomes, got.version < version) →
    (c.get isOk ⟨key⟩ outcomes).2.storageSystem.entry key = some ⟨none, version⟩

/-- The local entry, if there is one, has a reply that is as new, or it is a tombstone and there is no
reply, or it is a live value that `Get` reports with its version: one that is not in memory, or one of
version zero. -/
def Reported (outcomes : Result (List (Result ValueDTO))) (key : Str) (s : StorageSystem) : Prop :=
  ∀ e, s.entry key = some e → (∃ got ∈ replies outcomes, e.version ≤ got.version) ∨
    (e.value = none ∧ replies outcomes = []) ∨
    (e.value ≠ none ∧ (s.storage.find key = none ∨ e.version = 0))

section
variable {s : StorageSystem} {key : Str} {outcomes : Result (List (Result ValueDTO))}

/-- What `StorageSystem::Get` reports about the local entry. -/
theorem local_cases (h : s.Wf) (key : Str) :
    (s.entry key = none ∧ s.get key = notFound key) ∨
    (∃ version, s.entry key = some ⟨none, version⟩ ∧ s.get key = notFound key) ∨
    (∃ value version, s.entry key = some ⟨some value, version⟩ ∧ s.storage.find key ≠ none ∧
      s.get key = .ok ⟨value, 0⟩) ∨
    ∃ value version, s.entry key = some ⟨some value, version⟩ ∧ s.storage.find key = none ∧
      s.get key = .ok ⟨value, version⟩ := by
  have hget := get_eq h.persistentStorage key
  have herror : reported (s.storage.find key) (s.persistentStorage.find key) = none →
    s.get key = notFound key := by
    intro hnone
    rw [hnone] at hget
    cases hg : s.get key with
    | ok got => rw [hg] at hget; cases hget
    | error e => rw [← hg]; exact eq_notFound hg
  have hok : ∀ got, reported (s.storage.find key) (s.persistentStorage.find key) = some got →
      s.get key = .ok got := by
    intro got hsome
    rw [hsome] at hget
    cases hg : s.get key with
    | ok got' => rw [hg] at hget; rw [Option.some.inj hget]
    | error e => rw [hg] at hget; cases hget
  unfold entry
  cases hm : s.storage.find key with
  | some row =>
    obtain ⟨value, version⟩ := row
    rw [hm] at herror hok
    cases value with
    | none => exact .inr (.inl ⟨version, rfl, herror rfl⟩)
    | some value => exact .inr (.inr (.inl ⟨value, version, rfl, by simp, hok _ rfl⟩))
  | none =>
    rw [hm] at herror hok
    cases hd : s.persistentStorage.find key with
    | none => rw [hd] at herror; exact .inl ⟨rfl, herror rfl⟩
    | some record =>
      obtain ⟨k, value, version⟩ := record
      rw [hd] at herror hok
      cases value with
      | none => exact .inr (.inl ⟨version, rfl, herror rfl⟩)
      | some value => exact .inr (.inr (.inr ⟨value, version, rfl, rfl, hok _ rfl⟩))

/-- The repair writes the value or leaves everything as it is. -/
theorem entry_insert (h : s.Wf) (isOk : Bool) (kwPair : KwPair) :
    (s.insert isOk kwPair).2.entry kwPair.key = s.entry kwPair.key ∨
    (s.insert isOk kwPair).2.entry kwPair.key = some ⟨some kwPair.value, kwPair.version⟩ := by
  rcases exec_cases isOk (.insert kwPair) s with ⟨-, he⟩ | ⟨-, -, e, he⟩ | ⟨-, -, he⟩
  · exact .inl (by rw [show s.insert isOk kwPair = _ from he])
  · exact .inl (by rw [show s.insert isOk kwPair = _ from he])
  · refine .inr ?_
    rw [show s.insert isOk kwPair = _ from he, entry]
    have hfind := h.storage.find_write (f := (Write.insert kwPair).applyTo)
      (fun table k => Write.find_applyTo (.insert kwPair) table k) kwPair.key
    rw [show (Write.insert kwPair).key = kwPair.key from rfl, if_pos rfl] at hfind
    rw [hfind]
    rfl

theorem mem_candidates {v : Value} : v ∈ candidates outcomes key s ↔
    s.entry key = some v ∨ ∃ got ∈ replies outcomes, ⟨some got.value, got.version⟩ = v := by
  simp [candidates]

/-- The best reply is the newest candidate, if no local entry is newer. -/
theorem isNewest_reply {got : ValueDTO} (hgot : Versioned.IsNewest ValueDTO.version (replies outcomes) got) :
    Versioned.IsNewest Value.version (candidates outcomes key s) ⟨some got.value, got.version⟩ ↔
      ∀ e, s.entry key = some e → e.version ≤ got.version := by
  constructor
  · exact fun hnew e he => hnew.le e (mem_candidates.2 (.inl he))
  · intro hle
    refine ⟨mem_candidates.2 (.inr ⟨got, hgot.mem, rfl⟩), fun v hv => ?_⟩
    rcases mem_candidates.1 hv with he | ⟨got', hgot', rfl⟩
    · exact hle v he
    · exact hgot.le got' hgot'

/-- The local entry is the newest candidate, if no reply is newer. -/
theorem isNewest_local {e : Value} (he : s.entry key = some e)
    (hle : ∀ got ∈ replies outcomes, got.version ≤ e.version) :
    Versioned.IsNewest Value.version (candidates outcomes key s) e := by
  refine ⟨mem_candidates.2 (.inl he), fun v hv => ?_⟩
  rcases mem_candidates.1 hv with hv | ⟨got, hgot, rfl⟩
  · rw [he] at hv
    rw [Option.some.inj hv]
  · exact hle got hgot

/-! ### The two outcomes of a call -/

variable {isOk : Bool} {c : Controller} {got : ValueDTO}

theorem get_of_no_reply (hr : replies outcomes = []) :
    c.get isOk ⟨key⟩ outcomes = (c.storageSystem.get key, c) := by
  have hnone := toOption_getNewestFromReplicas outcomes
  rw [Versioned.newestOf_eq_none.2 hr] at hnone
  obtain ⟨e, he⟩ := Result.exists_error hnone
  simp only [Controller.get, getLocal, he]

theorem get_of_reply (hgot : Versioned.newestOf ValueDTO.version (replies outcomes) = some got) :
    c.get isOk ⟨key⟩ outcomes =
      if takesReplicas (c.storageSystem.get key) got then
        (.ok got, { c with storageSystem := (c.storageSystem.insert isOk ⟨key, got.value, got.version⟩).2 })
      else (c.storageSystem.get key, c) := by
  have hsome := toOption_getNewestFromReplicas outcomes
  rw [hgot] at hsome
  simp only [Controller.get, getLocal, Result.eq_ok hsome]
  split <;> rfl

theorem getsNewest_of_local (hget : c.get isOk ⟨key⟩ outcomes = (c.storageSystem.get key, c)) :
    GetsNewest isOk outcomes key c ↔
      AnswersNewest (candidates outcomes key c.storageSystem) (c.storageSystem.get key) := by
  constructor
  · intro h
    have hreturned := h.returned
    rwa [hget] at hreturned
  · intro h
    refine ⟨by rwa [hget], fun e he => ?_, fun version he _ => ?_⟩
    · rw [hget]
      exact ⟨e, he, le_rfl⟩
    · rw [hget]
      exact he

theorem getsNewest_of_takes (h : c.storageSystem.Wf)
    (hgot : Versioned.newestOf ValueDTO.version (replies outcomes) = some got)
    (ht : takesReplicas (c.storageSystem.get key) got = true) :
    GetsNewest isOk outcomes key c ↔ ∀ e, c.storageSystem.entry key = some e → e.version ≤ got.version := by
  have hget : c.get isOk ⟨key⟩ outcomes = _ := get_of_reply hgot
  rw [if_pos ht] at hget
  have hnewest := Versioned.isNewest_newestOf hgot
  rw [← isNewest_reply hnewest]
  constructor
  · intro hg
    have hreturned := hg.returned
    rwa [hget] at hreturned
  · intro hreturned
    have hle := (isNewest_reply hnewest).1 hreturned
    refine ⟨by rw [hget]; exact hreturned, fun e he => ?_, fun version he hlt => ?_⟩
    · rw [hget]
      rcases entry_insert h isOk ⟨key, got.value, got.version⟩ with hentry | hentry
      · exact ⟨e, hentry.trans he, le_rfl⟩
      · exact ⟨_, hentry, hle e he⟩
    · exact absurd (hle _ he) (not_le.2 (hlt got hnewest.mem))

/-! ### The four local answers -/

theorem reported_iff {e : Value} (he : s.entry key = some e) : Reported outcomes key s ↔
    (∃ got ∈ replies outcomes, e.version ≤ got.version) ∨ (e.value = none ∧ replies outcomes = []) ∨
      (e.value ≠ none ∧ (s.storage.find key = none ∨ e.version = 0)) := by
  constructor
  · exact fun h => h e he
  · intro h e' he'
    rw [← Option.some.inj (he.symm.trans he')]
    exact h

theorem le_newest_iff (hgot : Versioned.newestOf ValueDTO.version (replies outcomes) = some got)
    {version : UInt64} : version ≤ got.version ↔ ∃ got ∈ replies outcomes, version ≤ got.version := by
  have hnewest := Versioned.isNewest_newestOf hgot
  exact ⟨fun h => ⟨got, hnewest.mem, h⟩, fun ⟨got', hmem, h⟩ => h.trans (hnewest.le got' hmem)⟩

theorem getsNewest_absent (h : c.storageSystem.Wf) (he : c.storageSystem.entry key = none)
    (hg : c.storageSystem.get key = notFound key) : GetsNewest isOk outcomes key c := by
  cases hgot : Versioned.newestOf ValueDTO.version (replies outcomes) with
  | none =>
    have hr := Versioned.newestOf_eq_none.1 hgot
    rw [getsNewest_of_local (get_of_no_reply hr), hg]
    exact ⟨wraps_makeError _ _ _, .inl (by simp [candidates, he, hr])⟩
  | some got =>
    rw [getsNewest_of_takes h hgot (by rw [hg]; rfl)]
    exact fun e he' => absurd (he.symm.trans he') nofun

theorem getsNewest_tombstone (h : c.storageSystem.Wf) {version : UInt64}
    (he : c.storageSystem.entry key = some ⟨none, version⟩) (hg : c.storageSystem.get key = notFound key) :
    GetsNewest isOk outcomes key c ↔ Reported outcomes key c.storageSystem := by
  rw [reported_iff he]
  cases hgot : Versioned.newestOf ValueDTO.version (replies outcomes) with
  | none =>
    have hr := Versioned.newestOf_eq_none.1 hgot
    rw [getsNewest_of_local (get_of_no_reply hr), hg]
    exact iff_of_true ⟨wraps_makeError _ _ _, .inr ⟨version, isNewest_local he (by simp [hr])⟩⟩
      (.inr (.inl ⟨rfl, hr⟩))
  | some got =>
    have hr : replies outcomes ≠ [] := List.ne_nil_of_mem (Versioned.isNewest_newestOf hgot).mem
    rw [getsNewest_of_takes h hgot (by rw [hg]; rfl), ← le_newest_iff hgot]
    simp [he, hr]

/-- A live row in memory is reported with version zero. -/
theorem getsNewest_memory (h : c.storageSystem.Wf) {value : Str} {version : UInt64}
    (he : c.storageSystem.entry key = some ⟨some value, version⟩)
    (hm : c.storageSystem.storage.find key ≠ none) (hg : c.storageSystem.get key = .ok ⟨value, 0⟩) :
    GetsNewest isOk outcomes key c ↔ Reported outcomes key c.storageSystem := by
  -- Where no reply is taken, the answer is newest only if zero is the version that is stored.
  have hzero : (∀ got ∈ replies outcomes, got.version ≤ 0) →
      (AnswersNewest (candidates outcomes key c.storageSystem) (.ok ⟨value, 0⟩) ↔ version = 0) := by
    intro hle
    constructor
    · intro hnew
      exact le_antisymm (hnew.le _ (mem_candidates.2 (.inl he))) UInt64.zero_le
    · rintro rfl
      exact isNewest_local he hle
  rw [reported_iff he]
  cases hgot : Versioned.newestOf ValueDTO.version (replies outcomes) with
  | none =>
    have hr := Versioned.newestOf_eq_none.1 hgot
    rw [getsNewest_of_local (get_of_no_reply hr), hg, hzero (by simp [hr])]
    simp [hr, hm]
  | some got =>
    rw [← le_newest_iff hgot]
    by_cases ht : takesReplicas (c.storageSystem.get key) got
    · rw [getsNewest_of_takes h hgot ht]
      constructor
      · exact fun hle => .inl (hle _ he)
      · rintro (hle | ⟨hnone, -⟩ | ⟨-, hnone | hversion⟩) e he' <;> rw [← Option.some.inj (he.symm.trans he')]
        · exact hle
        · cases hnone
        · exact absurd hnone hm
        · exact hversion ▸ UInt64.zero_le
    · have hget : c.get isOk ⟨key⟩ outcomes = _ := get_of_reply hgot
      rw [if_neg ht] at hget
      have hle : got.version ≤ 0 := by
        rw [hg] at ht
        exact not_lt.1 fun hlt => ht (decide_eq_true hlt)
      have hgot0 : got.version = 0 := le_antisymm hle UInt64.zero_le
      rw [getsNewest_of_local hget, hg,
        hzero fun got' hmem => ((Versioned.isNewest_newestOf hgot).le got' hmem).trans hle]
      constructor
      · rintro rfl
        exact .inl UInt64.zero_le
      · rintro (hle' | ⟨hnone, -⟩ | ⟨-, hnone | hversion⟩)
        · exact le_antisymm (hle'.trans hle) UInt64.zero_le
        · cases hnone
        · exact absurd hnone hm
        · exact hversion

/-- A live value on disk is reported with its version. -/
theorem getsNewest_disk (h : c.storageSystem.Wf) {value : Str} {version : UInt64}
    (he : c.storageSystem.entry key = some ⟨some value, version⟩)
    (hg : c.storageSystem.get key = .ok ⟨value, version⟩) : GetsNewest isOk outcomes key c := by
  cases hgot : Versioned.newestOf ValueDTO.version (replies outcomes) with
  | none =>
    have hr := Versioned.newestOf_eq_none.1 hgot
    rw [getsNewest_of_local (get_of_no_reply hr), hg]
    exact isNewest_local he (by simp [hr])
  | some got =>
    have hnewest := Versioned.isNewest_newestOf hgot
    by_cases ht : takesReplicas (c.storageSystem.get key) got
    · rw [getsNewest_of_takes h hgot ht]
      intro e he'
      rw [← Option.some.inj (he.symm.trans he')]
      rw [hg] at ht
      exact (of_decide_eq_true ht).le
    · have hget : c.get isOk ⟨key⟩ outcomes = _ := get_of_reply hgot
      rw [if_neg ht] at hget
      rw [getsNewest_of_local hget, hg]
      rw [hg] at ht
      have hle : got.version ≤ version := not_lt.1 fun hlt => ht (decide_eq_true hlt)
      exact isNewest_local he fun got' hmem => (hnewest.le got' hmem).trans hle

end

/-- **A `Get` returns and repairs to the newest entry exactly when `Reported` holds** of the local entry
and the replies. -/
theorem getsNewest_iff {c : Controller} (h : c.storageSystem.Wf) (isOk : Bool)
    (outcomes : Result (List (Result ValueDTO))) (key : Str) :
    GetsNewest isOk outcomes key c ↔ Reported outcomes key c.storageSystem := by
  rcases local_cases h key with ⟨he, hg⟩ | ⟨version, he, hg⟩ | ⟨value, version, he, hm, hg⟩ |
    ⟨value, version, he, hm, hg⟩
  · exact iff_of_true (getsNewest_absent h he hg) fun e he' => absurd (he.symm.trans he') nofun
  · exact getsNewest_tombstone h he hg
  · exact getsNewest_memory h he hm hg
  · exact iff_of_true (getsNewest_disk h he hg) ((reported_iff he).2 (.inr (.inr ⟨nofun, .inl hm⟩)))

/-- A node with one entry of version 9 in a table on disk, and one of version 2 in memory. -/
def storingNode : Controller :=
  ⟨(exec true (.insert ⟨[97], [2], 2⟩) { StorageSystem.new with
    persistentStorage := ⟨[⟨0, [⟨[98], some [9], 9⟩]⟩]⟩ }).2, ⟨10⟩, false, []⟩

theorem wf_storingNode : storingNode.storageSystem.Wf := by
  have hdisk : PersistentStorageCollection.Wf ⟨[⟨0, [⟨[98], some [9], 9⟩]⟩]⟩ := fun st hst => by
    rw [List.mem_singleton.1 hst]
    exact ⟨List.pairwise_singleton _ _⟩
  exact (exec_true (s := { StorageSystem.new with persistentStorage := ⟨[⟨0, [⟨[98], some [9], 9⟩]⟩]⟩ })
    ⟨wf_new.storage, hdisk⟩ _).2.1

/-- A replica has a newer entry of the key in memory, and none has one of the key on disk. -/
theorem getsNewest_storingNode :
    (storingNode.storageSystem.get [97]).toOption = some ⟨[2], 0⟩ ∧
    (storingNode.storageSystem.get [98]).toOption = some ⟨[9], 9⟩ ∧
    GetsNewest true (.ok [.error (makeError []), .ok ⟨[1], 7⟩, .ok ⟨[3], 1⟩]) [97] storingNode ∧
    GetsNewest true (.ok [.ok ⟨[1], 7⟩, .ok ⟨[2], 3⟩]) [98] storingNode := by
  refine ⟨by decide +kernel, by decide +kernel, (getsNewest_iff wf_storingNode true _ [97]).2 ?_,
    (getsNewest_iff wf_storingNode true _ [98]).2 ?_⟩
  · have he : storingNode.storageSystem.entry [97] = some ⟨some [2], 2⟩ := by decide +kernel
    exact (reported_iff he).2 (.inl ⟨⟨[1], 7⟩, List.mem_cons_self, by decide⟩)
  · have he : storingNode.storageSystem.entry [98] = some ⟨some [9], 9⟩ := by decide +kernel
    have hm : storingNode.storageSystem.storage.find [98] = none := by decide +kernel
    exact (reported_iff he).2 (.inr (.inr ⟨Option.some_ne_none _, .inl hm⟩))

/-- A value of version 2 in memory, and a replica that has version 1. -/
theorem not_getsNewest : ¬ ∀ (c : Controller) (isOk : Bool) (outcomes : Result (List (Result ValueDTO)))
    (key : Str), c.storageSystem.Wf → GetsNewest isOk outcomes key c := by
  intro hall
  let s := (exec true (.insert ⟨[97], [2], 2⟩) .new).2
  have h := (hall ⟨s, ⟨3⟩, false, []⟩ true (.ok [.ok ⟨[1], 1⟩]) [97] (exec_true wf_new _).2.1).kept
    ⟨some [2], 2⟩ rfl
  obtain ⟨e', he', hle⟩ := h
  have hentry : ((Controller.mk s ⟨3⟩ false []).get true ⟨[97]⟩
    (.ok [.ok ⟨[1], 1⟩])).2.storageSystem.entry [97] =
      some ⟨some [1], 1⟩ := by decide +kernel
  rw [Option.some.inj (he'.symm.trans hentry)] at hle
  exact absurd hle (by decide)

end ReadRepair

end Iu9Db
