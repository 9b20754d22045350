import Iu9Db.VersionNumberGenerator
import Iu9Db.Lib.Transition

/-!
# The version generator under threads

Any number of threads call `Generate` and `UpdateMaxVersion`, and each access to `current_` is one
step: `fetch_add`, `load`, `compare_exchange_weak`. The generator runs ahead of a version that it has
seen, except where `current_` still is the version that an `UpdateMaxVersion` has put there: there the
next `Generate` hands out that very version (`runsAhead_iff`). No version is handed out twice
(`increasing_of_reachableBy`).
-/

namespace Iu9Db

open Transition

namespace VersionThreads

/-- What a thread does next. `seen`: the versions whose `UpdateMaxVersion` had returned when this call
of `Generate` began. -/
inductive ThreadPc
  | idle
  | generate (seen : List UInt64)
  | load (version : UInt64)
  | loaded (version current : UInt64)
  | exchanged (version : UInt64)
deriving DecidableEq

/-- A call of `Generate` that has its version. -/
structure Generated where
  seen : List UInt64
  version : UInt64
deriving DecidableEq

/-- `updated`: the versions whose `UpdateMaxVersion` has returned. `installed`: the version in
`current_`, where the last change was a `compare_exchange_weak`. -/
structure State where
  generator : VersionNumberGenerator
  pcs : Nat → ThreadPc
  updated : List UInt64
  installed : Option UInt64
  generated : List Generated

def State.setPc (s : State) (t : Nat) (pc : ThreadPc) : State := { s with pcs := Function.update s.pcs t pc }

/-- `fail`: a `compare_exchange_weak` that fails although it finds what it expects. -/
inductive Label
  | beginGenerate (t : Nat)
  | beginUpdate (t : Nat) (version : UInt64)
  | run (t : Nat)
  | fail (t : Nat)

/-- The next access of a thread. -/
def runThread (s : State) (t : Nat) : Option State :=
  match s.pcs t with
  | .idle => none
  | .generate seen =>
    let (version, generator) := s.generator.generate
    some { s.setPc t .idle with
      generator := generator
      installed := none
      generated := s.generated ++ [⟨seen, version⟩] }
  | .load version => some (s.setPc t (.loaded version s.generator.current))
  | .loaded version current =>
    if current > version then some { s.setPc t .idle with updated := s.updated ++ [version] }
    else if s.generator.current = current then
      some { s.setPc t (.exchanged version) with generator := ⟨version⟩, installed := some version }
    else some (s.setPc t (.load version))
  | .exchanged version => some { s.setPc t .idle with updated := s.updated ++ [version] }

def step (s : State) : Label → Option State
  | .beginGenerate t => if s.pcs t = .idle then some (s.setPc t (.generate s.updated)) else none
  | .beginUpdate t version => if s.pcs t = .idle then some (s.setPc t (.load version)) else none
  | .run t => runThread s t
  | .fail t =>
    match s.pcs t with
    | .loaded version current => if current > version then none else some (s.setPc t (.load version))
    | _ => none

/-- `VersionNumberGenerator(start)`, and no call under way. -/
def start (version : UInt64) : State := ⟨⟨version⟩, fun _ => .idle, [], none, []⟩

def system : System State Label := ofFun (fun s => ∃ version, s = start version) step

/-- Every `Generate` has a greater version than every `UpdateMaxVersion` that had returned when it began. -/
def State.RunsAhead (s : State) : Prop := ∀ g ∈ s.generated, ∀ v ∈ g.seen, v < g.version

/-- `current_` is below the greatest `uint64_t`. -/
def Below (s : State) (_ : Label) : Prop := s.generator.current.toNat < 2 ^ 64 - 1

/-- The `fetch_add` of a `Generate` does not come right after the `compare_exchange_weak` that
installed a version seen when the call began. -/
def Ok (s : State) : Label → Prop
  | .run t => ∀ seen, s.pcs t = .generate seen → ∀ v ∈ seen, s.installed ≠ some v
  | _ => True

/-! ### What one step does -/

section
variable {s s' : State} {a : Label} {t : Nat} {v : UInt64}

/-- The accesses of a thread. -/
inductive Access (s : State) (t : Nat) : State → Prop
  | fetchAdd {seen} (h : s.pcs t = .generate seen) : Access s t { s.setPc t .idle with
      generator := s.generator.generate.2
      installed := none
      generated := s.generated ++ [⟨seen, s.generator.current⟩] }
  | load {version} (h : s.pcs t = .load version) : Access s t
    (s.setPc t (.loaded version s.generator.current))
  | ahead {version current} (h : s.pcs t = .loaded version current) (hlt : version < current) :
      Access s t { s.setPc t .idle with updated := s.updated ++ [version] }
  | exchange {version} (h : s.pcs t = .loaded version s.generator.current)
      (hle : s.generator.current ≤ version) : Access s t { s.setPc t (.exchanged version) with
        generator := ⟨version⟩, installed := some version }
  | retry {version current} (h : s.pcs t = .loaded version current) : Access s t (s.setPc t (.load version))
  | ret {version} (h : s.pcs t = .exchanged version) :
      Access s t { s.setPc t .idle with updated := s.updated ++ [version] }

theorem access_of_runThread (h : runThread s t = some s') : Access s t s' := by
  unfold runThread at h
  split at h
  · cases h
  · cases h; exact .fetchAdd ‹_›
  · cases h; exact .load ‹_›
  · rename_i version current hpc
    split at h
    · cases h; exact .ahead hpc ‹_›
    · rename_i hle
      split at h <;> cases h
      · rename_i hc
        subst hc
        exact .exchange hpc (not_lt.1 hle)
      · exact .retry hpc
  · cases h; exact .ret ‹_›

theorem step_cases (h : step s a = some s') :
    (∃ t, a = .beginGenerate t ∧ s' = s.setPc t (.generate s.updated)) ∨
    (∃ t version, a = .beginUpdate t version ∧ s' = s.setPc t (.load version)) ∨
    (∃ t, (a = .run t ∨ a = .fail t) ∧ Access s t s') := by
  cases a with
  | beginGenerate t =>
    obtain ⟨-, h⟩ := Option.ite_none_right_eq_some.1 h
    exact .inl ⟨t, rfl, (Option.some.inj h).symm⟩
  | beginUpdate t version =>
    obtain ⟨-, h⟩ := Option.ite_none_right_eq_some.1 h
    exact .inr (.inl ⟨t, version, rfl, (Option.some.inj h).symm⟩)
  | run t => exact .inr (.inr ⟨t, .inl rfl, access_of_runThread h⟩)
  | fail t =>
    refine .inr (.inr ⟨t, .inr rfl, ?_⟩)
    simp only [step] at h
    split at h
    · obtain ⟨-, h⟩ := Option.ite_none_left_eq_some.1 h
      cases h
      exact .retry ‹_›
    · cases h

/-- `current_` is past `v`, or `v` has just been put there. -/
def State.Covered (s : State) (v : UInt64) : Prop := v < s.generator.current ∨ s.installed = some v

/-- No version seen gets uncovered, and `current_` does not go back. -/
structure Grows (s s' : State) : Prop where
  covered : ∀ v, s.Covered v → s'.Covered v
  current : s.generator.current ≤ s'.generator.current

theorem Grows.of_eq (hg : s'.generator = s.generator) (hi : s'.installed = s.installed) : Grows s s' := by
  refine ⟨fun v hv => ?_, hg ▸ le_rfl⟩
  unfold State.Covered at hv ⊢
  rw [hg, hi]
  exact hv

theorem lt_generate {g : VersionNumberGenerator} (h : g.current.toNat < 2 ^ 64 - 1) :
    g.current < g.generate.2.current := by
  rw [UInt64.lt_iff_toNat_lt]
  have hadd : g.generate.2.current.toNat = (g.current.toNat + 1) % 2 ^ 64 := UInt64.toNat_add _ _
  omega

/-- Threads do to the generator what the calls do one at a time. -/
theorem generator_access (h : Access s t s') : s'.generator = s.generator ∨
    s'.generator = s.generator.generate.2 ∨ ∃ version, s'.generator =
    s.generator.updateMaxVersion version := by
  cases h with
  | fetchAdd h => exact .inr (.inl rfl)
  | @exchange version h hle => exact .inr (.inr ⟨version, (if_neg (not_lt.2 hle)).symm⟩)
  | load | ahead | retry | ret => exact .inl rfl

theorem current_le_access (hb : s.generator.current.toNat < 2 ^ 64 - 1) (h : Access s t s') :
    s.generator.current ≤ s'.generator.current := by
  rcases generator_access h with hg | hg | ⟨version, hg⟩ <;> rw [hg]
  · exact (lt_generate hb).le
  · exact s.generator.le_updateMaxVersion version

theorem grows_access (hb : s.generator.current.toNat < 2 ^ 64 - 1)
    (hi : ∀ v, s.installed = some v → s.generator.current = v) (h : Access s t s') : Grows s s' := by
  have hle := current_le_access hb h
  cases h with
  | fetchAdd h =>
    refine ⟨fun v hv => .inl ?_, hle⟩
    have hlt := lt_generate hb
    rcases hv with hv | hv
    · exact hv.trans hlt
    · exact hi v hv ▸ hlt
  | @exchange version _ _ =>
    refine ⟨fun v hv => ?_, hle⟩
    have hv' : v ≤ version := by
      rcases hv with hv | hv
      · exact hv.le.trans hle
      · exact hi v hv ▸ hle
    rcases hv'.lt_or_eq with hlt | heq
    · exact .inl hlt
    · exact .inr (congrArg some heq.symm)
  | load | ahead | retry | ret => exact .of_eq rfl rfl

/-- What the place where a thread stands says about `current_`. -/
def ThreadPc.Inv (s : State) : ThreadPc → Prop
  | generate seen => ∀ v ∈ seen, s.Covered v
  | loaded _ current => current ≤ s.generator.current
  | exchanged version => s.Covered version
  | idle | load _ => True

theorem ThreadPc.Inv.grows {pc : ThreadPc} (hg : Grows s s') (h : pc.Inv s) : pc.Inv s' := by
  cases pc with
  | idle | load => trivial
  | generate seen => exact fun v hv => hg.covered v (h v hv)
  | loaded version current => exact le_trans h hg.current
  | exchanged version => exact hg.covered _ h

structure Inv (s : State) : Prop where
  threads : ∀ t, (s.pcs t).Inv s
  updated : ∀ v ∈ s.updated, s.Covered v
  installed : ∀ v, s.installed = some v → s.generator.current = v

/-- A step that moves one thread and adds to `updated` what is covered. -/
theorem Inv.move {pc : ThreadPc} (hinv : Inv s) (hg : Grows s s') (hpcs : s'.pcs = Function.update s.pcs t pc)
    (hpc : pc.Inv s') (hu : ∀ v ∈ s'.updated, v ∈ s.updated ∨ s'.Covered v)
    (hi : ∀ v, s'.installed = some v → s'.generator.current = v) : Inv s' := by
  refine ⟨fun t' => ?_, fun v hv => ?_, hi⟩
  · rw [hpcs]
    by_cases ht : t' = t
    · subst ht
      rw [Function.update_self]
      exact hpc
    · rw [Function.update_of_ne ht]
      exact (hinv.threads t').grows hg
  · rcases hu v hv with hv | hv
    · exact hg.covered v (hinv.updated v hv)
    · exact hv

theorem inv_access (hinv : Inv s) (hb : s.generator.current.toNat < 2 ^ 64 - 1) (h : Access s t s') :
    Inv s' := by
  have hg := grows_access hb hinv.installed h
  have hthread := hinv.threads t
  cases h with
  | fetchAdd h => exact hinv.move hg rfl trivial (fun _ hv => .inl hv) (fun _ hv => nomatch hv)
  | load h => exact hinv.move hg rfl le_rfl (fun _ hv => .inl hv) hinv.installed
  | @ahead version current h hlt =>
    rw [h] at hthread
    refine hinv.move hg rfl trivial (fun v hv => ?_) hinv.installed
    rcases List.mem_append.1 hv with hv | hv
    · exact .inl hv
    · obtain rfl := List.mem_singleton.1 hv
      exact .inr (.inl (lt_of_lt_of_le hlt hthread))
  | exchange h hle =>
    exact hinv.move hg rfl (.inr rfl) (fun _ hv => .inl hv) (fun _ hv => Option.some.inj hv)
  | retry h => exact hinv.move hg rfl trivial (fun _ hv => .inl hv) hinv.installed
  | @ret version h =>
    rw [h] at hthread
    refine hinv.move hg rfl trivial (fun v hv => ?_) hinv.installed
    rcases List.mem_append.1 hv with hv | hv
    · exact .inl hv
    · obtain rfl := List.mem_singleton.1 hv
      exact .inr hthread

theorem inv_step (hinv : Inv s) (hb : Below s a) (h : step s a = some s') : Inv s' := by
  rcases step_cases h with ⟨t, -, rfl⟩ | ⟨t, version, -, rfl⟩ | ⟨t, -, h⟩
  · exact hinv.move (.of_eq rfl rfl) rfl hinv.updated (fun _ hv => .inl hv) hinv.installed
  · exact hinv.move (.of_eq rfl rfl) rfl trivial (fun _ hv => .inl hv) hinv.installed
  · exact inv_access hinv hb h

theorem inv_start (version : UInt64) : Inv (start version) :=
  ⟨fun _ => trivial, fun _ h => absurd h List.not_mem_nil, fun _ h => nomatch h⟩

theorem inv_of_reachableBy (h : system.ReachableBy Below s) : Inv s := by
  refine h.invariant ?_ fun s a s' hinv hb hs => inv_step hinv hb hs
  rintro s ⟨version, rfl⟩
  exact inv_start version

/-! ### Which versions are new -/

theorem not_generate_of_access (h : Access s t s') (hg : s'.generated = s.generated) (seen : List UInt64) :
    s.pcs t ≠ .generate seen := by
  cases h with
  | fetchAdd h => exact absurd hg (by simp)
  | load h | ahead h | exchange h | retry h | ret h => rw [h]; intro he; cases he

/-- A step gives out one version, at a `fetch_add`, or none. -/
theorem generated_step (h : step s a = some s') :
    (s'.generated = s.generated ∧ ∀ t, a = .run t → ∀ seen, s.pcs t ≠ .generate seen) ∨
    ∃ t seen, a = .run t ∧ s.pcs t = .generate seen ∧
      s'.generated = s.generated ++ [⟨seen, s.generator.current⟩] := by
  rcases step_cases h with ⟨t, rfl, rfl⟩ | ⟨t, version, rfl, rfl⟩ | ⟨t, ha, hacc⟩
  · exact .inl ⟨rfl, fun _ he => by cases he⟩
  · exact .inl ⟨rfl, fun _ he => by cases he⟩
  · have hne := not_generate_of_access hacc
    cases hacc with
    | fetchAdd hpc =>
      rcases ha with rfl | rfl
      · exact .inr ⟨t, _, rfl, hpc, rfl⟩
      · simp [step, hpc] at h
    | load | ahead | exchange | retry | ret =>
      refine .inl ⟨rfl, fun t' he => ?_⟩
      rcases ha with rfl | rfl <;> cases he
      exact hne rfl

theorem covered_lt (hinv : Inv s) (hv : s.Covered v) : v < s.generator.current ↔ s.installed ≠ some v := by
  refine ⟨fun hlt hi => ?_, fun hne => hv.resolve_right hne⟩
  rw [hinv.installed v hi] at hlt
  exact lt_irrefl v hlt

theorem runsAhead_step_iff (hinv : Inv s) (h : step s a = some s') :
    s'.RunsAhead ↔ s.RunsAhead ∧ Ok s a := by
  unfold State.RunsAhead
  rcases generated_step h with ⟨hg, hne⟩ | ⟨t, seen, rfl, hpc, hg⟩ <;> rw [hg]
  · refine ⟨fun hs => ⟨hs, ?_⟩, fun hs => hs.1⟩
    cases a with
    | run t => exact fun seen hpc => absurd hpc (hne t rfl seen)
    | _ => trivial
  · have hthread := hinv.threads t
    rw [hpc] at hthread
    have hnew : (∀ v ∈ seen, v < s.generator.current) ↔ Ok s (.run t) := by
      simp only [Ok, hpc, ThreadPc.generate.injEq, forall_eq']
      exact forall₂_congr fun v hv => covered_lt hinv (hthread v hv)
    rw [List.forall_mem_append, List.forall_mem_singleton, hnew]

end

variable {s : State}

/-- **Every generated version is greater than the versions seen before, in exactly the runs in which no
`fetch_add` comes right after the `compare_exchange_weak` that installed one of them.** -/
theorem runsAhead_iff (h : system.ReachableBy Below s) :
    s.RunsAhead ↔ system.ReachableBy (fun s a => Below s a ∧ Ok s a) s := by
  constructor
  · intro hs
    induction h with
    | init h => exact .init h
    | step hreach hb hstep ih =>
      obtain ⟨hs, hok⟩ := (runsAhead_step_iff (inv_of_reachableBy hreach) hstep).1 hs
      exact .step (ih hs) ⟨hb, hok⟩ hstep
  · intro hok
    refine (hok.invariant (I := fun s => Inv s ∧ s.RunsAhead) ?_ ?_).2
    · rintro s ⟨version, rfl⟩
      exact ⟨inv_start version, fun _ h => absurd h List.not_mem_nil⟩
    · intro s a s' ⟨hinv, hs⟩ ⟨hb, hok⟩ hstep
      exact ⟨inv_step hinv hb hstep, (runsAhead_step_iff hinv hstep).2 ⟨hs, hok⟩⟩

instance decidableBelow : ∀ s a, Decidable (Below s a) := fun _ _ => inferInstanceAs (Decidable (_ < _))

/-- `UpdateMaxVersion(5)`, and then `Generate` in another thread. -/
def seenRun : List Label := [.beginUpdate 0 5, .run 0, .run 0, .run 0, .beginGenerate 1, .run 1]

/-- The same with a `Generate` that began before and takes its version after the `UpdateMaxVersion`. -/
def passedRun : List Label :=
  [.beginGenerate 2, .beginUpdate 0 5, .run 0, .run 0, .run 0, .run 2, .beginGenerate 1, .run 1]

theorem reachableBy_of_run (as : List Label) (gs : List Generated)
    (h : (execBy Below step (start 0) as).map State.generated = some gs) :
    ∃ s, system.ReachableBy Below s ∧ s.generated = gs := by
  obtain ⟨s, hs, hg⟩ := Option.map_eq_some_iff.1 h
  have hstart : system.ReachableBy Below (start 0) := .init ⟨0, rfl⟩
  exact ⟨s, (reachableBy_execBy hstart hs).2, hg⟩

theorem runsAhead_passedRun : ∃ s, s.generated = [⟨[], 5⟩, ⟨[5], 6⟩] ∧
    system.ReachableBy (fun s a => Below s a ∧ Ok s a) s := by
  obtain ⟨s, hs, hg⟩ := reachableBy_of_run passedRun [⟨[], 5⟩, ⟨[5], 6⟩] (by decide)
  refine ⟨s, hg, (runsAhead_iff hs).1 ?_⟩
  simp [State.RunsAhead, hg]

/-- The version seen is the version generated. -/
theorem not_runsAhead : ¬ ∀ s, system.ReachableBy Below s → s.RunsAhead := by
  intro h
  obtain ⟨s, hs, hg⟩ := reachableBy_of_run seenRun [⟨[5], 5⟩] (by decide)
  have hlt : (5 : UInt64) < 5 := h s hs ⟨[5], 5⟩ (by simp [hg]) 5 (by simp)
  exact absurd hlt (by decide)

/-! ### No version is generated twice -/

/-- The versions in the order of the `fetch_add`s that gave them out, and `current_` past all of them. -/
structure State.Increasing (s : State) : Prop where
  below : ∀ g ∈ s.generated, g.version < s.generator.current
  sorted : (s.generated.map Generated.version).Pairwise (· < ·)

section
variable {s s' : State} {a : Label} {t : Nat}

theorem current_le_step (hb : Below s a) (h : step s a = some s') :
    s.generator.current ≤ s'.generator.current := by
  rcases step_cases h with ⟨t, -, rfl⟩ | ⟨t, version, -, rfl⟩ | ⟨t, -, h⟩
  · exact le_rfl
  · exact le_rfl
  · exact current_le_access hb h

/-- A step that gives out nothing may only move `current_` on. -/
theorem State.Increasing.congr (hs : s.Increasing) (hg : s'.generated = s.generated)
    (hle : s.generator.current ≤ s'.generator.current) : s'.Increasing := by
  refine ⟨fun g hmem => ?_, ?_⟩
  · rw [hg] at hmem
    exact lt_of_lt_of_le (hs.below g hmem) hle
  · rw [hg]
    exact hs.sorted

/-- A `fetch_add` gives out `current_` and leaves it one greater. -/
theorem State.Increasing.fetchAdd (hs : s.Increasing) (hb : s.generator.current.toNat < 2 ^ 64 - 1)
    {seen : List UInt64} (hg : s'.generated = s.generated ++ [⟨seen, s.generator.current⟩])
    (hcurrent : s'.generator = s.generator.generate.2) : s'.Increasing := by
  have hlt : s.generator.current < s'.generator.current := by
    rw [hcurrent]
    exact lt_generate hb
  refine ⟨fun g hmem => ?_, ?_⟩
  · rw [hg] at hmem
    rcases List.mem_append.1 hmem with hmem | hmem
    · exact (hs.below g hmem).trans hlt
    · rw [List.mem_singleton.1 hmem]
      exact hlt
  · rw [hg, List.map_append, List.pairwise_append]
    refine ⟨hs.sorted, List.pairwise_singleton _ _, fun v hv v' hv' => ?_⟩
    obtain ⟨g, hmem, rfl⟩ := List.mem_map.1 hv
    rw [List.map_singleton, List.mem_singleton] at hv'
    subst hv'
    exact hs.below g hmem

theorem increasing_step (hs : s.Increasing) (hb : Below s a) (h : step s a = some s') : s'.Increasing := by
  have hle := current_le_step hb h
  rcases step_cases h with ⟨t, -, rfl⟩ | ⟨t, version, -, rfl⟩ | ⟨t, -, h⟩
  · exact hs.congr rfl hle
  · exact hs.congr rfl hle
  · cases h with
    | fetchAdd h => exact hs.fetchAdd hb rfl rfl
    | load | ahead | exchange | retry | ret => exact hs.congr rfl hle

end

/-- **`current_` never decreases, and every `Generate` returns a version greater than all those before.** -/
theorem increasing_of_reachableBy (h : system.ReachableBy Below s) :
    (∀ a s', Below s a → step s a = some s' → s.generator.current ≤ s'.generator.current) ∧
      (s.generated.map Generated.version).Pairwise (· < ·) ∧ (s.generated.map Generated.version).Nodup := by
  have hs : s.Increasing := by
    refine h.invariant ?_ fun s a s' hs hb hstep => increasing_step hs hb hstep
    rintro s ⟨version, rfl⟩
    exact ⟨fun g hmem => absurd hmem List.not_mem_nil, List.Pairwise.nil⟩
  exact ⟨fun a s' hb hstep => current_le_step hb hstep, hs.sorted, hs.sorted.imp fun hlt => ne_of_lt hlt⟩

theorem increasing_passedRun : ∃ s, s.generated.map Generated.version = [5, 6] ∧ system.ReachableBy Below s ∧
    (∀ a s', Below s a → step s a = some s' → s.generator.current ≤ s'.generator.current) ∧
      (s.generated.map Generated.version).Pairwise (· < ·) ∧ (s.generated.map Generated.version).Nodup := by
  obtain ⟨s, hs, hg⟩ := reachableBy_of_run passedRun [⟨[], 5⟩, ⟨[5], 6⟩] (by decide)
  exact ⟨s, by rw [hg]; rfl, hs, increasing_of_reachableBy hs⟩

end VersionThreads

end Iu9Db
