import Iu9Db.WalFile
import Iu9Db.Lib.Transition

/-!
# Coroutines that write to the log

Any number of coroutines append through `SwappableWalWriterImpl` while `Swap` replaces the writer. An append
takes a turn on the strand and comes back; the record goes to the writer of that turn. Files are created in
the order in which they are installed, so that a record never goes to a file before one that has a later
record (`Inv.rest`): `loggedOnce_of_reachable`.
-/

namespace Iu9Db

open Wire Delimited Transition

namespace WalLog

/-- Where a coroutine stands in `WriteEntry`, between two switches of its executor. -/
inductive AppendPc
  | idle
  | posted
  | wrote
deriving DecidableEq

/-- `acked` operations have returned. -/
structure Coroutine where
  acked : Nat
  pc : AppendPc
deriving DecidableEq

/-- Where `Swap` stands; `file` is that of the new writer. -/
inductive SwapPc
  | idle
  | created (file : Nat)
  | posted (file path : Nat)
  | installed (path : Nat)
deriving DecidableEq

/-- The files in the order in which they were created, and the one that `writer_` writes to. -/
structure State where
  files : List WalFile
  writer : Nat
  coroutines : List Coroutine
  swap : SwapPc
  /-- The files whose remove callback was returned. -/
  callbacks : List Nat

inductive Label
  | call (i : Nat)
  | strand (i : Nat)
  | ack (i : Nat)
  | swapCreate (created : Result Unit)
  | swapPath
  | swapInstall
  | swapReturn

/-- The `n`-th operation of the `i`-th coroutine. -/
def writeAt (programs : List (List Write)) (l : Nat × Nat) : Option Write :=
  (programs[l.1]?).bind fun ops => ops[l.2]?

/-- One turn; no write fails. -/
def step (programs : List (List Write)) (s : State) : Label → Option State
  | .call i => (s.coroutines[i]?).bind fun c =>
    if c.pc = .idle ∧ (writeAt programs (i, c.acked)).isSome then
      some { s with coroutines := s.coroutines.set i { c with pc := .posted } }
    else none
  | .strand i => (s.coroutines[i]?).bind fun c =>
    if c.pc = .posted then
      (writeAt programs (i, c.acked)).bind fun w => (s.files[s.writer]?).bind fun f =>
        match f.writeEntry w.record with
        | (.ok _, f) => some { s with
            files := s.files.set s.writer f
            coroutines := s.coroutines.set i { c with pc := .wrote } }
        | (.error _, _) => none
    else none
  | .ack i => (s.coroutines[i]?).bind fun c =>
    if c.pc = .wrote then some { s with coroutines := s.coroutines.set i ⟨c.acked + 1, .idle⟩ } else none
  | .swapCreate created =>
    match s.swap, created with
    | .idle, .ok _ => some { s with files := s.files ++ [.newWALWriter], swap := .created s.files.length }
    | .idle, .error _ => some s
    | _, _ => none
  | .swapPath =>
    match s.swap with
    | .created file => some { s with swap := .posted file s.writer }
    | _ => none
  | .swapInstall =>
    match s.swap with
    | .posted file path => some { s with swap := .installed path, writer := file }
    | _ => none
  | .swapReturn =>
    match s.swap with
    | .installed path => some { s with swap := .idle, callbacks := s.callbacks ++ [path] }
    | _ => none

/-- `NewSwappableWalWriter`, and a coroutine for each program. -/
def start (programs : List (List Write)) : State :=
  ⟨[.newWALWriter], 0, programs.map fun _ => ⟨0, .idle⟩, .idle, []⟩

def system (programs : List (List Write)) : System State Label := ofFun (fun s => s = start programs)
    (step programs)

/-! ### What is in the files -/

/-- The operations of one coroutine among the labels of records. -/
def ofCoroutine (i : Nat) (l : List (Nat × Nat)) : List Nat := (l.filter fun p => p.1 = i).map Prod.snd

/-- The file has the records of these operations, and nothing else. -/
def IsLogOf (programs : List (List Write)) (f : WalFile) (l : List (Nat × Nat)) : Prop :=
  ∃ ws : List Write, ws.map some = l.map (writeAt programs) ∧ f.IsWhole (ws.map Write.record)

/-- **Every acknowledged operation is logged once**: the labels name, file by file, the operations
whose records the files consist of. -/
structure LoggedOnce (programs : List (List Write)) (s : State) (labels : List (List (Nat × Nat))) :
    Prop where
  files : List.Forall₂ (IsLogOf programs) s.files labels
  operations : (s.files.flatMap fun f => (WalFile.readWAL f.content).1).map some =
    labels.flatten.map fun l => (writeAt programs l).bind fun w => w.record.toOperation
  once : ∀ i c n, s.coroutines[i]? = some c → n < c.acked → labels.flatten.count (i, n) = 1
  order : ∀ i, ∃ n, ofCoroutine i labels.flatten = List.range n

/-- How many operations of a coroutine have their record. -/
def Coroutine.written (c : Coroutine) : Nat := if c.pc = .wrote then c.acked + 1 else c.acked

/-- The file that `Swap` is about to install. -/
def SwapPc.file? : SwapPc → Option Nat
  | created file | posted file _ => some file
  | _ => none

structure Inv (programs : List (List Write)) (s : State) (labels : List (List (Nat × Nat))) : Prop where
  files : List.Forall₂ (IsLogOf programs) s.files labels
  writer : s.writer < s.files.length
  rest : ∀ l ∈ labels.drop (s.writer + 1), l = []
  order : ∀ i, ofCoroutine i labels.flatten = List.range ((s.coroutines[i]?).elim 0 Coroutine.written)
  swap : ∀ file, s.swap.file? = some file → s.writer < file ∧ file < s.files.length

section
variable {programs : List (List Write)} {s s' : State} {labels : List (List (Nat × Nat))} {i : Nat}

theorem ofCoroutine_concat (l : List (Nat × Nat)) (i j n : Nat) :
    ofCoroutine i (l ++ [(j, n)]) = if j = i then ofCoroutine i l ++ [n] else ofCoroutine i l := by
  unfold ofCoroutine
  by_cases hj : j = i <;> simp [hj]

/-- A label that is added to the last list that is not empty comes last. -/
theorem flatten_set_concat {α : Type} {ls : List (List α)} {n : Nat} {l : List α} (hl : ls[n]? = some l)
    (hrest : ∀ l ∈ ls.drop (n + 1), l = []) (x : α) : (ls.set n (l ++ [x])).flatten = ls.flatten ++ [x] := by
  induction ls generalizing n with
  | nil => cases hl
  | cons l' ls ih =>
    cases n with
    | zero =>
      cases hl
      have hnil : ls.flatten = [] := List.flatten_eq_nil_iff.2 hrest
      simp [hnil]
    | succ n =>
      have hset := ih hl hrest
      rw [List.set_cons_succ, List.flatten_cons, hset, List.flatten_cons, List.append_assoc]

theorem forall₂_set {α β : Type} {R : α → β → Prop} {as : List α} {bs : List β} (h : List.Forall₂ R as bs)
    (n : Nat) {a : α} {b : β} (hab : R a b) : List.Forall₂ R (as.set n a) (bs.set n b) := by
  induction h generalizing n with
  | nil => exact .nil
  | cons hR hRs ih =>
    cases n with
    | zero => exact .cons hab hRs
    | succ n => exact .cons hR (ih n)

theorem exists_getElem?_of_forall₂ {α β : Type} {R : α → β → Prop} {as : List α} {bs : List β}
    (h : List.Forall₂ R as bs) {n : Nat} {a : α} (ha : as[n]? = some a) : ∃ b, bs[n]? = some b ∧ R a b := by
  obtain ⟨hn, rfl⟩ := List.getElem?_eq_some_iff.1 ha
  have hn' : n < bs.length := h.length_eq ▸ hn
  exact ⟨bs[n], List.getElem?_eq_getElem hn', h.get hn hn'⟩

/-- A coroutine moves on without a record. -/
theorem Inv.setCoroutine (hi : Inv programs s labels) {c c' : Coroutine} (hc : s.coroutines[i]? = some c)
    (hwritten : c'.written = c.written) :
    Inv programs { s with coroutines := s.coroutines.set i c' } labels where
  files := hi.files
  writer := hi.writer
  rest := hi.rest
  swap := hi.swap
  order j := by
    rw [hi.order j, List.getElem?_set]
    split
    · rename_i hij
      subst hij
      have hlt := (List.getElem?_eq_some_iff.1 hc).1
      rw [if_pos hlt, hc]
      simp [hwritten]
    · rfl

theorem isLogOf_newWALWriter : IsLogOf programs .newWALWriter [] :=
  ⟨[], rfl, WalFile.isWhole_newWALWriter⟩

theorem IsLogOf.writeEntry {f f' : WalFile} {l : List (Nat × Nat)} (hf : IsLogOf programs f l)
    {p : Nat × Nat} {w : Write} (hw : writeAt programs p = some w) {u : Unit}
    (h : f.writeEntry w.record = (.ok u, f')) : IsLogOf programs f' (l ++ [p]) := by
  obtain ⟨ws, hws, hwhole⟩ := hf
  refine ⟨ws ++ [w], by simp [hws, hw], ?_⟩
  rw [List.map_append]
  exact hwhole.writeEntry h

theorem toOperation_records (ws : List Write) :
    ((ws.map Write.record).filterMap WalEntry.toOperation).map some =
    ws.map fun w => w.record.toOperation := by
  induction ws with
  | nil => rfl
  | cons w ws ih =>
    obtain ⟨operation, hw⟩ : ∃ operation, w.record.toOperation = some operation := by
      cases w <;> exact ⟨_, rfl⟩
    rw [List.map_cons, List.filterMap_cons_some hw, List.map_cons, ih, List.map_cons, hw]

theorem IsLogOf.readWAL {f : WalFile} {l : List (Nat × Nat)} (hf : IsLogOf programs f l) :
    (WalFile.readWAL f.content).1.map some =
      l.map fun p => (writeAt programs p).bind fun w => w.record.toOperation := by
  obtain ⟨ws, hws, hwhole⟩ := hf
  have hlabels : (l.map fun p => (writeAt programs p).bind fun w => w.record.toOperation) =
      (l.map (writeAt programs)).map fun w => w.bind fun w => w.record.toOperation := by
    rw [List.map_map]
    rfl
  rw [hwhole.content, WalFile.readWAL_encodeAll hwhole.fits, toOperation_records, hlabels, ← hws,
    List.map_map]
  rfl

/-! ### The turns -/

theorem inv_start : Inv programs (start programs) [[]] where
  files := .cons isLogOf_newWALWriter .nil
  writer := Nat.zero_lt_one
  rest l hl := by cases hl
  order i := by
    unfold start
    rw [List.getElem?_map]
    cases programs[i]? <;> rfl
  swap file h := by cases h

theorem inv_strand (hi : Inv programs s labels) (hs : step programs s (.strand i) = some s') :
    ∃ labels', Inv programs s' labels' := by
  obtain ⟨c, hc, hs⟩ := Option.bind_eq_some_iff.1 hs
  split at hs
  · rename_i hpc
    obtain ⟨w, hw, hs⟩ := Option.bind_eq_some_iff.1 hs
    obtain ⟨f, hf, hs⟩ := Option.bind_eq_some_iff.1 hs
    split at hs
    · rename_i f' hwrite
      cases hs
      obtain ⟨l, hl, hlog⟩ := exists_getElem?_of_forall₂ hi.files hf
      refine ⟨labels.set s.writer (l ++ [(i, c.acked)]), forall₂_set hi.files s.writer
        (hlog.writeEntry hw hwrite), ?_, ?_, fun j => ?_, fun file hfile => ?_⟩
      · dsimp only
        rw [List.length_set]
        exact hi.writer
      · dsimp only
        rw [List.drop_set_of_lt (Nat.lt_succ_self _)]
        exact hi.rest
      · dsimp only
        rw [flatten_set_concat hl hi.rest, ofCoroutine_concat, hi.order j, List.getElem?_set]
        split
        · rename_i hij
          subst hij
          have hlt := (List.getElem?_eq_some_iff.1 hc).1
          rw [if_pos hlt, hc, Option.elim_some, Option.elim_some, Coroutine.written, hpc]
          exact List.range_succ.symm
        · rfl
      · dsimp only
        rw [List.length_set]
        exact hi.swap file hfile
    · cases hs
  · cases hs

theorem inv_step {a : Label} (hi : Inv programs s labels) (hs : step programs s a = some s') :
    ∃ labels', Inv programs s' labels' := by
  cases a with
  | call i =>
    obtain ⟨c, hc, hs⟩ := Option.bind_eq_some_iff.1 hs
    split at hs <;> cases hs
    rename_i hpc
    exact ⟨labels, hi.setCoroutine hc (by simp [Coroutine.written, hpc.1])⟩
  | strand i => exact inv_strand hi hs
  | ack i =>
    obtain ⟨c, hc, hs⟩ := Option.bind_eq_some_iff.1 hs
    split at hs <;> cases hs
    rename_i hpc
    exact ⟨labels, hi.setCoroutine hc (by simp [Coroutine.written, hpc])⟩
  | swapCreate created =>
    simp only [step] at hs
    split at hs <;> cases hs
    · rename_i hswap
      refine ⟨labels ++ [[]], List.rel_append hi.files (.cons isLogOf_newWALWriter .nil), ?_,
        fun l hl => ?_, fun i => ?_, fun file hfile => ?_⟩
      · rw [List.length_append]
        exact hi.writer.trans_le (Nat.le_add_right _ _)
      · dsimp only at hl
        rw [List.drop_append] at hl
        rcases List.mem_append.1 hl with hl | hl
        · exact hi.rest l hl
        · exact List.mem_singleton.1 (List.mem_of_mem_drop hl)
      · rw [List.flatten_append, List.flatten_singleton, List.append_nil]
        exact hi.order i
      · cases hfile
        rw [List.length_append]
        exact ⟨hi.writer, Nat.lt_succ_self _⟩
    · exact ⟨labels, hi⟩
  | swapPath =>
    simp only [step] at hs
    split at hs <;> cases hs
    rename_i file hswap
    exact ⟨labels, hi.files, hi.writer, hi.rest, hi.order, fun file' h => by
      cases h
      exact hi.swap file (by rw [hswap]; rfl)⟩
  | swapInstall =>
    simp only [step] at hs
    split at hs <;> cases hs
    rename_i file path hswap
    obtain ⟨hlt, hlength⟩ := hi.swap file (by rw [hswap]; rfl)
    refine ⟨labels, hi.files, hlength, fun l hl => ?_, hi.order, fun file' h => (by cases h)⟩
    refine hi.rest l (List.mem_of_mem_drop (i := file - s.writer) ?_)
    rw [List.drop_drop, show s.writer + 1 + (file - s.writer) = file + 1 by omega]
    exact hl
  | swapReturn =>
    simp only [step] at hs
    split at hs <;> cases hs
    exact ⟨labels, hi.files, hi.writer, hi.rest, hi.order, fun file h => (by cases h)⟩

/-! ### What the invariant says -/

theorem flatMap_readWAL {files : List WalFile} (h : List.Forall₂ (IsLogOf programs) files labels) :
    (files.flatMap fun f => (WalFile.readWAL f.content).1).map some =
      labels.flatten.map fun p => (writeAt programs p).bind fun w => w.record.toOperation := by
  induction h with
  | nil => rfl
  | cons hlog _ ih =>
    rw [List.flatMap_cons, List.map_append, hlog.readWAL, ih, List.flatten_cons, List.map_append]

theorem count_ofCoroutine (l : List (Nat × Nat)) (i n : Nat) :
    (ofCoroutine i l).count n = l.count (i, n) := by
  induction l with
  | nil => rfl
  | cons p l ih =>
    obtain ⟨j, m⟩ := p
    unfold ofCoroutine at ih ⊢
    by_cases hj : j = i
    · simp [hj, List.count_cons, ih]
    · simp [hj, ih]

end

/-- **In every run, every acknowledged operation has one record in one file, and the operations of
each coroutine are in its order.** -/
theorem loggedOnce_of_reachable {programs : List (List Write)} {s : State}
    (h : (system programs).Reachable s) : ∃ labels, LoggedOnce programs s labels := by
  obtain ⟨labels, hi⟩ := h.invariant (I := fun s => ∃ labels, Inv programs s labels)
    (fun _ hinit => ⟨[[]], hinit ▸ inv_start⟩) fun _ _ _ ⟨_, hi⟩ _ hs => inv_step hi hs
  refine ⟨labels, hi.files, flatMap_readWAL hi.files, fun i c n hc hn => ?_, fun i => ⟨_, hi.order i⟩⟩
  have hmem : n ∈ List.range c.written := by
    rw [List.mem_range]
    unfold Coroutine.written
    split <;> omega
  rw [← count_ofCoroutine, hi.order i, hc, Option.elim_some]
  exact List.count_eq_one_of_mem List.nodup_range hmem

/-- Two coroutines. -/
def twoPrograms : List (List Write) := [[.remove [97] 0, .insert ⟨[97], [98], 1⟩], [.insert ⟨[99], [100], 2⟩]]

/-- An append waits for the strand while `Swap` replaces the writer. -/
def swappedRun : List Label :=
  [.call 0, .call 1, .strand 0, .swapCreate (.ok ()), .ack 0, .swapPath, .call 0, .swapInstall, .strand 1,
    .strand 0, .ack 0, .swapReturn, .ack 1]

theorem loggedOnce_swappedRun : ∃ s, exec (step twoPrograms) (start twoPrograms) swappedRun = some s ∧
    ∃ labels, LoggedOnce twoPrograms s labels := by
  obtain ⟨s, hs⟩ : ∃ s, exec (step twoPrograms) (start twoPrograms) swappedRun = some s :=
    Option.isSome_iff_exists.1 (by decide +kernel)
  have hreach : (system twoPrograms).Reachable s := reachable_exec (.init rfl) hs
  exact ⟨s, hs, loggedOnce_of_reachable hreach⟩

end WalLog

end Iu9Db
