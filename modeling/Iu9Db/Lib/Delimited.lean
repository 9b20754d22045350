import Mathlib.Data.List.Basic
import Mathlib.Data.List.Infix

/-!
# Sequences of self-delimiting records

A reader at the beginning of a record finds where the record ends, and refuses one that is cut off.
`readAll` reads on until it refuses. Over whole records it goes on with what follows
(`readAll_append`); over a prefix of them it returns the records that are complete (`readAll_prefix`,
`readAll_take`). What `overwrite` leaves of a torn record is read as if it were records of its own
(`readAll_overwrite`). Bytes that a local reader has passed stay the records that they were
(`Reads.holds`).
-/

namespace Delimited

/-- What is cut off from two parts is cut off in the first or in the second. -/
theorem torn_append {β : Type} {p l l' : List β} (hp : p <+: l ++ l') (hne : p ≠ l ++ l') :
    p <+: l ∧ p ≠ l ∨ ∃ q, p = l ++ q ∧ q <+: l' ∧ q ≠ l' := by
  by_cases hl : l <+: p
  · obtain ⟨q, rfl⟩ := hl
    exact .inr ⟨q, rfl, (List.prefix_append_right_inj _).1 hp, fun h => hne (h ▸ rfl)⟩
  · refine .inl ⟨(List.prefix_or_prefix_of_prefix hp (List.prefix_append _ _)).resolve_right hl, ?_⟩
    exact fun h => hl (h ▸ List.prefix_rfl)

/-- Records over an alphabet; what does not fit cannot be written. -/
structure Codec (α β : Type) where
  Fits : α → Prop
  encode : α → List β
  read : List β → Option (α × List β)
  read_encode : ∀ a, Fits a → ∀ rest, read (encode a ++ rest) = some (a, rest)
  read_torn : ∀ a, Fits a → ∀ p, p <+: encode a → p ≠ encode a → read p = none
  read_lt : ∀ bs a rest, read bs = some (a, rest) → rest.length < bs.length

namespace Codec

variable {α β : Type} (c : Codec α β)

def encodeAll (as : List α) : List β := as.flatMap c.encode

/-- At most `n` records, and what is left. -/
def readUpTo : Nat → List β → List α × List β
  | 0, bs => ([], bs)
  | n + 1, bs =>
    match c.read bs with
    | none => ([], bs)
    | some (a, rest) => (a :: (readUpTo n rest).1, (readUpTo n rest).2)

/-- The records at the beginning, and what is left. -/
def readAll (bs : List β) : List α × List β := c.readUpTo bs.length bs

/-- The records one after another, until the reader refuses. -/
inductive Reads : List β → List α → List β → Prop
  | stop {bs : List β} (h : c.read bs = none) : Reads bs [] bs
  | next {bs bs' rest : List β} {a : α} {as : List α} (h : c.read bs = some (a, bs'))
      (hs : Reads bs' as rest) : Reads bs (a :: as) rest

variable {c} {a : α} {as : List α} {bs rest : List β}

@[simp] theorem encodeAll_nil : c.encodeAll [] = [] := rfl

@[simp] theorem encodeAll_cons : c.encodeAll (a :: as) = c.encode a ++ c.encodeAll as := List.flatMap_cons

@[simp] theorem encodeAll_append (as as' : List α) :
    c.encodeAll (as ++ as') = c.encodeAll as ++ c.encodeAll as' :=
  List.flatMap_append

theorem length_encode_le (ha : a ∈ as) : (c.encode a).length ≤ (c.encodeAll as).length := by
  induction as with
  | nil => cases ha
  | cons b as ih =>
    rw [encodeAll_cons, List.length_append]
    rcases List.mem_cons.1 ha with rfl | ha
    · exact Nat.le_add_right _ _
    · exact (ih ha).trans (Nat.le_add_left _ _)

@[simp] theorem read_nil : c.read [] = none := by
  cases h : c.read [] with
  | none => rfl
  | some r => exact absurd (c.read_lt [] r.1 r.2 h) (Nat.not_lt_zero _)

/-- No record is empty. -/
theorem length_encode_pos (ha : c.Fits a) : 0 < (c.encode a).length := by
  have hread := c.read_encode a ha []
  rw [List.append_nil] at hread
  exact c.read_lt _ a [] hread

theorem length_le_encodeAll (has : ∀ a ∈ as, c.Fits a) : as.length ≤ (c.encodeAll as).length := by
  induction as with
  | nil => exact le_rfl
  | cons a as ih =>
    have hpos := length_encode_pos (has a List.mem_cons_self)
    have hrest := ih fun a' ha' => has a' (List.mem_cons_of_mem _ ha')
    rw [encodeAll_cons, List.length_append, List.length_cons]
    omega

theorem reads_readUpTo (n : Nat) (h : bs.length ≤ n) :
    c.Reads bs (c.readUpTo n bs).1 (c.readUpTo n bs).2 := by
  induction n generalizing bs with
  | zero =>
    obtain rfl : bs = [] := List.length_eq_zero_iff.1 (Nat.le_zero.1 h)
    exact .stop read_nil
  | succ n ih =>
    unfold readUpTo
    cases hr : c.read bs with
    | none => exact .stop hr
    | some r =>
      have hlt := c.read_lt bs r.1 r.2 hr
      exact .next hr (ih (by omega))

theorem reads_readAll (bs : List β) : c.Reads bs (c.readAll bs).1 (c.readAll bs).2 := reads_readUpTo _ le_rfl

/-- The reader has no choice. -/
theorem Reads.unique {as' : List α} {rest' : List β} (h : c.Reads bs as rest) (h' : c.Reads bs as' rest') :
    as = as' ∧ rest = rest' := by
  induction h generalizing as' with
  | stop hnone =>
    cases h' with
    | stop => exact ⟨rfl, rfl⟩
    | next hsome _ => rw [hnone] at hsome; cases hsome
  | next hsome hs ih =>
    cases h' with
    | stop hnone => rw [hnone] at hsome; cases hsome
    | next hsome' hs' =>
      rw [hsome] at hsome'
      cases hsome'
      obtain ⟨rfl, rfl⟩ := ih hs'
      exact ⟨rfl, rfl⟩

theorem Reads.readAll_eq (h : c.Reads bs as rest) : c.readAll bs = (as, rest) := by
  obtain ⟨has, hrest⟩ := (reads_readAll bs).unique h
  rw [← has, ← hrest]

/-- Whole records, and then whatever follows them. -/
theorem readAll_append (has : ∀ a ∈ as, c.Fits a) (bs : List β) :
    c.readAll (c.encodeAll as ++ bs) = (as ++ (c.readAll bs).1, (c.readAll bs).2) := by
  induction as with
  | nil => rfl
  | cons a as ih =>
    have hrest := ih fun a' ha' => has a' (List.mem_cons_of_mem _ ha')
    have hread : c.read (c.encodeAll (a :: as) ++ bs) = some (a, c.encodeAll as ++ bs) := by
      rw [encodeAll_cons, List.append_assoc]
      exact c.read_encode a (has a List.mem_cons_self) _
    have hreads := reads_readAll (c := c) (c.encodeAll as ++ bs)
    rw [hrest] at hreads
    exact (Reads.next hread hreads).readAll_eq

/-- The bytes are read as the records, whatever follows them. -/
def Holds (c : Codec α β) (pre : List β) (as : List α) : Prop :=
  ∀ bs, c.readAll (pre ++ bs) = (as ++ (c.readAll bs).1, (c.readAll bs).2)

/-- A record is read without a look at what follows it. -/
def Local (c : Codec α β) : Prop :=
  ∀ {bs a rest}, c.read bs = some (a, rest) → ∃ pre, bs = pre ++ rest ∧ ∀ rest', c.read (pre ++ rest') =
    some (a, rest')

theorem holds_nil : c.Holds [] [] := fun _ => rfl

theorem holds_encodeAll (has : ∀ a ∈ as, c.Fits a) : c.Holds (c.encodeAll as) as := readAll_append has

theorem Holds.append {pre pre' : List β} {as' : List α} (h : c.Holds pre as) (h' : c.Holds pre' as') :
    c.Holds (pre ++ pre') (as ++ as') := by
  intro bs
  rw [List.append_assoc, h, h', List.append_assoc]

/-- What has been read are records behind which anything may stand. -/
theorem Reads.holds (hc : c.Local) (h : c.Reads bs as rest) : ∃ pre, bs = pre ++ rest ∧ c.Holds pre as := by
  induction h with
  | stop => exact ⟨[], rfl, holds_nil⟩
  | @next bs bs' rest a as hread _ ih =>
    obtain ⟨one, rfl, hone⟩ := hc hread
    obtain ⟨pre, rfl, hpre⟩ := ih
    refine ⟨one ++ pre, (List.append_assoc ..).symm, fun more => ?_⟩
    have hreads := reads_readAll (c := c) (pre ++ more)
    rw [hpre] at hreads
    rw [List.append_assoc]
    exact (Reads.next (hone _) hreads).readAll_eq

theorem readAll_encodeAll (has : ∀ a ∈ as, c.Fits a) : c.readAll (c.encodeAll as) = (as, []) := by
  have h := readAll_append has []
  rw [List.append_nil] at h
  rw [h, (Reads.stop read_nil).readAll_eq, List.append_nil]

/-- Behind whole records a torn one is not read. -/
theorem readAll_torn (has : ∀ a ∈ as, c.Fits a) {torn : List β} (ha : c.Fits a) (hp : torn <+: c.encode a)
    (hne : torn ≠ c.encode a) : c.readAll (c.encodeAll as ++ torn) = (as, torn) := by
  rw [readAll_append has, (Reads.stop (c.read_torn a ha torn hp hne)).readAll_eq, List.append_nil]

/-- **A prefix of whole records**: the complete ones are read, and nothing is left only if it ends
with one. -/
theorem readAll_prefix (has : ∀ a ∈ as, c.Fits a) (hp : bs <+: c.encodeAll as) :
    ∃ k ≤ as.length, ∃ torn, bs = c.encodeAll (as.take k) ++ torn ∧ c.readAll bs = (as.take k, torn) := by
  induction as generalizing bs with
  | nil =>
    obtain rfl : bs = [] := List.prefix_nil.1 hp
    exact ⟨0, le_rfl, [], rfl, readAll_encodeAll has⟩
  | cons a as ih =>
    have ha := has a List.mem_cons_self
    have has' : ∀ a' ∈ as, c.Fits a' := fun a' ha' => has a' (List.mem_cons_of_mem _ ha')
    rw [encodeAll_cons] at hp
    by_cases hwhole : c.encode a <+: bs
    · obtain ⟨bs', rfl⟩ := hwhole
      obtain ⟨k, hk, torn, rfl, hread⟩ := ih has' ((List.prefix_append_right_inj _).1 hp)
      have hnext : c.read (c.encode a ++ (c.encodeAll (as.take k) ++ torn)) =
          some (a, c.encodeAll (as.take k) ++ torn) := c.read_encode a ha _
      have hreads := reads_readAll (c := c) (c.encodeAll (as.take k) ++ torn)
      rw [hread] at hreads
      exact ⟨k + 1, Nat.succ_le_succ hk, torn, by simp, (Reads.next hnext hreads).readAll_eq⟩
    · have htorn : bs <+: c.encode a :=
        (List.prefix_or_prefix_of_prefix hp (List.prefix_append _ _)).resolve_right hwhole
      have hne : bs ≠ c.encode a := fun h => hwhole (h ▸ List.prefix_rfl)
      exact ⟨0, Nat.zero_le _, bs, rfl, (Reads.stop (c.read_torn a ha bs htorn hne)).readAll_eq⟩

/-- **Whole records cut at any place**: what is read is their longest beginning that lies before the cut. -/
theorem readAll_take (has : ∀ a ∈ as, c.Fits a) (n : Nat) :
    ∃ k ≤ as.length, (c.encodeAll (as.take k)).length ≤ n ∧
    (∀ j ≤ as.length, (c.encodeAll (as.take j)).length ≤ n → j ≤ k) ∧
    ∃ torn, (c.encodeAll as).take n = c.encodeAll (as.take k) ++ torn ∧
      c.readAll ((c.encodeAll as).take n) = (as.take k, torn) := by
  obtain ⟨k, hk, torn, hcut, hread⟩ := readAll_prefix has (List.take_prefix n (c.encodeAll as))
  refine ⟨k, hk, ?_, fun j hj hjn => ?_, torn, hcut, hread⟩
  · have hlen := congrArg List.length hcut
    rw [List.length_append, List.length_take] at hlen
    omega
  · -- The first `j` records are a beginning of what is left, and so they are read.
    have hpre : c.encodeAll (as.take j) <+: (c.encodeAll as).take n := by
      refine List.prefix_take_iff.2 ⟨⟨c.encodeAll (as.drop j), ?_⟩, hjn⟩
      rw [← encodeAll_append, List.take_append_drop]
    obtain ⟨rest, hrest⟩ := hpre
    have happend : c.readAll (c.encodeAll (as.take j) ++ rest) = _ :=
      readAll_append (fun a ha => has a (List.mem_of_mem_take ha)) rest
    rw [hrest, hread] at happend
    have hlen := congrArg (fun r => r.1.length) happend
    simp only [List.length_append, List.length_take] at hlen
    omega

end Codec

/-! ### Writing in the middle of a file -/

variable {β : Type}

/-- Writing at a position replaces what was there. -/
def overwrite (pos : Nat) (new old : List β) : List β := old.take pos ++ new ++ old.drop (pos + new.length)

@[simp] theorem overwrite_append_length (old new : List β) : overwrite old.length new old = old ++ new := by
  simp [overwrite]

/-- What was written is found where it was written. -/
theorem prefix_drop_overwrite {pos : Nat} {new old : List β} (hpos : pos ≤ old.length) :
    new <+: (overwrite pos new old).drop pos := by
  have hlen : (old.take pos).length = pos := by rw [List.length_take, Nat.min_eq_left hpos]
  have hdrop : (old.take pos ++ (new ++ old.drop (pos + new.length))).drop pos = new ++
    old.drop (pos + new.length) :=
    List.drop_left' hlen
  rw [overwrite, List.append_assoc, hdrop]
  exact List.prefix_append _ _

/-- Two writes one behind the other are one. -/
theorem overwrite_overwrite {pos : Nat} {new new' old : List β} (hpos : pos ≤ old.length) :
    overwrite (pos + new.length) new' (overwrite pos new old) = overwrite pos (new ++ new') old := by
  have htake : (old.take pos ++ new).length = pos + new.length := by simp [Nat.min_eq_left hpos]
  unfold overwrite
  rw [← htake, List.take_left, List.drop_append, List.drop_of_length_le (Nat.le_add_right _ _),
    List.nil_append, List.drop_drop, htake, List.length_append]
  simp [Nat.add_assoc]

theorem take_overwrite {pos : Nat} {new old : List β} (hpos : pos ≤ old.length) :
    (overwrite pos new old).take (pos + new.length) = old.take pos ++ new :=
  List.take_left' (by rw [List.length_append, List.length_take, Nat.min_eq_left hpos])

theorem take_overwrite_left {pos : Nat} {new old : List β} (hpos : pos ≤ old.length) :
    (overwrite pos new old).take pos = old.take pos := by
  rw [overwrite, List.append_assoc]
  exact List.take_left' (by rw [List.length_take, Nat.min_eq_left hpos])

theorem drop_overwrite {pos k : Nat} {new old : List β} (hpos : pos ≤ old.length)
    (hk : pos + new.length ≤ k) : (overwrite pos new old).drop k = old.drop k := by
  have hlen : (old.take pos ++ new).length = pos + new.length := by
    rw [List.length_append, List.length_take, Nat.min_eq_left hpos]
  rw [overwrite, List.drop_append, List.drop_of_length_le (hlen.trans_le hk), List.nil_append,
    List.drop_drop, hlen]
  congr 1
  omega

namespace Codec

variable {α : Type} {c : Codec α β} {as : List α}

/-- **Records over a torn one**: what they leave of it is read as well. -/
theorem readAll_overwrite {new : List α} (has : ∀ a ∈ as, c.Fits a) (hnew : ∀ a ∈ new, c.Fits a)
    (torn : List β) :
    c.readAll (overwrite (c.encodeAll as).length (c.encodeAll new) (c.encodeAll as ++ torn)) =
      (as ++ new ++ (c.readAll (torn.drop (c.encodeAll new).length)).1,
        (c.readAll (torn.drop (c.encodeAll new).length)).2) := by
  have hfile : overwrite (c.encodeAll as).length (c.encodeAll new) (c.encodeAll as ++ torn) =
      c.encodeAll (as ++ new) ++ torn.drop (c.encodeAll new).length := by
    rw [overwrite, List.take_left, List.drop_append, encodeAll_append]
    simp
  rw [hfile]
  refine readAll_append (fun a ha => ?_) _
  rcases List.mem_append.1 ha with ha | ha
  · exact has a ha
  · exact hnew a ha

end Codec

end Delimited
