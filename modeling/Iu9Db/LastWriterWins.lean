import Iu9Db.StorageSystem
import Iu9Db.Lib.Versioned

/-!
# Versioned operations delivered in any order

`deliver s ops` executes operations one after another; a retried delivery is an operation that occurs
again. For each key the entry should end up the newest of all that were seen. `Get` gives the version
zero to rows in memory and nothing at all for tombstones, so a stored entry holds its place against
older operations only while it is a live value on disk that memory does not shadow (`Shielded`);
everywhere else the operation that comes last stays. `lastWriterWins_iff` says which deliveries that is
enough for.
-/

namespace Iu9Db

open Keyed Versioned

namespace StorageSystem

/-- Executes the operations in order; every append to the log succeeds. -/
def deliver (s : StorageSystem) (ops : List Write) : StorageSystem :=
  ops.foldl (fun s w => (s.exec true w).2) s

/-- Every entry seen for a key: the one stored at first and those of the operations on it. -/
def seen (s : StorageSystem) (ops : List Write) (k : Str) : List Value :=
  (s.entry k).toList ++ (ops.filter fun w => w.key = k).map Write.value

/-- The entry of `k` after the delivery is the newest one seen; none if none was seen. -/
def HoldsNewest (s : StorageSystem) (ops : List Write) (k : Str) : Prop :=
  match (s.deliver ops).entry k with
  | none => s.seen ops k = []
  | some v => IsNewest Value.version (s.seen ops k) v

/-- Two different operations on one key have different versions. -/
def VersionsDistinct (ops : List Write) : Prop :=
  ∀ w ∈ ops, ∀ w' ∈ ops, w.key = w'.key → w.version = w'.version → w = w'

/-- The key is a live value on disk, not shadowed by memory, and newer than every operation on it. -/
def Shielded (s : StorageSystem) (ops : List Write) (k : Str) : Prop :=
  s.storage.find k = none ∧ ∃ record, s.persistentStorage.find k = some record ∧ record.value.isSome ∧
    ∀ w ∈ ops, w.key = k → w.version < record.version

/-- What a delivery needs on a key: it is shielded, or no operation on it, or the last operation on it
is as new as everything seen. -/
def InOrder (s : StorageSystem) (ops : List Write) (k : Str) : Prop :=
  s.Shielded ops k ∨ ∀ w, findLast Write.key k ops = some w → ∀ v ∈ s.seen ops k, v.version ≤ w.version

section
variable {s : StorageSystem} {ops ops' : List Write} {k : Str}

theorem deliver_concat (s : StorageSystem) (ops : List Write) (w : Write) :
    s.deliver (ops ++ [w]) = ((s.deliver ops).exec true w).2 := by
  simp [deliver, List.foldl_append]

theorem wf_deliver (h : s.Wf) (ops : List Write) :
    (s.deliver ops).Wf ∧ (s.deliver ops).persistentStorage = s.persistentStorage := by
  induction ops using List.reverseRecOn with
  | nil => exact ⟨h, rfl⟩
  | append_singleton ops w ih =>
    obtain ⟨-, hwf, hdisk, -⟩ := exec_true ih.1 w
    rw [deliver_concat]
    exact ⟨hwf, hdisk.trans ih.2⟩

/-- The row of a key after a delivery: untouched while the key is shielded, otherwise that of the last
operation on it. -/
theorem find_deliver (h : s.Wf) (ops : List Write) (k : Str) :
    (s.Shielded ops k → (s.deliver ops).storage.find k = none) ∧
    (¬ s.Shielded ops k → (s.deliver ops).storage.find k =
      ((findLast Write.key k ops).map Write.value).or (s.storage.find k)) := by
  induction ops using List.reverseRecOn with
  | nil => exact ⟨fun hs => hs.1, fun _ => rfl⟩
  | append_singleton ops w ih =>
    obtain ⟨hwf, hdisk⟩ := wf_deliver h ops
    obtain ⟨-, -, -, hfind⟩ := exec_true hwf w
    rw [deliver_concat, hfind, findLast_concat]
    by_cases hk : w.key = k
    · subst hk
      simp only [true_and, ↓reduceIte, Option.map_some, Option.some_or]
      have homits := omits_iff hwf.persistentStorage w.version w.key
      rw [hdisk] at homits
      have hiff : omits w.version ((s.deliver ops).get w.key) = true ↔ s.Shielded (ops ++ [w]) w.key := by
        rw [homits]
        constructor
        · rintro ⟨hmem, record, hrec, hlive, hlt⟩
          by_cases hs : s.Shielded ops w.key
          · obtain ⟨hnone, record', hrec', -, hall⟩ := hs
            obtain rfl : record' = record := Option.some.inj (hrec'.symm.trans hrec)
            refine ⟨hnone, record', hrec, hlive, fun u hu huk => ?_⟩
            rcases List.mem_append.1 hu with hu | hu
            · exact hall u hu huk
            · rw [List.mem_singleton.1 hu]; exact hlt
          · -- Nothing was written under the key: no operation on it came before.
            rw [ih.2 hs, Option.or_eq_none_iff, Option.map_eq_none_iff, findLast_eq_none] at hmem
            refine ⟨hmem.2, record, hrec, hlive, fun u hu huk => ?_⟩
            rcases List.mem_append.1 hu with hu | hu
            · exact absurd huk (hmem.1 u hu)
            · rw [List.mem_singleton.1 hu]; exact hlt
        · rintro ⟨hnone, record, hrec, hlive, hall⟩
          exact ⟨ih.1 ⟨hnone, record, hrec, hlive, fun u hu => hall u (by simp [hu])⟩, record, hrec, hlive,
            hall w (by simp) rfl⟩
      constructor
      · intro hs
        rw [if_neg (by simp [hiff.2 hs])]
        obtain ⟨hnone, record, hrec, hlive, hall⟩ := hs
        exact ih.1 ⟨hnone, record, hrec, hlive, fun u hu => hall u (by simp [hu])⟩
      · intro hs
        rw [if_pos (Bool.eq_false_iff.2 fun ho => hs (hiff.1 ho))]
    · have hsame : s.Shielded (ops ++ [w]) k ↔ s.Shielded ops k := by
        simp only [Shielded, List.mem_append, List.mem_singleton]
        constructor <;> rintro ⟨hnone, record, hrec, hlive, hall⟩ <;>
          refine ⟨hnone, record, hrec, hlive, fun u hu huk => ?_⟩
        · exact hall u (.inl hu) huk
        · rcases hu with hu | rfl
          · exact hall u hu huk
          · exact absurd huk hk
      simp only [Ne.symm hk, false_and, ↓reduceIte, hk, hsame]
      exact ih

theorem mem_seen {v : Value} :
    v ∈ s.seen ops k ↔ s.entry k = some v ∨ ∃ w ∈ ops, w.key = k ∧ w.value = v := by
  simp [seen, eq_comm, and_assoc]

theorem entry_deliver (h : s.Wf) (ops : List Write) (k : Str) :
    (s.Shielded ops k → (s.deliver ops).entry k = s.entry k) ∧
    (¬ s.Shielded ops k → (s.deliver ops).entry k =
      ((findLast Write.key k ops).map Write.value).or (s.entry k)) := by
  obtain ⟨h1, h2⟩ := find_deliver h ops k
  rw [entry, entry, (wf_deliver h ops).2]
  refine ⟨fun hs => ?_, fun hs => ?_⟩
  · rw [h1 hs, hs.1]
  · rw [h2 hs, Option.or_assoc]

/-- **A key holds the newest entry seen exactly when its operations came in order.** -/
theorem holdsNewest_key (h : s.Wf) (ops : List Write) (k : Str) :
    s.HoldsNewest ops k ↔ s.InOrder ops k := by
  obtain ⟨hsh, hns⟩ := entry_deliver h ops k
  by_cases hs : s.Shielded ops k
  · refine iff_of_true ?_ (.inl hs)
    rw [HoldsNewest, hsh hs]
    obtain ⟨hnone, record, hrec, -, hall⟩ := hs
    have hentry : s.entry k = some record.toValue := by simp [entry, hnone, hrec]
    rw [hentry]
    refine ⟨mem_seen.2 (.inl hentry), fun v hv => ?_⟩
    rcases mem_seen.1 hv with hv | ⟨w, hw, hk, rfl⟩
    · rw [hentry] at hv
      rw [Option.some.inj hv]
    · rw [Write.value_version]
      exact (hall w hw hk).le
  · rw [HoldsNewest, hns hs, InOrder, or_iff_right hs]
    cases hl : findLast Write.key k ops with
    | some w =>
      have hmem : w.value ∈ s.seen ops k :=
        mem_seen.2 (.inr ⟨w, mem_of_findLast hl, key_of_findLast hl, rfl⟩)
      simp only [Option.map_some, Option.some_or, Option.some.injEq, forall_eq']
      constructor
      · rintro ⟨-, hle⟩
        simpa only [Write.value_version] using hle
      · exact fun hle => ⟨hmem, fun v hv => by simpa only [Write.value_version] using hle v hv⟩
    | none =>
      have hno := findLast_eq_none.1 hl
      simp only [Option.map_none, Option.none_or, reduceCtorEq, false_implies, implies_true, iff_true]
      cases hentry : s.entry k with
      | none =>
        refine List.eq_nil_iff_forall_not_mem.2 fun v hv => ?_
        rcases mem_seen.1 hv with hv | ⟨w, hw, hk, -⟩
        · rw [hentry] at hv; cases hv
        · exact hno w hw hk
      | some v =>
        refine ⟨mem_seen.2 (.inl hentry), fun u hu => ?_⟩
        rcases mem_seen.1 hu with hu | ⟨w, hw, hk, -⟩
        · rw [hentry] at hu
          rw [Option.some.inj hu]
        · exact absurd hk (hno w hw)

theorem Shielded.congr (hmem : ∀ w, w ∈ ops ↔ w ∈ ops') : s.Shielded ops k ↔ s.Shielded ops' k := by
  simp only [Shielded, hmem]

/-- Two in-order deliveries of the same operations end on the same operation for each key. -/
theorem findLast_eq_of_inOrder (hd : VersionsDistinct ops) (hmem : ∀ w, w ∈ ops ↔ w ∈ ops')
    (hs : ¬ s.Shielded ops k) (h : s.InOrder ops k) (h' : s.InOrder ops' k) :
    findLast Write.key k ops = findLast Write.key k ops' := by
  have hlast := h.resolve_left hs
  have hlast' := h'.resolve_left fun hs' => hs ((Shielded.congr hmem).2 hs')
  cases hl : findLast Write.key k ops with
  | none =>
    refine (findLast_eq_none.2 fun w hw => ?_).symm
    exact findLast_eq_none.1 hl w ((hmem w).2 hw)
  | some w =>
    have hw := mem_of_findLast hl
    have hwk := key_of_findLast hl
    cases hl' : findLast Write.key k ops' with
    | none => exact absurd hwk (findLast_eq_none.1 hl' w ((hmem w).1 hw))
    | some w' =>
      have hw' := (hmem w').2 (mem_of_findLast hl')
      have hwk' := key_of_findLast hl'
      have hle := hlast w hl w'.value (mem_seen.2 (.inr ⟨w', hw', hwk', rfl⟩))
      have hle' := hlast' w' hl' w.value (mem_seen.2 (.inr ⟨w, (hmem w).1 hw, hwk, rfl⟩))
      rw [Write.value_version] at hle hle'
      rw [hd w hw w' hw' (hwk.trans hwk'.symm) (le_antisymm hle' hle)]

/-- Replicas that received the same operations, each in order, answer every `Get` alike. -/
theorem get_eq_of_inOrder (h : s.Wf) (hd : VersionsDistinct ops) (hmem : ∀ w, w ∈ ops ↔ w ∈ ops')
    (ho : s.InOrder ops k) (ho' : s.InOrder ops' k) : (s.deliver ops).get k = (s.deliver ops').get k := by
  apply get_congr
  rw [get_eq (wf_deliver h ops).1.persistentStorage, get_eq (wf_deliver h ops').1.persistentStorage,
    (wf_deliver h ops).2, (wf_deliver h ops').2]
  have hrow := find_deliver h ops k
  have hrow' := find_deliver h ops' k
  by_cases hs : s.Shielded ops k
  · rw [hrow.1 hs, hrow'.1 ((Shielded.congr hmem).1 hs)]
  · rw [hrow.2 hs, hrow'.2 fun hs' => hs ((Shielded.congr hmem).2 hs'),
      findLast_eq_of_inOrder hd hmem hs ho ho']

/-- **Last writer wins on the deliveries that are in order, and on no other.** Two of them with the same
operations end in states that answer every `Get` alike. -/
theorem lastWriterWins_iff (h : s.Wf) (ops : List Write) :
    ((∀ k, s.HoldsNewest ops k) ↔ ∀ k, s.InOrder ops k) ∧
    ∀ ops', VersionsDistinct ops → (∀ w, w ∈ ops ↔ w ∈ ops') → (∀ k, s.InOrder ops k) →
      (∀ k, s.InOrder ops' k) → ∀ k, (s.deliver ops).get k = (s.deliver ops').get k :=
  ⟨forall_congr' (holdsNewest_key h ops), fun _ hd hmem ho ho' k => get_eq_of_inOrder h hd hmem (ho k)
    (ho' k)⟩

end

/-- One key, a first and a second version. -/
def firstInsert : Write := .insert ⟨[97], [1], 1⟩
def secondInsert : Write := .insert ⟨[97], [2], 2⟩

theorem versionsDistinct_inserts : VersionsDistinct [firstInsert, secondInsert] := by
  intro w hw w' hw' _ hv
  simp only [List.mem_cons, List.not_mem_nil, or_false] at hw hw'
  rcases hw with rfl | rfl <;> rcases hw' with rfl | rfl
  · rfl
  · exact absurd hv (by decide)
  · exact absurd hv (by decide)
  · rfl

/-- With the newer operation at the end, whatever came before it. -/
theorem inOrder_inserts {l : List Write} (h : ∀ w ∈ l, w = firstInsert ∨ w = secondInsert) (k : Str) :
    new.InOrder (l ++ [secondInsert]) k := by
  refine .inr fun w hw v hv => ?_
  have hv' : v.version ≤ 2 := by
    rcases mem_seen.1 hv with hv | ⟨u, hu, -, rfl⟩
    · simp [entry, new] at hv
    · rcases List.mem_append.1 hu with hu | hu
      · rcases h u hu with rfl | rfl <;> decide
      · rw [List.mem_singleton.1 hu]; decide
  rw [findLast_concat] at hw
  split at hw
  · cases hw; exact hv'
  · rename_i hk
    have hmem := mem_of_findLast hw
    have hkey := key_of_findLast hw
    rcases h w hmem with rfl | rfl
    · exact absurd hkey hk
    · exact absurd hkey hk

theorem lastWriterWins_iff_inserts :
    (∀ k, new.HoldsNewest [firstInsert, secondInsert] k) ∧
    ∀ k, (new.deliver [firstInsert, secondInsert]).get k =
      (new.deliver [secondInsert, firstInsert, secondInsert]).get k := by
  have h1 : ∀ k, new.InOrder [firstInsert, secondInsert] k :=
    inOrder_inserts (l := [firstInsert]) (by simp)
  have h2 : ∀ k, new.InOrder [secondInsert, firstInsert, secondInsert] k :=
    inOrder_inserts (l := [secondInsert, firstInsert]) (by simp)
  refine ⟨(lastWriterWins_iff wf_new _).1.2 h1,
    (lastWriterWins_iff wf_new _).2 _ versionsDistinct_inserts (fun w => ?_) h1 h2⟩
  simp only [List.mem_cons, List.not_mem_nil, or_false]
  tauto

/-- In memory the older operation that arrives later overwrites the newer one. -/
theorem not_lastWriterWins :
    ¬ ∀ (s : StorageSystem) (ops ops' : List Write), s.Wf → VersionsDistinct ops →
      (∀ w, w ∈ ops' ↔ w ∈ ops) → ∀ k, s.HoldsNewest ops' k := by
  intro h
  have hk := h new [firstInsert, secondInsert] [secondInsert, firstInsert] wf_new versionsDistinct_inserts
    (fun w => by simp [or_comm]) [97]
  have hentry : (new.deliver [secondInsert, firstInsert]).entry [97] = some ⟨some [1], 1⟩ := by decide
  rw [HoldsNewest, hentry] at hk
  have hle := hk.le ⟨some [2], 2⟩ (mem_seen.2 (.inr ⟨secondInsert, by simp, rfl, rfl⟩))
  exact absurd hle (by decide)

end StorageSystem

end Iu9Db
