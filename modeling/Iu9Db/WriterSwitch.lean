import Iu9Db.StorageSystem
import Iu9Db.Lib.Transition
import Iu9Db.Lib.Pending

/-!
# Writers in memory while the writer table is switched

`Collect` waits for the operations that have raised the count of the old counter. An operation that has
loaded `writer_` and not yet raised the count is not waited for: it writes to the old table when its
rows may have been copied.
-/

namespace Iu9Db

open Transition

namespace WriterSwitch

/-- Where `Insert` or `Remove` stands. -/
inductive WriterPc
  | start
  | loaded (ptr : CounterId)
  | counted (ptr : CounterId)
  | written (ptr : CounterId)
  | finished
deriving DecidableEq

/-- Where `Collect` and then `RemoveCollected` stand. -/
inductive SwapPc
  | start
  | firstLoaded (first : TableId)
  | exchanged (oldWriter : CounterId)
  | waited (oldWriter : CounterId)
  | copied (data : List StorageEntry)
  | secondExchanged (data : List StorageEntry) (oldReader : TableId)
  | dropped (data : List StorageEntry)
  | finished (data : List StorageEntry)
deriving DecidableEq

/-- `writer_.exchange` of a new counter for `first`. -/
def installWriter (first : TableId) (s : SwappableMemoryStorage) : SwappableMemoryStorage :=
  { s with
    counters := Function.update s.counters s.nextCounter ⟨first, 0⟩
    nextCounter := s.nextCounter + 1
    writer := s.nextCounter }

def opStep (w : Write) : WriterPc → SwappableMemoryStorage → Option (WriterPc × SwappableMemoryStorage)
  | .start, s => some (.loaded s.writer, s)
  | .loaded ptr, s => some (.counted ptr, s.add ptr)
  | .counted ptr, s => some (.written ptr, s.write ptr w.applyTo)
  | .written ptr, s => some (.finished, s.release ptr)
  | .finished, _ => none

/-- The old counter is gone when its count has been zero; the old table is dropped at once, since
nobody reads. -/
def swapStep : SwapPc → SwappableMemoryStorage → Option (SwapPc × SwappableMemoryStorage)
  | .start, s => some (.firstLoaded s.readerFirst, s)
  | .firstLoaded first, s => some (.exchanged s.writer, installWriter first s)
  | .exchanged oldWriter, s =>
    if (s.counters oldWriter).referenceCount = 0 then some (.waited oldWriter, s) else none
  | .waited _, s => some (.copied s.copySecond, s)
  | .copied data, s => some (.secondExchanged data s.readerSecond, s.exchangeSecond)
  | .secondExchanged data _, s => some (.dropped data, s)
  | .dropped data, s => some (.finished data, s.storeFirst)
  | .finished _, _ => none

structure Operation where
  write : Write
  pc : WriterPc
deriving DecidableEq

structure State where
  storage : SwappableMemoryStorage
  ops : List Operation
  swap : SwapPc

inductive Label
  | begin (w : Write)
  | op (i : Nat)
  | swap

/-- No two operations have one key. -/
def step (s : State) : Label → Option State
  | .begin w => if w.key ∈ s.ops.map (fun o => o.write.key) then none
    else some { s with ops := s.ops ++ [⟨w, .start⟩] }
  | .op i => (s.ops[i]?).bind fun o => (opStep o.write o.pc s.storage).map fun next =>
      { s with storage := next.2, ops := s.ops.set i ⟨o.write, next.1⟩ }
  | .swap => (swapStep s.swap s.storage).map fun next => { s with swap := next.1, storage := next.2 }

/-- Two different tables with any rows, and writers on the second. -/
def init (s : State) : Prop := ∃ s₀ : SwappableMemoryStorage,
  s₀.Wf ∧ s₀.writerTable = s₀.readerSecond ∧ s = ⟨s₀, [], .start⟩

def system : System State Label := ofFun init step

/-- When all have finished, every entry is in the rows that `Collect` returned, or `Get` finds it. -/
def Kept (s : State) : Prop := ∀ data, s.swap = .finished data → (∀ o ∈ s.ops, o.pc = .finished) →
  ∀ o ∈ s.ops, o.write.value.toEntry o.write.key ∈ data ∨ s.storage.get o.write.key = .ok o.write.value

/-- `oldWriter` is the counter that an operation has loaded, and its write is still to come. -/
def WriterPc.pending (oldWriter : CounterId) : WriterPc → Bool
  | loaded ptr | counted ptr => ptr == oldWriter
  | _ => false

/-- The counter that was exchanged out, when its rows are to be copied next. -/
def SwapPc.waited? : SwapPc → Option CounterId
  | waited oldWriter => some oldWriter
  | _ => none

/-- `Collect` copies the rows when no operation that has loaded the old counter is still to write. -/
def Ok (s : State) : Label → Prop
  | .swap => ∀ oldWriter ∈ s.swap.waited?, ∀ o ∈ s.ops, o.pc.pending oldWriter = false
  | .begin _ | .op _ => True

/-! ### The invariant -/

namespace SwapPc

/-- How many steps have been done. -/
def phase : SwapPc → Nat
  | start => 0
  | firstLoaded _ => 1
  | exchanged _ => 2
  | waited _ => 3
  | copied _ => 4
  | secondExchanged _ _ => 5
  | dropped _ => 6
  | finished _ => 7

/-- The counter that was exchanged out, until its rows are copied. -/
def oldWriter? : SwapPc → Option CounterId
  | exchanged oldWriter | waited oldWriter => some oldWriter
  | _ => none

/-- The rows that `Collect` has copied. -/
def data? : SwapPc → Option (List StorageEntry)
  | copied data | secondExchanged data _ | dropped data | finished data => some data
  | _ => none

end SwapPc

namespace WriterPc

/-- The counter that an operation has loaded. -/
def ptr? : WriterPc → Option CounterId
  | loaded ptr | counted ptr | written ptr => some ptr
  | _ => none

/-- The row is in a table. -/
def isWritten : WriterPc → Bool
  | written _ | finished => true
  | _ => false

end WriterPc

/-- An entry is in the rows to be copied or in the copied ones, or it is in the first reader's table. -/
def Saved (s₀ : SwappableMemoryStorage) (s : State) (w : Write) : Prop :=
  (s.storage.tables s₀.readerFirst).find w.key = some w.value ∨
    match s.swap.data? with
    | none => (s.storage.tables s₀.readerSecond).find w.key = some w.value
    | some data => w.value.toEntry w.key ∈ data

/-- The pointers after `n` steps of the switch, compared with `s₀`, where it began. -/
structure Roles (s₀ : SwappableMemoryStorage) (n : Nat) (st : SwappableMemoryStorage) : Prop where
  first : n < 7 → st.readerFirst = s₀.readerFirst ∧ st.nextTable = s₀.nextTable
  second : st.readerSecond = if n < 5 then s₀.readerSecond else s₀.readerFirst
  fresh : n = 7 → st.readerFirst = s₀.nextTable ∧ st.tables s₀.nextTable = .empty
  writer : st.writer = if n < 2 then s₀.writer else s₀.nextCounter
  nextCounter : n < 2 → st.nextCounter = s₀.nextCounter
  oldPtr : (st.counters s₀.writer).ptr = s₀.readerSecond
  newPtr : 2 ≤ n → (st.counters s₀.nextCounter).ptr = s₀.readerFirst

structure Inv (s₀ : SwappableMemoryStorage) (s : State) : Prop where
  wf : s₀.Wf
  keys : (s.ops.map fun o => o.write.key).Nodup
  loaded : ∀ first, s.swap = .firstLoaded first → first = s₀.readerFirst
  oldWriter : ∀ old, s.swap.oldWriter? = some old → old = s₀.writer
  roles : Roles s₀ s.swap.phase s.storage
  ptr : ∀ o ∈ s.ops, ∀ p, o.pc.ptr? = some p → p = s₀.writer ∨ 2 ≤ s.swap.phase ∧ p = s₀.nextCounter
  late : 4 ≤ s.swap.phase → ∀ o ∈ s.ops, o.pc.pending s₀.writer = false
  saved : ∀ o ∈ s.ops, o.pc.isWritten = true → Saved s₀ s o.write

/-! ### What a step of an operation changes -/

section
variable {w : Write} {pc pc' : WriterPc} {st st' : SwappableMemoryStorage}

/-- The pointers and what the counters point to. -/
structure SameRoles (st st' : SwappableMemoryStorage) : Prop where
  first : st'.readerFirst = st.readerFirst
  second : st'.readerSecond = st.readerSecond
  writer : st'.writer = st.writer
  nextTable : st'.nextTable = st.nextTable
  nextCounter : st'.nextCounter = st.nextCounter
  ptr : ∀ c, (st'.counters c).ptr = (st.counters c).ptr

theorem sameRoles_opStep (h : opStep w pc st = some (pc', st')) : SameRoles st st' := by
  cases pc with
  | start | counted ptr => cases h; exact ⟨rfl, rfl, rfl, rfl, rfl, fun _ => rfl⟩
  | loaded ptr | written ptr => cases h; exact ⟨rfl, rfl, rfl, rfl, rfl, SwappableMemoryStorage.ptr_update⟩
  | finished => cases h

/-- The only step that changes a table is the write, to the table of the counter that was loaded. -/
theorem tables_opStep (h : opStep w pc st = some (pc', st')) :
    (st'.tables = st.tables ∧ pc'.isWritten = pc.isWritten) ∨
    ∃ ptr, pc = .counted ptr ∧ pc' = .written ptr ∧ st'.tables =
      Function.update st.tables (st.counters ptr).ptr (w.applyTo (st.tables (st.counters ptr).ptr)) := by
  cases pc with
  | start | loaded ptr | written ptr => cases h; exact .inl ⟨rfl, rfl⟩
  | counted ptr => cases h; exact .inr ⟨ptr, rfl, rfl, rfl⟩
  | finished => cases h

theorem find_opStep (h : opStep w pc st = some (pc', st')) (t : TableId) {k : Str} (hk : k ≠ w.key) :
    (st'.tables t).find k = (st.tables t).find k := by
  rcases tables_opStep h with ⟨ht, -⟩ | ⟨ptr, -, -, ht⟩ <;> rw [ht]
  by_cases heq : t = (st.counters ptr).ptr
  · rw [heq, Function.update_self, Write.find_applyTo, if_neg hk]
  · rw [Function.update_of_ne heq]

theorem ptr_opStep (h : opStep w pc st = some (pc', st')) {p : CounterId} (hp : pc'.ptr? = some p) :
    pc.ptr? = some p ∨ p = st.writer := by
  cases pc with
  | start => cases h; cases hp; exact .inr rfl
  | loaded ptr | counted ptr | written ptr => cases h; first | exact .inl hp | cases hp
  | finished => cases h

theorem pending_opStep (h : opStep w pc st = some (pc', st')) {c : CounterId} (hp : pc'.pending c = true) :
    pc.pending c = true ∨ st.writer = c := by
  cases pc with
  | start => cases h; exact .inr (beq_iff_eq.1 hp)
  | loaded ptr => cases h; exact .inl hp
  | counted ptr | written ptr => cases h; cases hp
  | finished => cases h

end

section
variable {s₀ : SwappableMemoryStorage} {s : State}

theorem data?_eq_none {pc : SwapPc} (h : pc.phase < 4) : pc.data? = none := by
  cases pc <;> first | rfl | (simp only [SwapPc.phase] at h; omega)

theorem Saved.congr {s' : State} {w : Write} (h : Saved s₀ s w) (hswap : s'.swap = s.swap)
    (hfind : ∀ t, (s'.storage.tables t).find w.key = (s.storage.tables t).find w.key) : Saved s₀ s' w := by
  unfold Saved at h ⊢
  rw [hswap, hfind, hfind]
  exact h

/-- A write goes to the first reader's table, or to the second's before that one is copied. -/
theorem Inv.saved_write (hi : Inv s₀ s) {o : Operation} (ho : o ∈ s.ops) {ptr : CounterId}
    (hpc : o.pc = .counted ptr) {ops : List Operation} {st' : SwappableMemoryStorage}
    (ht : st'.tables = Function.update s.storage.tables (s.storage.counters ptr).ptr
      (o.write.applyTo (s.storage.tables (s.storage.counters ptr).ptr))) :
    Saved s₀ { s with storage := st', ops := ops } o.write := by
  have hrow : (st'.tables (s.storage.counters ptr).ptr).find o.write.key = some o.write.value := by
    rw [ht, Function.update_self, Write.find_applyTo, if_pos rfl]
  rcases hi.ptr o ho ptr (by rw [hpc]; rfl) with rfl | ⟨hphase, rfl⟩
  · right
    have hphase : s.swap.phase < 4 := by
      by_contra hge
      have hlate := hi.late (not_lt.1 hge) o ho
      rw [hpc, WriterPc.pending, beq_self_eq_true] at hlate
      cases hlate
    rw [data?_eq_none hphase]
    rw [hi.roles.oldPtr] at hrow
    exact hrow
  · left
    rw [hi.roles.newPtr hphase] at hrow
    exact hrow

theorem Roles.op {n : Nat} {st st' : SwappableMemoryStorage} (hr : Roles s₀ n st) (h : SameRoles st st')
    (htable : st'.tables s₀.nextTable = st.tables s₀.nextTable) : Roles s₀ n st' := by
  refine ⟨?_, ?_, ?_, ?_, ?_, ?_, ?_⟩
  · rw [h.first, h.nextTable]; exact hr.first
  · rw [h.second]; exact hr.second
  · rw [h.first, htable]; exact hr.fresh
  · rw [h.writer]; exact hr.writer
  · rw [h.nextCounter]; exact hr.nextCounter
  · rw [h.ptr]; exact hr.oldPtr
  · rw [h.ptr]; exact hr.newPtr

theorem Inv.op (hi : Inv s₀ s) {i : Nat} {o : Operation} (ho : s.ops[i]? = some o) {pc' : WriterPc}
    {st' : SwappableMemoryStorage} (h : opStep o.write o.pc s.storage = some (pc', st')) :
    Inv s₀ { s with storage := st', ops := s.ops.set i ⟨o.write, pc'⟩ } := by
  have hmem : o ∈ s.ops := List.mem_of_getElem? ho
  have hroles := sameRoles_opStep h
  have hkeys : (s.ops.set i ⟨o.write, pc'⟩).map (fun o => o.write.key) = s.ops.map fun o => o.write.key :=
    Pending.map_set ho rfl
  refine ⟨hi.wf, hkeys ▸ hi.keys, hi.loaded, hi.oldWriter, ?_, ?_, ?_, ?_⟩
  · refine hi.roles.op hroles ?_
    rcases tables_opStep h with ⟨ht, -⟩ | ⟨ptr, hpc, -, ht⟩ <;> rw [ht]
    have hne : s₀.nextTable ≠ (s.storage.counters ptr).ptr := by
      rcases hi.ptr o hmem ptr (by rw [hpc]; rfl) with rfl | ⟨h2, rfl⟩
      · rw [hi.roles.oldPtr]; exact (ne_of_lt hi.wf.second_lt).symm
      · rw [hi.roles.newPtr h2]; exact (ne_of_lt hi.wf.first_lt).symm
    rw [Function.update_of_ne hne]
  · intro o' ho' p hp
    rcases List.mem_or_eq_of_mem_set ho' with hold | rfl
    · exact hi.ptr o' hold p hp
    · rcases ptr_opStep h hp with hp | rfl
      · exact hi.ptr o hmem p hp
      · rw [hi.roles.writer]
        show _ ∨ 2 ≤ s.swap.phase ∧ _
        split
        · exact .inl rfl
        · exact .inr ⟨by omega, rfl⟩
  · intro hphase o' ho'
    replace hphase : 4 ≤ s.swap.phase := hphase
    rcases List.mem_or_eq_of_mem_set ho' with hold | rfl
    · exact hi.late hphase o' hold
    · refine Bool.eq_false_iff.2 fun hp => ?_
      rcases pending_opStep h hp with hp | hw
      · rw [hi.late hphase o hmem] at hp
        cases hp
      · rw [hi.roles.writer, if_neg (by omega)] at hw
        exact absurd hw (ne_of_lt hi.wf.writer_lt).symm
  · have hother : ∀ o' ∈ s.ops, o'.pc.isWritten = true →
        Saved s₀ { s with storage := st', ops := s.ops.set i ⟨o.write, pc'⟩ } o'.write := by
      intro o' ho' hw
      refine (hi.saved o' ho' hw).congr rfl fun t => ?_
      by_cases hk : o'.write.key = o.write.key
      · obtain rfl : o' = o := List.inj_on_of_nodup_map hi.keys ho' hmem hk
        rcases tables_opStep h with ⟨ht, -⟩ | ⟨ptr, hpc, -⟩
        · rw [ht]
        · rw [hpc] at hw; cases hw
      · exact find_opStep h t hk
    intro o' ho' hw
    rcases List.mem_or_eq_of_mem_set ho' with hold | rfl
    · exact hother o' hold hw
    · rcases tables_opStep h with ⟨-, hpc⟩ | ⟨ptr, hpc, -, ht⟩
      · exact hother o hmem (hpc.symm.trans hw)
      · exact hi.saved_write hmem hpc ht

theorem Inv.begin (hi : Inv s₀ s) {w : Write} (hw : w.key ∉ s.ops.map fun o => o.write.key) :
    Inv s₀ { s with ops := s.ops ++ [⟨w, .start⟩] } := by
  have hops : ∀ {P : Operation → Prop}, (∀ o ∈ s.ops, P o) → P ⟨w, .start⟩ → ∀ o ∈ s.ops ++ [⟨w, .start⟩],
    P o := by
    intro P hold hnew o ho
    rcases List.mem_append.1 ho with ho | ho
    · exact hold o ho
    · rw [List.mem_singleton.1 ho]; exact hnew
  exact { hi with
    keys := by
      rw [List.map_append, List.nodup_append]
      refine ⟨hi.keys, List.nodup_singleton _, fun k hk k' hk' => ?_⟩
      obtain rfl := List.mem_singleton.1 hk'
      rintro rfl
      exact hw hk
    ptr := hops hi.ptr fun p hp => nomatch hp
    late := fun hphase => hops (hi.late hphase) rfl
    saved := hops (fun o ho hw => (hi.saved o ho hw).congr rfl fun _ => rfl) fun hw => nomatch hw }

/-! ### What a step of the switch changes -/

theorem Roles.succ {n : Nat} {st : SwappableMemoryStorage} (hr : Roles s₀ n st) (h1 : n ≠ 1) (h4 : n ≠ 4)
    (h6 : n < 6) : Roles s₀ (n + 1) st := by
  refine ⟨fun h => hr.first (by omega), ?_,
    fun h => by omega, ?_, fun h => hr.nextCounter (by omega), hr.oldPtr, fun h => hr.newPtr (by omega)⟩
  · rw [hr.second, if_congr (show n < 5 ↔ n + 1 < 5 by omega) rfl rfl]
  · rw [hr.writer, if_congr (show n < 2 ↔ n + 1 < 2 by omega) rfl rfl]

theorem Roles.installWriter {st : SwappableMemoryStorage} (hwf : s₀.Wf) (hr : Roles s₀ 1 st) :
    Roles s₀ 2 (installWriter s₀.readerFirst st) := by
  have hn : st.nextCounter = s₀.nextCounter := hr.nextCounter (by omega)
  refine ⟨fun _ => hr.first (by omega), hr.second, fun h => by omega, hn, fun h => by omega, ?_, fun _ => ?_⟩
  · show (Function.update st.counters st.nextCounter _ s₀.writer).ptr = _
    rw [hn, Function.update_of_ne (ne_of_lt hwf.writer_lt)]
    exact hr.oldPtr
  · show (Function.update st.counters st.nextCounter _ s₀.nextCounter).ptr = _
    rw [hn, Function.update_self]

theorem Roles.exchangeSecond {st : SwappableMemoryStorage} (hr : Roles s₀ 4 st) :
    Roles s₀ 5 st.exchangeSecond :=
  ⟨fun _ => hr.first (by omega), (hr.first (by omega)).1,
    fun h => by omega, hr.writer, fun h => by omega, hr.oldPtr, fun _ => hr.newPtr (by omega)⟩

theorem Roles.storeFirst {st : SwappableMemoryStorage} (hr : Roles s₀ 6 st) : Roles s₀ 7 st.storeFirst := by
  have hn : st.nextTable = s₀.nextTable := (hr.first (by omega)).2
  refine ⟨fun h => by omega, hr.second, fun _ => ⟨hn, ?_⟩, hr.writer, fun h => by omega, hr.oldPtr,
    fun _ => hr.newPtr (by omega)⟩
  show Function.update st.tables st.nextTable _ s₀.nextTable = _
  rw [hn, Function.update_self]

/-- What a step of the switch has to keep besides the pointers. -/
theorem Inv.next (hi : Inv s₀ s) {pc' : SwapPc} {st' : SwappableMemoryStorage}
    (hphase : pc'.phase = s.swap.phase + 1)
    (hloaded : ∀ first, pc' = .firstLoaded first → first = s₀.readerFirst)
    (hold : ∀ old, pc'.oldWriter? = some old → old = s₀.writer) (hr : Roles s₀ (s.swap.phase + 1) st')
    (hlate : s.swap.phase = 3 → ∀ o ∈ s.ops, o.pc.pending s₀.writer = false)
    (hsaved : ∀ w, Saved s₀ s w → Saved s₀ { s with swap := pc', storage := st' } w) :
    Inv s₀ { s with swap := pc', storage := st' } := by
  refine ⟨hi.wf, hi.keys, hloaded, hold, hphase ▸ hr, fun o ho p hp => ?_, fun h4 => ?_,
    fun o ho hw => hsaved _ (hi.saved o ho hw)⟩
  · exact (hi.ptr o ho p hp).imp_right fun h => ⟨by show 2 ≤ pc'.phase; omega, h.2⟩
  · replace h4 : 4 ≤ pc'.phase := h4
    by_cases h3 : s.swap.phase = 3
    · exact hlate h3
    · exact hi.late (by omega)

theorem Inv.swap (hi : Inv s₀ s) (hok : Ok s .swap) {pc' : SwapPc} {st' : SwappableMemoryStorage}
    (h : swapStep s.swap s.storage = some (pc', st')) : Inv s₀ { s with swap := pc', storage := st' } := by
  obtain ⟨st, ops, pc⟩ := s
  cases pc with
  | start =>
    have hr : Roles s₀ 0 st := hi.roles
    cases h
    exact hi.next rfl (fun _ h => by cases h; exact (hr.first (by decide)).1) (fun _ h => nomatch h)
      (hr.succ (by decide) (by decide) (by decide)) (fun h => nomatch h) fun _ hw => hw
  | firstLoaded t =>
    have hr : Roles s₀ 1 st := hi.roles
    cases h
    obtain rfl := hi.loaded t rfl
    exact hi.next rfl (fun _ h => nomatch h) (fun _ h => by cases h; exact hr.writer) (hr.installWriter hi.wf)
      (fun h => nomatch h) fun _ hw => hw
  | exchanged old =>
    have hr : Roles s₀ 2 st := hi.roles
    obtain ⟨-, h⟩ := Option.ite_none_right_eq_some.1 h
    cases h
    exact hi.next rfl (fun _ h => nomatch h) (fun _ h => by cases h; exact hi.oldWriter old rfl)
      (hr.succ (by decide) (by decide) (by decide)) (fun h => nomatch h) fun _ hw => hw
  | waited old =>
    have hr : Roles s₀ 3 st := hi.roles
    cases h
    obtain rfl := hi.oldWriter old rfl
    refine hi.next rfl (fun _ h => nomatch h) (fun _ h => nomatch h)
      (hr.succ (by decide) (by decide) (by decide))
      (fun _ => hok _ rfl) fun w hw => hw.imp_right fun hw => ?_
    -- the row is in the table that is copied
    show _ ∈ (st.tables st.readerSecond).toEntries
    rw [hr.second]
    exact MapStorage.mem_toEntries.2 hw
  | copied data =>
    have hr : Roles s₀ 4 st := hi.roles
    cases h
    exact hi.next rfl (fun _ h => nomatch h) (fun _ h => nomatch h) hr.exchangeSecond (fun h => nomatch h)
      fun _ hw => hw
  | secondExchanged data old =>
    have hr : Roles s₀ 5 st := hi.roles
    cases h
    exact hi.next rfl (fun _ h => nomatch h) (fun _ h => nomatch h)
      (hr.succ (by decide) (by decide) (by decide))
      (fun h => nomatch h) fun _ hw => hw
  | dropped data =>
    have hr : Roles s₀ 6 st := hi.roles
    cases h
    refine hi.next rfl (fun _ h => nomatch h) (fun _ h => nomatch h) hr.storeFirst (fun h => nomatch h)
      fun w hw => ?_
    refine hw.imp_left fun hw => ?_
    show (Function.update st.tables st.nextTable .empty s₀.readerFirst).find _ = _
    rw [(hr.first (by decide)).2, Function.update_of_ne (ne_of_lt hi.wf.first_lt)]
    exact hw
  | finished data => cases h

theorem inv_init {s₀ : SwappableMemoryStorage} (hwf : s₀.Wf) (hw : s₀.writerTable = s₀.readerSecond) :
    Inv s₀ ⟨s₀, [], .start⟩ where
  wf := hwf
  keys := List.nodup_nil
  loaded := fun _ h => nomatch h
  oldWriter := fun _ h => nomatch h
  roles := ⟨fun _ => ⟨rfl, rfl⟩, rfl, (fun h => nomatch h), rfl, fun _ => rfl, hw, (fun h => nomatch h)⟩
  ptr := fun _ h => absurd h List.not_mem_nil
  late := fun _ _ h => absurd h List.not_mem_nil
  saved := fun _ h => absurd h List.not_mem_nil

theorem inv_step {s' : State} {a : Label} (hi : Inv s₀ s) (hok : Ok s a) (hs : step s a = some s') :
    Inv s₀ s' := by
  cases a with
  | begin w =>
    obtain ⟨hw, hs⟩ := Option.ite_none_left_eq_some.1 hs
    cases hs
    exact hi.begin hw
  | op i =>
    obtain ⟨o, ho, h⟩ := Option.bind_eq_some_iff.1 hs
    obtain ⟨next, hstep, rfl⟩ := Option.map_eq_some_iff.1 h
    exact hi.op ho hstep
  | swap =>
    obtain ⟨next, hstep, rfl⟩ := Option.map_eq_some_iff.1 hs
    exact hi.swap hok hstep

theorem Inv.kept (hi : Inv s₀ s) : Kept s := by
  intro data hdata hfinished o ho
  have hphase : s.swap.phase = 7 := by rw [hdata]; rfl
  have hw : o.pc.isWritten = true := by rw [hfinished o ho]; rfl
  rcases hi.saved o ho hw with hrow | hcopied
  · obtain ⟨hfirst, hempty⟩ := hi.roles.fresh hphase
    refine .inr ((SwappableMemoryStorage.get_eq s.storage o.write.key).2 _ ?_)
    rw [SwappableMemoryStorage.find, hfirst, hempty, hi.roles.second, hphase, MapStorage.find_empty]
    exact hrow
  · rw [hdata] at hcopied
    exact .inl hcopied

end

/-- **A write is copied or still found, when the rows are copied after the writes of all operations that
had loaded the old counter.** -/
theorem kept_of_reachableBy {s : State} (h : system.ReachableBy Ok s) : Kept s := by
  obtain ⟨s₀, hi⟩ := h.invariant (I := fun s => ∃ s₀, Inv s₀ s)
    (fun _ ⟨s₀, hwf, hw, he⟩ => ⟨s₀, he ▸ inv_init hwf hw⟩) fun _ _ _ ⟨s₀, hi⟩ hok hs =>
      ⟨s₀, inv_step hi hok hs⟩
  exact hi.kept

/-! ### Runs -/

theorem exec_insert {s : SwappableMemoryStorage} (kwPair : KwPair) (pc : SwapPc) :
    exec step ⟨s, [], pc⟩ (.begin (.insert kwPair) :: List.replicate 4 (.op 0)) =
      some ⟨s.insert kwPair, [⟨.insert kwPair, .finished⟩], pc⟩ := rfl

theorem exec_swap {s : SwappableMemoryStorage} (h : (s.counters s.writer).referenceCount = 0)
    (hw : s.writer < s.nextCounter) (ops : List Operation) :
    exec step ⟨s, ops, .start⟩ (List.replicate 7 .swap) =
      some ⟨s.collect.1.removeCollected, ops, .finished s.collect.2⟩ := by
  have hcount : ((installWriter s.readerFirst s).counters s.writer).referenceCount = 0 := by
    show (Function.update s.counters s.nextCounter _ s.writer).referenceCount = 0
    rw [Function.update_of_ne (ne_of_lt hw)]
    exact h
  simp only [List.replicate, exec, step, swapStep, Option.map_some, Option.bind_some]
  rw [if_pos hcount]
  rfl

instance decidableOk : ∀ s a, Decidable (Ok s a)
  | s, .swap => inferInstanceAs (Decidable (∀ oldWriter ∈ s.swap.waited?, _))
  | _, .begin _ | _, .op _ => isTrue trivial

def put : Write := .insert ⟨[1], [2], 1⟩

/-- The operation has raised the count when the writer is exchanged. -/
def waitedRun : List Label :=
  [.begin put, .op 0, .op 0, .swap, .swap, .op 0, .op 0, .swap, .swap, .swap, .swap, .swap]

/-- It has loaded `writer_` and raises the count when the rows have been copied. -/
def lateRun : List Label :=
  [.begin put, .op 0, .swap, .swap, .swap, .swap, .op 0, .op 0, .op 0, .swap, .swap, .swap]

theorem kept_waitedRun : ∃ s, s.swap = .finished [put.value.toEntry put.key] ∧ Kept s := by
  obtain ⟨s, hs⟩ : ∃ s, execBy Ok step ⟨.new, [], .start⟩ waitedRun = some s :=
    Option.isSome_iff_exists.1 (by decide +kernel)
  have hinit : system.ReachableBy Ok ⟨.new, [], .start⟩ :=
    .init ⟨_, SwappableMemoryStorage.wf_ofMap _, rfl, rfl⟩
  obtain ⟨hexec, hreach⟩ := reachableBy_execBy hinit hs
  exact ⟨s, eq_of_map_exec hexec (f := State.swap) (by decide +kernel), kept_of_reachableBy hreach⟩

/-- The write that comes late is neither copied nor found. -/
theorem not_kept : ¬ ∀ s, system.Reachable s → Kept s := by
  intro h
  obtain ⟨s, hs⟩ : ∃ s, exec step ⟨.new, [], .start⟩ lateRun = some s :=
    Option.isSome_iff_exists.1 (by decide +kernel)
  have hreach : system.Reachable s :=
    reachable_exec (.init ⟨_, SwappableMemoryStorage.wf_ofMap _, rfl, rfl⟩) hs
  have hswap : s.swap = .finished [] := eq_of_map_exec hs (f := State.swap) (by decide +kernel)
  have hops : s.ops = [⟨put, .finished⟩] := eq_of_map_exec hs (f := State.ops) (by decide +kernel)
  have hget : (s.storage.get put.key).isOk = false :=
    eq_of_map_exec hs (f := fun s => (s.storage.get put.key).isOk) (by decide +kernel)
  rcases h s hreach [] hswap (by simp [hops]) ⟨put, .finished⟩ (by simp [hops]) with hmem | hfound
  · exact absurd hmem List.not_mem_nil
  · rw [hfound] at hget
    cases hget

end WriterSwitch

end Iu9Db
