import Iu9Db.Lib.Delimited
import Mathlib.Tactic.Ring

/-!
# The wire format of protocol buffers

Varints, fields and messages as they are written and as they are parsed, unknown fields and groups included.
A field ends where it says (`field`), so that a message that is cut off parses only at the end of a field
(`parseFields_prefix`); a message behind its size is a record (`Message.delimited`).
-/

namespace Wire

open Delimited

abbrev Bytes := List UInt8

/-! ### Varints -/

/-- Groups of seven bits, the least significant first, at most `k + 1` of them. -/
def varintBytes : Nat → Nat → Bytes
  | 0, n => [UInt8.ofNat (n % 128)]
  | k + 1, n => if n < 128 then [UInt8.ofNat n] else UInt8.ofNat (n % 128 + 128) :: varintBytes k (n / 128)

def encodeVarint (n : Nat) : Bytes := varintBytes 9 n

/-- A varint of at most `k` groups. -/
def readVarint : Nat → Bytes → Option (Nat × Bytes)
  | 0, _ => none
  | _ + 1, [] => none
  | k + 1, b :: bs =>
    if b < 128 then some (b.toNat, bs)
    else (readVarint k bs).map fun r => (b.toNat - 128 + 128 * r.1, r.2)

theorem readVarint_last {n : Nat} (h : n < 128) (k : Nat) (rest : Bytes) :
    readVarint (k + 1) (UInt8.ofNat n :: rest) = some (n, rest) := by
  have hn : (UInt8.ofNat n).toNat = n := by rw [UInt8.toNat_ofNat', Nat.mod_eq_of_lt (by omega)]
  have hlt : UInt8.ofNat n < 128 := by
    rw [UInt8.lt_iff_toNat_lt, hn]
    exact h
  rw [readVarint, if_pos hlt, hn]

theorem readVarint_more {n : Nat} (h : n < 128) (k : Nat) (rest : Bytes) :
    readVarint (k + 1) (UInt8.ofNat (n + 128) :: rest) =
    (readVarint k rest).map fun r => (n + 128 * r.1, r.2) := by
  have hn : (UInt8.ofNat (n + 128)).toNat = n + 128 := by rw [UInt8.toNat_ofNat', Nat.mod_eq_of_lt (by omega)]
  have hle : ¬ UInt8.ofNat (n + 128) < 128 := by
    rw [UInt8.lt_iff_toNat_lt, hn]
    exact Nat.not_lt.2 (Nat.le_add_left _ _)
  rw [readVarint, if_neg hle, hn, Nat.add_sub_cancel]

/-- A number of at most `k + 1` groups, and what follows it. -/
theorem readVarint_varintBytes {k j n : Nat} (hn : n < 128 ^ (k + 1)) (hj : k ≤ j) (rest : Bytes) :
    readVarint (k + 1) (varintBytes j n ++ rest) = some (n, rest) := by
  induction k generalizing j n with
  | zero =>
    have hlt : n < 128 := by simpa using hn
    cases j with
    | zero =>
      rw [varintBytes, Nat.mod_eq_of_lt hlt]
      exact readVarint_last hlt 0 rest
    | succ j =>
      rw [varintBytes, if_pos hlt]
      exact readVarint_last hlt 0 rest
  | succ k ih =>
    obtain ⟨j, rfl⟩ : ∃ j', j = j' + 1 := ⟨j - 1, by omega⟩
    unfold varintBytes
    split
    · rename_i hlt
      exact readVarint_last hlt (k + 1) rest
    · have hdiv : n / 128 < 128 ^ (k + 1) := by
        rw [Nat.div_lt_iff_lt_mul (by decide)]
        rwa [pow_succ] at hn
      rw [List.cons_append, readVarint_more (Nat.mod_lt n (by decide)), ih hdiv (by omega), Option.map_some,
        Nat.mod_add_div]

theorem readVarint_torn {k j n : Nat} {p : Bytes} (hp : p <+: varintBytes j n) (hne : p ≠ varintBytes j n) :
    readVarint k p = none := by
  induction k generalizing j n p with
  | zero => rfl
  | succ k ih =>
    cases p with
    | nil => rfl
    | cons b p =>
      have hone (b' : UInt8) (h : b :: p <+: [b']) : b :: p = [b'] := by
        obtain ⟨rfl, hp⟩ := List.cons_prefix_cons.1 h
        rw [List.prefix_nil.1 hp]
      cases j with
      | zero => exact absurd (hone _ hp) hne
      | succ j =>
        unfold varintBytes at hp hne
        split at hp
        · rename_i hlt
          rw [if_pos hlt] at hne
          exact absurd (hone _ hp) hne
        · rename_i hlt
          rw [if_neg hlt] at hne
          obtain ⟨rfl, hrest⟩ := List.cons_prefix_cons.1 hp
          rw [readVarint_more (Nat.mod_lt n (by decide)), ih hrest fun h => hne (h ▸ rfl), Option.map_none]

theorem readVarint_lt {k : Nat} {bs : Bytes} {r : Nat × Bytes} (h : readVarint k bs = some r) :
    r.2.length < bs.length := by
  induction k generalizing bs r with
  | zero => cases h
  | succ k ih =>
    cases bs with
    | nil => cases h
    | cons b bs =>
      unfold readVarint at h
      split at h
      · cases h
        exact Nat.lt_succ_self _
      · obtain ⟨r', hr', rfl⟩ := Option.map_eq_some_iff.1 h
        exact (ih hr').trans (Nat.lt_succ_self _)

/-! ### Sized parts -/

def readSized (size : Nat) (bs : Bytes) : Option (Bytes × Bytes) :=
  if size ≤ bs.length then some (bs.take size, bs.drop size) else none

theorem readSized_append (bs rest : Bytes) : readSized bs.length (bs ++ rest) = some (bs, rest) := by
  simp [readSized]

theorem readSized_torn {p bs : Bytes} (hp : p <+: bs) (hne : p ≠ bs) : readSized bs.length p = none := by
  have hlt : p.length < bs.length := lt_of_le_of_ne hp.length_le fun h => hne (hp.eq_of_length h)
  rw [readSized, if_neg (Nat.not_le.2 hlt)]

theorem readSized_le {size : Nat} {bs : Bytes} {r : Bytes × Bytes} (h : readSized size bs = some r) :
    r.2.length ≤ bs.length := by
  unfold readSized at h
  split at h <;> cases h
  rw [List.length_drop]
  exact Nat.sub_le _ _

/-! ### Fields -/

inductive Payload
  | varint (n : Nat)
  | fixed64 (bytes : Bytes)
  | lengthDelimited (bytes : Bytes)
  | startGroup
  | endGroup
  | fixed32 (bytes : Bytes)
deriving DecidableEq, Repr

structure Field where
  number : Nat
  payload : Payload
deriving DecidableEq, Repr

namespace Payload

def wireType : Payload → Nat
  | varint _ => 0
  | fixed64 _ => 1
  | lengthDelimited _ => 2
  | startGroup => 3
  | endGroup => 4
  | fixed32 _ => 5

def encode : Payload → Bytes
  | varint n => encodeVarint n
  | fixed64 bytes | fixed32 bytes => bytes
  | lengthDelimited bytes => encodeVarint bytes.length ++ bytes
  | startGroup | endGroup => []

def Fits : Payload → Prop
  | varint n => n < 2 ^ 64
  | fixed64 bytes => bytes.length = 8
  | lengthDelimited bytes => bytes.length < 2 ^ 31
  | startGroup | endGroup => True
  | fixed32 bytes => bytes.length = 4

/-- What the tag's wire type announces. -/
def read (wireType : Nat) (bs : Bytes) : Option (Payload × Bytes) :=
  match wireType with
  | 0 => (readVarint 10 bs).map fun r => (varint (r.1 % 2 ^ 64), r.2)
  | 1 => (readSized 8 bs).map fun r => (fixed64 r.1, r.2)
  | 2 => (readVarint 5 bs).bind fun r =>
    if r.1 < 2 ^ 31 then (readSized r.1 r.2).map fun r => (lengthDelimited r.1, r.2) else none
  | 3 => some (startGroup, bs)
  | 4 => some (endGroup, bs)
  | 5 => (readSized 4 bs).map fun r => (fixed32 r.1, r.2)
  | _ => none

theorem read_encode {p : Payload} (hp : p.Fits) (rest : Bytes) :
    read p.wireType (p.encode ++ rest) = some (p, rest) := by
  cases p with
  | varint n =>
    have hn : n < 128 ^ (9 + 1) := lt_of_lt_of_le hp (by decide)
    simp only [read, wireType, encode, encodeVarint]
    rw [readVarint_varintBytes hn le_rfl, Option.map_some, Nat.mod_eq_of_lt hp]
  | fixed64 bytes =>
    have hlen : bytes.length = 8 := hp
    simp only [read, wireType, encode]
    rw [← hlen, readSized_append, Option.map_some]
  | lengthDelimited bytes =>
    have hlt : bytes.length < 2 ^ 31 := hp
    have hn : bytes.length < 128 ^ (4 + 1) := lt_of_lt_of_le hp (by decide)
    simp only [read, wireType, encode, encodeVarint]
    rw [List.append_assoc, readVarint_varintBytes hn (by decide), Option.bind_some, if_pos hlt,
      readSized_append, Option.map_some]
  | startGroup => rfl
  | endGroup => rfl
  | fixed32 bytes =>
    have hlen : bytes.length = 4 := hp
    simp only [read, wireType, encode]
    rw [← hlen, readSized_append, Option.map_some]

theorem read_torn {p : Payload} (hp : p.Fits) {bs : Bytes} (hbs : bs <+: p.encode) (hne : bs ≠ p.encode) :
    read p.wireType bs = none := by
  cases p with
  | varint n => simp only [read, wireType, readVarint_torn hbs hne, Option.map_none]
  | fixed64 bytes =>
    have hlen : bytes.length = 8 := hp
    simp only [encode] at hbs hne
    simp only [read, wireType]
    rw [← hlen, readSized_torn hbs hne, Option.map_none]
  | lengthDelimited bytes =>
    have hlt : bytes.length < 2 ^ 31 := hp
    have hn : bytes.length < 128 ^ (4 + 1) := lt_of_lt_of_le hp (by decide)
    simp only [read, wireType]
    rcases torn_append hbs hne with ⟨hbs, hne⟩ | ⟨q, rfl, hq, hne⟩
    · rw [readVarint_torn hbs hne, Option.bind_none]
    · rw [encodeVarint, readVarint_varintBytes hn (by decide), Option.bind_some, if_pos hlt,
        readSized_torn hq hne, Option.map_none]
  | startGroup => exact absurd (List.prefix_nil.1 hbs) hne
  | endGroup => exact absurd (List.prefix_nil.1 hbs) hne
  | fixed32 bytes =>
    have hlen : bytes.length = 4 := hp
    simp only [encode] at hbs hne
    simp only [read, wireType]
    rw [← hlen, readSized_torn hbs hne, Option.map_none]

theorem read_le {wireType : Nat} {bs : Bytes} {r : Payload × Bytes} (h : read wireType bs = some r) :
    r.2.length ≤ bs.length := by
  unfold read at h
  split at h
  · obtain ⟨r', hr', rfl⟩ := Option.map_eq_some_iff.1 h
    exact (readVarint_lt hr').le
  · obtain ⟨r', hr', rfl⟩ := Option.map_eq_some_iff.1 h
    exact readSized_le hr'
  · obtain ⟨r', hr', h⟩ := Option.bind_eq_some_iff.1 h
    split at h
    · obtain ⟨r'', hr'', rfl⟩ := Option.map_eq_some_iff.1 h
      exact (readSized_le hr'').trans (readVarint_lt hr').le
    · cases h
  · cases h; exact le_rfl
  · cases h; exact le_rfl
  · obtain ⟨r', hr', rfl⟩ := Option.map_eq_some_iff.1 h
    exact readSized_le hr'
  · cases h

end Payload

namespace Field

/-- A field can have this number, and its payload its size. -/
def Fits (f : Field) : Prop := 0 < f.number ∧ f.number < 2 ^ 29 ∧ f.payload.Fits

/-- The tag is a `uint32_t`. -/
def tag (f : Field) : Nat := 8 * f.number + f.payload.wireType

def encode (f : Field) : Bytes := encodeVarint f.tag ++ f.payload.encode

def read (bs : Bytes) : Option (Field × Bytes) :=
  (readVarint 5 bs).bind fun r =>
    let tag := r.1 % 2 ^ 32
    if tag / 8 = 0 then none
    else (Payload.read (tag % 8) r.2).map fun p => (⟨tag / 8, p.1⟩, p.2)

theorem wireType_lt (p : Payload) : p.wireType < 8 := by cases p <;> simp [Payload.wireType]

theorem readTag {f : Field} (hf : f.Fits) (rest : Bytes) :
    read (encodeVarint f.tag ++ rest) =
    (Payload.read f.payload.wireType rest).map fun p => (⟨f.number, p.1⟩, p.2) := by
  obtain ⟨hpos, hlt, -⟩ := hf
  have htype := wireType_lt f.payload
  have htag : f.tag < 2 ^ 32 := by
    unfold tag
    omega
  have hn : f.tag < 128 ^ (4 + 1) := lt_of_lt_of_le htag (by decide)
  have hdiv : f.tag / 8 = f.number := by
    unfold tag
    omega
  have hmod : f.tag % 8 = f.payload.wireType := by
    unfold tag
    omega
  rw [read, encodeVarint, readVarint_varintBytes hn (by decide), Option.bind_some]
  dsimp only
  rw [Nat.mod_eq_of_lt htag, hdiv, if_neg (Nat.ne_of_gt hpos), hmod]

end Field

theorem Field.length_le_encode (number : Nat) (bytes : Bytes) :
    bytes.length ≤ (Field.encode ⟨number, .lengthDelimited bytes⟩).length := by
  simp only [encode, Payload.encode, List.length_append]
  omega

/-- Fields one after another. -/
def field : Codec Field UInt8 where
  Fits := Field.Fits
  encode := Field.encode
  read := Field.read
  read_encode f hf rest := by
    rw [Field.encode, List.append_assoc, Field.readTag hf, Payload.read_encode hf.2.2, Option.map_some]
  read_torn f hf p hp hne := by
    rcases torn_append hp hne with ⟨hp, hne⟩ | ⟨q, rfl, hq, hne⟩
    · rw [Field.read, readVarint_torn hp hne, Option.bind_none]
    · rw [Field.readTag hf, Payload.read_torn hf.2.2 hq hne, Option.map_none]
  read_lt bs f rest h := by
    obtain ⟨r, hr, h⟩ := Option.bind_eq_some_iff.1 h
    dsimp only at h
    split at h
    · cases h
    · obtain ⟨p, hp, he⟩ := Option.map_eq_some_iff.1 h
      cases he
      exact (Payload.read_le hp).trans_lt (readVarint_lt hr)

/-! ### Messages -/

/-- The fields outside of groups; groups must match and may be nested `depth` deep. -/
def ungroup (depth : Nat) : List Nat → List Field → Option (List Field)
  | [], [] => some []
  | _ :: _, [] => none
  | groups, f :: fs =>
    match f.payload with
    | .startGroup => if groups.length < depth then ungroup depth (f.number :: groups) fs else none
    | .endGroup =>
      match groups with
      | [] => none
      | number :: groups => if number = f.number then ungroup depth groups fs else none
    | _ => (ungroup depth groups fs).map fun rest => if groups.isEmpty then f :: rest else rest

/-- How deep messages may be nested. -/
def recursionLimit : Nat := 100

/-- The fields of a message, which has nothing else in it. -/
def parseFields (depth : Nat) (bs : Bytes) : Option (List Field) :=
  if (field.readAll bs).2 = [] then ungroup depth [] (field.readAll bs).1 else none

/-- A field of a varint or of bytes. -/
def Field.IsPlain (f : Field) : Prop :=
  0 < f.number ∧ f.number < 2 ^ 29 ∧
    match f.payload with
    | .varint n => n < 2 ^ 64
    | .lengthDelimited _ => True
    | _ => False

variable {depth : Nat} {fs : List Field}

theorem ungroup_plain (hfs : ∀ f ∈ fs, f.IsPlain) : ungroup depth [] fs = some fs := by
  induction fs with
  | nil => rfl
  | cons f fs ih =>
    obtain ⟨-, -, hpayload⟩ := hfs f List.mem_cons_self
    have hrest := ih fun f' hf' => hfs f' (List.mem_cons_of_mem _ hf')
    unfold ungroup
    split
    · rename_i hstart
      rw [hstart] at hpayload
      cases hpayload
    · rename_i hend
      rw [hend] at hpayload
      cases hpayload
    · rw [hrest]
      rfl

/-- In a message of less than two gigabytes every field fits. -/
theorem fits_of_length (hfs : ∀ f ∈ fs, f.IsPlain) (hlen : (field.encodeAll fs).length < 2 ^ 31) :
    ∀ f ∈ fs, f.Fits := by
  intro f hf
  have hle : f.encode.length ≤ (field.encodeAll fs).length := Codec.length_encode_le (c := field) hf
  obtain ⟨hpos, hlt, hpayload⟩ := hfs f hf
  refine ⟨hpos, hlt, ?_⟩
  obtain ⟨number, payload⟩ := f
  cases payload with
  | varint n => exact hpayload
  | lengthDelimited bytes => exact ((Field.length_le_encode number bytes).trans hle).trans_lt hlen
  | _ => cases hpayload

theorem parseFields_encodeAll (hfs : ∀ f ∈ fs, f.IsPlain) (hlen : (field.encodeAll fs).length < 2 ^ 31) :
    parseFields depth (field.encodeAll fs) = some fs := by
  rw [parseFields, Codec.readAll_encodeAll (fits_of_length hfs hlen), if_pos rfl]
  exact ungroup_plain hfs

/-- **A message that is cut off parses only where a field ends**, to the fields before. -/
theorem parseFields_prefix (hfs : ∀ f ∈ fs, f.IsPlain) (hlen : (field.encodeAll fs).length < 2 ^ 31)
    {bs : Bytes} (hbs : bs <+: field.encodeAll fs) {fs' : List Field}
    (hparse : parseFields depth bs = some fs') :
    ∃ k ≤ fs.length, bs = field.encodeAll (fs.take k) ∧ fs' = fs.take k := by
  obtain ⟨k, hk, torn, rfl, hread⟩ := Codec.readAll_prefix (fits_of_length hfs hlen) hbs
  have hplain : ∀ f ∈ fs.take k, f.IsPlain := fun f hf => hfs f (List.mem_of_mem_take hf)
  rw [parseFields, hread] at hparse
  split at hparse
  · rename_i htorn
    obtain rfl : torn = [] := htorn
    rw [ungroup_plain hplain, Option.some.injEq] at hparse
    exact ⟨k, hk, List.append_nil _, hparse.symm⟩
  · cases hparse

/-! ### Messages behind their size -/

/-- A kind of message. -/
structure Message (α : Type) where
  encode : α → Bytes
  parse : Bytes → Option α
  parse_encode : ∀ a, (encode a).length < 2 ^ 31 → parse (encode a) = some a

/-- `SerializeDelimited…` and `ParseDelimited…`: a message behind its size. -/
def Message.delimited {α : Type} (m : Message α) : Codec α UInt8 where
  Fits a := (m.encode a).length < 2 ^ 31
  encode a := encodeVarint (m.encode a).length ++ m.encode a
  read bs := (readVarint 10 bs).bind fun r =>
    if r.1 % 2 ^ 32 < 2 ^ 31 then
      (readSized (r.1 % 2 ^ 32) r.2).bind fun body => (m.parse body.1).map fun a => (a, body.2)
    else none
  read_encode a ha rest := by
    have hn : (m.encode a).length < 128 ^ (9 + 1) := lt_of_lt_of_le ha (by decide)
    have hmod : (m.encode a).length % 2 ^ 32 = (m.encode a).length := Nat.mod_eq_of_lt (ha.trans (by decide))
    rw [List.append_assoc, encodeVarint, readVarint_varintBytes hn le_rfl, Option.bind_some, hmod, if_pos ha,
      readSized_append, Option.bind_some, m.parse_encode a ha, Option.map_some]
  read_torn a ha p hp hne := by
    have hn : (m.encode a).length < 128 ^ (9 + 1) := lt_of_lt_of_le ha (by decide)
    have hmod : (m.encode a).length % 2 ^ 32 = (m.encode a).length := Nat.mod_eq_of_lt (ha.trans (by decide))
    rcases torn_append hp hne with ⟨hp, hne⟩ | ⟨q, rfl, hq, hne⟩
    · rw [readVarint_torn hp hne, Option.bind_none]
    · rw [encodeVarint, readVarint_varintBytes hn le_rfl, Option.bind_some, hmod, if_pos ha,
        readSized_torn hq hne, Option.bind_none]
  read_lt bs a rest h := by
    obtain ⟨r, hr, h⟩ := Option.bind_eq_some_iff.1 h
    split at h
    · obtain ⟨body, hbody, h⟩ := Option.bind_eq_some_iff.1 h
      obtain ⟨a', -, he⟩ := Option.map_eq_some_iff.1 h
      cases he
      exact (readSized_le hbody).trans_lt (readVarint_lt hr)
    · cases h

theorem readVarint_local {k n : Nat} {bs rest : Bytes} (h : readVarint k bs = some (n, rest)) :
    ∃ pre, bs = pre ++ rest ∧ ∀ rest', readVarint k (pre ++ rest') = some (n, rest') := by
  induction k generalizing bs n with
  | zero => cases h
  | succ k ih =>
    cases bs with
    | nil => cases h
    | cons b bs =>
      unfold readVarint at h
      by_cases hb : b < 128
      · rw [if_pos hb] at h
        cases h
        exact ⟨[b], rfl, fun rest' => if_pos hb⟩
      · rw [if_neg hb] at h
        obtain ⟨⟨m, rest₁⟩, hmore, he⟩ := Option.map_eq_some_iff.1 h
        cases he
        obtain ⟨pre, rfl, hpre⟩ := ih hmore
        refine ⟨b :: pre, rfl, fun rest' => ?_⟩
        rw [List.cons_append, readVarint, if_neg hb, hpre]
        rfl

theorem readSized_eq_some {size : Nat} {bs body rest : Bytes} (h : readSized size bs = some (body, rest)) :
    bs = body ++ rest ∧ body.length = size := by
  unfold readSized at h
  split at h
  · cases h
    exact ⟨(List.take_append_drop ..).symm, List.length_take_of_le ‹_›⟩
  · cases h

theorem Message.delimited_local {α : Type} (m : Message α) : m.delimited.Local := by
  intro bs a rest h
  obtain ⟨⟨size, rest₁⟩, hsize, h⟩ := Option.bind_eq_some_iff.1 h
  dsimp only at h
  split at h
  · rename_i hlt
    obtain ⟨⟨body, rest₂⟩, hbody, h⟩ := Option.bind_eq_some_iff.1 h
    obtain ⟨a', hparse, he⟩ := Option.map_eq_some_iff.1 h
    cases he
    obtain ⟨pre, rfl, hpre⟩ := readVarint_local hsize
    obtain ⟨rfl, hlen⟩ := readSized_eq_some hbody
    refine ⟨pre ++ body, (List.append_assoc ..).symm, fun rest' => ?_⟩
    show (readVarint 10 (pre ++ body ++ rest')).bind _ = _
    rw [List.append_assoc, hpre, Option.bind_some]
    dsimp only
    rw [if_pos hlt, ← hlen, readSized_append, Option.bind_some, hparse]
    rfl
  · cases h

end Wire
