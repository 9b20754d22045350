import Mathlib

/-!
# Values that pass between the layers of a node

Strings are byte strings and compare byte by byte, as `std::string` does; versions are `uint64_t`.
`Result` is the repository's `result::Result`: a value or an `Error` that remembers every error it
wraps. `StorageEntry` is ordered by its fields in turn (the defaulted `operator<=>`), an absent
value below every present one; that is the order `std::sort` lays a table on disk in.
-/

namespace Iu9Db

instance instLinearOrderUInt8 : LinearOrder UInt8 where
  le_refl := UInt8.le_refl
  le_trans _ _ _ := UInt8.le_trans
  lt_iff_le_not_ge a b := by
    rw [UInt8.lt_iff_toNat_lt, UInt8.le_iff_toNat_le, UInt8.le_iff_toNat_le]; omega
  le_antisymm _ _ := UInt8.le_antisymm
  le_total := UInt8.le_total
  toDecidableLE := inferInstance

instance instLinearOrderUInt64 : LinearOrder UInt64 where
  le_refl := UInt64.le_refl
  le_trans _ _ _ := UInt64.le_trans
  lt_iff_le_not_ge a b := by
    rw [UInt64.lt_iff_toNat_lt, UInt64.le_iff_toNat_le, UInt64.le_iff_toNat_le]; omega
  le_antisymm _ _ := UInt64.le_antisymm
  le_total := UInt64.le_total
  toDecidableLE := inferInstance

/-- A `std::string`: any bytes, compared as unsigned chars. -/
abbrev Str := List UInt8

/-- The bytes of a string literal of the source. -/
def text (s : String) : Str := s.toUTF8.data.toList

/-! ### Results -/

inductive ErrorType
  | kUnknown
  | kNotFound
  | kNotMaster
  | kNotConnected
deriving DecidableEq, Repr

structure ErrorData where
  type : ErrorType
  message : Str
deriving DecidableEq, Repr

/-- `result::Error`: the first error followed by everything wrapped around it. -/
structure Error where
  wrapped : List ErrorData
deriving DecidableEq, Repr

namespace Error

def wrap (e : Error) (type : ErrorType) (message : Str) : Error := ⟨e.wrapped ++ [⟨type, message⟩]⟩

def wraps (e : Error) (type : ErrorType) : Bool := e.wrapped.any fun el => el.type == type

/-- The outermost message first, as `Error::What` prints them. -/
def what (e : Error) : Str := (text ": ").intercalate (e.wrapped.reverse.map ErrorData.message)

theorem wraps_wrap (e : Error) (t t' : ErrorType) (m : Str) :
    (e.wrap t m).wraps t' = (e.wraps t' || t == t') := by
  simp [wrap, wraps]

end Error

abbrev Result (α : Type) := Except Error α

def makeError (message : Str) (type : ErrorType := .kUnknown) : Error := ⟨[⟨type, message⟩]⟩

/-- `WrapError`: the error of a failed result with one more message around it. -/
def wrapError (e : Error) (message : Str) : Error := e.wrap .kUnknown message

@[simp] theorem wraps_makeError (m : Str) (t t' : ErrorType) : (makeError m t).wraps t' = (t == t') := by
  simp [makeError, Error.wraps]

section
variable {α : Type} {r r' : Result α}

theorem Result.eq_ok {a : α} (h : r.toOption = some a) : r = .ok a := by
  cases r <;> cases h
  rfl

theorem Result.exists_error (h : r.toOption = none) : ∃ e, r = .error e := by
  cases r <;> cases h
  exact ⟨_, rfl⟩

/-- Results that agree in what they return, and fail with one error, are the same. -/
theorem Result.ext_toOption (h : r.toOption = r'.toOption)
    (herror : ∀ e e', r = .error e → r' = .error e' → e = e') : r = r' := by
  cases hr : r.toOption with
  | some a => rw [Result.eq_ok hr, Result.eq_ok (h.symm.trans hr)]
  | none =>
    obtain ⟨e, he⟩ := Result.exists_error hr
    obtain ⟨e', he'⟩ := Result.exists_error (h.symm.trans hr)
    rw [he, he', herror e e' he he']

end

/-! ### Entries -/

/-- `models::storage::KwPair`. -/
structure KwPair where
  key : Str
  value : Str
  version : UInt64
deriving DecidableEq, Repr

/-- `storage::Value`: what a memory table maps a key to; a tombstone has no value. -/
structure Value where
  value : Option Str
  version : UInt64
deriving DecidableEq, Repr

/-- `models::dto::ValueDTO`. -/
structure ValueDTO where
  value : Str
  version : UInt64
deriving DecidableEq, Repr

/-- `storage::StorageEntry`: one record of a table on disk. -/
structure StorageEntry where
  key : Str
  value : Option Str
  version : UInt64
deriving DecidableEq, Repr

namespace StorageEntry

/-- The fields in the order the defaulted comparison reads them. -/
def fields (e : StorageEntry) : Str ×ₗ (WithBot Str ×ₗ UInt64) := toLex (e.key, toLex (e.value, e.version))

theorem fields_injective : Function.Injective fields := by
  rintro ⟨k, v, n⟩ ⟨k', v', n'⟩ h
  simp only [fields, EmbeddingLike.apply_eq_iff_eq, Prod.mk.injEq] at h
  obtain ⟨rfl, rfl, rfl⟩ := h
  rfl

instance : LinearOrder StorageEntry := LinearOrder.lift' fields fields_injective

theorem key_le_of_le {a b : StorageEntry} (h : a ≤ b) : a.key ≤ b.key := by
  have h' : a.fields ≤ b.fields := h
  rcases (Prod.Lex.le_iff).1 h' with h' | ⟨h', -⟩
  · exact le_of_lt h'
  · exact le_of_eq h'

/-- The part of an entry a memory table stores under the key. -/
def toValue (e : StorageEntry) : Value := ⟨e.value, e.version⟩

end StorageEntry

/-- The record that a table row becomes on disk. -/
def Value.toEntry (v : Value) (key : Str) : StorageEntry := ⟨key, v.value, v.version⟩

@[simp] theorem Value.toEntry_key (v : Value) (k : Str) : (v.toEntry k).key = k := rfl

@[simp] theorem Value.toValue_toEntry (v : Value) (k : Str) : (v.toEntry k).toValue = v := rfl

@[simp] theorem StorageEntry.toEntry_toValue (e : StorageEntry) : e.toValue.toEntry e.key = e := rfl

end Iu9Db
