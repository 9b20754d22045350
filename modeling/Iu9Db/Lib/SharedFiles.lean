import Iu9Db.Lib.Computation
import Iu9Db.Lib.Delimited

/-!
# Programs that read records through shared file positions

A `Program` asks for the record at an offset of a file, and goes on with the answer. A `Process` gets
the answer by setting the position of the file and then reading block by block until a parser has the
whole record. Every such call is a step of its own, and the position of a file is one for all
processes.

`Follows`: what a program returns when all its questions get the record at their offset.
`Process.On.next`: a process stays on that way as long as its reads find the position where its own
last call has left it.
-/

/-- Programs that ask a `ι`, go on with the answer, and return or stop. -/
inductive Program (ε ι ρ α : Type)
  | ret (a : α)
  | stop (e : ε)
  | ask (q : ι) (k : ρ → Program ε ι ρ α)

namespace Program

variable {ε ι ρ α β : Type}

def bind : Program ε ι ρ α → (α → Program ε ι ρ β) → Program ε ι ρ β
  | ret a, f => f a
  | stop e, _ => stop e
  | ask q k, f => ask q fun r => (k r).bind f

instance instMonad : Monad (Program ε ι ρ) where
  pure := ret
  bind := bind

/-- What a program that has come to its end returns or stops with. -/
def outcome : Program ε ι ρ α → Option (Except ε α)
  | ret a => some (.ok a)
  | stop e => some (.error e)
  | ask _ _ => none

/-- With right answers the program returns `a`. -/
inductive Follows (Right : ι → ρ → Prop) : Program ε ι ρ α → α → Prop
  | ret (a : α) : Follows Right (ret a) a
  | ask {q : ι} {r : ρ} {k : ρ → Program ε ι ρ α} {a : α} (h : Right q r) (hk : Follows Right (k r) a) :
      Follows Right (ask q k) a

variable {Right : ι → ρ → Prop}

theorem Follows.bind {x : Program ε ι ρ α} {f : α → Program ε ι ρ β} {a : α} {b : β} (h : x.Follows Right a)
    (hf : (f a).Follows Right b) : (x.bind f).Follows Right b := by
  induction h with
  | ret a => exact hf
  | ask hq _ ih => exact .ask hq (ih hf)

theorem Follows.outcome {x : Program ε ι ρ α} {a : α} {r : Except ε α} (h : x.Follows Right a)
    (hr : x.outcome = some r) : r = .ok a := by
  cases h with
  | ret a => cases hr; rfl
  | ask hq _ => cases hr

/-- A program without effects and one that asks. -/
def likeness (Right : ι → ρ → Prop) : Likeness Id (Program ε ι ρ) where
  rel p x y := y.Follows Right x ∧ p x
  mono h hpq := ⟨h.1, hpq _ h.2⟩
  pure h := ⟨.ret _, h⟩
  bind := by
    intro α β p q x y f g hx hf
    obtain ⟨hg, hq⟩ := hf x hx.2
    exact ⟨hx.1.bind hg, hq⟩

end Program

namespace SharedFiles

open Delimited

variable {α β γ ε : Type} {c : Codec α β}

/-- What a parser makes of the bytes that a stream has delivered so far: it wants more, or refuses, or
has a value. -/
structure Parser (c : Codec α β) where
  parse : List β → Option (Option α)
  whole : ∀ a, c.Fits a → ∀ rest, parse (c.encode a ++ rest) = some (some a)
  torn : ∀ a, c.Fits a → ∀ p, p <+: c.encode a → p ≠ c.encode a → parse p = none

/-- The parser that refuses nothing before the end of the file. -/
def patient (c : Codec α β) : Parser c where
  parse bs := (c.read bs).map fun r => some r.1
  whole a ha rest := by rw [c.read_encode a ha, Option.map_some]
  torn a ha p hp hne := by rw [c.read_torn a ha p hp hne, Option.map_none]

structure Query where
  file : Nat
  offset : Nat
deriving DecidableEq, Repr

/-- A program, and the bytes that its question has got since the position was set. -/
structure Process (ε α β γ : Type) where
  program : Program ε Query (Option α) γ
  reading : Option (List β)

/-- `lseek` to the offset of the question, or a `read` of at most `n` bytes. -/
inductive Call
  | lseek
  | read (n : Nat)
deriving DecidableEq, Repr

/-- The files, the records that are looked for in them, and the parser. -/
structure Volume (c : Codec α β) where
  files : Nat → List β
  parser : Parser c
  At : Query → α → Prop
  fits : ∀ q a, At q a → c.Fits a
  encode_prefix : ∀ q a, At q a → c.encode a <+: (files q.file).drop q.offset

/-- One call of a process: what becomes of it and of the positions, and the question that is answered
by the call. At the end of the file there is no record. -/
def Process.call (volume : Volume c) : Call → Process ε α β γ → (Nat → Nat) →
    Option (Process ε α β γ × (Nat → Nat) × Option (Query × Option α))
  | .lseek, ⟨.ask q k, none⟩, position =>
    some (⟨.ask q k, some []⟩, Function.update position q.file q.offset, none)
  | .read (n + 1), ⟨.ask q k, some got⟩, position =>
    let bytes := ((volume.files q.file).drop (position q.file)).take (n + 1)
    let position := Function.update position q.file (position q.file + bytes.length)
    match if bytes = [] then some none else volume.parser.parse (got ++ bytes) with
    | none => some (⟨.ask q k, some (got ++ bytes)⟩, position, none)
    | some r => some (⟨k r, none⟩, position, some (q, r))
  | _, _, _ => none

/-- The answer is the record at the offset. -/
def Right (volume : Volume c) (q : Query) (r : Option α) : Prop := ∃ a, r = some a ∧ volume.At q a

/-- A read finds the position where the process has left it. -/
def Process.Undisturbed (p : Process ε α β γ) (position : Nat → Nat) : Prop :=
  match p with
  | ⟨.ask q _, some got⟩ => position q.file = q.offset + got.length
  | _ => True

/-- The process is on its way to `result`; a question under way has got a part of its record. -/
inductive Process.On (volume : Volume c) (result : γ) : Process ε α β γ → Prop
  | idle {program : Program ε Query (Option α) γ} (h : program.Follows (Right volume) result) :
      On volume result ⟨program, none⟩
  | reading {q : Query} {k : Option α → Program ε Query (Option α) γ} {a : α} {got : List β}
      (ha : volume.At q a) (hk : (k (some a)).Follows (Right volume) result)
      (hgot : got <+: c.encode a) (hne : got ≠ c.encode a) : On volume result ⟨.ask q k, some got⟩

section
variable {volume : Volume c} {p p' : Process ε α β γ} {result : γ} {call : Call}
  {position position' : Nat → Nat} {answer : Option (Query × Option α)}

theorem Process.On.outcome {r : Except ε γ} (h : p.On volume result) (hr : p.program.outcome = some r) :
    r = .ok result := by
  cases h with
  | idle h => exact h.outcome hr
  | reading => cases hr

/-- What a block adds to a part of a record that it is read behind. -/
theorem parse_block {q : Query} {a : α} {got : List β} (n : Nat) (ha : volume.At q a)
    (hgot : got <+: c.encode a) (hne : got ≠ c.encode a) :
    ∃ bytes, ((volume.files q.file).drop (q.offset + got.length)).take (n + 1) = bytes ∧ bytes ≠ [] ∧
      (volume.parser.parse (got ++ bytes) = some (some a) ∨
        volume.parser.parse (got ++ bytes) = none ∧ got ++ bytes <+: c.encode a ∧
          got ++ bytes ≠ c.encode a) := by
  obtain ⟨rest, hrest⟩ := volume.encode_prefix q a ha
  obtain ⟨more, hmore⟩ := hgot
  have hdrop : (volume.files q.file).drop (q.offset + got.length) = more ++ rest := by
    rw [← List.drop_drop, ← hrest, ← hmore, List.append_assoc, List.drop_left]
  have hmore0 : more ≠ [] := fun h => hne (by rw [← hmore, h, List.append_nil])
  rw [hdrop]
  refine ⟨_, rfl, by simp [hmore0], ?_⟩
  set bytes := (more ++ rest).take (n + 1)
  by_cases hwhole : c.encode a <+: got ++ bytes
  · obtain ⟨rest', hrest'⟩ := hwhole
    exact .inl (by rw [← hrest', volume.parser.whole a (volume.fits q a ha)])
  · have hbytes : got ++ bytes <+: c.encode a ++ rest := by
      rw [← hmore, List.append_assoc]
      exact (List.prefix_append_right_inj got).2 (List.take_prefix _ _)
    have htorn := (List.prefix_or_prefix_of_prefix hbytes (List.prefix_append _ _)).resolve_right hwhole
    have hne' : got ++ bytes ≠ c.encode a := fun h => hwhole (h ▸ List.prefix_rfl)
    exact .inr ⟨volume.parser.torn a (volume.fits q a ha) _ htorn hne', htorn, hne'⟩

/-- **A call keeps a process on its way**, and what it answers is right, if a read finds its position. -/
theorem Process.On.next (h : p.On volume result) (hpos : ∀ n, call = .read n → p.Undisturbed position)
    (hc : p.call volume call position = some (p', position', answer)) :
    p'.On volume result ∧ ∀ qr ∈ answer, Right volume qr.1 qr.2 := by
  cases h with
  | @idle program h =>
    cases call with
    | lseek =>
      cases h with
      | ret a => cases hc
      | ask hq hk =>
        obtain ⟨a, rfl, ha⟩ := hq
        cases hc
        have hlen := c.length_encode_pos (volume.fits _ a ha)
        have hne : [] ≠ c.encode a := fun hnil => by rw [← hnil] at hlen; exact absurd hlen (Nat.lt_irrefl 0)
        exact ⟨.reading ha hk List.nil_prefix hne, fun qr hqr => by cases hqr⟩
    | read n => cases n <;> cases h <;> cases hc
  | @reading q k a got ha hk hgot hne =>
    cases call with
    | lseek => cases hc
    | read n =>
      cases n with
      | zero => cases hc
      | succ n =>
        have hat : position q.file = q.offset + got.length := hpos (n + 1) rfl
        obtain ⟨bytes, hbytes, hsome, hparse⟩ := parse_block n ha hgot hne
        simp only [Process.call, hat, hbytes, if_neg hsome] at hc
        rcases hparse with hparse | ⟨hparse, htorn, hne'⟩ <;> rw [hparse] at hc <;> cases hc
        · refine ⟨.idle hk, fun qr hqr => ?_⟩
          cases hqr
          exact ⟨a, rfl, ha⟩
        · exact ⟨.reading ha hk htorn hne', fun qr hqr => by cases hqr⟩

end

end SharedFiles
