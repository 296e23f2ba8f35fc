import Mathlib.Logic.Equiv.Nat
import Mathlib.Logic.Function.Basic

/-!
Self-delimiting codecs: a value is written as a word from which it can be read
back whatever follows. They are closed under products, lists, options and
retracts, so that a codec of a record is assembled from codecs of its fields.
-/

namespace FastDCS.Codecs

/-- A way to write values as words over `γ` together with its reader. -/
structure Codec (γ α : Type) where
  encode : α → List γ
  decode : List γ → Option (α × List γ)
  decode_encode : ∀ a rest, decode (encode a ++ rest) = some (a, rest)

namespace Codec

variable {γ α β : Type}

def read (c : Codec γ α) (dflt : α) (word : List γ) : α :=
  ((c.decode word).map Prod.fst).getD dflt

theorem read_encode (c : Codec γ α) (dflt a : α) : c.read dflt (c.encode a) = a := by
  have h := c.decode_encode a []
  rw [List.append_nil] at h
  simp [read, h]

def symbol : Codec γ γ where
  encode s := [s]
  decode
    | [] => none
    | s :: rest => some (s, rest)
  decode_encode _ _ := rfl

/-- Number the ticks before the first other symbol. -/
def countTicks [DecidableEq γ] (tick : γ) : List γ → Option (Nat × List γ)
  | [] => none
  | s :: rest =>
      if s = tick then (countTicks tick rest).map fun r => (r.1 + 1, r.2) else some (0, rest)

theorem countTicks_replicate [DecidableEq γ] {tick stop : γ} (h : stop ≠ tick) (n : Nat)
    (rest : List γ) :
    countTicks tick (List.replicate n tick ++ stop :: rest) = some (n, rest) := by
  induction n with
  | zero => simp [countTicks, h]
  | succ n ih => simp [List.replicate_succ, countTicks, ih]

def nat [DecidableEq γ] (tick stop : γ) (h : stop ≠ tick) : Codec γ Nat where
  encode n := List.replicate n tick ++ [stop]
  decode := countTicks tick
  decode_encode n rest := by simpa using countTicks_replicate h n rest

def retract (c : Codec γ β) (f : α → β) (g : β → α) (h : Function.LeftInverse g f) :
    Codec γ α where
  encode a := c.encode (f a)
  decode word := (c.decode word).map fun r => (g r.1, r.2)
  decode_encode a rest := by simp [c.decode_encode, h a]

def prod (c : Codec γ α) (d : Codec γ β) : Codec γ (α × β) where
  encode p := c.encode p.1 ++ d.encode p.2
  decode word := do
    let (a, rest) ← c.decode word
    let (b, rest) ← d.decode rest
    return ((a, b), rest)
  decode_encode p rest := by simp [c.decode_encode, d.decode_encode]

def readMany (c : Codec γ α) : Nat → List γ → Option (List α × List γ)
  | 0, word => some ([], word)
  | n + 1, word => do
      let (a, rest) ← c.decode word
      let (as, rest) ← readMany c n rest
      return (a :: as, rest)

theorem readMany_flatMap (c : Codec γ α) (as : List α) (rest : List γ) :
    c.readMany as.length (as.flatMap c.encode ++ rest) = some (as, rest) := by
  induction as with
  | nil => rfl
  | cons a as ih => simp [readMany, c.decode_encode, ih]

/-- A list is preceded by its length. -/
def list (length : Codec γ Nat) (c : Codec γ α) : Codec γ (List α) where
  encode as := length.encode as.length ++ as.flatMap c.encode
  decode word := do
    let (n, rest) ← length.decode word
    readMany c n rest
  decode_encode as rest := by simp [length.decode_encode, readMany_flatMap]

def option (length : Codec γ Nat) (c : Codec γ α) : Codec γ (Option α) :=
  (list length c).retract Option.toList List.head? fun o => by cases o <;> rfl

def int (number : Codec γ Nat) : Codec γ Int :=
  number.retract Equiv.intEquivNat Equiv.intEquivNat.symm Equiv.intEquivNat.symm_apply_apply

end Codec

end FastDCS.Codecs
