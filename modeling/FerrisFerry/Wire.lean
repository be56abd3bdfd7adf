import Mathlib.Data.Nat.Notation
import Mathlib.Data.UInt

/-!
# Serialization

A `Codec` turns values into bytes and back. A `Wire` is a codec that finds the end of its value
by itself, so that wires can be put one after the other; the combinators here are those of the
postcard format : integers as varints of seven bits a byte, the lowest first, byte strings
and lists with their length in front, options with a tag, records field by field.
-/

namespace FerrisFerry

/-- Serialization that comes back. -/
structure Codec (α : Type*) where
  encode : α → List UInt8
  decode : List UInt8 → Option α
  decode_encode : ∀ a, decode (encode a) = some a

/-- Serialization that comes back and leaves what follows. -/
structure Wire (α : Type*) where
  write : α → List UInt8
  read : List UInt8 → Option (α × List UInt8)
  read_write : ∀ a rest, read (write a ++ rest) = some (a, rest)

namespace Wire

variable {α β : Type*}

/-- Decoding ignores what follows the value. -/
def codec (w : Wire α) : Codec α where
  encode := w.write
  decode bytes := (w.read bytes).map Prod.fst
  decode_encode a := by
    have h := w.read_write a []
    rw [List.append_nil] at h
    rw [h, Option.map_some]

/-! ## Varints -/

/-- Seven bits a byte, the lowest first, and the top bit set on all but the last. -/
def writeVarint : ℕ → ℕ → List UInt8
  | 0, n => [UInt8.ofNat n]
  | fuel + 1, n =>
    if n < 128 then [UInt8.ofNat n]
    else UInt8.ofNat (n % 128 + 128) :: writeVarint fuel (n / 128)

def readVarint : List UInt8 → Option (ℕ × List UInt8)
  | [] => none
  | b :: bytes =>
    if b.toNat < 128 then some (b.toNat, bytes)
    else (readVarint bytes).map fun r => (b.toNat - 128 + 128 * r.1, r.2)

theorem toNat_ofNat {n : ℕ} (h : n < 256) : (UInt8.ofNat n).toNat = n := by
  rw [UInt8.toNat_ofNat']
  exact Nat.mod_eq_of_lt h

theorem readVarint_last {n : ℕ} (h : n < 128) (rest : List UInt8) :
    readVarint (UInt8.ofNat n :: rest) = some (n, rest) := by
  rw [readVarint, toNat_ofNat (by omega), if_pos h]

theorem readVarint_writeVarint (rest : List UInt8) : ∀ fuel n, n ≤ fuel →
    readVarint (writeVarint fuel n ++ rest) = some (n, rest)
  | 0, n, h => by
    rw [writeVarint]
    exact readVarint_last (by omega) rest
  | fuel + 1, n, h => by
    rw [writeVarint]
    split_ifs with hn
    · exact readVarint_last hn rest
    · rw [List.cons_append, readVarint, toNat_ofNat (by omega), if_neg (by omega),
        readVarint_writeVarint rest fuel (n / 128) (by omega), Option.map_some]
      congr 2
      omega

/-- A number; it is fuel enough for itself. -/
def varint : Wire ℕ where
  write n := writeVarint n n
  read := readVarint
  read_write n rest := readVarint_writeVarint rest n n le_rfl

/-! ## Combinators -/

/-- A byte string behind its length. -/
def bytes : Wire (List UInt8) where
  write bs := varint.write bs.length ++ bs
  read bs := do
    let (n, rest) ← varint.read bs
    if n ≤ rest.length then some (rest.take n, rest.drop n) else none
  read_write bs rest := by
    rw [List.append_assoc, varint.read_write]
    simp

/-- One value after the other. -/
def pair (a : Wire α) (b : Wire β) : Wire (α × β) where
  write x := a.write x.1 ++ b.write x.2
  read bs := (a.read bs).bind fun r => (b.read r.2).map fun q => ((r.1, q.1), q.2)
  read_write x rest := by
    rw [List.append_assoc, a.read_write, Option.bind_some, b.read_write, Option.map_some]

/-- A tag, and the value if there is one. -/
def option (a : Wire α) : Wire (Option α) where
  write
    | none => [0]
    | some x => 1 :: a.write x
  read
    | [] => none
    | b :: bs =>
      if b = 0 then some (none, bs)
      else if b = 1 then (a.read bs).map fun r => (some r.1, r.2)
      else none
  read_write x rest := by
    cases x with
    | none => rfl
    | some x => simp [a.read_write]

def bool : Wire Bool where
  write b := [if b then 1 else 0]
  read
    | [] => none
    | b :: bs => if b = 0 then some (false, bs) else if b = 1 then some (true, bs) else none
  read_write b rest := by cases b <;> rfl

/-- So many values, one after the other. -/
def readMany (a : Wire α) : ℕ → List UInt8 → Option (List α × List UInt8)
  | 0, bs => some ([], bs)
  | n + 1, bs => (a.read bs).bind fun r => (a.readMany n r.2).map fun q => (r.1 :: q.1, q.2)

theorem readMany_flatMap (a : Wire α) (xs : List α) (rest : List UInt8) :
    a.readMany xs.length (xs.flatMap a.write ++ rest) = some (xs, rest) := by
  induction xs with
  | nil => rfl
  | cons x xs ih =>
    rw [List.flatMap_cons, List.append_assoc, List.length_cons, readMany, a.read_write,
      Option.bind_some, ih, Option.map_some]

/-- A list behind its length. -/
def list (a : Wire α) : Wire (List α) where
  write xs := varint.write xs.length ++ xs.flatMap a.write
  read bs := (varint.read bs).bind fun r => a.readMany r.1 r.2
  read_write xs rest := by
    rw [List.append_assoc, varint.read_write, Option.bind_some, readMany_flatMap]

/-- A record by its fields. -/
def record (w : Wire α) (f : α → β) (g : β → α) (h : ∀ b, f (g b) = b) : Wire β where
  write b := w.write (g b)
  read bs := (w.read bs).map fun r => (f r.1, r.2)
  read_write b rest := by rw [w.read_write, Option.map_some, h]

end Wire

end FerrisFerry
