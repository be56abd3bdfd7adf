import Mathlib.Data.Nat.Digits.Defs
import Mathlib.Data.UInt

/-!
# Length-prefixed frames

Files that are sequences of frames : a key, the length of a body and the body, the two numbers
big-endian and of fixed widths. `parse` reads the complete frames at the front of a file;
`parse_concat` says that it finds exactly the frames that were written, whatever torn frame
follows them, and `takeFrames_append` where a prefix of a file of frames is cut.
-/

namespace FerrisFerry

namespace Frames

/-! ## Big-endian numbers -/

/-- The lowest `w` bytes of a number, the most significant first. -/
def bigEndian (w n : ℕ) : List UInt8 :=
  (List.range w).reverse.map fun i => UInt8.ofNat (n / 256 ^ i)

def ofBigEndian (bytes : List UInt8) : ℕ :=
  Nat.ofDigits 256 (bytes.reverse.map UInt8.toNat)

@[simp] theorem length_bigEndian (w n : ℕ) : (bigEndian w n).length = w := by
  simp [bigEndian]

/-- A number comes back as far as its bytes hold it. -/
theorem ofBigEndian_bigEndian (w n : ℕ) : ofBigEndian (bigEndian w n) = n % 256 ^ w := by
  rw [ofBigEndian, bigEndian, ← List.map_reverse, List.reverse_reverse, List.map_map]
  induction w with
  | zero => simp [Nat.mod_one]
  | succ w ih =>
    rw [List.range_succ, List.map_append, Nat.ofDigits_append, ih, List.length_map,
      List.length_range, Nat.mod_pow_succ]
    simp

/-! ## Reading -/

/-- Read exactly `n` bytes. -/
def readExact (n : ℕ) (bytes : List UInt8) : Option (List UInt8 × List UInt8) :=
  if n ≤ bytes.length then some (bytes.take n, bytes.drop n) else none

/-- Read a number of `w` bytes. -/
def readNat (w : ℕ) (bytes : List UInt8) : Option (ℕ × List UInt8) :=
  (readExact w bytes).map fun r => (ofBigEndian r.1, r.2)

theorem readExact_append {n : ℕ} {bytes : List UInt8} (h : bytes.length = n) (rest : List UInt8) :
    readExact n (bytes ++ rest) = some (bytes, rest) := by
  subst h
  rw [readExact, if_pos (by simp), List.take_left, List.drop_left]

theorem readExact_eq_none {n : ℕ} {bytes : List UInt8} (h : bytes.length < n) :
    readExact n bytes = none :=
  if_neg (Nat.not_le.mpr h)

theorem readNat_append (w n : ℕ) (rest : List UInt8) :
    readNat w (bigEndian w n ++ rest) = some (n % 256 ^ w, rest) := by
  rw [readNat, readExact_append (length_bigEndian w n), Option.map_some, ofBigEndian_bigEndian]

theorem readNat_eq_none {w : ℕ} {bytes : List UInt8} (h : bytes.length < w) :
    readNat w bytes = none := by
  rw [readNat, readExact_eq_none h, Option.map_none]

/-! ## Frames -/

section frames

/- The widths of the key and of the length. -/
variable (kw lw : ℕ)

/-- A frame in a file. -/
def frame (key : ℕ) (body : List UInt8) : List UInt8 :=
  bigEndian kw key ++ bigEndian lw body.length ++ body

/-- Read one complete frame. -/
def readFrame (bytes : List UInt8) : Option ((ℕ × List UInt8) × List UInt8) :=
  match readNat kw bytes with
  | none => none
  | some (key, rest) =>
    match readNat lw rest with
    | none => none
    | some (length, rest) =>
      match readExact length rest with
      | none => none
      | some (body, rest) => some ((key, body), rest)

/-- The complete frames at the front of a file, at most `fuel` of them. -/
def parse : ℕ → List UInt8 → List (ℕ × List UInt8)
  | 0, _ => []
  | fuel + 1, bytes =>
    match readFrame kw lw bytes with
    | none => []
    | some (f, rest) => f :: parse fuel rest

/-- A file of frames. -/
def concat : List (ℕ × List UInt8) → List UInt8
  | [] => []
  | f :: fs => frame kw lw f.1 f.2 ++ concat fs

end frames

variable {kw lw : ℕ} {key : ℕ} {body bytes : List UInt8} {fs : List (ℕ × List UInt8)}

@[simp] theorem length_frame : (frame kw lw key body).length = kw + lw + body.length := by
  simp [frame, Nat.add_assoc]

theorem concat_append (fs fs' : List (ℕ × List UInt8)) :
    concat kw lw (fs ++ fs') = concat kw lw fs ++ concat kw lw fs' := by
  induction fs with
  | nil => rfl
  | cons f fs ih => rw [List.cons_append, concat, concat, ih, List.append_assoc]

theorem length_le_concat (h : 0 < kw) (fs : List (ℕ × List UInt8)) :
    fs.length ≤ (concat kw lw fs).length := by
  induction fs with
  | nil => exact Nat.zero_le _
  | cons f fs ih =>
    rw [concat, List.length_append, length_frame, List.length_cons]
    omega

/-- What was written as a frame is read as one. -/
theorem readFrame_frame (h : body.length < 256 ^ lw) (rest : List UInt8) :
    readFrame kw lw (frame kw lw key body ++ rest) = some ((key % 256 ^ kw, body), rest) := by
  rw [readFrame, frame, List.append_assoc, List.append_assoc, readNat_append]
  dsimp only
  rw [readNat_append, Nat.mod_eq_of_lt h]
  dsimp only
  rw [readExact_append rfl]

/-- A torn frame is not read. -/
theorem readFrame_torn (h : body.length < 256 ^ lw) {n : ℕ}
    (hn : n < (frame kw lw key body).length) :
    readFrame kw lw ((frame kw lw key body).take n) = none := by
  rw [length_frame] at hn
  rw [readFrame, frame, List.append_assoc]
  rcases Nat.lt_or_ge n kw with hkey | hkey
  · rw [readNat_eq_none (by simp [hkey])]
  -- the key is whole
  obtain ⟨n, rfl⟩ := Nat.exists_eq_add_of_le hkey
  rw [List.take_append, length_bigEndian, Nat.add_sub_cancel_left,
    List.take_of_length_le (by simp), readNat_append]
  dsimp only
  rcases Nat.lt_or_ge n lw with hlength | hlength
  · rw [readNat_eq_none (by simp [hlength])]
  -- the length is whole, so the body is not
  obtain ⟨n, rfl⟩ := Nat.exists_eq_add_of_le hlength
  rw [List.take_append, length_bigEndian, Nat.add_sub_cancel_left,
    List.take_of_length_le (by simp), readNat_append, Nat.mod_eq_of_lt h]
  dsimp only
  rw [readExact_eq_none (by rw [List.length_take]; omega)]

theorem readFrame_nil (h : 0 < kw) : readFrame kw lw [] = none := by
  rw [readFrame, readNat_eq_none (show [].length < kw from h)]

/-! ## Files of frames -/

/-- The frames that were written are read back, up to a torn one. -/
theorem parse_concat {torn : List UInt8} (ht : readFrame kw lw torn = none) {fuel : ℕ}
    (hb : ∀ f ∈ fs, f.2.length < 256 ^ lw) (hfuel : fs.length ≤ fuel) :
    parse kw lw fuel (concat kw lw fs ++ torn) = fs.map fun f => (f.1 % 256 ^ kw, f.2) := by
  induction fs generalizing fuel with
  | nil =>
    cases fuel with
    | zero => rfl
    | succ fuel => rw [concat, List.nil_append, parse, ht, List.map_nil]
  | cons f fs ih =>
    obtain ⟨fuel, rfl⟩ := Nat.exists_eq_add_of_le' hfuel
    rw [List.length_cons, ← Nat.add_assoc, parse, concat, List.append_assoc,
      readFrame_frame (hb f List.mem_cons_self)]
    dsimp only
    rw [ih (fun g hg => hb g (List.mem_cons_of_mem f hg)) (Nat.le_add_left _ _), List.map_cons]

/-- A prefix of a file of frames is some of its frames and a torn one. -/
theorem exists_take_concat (h : 0 < kw) (hb : ∀ f ∈ fs, f.2.length < 256 ^ lw) (n : ℕ) :
    ∃ m torn, (concat kw lw fs).take n = concat kw lw (fs.take m) ++ torn ∧
      readFrame kw lw torn = none := by
  induction fs generalizing n with
  | nil => exact ⟨0, [], by simp [concat], readFrame_nil h⟩
  | cons f fs ih =>
    rw [concat]
    rcases Nat.lt_or_ge n (frame kw lw f.1 f.2).length with hlt | hge
    · refine ⟨0, (frame kw lw f.1 f.2).take n, ?_, readFrame_torn (hb f List.mem_cons_self) hlt⟩
      rw [List.take_append_of_le_length hlt.le, List.take_zero, concat, List.nil_append]
    · obtain ⟨n, rfl⟩ := Nat.exists_eq_add_of_le hge
      obtain ⟨m, torn, htake, ht⟩ := ih (fun g hg => hb g (List.mem_cons_of_mem f hg)) n
      refine ⟨m + 1, torn, ?_, ht⟩
      rw [List.take_length_add_append, htake, List.take_succ_cons, concat, List.append_assoc]

end Frames

end FerrisFerry
