import FerrisFerry.Frames

/-!
# Frames on a stream

A `Framing` puts bodies on a byte stream and finds them again at the front of what has arrived.
`Framing.drain` is what a reader does with its buffer : it takes off frames until what is left is
a part of one. However the stream is cut into pieces, it takes off the bodies that were written,
in order and without a gap (`Framing.drain_stream`), and when all has arrived none is missing
(`Framing.eq_nil_of_torn`). `Framing.lengthDelimited` is the framing by a big-endian length.
-/

namespace FerrisFerry

/-- What a buffer begins with. -/
inductive Decoded where
  /-- Less than a frame. -/
  | torn
  | frame (body rest : List UInt8)
  /-- Bytes that no frame begins with. -/
  | error

structure Framing where
  /-- The frame of a body, unless the body is too long. -/
  encode : List UInt8 → Option (List UInt8)
  decode : List UInt8 → Decoded
  decode_nil : decode [] = .torn
  decode_encode : ∀ body frame rest, encode body = some frame →
    decode (frame ++ rest) = .frame body rest
  decode_take : ∀ body frame n, encode body = some frame → n < frame.length →
    decode (frame.take n) = .torn

namespace Framing

variable (F : Framing)

/-- The bodies whose frames the bytes begin with, and what is left of them unless it is no part
of a frame. A frame is not empty, so the length of the bytes is fuel enough. -/
def drain : ℕ → List UInt8 → List (List UInt8) × Option (List UInt8)
  | 0, bytes => ([], some bytes)
  | fuel + 1, bytes =>
    match F.decode bytes with
    | .torn => ([], some bytes)
    | .error => ([], none)
    | .frame body rest => (body :: (drain fuel rest).1, (drain fuel rest).2)

/-- The frames of some bodies. -/
def stream (bodies : List (List UInt8)) : List UInt8 :=
  bodies.flatMap fun body => (F.encode body).getD []

/-- Nothing, or a frame that was cut. -/
def Part (tail : List UInt8) : Prop :=
  tail = [] ∨ ∃ body frame n, F.encode body = some frame ∧ n < frame.length ∧ tail = frame.take n

variable {F} {body frame tail bytes : List UInt8} {bodies : List (List UInt8)}

theorem stream_append (bodies bodies' : List (List UInt8)) :
    F.stream (bodies ++ bodies') = F.stream bodies ++ F.stream bodies' :=
  List.flatMap_append

theorem stream_cons (h : F.encode body = some frame) (bodies : List (List UInt8)) :
    F.stream (body :: bodies) = frame ++ F.stream bodies := by
  rw [stream, List.flatMap_cons, h, Option.getD_some, stream]

theorem frame_pos (h : F.encode body = some frame) : 0 < frame.length := by
  refine List.length_pos_iff.mpr fun hnil => ?_
  have hdecode := F.decode_encode body frame [] h
  rw [hnil, List.append_nil, F.decode_nil] at hdecode
  cases hdecode

theorem Part.take (h : F.Part tail) (n : ℕ) : F.Part (tail.take n) := by
  rcases h with rfl | ⟨body, frame, k, he, hk, rfl⟩
  · exact Or.inl List.take_nil
  · exact Or.inr ⟨body, frame, min n k, he, (min_le_right n k).trans_lt hk, List.take_take⟩

theorem Part.decode (h : F.Part tail) : F.decode tail = .torn := by
  rcases h with rfl | ⟨body, frame, n, he, hn, rfl⟩
  · exact F.decode_nil
  · exact F.decode_take body frame n he hn

theorem drain_of_torn (h : F.decode bytes = .torn) : ∀ fuel, F.drain fuel bytes = ([], some bytes)
  | 0 => rfl
  | fuel + 1 => by rw [drain, h]

/-- What has arrived of a stream is some of its bodies and a part of the next frame. -/
theorem drain_stream {rest : List UInt8} (hfits : ∀ body ∈ bodies, (F.encode body).isSome)
    (ht : F.Part tail) (h : F.stream bodies ++ tail = bytes ++ rest) {fuel : ℕ}
    (hfuel : bytes.length ≤ fuel) :
    ∃ m left, F.drain fuel bytes = (bodies.take m, some left) ∧ m ≤ bodies.length ∧
      F.decode left = .torn ∧ F.stream (bodies.drop m) ++ tail = left ++ rest := by
  induction bodies generalizing bytes fuel with
  | nil =>
    have hpart : F.Part bytes := by
      have hcut := ht.take bytes.length
      rwa [← List.nil_append tail, show [] ++ tail = bytes ++ rest from h, List.take_left] at hcut
    exact ⟨0, bytes, drain_of_torn hpart.decode fuel, le_rfl, hpart.decode, h⟩
  | cons body bodies ih =>
    obtain ⟨hbody, hfits⟩ := List.forall_mem_cons.mp hfits
    obtain ⟨frame, he⟩ := Option.isSome_iff_exists.mp hbody
    have hcut := h
    rw [stream_cons he, List.append_assoc] at hcut
    have hframe : frame <+: bytes ++ rest := hcut ▸ List.prefix_append _ _
    have hbytes : bytes <+: bytes ++ rest := List.prefix_append _ _
    rcases Nat.lt_or_ge bytes.length frame.length with hlt | hge
    · -- the first frame has not arrived
      have htake := List.prefix_iff_eq_take.mp
        (List.prefix_of_prefix_length_le hbytes hframe hlt.le)
      have htorn : F.decode bytes = .torn := htake ▸ F.decode_take body frame _ he hlt
      exact ⟨0, bytes, drain_of_torn htorn fuel, Nat.zero_le _, htorn, h⟩
    · obtain ⟨more, rfl⟩ := List.prefix_of_prefix_length_le hframe hbytes hge
      have hpos := frame_pos he
      rw [List.length_append] at hfuel
      obtain ⟨fuel, rfl⟩ := Nat.exists_eq_add_of_le' (show 1 ≤ fuel by omega)
      rw [List.append_assoc, List.append_cancel_left_eq] at hcut
      have hmore : more.length ≤ fuel := by omega
      obtain ⟨m, left, hdrain, hm, htorn, hrest⟩ := ih hfits hcut hmore
      refine ⟨m + 1, left, ?_, Nat.succ_le_succ hm, htorn, hrest⟩
      rw [drain, F.decode_encode body frame more he]
      dsimp only
      rw [hdrain, List.take_succ_cons]

/-- Where no frame is left to take off, no body is left. -/
theorem eq_nil_of_torn (hfits : ∀ body ∈ bodies, (F.encode body).isSome)
    (h : F.decode (F.stream bodies ++ tail) = .torn) : bodies = [] := by
  cases bodies with
  | nil => rfl
  | cons body bodies =>
    obtain ⟨frame, he⟩ := Option.isSome_iff_exists.mp (hfits body List.mem_cons_self)
    rw [stream_cons he, List.append_assoc, F.decode_encode body frame _ he] at h
    cases h

/-- A length of `lw` bytes, the most significant first, and the body, of up to `maxLength` bytes. -/
def lengthDelimited (lw maxLength : ℕ) (hw : 0 < lw) (h : maxLength < 256 ^ lw) : Framing where
  encode body :=
    if body.length ≤ maxLength then some (Frames.bigEndian lw body.length ++ body) else none
  decode bytes :=
    (Frames.readNat lw bytes).elim .torn fun r =>
      if maxLength < r.1 then .error
      else (Frames.readExact r.1 r.2).elim .torn fun r => .frame r.1 r.2
  decode_nil := by
    rw [Frames.readNat_eq_none (show [].length < lw from hw), Option.elim_none]
  decode_encode body frame rest he := by
    obtain ⟨hle, ⟨⟩⟩ := Option.ite_none_right_eq_some.mp he
    rw [List.append_assoc, Frames.readNat_append, Nat.mod_eq_of_lt (hle.trans_lt h),
      Option.elim_some, if_neg (Nat.not_lt.mpr hle), Frames.readExact_append rfl, Option.elim_some]
  decode_take body frame n he hn := by
    obtain ⟨hle, ⟨⟩⟩ := Option.ite_none_right_eq_some.mp he
    rw [List.length_append, Frames.length_bigEndian] at hn
    rcases Nat.lt_or_ge n lw with hlt | hge
    · rw [Frames.readNat_eq_none (by simp [hlt]), Option.elim_none]
    -- the length is whole, so the body is not
    obtain ⟨n, rfl⟩ := Nat.exists_eq_add_of_le hge
    rw [List.take_append, Frames.length_bigEndian, Nat.add_sub_cancel_left,
      List.take_of_length_le (by simp), Frames.readNat_append, Nat.mod_eq_of_lt (hle.trans_lt h),
      Option.elim_some, if_neg (Nat.not_lt.mpr hle),
      Frames.readExact_eq_none (by rw [List.length_take]; omega), Option.elim_none]

end Framing

end FerrisFerry
