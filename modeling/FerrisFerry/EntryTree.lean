import Mathlib.Data.Finset.Card
import Mathlib.Data.Prod.Lex
import Mathlib.Logic.Relation

/-!
# The tree of log entries

Replicated logs whose entries carry terms, seen as one tree. A `Point` is an index with
the term of the entry there, ordered by term and then index : the order in which voters
compare logs. An `EntryTree` says which entry sits on which. A point has one predecessor
and one payload (`inj`), terms do not decrease upwards (`term_le`), and the points of one
term form a chain (`chain`) : one leader appended them.

A log is a path of the tree, so two logs agree below any point they share
(`EntryTree.anc_total`). `EntryTree.anc_of_acked` is the quorum argument : if half of the
nodes took a point `p`, and none of them voted afterwards for a candidate below `p`, then
every point at or above `p` in the order of voters has `p` on its path, as long as every
term was opened by a majority of votes.
-/

namespace FerrisFerry

/-- An index and the term of the entry there. -/
@[ext] structure Point where
  index : ℕ
  term : ℕ
deriving DecidableEq, Repr

namespace Point

/-- The point below the first entry. -/
def root : Point := ⟨0, 0⟩

@[simp] theorem root_index : root.index = 0 := rfl

@[simp] theorem root_term : root.term = 0 := rfl

/-- Terms first, then indices. -/
instance : LinearOrder Point :=
  LinearOrder.lift' (fun p => toLex (p.term, p.index)) fun p q h => by
    have h' := Prod.mk.inj (toLex.injective h)
    exact Point.ext h'.2 h'.1

theorem le_def {p q : Point} : p ≤ q ↔ p.term < q.term ∨ p.term = q.term ∧ p.index ≤ q.index :=
  Prod.Lex.toLex_le_toLex

theorem root_le (p : Point) : root ≤ p := by
  rw [le_def, root_term, root_index]
  omega

end Point

/-- Entries with payloads in `α`, each on top of the entry before it. -/
structure EntryTree (α : Type*) where
  /-- The entry `a` at the second point sits on the first point. -/
  link : Point → Point → α → Prop
  index_succ : ∀ {p q a}, link p q a → q.index = p.index + 1
  term_le : ∀ {p q a}, link p q a → p.term ≤ q.term
  term_pos : ∀ {p q a}, link p q a → 0 < q.term
  inj : ∀ {p p' q a a'}, link p q a → link p' q a' → p = p' ∧ a = a'
  down : ∀ {p q a}, link p q a → p = Point.root ∨ ∃ p' a', link p' p a'
  chain : ∀ {p q a p' q' a'}, link p q a → link p' q' a' → q.term = q'.term →
    q.index < q'.index → p'.term = q'.term

namespace EntryTree

variable {α : Type*} (T : EntryTree α)

/-- The points of the tree. -/
def Mem (q : Point) : Prop :=
  q = Point.root ∨ ∃ p a, T.link p q a

/-- `T.Anc p q` : the path to `q` goes through `p`. -/
def Anc : Point → Point → Prop :=
  Relation.ReflTransGen fun p q => ∃ a, T.link p q a

variable {T}

@[refl] theorem anc_refl (p : Point) : T.Anc p p :=
  Relation.ReflTransGen.refl

theorem Anc.trans {p q r : Point} (h : T.Anc p q) (h' : T.Anc q r) : T.Anc p r :=
  Relation.ReflTransGen.trans h h'

theorem Anc.link {p q r : Point} {a : α} (h : T.Anc p q) (h' : T.link q r a) : T.Anc p r :=
  Relation.ReflTransGen.tail h ⟨a, h'⟩

theorem anc_of_link {p q : Point} {a : α} (h : T.link p q a) : T.Anc p q :=
  (anc_refl p).link h

theorem mem_of_link {p q : Point} {a : α} (h : T.link p q a) : T.Mem q :=
  Or.inr ⟨p, a, h⟩

theorem Anc.index_le {p q : Point} (h : T.Anc p q) : p.index ≤ q.index := by
  induction h with
  | refl => exact le_rfl
  | tail _ hl ih =>
    obtain ⟨a, hl⟩ := hl
    have := T.index_succ hl
    omega

theorem Anc.term_le {p q : Point} (h : T.Anc p q) : p.term ≤ q.term := by
  induction h with
  | refl => exact le_rfl
  | tail _ hl ih =>
    obtain ⟨a, hl⟩ := hl
    exact ih.trans (T.term_le hl)

/-- A point is at most every point above it in the tree. -/
theorem Anc.le {p q : Point} (h : T.Anc p q) : p ≤ q := by
  have h1 := h.index_le
  have h2 := h.term_le
  rw [Point.le_def]
  omega

theorem Anc.eq_of_index_eq {p q : Point} (h : T.Anc p q) (hi : p.index = q.index) : p = q := by
  cases h with
  | refl => rfl
  | tail h' hl =>
    obtain ⟨a, hl⟩ := hl
    have h1 := Anc.index_le h'
    have h2 := T.index_succ hl
    omega

theorem Anc.mem {p q : Point} (h : T.Anc p q) (hq : T.Mem q) : T.Mem p := by
  induction h with
  | refl => exact hq
  | tail _ hl ih =>
    obtain ⟨a, hl⟩ := hl
    exact ih (T.down hl)

/-- Two points on one path are comparable. -/
theorem anc_total {p q r : Point} (hp : T.Anc p r) (hq : T.Anc q r) (h : p.index ≤ q.index) :
    T.Anc p q := by
  induction hq with
  | refl => exact hp
  | @tail q' r' hq' hl ih =>
    obtain ⟨a, hl⟩ := hl
    cases hp with
    | refl =>
      have h1 := Anc.index_le hq'
      have h2 := T.index_succ hl
      omega
    | tail hp' hl' =>
      obtain ⟨a', hl'⟩ := hl'
      obtain ⟨rfl, -⟩ := T.inj hl hl'
      exact ih hp'

/-- Two points of one path with one index are one point. -/
theorem anc_unique {p q r : Point} (hp : T.Anc p r) (hq : T.Anc q r) (h : p.index = q.index) :
    p = q :=
  (anc_total hp hq h.le).eq_of_index_eq h

/-- A path meets every index below its end. -/
theorem exists_anc {q : Point} (hq : T.Mem q) {i : ℕ} (hi : i ≤ q.index) :
    ∃ p, T.Anc p q ∧ p.index = i := by
  obtain ⟨n, hn⟩ : ∃ n, q.index = i + n := ⟨q.index - i, by omega⟩
  induction n generalizing q with
  | zero => exact ⟨q, anc_refl q, hn⟩
  | succ n ih =>
    rcases hq with rfl | ⟨p, a, hl⟩
    · simp at hn
    · have hs := T.index_succ hl
      obtain ⟨p', hp', hi'⟩ := ih (T.down hl) (by omega) (by omega)
      exact ⟨p', hp'.link hl, hi'⟩

theorem root_anc {q : Point} (hq : T.Mem q) : T.Anc Point.root q := by
  obtain ⟨p, hp, hi⟩ := exists_anc hq (Nat.zero_le _)
  rcases hp.mem hq with rfl | ⟨p', a, hl⟩
  · exact hp
  · have := T.index_succ hl
    omega

/-- The points of one term lie on one path. -/
theorem anc_of_term_eq {p q : Point} (hp : T.Mem p) (hq : T.Mem q) (ht : p.term = q.term)
    (hi : p.index ≤ q.index) : T.Anc p q := by
  obtain ⟨n, hn⟩ : ∃ n, q.index = p.index + n := ⟨q.index - p.index, by omega⟩
  induction n generalizing q with
  | zero =>
    have : p = q := Point.ext (by omega) ht
    exact this ▸ anc_refl p
  | succ n ih =>
    rcases hq with rfl | ⟨q', a, hl⟩
    · simp at hn
    · have hs := T.index_succ hl
      rcases hp with rfl | ⟨p', a', hl'⟩
      · exact root_anc (mem_of_link hl)
      · have hc := T.chain hl' hl ht (by omega)
        exact (ih (T.down hl) (by omega) (by omega) (by omega)).link hl

/-! ## Growth -/

/-- The tree without entries. -/
def empty (α : Type*) : EntryTree α where
  link _ _ _ := False
  index_succ h := h.elim
  term_le h := h.elim
  term_pos h := h.elim
  inj h := h.elim
  down h := h.elim
  chain h := h.elim

/-- A new entry on top of `p`, above every entry of its term. -/
def push (T : EntryTree α) (p : Point) (t : ℕ) (a : α) (hp : T.Mem p) (hle : p.term ≤ t)
    (hpos : 0 < t)
    (hfresh : ∀ p' q a', T.link p' q a' → q.term = t → q.index ≤ p.index ∧ p.term = t) :
    EntryTree α where
  link x y b := T.link x y b ∨ x = p ∧ y = ⟨p.index + 1, t⟩ ∧ b = a
  index_succ := by
    rintro x y b (h | ⟨rfl, rfl, rfl⟩)
    · exact T.index_succ h
    · rfl
  term_le := by
    rintro x y b (h | ⟨rfl, rfl, rfl⟩)
    · exact T.term_le h
    · exact hle
  term_pos := by
    rintro x y b (h | ⟨rfl, rfl, rfl⟩)
    · exact T.term_pos h
    · exact hpos
  inj := by
    -- an old entry at the new point would be above every entry of its term
    have hnew : ∀ x b, ¬T.link x ⟨p.index + 1, t⟩ b := fun x b h =>
      absurd (hfresh _ _ _ h rfl).1 (Nat.not_succ_le_self _)
    rintro x x' y b b' (h | ⟨rfl, rfl, rfl⟩) (h' | ⟨rfl, hy, rfl⟩)
    · exact T.inj h h'
    · exact (hnew _ _ (hy ▸ h)).elim
    · exact (hnew _ _ h').elim
    · exact ⟨rfl, rfl⟩
  down := by
    rintro x y b (h | ⟨rfl, rfl, rfl⟩)
    · exact (T.down h).imp_right fun ⟨x', b', h'⟩ => ⟨x', b', Or.inl h'⟩
    · exact hp.imp_right fun ⟨x', b', h'⟩ => ⟨x', b', Or.inl h'⟩
  chain := by
    rintro x y b x' y' b' (h | ⟨rfl, rfl, rfl⟩) (h' | ⟨rfl, rfl, rfl⟩) ht hi
    · exact T.chain h h' ht hi
    · exact (hfresh _ _ _ h ht).2
    · exact absurd (hfresh _ _ _ h' ht.symm).1 (by dsimp only at hi; omega)
    · exact absurd hi (lt_irrefl _)

/-! ## Quorums -/

variable {N : Type*} [DecidableEq N]

/-- Every point above the root was opened by a majority of votes for a candidate that
stood on a point of an earlier term, and lies above that point. -/
def Opened (T : EntryTree α) (nodes : Finset N) (vote : N → ℕ → Point → Prop) : Prop :=
  ∀ q, T.Mem q → 0 < q.term → ∃ b, T.Mem b ∧ T.Anc b q ∧ b.term < q.term ∧
    ∃ V ⊆ nodes, nodes.card < 2 * V.card ∧ ∀ v ∈ V, vote v q.term b

/-- Half of the nodes hold `p` against every later vote. -/
def Acked (nodes : Finset N) (vote : N → ℕ → Point → Prop) (p : Point) : Prop :=
  ∃ Q ⊆ nodes, nodes.card ≤ 2 * Q.card ∧ ∀ v ∈ Q, ∀ t b, p.term < t → vote v t b → p ≤ b

/-- The quorum argument : an acknowledged point is on the path to every point that voters
rank at or above it. Induction on the term; a higher term was opened by a majority, one of
whose voters acknowledged `p`. -/
theorem anc_of_acked {nodes : Finset N} {vote : N → ℕ → Point → Prop}
    (hT : T.Opened nodes vote) {p : Point} (hp : T.Mem p) (hack : Acked nodes vote p) :
    ∀ {q : Point}, T.Mem q → p ≤ q → T.Anc p q := by
  suffices h : ∀ n, ∀ q : Point, q.term = n → T.Mem q → p ≤ q → T.Anc p q from
    fun {q} hq hpq => h q.term q rfl hq hpq
  intro n
  induction n using Nat.strong_induction_on with
  | _ n ih =>
    rintro q rfl hq hpq
    rcases Point.le_def.mp hpq with hlt | ⟨heq, hi⟩
    · obtain ⟨b, hb, hbq, hbt, V, hV, hVc, hvote⟩ := hT q hq (by omega)
      obtain ⟨Q, hQ, hQc, hacks⟩ := hack
      obtain ⟨v, hv⟩ := Finset.inter_nonempty_of_card_lt_card_add_card hV hQ (by omega)
      obtain ⟨hvV, hvQ⟩ := Finset.mem_inter.mp hv
      have hpb : p ≤ b := hacks v hvQ _ _ hlt (hvote v hvV)
      exact (ih b.term hbt b rfl hb hpb).trans hbq
    · exact anc_of_term_eq hp hq heq hi

end EntryTree

end FerrisFerry
