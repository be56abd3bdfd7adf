import Mathlib.Data.List.Nodup
import Mathlib.Data.Nat.Notation

/-!
# Queues that may lose their oldest element

What is pushed gets its position as a number. The oldest waiting element is delivered or lost,
and a step says of an element it loses why (`lost`). Along any steps the delivered and the
waiting elements together are a subsequence of all that was pushed, numbers included
(`LossyQueue.Ordered`), so nothing is delivered twice or out of order, and what is gone without
being delivered was lost in a step (`LossyQueue.Step.kept`).
-/

namespace FerrisFerry

structure LossyQueue (α : Type*) where
  /-- Everything pushed so far. -/
  pushed : List α
  /-- What is still in the queue with its number, the oldest first. -/
  waiting : List (α × ℕ)
  /-- What was delivered, in the order of the deliveries. -/
  delivered : List (α × ℕ)

namespace LossyQueue

variable {α : Type*}

/-- One step, where an element may be lost for the reason `lost`. -/
inductive Step (lost : α × ℕ → Prop) (q q' : LossyQueue α) : Prop
  | idle (h : q' = q)
  | push (a : α) (hp : q'.pushed = q.pushed ++ [a])
    (hw : q'.waiting = q.waiting ++ [(a, q.pushed.length)]) (hd : q'.delivered = q.delivered)
  | deliver (x : α × ℕ) (hp : q'.pushed = q.pushed) (hw : q.waiting = x :: q'.waiting)
    (hd : q'.delivered = q.delivered ++ [x])
  | lose (x : α × ℕ) (h : lost x) (hp : q'.pushed = q.pushed) (hw : q.waiting = x :: q'.waiting)
    (hd : q'.delivered = q.delivered)

/-- What was delivered and what waits is a subsequence of what was pushed. -/
def Ordered (q : LossyQueue α) : Prop :=
  (q.delivered ++ q.waiting).Sublist q.pushed.zipIdx

variable {lost lost' : α × ℕ → Prop} {q q' : LossyQueue α}

theorem Step.mono (hl : ∀ x, lost x → lost' x) (h : Step lost q q') : Step lost' q q' := by
  cases h with
  | idle h => exact .idle h
  | push a hp hw hd => exact .push a hp hw hd
  | deliver x hp hw hd => exact .deliver x hp hw hd
  | lose x h hp hw hd => exact .lose x (hl x h) hp hw hd

theorem Step.ordered (h : Step lost q q') (ho : q.Ordered) : q'.Ordered := by
  unfold Ordered at ho ⊢
  cases h with
  | idle h => rwa [h]
  | push a hp hw hd =>
    rw [hp, hw, hd, ← List.append_assoc, List.zipIdx_append, List.zipIdx_singleton, Nat.zero_add]
    exact ho.append (List.Sublist.refl _)
  | deliver x hp hw hd =>
    rw [hw] at ho
    rwa [hp, hd, List.append_assoc]
  | lose x _ hp hw hd =>
    rw [hw] at ho
    rw [hp, hd]
    exact ((List.sublist_cons_self x _).append_left _).trans ho

/-- An element that was pushed and is neither delivered nor waiting was lost. -/
theorem Step.kept (h : Step lost q q') {x : α × ℕ} (hx : x ∈ q'.pushed.zipIdx) :
    x ∈ q'.delivered ∨ x ∈ q'.waiting ∨ lost x ∨
      x ∈ q.pushed.zipIdx ∧ x ∉ q.delivered ∧ x ∉ q.waiting := by
  cases h with
  | idle h =>
    rw [h] at hx ⊢
    tauto
  | push a hp hw hd =>
    rw [hp, List.zipIdx_append, List.zipIdx_singleton, Nat.zero_add, List.mem_append,
      List.mem_singleton] at hx
    rw [hw, hd, List.mem_append, List.mem_singleton]
    tauto
  | deliver y hp hw hd =>
    rw [hp] at hx
    rw [hw, hd, List.mem_append, List.mem_singleton, List.mem_cons]
    tauto
  | lose y hy hp hw hd =>
    rw [hp] at hx
    rw [hw, hd, List.mem_cons]
    by_cases hxy : x = y
    · exact .inr (.inr (.inl (hxy ▸ hy)))
    · tauto

theorem ordered_nil : Ordered (⟨[], [], []⟩ : LossyQueue α) :=
  List.nil_sublist _

/-- The numbers increase from the first element delivered to the last one waiting. -/
theorem Ordered.increasing (h : q.Ordered) :
    (q.delivered ++ q.waiting).Pairwise fun x y => x.2 < y.2 := by
  refine List.Pairwise.sublist h ?_
  rw [← List.pairwise_map, List.zipIdx_map_snd]
  exact List.pairwise_lt_range' 1

theorem Ordered.delivered_sublist (h : q.Ordered) :
    (q.delivered.map Prod.fst).Sublist q.pushed := by
  have hd : q.delivered.Sublist q.pushed.zipIdx :=
    (List.sublist_append_left q.delivered q.waiting).trans h
  simpa using hd.map Prod.fst

end LossyQueue

end FerrisFerry
