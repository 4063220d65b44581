import Mathlib.Data.List.Sort
import Mathlib.Tactic

/-! Queues ordered by a key, in which what is put in goes behind all with the same key. -/

namespace CLib

variable {α K N : Type} [LinearOrder K] [LinearOrder N]

section Enqueue

variable (key : α → K) (num : α → N)

/-- In front of the first with a bigger key. -/
def enqueue (a : α) (l : List α) : List α := l.orderedInsert (fun a b => key a < key b) a

/-- In the order of the keys, and those with the same key in the order of their numbers. -/
def Ordered (l : List α) : Prop :=
  l.Pairwise fun a b => key a < key b ∨ key a = key b ∧ num a < num b

variable {key num} {a b : α} {c : K} {l d : List α}

@[simp] theorem enqueue_nil : enqueue key a [] = [a] := rfl

theorem enqueue_cons :
    enqueue key a (b :: l) = if key a < key b then a :: b :: l else b :: enqueue key a l := rfl

theorem mem_enqueue : b ∈ enqueue key a l ↔ b = a ∨ b ∈ l := List.mem_orderedInsert _

theorem enqueue_append (hd : ∀ b ∈ d, key b ≤ key a) :
    enqueue key a (d ++ l) = d ++ enqueue key a l := by
  induction d with
  | nil => rfl
  | cons b d ih =>
    obtain ⟨hb, hd⟩ := List.forall_mem_cons.1 hd
    rw [List.cons_append, enqueue_cons, if_neg (not_lt.2 hb), ih hd, List.cons_append]

theorem enqueue_back (hl : ∀ b ∈ l, key b ≤ key a) : enqueue key a l = l ++ [a] := by
  have h := enqueue_append (l := []) hl
  rwa [List.append_nil, enqueue_nil] at h

theorem Ordered.le (h : Ordered key num (a :: l)) : ∀ b ∈ a :: l, key a ≤ key b := by
  obtain ⟨ha, -⟩ := List.pairwise_cons.1 h
  refine List.forall_mem_cons.2 ⟨le_rfl, fun b hb => ?_⟩
  rcases ha b hb with hlt | ⟨heq, -⟩
  · exact hlt.le
  · exact heq.le

/-- What comes last may not have a smaller number. -/
theorem ordered_enqueue (h : Ordered key num l) (hnum : ∀ b ∈ l, num b < num a) :
    Ordered key num (enqueue key a l) := by
  induction l with
  | nil => exact List.pairwise_singleton _ a
  | cons b l ih =>
    obtain ⟨hb, hl⟩ := List.pairwise_cons.1 h
    obtain ⟨hnb, hnl⟩ := List.forall_mem_cons.1 hnum
    rw [enqueue_cons]
    split_ifs with hlt
    · exact List.pairwise_cons.2 ⟨fun x hx => Or.inl (hlt.trans_le (h.le x hx)), h⟩
    · refine List.pairwise_cons.2 ⟨fun x hx => ?_, ih hl hnl⟩
      rcases mem_enqueue.1 hx with rfl | hx
      · rcases (not_lt.1 hlt).lt_or_eq with hlt | heq
        · exact Or.inl hlt
        · exact Or.inr ⟨heq, hnb⟩
      · exact hb x hx

section All

def enqueueAll (key : α → K) (as l : List α) : List α := as.foldl (fun l a => enqueue key a l) l

theorem enqueueAll_append (as bs l : List α) :
    enqueueAll key (as ++ bs) l = enqueueAll key bs (enqueueAll key as l) := List.foldl_append ..

theorem mem_enqueueAll {as : List α} : b ∈ enqueueAll key as l ↔ b ∈ as ∨ b ∈ l := by
  induction as generalizing l with
  | nil => simp [enqueueAll]
  | cons a as ih =>
    refine ih.trans ?_
    rw [mem_enqueue, List.mem_cons, or_assoc, or_left_comm]

end All

/-- What is due at `c` stands in front of what is not. -/
theorem Ordered.filter_append (h : Ordered key num l) (c : K) :
    l = l.filter (fun a => key a ≤ c) ++ l.filter fun a => c < key a := by
  induction l with
  | nil => rfl
  | cons a l ih =>
    obtain ⟨-, hl⟩ := List.pairwise_cons.1 h
    by_cases ha : key a ≤ c
    · simp only [List.filter_cons, ha, not_lt.2 ha, decide_true, decide_false, if_true,
        Bool.false_eq_true, if_false, List.cons_append]
      rw [← ih hl]
    · have hlater : ∀ b ∈ a :: l, c < key b := fun b hb => (not_le.1 ha).trans_le (h.le b hb)
      rw [List.filter_eq_nil_iff.2 fun b hb => by simpa using hlater b hb,
        List.filter_eq_self.2 fun b hb => by
        simpa using hlater b hb]
      rfl

end Enqueue

end CLib
