import Plume.CLib.Dlist
import Plume.CLib.Run

/-! The macros of `plm_dlist.h`, one after the other, against a plain sequence of nodes. -/

namespace Plume
open CLib

/-- The macros that change a list. `func` is what the caller's function answers for a node. -/
inductive DlistOp (α : Type)
  | init
  | addFront (node : α)
  | addBack (node : α)
  | insertFront (old new : α)
  | insertBack (old new : α)
  | delFront
  | delBack
  | remove (node : α)
  | removeIf (func : α → Bool)

section Dlist

variable {α : Type} [DecidableEq α]

/-- A macro on the list and on the links of all nodes; `PLM_DLIST_REMOVE_IF` walks `fuel` nodes
at most. -/
def dlistExec (fuel : ℕ) (s : Dlist α × DLinks α) : DlistOp α → Except Fault (Dlist α × DLinks α)
  | .init => .ok (Dlist.init, s.2)
  | .addFront node => s.1.addFront node s.2
  | .addBack node => s.1.addBack node s.2
  | .insertFront old new => s.1.insertFront old new s.2
  | .insertBack old new => s.1.insertBack old new s.2
  | .delFront => s.1.delFront s.2
  | .delBack => s.1.delBack s.2
  | .remove node => s.1.remove node s.2
  | .removeIf func => s.1.removeIf func fuel s.2

def dlistStep (fuel : ℕ) (s : Dlist α × DLinks α) (op : DlistOp α) : Option (Dlist α × DLinks α) :=
  (dlistExec fuel s op).toOption

def insertBefore (old new : α) : List α → List α
  | [] => []
  | a :: as => if a = old then new :: a :: as else a :: insertBefore old new as

def insertAfter (old new : α) : List α → List α
  | [] => []
  | a :: as => if a = old then a :: new :: as else a :: insertAfter old new as

def seqStep (as : List α) : DlistOp α → List α
  | .init => []
  | .addFront node => node :: as
  | .addBack node => as ++ [node]
  | .insertFront old new => insertBefore old new as
  | .insertBack old new => insertAfter old new as
  | .delFront => as.tail
  | .delBack => as.dropLast
  | .remove node => as.erase node
  | .removeIf func => as.eraseP func

/-- Nodes that are added are not in the list, anchors and nodes that are removed are. -/
def DlistRule (as : List α) : DlistOp α → Prop
  | .addFront node | .addBack node => node ∉ as
  | .insertFront old new | .insertBack old new => old ∈ as ∧ new ∉ as
  | .remove node => node ∈ as
  | _ => True

/-- The list is `as`: both walks come to an end, and the one from the tail is the reverse of the
one from the head. -/
structure Represents (fuel : ℕ) (s : Dlist α × DLinks α) (as : List α) : Prop where
  forward : s.1.forward fuel s.2 = .ok as
  backward : s.1.backward fuel s.2 = .ok as.reverse
  nodup : as.Nodup
  len : s.1.d_len = as.length

instance (as : List α) : (op : DlistOp α) → Decidable (DlistRule as op)
  | .addFront node | .addBack node => inferInstanceAs (Decidable (node ∉ as))
  | .insertFront old new | .insertBack old new => inferInstanceAs (Decidable (old ∈ as ∧ new ∉ as))
  | .remove node => inferInstanceAs (Decidable (node ∈ as))
  | .init | .delFront | .delBack | .removeIf _ => inferInstanceAs (Decidable True)

variable {s : Dlist α × DLinks α} {as pre : List α} {old new : α} {fuel : ℕ} {op : DlistOp α}

theorem insertBefore_append (h : old ∉ pre) :
    insertBefore old new (pre ++ old :: as) = pre ++ new :: old :: as := by
  induction pre with
  | nil => exact if_pos rfl
  | cons a pre ih =>
    rw [List.mem_cons, not_or] at h
    rw [List.cons_append, insertBefore, if_neg (Ne.symm h.1), ih h.2]
    rfl

theorem insertAfter_append (h : old ∉ pre) :
    insertAfter old new (pre ++ old :: as) = pre ++ old :: new :: as := by
  induction pre with
  | nil => exact if_pos rfl
  | cons a pre ih =>
    rw [List.mem_cons, not_or] at h
    rw [List.cons_append, insertAfter, if_neg (Ne.symm h.1), ih h.2]
    rfl

/-- The step lemma: each macro does to the nodes what it is for. -/
theorem dlistExec_holds (h : s.1.Holds s.2 as) (hop : DlistRule as op) (hfuel : as.length ≤ fuel) :
    ∃ l links, dlistExec fuel s op = .ok (l, links) ∧ l.Holds links (seqStep as op) := by
  cases op with
  | init => exact ⟨_, _, rfl, Dlist.holds_init _⟩
  | addFront node => exact h.addFront hop
  | addBack node => exact h.addBack hop
  | insertFront old new =>
    obtain ⟨pre, post, rfl, hpre⟩ := List.eq_append_cons_of_mem hop.1
    rw [seqStep, insertBefore_append hpre]
    exact h.insertFront hop.2
  | insertBack old new =>
    obtain ⟨pre, post, rfl, hpre⟩ := List.eq_append_cons_of_mem hop.1
    rw [seqStep, insertAfter_append hpre]
    exact h.insertBack hop.2
  | delFront =>
    cases as with
    | nil => exact ⟨_, _, if_pos h.2, h⟩
    | cons a as => exact h.delFront
  | delBack =>
    rcases List.eq_nil_or_concat as with rfl | ⟨as, a, rfl⟩
    · exact ⟨_, _, if_pos h.2, h⟩
    · rw [List.concat_eq_append] at h ⊢
      rw [seqStep, List.dropLast_concat]
      exact h.delBack
  | remove node =>
    obtain ⟨pre, post, rfl, hpre⟩ := List.eq_append_cons_of_mem hop
    rw [seqStep, List.erase_append_right _ hpre, List.erase_cons_head]
    exact h.remove
  | removeIf func => exact h.removeIf hfuel

theorem insertBefore_length (old new : α) (as : List α) :
    (insertBefore old new as).length ≤ as.length + 1 := by
  induction as with
  | nil => exact Nat.zero_le _
  | cons a as ih =>
    rw [insertBefore]
    split_ifs
    · rfl
    · exact Nat.succ_le_succ ih

theorem insertAfter_length (old new : α) (as : List α) :
    (insertAfter old new as).length ≤ as.length + 1 := by
  induction as with
  | nil => exact Nat.zero_le _
  | cons a as ih =>
    rw [insertAfter]
    split_ifs
    · rfl
    · exact Nat.succ_le_succ ih

theorem seqStep_length (as : List α) (op : DlistOp α) : (seqStep as op).length ≤ as.length + 1 := by
  cases op with
  | init => exact Nat.zero_le _
  | addFront node => rfl
  | addBack node => exact (List.length_append ..).le
  | insertFront old new => exact insertBefore_length old new as
  | insertBack old new => exact insertAfter_length old new as
  | delFront => exact ((List.tail_sublist as).length_le).trans (Nat.le_succ _)
  | delBack => exact ((List.dropLast_sublist as).length_le).trans (Nat.le_succ _)
  | remove node => exact (List.erase_sublist ..).length_le.trans (Nat.le_succ _)
  | removeIf func => exact (List.eraseP_sublist ..).length_le.trans (Nat.le_succ _)

theorem seqSteps_length (as : List α) (ops : List (DlistOp α)) :
    (ops.foldl seqStep as).length ≤ as.length + ops.length := by
  induction ops generalizing as with
  | nil => rfl
  | cons op ops ih =>
    rw [List.foldl_cons, List.length_cons]
    have hlen := seqStep_length as op
    have hrest := ih (seqStep as op)
    omega

theorem dlistOps_holds {ops : List (DlistOp α)} (h : s.1.Holds s.2 as)
    (hfuel : as.length + ops.length ≤ fuel)
    (hops : Meets (fun as op => some (seqStep as op)) DlistRule as ops) :
    ∃ l links, run (dlistStep fuel) s ops = some (l, links) ∧
      l.Holds links (ops.foldl seqStep as) := by
  induction ops generalizing s as with
  | nil => exact ⟨s.1, s.2, rfl, h⟩
  | cons op ops ih =>
    rw [List.length_cons] at hfuel
    obtain ⟨hop, hrest⟩ := (meets_cons _).1 hops
    have hfuel0 : as.length ≤ fuel := by omega
    obtain ⟨l, links, hexec, hl⟩ := dlistExec_holds h hop hfuel0
    have hlen := seqStep_length as op
    have hfuel1 : (seqStep as op).length + ops.length ≤ fuel := by omega
    obtain ⟨l', links', hrun, hl'⟩ := ih (s := (l, links)) hl hfuel1 (hrest _ rfl)
    refine ⟨l', links', ?_, hl'⟩
    rw [run, dlistStep, hexec]
    exact hrun

/-- For every run from `PLM_DLIST_INIT` on, whatever memory holds: no macro follows a wild pointer,
and the list is the sequence the macros are for, in both directions. -/
theorem dlist_represents (s : Dlist α × DLinks α) (ops : List (DlistOp α))
    (hfuel : ops.length ≤ fuel)
    (hops : Meets (fun as op => some (seqStep as op)) DlistRule [] ops) :
    ∃ s', run (dlistStep fuel) s (.init :: ops) = some s' ∧
      Represents fuel s' (ops.foldl seqStep []) := by
  obtain ⟨l, links, hrun, hl⟩ :=
    dlistOps_holds (s := (Dlist.init, s.2)) (Dlist.holds_init s.2) (by simpa using hfuel) hops
  have hlen : (ops.foldl seqStep []).length ≤ fuel :=
    (seqSteps_length [] ops).trans (by simpa using hfuel)
  exact ⟨(l, links), hrun, hl.forward hlen, hl.backward hlen, hl.nodup, hl.2⟩

/-- The first of two nodes leaves, and the third comes in front of the one that is left. -/
theorem dlist_represents_three : ∃ s' : Dlist ℕ × DLinks ℕ,
    run (dlistStep 4) (⟨some 9, none, 7⟩, fun _ => some ⟨some 9, none⟩)
        [.init, .addBack 1, .addBack 2, .remove 1, .insertFront 2 3] = some s' ∧
      Represents 4 s' [3, 2] := by
  refine dlist_represents _ [.addBack 1, .addBack 2, .remove 1, .insertFront 2 3] (by decide) ?_
  refine (meets_cons _).2 ⟨by decide, fun _ h => ?_⟩
  cases h
  refine (meets_cons _).2 ⟨by decide, fun _ h => ?_⟩
  cases h
  refine (meets_cons _).2 ⟨by decide, fun _ h => ?_⟩
  cases h
  exact (meets_cons _).2 ⟨by decide, fun _ _ => meets_nil _ _ _⟩

end Dlist

end Plume
