import Mathlib.Tactic

/-! Ordered forests: a node has the forest below it, and its siblings behind it. -/

namespace CLib

inductive Forest (α : Type)
  | nil
  | cons (a : α) (subs rest : Forest α)
deriving DecidableEq, Repr

namespace Forest

variable {α β : Type} {f g h : Forest α}

def roots : Forest α → List α
  | nil => []
  | cons a _ rest => a :: rest.roots

def preorder : Forest α → List α
  | nil => []
  | cons a subs rest => a :: (subs.preorder ++ rest.preorder)

/-- Each node that has others directly below it, with each of these. -/
def edges : Forest α → List (α × α)
  | nil => []
  | cons a subs rest => subs.roots.map (a, ·) ++ subs.edges ++ rest.edges

def map (t : α → β) : Forest α → Forest β
  | nil => nil
  | cons a subs rest => cons (t a) (subs.map t) (rest.map t)

def Flat : Forest α → Prop
  | nil => True
  | cons _ subs rest => subs = nil ∧ rest.Flat

def flat : List α → Forest α
  | [] => nil
  | a :: as => cons a nil (flat as)

/-- The same forest but for the order of siblings. -/
inductive Same : Forest α → Forest α → Prop
  | nil : Same nil nil
  | cons (a : α) {subs subs' rest rest' : Forest α} :
    Same subs subs' → Same rest rest' → Same (cons a subs rest) (cons a subs' rest')
  | swap (a b : α) (subs subs' rest : Forest α) :
    Same (Forest.cons a subs (Forest.cons b subs' rest))
      (Forest.cons b subs' (Forest.cons a subs rest))
  | trans {f g h : Forest α} : Same f g → Same g h → Same f h

theorem roots_sublist (f : Forest α) : f.roots.Sublist f.preorder := by
  induction f with
  | nil => exact List.Sublist.refl _
  | cons a subs rest _ ih => exact (ih.trans (List.sublist_append_right ..)).cons_cons a

theorem roots_flat (as : List α) : (flat as).roots = as := by
  induction as with
  | nil => rfl
  | cons a as ih => rw [flat, roots, ih]

theorem preorder_flat (as : List α) : (flat as).preorder = as := by
  induction as with
  | nil => rfl
  | cons a as ih => rw [flat, preorder, ih, preorder, List.nil_append]

theorem map_flat (t : α → β) (as : List α) : (flat as).map t = flat (as.map t) := by
  induction as with
  | nil => rfl
  | cons a as ih => rw [flat, map, ih, map, List.map_cons, flat]

theorem roots_map (t : α → β) (f : Forest α) : (f.map t).roots = f.roots.map t := by
  induction f with
  | nil => rfl
  | cons a subs rest _ ih => rw [map, roots, ih, roots, List.map_cons]

theorem Flat.eq (h : f.Flat) : f = flat f.roots := by
  induction f with
  | nil => rfl
  | cons a subs rest _ ih =>
    obtain ⟨rfl, hrest⟩ := h
    rw [roots, flat, ← ih hrest]

theorem Flat.preorder_eq (h : f.Flat) : f.preorder = f.roots := by
  rw [h.eq, preorder_flat, roots_flat]

/-- A forest is flat if and only if it has as many nodes as roots. -/
theorem flat_iff_length : f.Flat ↔ f.roots.length = f.preorder.length := by
  constructor
  · intro h
    rw [h.preorder_eq]
  · intro h
    induction f with
    | nil => exact trivial
    | cons a subs rest _ ih =>
      rw [roots, preorder, List.length_cons, List.length_cons, List.length_append] at h
      have hle := rest.roots_sublist.length_le
      refine ⟨?_, ih (by omega)⟩
      cases subs with
      | nil => rfl
      | cons b subs rest' =>
        rw [preorder, List.length_cons] at h
        omega

theorem Same.length_roots (h : f.Same g) : f.roots.length = g.roots.length := by
  induction h with
  | nil => rfl
  | cons a _ _ _ ih => rw [roots, roots, List.length_cons, List.length_cons, ih]
  | swap a b subs subs' rest => rfl
  | trans _ _ ih ih' => exact ih.trans ih'

theorem Same.flat {as bs : List α} (h : as.Perm bs) : (Forest.flat as).Same (Forest.flat bs) := by
  induction h with
  | nil => exact Same.nil
  | cons a _ ih => exact Same.cons a Same.nil ih
  | swap a b as => exact Same.swap b a .nil .nil _
  | trans _ _ ih ih' => exact ih.trans ih'

end Forest

end CLib
