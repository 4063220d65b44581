import Mathlib.Tactic

/-! Lexical scopes: names bound to values in nested blocks. A block hides what the blocks around
it bind, and takes its own bindings with it when it is closed. -/

namespace CLib

variable {ν β : Type} [DecidableEq ν] {x : ν} {v : β}

/-- The bindings of each open block, newest first; the innermost block comes first. -/
abbrev Scopes (ν β : Type) := List (List (ν × β))

namespace Scopes

variable {s : Scopes ν β}

/-- A binding made where no block is open has no place. -/
def bind (x : ν) (v : β) : Scopes ν β → Option (Scopes ν β)
  | [] => none
  | b :: s => some (((x, v) :: b) :: s)

def close : Scopes ν β → Option (Scopes ν β)
  | [] => none
  | _ :: s => some s

def find (x : ν) (b : List (ν × β)) : Option β := b.lookup x

def lookup (x : ν) (s : Scopes ν β) : Option β := s.findSome? (find x)

def Binds (x : ν) (b : List (ν × β)) : Prop := ∃ p ∈ b, p.1 = x

/-- `v` is what `x` was bound to last in the innermost block that binds it. -/
def Visible (x : ν) (v : β) (s : Scopes ν β) : Prop :=
  ∃ inner newer older outer, s = inner ++ (newer ++ (x, v) :: older) :: outer ∧
    (∀ b ∈ inner, ¬ Binds x b) ∧ ¬ Binds x newer

variable {b : List (ν × β)}

theorem find_cons (y : ν) (v : β) : find x ((y, v) :: b) = if y = x then some v else find x b := by
  unfold find
  rw [List.lookup_cons]
  split_ifs with h
  · rw [beq_iff_eq.2 h.symm]
  · rw [beq_false_of_ne (Ne.symm h)]

theorem lookup_cons : lookup x (b :: s) = (find x b).or (lookup x s) := by
  unfold lookup
  rw [List.findSome?_cons]
  cases find x b <;> rfl

theorem find_eq_none_iff : find x b = none ↔ ¬ Binds x b := by
  unfold find
  rw [List.lookup_eq_none_iff]
  simp only [Binds, bne_iff_ne, not_exists, not_and]
  exact forall₂_congr fun p _ => ne_comm

theorem lookup_eq_none_iff : s.lookup x = none ↔ ∀ b ∈ s, ¬ Binds x b := by
  unfold lookup
  rw [List.findSome?_eq_none_iff]
  simp only [find_eq_none_iff]

theorem lookup_eq_some_iff : s.lookup x = some v ↔ Visible x v s := by
  unfold lookup
  rw [List.findSome?_eq_some_iff]
  constructor
  · rintro ⟨inner, b, outer, rfl, hb, hinner⟩
    obtain ⟨newer, older, rfl, hnewer⟩ := List.lookup_eq_some_iff.1 hb
    refine ⟨inner, newer, older, outer, rfl, fun b hb => find_eq_none_iff.1 (hinner b hb), ?_⟩
    rintro ⟨p, hp, rfl⟩
    simpa using hnewer p hp
  · rintro ⟨inner, newer, older, outer, rfl, hinner, hnewer⟩
    refine ⟨inner, _, outer, rfl, ?_, fun b hb => find_eq_none_iff.2 (hinner b hb)⟩
    refine List.lookup_eq_some_iff.2 ⟨newer, older, rfl, fun p hp => ?_⟩
    rw [bne_iff_ne]
    rintro rfl
    exact hnewer ⟨p, hp, rfl⟩

end Scopes

end CLib
