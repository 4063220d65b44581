import Plume.CLib.Scan

/-! Pieces of memory, and the allocators that hand them out. -/

namespace CLib

structure Region where
  addr : ℕ
  size : ℕ
deriving DecidableEq, Repr

namespace Region

variable {r r' s s' : Region}

/-- The address behind it. -/
def fin (r : Region) : ℕ := r.addr + r.size

def Inside (r s : Region) : Prop := s.addr ≤ r.addr ∧ r.fin ≤ s.fin

def Apart (r s : Region) : Prop := r.fin ≤ s.addr ∨ s.fin ≤ r.addr

instance : Decidable (r.Inside s) := inferInstanceAs (Decidable (_ ∧ _))

instance : Decidable (r.Apart s) := inferInstanceAs (Decidable (_ ∨ _))

theorem Apart.symm (h : r.Apart s) : s.Apart r := Or.symm h

theorem Inside.trans (h : r.Inside r') (h' : r'.Inside s) : r.Inside s :=
  ⟨h'.1.trans h.1, h.2.trans h'.2⟩

theorem Apart.mono (h : r.Apart s) (hr : r'.Inside r) (hs : s'.Inside s) : r'.Apart s' := by
  unfold Apart Inside at *
  omega

theorem Inside.refl (r : Region) : r.Inside r := ⟨le_rfl, le_rfl⟩

theorem inside_take {a k n : ℕ} (h : k ≤ n) : Inside ⟨a, k⟩ ⟨a, n⟩ :=
  ⟨le_rfl, Nat.add_le_add_left h a⟩

theorem inside_drop {a k n : ℕ} (h : k ≤ n) : Inside ⟨a + k, n - k⟩ ⟨a, n⟩ := by
  refine ⟨Nat.le_add_right a k, ?_⟩
  simp only [fin]
  omega

/-- Memory apart from all that is in use has another address, if there is a byte to tell. -/
theorem Apart.addr_ne (h : r.Apart s) (hr : 0 < r.size) (hs : 0 < s.size) : r.addr ≠ s.addr := by
  unfold Apart fin at h
  omega

end Region

section Size

def sizeAdd (a b : ℕ) : ℕ := (a + b) % 2 ^ 64

theorem sizeAdd_eq {a b : ℕ} (h : a + b < 2 ^ 64) : sizeAdd a b = a + b := Nat.mod_eq_of_lt h

theorem sizeT_sub {a b : ℕ} (h : b ≤ a) : sizeT ((a : ℤ) - b) = a - b := by
  rw [← Nat.cast_sub h, sizeT_natCast]

end Size

/-- An allocator that fails, or returns memory apart from all that is in use, as it pleases. -/
structure Malloc where
  alloc : List Region → ℕ → Option ℕ
  fresh : ∀ used n a, alloc used n = some a → a + n < 2 ^ 64 ∧ ∀ r ∈ used, Region.Apart ⟨a, n⟩ r

def Malloc.fails : Malloc := ⟨fun _ _ => none, fun _ _ _ h => by cases h⟩

def Malloc.top : Malloc where
  alloc used n := if used = [] ∧ n < 2 ^ 64 then some (2 ^ 64 - 1 - n) else none
  fresh used n a h := by
    split_ifs at h with hif
    obtain rfl := Option.some.inj h
    obtain ⟨rfl, hlt⟩ := hif
    exact ⟨by omega, by simp⟩

def usedEnd (used : List Region) : ℕ := used.foldr (fun r n => max r.fin n) 4096

theorem le_usedEnd {used : List Region} {r : Region} (h : r ∈ used) : r.fin ≤ usedEnd used := by
  induction used with
  | nil => cases h
  | cons s used ih =>
    rcases List.mem_cons.1 h with rfl | h
    · exact Nat.le_max_left ..
    · exact (ih h).trans (Nat.le_max_right ..)

/-- The allocator that goes on behind all memory in use. -/
def Malloc.bump : Malloc where
  alloc used n := if usedEnd used + n < 2 ^ 64 then some (usedEnd used) else none
  fresh used n a h := by
    split_ifs at h with hlt
    obtain rfl := Option.some.inj h
    exact ⟨hlt, fun r hr => Or.inr (le_usedEnd hr)⟩

end CLib
