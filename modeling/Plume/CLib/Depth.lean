import Plume.CLib.Run

/-! How deep a list of openings and closings leads, each with its own weight. -/

namespace CLib

variable {α : Type} {v w : α → ℤ} {l pre : List α} {a : α}

def depth (w : α → ℤ) (l : List α) : ℤ := (l.map w).sum

theorem depth_cons (w : α → ℤ) (a : α) (l : List α) : depth w (a :: l) = w a + depth w l := by
  rw [depth, List.map_cons, List.sum_cons]
  rfl

theorem depth_snoc (w : α → ℤ) (l : List α) (a : α) : depth w (l ++ [a]) = depth w l + w a := by
  simp [depth]

theorem depth_congr (h : ∀ a ∈ l, v a = w a) : depth v l = depth w l := by
  rw [depth, List.map_congr_left h]
  rfl

theorem depth_le (h : ∀ a ∈ l, w a ≤ v a) : depth w l ≤ depth v l := List.sum_le_sum h

/-- Two ledgers of which one is never above the other, and not below it in the end, agree
throughout. -/
theorem eq_of_depth_le (hle : ∀ a ∈ l, w a ≤ v a) (h : depth v l ≤ depth w l) :
    ∀ a ∈ l, w a = v a := by
  induction l with
  | nil => simp
  | cons a l ih =>
    obtain ⟨ha, hl⟩ := List.forall_mem_cons.1 hle
    have hrest := depth_le hl
    rw [depth_cons, depth_cons] at h
    exact List.forall_mem_cons.2 ⟨by omega, ih hl (by omega)⟩

/-- Where nothing leads below the start, no prefix does. -/
theorem depth_nonneg (h : ∀ pre a, pre ++ [a] <+: l → 0 ≤ depth w pre → 0 ≤ depth w pre + w a)
    (hpre : pre <+: l) :
    0 ≤ depth w pre := by
  induction pre using List.reverseRecOn with
  | nil => exact le_rfl
  | append_singleton pre a ih =>
    rw [depth_snoc]
    exact h pre a hpre (ih (prefix_snoc hpre))

end CLib
