import Plume.CLib.Run

/-! The order of events in a log that grows at its end: whether something is still pending,
and what must have come in between. -/

namespace CLib

variable {ε : Type} {p q r : ε → Prop} {l : List ε} {a : ε}

/-- A `p` has been logged, and no `r` since. -/
def Since (p r : ε → Prop) (l : List ε) : Prop :=
  ∃ l₁ a l₂, l = l₁ ++ a :: l₂ ∧ p a ∧ ∀ b ∈ l₂, ¬ r b

/-- Between a `p` and any later `q` there is an `r`: a `q` is only logged while no `p` is
pending. -/
def Between (p q r : ε → Prop) (l : List ε) : Prop :=
  ∀ pre a, pre ++ [a] <+: l → q a → ¬ Since p r pre

theorem since_nil : ¬ Since p r [] := by
  rintro ⟨l₁, a, l₂, h, -⟩
  simp at h

theorem since_snoc : Since p r (l ++ [a]) ↔ p a ∨ (Since p r l ∧ ¬ r a) := by
  constructor
  · rintro ⟨l₁, x, l₂, h, hp, hr⟩
    rcases List.eq_nil_or_concat l₂ with rfl | ⟨l₂, b, rfl⟩
    · obtain rfl := List.singleton_inj.1 (List.append_inj' h rfl).2
      exact .inl hp
    · rw [List.concat_eq_append, ← List.cons_append, ← List.append_assoc] at h
      obtain ⟨rfl, hab⟩ := List.append_inj' h rfl
      obtain rfl := List.singleton_inj.1 hab
      refine .inr ⟨⟨l₁, x, l₂, rfl, hp, fun b hb => hr b ?_⟩, hr _ ?_⟩
      · simp [hb]
      · simp
  · rintro (hp | ⟨⟨l₁, x, l₂, rfl, hp, hr⟩, hna⟩)
    · exact ⟨l, a, [], rfl, hp, by simp⟩
    · refine ⟨l₁, x, l₂ ++ [a], by simp, hp, fun b hb => ?_⟩
      rcases List.mem_append.1 hb with hb | hb
      · exact hr b hb
      · rw [List.mem_singleton.1 hb]
        exact hna

theorem between_nil : Between p q r [] := by
  intro pre a hpre
  exact absurd (List.prefix_nil.1 hpre) (by simp)

theorem between_snoc : Between p q r (l ++ [a]) ↔ Between p q r l ∧ (q a → ¬ Since p r l) := by
  constructor
  · intro h
    exact ⟨fun pre b hpre => h pre b (hpre.trans (List.prefix_append l [a])),
      h l a (List.prefix_refl _)⟩
  · intro ⟨h, ha⟩ pre b hpre hb
    rcases List.prefix_concat_iff.1 hpre with heq | hpre
    · obtain ⟨rfl, hab⟩ := List.append_inj' heq rfl
      obtain rfl := List.singleton_inj.1 hab
      exact ha hb
    · exact h pre b hpre hb

end CLib
