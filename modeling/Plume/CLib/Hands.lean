import Mathlib.Tactic

/-! Things that go from hand to hand: each of them is in one hand, or in a common store, and there
once. -/

namespace CLib

variable {ι α : Type} {hand : ι → Option α} {store : List α} {t : ι} {a b : α} {r : Option α}

structure Hands (hand : ι → Option α) (store : List α) : Prop where
  nodup : store.Nodup
  apart : ∀ t a, hand t = some a → a ∉ store
  once : ∀ t u a, hand t = some a → hand u = some a → t = u

/-- The thing is in one of these places. -/
def Placed (hand : ι → Option α) (store : List α) (a : α) : Prop := a ∈ store ∨ ∃ t, hand t = some a

variable [DecidableEq ι]

theorem update_hand {u : ι} :
    Function.update hand t r u = some b ↔ u = t ∧ r = some b ∨ u ≠ t ∧ hand u = some b := by
  rcases eq_or_ne u t with rfl | hu
  · simp
  · simp [hu]

/-- A hand lets go of what it has, for something that is nowhere. -/
theorem Hands.renew (h : Hands hand store) (hnew : ∀ a, r = some a → ¬Placed hand store a) :
    Hands (Function.update hand t r) store := by
  refine ⟨h.nodup, fun u a hu hmem => ?_, fun u v a hu hv => ?_⟩
  · obtain ⟨-, hr⟩ | ⟨-, hu⟩ := update_hand.1 hu
    · exact hnew a hr (.inl hmem)
    · exact h.apart u a hu hmem
  · obtain ⟨hut, hr⟩ | ⟨-, hu⟩ := update_hand.1 hu
    · obtain ⟨hvt, -⟩ | ⟨-, hv⟩ := update_hand.1 hv
      · rw [hut, hvt]
      · exact absurd (.inr ⟨v, hv⟩) (hnew a hr)
    · obtain ⟨-, hr⟩ | ⟨-, hv⟩ := update_hand.1 hv
      · exact absurd (.inr ⟨u, hu⟩) (hnew a hr)
      · exact h.once u v a hu hv

theorem Hands.placed_renew (h : Hands hand store) :
    Placed (Function.update hand t r) store b ↔
      r = some b ∨ Placed hand store b ∧ hand t ≠ some b := by
  constructor
  · rintro (hb | ⟨u, hu⟩)
    · exact .inr ⟨.inl hb, fun ht => h.apart t b ht hb⟩
    · obtain ⟨-, hr⟩ | ⟨hut, hu⟩ := update_hand.1 hu
      · exact .inl hr
      · exact .inr ⟨.inr ⟨u, hu⟩, fun ht => hut (h.once u t b hu ht)⟩
  · rintro (hr | ⟨hb | ⟨u, hu⟩, hne⟩)
    · exact .inr ⟨t, update_hand.2 (.inl ⟨rfl, hr⟩)⟩
    · exact .inl hb
    · refine .inr ⟨u, update_hand.2 (.inr ⟨?_, hu⟩)⟩
      rintro rfl
      exact hne hu

theorem Hands.take [DecidableEq α] (h : Hands hand store) (ha : a ∈ store) :
    Hands (Function.update hand t (some a)) (store.erase a) := by
  have herase : Hands hand (store.erase a) :=
    ⟨h.nodup.erase a, fun u b hu hmem => h.apart u b hu (List.mem_of_mem_erase hmem), h.once⟩
  refine herase.renew fun b hb => ?_
  cases hb
  rintro (hmem | ⟨u, hu⟩)
  · exact (h.nodup.mem_erase_iff.1 hmem).1 rfl
  · exact h.apart u a hu ha

theorem Hands.placed_take [DecidableEq α] (h : Hands hand store) (ha : a ∈ store)
    (ht : hand t = none) :
    Placed (Function.update hand t (some a)) (store.erase a) b ↔ Placed hand store b := by
  constructor
  · rintro (hb | ⟨u, hu⟩)
    · exact .inl (List.mem_of_mem_erase hb)
    · obtain ⟨-, hr⟩ | ⟨-, hu⟩ := update_hand.1 hu
      · cases hr
        exact .inl ha
      · exact .inr ⟨u, hu⟩
  · rintro (hb | ⟨u, hu⟩)
    · by_cases hba : b = a
      · exact .inr ⟨t, update_hand.2 (.inl ⟨rfl, congrArg some hba.symm⟩)⟩
      · exact .inl (h.nodup.mem_erase_iff.2 ⟨hba, hb⟩)
    · refine .inr ⟨u, update_hand.2 (.inr ⟨?_, hu⟩)⟩
      rintro rfl
      rw [ht] at hu
      cases hu

theorem Hands.give (h : Hands hand store) (ha : hand t = some a) :
    Hands (Function.update hand t none) (a :: store) := by
  refine ⟨List.nodup_cons.2 ⟨h.apart t a ha, h.nodup⟩, fun u b hu hmem => ?_, fun u v b hu hv => ?_⟩
  · obtain ⟨-, hr⟩ | ⟨hut, hu⟩ := update_hand.1 hu
    · cases hr
    · rcases List.mem_cons.1 hmem with rfl | hmem
      · exact hut (h.once u t b hu ha)
      · exact h.apart u b hu hmem
  · obtain ⟨-, hr⟩ | ⟨-, hu⟩ := update_hand.1 hu
    · cases hr
    · obtain ⟨-, hr⟩ | ⟨-, hv⟩ := update_hand.1 hv
      · cases hr
      · exact h.once u v b hu hv

theorem placed_give (ha : hand t = some a) :
    Placed (Function.update hand t none) (a :: store) b ↔ Placed hand store b := by
  constructor
  · rintro (hb | ⟨u, hu⟩)
    · rcases List.mem_cons.1 hb with rfl | hb
      · exact .inr ⟨t, ha⟩
      · exact .inl hb
    · obtain ⟨-, hr⟩ | ⟨-, hu⟩ := update_hand.1 hu
      · cases hr
      · exact .inr ⟨u, hu⟩
  · rintro (hb | ⟨u, hu⟩)
    · exact .inl (List.mem_cons_of_mem a hb)
    · by_cases hut : u = t
      · subst hut
        rw [ha] at hu
        cases hu
        exact .inl List.mem_cons_self
      · exact .inr ⟨u, update_hand.2 (.inr ⟨hut, hu⟩)⟩

end CLib
