import Mathlib.Logic.Basic

/-! Things that are moved between places, each of them known by a key: that a key is at one place
only, and that nothing gets lost on the way. -/

namespace CLib

variable {π τ κ : Type} {key : τ → κ} {at₀ at₁ : π → Option τ} {x : τ} {p : π}

def Once (key : τ → κ) (at₀ : π → Option τ) : Prop :=
  ∀ p q x y, at₀ p = some x → at₀ q = some y → key x = key y → p = q

def Each (P : τ → Prop) (at₀ : π → Option τ) : Prop := ∀ p x, at₀ p = some x → P x

/-- Everything is moved as `move` says, and nothing else appears. -/
structure Carries (move : π → π) (at₀ at₁ : π → Option τ) : Prop where
  forth : ∀ p x, at₀ p = some x → at₁ (move p) = some x
  back : ∀ p x, at₁ p = some x → ∃ q, at₀ q = some x ∧ move q = p

theorem Carries.same (h : ∀ p, at₁ p = at₀ p) : Carries id at₀ at₁ :=
  ⟨fun p _ hx => (h p).trans hx, fun p _ hx => ⟨p, (h p).symm.trans hx, rfl⟩⟩

theorem Carries.once {move : π → π} (hc : Carries move at₀ at₁) (h : Once key at₀) :
    Once key at₁ := by
  intro p q x y hp hq hkey
  obtain ⟨p₀, hp₀, rfl⟩ := hc.back p x hp
  obtain ⟨q₀, hq₀, rfl⟩ := hc.back q y hq
  rw [h p₀ q₀ x y hp₀ hq₀ hkey]

theorem Carries.each {move : π → π} {P : τ → Prop} (hc : Carries move at₀ at₁) (h : Each P at₀) :
    Each P at₁ := by
  intro p x hp
  obtain ⟨q, hq, -⟩ := hc.back p x hp
  exact h q x hq

theorem Each.mono {P Q : τ → Prop} (h : Each P at₀) (hPQ : ∀ x, P x → Q x) : Each Q at₀ :=
  fun p x hp => hPQ x (h p x hp)

section Put

variable (hself : at₁ p = some x) (hother : ∀ q, q ≠ p → at₁ q = at₀ q)
include hself hother

/-- A thing takes a place, and whatever was there is gone. -/
theorem Each.put {P : τ → Prop} (h : Each P at₀) (hx : P x) : Each P at₁ := by
  intro q y hq
  by_cases hqp : q = p
  · rw [hqp, hself] at hq
    cases hq
    exact hx
  · exact h q y ((hother q hqp).symm.trans hq)

theorem Once.put (h : Once key at₀) (hnew : Each (fun y => key y ≠ key x) at₀) : Once key at₁ := by
  intro a b y z ha hb hkey
  by_cases hap : a = p
  · subst hap
    by_cases hbp : b = a
    · exact hbp.symm
    · obtain rfl : x = y := Option.some.inj (hself.symm.trans ha)
      exact absurd hkey.symm (hnew b z ((hother b hbp).symm.trans hb))
  · by_cases hbp : b = p
    · subst hbp
      obtain rfl : x = z := Option.some.inj (hself.symm.trans hb)
      exact absurd hkey (hnew a y ((hother a hap).symm.trans ha))
    · exact h a b y z ((hother a hap).symm.trans ha) ((hother b hbp).symm.trans hb) hkey

end Put

end CLib
