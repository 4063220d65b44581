import Mathlib.Logic.Basic

/-! A lock that threads try to take, and the part of their code it guards. -/

namespace CLib

inductive Lock (ι : Type)
  | free
  | held (t : ι)
  | destroyed
deriving DecidableEq, Repr

namespace Lock

variable {ι : Type} {l : Lock ι} {P Q : ι → Prop} {t u : ι}

/-- Exactly the thread that has the lock is in the guarded part. -/
def Guards (l : Lock ι) (P : ι → Prop) : Prop := ∀ t, P t ↔ l = held t

theorem Guards.exclusive (h : Guards l P) (ht : P t) (hu : P u) : t = u := by
  have heq := (h t).1 ht
  rw [(h u).1 hu] at heq
  exact (held.inj heq).symm

theorem Guards.of_free (hP : ∀ t, ¬ P t) : Guards (free : Lock ι) P :=
  fun t => ⟨fun h => absurd h (hP t), nofun⟩

theorem Guards.none_inside (h : Guards l P) (hl : ∀ t, l ≠ held t) (t : ι) : ¬ P t :=
  fun ht => hl t ((h t).1 ht)

theorem Guards.same (h : Guards l P) (hQ : ∀ t, Q t ↔ P t) : Guards l Q :=
  fun t => (hQ t).trans (h t)

theorem Guards.acquire (h : Guards free P) (hself : Q t) (hother : ∀ u, u ≠ t → (Q u ↔ P u)) :
    Guards (held t) Q := by
  intro u
  by_cases hu : u = t
  · subst hu
    exact iff_of_true hself rfl
  · refine iff_of_false (fun hq => ?_) fun heq => hu (held.inj heq).symm
    exact h.none_inside nofun u ((hother u hu).1 hq)

theorem Guards.release (h : Guards l P) (ht : P t) (hself : ¬ Q t)
    (hother : ∀ u, u ≠ t → (Q u ↔ P u)) :
    Guards free Q := by
  refine Guards.of_free fun u hq => ?_
  by_cases hu : u = t
  · exact hself (hu ▸ hq)
  · exact hu (h.exclusive ((hother u hu).1 hq) ht)

theorem Guards.destroy (h : Guards l P) (hl : ∀ t, l ≠ held t) : Guards destroyed P :=
  fun t => iff_of_false (h.none_inside hl t) nofun

end Lock

end CLib
