import Mathlib.Logic.Basic

/-! Computations that log what they do and may fail in the middle of it, and two of them in
step: what was logged before a failure stays logged, so that it has to agree too. -/

namespace CLib

abbrev Logged (τ φ α : Type) := List τ × Except φ α

namespace Logged

variable {τ φ α β γ α' β' : Type}

def ok (a : α) : Logged τ φ α := ([], .ok a)

def fail (f : φ) : Logged τ φ α := ([], .error f)

def bind (m : Logged τ φ α) (k : α → Logged τ φ β) : Logged τ φ β :=
  match m with
  | (log, .error f) => (log, .error f)
  | (log, .ok a) => (log ++ (k a).1, (k a).2)

@[simp] theorem ok_bind (a : α) (k : α → Logged τ φ β) : (ok a : Logged τ φ α).bind k = k a := rfl

@[simp] theorem fail_bind (f : φ) (k : α → Logged τ φ β) :
    (fail f : Logged τ φ α).bind k = fail f := rfl

theorem logged_bind (log : List τ) (a : α) (k : α → Logged τ φ β) :
    bind (log, .ok a) k = (log ++ (k a).1, (k a).2) := rfl

theorem stopped_bind (log : List τ) (f : φ) (k : α → Logged τ φ β) :
    bind (log, .error f) k = (log, .error f) := rfl

theorem bind_ok (m : Logged τ φ α) : m.bind ok = m := by
  obtain ⟨log, r⟩ := m
  cases r with
  | error f => rfl
  | ok a => rw [logged_bind, ok, List.append_nil]

theorem bind_assoc (m : Logged τ φ α) (k : α → Logged τ φ β) (l : β → Logged τ φ γ) :
    (m.bind k).bind l = m.bind fun a => (k a).bind l := by
  obtain ⟨log, r⟩ := m
  cases r with
  | error f => rfl
  | ok a =>
    rw [logged_bind, logged_bind]
    obtain ⟨log', r'⟩ := k a
    cases r' with
    | error f => rfl
    | ok b => rw [logged_bind, logged_bind, List.append_assoc]

theorem bind_through {m : Logged τ φ α} {k : α → Logged τ φ β} {log : List τ} {b : β}
    (h : m.bind k = (log, .ok b)) :
    ∃ l₁ a l₂, m = (l₁, .ok a) ∧ k a = (l₂, .ok b) ∧ log = l₁ ++ l₂ := by
  obtain ⟨l₁, r⟩ := m
  cases r with
  | error f => cases h
  | ok a =>
    obtain ⟨hlog, hr⟩ := Prod.mk.inj h
    exact ⟨l₁, a, (k a).1, rfl, Prod.ext rfl hr, hlog.symm⟩

/-- The same log, and the same failure or results that are related. -/
inductive Agrees (R : α → α' → Prop) : Logged τ φ α → Logged τ φ α' → Prop
  | ok (log : List τ) {a : α} {a' : α'} : R a a' → Agrees R (log, .ok a) (log, .ok a')
  | fail (log : List τ) (f : φ) : Agrees R (log, .error f) (log, .error f)

section Agrees

variable {R : α → α' → Prop} {S : β → β' → Prop} {m : Logged τ φ α} {m' : Logged τ φ α'}

theorem Agrees.mono {T : α → α' → Prop} (h : Agrees R m m') (hRT : ∀ a a', R a a' → T a a') :
    Agrees T m m' := by
  cases h with
  | ok log h => exact .ok log (hRT _ _ h)
  | fail log f => exact .fail log f

theorem Agrees.behind (h : Agrees R m m') (log : List τ) :
    Agrees R (log ++ m.1, m.2) (log ++ m'.1, m'.2) := by
  cases h with
  | ok more h => exact .ok (log ++ more) h
  | fail more f => exact .fail (log ++ more) f

theorem Agrees.bind {k : α → Logged τ φ β} {k' : α' → Logged τ φ β'} (h : Agrees R m m')
    (hk : ∀ a a', R a a' → Agrees S (k a) (k' a')) : Agrees S (m.bind k) (m'.bind k') := by
  cases h with
  | fail log f => exact .fail log f
  | @ok log a a' h =>
    rw [logged_bind, logged_bind]
    exact (hk a a' h).behind log

/-- The rule for one and the same computation at the front. -/
theorem Agrees.same {m : Logged τ φ γ} {k : γ → Logged τ φ α} {k' : γ → Logged τ φ α'}
    (hk : ∀ log c, m = (log, .ok c) → Agrees R (k c) (k' c)) : Agrees R (m.bind k) (m.bind k') := by
  obtain ⟨log, r⟩ := m
  cases r with
  | error f => exact .fail log f
  | ok c =>
    rw [logged_bind, logged_bind]
    exact (hk log c rfl).behind log

theorem Agrees.eq {m m' : Logged τ φ α} (h : Agrees Eq m m') : m = m' := by
  cases h with
  | fail log f => rfl
  | ok log h => rw [h]

end Agrees

end Logged

end CLib
