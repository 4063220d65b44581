import Plume.CLib.Scan

/-! Code that runs in small steps, between which other threads may take theirs: what all of it comes
to, and what the steps of others leave of that. -/

namespace CLib

/-- A step works on the state, and what comes behind it may depend on the state it found. -/
inductive Prog (σ β : Type)
  | ret (b : β)
  | act (f : σ → Except Fault σ) (k : σ → Prog σ β)

namespace Prog

variable {σ α β : Type} {p q : Prog σ β} {f : σ → Except Fault σ} {k : σ → Prog σ β}
  {s s' s₀ s₁ s₂ : σ} {b : β}

def exec : Prog σ β → σ → Except Fault (β × σ)
  | ret b, s => .ok (b, s)
  | act f k, s => f s >>= fun s' => (k s).exec s'

def read (g : σ → α) (k : α → Prog σ β) : Prog σ β := act .ok fun s => k (g s)

def write (f : σ → σ) (p : Prog σ β) : Prog σ β := act (fun s => .ok (f s)) fun _ => p

def wild (b : β) : Prog σ β := act (fun _ => .error .wild) fun _ => ret b

@[simp] theorem exec_ret (b : β) (s : σ) : (ret b).exec s = .ok (b, s) := rfl

@[simp] theorem exec_read (g : σ → α) (k : α → Prog σ β) (s : σ) :
    (read g k).exec s = (k (g s)).exec s := rfl

@[simp] theorem exec_write (f : σ → σ) (p : Prog σ β) (s : σ) : (write f p).exec s = p.exec (f s) :=
  rfl

theorem exec_act (hf : f s = .ok s') : (act f k).exec s = (k s).exec s' := by
  rw [exec, hf, ok_bind]

section Respects

variable {R : σ → σ → Prop}

/-- States that are alike under `R` make no difference to the code. -/
def Respects (R : σ → σ → Prop) : Prog σ β → Prop
  | ret _ => True
  | act f k => (∀ s s' t, R s s' → f s = .ok t → ∃ t', f s' = .ok t' ∧ R t t') ∧
      ∀ s, (∀ s', R s s' → k s = k s') ∧ (k s).Respects R

theorem respects_read {g : σ → α} {k : α → Prog σ β} (hg : ∀ s s', R s s' → g s = g s')
    (hk : ∀ a, (k a).Respects R) :
    (read g k).Respects R := by
  refine ⟨fun s s' t hR ht => ?_, fun s => ⟨fun s' hR => congrArg k (hg s s' hR), hk _⟩⟩
  cases ht
  exact ⟨s', rfl, hR⟩

theorem respects_write {f : σ → σ} (hf : ∀ s s', R s s' → R (f s) (f s')) (hp : p.Respects R) :
    (write f p).Respects R := by
  refine ⟨fun s s' t hR ht => ?_, fun _ => ⟨fun _ _ => rfl, hp⟩⟩
  cases ht
  exact ⟨f s', rfl, hf s s' hR⟩

theorem respects_wild (b : β) : (wild b : Prog σ β).Respects R :=
  ⟨fun _ _ _ _ ht => (by cases ht), fun _ => ⟨fun _ _ => rfl, trivial⟩⟩

theorem Respects.exec_alike (hp : p.Respects R) (hR : R s s') (h : p.exec s = .ok (b, s₁)) :
    ∃ s₂, p.exec s' = .ok (b, s₂) ∧ R s₁ s₂ := by
  induction p generalizing s s' with
  | ret c =>
    cases h
    exact ⟨s', rfl, hR⟩
  | act f k ih =>
    obtain ⟨hf, hk⟩ := hp
    obtain ⟨t, ht, h⟩ := bind_eq_ok.1 h
    obtain ⟨t', ht', hR'⟩ := hf s s' t hR ht
    obtain ⟨s₂, h₂, hs₂⟩ := ih s (hk s).2 hR' h
    exact ⟨s₂, by rw [exec_act ht', ← (hk s).1 s' hR, h₂], hs₂⟩

end Respects

section Keeps

variable {P : σ → Prop}

def Keeps (P : σ → Prop) : Prog σ β → Prop
  | ret _ => True
  | act f k => ∀ s, P s → (∀ s', f s = .ok s' → P s') ∧ (k s).Keeps P

theorem keeps_read {g : σ → α} {k : α → Prog σ β} (hk : ∀ a, (k a).Keeps P) :
    (read g k).Keeps P := by
  refine fun s hs => ⟨fun s' hs' => ?_, hk _⟩
  cases hs'
  exact hs

theorem keeps_write {f : σ → σ} (hf : ∀ s, P s → P (f s)) (hp : p.Keeps P) :
    (write f p).Keeps P := by
  refine fun s hs => ⟨fun s' hs' => ?_, hp⟩
  cases hs'
  exact hf s hs

theorem keeps_wild (b : β) : (wild b : Prog σ β).Keeps P :=
  fun _ _ => ⟨fun _ hs' => (by cases hs'), trivial⟩

end Keeps

section Doing

variable {R : σ → σ → Prop}

/-- Having begun `p` at `s₀`, a thread has got to `q` at `s`, and will get to where `p` gets to from
`s₀` without the steps that others take in between. -/
structure Doing (R : σ → σ → Prop) (p q : Prog σ β) (s₀ s : σ) : Prop where
  respects : q.Respects R
  agrees : ∃ b s₁ s₂, p.exec s₀ = .ok (b, s₁) ∧ q.exec s = .ok (b, s₂) ∧ R s₁ s₂

theorem Doing.begun (hp : p.Respects R) (hR : R s₀ s) (h : p.exec s₀ = .ok (b, s₁)) :
    Doing R p p s₀ s := by
  obtain ⟨s₂, h₂, hs₂⟩ := hp.exec_alike hR h
  exact ⟨hp, b, s₁, s₂, h, h₂, hs₂⟩

theorem Doing.step (h : Doing R p (act f k) s₀ s) : ∃ s', f s = .ok s' ∧ Doing R p (k s) s₀ s' := by
  obtain ⟨b, s₁, s₂, h₁, h₂, hR⟩ := h.agrees
  obtain ⟨s', hf, h₂⟩ := bind_eq_ok.1 h₂
  exact ⟨s', hf, (h.respects.2 s).2, b, s₁, s₂, h₁, h₂, hR⟩

theorem Doing.other (htrans : ∀ a b c, R a b → R b c → R a c) (h : Doing R p q s₀ s) (hR : R s s') :
    Doing R p q s₀ s' := by
  obtain ⟨b, s₁, s₂, h₁, h₂, hs⟩ := h.agrees
  obtain ⟨s₃, h₃, hs₃⟩ := h.respects.exec_alike hR h₂
  exact ⟨h.respects, b, s₁, s₃, h₁, h₃, htrans _ _ _ hs hs₃⟩

theorem Doing.ended (h : Doing R p (ret b) s₀ s) : ∃ s₁, p.exec s₀ = .ok (b, s₁) ∧ R s₁ s := by
  obtain ⟨c, s₁, s₂, h₁, h₂, hR⟩ := h.agrees
  cases h₂
  exact ⟨s₁, h₁, hR⟩

end Doing

section Carries

variable {ρ : Type} [DecidableEq ρ] {E : σ → Prop} {owned : σ → List ρ} {o : Option ρ}
  {code : Prog σ (Option ρ)}

/-- The code of a thread that has `o` in hand. Whatever others do to the state in between, as long
as `E` holds of it, a step keeps `E`, and it gets a thing that was not owned, or gives up the one in
hand, or neither; in the end the thread returns what it has. -/
def Carries (E : σ → Prop) (owned : σ → List ρ) : Prog σ (Option ρ) → Option ρ → Prop
  | ret r, o => r = o
  | act f k, o => ∀ s s', E s → f s = .ok s' → E s' ∧
      (owned s' = owned s ∧ (k s).Carries E owned o ∨
        (o = none ∧ ∃ a, a ∉ owned s ∧ owned s' = a :: owned s ∧ (k s).Carries E owned (some a)) ∨
        ∃ a, o = some a ∧ owned s' = (owned s).erase a ∧ (k s).Carries E owned none)

theorem carries_read {g : σ → α} {k : α → Prog σ (Option ρ)}
    (hk : ∀ s, E s → (k (g s)).Carries E owned o) :
    (read g k).Carries E owned o := by
  intro s s' hE hs
  cases hs
  exact ⟨hE, .inl ⟨rfl, hk s hE⟩⟩

/-- A step that has nothing to do with what is owned. -/
theorem carries_act {f : σ → Except Fault σ}
    (hf : ∀ s s', E s → f s = .ok s' → E s' ∧ owned s' = owned s)
    (hp : code.Carries E owned o) : (act f fun _ => code).Carries E owned o := by
  intro s s' hE hs
  obtain ⟨hE', howned⟩ := hf s s' hE hs
  exact ⟨hE', .inl ⟨howned, hp⟩⟩

theorem carries_write {f : σ → σ} (hf : ∀ s, E s → E (f s) ∧ owned (f s) = owned s)
    (hp : code.Carries E owned o) :
    (write f code).Carries E owned o := by
  refine carries_act (fun s s' hE hs => ?_) hp
  cases hs
  exact hf s hE

end Carries

end Prog

end CLib
