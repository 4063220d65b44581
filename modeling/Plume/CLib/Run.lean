import Mathlib.Tactic

/-! Runs over a list of inputs: what holds behind every prefix and across every input,
first of the lists themselves, then of the states of a transition system. -/

namespace CLib

section Prefix

variable {α : Type} {l : List α}

theorem prefix_snoc {pre : List α} {a : α} (h : pre ++ [a] <+: l) : pre <+: l :=
  (List.prefix_append pre [a]).trans h

theorem forall_snoc_prefix_nil {P : List α → α → Prop} (pre : List α) (a : α)
    (h : pre ++ [a] <+: []) : P pre a :=
  absurd (List.prefix_nil.1 h) (by simp)

theorem forall_snoc_prefix_cons {P : List α → α → Prop} {x : α} :
    (∀ pre a, pre ++ [a] <+: x :: l → P pre a) ↔ P [] x ∧ ∀ pre a, pre ++ [a] <+: l → P
    (x :: pre) a := by
  constructor
  · intro h
    refine ⟨h [] x ?_, fun pre a hpre => h (x :: pre) a ?_⟩
    · exact (List.prefix_cons_inj x).2 List.nil_prefix
    · exact (List.prefix_cons_inj x).2 hpre
  · rintro ⟨h0, h⟩ pre a hpre
    cases pre with
    | nil =>
      obtain ⟨rfl, -⟩ := List.cons_prefix_cons.1 hpre
      exact h0
    | cons y pre =>
      obtain ⟨rfl, hrest⟩ := List.cons_prefix_cons.1 hpre
      exact h pre a hrest

/-- A property `P` of all prefixes and a property `Q` of all steps, by what each input
adds to them. -/
theorem forall_prefix_iff {P : List α → Prop} {Q C : List α → α → Prop} (h0 : P [])
    (hstep : ∀ pre a, pre ++ [a] <+: l → P pre → (P (pre ++ [a]) ∧ Q pre a ↔ C pre a)) :
    ((∀ pre, pre <+: l → P pre) ∧ ∀ pre a, pre ++ [a] <+: l → Q pre a) ↔
      ∀ pre a, pre ++ [a] <+: l → C pre a := by
  constructor
  · intro ⟨hP, hQ⟩ pre a hpre
    exact (hstep pre a hpre (hP pre (prefix_snoc hpre))).1 ⟨hP _ hpre, hQ _ _ hpre⟩
  · intro h
    have hP : ∀ pre, pre <+: l → P pre := by
      intro pre
      induction pre using List.reverseRecOn with
      | nil => exact fun _ => h0
      | append_singleton pre a ih =>
        intro hpre
        exact ((hstep pre a hpre (ih (prefix_snoc hpre))).2 (h pre a hpre)).1
    exact
      ⟨hP, fun pre a hpre => ((hstep pre a hpre (hP pre (prefix_snoc hpre))).2 (h pre a hpre)).2⟩

/-- The same where `P` is too weak to go on from: an invariant `I` of the prefixes that meet the
condition carries the induction. -/
theorem forall_prefix_iff_of_invariant {P I : List α → Prop} {Q C : List α → α → Prop} (h0 : I [])
    (hI : ∀ pre, I pre → P pre)
    (hneed : ∀ pre a, pre ++ [a] <+: l → I pre → P (pre ++ [a]) → Q pre a → C pre a)
    (hkeep : ∀ pre a, pre ++ [a] <+: l → I pre → C pre a → I (pre ++ [a]) ∧ Q pre a) :
    ((∀ pre, pre <+: l → P pre) ∧ ∀ pre a, pre ++ [a] <+: l → Q pre a) ↔
      ∀ pre a, pre ++ [a] <+: l → C pre a := by
  have hinv : (∀ pre a, pre ++ [a] <+: l → I pre → C pre a) → ∀ pre, pre <+: l → I pre := by
    intro hC pre
    induction pre using List.reverseRecOn with
    | nil => exact fun _ => h0
    | append_singleton pre a ih =>
      intro hpre
      have hi := ih (prefix_snoc hpre)
      exact (hkeep pre a hpre hi (hC pre a hpre hi)).1
  constructor
  · intro ⟨hP, hQ⟩
    have hC : ∀ pre a, pre ++ [a] <+: l → I pre → C pre a := fun pre a hpre hi =>
      hneed pre a hpre hi (hP _ hpre) (hQ pre a hpre)
    exact fun pre a hpre => hC pre a hpre (hinv hC pre (prefix_snoc hpre))
  · intro hC
    have hi := hinv fun pre a hpre _ => hC pre a hpre
    exact ⟨fun pre hpre => hI pre (hi pre hpre),
      fun pre a hpre => (hkeep pre a hpre (hi pre (prefix_snoc hpre)) (hC pre a hpre)).2⟩

end Prefix

section System

variable {σ α : Type} (step : σ → α → Option σ)

/-- The state behind a list of actions, if each of them can be taken. -/
def run : σ → List α → Option σ
  | s, [] => some s
  | s, a :: as => (step s a).bind fun s' => run s' as

theorem run_append (s : σ) (as bs : List α) :
    run step s (as ++ bs) = (run step s as).bind fun s' => run step s' bs := by
  induction as generalizing s with
  | nil => rfl
  | cons a as ih =>
    rw [List.cons_append, run, run]
    cases step s a with
    | none => rfl
    | some s' => exact ih s'

theorem run_snoc (s : σ) (as : List α) (a : α) :
    run step s (as ++ [a]) = (run step s as).bind fun s' => step s' a := by
  rw [run_append]
  congr 1
  funext s'
  rw [run]
  cases step s' a <;> rfl

/-- `P` holds in every state the actions lead through. -/
def Always (P : σ → Prop) (s : σ) (as : List α) : Prop :=
  ∀ pre, pre <+: as → ∀ s', run step s pre = some s' → P s'

/-- `C` holds of every step taken, with the states before and behind it. -/
def EachStep (C : σ → α → σ → Prop) (s : σ) (as : List α) : Prop :=
  ∀ pre a, pre ++ [a] <+: as → ∀ s' s'', run step s pre = some s' → step s' a = some s'' →
    C s' a s''

theorem eachStep_nil (C : σ → α → σ → Prop) (s : σ) : EachStep step C s [] := by
  intro pre a hpre
  exact absurd (List.prefix_nil.1 hpre) (by simp)

theorem eachStep_cons {C : σ → α → σ → Prop} {s : σ} {a : α} {as : List α} :
    EachStep step C s (a :: as) ↔
      ∀ s', step s a = some s' → C s a s' ∧ EachStep step C s' as := by
  constructor
  · intro h s' ha
    refine ⟨h [] a (by simp) s s' rfl ha, fun pre b hpre s₁ s₂ hs hb => ?_⟩
    refine h (a :: pre) b ?_ s₁ s₂ ?_ hb
    · exact (List.prefix_cons_inj a).2 hpre
    · rw [run, ha]
      exact hs
  · intro h pre b hpre s₁ s₂ hs hb
    cases pre with
    | nil =>
      obtain rfl := Option.some.inj hs
      obtain ⟨rfl, -⟩ := List.cons_prefix_cons.1 hpre
      exact (h s₂ hb).1
    | cons x pre =>
      obtain ⟨rfl, hrest⟩ := List.cons_prefix_cons.1 hpre
      rw [run, Option.bind_eq_some_iff] at hs
      obtain ⟨s', ha, hs⟩ := hs
      exact (h s' ha).2 pre b hrest s₁ s₂ hs hb

theorem always_cons {P : σ → Prop} {s : σ} {a : α} {as : List α} :
    Always step P s (a :: as) ↔ P s ∧ ∀ s', step s a = some s' → Always step P s' as := by
  constructor
  · intro h
    refine ⟨h [] List.nil_prefix s rfl, fun s' ha pre hpre s'' hs => ?_⟩
    refine h (a :: pre) ((List.prefix_cons_inj a).2 hpre) s'' ?_
    rw [run, ha]
    exact hs
  · intro ⟨h0, h⟩ pre hpre s'' hs
    cases pre with
    | nil =>
      obtain rfl := Option.some.inj hs
      exact h0
    | cons x pre =>
      obtain ⟨rfl, hrest⟩ := List.cons_prefix_cons.1 hpre
      rw [run, Option.bind_eq_some_iff] at hs
      obtain ⟨s', ha, hs⟩ := hs
      exact h s' ha pre hrest s'' hs

/-- `R` holds of every action and the state it finds. -/
def Meets (R : σ → α → Prop) (s : σ) (as : List α) : Prop :=
  ∀ pre a, pre ++ [a] <+: as → ∀ s', run step s pre = some s' → R s' a

theorem meets_nil (R : σ → α → Prop) (s : σ) : Meets step R s [] := by
  intro pre a hpre
  exact absurd (List.prefix_nil.1 hpre) (by simp)

theorem meets_cons {R : σ → α → Prop} {s : σ} {a : α} {as : List α} :
    Meets step R s (a :: as) ↔ R s a ∧ ∀ s', step s a = some s' → Meets step R s' as := by
  constructor
  · intro h
    refine ⟨h [] a (by simp) s rfl, fun s' ha pre b hpre s₁ hs => ?_⟩
    refine h (a :: pre) b ((List.prefix_cons_inj a).2 hpre) s₁ ?_
    rw [run, ha]
    exact hs
  · intro h pre b hpre s₁ hs
    cases pre with
    | nil =>
      obtain rfl := Option.some.inj hs
      obtain ⟨rfl, -⟩ := List.cons_prefix_cons.1 hpre
      exact h.1
    | cons x pre =>
      obtain ⟨rfl, hrest⟩ := List.cons_prefix_cons.1 hpre
      rw [run, Option.bind_eq_some_iff] at hs
      obtain ⟨s', ha, hs⟩ := hs
      exact h.2 s' ha pre b hrest s₁ hs

section Fold

variable {f : σ → α → σ}

/-- Where every action can be taken, a run is a fold. -/
theorem run_fold (f : σ → α → σ) (s : σ) (as : List α) :
    run (fun s a => some (f s a)) s as = some (as.foldl f s) := by
  induction as generalizing s with
  | nil => rfl
  | cons a as ih => exact ih (f s a)

theorem meets_fold {R : σ → α → Prop} {s : σ} {as : List α} :
    Meets (fun s a => some (f s a)) R s as ↔ ∀ pre a, pre ++ [a] <+: as → R (pre.foldl f s) a := by
  unfold Meets
  simp only [run_fold, Option.some.injEq, forall_eq']

end Fold

theorem eachStep_of_mem {p : α → Prop} {s : σ} {as : List α} (h : ∀ a ∈ as, p a) :
    EachStep step (fun _ a _ => p a) s as := by
  intro pre a hpre _ _ _ _
  exact h a (hpre.subset (by simp))

def checkSteps (c : σ → α → σ → Bool) : σ → List α → Bool
  | _, [] => true
  | s, a :: as =>
    match step s a with
    | none => true
    | some s' => c s a s' && checkSteps c s' as

theorem eachStep_of_check {C : σ → α → σ → Prop} {c : σ → α → σ → Bool}
    (hc : ∀ s a s', c s a s' = true → C s a s') {s : σ} {as : List α}
    (h : checkSteps step c s as = true) : EachStep step C s as := by
  induction as generalizing s with
  | nil => exact eachStep_nil step C s
  | cons a as ih =>
    refine (eachStep_cons step).2 fun s' ha => ?_
    rw [checkSteps, ha, Bool.and_eq_true] at h
    exact ⟨hc s a s' h.1, ih h.2⟩

/-- The invariant rule: what holds at the start and is kept by every step the run takes
holds all along it. -/
theorem always_of_invariant {I : σ → Prop} {C : σ → α → σ → Prop} {s : σ} {as : List α} (h0 : I s)
    (hstep : ∀ s a s', I s → C s a s' → step s a = some s' → I s') (hC : EachStep step C s as) :
    Always step I s as := by
  intro pre
  induction pre using List.reverseRecOn with
  | nil =>
    intro _ s' hs
    obtain rfl := Option.some.inj hs
    exact h0
  | append_singleton pre a ih =>
    intro hpre s'' hs
    rw [run_snoc, Option.bind_eq_some_iff] at hs
    obtain ⟨s', hs', ha⟩ := hs
    exact hstep s' a s'' (ih (prefix_snoc hpre) s' hs') (hC pre a hpre s' s'' hs' ha) ha

/-- The same where every step keeps the invariant. -/
theorem always_of_step {I : σ → Prop} {s : σ} (as : List α) (h0 : I s)
    (hstep : ∀ s a s', I s → step s a = some s' → I s') : Always step I s as :=
  always_of_invariant step h0 (fun s a s' h _ ha => hstep s a s' h ha)
    (eachStep_of_mem step fun _ _ => trivial)

/-- Where an invariant lets every action be taken, a run gets through. -/
theorem run_of_invariant {I : σ → Prop} {R : σ → α → Prop} {s : σ} {as : List α} (h0 : I s)
    (hstep : ∀ s a, I s → R s a → ∃ s', step s a = some s' ∧ I s') (hR : Meets step R s as) :
    ∃ s', run step s as = some s' ∧ I s' := by
  induction as using List.reverseRecOn with
  | nil => exact ⟨s, rfl, h0⟩
  | append_singleton as a ih =>
    obtain ⟨s1, h1, hI1⟩ := ih fun pre b hpre => hR pre b (hpre.trans (List.prefix_append as [a]))
    obtain ⟨s2, h2, hI2⟩ := hstep s1 a hI1 (hR as a (List.prefix_refl _) s1 h1)
    exact ⟨s2, by rw [run_snoc, h1, Option.bind_some, h2], hI2⟩

/-- What a property of all states gives at every step the run takes. -/
theorem eachStep_of_always {I : σ → Prop} {C D : σ → α → σ → Prop} {s : σ} {as : List α}
    (h : Always step I s as) (hD : EachStep step D s as)
    (hC : ∀ s a s', I s → D s a s' → step s a = some s' → I s' →
      C s a s') : EachStep step C s as := by
  intro pre a hpre s' s'' hs ha
  refine hC s' a s'' (h pre (prefix_snoc hpre) s' hs) (hD pre a hpre s' s'' hs ha) ha
    (h _ hpre s'' ?_)
  rw [run_snoc, hs]
  exact ha

/-- Between a property of all states and a condition on all steps: an invariant that the condition
keeps, and under which a step that leaves the property true meets it. `D` is what is known of the
steps anyway. -/
theorem always_iff_of_invariant {P I : σ → Prop} {C D : σ → α → σ → Prop} {s : σ} {as : List α}
    (h0 : I s)
    (hD : EachStep step D s as) (hI : ∀ s, I s → P s)
    (hneed : ∀ s a s', I s → D s a s' → step s a = some s' → P s' → C s a s')
    (hkeep : ∀ s a s', I s → D s a s' → step s a = some s' → C s a s' → I s') :
    Always step P s as ↔ EachStep step C s as := by
  induction as generalizing s with
  | nil =>
    refine iff_of_true ?_ (eachStep_nil step C s)
    intro pre hpre s' hs
    rw [List.prefix_nil.1 hpre] at hs
    cases hs
    exact hI s h0
  | cons a as ih =>
    rw [eachStep_cons] at hD
    rw [always_cons, eachStep_cons, and_iff_right (hI s h0)]
    refine forall₂_congr fun s' ha => ?_
    obtain ⟨hd, hrest⟩ := hD s' ha
    constructor
    · intro h
      have hc := hneed s a s' h0 hd ha (h [] List.nil_prefix s' rfl)
      exact ⟨hc, (ih (hkeep s a s' h0 hd ha hc) hrest).1 h⟩
    · rintro ⟨hc, h⟩
      exact (ih (hkeep s a s' h0 hd ha hc) hrest).2 h

variable {step} in
theorem EachStep.and {C D : σ → α → σ → Prop} {s : σ} {as : List α} (hC : EachStep step C s as)
    (hD : EachStep step D s as) : EachStep step (fun s a s' => C s a s' ∧ D s a s') s as :=
  fun pre a hpre s' s'' hs ha => ⟨hC pre a hpre s' s'' hs ha, hD pre a hpre s' s'' hs ha⟩

variable {step} in
theorem Always.last {P : σ → Prop} {s s' : σ} {as : List α} (h : Always step P s as)
    (hrun : run step s as = some s') :
    P s' :=
  h as (List.prefix_refl _) s' hrun

variable {step} in
theorem Always.mono {P Q : σ → Prop} {s : σ} {as : List α} (hPQ : ∀ s, P s → Q s)
    (h : Always step P s as) : Always step Q s as :=
  fun pre hpre s' hs => hPQ s' (h pre hpre s' hs)

section Reaches

def Reaches (s s' : σ) : Prop := ∃ as, run step s as = some s'

variable {step} {s s₁ s' : σ}

theorem Reaches.refl (s : σ) : Reaches step s s := ⟨[], rfl⟩

theorem Reaches.of_run {as : List α} (h : run step s as = some s') : Reaches step s s' := ⟨as, h⟩

theorem Reaches.trans (h : Reaches step s s₁) (h' : Reaches step s₁ s') : Reaches step s s' := by
  obtain ⟨as, has⟩ := h
  obtain ⟨bs, hbs⟩ := h'
  exact ⟨as ++ bs, by rw [run_append, has, Option.bind_some, hbs]⟩

theorem Reaches.next {a : α} (h : Reaches step s s₁) (ha : step s₁ a = some s') :
    Reaches step s s' :=
  h.trans ⟨[a], by rw [run, ha]; rfl⟩

/-- What holds all along every run holds of what can be reached. -/
theorem Reaches.always {P : σ → Prop} (h : Reaches step s s') (hP : ∀ as, Always step P s as) :
    P s' := by
  obtain ⟨as, has⟩ := h
  exact (hP as).last has

end Reaches

end System

end CLib
