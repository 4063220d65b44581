import Plume.Master

/-! The signal mask of a worker is the one of the process that forked it, and blocking only
adds to it. What the first worker inherits is the mask `main` was started with; what the
workers forked in `plm_master_proc_loop` inherit is the mask of the master. -/

namespace Plume
open CLib

structure Unblocked (mask : Finset Signo) : Prop where
  quit : .quit ∉ mask
  int : .int ∉ mask
  term : .term ∉ mask

/-- Every worker in `plm_worker_proc_loop` can be told to quit. -/
def CanBeTold (m : Master) : Prop :=
  ∀ (i : ℕ) (w : Worker), m.workers[i]? = some w → w.entered = true → Unblocked w.mask

/-- The worker that enters the loop is the one `main` forked, with a mask that lets the
signals through. -/
def FromMain (mask : Finset Signo) (_ : Master) (a : MasterAct) (_ : Master) : Prop :=
  ∀ i, a = .enter i → i = 0 ∧ Unblocked mask

theorem blockSignalMaster_eq (mask : Finset Signo) :
    blockSignalMaster mask = mask ∪ {.chld, .quit, .int, .term, .hup} := by
  have h : plmSig.foldl (fun set s => if s.s_master_block then insert s.s_signo set else set) ∅ =
      ({.chld, .quit, .int, .term, .hup} : Finset Signo) := by decide
  rw [blockSignalMaster, blockSignals, h]

theorem blockSignalWorker_eq (mask : Finset Signo) :
    blockSignalWorker mask = mask ∪ {.chld, .hup} := by
  have h : plmSig.foldl (fun set s => if s.s_worker_block then insert s.s_signo set else set) ∅ =
      ({.chld, .hup} : Finset Signo) := by decide
  rw [blockSignalWorker, blockSignals, h]

theorem unblocked_worker (mask : Finset Signo) :
    Unblocked (blockSignalWorker mask) ↔ Unblocked mask := by
  rw [blockSignalWorker_eq]
  constructor
  · intro ⟨hq, hi, ht⟩
    exact ⟨fun h => hq (Finset.mem_union_left _ h), fun h => hi (Finset.mem_union_left _ h),
      fun h => ht (Finset.mem_union_left _ h)⟩
  · intro ⟨hq, hi, ht⟩
    refine ⟨?_, ?_, ?_⟩
    all_goals simp only [Finset.mem_union, not_or]
    · exact ⟨hq, by decide⟩
    · exact ⟨hi, by decide⟩
    · exact ⟨ht, by decide⟩

theorem not_unblocked_master (mask : Finset Signo) : ¬ Unblocked (blockSignalMaster mask) := by
  rw [blockSignalMaster_eq]
  intro h
  exact h.quit (Finset.mem_union_right _ (by decide))

def inherited (mask : Finset Signo) (i : ℕ) : Finset Signo :=
  if i = 0 then mask else blockSignalMaster mask

def Master.masks (m : Master) : List (Finset Signo × Bool) :=
  m.workers.map fun w => (w.mask, w.entered)

/-- The mask of the master in each phase, and whether it has forked. -/
def Phase.Masked (mask : Finset Signo) (k : Finset Signo) (ws : List (Finset Signo × Bool)) :
    Phase → Prop
  | .boot => k = mask ∧ ws = []
  | .forked _ | .assigned => k = mask ∧ ws ≠ []
  | .suspended _ => k = blockSignalMaster mask ∧ ws ≠ []
  | .exited => True

structure Masks (mask : Finset Signo) (m : Master) : Prop where
  phase : m.phase.Masked mask m.mask m.masks
  workers : ∀ i w, m.masks[i]? = some w →
    w.1 = if w.2 then blockSignalWorker (inherited mask i) else inherited mask i

theorem masks_boot (mask : Finset Signo) : Masks mask (masterBoot mask) where
  phase := ⟨rfl, rfl⟩
  workers i w h := by simp [Master.masks, masterBoot] at h

section Step

variable {m m' : Master} {mask : Finset Signo}

theorem Masks.same (h : Masks mask m) (hphase : m'.phase.Masked mask m'.mask m.masks)
    (hmasks : m'.masks = m.masks) : Masks mask m' where
  phase := hmasks ▸ hphase
  workers := hmasks ▸ h.workers

theorem masks_life {i : ℕ} {w : Worker} (life : Life) (hw : m.workers[i]? = some w) :
    (m.workers.set i { w with life := life }).map (fun w => (w.mask, w.entered)) = m.masks := by
  obtain ⟨hlt, rfl⟩ := List.getElem?_eq_some_iff.1 hw
  apply List.ext_getElem?
  intro j
  rw [Master.masks, List.getElem?_map, List.getElem?_map]
  rcases eq_or_ne i j with rfl | hij
  · rw [List.getElem?_set_self hlt, List.getElem?_eq_getElem hlt]
    rfl
  · rw [List.getElem?_set_ne hij]

/-- A worker is forked with the mask the master has then. -/
theorem Masks.forked {pid : ℕ} (h : Masks mask m) (hk : m.mask = inherited mask m.workers.length)
    (hphase : m'.phase.Masked mask m'.mask m'.masks)
    (hworkers : m'.workers = m.workers ++ [⟨pid, m.mask, false, .alive⟩]) : Masks mask m' := by
  refine ⟨hphase, fun i w hw => ?_⟩
  rw [Master.masks, hworkers, List.map_append, List.map_singleton] at hw
  rcases lt_trichotomy i m.workers.length with hlt | heq | hgt
  · rw [List.getElem?_append_left (by simpa using hlt)] at hw
    exact h.workers i w hw
  · subst heq
    simp only [List.length_map, le_refl, List.getElem?_append_right, Nat.sub_self,
      List.getElem?_cons_zero, Option.some.injEq] at hw
    subst hw
    simpa using hk
  · rw [List.getElem?_eq_none (by simp; omega)] at hw
    exact absurd hw (by simp)

theorem Masks.enter {i : ℕ} {w : Worker} (h : Masks mask m) (hw : m.workers[i]? = some w)
    (he : w.entered = false) : Masks mask { m with
      workers :=
        m.workers.set i { w with mask := blockSignalWorker w.mask, entered := true } } := by
  obtain ⟨hlt, hwi⟩ := List.getElem?_eq_some_iff.1 hw
  have hne : m.masks ≠ [] := by
    intro hnil
    rw [List.map_eq_nil_iff.1 hnil] at hlt
    simp at hlt
  have hold : w.mask = inherited mask i := by
    have hm := h.workers i (w.mask, w.entered) (by rw [Master.masks, List.getElem?_map, hw]; rfl)
    simpa [he] using hm
  refine ⟨?_, fun j v hv => ?_⟩
  · have hph := h.phase
    cases hp : m.phase <;> simp only [hp] at hph ⊢
    case boot => exact absurd hph.2 hne
    case exited => trivial
    all_goals exact ⟨hph.1, by simpa [Master.masks] using hne⟩
  · rw [Master.masks, List.getElem?_map] at hv
    rcases eq_or_ne i j with rfl | hij
    · simp only [List.getElem?_set_self hlt, Option.map_some, Option.some.injEq] at hv
      subst hv
      simp [hold]
    · simp only [List.getElem?_set_ne hij] at hv
      exact h.workers j v (by rw [Master.masks, List.getElem?_map]; exact hv)

theorem Masks.step {a : MasterAct} (h : Masks mask m) (hs : masterStep m a = some m') :
    Masks mask m' := by
  have hph := h.phase
  cases a with
  | fork res =>
    obtain ⟨hb, -, rfl | ⟨pid, rfl⟩⟩ := masterStep_cases hs
    · exact h.same trivial rfl
    · rw [hb] at hph
      refine h.forked ?_ ⟨hph.1, by simp [Master.masks]⟩ rfl
      have hnil : m.workers = [] := List.map_eq_nil_iff.1 hph.2
      rw [hph.1, hnil]
      rfl
  | assign =>
    obtain ⟨pid, hp, rfl⟩ := masterStep_cases hs
    rw [hp] at hph
    exact h.same hph rfl
  | block =>
    obtain ⟨hb, rfl⟩ := masterStep_cases hs
    rw [hb] at hph
    exact h.same ⟨by rw [hph.1], hph.2⟩ rfl
  | deliver signo =>
    obtain ⟨-, rfl⟩ := masterStep_cases hs
    refine h.same ?_ rfl
    cases hp : m.phase <;> simp only [hp] at hph ⊢ <;> exact hph
  | handler =>
    obtain ⟨f, rest, -, hs⟩ := masterStep_cases hs
    obtain ⟨hp, hk, hw⟩ := handlerStep_frame hs
    have hmasks : m'.masks = m.masks := by
      rcases hw with hw | ⟨i, w, hi, hw⟩
      · rw [Master.masks, hw, Master.masks]
      · rw [Master.masks, hw, masks_life .reaped hi]
    exact h.same (by rw [hp, hk]; exact hph) hmasks
  | pass res =>
    obtain ⟨hb, -, m₁, hr, rfl⟩ := masterStep_cases hs
    rw [hb] at hph
    obtain ⟨hp, hk, hw⟩ := replace_frame hr
    have h₁ : Masks mask m₁ := by
      rcases hw with hw | ⟨pid, hw⟩
      · have hmasks : m₁.masks = m.masks := by rw [Master.masks, hw, Master.masks]
        exact h.same (by rw [hp, hk, hb]; exact hph) hmasks
      · have hlen : m.workers.length ≠ 0 := by simpa [Master.masks] using hph.2
        refine h.forked (by rw [hph.1, inherited, if_neg hlen]) ?_ hw
        rw [hp, hk, hb]
        exact ⟨hph.1, by simp [Master.masks, hw]⟩
    have hph₁ := h₁.phase
    rw [hp, hb] at hph₁
    obtain ⟨hk', hw', hp'⟩ := signal_frame m₁ m.quit
    have hmasks : (m₁.signal m.quit).masks = m₁.masks := by rw [Master.masks, hw', Master.masks]
    rcases hp' with hp' | hp'
    · exact h₁.same (by rw [hp', hk']; exact hph₁) hmasks
    · exact h₁.same (by rw [hp']; trivial) hmasks
  | die i status =>
    obtain ⟨w, hw, -, rfl⟩ := masterStep_cases hs
    exact h.same hph (masks_life (.dead status) hw)
  | enter i =>
    obtain ⟨w, hw, -, he, rfl⟩ := masterStep_cases hs
    exact h.enter hw he

/-- Only a worker that enters its loop comes to be in it. -/
theorem masterStep_entered {a : MasterAct} (hs : masterStep m a = some m') {i : ℕ}
    {k : Finset Signo}
    (hi : m'.masks[i]? = some (k, true)) : a = .enter i ∨ ∃ k, m.masks[i]? = some (k, true) := by
  have hold : m'.masks = m.masks → a = .enter i ∨ ∃ k, m.masks[i]? = some (k, true) :=
    fun h => .inr ⟨k, h ▸ hi⟩
  have hfork : ∀ k', m'.masks = m.masks ++ [(k', false)] → a = .enter i ∨ ∃ k, m.masks[i]? = some
    (k, true) := by
    intro k' h
    rw [h] at hi
    rcases lt_or_ge i m.masks.length with hlt | hge
    · rw [List.getElem?_append_left hlt] at hi
      exact .inr ⟨k, hi⟩
    · have hmem : (k, true) ∈ [(k', false)] := by
        rw [List.getElem?_append_right hge] at hi
        exact List.mem_of_getElem? hi
      simp at hmem
  cases a with
  | fork res =>
    obtain ⟨-, -, rfl | ⟨pid, rfl⟩⟩ := masterStep_cases hs
    · exact hold rfl
    · exact hfork m.mask (by simp [Master.masks])
  | assign =>
    obtain ⟨pid, -, rfl⟩ := masterStep_cases hs
    exact hold rfl
  | block =>
    obtain ⟨-, rfl⟩ := masterStep_cases hs
    exact hold rfl
  | deliver signo =>
    obtain ⟨-, rfl⟩ := masterStep_cases hs
    exact hold rfl
  | handler =>
    obtain ⟨f, rest, -, hs⟩ := masterStep_cases hs
    obtain ⟨-, -, hw | ⟨j, w, hj, hw⟩⟩ := handlerStep_frame hs
    · exact hold (by rw [Master.masks, hw, Master.masks])
    · exact hold (by rw [Master.masks, hw, masks_life .reaped hj])
  | pass res =>
    obtain ⟨-, -, m₁, hr, rfl⟩ := masterStep_cases hs
    obtain ⟨-, hw', -⟩ := signal_frame m₁ m.quit
    obtain ⟨-, -, hw | ⟨pid, hw⟩⟩ := replace_frame hr
    · exact hold (by rw [Master.masks, hw', hw, Master.masks])
    · exact hfork m.mask (by simp [Master.masks, hw', hw])
  | die j status =>
    obtain ⟨w, hw, -, rfl⟩ := masterStep_cases hs
    exact hold (masks_life (.dead status) hw)
  | enter j =>
    obtain ⟨w, hw, -, -, rfl⟩ := masterStep_cases hs
    rcases eq_or_ne j i with rfl | hji
    · exact .inl rfl
    · rw [Master.masks, List.getElem?_map, List.getElem?_set_ne hji, ← List.getElem?_map] at hi
      exact .inr ⟨k, hi⟩

end Step

def OnlyFromMain (mask : Finset Signo) (m : Master) : Prop :=
  ∀ (i : ℕ) (k : Finset Signo), m.masks[i]? = some (k, true) → i = 0 ∧ Unblocked mask

theorem Masks.canBeTold {mask : Finset Signo} {m : Master} (h : Masks mask m) :
    CanBeTold m ↔ OnlyFromMain mask m := by
  have hmask : ∀ (i : ℕ) (k : Finset Signo), m.masks[i]? = some (k, true) →
      (Unblocked k ↔ i = 0 ∧ Unblocked mask) := by
    intro i k hk
    have hm : k = blockSignalWorker (inherited mask i) := by simpa using h.workers i (k, true) hk
    rw [hm, unblocked_worker, inherited]
    split_ifs with hi
    · exact (and_iff_right hi).symm
    · exact iff_of_false (not_unblocked_master mask) fun h => hi h.1
  constructor
  · intro ht i k hk
    rw [Master.masks, List.getElem?_map] at hk
    obtain ⟨w, hw, hwk⟩ := Option.map_eq_some_iff.1 hk
    obtain ⟨rfl, he⟩ := Prod.mk.inj hwk
    exact (hmask i w.mask (by rw [Master.masks, List.getElem?_map, hw, Option.map_some, he])).1
      (ht i w hw he)
  · intro hc i w hw he
    have hk : m.masks[i]? = some (w.mask, true) := by
      rw [Master.masks, List.getElem?_map, hw, Option.map_some, he]
    exact (hmask i w.mask hk).2 (hc i w.mask hk)

/-- In every run of the master, the workers can be told to quit if and only if none of them
was forked from `plm_master_proc_loop` and the mask the program was started with lets the
signals through. -/
theorem canBeTold_iff (mask : Finset Signo) (as : List MasterAct) :
    Always masterStep CanBeTold (masterBoot mask) as ↔
      EachStep masterStep (FromMain mask) (masterBoot mask) as := by
  have hmasks : Always masterStep (Masks mask) (masterBoot mask) as :=
    always_of_step masterStep as (masks_boot mask) fun _ _ _ h hs => h.step hs
  constructor
  · intro h pre a hpre m m' hm ha i hi
    subst hi
    have hm' : run masterStep (masterBoot mask) (pre ++ [.enter i]) = some m' := by
      rw [run_snoc, hm]
      exact ha
    obtain ⟨w, hw, -, -, rfl⟩ := masterStep_cases ha
    refine (hmasks _ hpre _ hm').canBeTold.1 (h _ hpre _ hm') i (blockSignalWorker w.mask) ?_
    rw [Master.masks, List.getElem?_map, List.getElem?_set_self (List.getElem?_eq_some_iff.1 hw).1]
    rfl
  · intro h
    have hboot : OnlyFromMain mask (masterBoot mask) := by
      intro i k hk
      simp [Master.masks, masterBoot] at hk
    have honly : Always masterStep (OnlyFromMain mask) (masterBoot mask) as := by
      refine always_of_invariant masterStep hboot ?_ h
      intro m a m' hm hc hs i k hk
      rcases masterStep_entered hs hk with rfl | ⟨k', hk'⟩
      · exact hc i rfl
      · exact hm i k' hk'
    exact fun pre hpre m hm => (hmasks pre hpre m hm).canBeTold.2 (honly pre hpre m hm)

/-- The first worker is killed, the master replaces it, and the second one enters its loop. -/
def reforked : List MasterAct :=
  [.fork (some 7), .assign, .block, .enter 0, .die 0 (.signaled 9), .deliver .chld, .handler,
    .handler, .handler, .handler, .handler, .pass (some 8), .enter 1]

theorem not_canBeTold : ¬ ∀ as, Always masterStep CanBeTold (masterBoot ∅) as := by
  intro h
  have hsome : (run masterStep (masterBoot ∅) reforked).map Master.masks =
      some [({.chld, .hup}, true), ({.chld, .quit, .int, .term, .hup}, true)] := by decide +kernel
  obtain ⟨m, hm, hmasks⟩ := Option.map_eq_some_iff.1 hsome
  have hw : m.masks[1]? = some ({.chld, .quit, .int, .term, .hup}, true) := by rw [hmasks]; rfl
  rw [Master.masks, List.getElem?_map] at hw
  obtain ⟨w, hw, hk⟩ := Option.map_eq_some_iff.1 hw
  obtain ⟨hmask, he⟩ := Prod.mk.inj hk
  have hq := (h reforked reforked (List.prefix_refl _) m hm 1 w hw he).quit
  rw [hmask] at hq
  exact hq (by decide)

end Plume
