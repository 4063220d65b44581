import Plume.Rounds

/-! Whether `plm_threads_run` comes back: the main thread waits for all threads to be counted at one
time, while a thread that could not be made never is, and one that was told to quit before the
others were up is no more. -/

namespace Plume
open CLib

section Hang

variable {s s' : Threads} {a : ThreadAct} {j : ℕ}

def Point.mainOnly : Point → Bool
  | .boot | .create _ | .store | .poll | .exit | .endThreads => true
  | _ => false

structure Waiting (s : Threads) : Prop where
  seats : Seats s
  created : Created s
  roles : ∀ j, j ≠ 0 → (s.point j).mainOnly = false

theorem waiting_boot (thrdn : ℕ) (cpu : Option CpuAffinity) : Waiting (threadsBoot thrdn cpu) where
  seats := seats_boot thrdn cpu
  created := created_boot thrdn cpu
  roles j hj := by rw [show (threadsBoot thrdn cpu).point j = .absent from if_neg hj]; rfl

theorem Moves.roles {point : ℕ → Point} {q : Point} (h : Moves point a j q) (hj : j ≠ 0) :
    q.mainOnly = false := by
  cases h with
  | boot | create | store | poll | exit | endThreads => exact absurd rfl hj
  | check _ hq => obtain rfl | rfl := hq <;> rfl
  | proc _ _ hq =>
    obtain hq | rfl := hq
    · cases q <;> first | rfl | cases hq
    · rw [if_neg hj]
      rfl
  | _ => rfl

/-- The main thread has yet to make the threads, or waits for them. -/
def Point.starting : Point → Bool
  | .boot | .create _ | .store | .poll => true
  | _ => false

theorem Moves.of_starting {point : ℕ → Point} {q : Point} (h : Moves point a 0 q)
    (hq : q.starting = true) :
    (point 0).starting = true ∧ ∀ e, a ≠ .bootFails e := by
  cases h with
  | boot hp | create ok hp | store hp =>
    rw [hp]
    exact ⟨rfl, nofun⟩
  | check _ hq' => obtain rfl | rfl := hq' <;> cases hq
  | proc _ _ hq' =>
    obtain hq' | rfl := hq'
    · cases q <;> simp [Point.starting, Point.inProc] at hq hq'
    · cases hq
  | _ => cases hq

/-- Until the threads are up, `tm_thrdn` is the number that was asked for. -/
theorem Created.num_kept {thrdn : ℕ} (hc : Created s)
    (h : (s.point 0).starting = true → s.tm_thrdn = thrdn)
    (hs : threadStep s a = some s') (hp : (s'.point 0).starting = true) : s'.tm_thrdn = thrdn := by
  obtain ⟨hp, hfails⟩ : (s.point 0).starting = true ∧ ∀ e, a ≠ .bootFails e := by
    obtain heq | hm := hc.moves hs 0
    · refine ⟨heq ▸ hp, fun e ha => ?_⟩
      subst ha
      obtain ⟨-, -, ⟨-, rfl⟩ | ⟨-, rfl⟩⟩ := threadStep_cases hs <;> cases hp
    · exact hm.of_starting hp
  exact ((threadStep_frame hs).thrdn hfails).trans (h hp)

theorem Waiting.step (h : Waiting s) (hs : threadStep s a = some s') : Waiting s' := by
  refine ⟨h.seats.step h.created hs, h.created.step hs, fun j hj => ?_⟩
  obtain heq | hm := h.created.moves hs j
  · rw [heq]
    exact h.roles j hj
  · exact hm.roles hj

/-- Without one of the threads the count never gets to the end. -/
theorem Seats.short (h : Seats s) (hj : j ≠ 0) (hlt : j < s.tm_thrdn)
    (hgone : (s.point j).counted = false) :
    s.tm_active_thrdn < s.tm_thrdn - 1 := by
  have hsub : crew s ⊆ ((Finset.range s.tm_thrdn).erase 0).erase j := by
    intro i hi
    rw [mem_crew] at hi
    refine Finset.mem_erase.2 ⟨?_, Finset.mem_erase.2 ⟨hi.2.1, Finset.mem_range.2 hi.1⟩⟩
    rintro rfl
    rw [hgone] at hi
    exact absurd hi.2.2 (by simp)
  have hcard := Finset.card_le_card hsub
  rw [← h.count, Finset.card_erase_of_mem (Finset.mem_erase.2 ⟨hj, Finset.mem_range.2 hlt⟩),
    Finset.card_erase_of_mem (Finset.mem_range.2 (Nat.zero_lt_of_lt hlt)),
    Finset.card_range] at hcard
  omega

/-- The main thread goes on only when all are counted. -/
theorem poll_short (hs : threadStep s .poll = some s')
    (hshort : s.tm_active_thrdn < s.tm_thrdn - 1) : s'.point 0 = s.point 0 := by
  simp only [threadStep] at hs
  split_ifs at hs with hp hact
  · omega
  · cases hs
    rfl

/-- The main thread waits, and one of the threads is missing. -/
structure Hangs (thrdn j : ℕ) (s : Threads) : Prop where
  waiting : Waiting s
  num : s.tm_thrdn = thrdn
  main : s.point 0 = .poll
  gone : (s.point j).gone

theorem Hangs.step {thrdn : ℕ} (h : Hangs thrdn j s) (hj : j ≠ 0) (hlt : j < thrdn)
    (hs : threadStep s a = some s') :
    Hangs thrdn j s' := by
  have hpoll : ∀ p, s.point 0 = p → p = .poll := fun p hp => hp ▸ h.main
  have hgone : s'.point j = s.point j :=
    h.waiting.created.gone_kept hs (fun i hi => nomatch hpoll _ hi) h.gone
  have hstarted : s.point 0 ≠ .boot := h.main ▸ nofun
  refine ⟨h.waiting.step hs, (threadStep_thrdn_started hs hstarted).trans h.num, ?_, hgone ▸ h.gone⟩
  obtain heq | hm := h.waiting.created.moves hs 0
  · exact heq.trans h.main
  generalize hq : s'.point 0 = q at hm
  cases hm with
  | poll hp =>
    have hshort : s.tm_active_thrdn < s.tm_thrdn - 1 := by
      refine h.waiting.seats.short hj (h.num ▸ hlt) ?_
      obtain hg | hg := h.gone <;> rw [hg] <;> rfl
    exact hq.symm.trans ((poll_short hs hshort).trans h.main)
  | proc hp hproc => cases hpoll _ hp ▸ hproc
  | made hp | boot hp | bootFails _ hp | create _ hp | store hp | wait hp | inc hp | check hp
    | dec hp | exit hp
  | endThreads hp =>
    exact absurd (hpoll _ hp) nofun

theorem Hangs.forever {thrdn : ℕ} (h : Hangs thrdn j s) (hj : j ≠ 0) (hlt : j < thrdn)
    (hr : Reaches threadStep s s') :
    s'.point 0 = .poll :=
  (hr.always fun as => always_of_step threadStep as h fun _ _ _ h hs => h.step hj hlt hs).main

end Hang

section Up

variable {s : Threads} {thrdn : ℕ}

structure Complete (thrdn : ℕ) (s : Threads) : Prop where
  waiting : Waiting s
  num : s.tm_thrdn = thrdn
  main : s.point 0 = .poll
  there : ∀ j, j ≠ 0 → j < thrdn → ¬ (s.point j).gone

/-- A thread that is not counted has yet to wake up. -/
theorem Complete.uncounted (h : Complete thrdn s) (hact : s.tm_active_thrdn < s.tm_thrdn - 1) :
    ∃ j, j ≠ 0 ∧ j < thrdn ∧ (s.point j = .wait ∨ s.point j = .inc) := by
  by_contra hall
  push Not at hall
  have hsub : (Finset.range s.tm_thrdn).erase 0 ⊆ crew s := by
    intro j hj
    obtain ⟨hj0, hlt⟩ := Finset.mem_erase.1 hj
    have hlt := Finset.mem_range.1 hlt
    refine mem_crew.2 ⟨hlt, hj0, ?_⟩
    have hrole := h.waiting.roles j hj0
    have hthere := h.there j hj0 (h.num ▸ hlt)
    obtain ⟨hwait, hinc⟩ := hall j hj0 (h.num ▸ hlt)
    generalize s.point j = p at *
    cases p <;>
      first
      | rfl
      | (exfalso; revert hrole hthere hwait hinc; simp [Point.mainOnly, Point.gone])
  have hcard := Finset.card_le_card hsub
  rw [← h.waiting.seats.count, Finset.card_erase_of_mem (Finset.mem_range.2 (by omega)),
    Finset.card_range] at hcard
  omega

theorem Complete.next {a : ThreadAct} {s' : Threads} (h : Complete thrdn s)
    (hs : threadStep s a = some s')
    (hmain : s'.point 0 = s.point 0)
    (hthere : ∀ j, j ≠ 0 → s'.point j = s.point j ∨ ¬ (s'.point j).gone) :
    Complete thrdn s' := by
  have hstarted : s.point 0 ≠ .boot := h.main ▸ nofun
  refine ⟨h.waiting.step hs, (threadStep_thrdn_started hs hstarted).trans h.num, hmain.trans h.main,
    fun j hj hlt => ?_⟩
  obtain heq | hne := hthere j hj
  · rw [heq]
    exact h.there j hj hlt
  · exact hne

theorem Complete.wake (h : Complete thrdn s) (hact : s.tm_active_thrdn < s.tm_thrdn - 1) :
    ∃ s', Reaches threadStep s s' ∧ Complete thrdn s' ∧
      s'.tm_active_thrdn = s.tm_active_thrdn + 1 := by
  obtain ⟨j, hj, hlt, hp⟩ := h.uncounted hact
  have hinc : ∀ s : Threads, Complete thrdn s → s.point j = .inc →
    ∃ s', Reaches threadStep s s' ∧ Complete thrdn s' ∧
      s'.tm_active_thrdn = s.tm_active_thrdn + 1 := by
    intro s h hp
    have hs : threadStep s (.inc j) = some _ := if_pos hp
    refine ⟨_, (Reaches.refl s).next hs, h.next hs (if_neg hj.symm) fun k hk => ?_, rfl⟩
    rcases eq_or_ne k j with rfl | hkj
    · refine .inr ?_
      simp [Threads.goto, Point.gone]
    · exact .inl (if_neg hkj)
  have hwait : ∀ s : Threads, Complete thrdn s → s.e_signaled = true → s.point j = .wait →
    ∃ s', Reaches threadStep s s' ∧
      Complete thrdn s' ∧ s'.tm_active_thrdn = s.tm_active_thrdn + 1 := by
    intro s h hsig hp
    have hs : threadStep s (.wait j) = some (s.goto j .inc) := if_pos ⟨hp, hsig⟩
    have h₁ : Complete thrdn (s.goto j .inc) := by
      refine h.next hs (if_neg hj.symm) fun k hk => ?_
      rcases eq_or_ne k j with rfl | hkj
      · refine .inr ?_
        simp [Threads.goto, Point.gone]
      · exact .inl (if_neg hkj)
    obtain ⟨s', hr, h', hact⟩ := hinc _ h₁ (if_pos rfl)
    exact ⟨s', ((Reaches.refl s).next hs).trans hr, h', hact⟩
  rcases hp with hp | hp
  · have hs : threadStep s .poll = some { s with e_signaled := true } :=
      (if_pos h.main).trans (if_neg (by omega))
    obtain ⟨s', hr, h', hact⟩ := hwait _ (h.next hs rfl fun k _ => .inl rfl) rfl hp
    exact ⟨s', ((Reaches.refl s).next hs).trans hr, h', hact⟩
  · exact hinc s h hp

theorem Complete.through (h : Complete thrdn s) :
    ∃ s', Reaches threadStep s s' ∧ s'.point 0 = .openLog := by
  induction hk : s.tm_thrdn - 1 - s.tm_active_thrdn generalizing s with
  | zero =>
    have hs : threadStep s .poll = some (s.goto 0 .openLog) :=
      (if_pos h.main).trans (if_pos (by omega))
    exact ⟨_, (Reaches.refl s).next hs, rfl⟩
  | succ k ih =>
    obtain ⟨s₁, hr₁, h₁, hact⟩ := h.wake (by omega)
    obtain ⟨s', hr, hp⟩ := ih h₁ (by rw [hact, h₁.num, ← h.num]; omega)
    exact ⟨s', hr₁.trans hr, hp⟩

/-- The main thread that waits in `plm_threads_run` can still come through if and only if every
other thread was made and has not ended. -/
theorem threadsRun_returns_iff (thrdn : ℕ) (cpu : Option CpuAffinity) (as : List ThreadAct)
    (s : Threads)
    (hs : run threadStep (threadsBoot thrdn cpu) as = some s) (hp : s.point 0 = .poll) :
    (∃ s', Reaches threadStep s s' ∧ s'.point 0 = .openLog) ↔
      ∀ j, j ≠ 0 → j < thrdn → s.point j ≠ .absent ∧ s.point j ≠ .done := by
  have hinv : Waiting s ∧ s.tm_thrdn = thrdn := by
    have hrun : Always threadStep (fun s => Waiting s ∧
      ((s.point 0).starting = true → s.tm_thrdn = thrdn))
        (threadsBoot thrdn cpu) as :=
      always_of_step threadStep as ⟨waiting_boot thrdn cpu, fun _ => rfl⟩ fun _ _ _ h hs =>
        ⟨h.1.step hs, h.1.created.num_kept h.2 hs⟩
    exact ⟨(hrun.last hs).1, (hrun.last hs).2 (by rw [hp]; rfl)⟩
  constructor
  · rintro ⟨s', hr, hp'⟩ j hj hlt
    refine not_or.1 fun hgone => ?_
    have hhangs : Hangs thrdn j s := ⟨hinv.1, hinv.2, hp, hgone⟩
    rw [hhangs.forever hj hlt hr] at hp'
    cases hp'
  · intro hall
    exact Complete.through ⟨hinv.1, hinv.2, hp, fun j hj hlt => not_or.2 (hall j hj hlt)⟩

def oneFailed : List ThreadAct := [.boot, .create false, .create true, .store]

theorem threadsRun_returns_iff_failed :
    ∃ s, run threadStep (threadsBoot 2 none) oneFailed = some s ∧
    ¬ ∃ s', Reaches threadStep s s' ∧ s'.point 0 = .openLog := by
  refine ⟨_, rfl, fun h => ?_⟩
  exact ((threadsRun_returns_iff 2 none oneFailed _ rfl rfl).1 h 1 (by decide) (by decide)).1 rfl

end Up

end Plume
