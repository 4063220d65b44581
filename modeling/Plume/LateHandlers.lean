import Plume.Rounds

/-! The resources of a worker process go before its threads do: `plm_plugin_destroy` has the plugins
and the core torn down by the main thread, and only then comes `plm_disp_shutdown`, which waits
for the other threads. -/

namespace Plume
open CLib

/-- No handler is called once the main thread has begun to tear down. -/
def HandlersInTime (s : Disp) : Prop := ∀ c ∈ s.calls, c.ending = .working

section Alone

variable {s s' : Disp} {t : ℕ}

/-- A single thread has its loop behind it when it tears down. -/
structure Alone (s : Disp) : Prop where
  inv : DispInv s
  single : s.disp_thrdn ≤ 1
  calls : HandlersInTime s

theorem Alone.working (h : Alone s) (ht : s.round t ≠ .status) : s.ending = .working := by
  have hp := h.inv.round_loop ht
  by_contra he
  rcases eq_or_ne t 0 with rfl | h0
  · obtain hb | hb | hb := h.inv.main he <;> rw [hp] at hb <;> cases hb
  · have hlt := h.inv.seats.exist t h0 (by rw [hp]; exact nofun)
    have hle := h.inv.num.trans h.single
    omega

theorem Alone.called (h : Alone s) (ht : s.round t ≠ .status) : HandlersInTime (s.called t) := by
  intro c hc
  rcases List.mem_append.1 hc with hc | hc
  · exact h.calls c hc
  · rw [List.mem_singleton.1 hc]
    exact h.working ht

theorem Alone.step {a : DispAct} (h : Alone s) (hs : dispStep s a = some s') : Alone s' := by
  refine ⟨h.inv.step (fun _ _ _ => h.single) hs, (dispStep_disp_thrdn hs).trans_le h.single, ?_⟩
  cases a with
  | thread a => obtain ⟨-, -, -, ⟨rfl, -⟩ | ⟨-, -, -, -, rfl⟩ | ⟨-, -, rfl⟩⟩ :=
    dispStep_cases hs <;> exact h.calls
  | trylock t => obtain ⟨-, ⟨-, rfl⟩ | ⟨-, rfl⟩ | ⟨-, rfl⟩⟩ := dispStep_cases hs <;> exact h.calls
  | poll t n =>
    obtain ⟨p, -, -, rfl⟩ := dispStep_cases hs
    exact h.calls
  | handler t =>
    obtain ⟨p, n, hr, rfl⟩ := dispStep_cases hs
    exact h.called (by rw [hr]; exact nofun)
  | through t =>
    obtain ⟨-, rfl⟩ | ⟨-, rfl⟩ := dispStep_cases hs
    · unfold unlock
      split_ifs <;> exact h.calls
    · exact h.calls
  | fire t =>
    obtain ⟨hr, rfl⟩ := dispStep_cases hs
    exact h.called (by rw [hr]; exact nofun)
  | timed t =>
    obtain ⟨-, rfl⟩ := dispStep_cases hs
    exact h.calls
  | finish =>
    have hfin : Finishes s s' := dispStep_cases hs
    cases hfin <;> exact h.calls

end Alone

section Several

variable {thrdn : ℕ} {cpu : Option CpuAffinity} {th th' : Threads}

/-- The process can have come so far, with no thread in its rounds. -/
def Booting (thrdn : ℕ) (cpu : Option CpuAffinity) (th : Threads) : Prop :=
  Reaches dispStep (dispBoot thrdn cpu) { dispBoot thrdn cpu with threads := th }

/-- The step is one of `Threads` alone. -/
def ThreadAct.alone : ThreadAct → Bool
  | .bootFails _ | .loop _ | .exit => false
  | _ => true

theorem Booting.next {a : ThreadAct} (h : Booting thrdn cpu th) (hs : threadStep th a = some th')
    (halone : a.alone = true) : Booting thrdn cpu th' := by
  refine Reaches.next (a := .thread a) h ?_
  cases a with
  | bootFails e => cases halone
  | loop t => cases halone
  | exit => cases halone
  | _ =>
    exact congrArg (Option.map fun threads => { dispBoot thrdn cpu with threads := threads }) hs

structure Made (thrdn k : ℕ) (s : Threads) : Prop where
  num : s.tm_thrdn = thrdn
  main : s.point 0 = .create (k + 1)
  active : s.tm_active_thrdn = 0
  disp : s.disp_status = .running
  waiting : ∀ j, j ≠ 0 → j ≤ k → s.point j = .wait

theorem made_all (cpu : Option CpuAffinity) {k : ℕ} (hk : k < thrdn) :
    ∃ s, Booting thrdn cpu s ∧ Made thrdn k s := by
  induction k with
  | zero =>
    refine ⟨_, Booting.next (a := .boot) (Reaches.refl _) rfl rfl, rfl, rfl, rfl, rfl,
      fun j hj h0 => ?_⟩
    exact absurd (Nat.le_zero.1 h0) hj
  | succ k ih =>
    obtain ⟨s, hr, h⟩ := ih (by omega)
    have hstep : threadStep s (.create true) = some
      ((s.createThread (k + 1) true).goto 0 (.create (k + 2))) := by
      simp only [threadStep, h.main, h.num, if_pos hk]
    refine ⟨_, hr.next hstep rfl, h.num, rfl, h.active, h.disp, fun j hj hle => ?_⟩
    rcases Nat.le_succ_iff_eq_or_le.1 hle with rfl | hle
    · simp [Threads.goto, Threads.createThread]
    · have hne : j ≠ k + 1 := by omega
      simpa [Threads.goto, Threads.createThread, hj, hne] using h.waiting j hj hle

/-- The start event is signalled, and `k` of the threads have woken up. -/
structure Woken (thrdn k : ℕ) (s : Threads) : Prop where
  num : s.tm_thrdn = thrdn
  main : s.point 0 = .poll
  status : s.tm_status = .run
  signaled : s.e_signaled = true
  active : s.tm_active_thrdn = k
  disp : s.disp_status = .running
  awake : ∀ j, j ≠ 0 → j ≤ k → s.point j = .check
  waiting : ∀ j, k < j → j < thrdn → s.point j = .wait

theorem woken_none (cpu : Option CpuAffinity) (hn : 1 < thrdn) :
    ∃ s, Booting thrdn cpu s ∧ Woken thrdn 0 s := by
  have hlast : thrdn - 1 < thrdn := by omega
  obtain ⟨s, hr, h⟩ := made_all cpu hlast
  have hk : thrdn - 1 + 1 = thrdn := by omega
  have hcreate : threadStep s (.create true) = some (s.goto 0 .store) := by
    simp [threadStep, h.main, h.num, hk]
  have hpoll : threadStep ({ s.goto 0 .store with tm_status := .run }.goto 0 .poll) .poll =
      some { { s.goto 0 .store with tm_status := .run }.goto 0 .poll with e_signaled := true } := by
    have hact : ¬ (s.tm_active_thrdn ≥ s.tm_thrdn - 1) := by rw [h.active, h.num]; omega
    simp [threadStep, Threads.goto, hact]
  have hrun := ((hr.next hcreate rfl).next
    (a := .store) rfl rfl).next hpoll rfl
  refine ⟨_, hrun, h.num, rfl, rfl, rfl, h.active, h.disp,
    fun j hj h0 => absurd (Nat.le_zero.1 h0) hj, fun j hj hlt => ?_⟩
  have hj0 : j ≠ 0 := by omega
  simpa [Threads.goto, hj0] using h.waiting j hj0 (by omega)

theorem woken_all (cpu : Option CpuAffinity) (hn : 1 < thrdn) {k : ℕ} (hk : k < thrdn) :
    ∃ s, Booting thrdn cpu s ∧ Woken thrdn k s := by
  induction k with
  | zero => exact woken_none cpu hn
  | succ k ih =>
    obtain ⟨s, hr, h⟩ := ih (by omega)
    have hw := h.waiting (k + 1) (Nat.lt_succ_self k) hk
    have hwait : threadStep s (.wait (k + 1)) = some (s.goto (k + 1) .inc) :=
      if_pos ⟨hw, h.signaled⟩
    have hinc : threadStep (s.goto (k + 1) .inc) (.inc (k + 1)) = some (({ s.goto (k + 1) .inc with
        tm_active_thrdn := s.tm_active_thrdn + 1
        curr_slot := fun x => if x = k + 1 then s.tm_active_thrdn + 1
          else s.curr_slot x }).goto (k + 1) .check) :=
      if_pos (if_pos rfl)
    refine ⟨_, (hr.next hwait rfl).next hinc rfl, h.num, ?_, h.status,
      h.signaled, congrArg (· + 1) h.active, h.disp, fun j hj hle => ?_, fun j hj hlt => ?_⟩
    · simpa [Threads.goto] using h.main
    · rcases Nat.le_succ_iff_eq_or_le.1 hle with rfl | hle
      · simp [Threads.goto]
      · have hne : j ≠ k + 1 := by omega
        simpa [Threads.goto, hne] using h.awake j hj hle
    · have hne : j ≠ k + 1 := by omega
      simpa [Threads.goto, hne] using h.waiting j (by omega) hlt

/-- A thread comes through the log and the hooks into the loop. -/
theorem Booting.enter (h : Booting thrdn cpu th) {t : ℕ} (hp : th.point t = .openLog)
    (hd : th.disp_status = .running) :
    ∃ th', Booting thrdn cpu th' ∧ th'.point t = .loop ∧ (∀ u, u ≠ t → th'.point u = th.point u) ∧
      th'.disp_status = .running := by
  have hlog : threadStep th (.openLog t true) = some (th.goto t .thrdInit) := if_pos hp
  obtain ⟨calls, hcalls⟩ := setCpuAffinity_eq (th.goto t .thrdInit) t
  have hinit : threadStep (th.goto t .thrdInit) (.thrdInit t true) =
      some ({ th.goto t .thrdInit with calls := calls }.goto t .cas) := by
    rw [← hcalls]
    exact if_pos (if_pos rfl)
  have hthrough := (h.next hlog rfl).next hinit rfl
  refine ⟨_, hthrough.next (a := .cas t) (if_pos (if_pos rfl)) rfl, if_pos rfl,
    fun u hu => ?_, ?_⟩
  · simp [Threads.goto, hu]
  · change casDisp .shutdown .running th.disp_status = .running
    rw [hd]
    rfl

structure BothInLoop (s : Threads) : Prop where
  main : s.point 0 = .loop
  worker : s.point 1 = .loop
  disp : s.disp_status = .running

theorem both_in_loop (hn : 1 < thrdn) (cpu : Option CpuAffinity) :
    ∃ s, Booting thrdn cpu s ∧ BothInLoop s := by
  have hlast : thrdn - 1 < thrdn := by omega
  obtain ⟨s, hr, h⟩ := woken_all cpu hn hlast
  have hact : s.tm_active_thrdn ≥ s.tm_thrdn - 1 := by rw [h.active, h.num]
  have hpoll : threadStep s .poll = some (s.goto 0 .openLog) := (if_pos h.main).trans (if_pos hact)
  have hcheck : threadStep (s.goto 0 .openLog) (.check 1) = some
    ((s.goto 0 .openLog).goto 1 .openLog) := by
    refine (if_pos (h.awake 1 one_ne_zero (by omega))).trans ?_
    rw [if_neg (by rw [show (s.goto 0 .openLog).tm_status = _ from h.status]; exact (by simp))]
  have hboth := (hr.next hpoll rfl).next hcheck rfl
  obtain ⟨s₁, hr₁, h₁, hother₁, hd₁⟩ := hboth.enter (t := 1) rfl h.disp
  obtain ⟨s₂, hr₂, h₂, hother₂, hd₂⟩ := hr₁.enter (hother₁ 0 (by simp)) hd₁
  exact ⟨s₂, hr₂, h₂, (hother₂ 1 (by simp)).trans h₁, hd₂⟩

/-- The main thread is told to quit while a worker has a handler to call; it leaves its loop and
has everything freed when the worker comes to that. -/
def quitEarly : List DispAct :=
  [.thread (.loop 1), .trylock 1, .poll 1 1, .thread .notifyThreads, .thread .notifyDisp,
    .thread (.loop 0), .finish, .finish, .finish, .finish, .handler 1]

theorem late_handler (hn : 1 < thrdn) (cpu : Option CpuAffinity) :
    ∃ s, Reaches dispStep (dispBoot thrdn cpu) s ∧ ⟨1, .buffer⟩ ∈ s.calls := by
  obtain ⟨th, hr, h⟩ := both_in_loop hn cpu
  have h0 := h.main
  have h1 := h.worker
  have hd := h.disp
  have hrun : ∃ s, run dispStep { dispBoot thrdn cpu with threads := th } quitEarly = some s ∧ ⟨1,
    .buffer⟩ ∈ s.calls := by
    simp [quitEarly, run, dispStep, threadStep, finish, dispBoot, h0, h1, hd, Threads.goto,
      Threads.leave, Disp.goto, Disp.called, Disp.closed, casDisp]
  obtain ⟨s, hs, hc⟩ := hrun
  exact ⟨s, hr.trans (.of_run hs), hc⟩

end Several

/-- No handler is ever called behind the tear-down if and only if the process has one thread. -/
theorem handlersInTime_iff (thrdn : ℕ) (cpu : Option CpuAffinity) :
    (∀ as, Always dispStep HandlersInTime (dispBoot thrdn cpu) as) ↔ thrdn ≤ 1 := by
  constructor
  · intro h
    by_contra hn
    obtain ⟨s, hr, hc⟩ := late_handler (Nat.lt_of_not_le hn) cpu
    exact absurd (hr.always h _ hc) nofun
  · intro hn as
    have h0 : Alone (dispBoot thrdn cpu) := ⟨dispInv_boot thrdn cpu, hn, nofun⟩
    exact (always_of_step dispStep as h0 fun _ _ _ h hs => h.step hs).mono fun _ h => h.calls

end Plume
