import Plume.Moves

/-! What becomes of the quit notification. Two writes can undo it: the store of
`plm_threads_run` and the exchange with which every thread enters the dispatcher loop. -/

namespace Plume
open CLib

/-- Behind a notification neither status says that the process is running. -/
def StaysDown (s : Threads) : Prop :=
  s.notified = true → s.tm_status ≠ .run ∧ s.disp_status ≠ .running

/-- `plm_threads_run` stores its status before a notification starts, and a thread makes its
exchange before one has come to its end. -/
def inTime (s : Threads) (a : ThreadAct) (_ : Threads) : Bool :=
  match a with
  | .store => s.quitting = 0 && !s.notified
  | .cas _ => !s.notified
  | _ => true

/-- A notification under way has already written its first status. -/
structure Down (s : Threads) : Prop where
  tm : s.quitting ≠ 0 ∨ s.notified = true → s.tm_status ≠ .run
  disp : s.notified = true → s.disp_status = .shutdown

theorem Down.staysDown {s : Threads} (h : Down s) : StaysDown s := by
  intro hn
  refine ⟨h.tm (.inr hn), ?_⟩
  rw [h.disp hn]
  simp

theorem down_boot (thrdn : ℕ) (cpu : Option CpuAffinity) : Down (threadsBoot thrdn cpu) where
  tm h := absurd h (by simp [threadsBoot])
  disp h := absurd h (by simp [threadsBoot])

section Step

variable {s s' : Threads}

theorem Down.quiet {a : ThreadAct} (h : Down s) (hq : a.quiet = true)
    (hs : threadStep s a = some s') : Down s' := by
  obtain ⟨htm, hdisp, hquitting, hnotified⟩ := (threadStep_frame hs).status hq
  refine ⟨fun hx => ?_, fun hx => ?_⟩
  · rw [hquitting, hnotified] at hx
    rw [htm]
    exact h.tm hx
  · rw [hdisp]
    exact h.disp (hnotified ▸ hx)

theorem Down.step {a : ThreadAct} (h : Down s) (hc : inTime s a s' = true)
    (hs : threadStep s a = some s') :
    Down s' := by
  cases a with
  | boot =>
    obtain ⟨-, rfl⟩ := threadStep_cases hs
    exact ⟨fun _ => by simp [Threads.goto], h.disp⟩
  | bootFails e =>
    obtain ⟨-, -, ⟨-, rfl⟩ | ⟨-, rfl⟩⟩ := threadStep_cases hs
    · exact ⟨fun _ => by simp [Threads.goto], h.disp⟩
    · exact ⟨h.tm, h.disp⟩
  | store =>
    obtain ⟨hq, hn⟩ : s.quitting = 0 ∧ s.notified = false := by simpa [inTime] using hc
    obtain ⟨-, rfl⟩ := threadStep_cases hs
    refine ⟨fun hx => ?_, h.disp⟩
    rcases hx with hx | hx
    · exact absurd hq hx
    · simp [Threads.goto, hn] at hx
  | cas t =>
    have hn : s.notified = false := by simpa [inTime] using hc
    obtain ⟨-, rfl⟩ := threadStep_cases hs
    refine ⟨h.tm, fun hx => ?_⟩
    simp [Threads.goto, hn] at hx
  | exit =>
    obtain ⟨-, rfl⟩ := threadStep_cases hs
    exact ⟨h.tm, fun _ => rfl⟩
  | endThreads =>
    obtain ⟨-, rfl⟩ := threadStep_cases hs
    exact ⟨fun _ => by simp [Threads.goto], h.disp⟩
  | notifyThreads =>
    obtain rfl : s' = _ := threadStep_cases hs
    exact ⟨fun _ => by simp, h.disp⟩
  | notifyDisp =>
    obtain ⟨hq, rfl⟩ := threadStep_cases hs
    refine ⟨fun _ => h.tm (.inl hq), fun _ => ?_⟩
    cases s.disp_status <;> rfl
  | create | poll | wait | inc | check | dec | openLog | thrdInit | loop => exact h.quiet rfl hs

end Step

/-- In every run whose steps are in time a notification that has come to its end lasts, so
that no thread goes round the dispatcher loop once more. -/
theorem staysDown_of_inTime (thrdn : ℕ) (cpu : Option CpuAffinity) (as : List ThreadAct)
    (hC : EachStep threadStep (fun s a s' => inTime s a s' = true) (threadsBoot thrdn cpu) as) :
    Always threadStep StaysDown (threadsBoot thrdn cpu) as := by
  refine Always.mono (fun _ => Down.staysDown) ?_
  exact always_of_invariant threadStep (down_boot thrdn cpu) (fun _ _ _ h hc hs => h.step hc hs) hC

def bothInLoop : List ThreadAct :=
  [.boot, .create true, .create true, .store, .poll, .wait 1, .inc 1, .poll, .check 1,
    .openLog 1 true,
    .openLog 0 true, .thrdInit 0 true, .thrdInit 1 true, .cas 1, .cas 0, .notifyThreads, .loop 1,
    .notifyDisp, .loop 0, .loop 1]

theorem staysDown_bothInLoop : Always threadStep StaysDown (threadsBoot 2 none) bothInLoop ∧
    ((run threadStep (threadsBoot 2 none) bothInLoop).map fun s => (s.notified, s.disp_status)) =
      some (true, .shutdown) :=
  ⟨staysDown_of_inTime 2 none bothInLoop (eachStep_of_check threadStep (fun _ _ _ h => h) rfl), rfl⟩

/-- The notification is sent before the only thread comes to the dispatcher loop. -/
def lateEntry : List ThreadAct :=
  [.boot, .create true, .store, .poll, .notifyThreads, .notifyDisp, .openLog 0 true,
    .thrdInit 0 true, .cas 0]

theorem not_staysDown :
    ¬ ∀ thrdn cpu as, Always threadStep StaysDown (threadsBoot thrdn cpu) as := by
  intro h
  have hrun : ((run threadStep (threadsBoot 1 none) lateEntry).map fun s =>
    (s.notified, s.disp_status)) =
      some (true, .running) := rfl
  obtain ⟨s, hs, hst⟩ := Option.map_eq_some_iff.1 hrun
  obtain ⟨hn, hd⟩ := Prod.mk.inj hst
  exact (h 1 none lateEntry lateEntry (List.prefix_refl _) s hs hn).2 hd

end Plume
