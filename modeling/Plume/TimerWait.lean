import Plume.TimerLoop

/-! How long a dispatcher thread waits: `plm_timer_run` says how many milliseconds there are to the
next timer, and the poll of the thread gets that as its timeout. While no other thread steps in
between the reading of the clock and that result, what makes a timer late is only the time that
hooks and handlers take. -/

namespace Plume
open CLib

section Model

/-- The `timeout` of the poll of the thread, `n` being what the poll of the process came to, zero
where another thread was at it, and `ret` what `plm_timer_run` returned. -/
def pollTimeout (n ret : ℤ) : ℤ := if n = 0 ∧ ret = 0 then 100 else ret

/-- A thread that waits in its polls. Between the end of `plm_timer_run` and the poll it has not
`polled`. The milliseconds since the clock was read, but for those in the poll, are `busy`. -/
structure Waiter where
  loop : TimerLoop
  n : ℤ
  polled : Bool
  busy : ℕ

inductive WaitAct
  | work (ms : ℕ)
  | other (v : ℤ)
  | add (a : TimerAdd)
  | loop (n : ℤ)
  | run
  | take
  | done
  | leave
  | poll (ms : ℕ)

def Waiter.before (w : Waiter) : Bool := w.loop.point = .events && !w.polled

def Waiter.timeout (w : Waiter) : ℤ := pollTimeout w.n w.loop.ret

def LoopPoint.inCall : LoopPoint → Bool
  | .timers | .handler _ | .leaving => true
  | _ => false

/-- What another thread sets is not ahead of the clock, and it sets no other time while this one is
in `plm_timer_run`. -/
def Apart (w : Waiter) : WaitAct → Bool
  | .other v =>
    decide (v ≤ w.loop.clock) && (!w.loop.point.inCall || decide (v = w.loop.current_time_ms))
  | _ => true

end Model

section Late

/-- A list of timers in which none will be late by more than `B`. -/
structure WaitInv (B : ℤ) (w : Waiter) (l : List Timer) : Prop where
  inv : LoopInv w.loop l
  current : w.loop.current_time_ms ≤ w.loop.clock
  expire : ∀ t ∈ l, timerKey t ≤ dueAt w.loop t.1
  int : ∀ t ∈ l, timerKey t - w.loop.clock < 2 ^ 31
  reading : w.loop.point.inCall = true → w.loop.current_time_ms = w.loop.reading
  fresh : w.polled = false → w.loop.clock = w.loop.reading + w.busy
  polled : w.loop.point = .hook ∨ w.loop.point = .global → w.polled = true
  unpolled : w.loop.point.inCall = true →
    w.polled = false ∧ ∀ t ∈ l, timerKey t - w.loop.reading < 2 ^ 31
  outside : w.loop.point.inCall = false → ∀ t ∈ l, w.loop.clock ≤ dueAt w.loop t.1 + w.busy
  leaving : w.loop.point = .leaving → ∀ t ∈ l, w.loop.reading < timerKey t
  ahead : w.before = true → 0 ≤ w.timeout ∧ ∀ t ∈ l, w.loop.reading + w.timeout ≤ timerKey t
  inside : w.loop.point.inCall = true → ∀ t ∈ l, w.loop.reading ≤ dueAt w.loop t.1 + B
  fired : ∀ p ∈ w.loop.fired, p.2 ≤ dueAt w.loop p.1 + B

variable {B : ℤ} {w w' : Waiter} {x x' : TimerLoop} {l l' : List Timer} {t : Timer} {a : TimerAdd}
  {node : ℕ}

section Step

theorem before_iff : w.before = true ↔ w.loop.point = .events ∧ w.polled = false := by
  unfold Waiter.before
  simp

theorem WaitInv.work (h : WaitInv B w l) (ms : ℕ) :
    WaitInv B { w with loop := { w.loop with clock := w.loop.clock + ms }, busy := w.busy + ms
      } l where
  inv := ⟨h.inv.queue, h.inv.expire, h.inv.gone, h.inv.fired⟩
  current := by
    have := h.current
    change w.loop.current_time_ms ≤ w.loop.clock + ms
    omega
  expire := h.expire
  int := fun t ht => by
    have := h.int t ht
    change timerKey t - (w.loop.clock + ms) < 2 ^ 31
    omega
  reading := h.reading
  fresh := fun hp => by
    have := h.fresh hp
    change w.loop.clock + ms = w.loop.reading + ((w.busy + ms : ℕ) : ℤ)
    omega
  polled := h.polled
  unpolled := h.unpolled
  outside := fun hrun t ht => by
    have := h.outside hrun t ht
    change w.loop.clock + ms ≤ dueAt w.loop t.1 + ((w.busy + ms : ℕ) : ℤ)
    omega
  leaving := h.leaving
  ahead := h.ahead
  inside := h.inside
  fired := h.fired

theorem WaitInv.other (h : WaitInv B w l) {v : ℤ} (hv : Apart w (.other v) = true) :
    WaitInv B { w with loop := { w.loop with current_time_ms := v } } l := by
  obtain ⟨hclock, hcall⟩ := Bool.and_eq_true_iff.1 hv
  refine ⟨⟨h.inv.queue, h.inv.expire, h.inv.gone, h.inv.fired⟩, of_decide_eq_true hclock, h.expire,
    h.int, fun hc => ?_,
    h.fresh, h.polled, h.unpolled, h.outside, h.leaving, h.ahead, h.inside, h.fired⟩
  have hc : w.loop.point.inCall = true := hc
  rw [hc, Bool.not_true, Bool.false_or] at hcall
  exact (of_decide_eq_true hcall).trans (h.reading hc)

theorem WaitInv.add (h : WaitInv B w l) (hB : 0 ≤ B) (hbefore : w.before = false)
    (hint : a.delta < 2 ^ 31)
    (hdelta : 0 ≤ a.delta) (hpoint : w.loop.point ≠ .leaving) {st : TimerState} {c : SharedTime}
    {ret : ℤ}
    (hadd : timerAdd a w.loop.time w.loop.st = .ok (ret, c, st)) :
    ∃ l', WaitInv B { w with loop := addedTo w.loop a st } l' := by
  obtain ⟨hmem, hno⟩ := h.inv.queue.add a w.loop.time
  cases hm : a.mem with
  | false =>
    rw [hno hm] at hadd
    cases hadd
    rw [addedTo_none hm]
    exact ⟨l, h⟩
  | true =>
    obtain ⟨st', hadd', hq, -, hadded⟩ := hmem hm
    rw [hadd'] at hadd
    cases hadd
    have hcurrent := h.current
    have hnew : dueAt (addedTo w.loop a st) w.loop.st.added = w.loop.clock + a.delta := by
      rw [dueAt, adds_new hm]
    have hold : ∀ t ∈ l, dueAt (addedTo w.loop a st) t.1 = dueAt w.loop t.1 :=
      fun t ht => dueAt_old (h.inv.queue.fresh t ht)
    refine ⟨_, h.inv.added hm hadded hq, hcurrent, fun t ht => ?_, fun t ht => ?_, h.reading,
      h.fresh, h.polled,
      fun hc => ⟨(h.unpolled hc).1,
        fun t ht => ?_⟩, fun hc t ht => ?_, fun hl => absurd hl hpoint, fun hb => ?_,
      fun hc t ht => ?_, fun p hp => ?_⟩
    · rcases mem_enqueue.1 ht with rfl | ht
      · change w.loop.current_time_ms + a.delta ≤ dueAt (addedTo w.loop a st) w.loop.st.added
        omega
      · exact (h.expire t ht).trans_eq (hold t ht).symm
    · rcases mem_enqueue.1 ht with rfl | ht
      · change w.loop.current_time_ms + a.delta - w.loop.clock < 2 ^ 31
        omega
      · exact h.int t ht
    · rcases mem_enqueue.1 ht with rfl | ht
      · have hreading := h.reading hc
        change w.loop.current_time_ms + a.delta - w.loop.reading < 2 ^ 31
        omega
      · exact (h.unpolled hc).2 t ht
    · change w.loop.clock ≤ dueAt (addedTo w.loop a st) t.1 + w.busy
      rcases mem_enqueue.1 ht with rfl | ht
      · change w.loop.clock ≤ dueAt (addedTo w.loop a st) w.loop.st.added + w.busy
        omega
      · rw [hold t ht]
        exact h.outside hc t ht
    · cases hbefore.symm.trans hb
    · change w.loop.reading ≤ dueAt (addedTo w.loop a st) t.1 + B
      rcases mem_enqueue.1 ht with rfl | ht
      · have hreading := h.reading hc
        change w.loop.reading ≤ dueAt (addedTo w.loop a st) w.loop.st.added + B
        omega
      · rw [hold t ht]
        exact h.inside hc t ht
    · change p.2 ≤ dueAt (addedTo w.loop a st) p.1 + B
      rw [dueAt_old (h.inv.fired p hp)]
      exact h.fired p hp

theorem WaitInv.loop (h : WaitInv B w l) (hbefore : w.before = false) {n : ℤ}
    (hstep : loopStep w.loop .loop = some x') : WaitInv B { w with loop := x', n := n } l := by
  rw [loopStep] at hstep
  split_ifs at hstep with hpoint
  cases hstep
  have hpolled : w.polled = true := by
    rcases hpoint with hpoint | hpoint
    · exact h.polled (.inl hpoint)
    · simpa [Waiter.before, hpoint] using hbefore
  have hout : w.loop.point.inCall = false := by
    rcases hpoint with hpoint | hpoint <;> rw [hpoint] <;> rfl
  exact ⟨⟨h.inv.queue, h.inv.expire, (by simp), h.inv.fired⟩, h.current, h.expire, h.int,
    (by simp [LoopPoint.inCall]),
    h.fresh, fun _ => hpolled, (by simp [LoopPoint.inCall]), fun _ => h.outside hout, (by simp),
    (by simp [Waiter.before]), (by simp [LoopPoint.inCall]), h.fired⟩

/-- The thread goes on with the list: into its loop, or, where it is empty, behind
`plm_timer_run`. -/
theorem WaitInv.next (hq : TimerQueue x.st l) (hexp : ∀ t ∈ l, timerKey t = expiresAt x t.1)
    (hgone : ∀ p ∈ x.fired, p.1 < x.st.added) {n : ℤ} {busy : ℕ}
    (hcurrent : x.current_time_ms = x.reading)
    (hfresh : x.clock = x.reading + busy) (hexpire : ∀ t ∈ l, timerKey t ≤ dueAt x t.1)
    (hint : ∀ t ∈ l, timerKey t - x.reading < 2 ^ 31) (hin : ∀ t ∈ l, x.reading ≤ dueAt x t.1 + B)
    (hfired : ∀ p ∈ x.fired, p.2 ≤ dueAt x p.1 + B) : WaitInv B ⟨x.next, n, false, busy⟩ l := by
  have hinv := LoopInv.next hq hexp hgone
  have hpoint := next_point hq
  have hempty : x.next.point = .events → l = [] := by
    rw [hpoint]
    split_ifs with hl
    · exact fun _ => hl
    · simp
  have hcall : x.next.point.inCall = false → l = [] := by
    rw [hpoint]
    split_ifs with hl
    · exact fun _ => hl
    · exact fun hin => Bool.noConfusion hin
  have hdue : ∀ node, dueAt x.next node = dueAt x node :=
    fun node => by rw [dueAt, next_adds, dueAt]
  refine ⟨hinv, ?_, ?_, ?_, ?_, ?_, ?_, ?_, ?_, ?_, ?_, ?_, ?_⟩ <;> dsimp only
  · rw [next_time, next_clock]
    omega
  · simpa only [hdue] using hexpire
  · rw [next_clock]
    intro t ht
    have := hint t ht
    omega
  · rw [next_time, next_reading]
    exact fun _ => hcurrent
  · rw [next_clock, next_reading]
    exact fun _ => hfresh
  · rw [hpoint]
    split_ifs <;> rintro (hp | hp) <;> cases hp
  · rw [next_reading]
    exact fun _ => ⟨rfl, hint⟩
  · intro hout t ht
    rw [hcall hout] at ht
    cases ht
  · rw [hpoint]
    split_ifs <;> simp
  · intro hb
    have hl := hempty (before_iff.1 hb).1
    subst hl
    refine ⟨?_, by simp⟩
    rw [Waiter.timeout, next_ret hq, pollTimeout]
    split_ifs <;> decide
  · rw [next_reading]
    simpa only [hdue] using fun _ => hin
  · rw [next_fired]
    simpa only [hdue] using hfired

theorem WaitInv.run (h : WaitInv B w l) (hbusy : w.busy ≤ B)
    (hstep : loopStep w.loop .run = some x') :
    WaitInv B { w with loop := x', polled := false, busy := 0 } l := by
  rw [loopStep] at hstep
  split_ifs at hstep with hpoint
  cases hstep
  have hout : w.loop.point.inCall = false := by
    rw [hpoint]
    rfl
  have hlate : ∀ t ∈ l, w.loop.clock ≤ dueAt w.loop t.1 + B :=
    fun t ht => (h.outside hout t ht).trans (by omega)
  exact WaitInv.next
    (x := { w.loop with current_time_ms := w.loop.clock, reading := w.loop.clock }) h.inv.queue
    h.inv.expire h.inv.fired rfl (add_zero _).symm h.expire h.int hlate h.fired

/-- A timer is due, and its handler is called; or all timers are still to come. -/
theorem WaitInv.take (h : WaitInv B w l) (hstep : loopStep w.loop .take = some x') :
    ∃ l', WaitInv B { w with loop := x' } l' := by
  rw [loopStep] at hstep
  split_ifs at hstep with hpoint
  have hin : w.loop.point.inCall = true := by
    rw [hpoint]
    rfl
  obtain ⟨hunpolled, hint⟩ := h.unpolled hin
  rcases htake : timerTake w.loop.time w.loop.st with e | ⟨c, _ | ⟨t, st⟩⟩ <;>
    rw [htake] at hstep <;> cases hstep
  · refine ⟨l, (leave_early h.inv htake).1, h.current, h.expire, h.int,
      fun _ => h.reading hin, h.fresh, (by simp),
      fun _ => h.unpolled hin, (by simp [LoopPoint.inCall]),
      fun _ t ht => ?_, (by simp [Waiter.before]), fun _ => h.inside hin, h.fired⟩
    change w.loop.reading < timerKey t
    rw [← h.reading hin]
    by_contra hle
    cases l with
    | nil => cases ht
    | cons u l =>
      have hfirst : timerKey u ≤ w.loop.time.read.1 :=
        (h.inv.queue.ordered.le t ht).trans (not_lt.1 hle)
      obtain ⟨st', htake', -⟩ := h.inv.queue.take_due hfirst
      rw [htake] at htake'
      cases htake'
  · obtain ⟨l', hinv, -⟩ := take_early h.inv hpoint htake
    have hsub : ∀ {u}, u ∈ t :: l' → u ∈ l := by
      intro u hu
      cases l with
      | nil =>
        unfold timerTake at htake
        rw [h.inv.queue.list.head_eq] at htake
        cases htake
      | cons v l =>
        rcases le_or_gt (timerKey v) w.loop.current_time_ms with hdue | hlater
        · obtain ⟨st', htake', hq, -⟩ := h.inv.queue.take_due (c := w.loop.time) hdue
          rw [htake] at htake'
          cases htake'
          rwa [hinv.queue.unique hq] at hu
        · rw [h.inv.queue.take_later (c := w.loop.time) hlater] at htake
          cases htake
    have hrest : ∀ {u}, u ∈ l' → u ∈ l := fun hu => hsub (List.mem_cons_of_mem t hu)
    refine ⟨l', hinv, h.current, fun u hu => h.expire u (hrest hu), fun u hu => h.int u (hrest hu),
      fun _ => h.reading hin, h.fresh, (by simp),
      fun _ => ⟨hunpolled, fun u hu => hint u (hrest hu)⟩, (by simp [LoopPoint.inCall]), (by simp),
      (by simp [Waiter.before]),
      fun _ u hu => h.inside hin u (hrest hu), fun p hp => ?_⟩
    rcases List.mem_append.1 hp with hp | hp
    · exact h.fired p hp
    · rw [List.mem_singleton.1 hp]
      exact h.inside hin t (hsub List.mem_cons_self)

theorem WaitInv.done (h : WaitInv B w l) (hpoint : w.loop.point = .handler node) :
    WaitInv B { w with loop := doneWith w.loop node } l := by
  have hin : w.loop.point.inCall = true := by
    rw [hpoint]
    rfl
  obtain ⟨hunpolled, hint⟩ := h.unpolled hin
  rw [show w = ⟨w.loop, w.n, w.polled, w.busy⟩ from rfl, hunpolled]
  exact WaitInv.next (x := { w.loop with st := timerFree node w.loop.st })
    (h.inv.queue.free (h.inv.gone node hpoint).2)
    h.inv.expire h.inv.fired (h.reading hin) (h.fresh hunpolled) h.expire hint
      (h.inside hin) h.fired

/-- `plm_timer_run` says how long there is to wait. -/
theorem WaitInv.leave (h : WaitInv B w l) (hstep : loopStep w.loop .leave = some x') :
    WaitInv B { w with loop := x' } l := by
  rw [loopStep] at hstep
  split_ifs at hstep with hpoint
  have hin : w.loop.point.inCall = true := by
    rw [hpoint]
    rfl
  obtain ⟨hunpolled, hint⟩ := h.unpolled hin
  have hreading := h.reading hin
  have hahead := h.leaving hpoint
  obtain ⟨ret, c, hnext, hnil, hcons⟩ :=
    h.inv.queue.next (c := w.loop.time) (fun t ht => hreading.trans_lt (hahead t ht))
  rw [hnext] at hstep
  cases hstep
  have hfresh := h.fresh hunpolled
  refine ⟨(h.inv.moved (by rw [hpoint]; rfl) rfl).1, h.current, h.expire, h.int,
    (by simp [LoopPoint.inCall]), h.fresh,
    (by simp), (by simp [LoopPoint.inCall]), fun _ t ht => ?_, (by simp),
    fun _ => ?_, (by simp [LoopPoint.inCall]), h.fired⟩
  · have hexpire := h.expire t ht
    have hlt := hahead t ht
    change w.loop.clock ≤ dueAt w.loop t.1 + w.busy
    omega
  · change 0 ≤ pollTimeout w.n ret ∧ ∀ t ∈ l, w.loop.reading + pollTimeout w.n ret ≤ timerKey t
    cases l with
    | nil =>
      rw [hnil rfl]
      exact ⟨by unfold pollTimeout; split_ifs <;> decide, by simp⟩
    | cons u l =>
      have htime : w.loop.time.read.1 = w.loop.reading := hreading
      obtain ⟨hret, hpos⟩ := hcons u l rfl (htime ▸ hint u List.mem_cons_self)
      rw [pollTimeout, if_neg fun hzero => hpos.ne' hzero.2]
      refine ⟨hpos.le, fun t ht => ?_⟩
      have hfirst := h.inv.queue.ordered.le t ht
      omega

/-- The poll is over before the first timer expires, but for the time since the clock was read. -/
theorem WaitInv.poll (h : WaitInv B w l) {ms : ℕ} (hbefore : w.before = true)
    (hms : w.timeout < 0 ∨ ms ≤ w.timeout) :
    WaitInv B { w with loop := { w.loop with clock := w.loop.clock + ms }, polled := true } l := by
  obtain ⟨hpos, hnext⟩ := h.ahead hbefore
  obtain ⟨hpoint, hpolled⟩ := before_iff.1 hbefore
  have hfresh := h.fresh hpolled
  have hcurrent := h.current
  refine ⟨⟨h.inv.queue, h.inv.expire, h.inv.gone, h.inv.fired⟩, ?_, h.expire, fun t ht => ?_,
    h.reading, (by simp),
    fun _ => rfl, (by simp [hpoint, LoopPoint.inCall]), fun _ t ht => ?_, h.leaving,
    (by simp [Waiter.before]), h.inside, h.fired⟩
  · change w.loop.current_time_ms ≤ w.loop.clock + ms
    omega
  · have hint := h.int t ht
    change timerKey t - (w.loop.clock + ms) < 2 ^ 31
    omega
  · have hfirst := hnext t ht
    have hexpire := h.expire t ht
    change w.loop.clock + ms ≤ dueAt w.loop t.1 + w.busy
    omega

end Step

end Late

end Plume
