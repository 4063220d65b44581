import Plume.Timer

/-! Timers in the loop of a dispatcher thread: what the clock reads when one is added and when its
handler is called. Time passes between any two steps, and other threads set the time of the process.
-/

namespace Plume
open CLib

section Loop

/-- Where a thread is in `plm_disp_proc`: before the loop, at the handlers of the global events, in
`plm_timer_run`, in the handler of a timer, behind the last one, or at the handlers of the events of
the thread. -/
inductive LoopPoint
  | hook
  | global
  | timers
  | handler (node : ℕ)
  | leaving
  | events
deriving DecidableEq, Repr

def LoopPoint.inRun : LoopPoint → Bool
  | .timers | .handler _ => true
  | _ => false

/-- A call of `plm_timer_add`: the clock, `current_time_ms` and the delay. -/
structure AddedAt where
  clock : ℤ
  current : ℤ
  delta : ℤ
deriving DecidableEq, Repr

/-- A thread, with the variable of the process, what the clock reads, and what it read in the last
`plm_timer_run`, which returned `ret`. How timers were added, and with which reading their handlers
were called, is there for the statements. -/
structure TimerLoop where
  st : TimerState
  current_time_ms : ℤ
  clock : ℤ
  reading : ℤ
  ret : ℤ
  point : LoopPoint
  adds : ℕ → AddedAt
  fired : List (ℕ × ℤ)

inductive LoopAct
  | pass (ms : ℕ)
  | other (v : ℤ)
  | add (a : TimerAdd)
  | loop
  | run
  | take
  | done
  | leave

def TimerLoop.time (x : TimerLoop) : SharedTime := ⟨x.current_time_ms, []⟩

/-- `plm_timer_run` returns at once when the list is empty. -/
def TimerLoop.next (x : TimerLoop) : TimerLoop :=
  if x.st.tl_tmlist.d_len = 0 then { x with point := .events, ret := 0 }
    else { x with point := .timers }

/-- One step. Hooks and handlers add timers; `plm_timer_run` reads the clock, calls the handlers of
timers one by one, and leaves its loop at a timer that is still to come. The `plm_timer_run` of
another thread may write at any moment, and two of them at once any mixture of what they read. -/
def loopStep (x : TimerLoop) : LoopAct → Option TimerLoop
  | .pass ms => some { x with clock := x.clock + ms }
  | .other v => some { x with current_time_ms := v }
  | .add a =>
    if x.point = .timers ∨ x.point = .leaving ∨ a.delta < 0 then none
    else
      match timerAdd a x.time x.st with
      | .error _ => none
      | .ok (_, _, st) =>
        let added : AddedAt := ⟨x.clock, x.current_time_ms, a.delta⟩
        some { x with st := st, adds := if a.mem then Function.update x.adds x.st.added added else
          x.adds }
  | .loop => if x.point = .hook ∨ x.point = .events then some { x with point := .global } else none
  | .run =>
    if x.point = .global then
      some { x with current_time_ms :=
        (timerUpdateCurrent x.clock x.time).current_time_ms, reading := x.clock }.next
    else none
  | .take =>
    if x.point = .timers then
      match timerTake x.time x.st with
      | .error _ => none
      | .ok (_, none) => some { x with point := .leaving }
      | .ok (_, some (t, st)) =>
        some { x with st := st, point := .handler t.1, fired := x.fired ++ [(t.1, x.reading)] }
    else none
  | .done =>
    match x.point with
    | .handler node => some { x with st := timerFree node x.st }.next
    | _ => none
  | .leave =>
    if x.point = .leaving then
      match timerNext x.time x.st with
      | .error _ => none
      | .ok (ret, _) => some { x with point := .events, ret := ret }
    else none

end Loop

section Run

variable {x x' : TimerLoop} {st : TimerState} {t : Timer} {a : TimerAdd} {c : SharedTime}

def addedTo (x : TimerLoop) (a : TimerAdd) (st : TimerState) : TimerLoop :=
  { x with
    st := st
    adds := if a.mem then Function.update x.adds x.st.added ⟨x.clock, x.current_time_ms, a.delta⟩
      else x.adds }

def calledFor (x : TimerLoop) (t : Timer) (st : TimerState) : TimerLoop :=
  { x with st := st, point := .handler t.1, fired := x.fired ++ [(t.1, x.reading)] }

def doneWith (x : TimerLoop) (node : ℕ) : TimerLoop := { x with st := timerFree node x.st }.next

end Run

section Early

/-- When the timer should expire: the clock when it was added, and its delay. -/
def dueAt (x : TimerLoop) (node : ℕ) : ℤ := (x.adds node).clock + (x.adds node).delta

/-- When the timer does expire: `current_time_ms` when it was added, and its delay. -/
def expiresAt (x : TimerLoop) (node : ℕ) : ℤ := (x.adds node).current + (x.adds node).delta

structure LoopInv (x : TimerLoop) (l : List Timer) : Prop where
  queue : TimerQueue x.st l
  expire : ∀ t ∈ l, timerKey t = expiresAt x t.1
  gone : ∀ node, x.point = .handler node → node < x.st.added ∧ node ∉ l.map Prod.fst
  fired : ∀ p ∈ x.fired, p.1 < x.st.added

def FiredEarly (x : TimerLoop) : Prop := ∃ p ∈ x.fired, p.2 < dueAt x p.1

/-- The handler of a timer in the list would be called too early. -/
def WouldBeEarly (x : TimerLoop) (l : List Timer) : Prop :=
  ∃ t ∈ l, timerKey t ≤ x.current_time_ms ∧ x.reading < dueAt x t.1

/-- A handler was called too early, or is still to be in this `plm_timer_run`. -/
def Early (x : TimerLoop) (l : List Timer) : Prop :=
  FiredEarly x ∨ x.point.inRun = true ∧ WouldBeEarly x l

variable {x x' : TimerLoop} {l l' : List Timer} {st : TimerState} {t : Timer} {a : TimerAdd}
  {node : ℕ} {c : SharedTime}

theorem TimerQueue.unique {s : TimerState} (h : TimerQueue s l) (h' : TimerQueue s l') :
    l = l' := by
  have hids : l.map Prod.fst = l'.map Prod.fst :=
    seg_unique (dseg_seg h.list.1) (dseg_seg h'.list.1)
  have hmap : ∀ {k : List Timer}, TimerQueue s k →
    k.map some = (k.map Prod.fst).map fun n => (s.obj n).map (n, ·) := by
    intro k hk
    rw [List.map_map]
    refine List.map_congr_left fun t ht => ?_
    rw [Function.comp, hk.obj t ht]
    rfl
  exact List.map_injective_iff.2 (Option.some_injective _) (by rw [hmap h, hmap h', hids])

section Next

@[simp] theorem next_st (x : TimerLoop) : x.next.st = x.st := by
  unfold TimerLoop.next; split_ifs <;> rfl

@[simp] theorem next_time (x : TimerLoop) : x.next.current_time_ms = x.current_time_ms := by
  unfold TimerLoop.next
  split_ifs <;> rfl

@[simp] theorem next_reading (x : TimerLoop) : x.next.reading = x.reading := by
  unfold TimerLoop.next; split_ifs <;> rfl

@[simp] theorem next_clock (x : TimerLoop) : x.next.clock = x.clock := by
  unfold TimerLoop.next; split_ifs <;> rfl

@[simp] theorem next_adds (x : TimerLoop) : x.next.adds = x.adds := by
  unfold TimerLoop.next; split_ifs <;> rfl

@[simp] theorem next_fired (x : TimerLoop) : x.next.fired = x.fired := by
  unfold TimerLoop.next; split_ifs <;> rfl

theorem next_point (h : TimerQueue x.st l) :
    x.next.point = if l = [] then .events else .timers := by
  unfold TimerLoop.next
  simp only [h.list.2, List.length_map, List.length_eq_zero_iff]
  split_ifs <;> rfl

theorem next_ret (h : TimerQueue x.st []) : x.next.ret = 0 := by
  unfold TimerLoop.next
  rw [h.list.2]
  rfl

theorem LoopInv.next (hq : TimerQueue x.st l) (hexpire : ∀ t ∈ l, timerKey t = expiresAt x t.1)
    (hfired : ∀ p ∈ x.fired, p.1 < x.st.added) : LoopInv x.next l where
  queue := by rwa [next_st]
  expire := by simpa only [expiresAt, next_adds] using hexpire
  gone := by
    intro node hnode
    rw [next_point hq] at hnode
    split_ifs at hnode
  fired := by rwa [next_fired, next_st]

end Next

section Add

theorem adds_new (hmem : a.mem = true) :
    (addedTo x a st).adds x.st.added = ⟨x.clock, x.current_time_ms, a.delta⟩ := by
  unfold addedTo
  rw [if_pos hmem]
  exact Function.update_self ..

theorem adds_old (hnode : node < x.st.added) : (addedTo x a st).adds node = x.adds node := by
  unfold addedTo
  split_ifs
  · exact Function.update_of_ne hnode.ne ..
  · rfl

theorem dueAt_old (hnode : node < x.st.added) : dueAt (addedTo x a st) node = dueAt x node := by
  unfold dueAt
  rw [adds_old hnode]

/-- The timer that a hook or a handler adds, where there is memory for it. -/
theorem LoopInv.added (h : LoopInv x l) (hmem : a.mem = true) (hadded : st.added = x.st.added + 1)
    (hq : TimerQueue st (enqueue timerKey (x.st.added, ⟨a.handler, a.data,
      x.current_time_ms + a.delta⟩) l)) :
    LoopInv (addedTo x a st) (enqueue timerKey (x.st.added, ⟨a.handler, a.data,
      x.current_time_ms + a.delta⟩) l) where
  queue := hq
  expire := by
    intro t ht
    unfold expiresAt
    rcases mem_enqueue.1 ht with rfl | ht
    · rw [adds_new hmem]
      rfl
    · rw [adds_old (h.queue.fresh t ht)]
      exact h.expire t ht
  gone := by
    intro node hnode
    obtain ⟨hlt, hgone⟩ := h.gone node hnode
    refine ⟨hlt.trans_le (hadded ▸ Nat.le_succ _), fun hmem => ?_⟩
    obtain ⟨t, ht, rfl⟩ := List.mem_map.1 hmem
    rcases mem_enqueue.1 ht with rfl | ht
    · exact lt_irrefl _ hlt
    · exact hgone (List.mem_map_of_mem ht)
  fired := fun p hp => (h.fired p hp).trans_le (hadded ▸ Nat.le_succ _)

theorem addedTo_none (hmem : a.mem = false) : addedTo x a x.st = x := by
  unfold addedTo
  rw [hmem]
  rfl

end Add

section Step

theorem take_early (h : LoopInv x l) (hpoint : x.point = .timers)
    (htake : timerTake x.time x.st = .ok (c, some (t, st))) :
    ∃ l', LoopInv (calledFor x t st) l' ∧ (Early (calledFor x t st) l' ↔ Early x l) := by
  have hq := h.queue
  cases l with
  | nil =>
    unfold timerTake at htake
    rw [hq.list.head_eq] at htake
    cases htake
  | cons u l =>
    rcases le_or_gt (timerKey u) x.current_time_ms with hdue | hlater
    · obtain ⟨st', htake', hq', hcalled, hadded⟩ := hq.take_due (c := x.time) hdue
      rw [htake] at htake'
      cases htake'
      have hnodup := hq.list.nodup
      rw [List.map_cons, List.nodup_cons] at hnodup
      refine ⟨l, ⟨hq', fun v hv => h.expire v (List.mem_cons_of_mem _ hv), ?_, ?_⟩, ?_⟩
      · rintro node hnode
        cases hnode
        exact ⟨hadded ▸ hq.fresh t List.mem_cons_self, hnodup.1⟩
      · intro p hp
        rcases List.mem_append.1 hp with hp | hp
        · exact hadded ▸ h.fired p hp
        · rw [List.mem_singleton.1 hp]
          exact hadded ▸ hq.fresh t List.mem_cons_self
      · have hfired : FiredEarly (calledFor x t st) ↔ FiredEarly x ∨ x.reading < dueAt x t.1 := by
          unfold FiredEarly
          change (∃ p ∈ x.fired ++ [(t.1, x.reading)], p.2 < dueAt x p.1) ↔ _
          simp only [List.mem_append, List.mem_singleton, or_and_right, exists_or, exists_eq_left]
        have hboth : WouldBeEarly x (t :: l) ↔ x.reading < dueAt x t.1 ∨ WouldBeEarly x l := by
          unfold WouldBeEarly
          simp only [List.mem_cons, exists_eq_or_imp, hdue, true_and]
        unfold Early
        rw [hfired, hboth, hpoint]
        change (_ ∨ true = true ∧ WouldBeEarly x l) ↔ (_ ∨ true = true ∧ _)
        simp only [true_and, or_assoc]
    · rw [hq.take_later (c := x.time) hlater] at htake
      cases htake

/-- Leaving the loop at a timer that is still to come. -/
theorem leave_early (h : LoopInv x l) (htake : timerTake x.time x.st = .ok (c, none)) :
    LoopInv { x with point := .leaving } l ∧
      (Early { x with point := .leaving } l ↔ Early x l) := by
  refine ⟨⟨h.queue, h.expire, (by rintro _ ⟨⟩), h.fired⟩, ?_⟩
  have hlater : ¬ WouldBeEarly x l := by
    rintro ⟨t, ht, hdue, -⟩
    cases l with
    | nil => cases ht
    | cons u l =>
      obtain ⟨st', htake', -⟩ :=
        h.queue.take_due (c := x.time) ((h.queue.ordered.le t ht).trans hdue)
      rw [htake] at htake'
      cases htake'
  unfold Early
  change (FiredEarly x ∨ false = true ∧ _) ↔ _
  simp [hlater]

/-- A step from one point that is not in the loop to another. -/
theorem LoopInv.moved (h : LoopInv x l) {p : LoopPoint} {ret : ℤ} (hx : x.point.inRun = false)
    (hp : p.inRun = false) :
    LoopInv { x with point := p, ret := ret } l ∧
      (Early { x with point := p, ret := ret } l ↔ Early x l) := by
  refine ⟨⟨h.queue, h.expire, fun node hnode => ?_, h.fired⟩, ?_⟩
  · rw [show p = .handler node from hnode] at hp
    cases hp
  · unfold Early
    rw [hx]
    change (FiredEarly x ∨ p.inRun = true ∧ _) ↔ _
    rw [hp]
    simp

end Step

/-- A timer is added while `current_time_ms` is what the clock reads, and what another thread writes
while the thread is in the loop of `plm_timer_run` is no later than what was read there. -/
def Fresh (x : TimerLoop) : LoopAct → Bool
  | .add a => decide (a.mem = true → x.current_time_ms = x.clock)
  | .other v => decide (x.point.inRun = true → v ≤ x.reading)
  | _ => true

end Early

end Plume
