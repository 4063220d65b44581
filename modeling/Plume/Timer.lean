import Plume.CLib.Dlist
import Plume.CLib.Queue
import Plume.CLib.Run

/-! The timers of a thread: `plm_timer.c`, with the list through the nodes of the timers, and the
queue it is. The lists belong to the threads, the variable with the current time to the process:
between any two accesses of a thread to it another one may write there what it has read from the
clock. -/

namespace Plume
open CLib

section State

structure TimerObj where
  to_handler : ℕ
  to_data : ℕ
  to_expire : ℤ
deriving DecidableEq, Repr

/-- A timer: the number of its object, in the order in which the pool gave the objects out. -/
abbrev Timer := ℕ × TimerObj

/-- The list of a thread and its timers in memory. How many timers there were, and those whose
handlers were called, is there for the statements. -/
structure TimerState where
  tl_tmlist : Dlist ℕ
  to_node : DLinks ℕ
  obj : ℕ → Option TimerObj
  added : ℕ
  called : List Timer

/-- `current_time_ms`, and what other threads have written there by each of the accesses to come,
where they have at all. -/
structure SharedTime where
  current_time_ms : ℤ
  others : List (Option ℤ)
deriving DecidableEq, Repr

def SharedTime.read (c : SharedTime) : ℤ × SharedTime :=
  match c.others with
  | [] => (c.current_time_ms, c)
  | w :: ws => (w.getD c.current_time_ms, ⟨w.getD c.current_time_ms, ws⟩)

/-- The arguments of `plm_timer_add`, and whether the pool has memory for it. -/
structure TimerAdd where
  mem : Bool
  handler : ℕ
  data : ℕ
  delta : ℤ
deriving DecidableEq, Repr

def timerInit : TimerState := ⟨Dlist.init, fun _ => none, fun _ => none, 0, []⟩

def timerBigger (s : TimerState) (to_expire : ℤ) (node : ℕ) : Bool :=
  (s.obj node).any fun o => o.to_expire > to_expire

def timerInsert (node : ℕ) (o : TimerObj) (s : TimerState) : Except Fault TimerState := do
  let ptr ← Slist.search (timerBigger s o.to_expire)
    (fun a => (s.to_node a).map DNode.dn_next) s.tl_tmlist.d_len
    s.tl_tmlist.d_head
  let (l, links) ←
    match ptr with
    | some old => s.tl_tmlist.insertFront old node s.to_node
    | none => s.tl_tmlist.addBack node s.to_node
  return { s with tl_tmlist := l, to_node := links, obj :=
    Function.update s.obj node (some o), added := s.added + 1 }

def timerAdd (a : TimerAdd) (c : SharedTime) (s : TimerState) :
    Except Fault (ℤ × SharedTime × TimerState) :=
  if a.mem then do
    let s ← timerInsert s.added ⟨a.handler, a.data, c.read.1 + a.delta⟩ s
    return (0, c.read.2, s)
  else .ok (-1, c, s)

def timerUpdateCurrent (now : ℤ) (c : SharedTime) : SharedTime := { c with current_time_ms := now }

/-- Takes the timer at the front off, whose handler is called next, unless it is still to come. -/
def timerTake (c : SharedTime) (s : TimerState) :
    Except Fault (SharedTime × Option (Timer × TimerState)) :=
  match s.tl_tmlist.d_head with
  | none => .error .wild
  | some node =>
    match s.obj node with
    | none => .error .wild
    | some o =>
      if o.to_expire > c.read.1 then .ok (c.read.2, none)
      else do
        let (l, links) ← s.tl_tmlist.delFront s.to_node
        return (c.read.2, some ((node, o),
          { s with tl_tmlist := l, to_node := links, called := s.called ++ [(node, o)] }))

def timerAdds : List TimerAdd → SharedTime → TimerState → Except Fault (SharedTime × TimerState)
  | [], c, s => .ok (c, s)
  | a :: as, c, s => do
    let (_, c, s) ← timerAdd a c s
    timerAdds as c s

def timerFree (node : ℕ) (s : TimerState) : TimerState :=
  { s with to_node := Function.update s.to_node node none, obj := Function.update s.obj node none }

/-- The loop of `plm_timer_run`; the handler of a timer makes the calls `body`. -/
def timerRunLoop (body : Timer → List TimerAdd) :
    ℕ → SharedTime → TimerState → Except Fault (SharedTime × TimerState)
  | 0, _, _ => .error .fuel
  | fuel + 1, c, s => do
    match ← timerTake c s with
    | (c, none) => return (c, s)
    | (c, some (t, s)) =>
      let (c, s) ← timerAdds (body t) c s
      let s := timerFree t.1 s
      if s.tl_tmlist.d_len = 0 then return (c, s) else timerRunLoop body fuel c s

def timerNext (c : SharedTime) (s : TimerState) : Except Fault (ℤ × SharedTime) :=
  if s.tl_tmlist.d_len = 0 then .ok (0, c)
  else
    match s.tl_tmlist.d_head.bind s.obj with
    | none => .error .wild
    | some o => .ok ((o.to_expire - c.read.1).bmod (2 ^ 32), c.read.2)

def timerRun (fuel : ℕ) (now : ℤ) (body : Timer → List TimerAdd) (c : SharedTime) (s : TimerState) :
    Except Fault (ℤ × SharedTime × TimerState) :=
  let c := timerUpdateCurrent now c
  if s.tl_tmlist.d_len = 0 then .ok (0, c, s)
  else do
    let (c, s) ← timerRunLoop body fuel c s
    let (ret, c) ← timerNext c s
    return (ret, c, s)

end State

section Queue

def timerKey (t : Timer) : ℤ := t.2.to_expire

structure TimerQueue (s : TimerState) (l : List Timer) : Prop where
  list : s.tl_tmlist.Holds s.to_node (l.map Prod.fst)
  obj : ∀ t ∈ l, s.obj t.1 = some t.2
  fresh : ∀ t ∈ l, t.1 < s.added
  ordered : Ordered timerKey Prod.fst l

variable {s s' : TimerState} {l : List Timer} {t : Timer} {a : TimerAdd} {o : TimerObj}

theorem timerQueue_init : TimerQueue timerInit [] where
  list := Dlist.holds_init _
  obj := by simp
  fresh := by simp
  ordered := List.Pairwise.nil

theorem TimerQueue.bigger_iff (h : TimerQueue s l) (ht : t ∈ l) (to_expire : ℤ) :
    timerBigger s to_expire t.1 = true ↔ to_expire < timerKey t := by
  rw [timerBigger, h.obj t ht, Option.any_some, decide_eq_true_eq]
  rfl

theorem TimerQueue.enqueued (h : TimerQueue s l) (o : TimerObj) {tl : Dlist ℕ} {links : DLinks ℕ}
    (htl : tl.Holds links ((enqueue timerKey (s.added, o) l).map Prod.fst)) :
    TimerQueue ⟨tl, links, Function.update s.obj s.added (some o), s.added + 1, s.called⟩
      (enqueue timerKey (s.added, o) l) where
  list := htl
  obj := by
    intro t ht
    rcases mem_enqueue.1 ht with rfl | ht
    · exact Function.update_self ..
    · exact (Function.update_of_ne (h.fresh t ht).ne ..).trans (h.obj t ht)
  fresh := by
    intro t ht
    rcases mem_enqueue.1 ht with rfl | ht
    · exact Nat.lt_succ_self _
    · exact (h.fresh t ht).trans (Nat.lt_succ_self _)
  ordered := ordered_enqueue h.ordered h.fresh

/-- A new timer goes behind all that expire no later. -/
theorem TimerQueue.insert (h : TimerQueue s l) (o : TimerObj) :
    ∃ s', timerInsert s.added o s = .ok s' ∧
    TimerQueue s' (enqueue timerKey (s.added, o) l) ∧ s'.called = s.called ∧
      s'.added = s.added + 1 := by
  have hsearch :=
    Slist.seg_search (p := timerBigger s o.to_expire) (dseg_seg h.list.1) h.list.2.symm.le
  have hnew : s.added ∉ l.map Prod.fst := by
    rw [List.mem_map]
    rintro ⟨t, ht, heq⟩
    exact (h.fresh t ht).ne heq
  unfold timerInsert
  rw [hsearch, ok_bind]
  cases hfind : (l.map Prod.fst).find? (timerBigger s o.to_expire) with
  | none =>
    have hall : ∀ t ∈ l, timerKey t ≤ timerKey (s.added, o) := by
      intro t ht
      have hnot := List.find?_eq_none.1 hfind t.1 (List.mem_map_of_mem ht)
      rw [h.bigger_iff ht] at hnot
      exact not_lt.1 hnot
    obtain ⟨tl, links, hadd, htl⟩ := h.list.addBack hnew
    simp only [hadd, ok_bind, pure_ok]
    refine ⟨_, rfl, h.enqueued o ?_, rfl, rfl⟩
    rw [enqueue_back hall, List.map_append]
    exact htl
  | some old =>
    obtain ⟨hold, pre, post, hsplit, hpre⟩ := List.find?_eq_some_iff_append.1 hfind
    obtain ⟨l1, l2, rfl, rfl, hl2⟩ := List.map_eq_append_iff.1 hsplit
    obtain ⟨t, l2, rfl, rfl, rfl⟩ := List.map_eq_cons_iff.1 hl2
    have hall : ∀ u ∈ l1, timerKey u ≤ timerKey (s.added, o) := by
      intro u hu
      have hnot := hpre u.1 (List.mem_map_of_mem hu)
      rw [Bool.not_eq_true', ← Bool.not_eq_true, h.bigger_iff (List.mem_append_left _ hu)] at hnot
      exact not_lt.1 hnot
    have hlt : timerKey (s.added, o) < timerKey t := (h.bigger_iff (by simp) _).1 hold
    have hlist : s.tl_tmlist.Holds s.to_node (l1.map Prod.fst ++ t.1 :: l2.map Prod.fst) := by
      rw [← hsplit]
      exact h.list
    obtain ⟨tl, links, hins, htl⟩ := hlist.insertFront (hsplit ▸ hnew)
    simp only [hins, ok_bind, pure_ok]
    refine ⟨_, rfl, h.enqueued o ?_, rfl, rfl⟩
    rw [enqueue_append hall, enqueue_cons, if_pos hlt, List.map_append]
    exact htl

end Queue

section Run

variable {s s' : TimerState} {c : SharedTime} {l d : List Timer} {t : Timer} {fuel n : ℕ} {now : ℤ}
  {body : Timer → List TimerAdd} {as : List TimerAdd}

/-- The timers that calls of `plm_timer_add` at `now` make, the first of them with the number
`n`. -/
def newTimers (now : ℤ) : ℕ → List TimerAdd → List Timer
  | _, [] => []
  | n, a :: as =>
    if a.mem then (n, ⟨a.handler, a.data, now + a.delta⟩) :: newTimers now (n + 1) as
      else newTimers now n as

theorem newTimers_append (as bs : List TimerAdd) :
    newTimers now n (as ++ bs) = newTimers now n as ++ newTimers now
      (n + (newTimers now n as).length) bs := by
  induction as generalizing n with
  | nil => rfl
  | cons a as ih =>
    rw [List.cons_append, newTimers, newTimers]
    split_ifs
    · rw [ih, List.cons_append, List.length_cons, Nat.add_right_comm, Nat.add_assoc]
    · exact ih

theorem mem_newTimers (h : t ∈ newTimers now n as) :
    n ≤ t.1 ∧ ∃ a ∈ as, timerKey t = now + a.delta := by
  induction as generalizing n with
  | nil => cases h
  | cons a as ih =>
    rw [newTimers] at h
    split_ifs at h
    · rcases List.mem_cons.1 h with rfl | h
      · exact ⟨le_rfl, a, List.mem_cons_self, rfl⟩
      · obtain ⟨hn, b, hb, hkey⟩ := ih h
        exact ⟨Nat.le_of_succ_le hn, b, List.mem_cons_of_mem _ hb, hkey⟩
    · obtain ⟨hn, b, hb, hkey⟩ := ih h
      exact ⟨hn, b, List.mem_cons_of_mem _ hb, hkey⟩

/-- The variable has this value, and no other thread puts another one there. -/
def SharedTime.Stays (c : SharedTime) (now : ℤ) : Prop :=
  c.current_time_ms = now ∧ ∀ v, some v ∈ c.others → v = now

theorem SharedTime.Stays.read (h : c.Stays now) : c.read.1 = now ∧ c.read.2.Stays now := by
  obtain ⟨rfl, hothers⟩ := h
  obtain ⟨current, others⟩ := c
  cases others with
  | nil => exact ⟨rfl, rfl, hothers⟩
  | cons w ws =>
    have hw : w.getD current = current := by
      cases w with
      | none => rfl
      | some v => exact hothers v List.mem_cons_self
    exact ⟨hw, hw, fun v hv => hothers v (List.mem_cons_of_mem _ hv)⟩

/-- `plm_timer_add` puts the timer into the queue, if there is memory for it. -/
theorem TimerQueue.add (h : TimerQueue s l) (a : TimerAdd) (c : SharedTime) :
    (a.mem = true → ∃ s', timerAdd a c s = .ok (0, c.read.2, s') ∧
      TimerQueue s' (enqueue timerKey (s.added, ⟨a.handler, a.data, c.read.1 + a.delta⟩) l) ∧
      s'.called = s.called ∧ s'.added = s.added + 1) ∧
    (a.mem = false → timerAdd a c s = .ok (-1, c, s)) := by
  unfold timerAdd
  cases a.mem with
  | false => exact ⟨nofun, fun _ => rfl⟩
  | true =>
    obtain ⟨s', hins, hq, hcalled, hadded⟩ := h.insert ⟨a.handler, a.data, c.read.1 + a.delta⟩
    rw [if_pos rfl, hins]
    exact ⟨fun _ => ⟨s', rfl, hq, hcalled, hadded⟩, nofun⟩

/-- What a handler adds with positive delays goes behind all that is due, and each of its timers is
there. -/
theorem TimerQueue.adds (h : TimerQueue s (d ++ l)) (hd : ∀ t ∈ d, timerKey t ≤ now)
    (hc : c.Stays now)
    (has : ∀ a ∈ as, 0 < a.delta) : ∃ c' s', timerAdds as c s = .ok (c', s') ∧ c'.Stays now ∧
      TimerQueue s' (d ++ enqueueAll timerKey (newTimers now s.added as) l) ∧ s'.called = s.called ∧
      s'.added = s.added + (newTimers now s.added as).length := by
  induction as generalizing s c l with
  | nil => exact ⟨c, s, rfl, hc, h, rfl, rfl⟩
  | cons a as ih =>
    obtain ⟨ha, has⟩ := List.forall_mem_cons.1 has
    obtain ⟨hmem, hno⟩ := h.add a c
    rw [newTimers, timerAdds]
    cases hm : a.mem with
    | false =>
      rw [hno hm]
      exact ih h hc has
    | true =>
      obtain ⟨hnow, hstays⟩ := hc.read
      obtain ⟨s1, hadd, hq, hcalled, hadded⟩ := hmem hm
      rw [hnow, enqueue_append fun t ht => (hd t ht).trans (by simp only [timerKey]; omega)] at hq
      obtain ⟨c', s', hadds, hc', hq', hcalled', hadded'⟩ := ih hq hstays has
      rw [hadd, if_pos rfl]
      rw [hadded] at hq' hadded'
      refine ⟨c', s', hadds, hc', hq', hcalled'.trans hcalled, ?_⟩
      rw [hadded', List.length_cons]
      omega

theorem TimerQueue.take_due (h : TimerQueue s (t :: l)) (ht : timerKey t ≤ c.read.1) :
    ∃ s', timerTake c s = .ok (c.read.2, some (t, s')) ∧ TimerQueue s' l ∧
      s'.called = s.called ++ [t] ∧
      s'.added = s.added := by
  obtain ⟨tl, links, hdel, htl⟩ := h.list.delFront
  unfold timerTake
  rw [h.list.head_eq]
  simp only [List.map_cons, List.head?_cons, h.obj t List.mem_cons_self]
  rw [if_neg (show ¬ t.2.to_expire > c.read.1 from not_lt.2 ht), hdel]
  exact ⟨_, rfl, ⟨htl, fun u hu => h.obj u (List.mem_cons_of_mem _ hu), fun u hu =>
    h.fresh u (List.mem_cons_of_mem _ hu), (List.pairwise_cons.1 h.ordered).2⟩, rfl, rfl⟩

theorem TimerQueue.take_later (h : TimerQueue s (t :: l)) (ht : c.read.1 < timerKey t) :
    timerTake c s = .ok (c.read.2, none) := by
  unfold timerTake
  rw [h.list.head_eq]
  simp only [List.map_cons, List.head?_cons, h.obj t List.mem_cons_self]
  exact if_pos ht

theorem TimerQueue.free (h : TimerQueue s l) {node : ℕ} (hnode : node ∉ l.map Prod.fst) :
    TimerQueue (timerFree node s) l where
  list := ⟨(dseg_update hnode none).2 h.list.1, h.list.2⟩
  obj := by
    intro t ht
    have hne : t.1 ≠ node := fun heq => hnode (heq ▸ List.mem_map_of_mem ht)
    exact (Function.update_of_ne hne ..).trans (h.obj t ht)
  fresh := h.fresh
  ordered := h.ordered

/-- The timer whose handler was called is in the list no more, and no new one has its number. -/
theorem TimerQueue.taken_gone (h : TimerQueue s (t :: (d ++ l))) :
    t.1 ∉ (d ++ enqueueAll timerKey (newTimers now s.added as) l).map Prod.fst := by
  intro hmem
  have hnodup := h.list.nodup
  rw [List.map_cons, List.nodup_cons] at hnodup
  obtain ⟨u, hu, heq⟩ := List.mem_map.1 hmem
  rw [List.mem_append, mem_enqueueAll, or_left_comm] at hu
  rcases hu with hu | hu
  · have hle := (mem_newTimers hu).1
    rw [heq] at hle
    exact absurd (h.fresh t List.mem_cons_self) (not_lt.2 hle)
  · exact hnodup.1 (List.mem_map.2 ⟨u, List.mem_append.2 hu, heq⟩)

/-- The loop calls the handlers of the due timers `d`, and leaves what is not due and what they
added. -/
theorem TimerQueue.runLoop (h : TimerQueue s (d ++ l)) (hne : d ++ l ≠ []) (hc : c.Stays now)
    (hd : ∀ t ∈ d, timerKey t ≤ now) (hl : ∀ t ∈ l, now < timerKey t)
    (hbody : ∀ t, ∀ a ∈ body t, 0 < a.delta)
    (hfuel : d.length < fuel) : ∃ c' s', timerRunLoop body fuel c s = .ok (c', s') ∧ c'.Stays now ∧
      TimerQueue s' (enqueueAll timerKey (newTimers now s.added (d.flatMap body)) l) ∧
        s'.called = s.called ++ d := by
  obtain ⟨hnow, hstays⟩ := hc.read
  induction d generalizing s c l fuel with
  | nil =>
    obtain ⟨fuel, rfl⟩ := Nat.exists_eq_add_of_le' (Nat.one_le_of_lt hfuel)
    obtain ⟨t, l, rfl⟩ := List.exists_cons_of_ne_nil hne
    rw [timerRunLoop, h.take_later (hnow ▸ hl t List.mem_cons_self), ok_bind]
    exact ⟨_, s, rfl, hstays, h, (List.append_nil _).symm⟩
  | cons t d ih =>
    obtain ⟨fuel, rfl⟩ := Nat.exists_eq_add_of_le' (Nat.one_le_of_lt hfuel)
    obtain ⟨ht, hd⟩ := List.forall_mem_cons.1 hd
    obtain ⟨s1, htake, h1, hcalled, hadded⟩ := h.take_due (c := c) (hnow ▸ ht)
    obtain ⟨c2, s2, hadds, hc2, h2, hcalled2, hadded2⟩ := h1.adds hd hstays (hbody t)
    rw [hadded] at h2 hadded2
    have h3 := h2.free h.taken_gone
    have hl2 : ∀ u ∈ enqueueAll timerKey (newTimers now s.added (body t)) l, now < timerKey u := by
      intro u hu
      rcases mem_enqueueAll.1 hu with hu | hu
      · obtain ⟨-, a, ha, hkey⟩ := mem_newTimers hu
        have hpos := hbody t a ha
        omega
      · exact hl u hu
    rw [timerRunLoop, htake, ok_bind, List.flatMap_cons, newTimers_append, enqueueAll_append]
    simp only [hadds, ok_bind]
    rw [h3.list.2, List.length_map]
    split_ifs with hlen
    · obtain ⟨rfl, hnil⟩ := List.append_eq_nil_iff.1 (List.length_eq_zero_iff.1 hlen)
      exact ⟨c2, _, rfl, hc2, h3, hcalled2.trans hcalled⟩
    · obtain ⟨c', s', hloop, hc', hq, hcalled'⟩ :=
        ih h3 (fun hnil => hlen (by rw [hnil]; rfl)) hc2 hd hl2
        (Nat.lt_of_succ_lt_succ hfuel) hc2.read.1 hc2.read.2
      rw [show (timerFree t.1 s2).added = s2.added from rfl, hadded2] at hq
      refine ⟨c', s', hloop, hc', hq, ?_⟩
      rw [hcalled', show (timerFree t.1 s2).called = s.called ++ [t] from hcalled2.trans hcalled,
        List.append_assoc]
      rfl

/-- What a call of `plm_timer_run` at `now` leaves and returns: the due timers were called in the
order of the queue and are gone, and those that are not due are there, with what the handlers
added. -/
structure Ran (now : ℤ) (body : Timer → List TimerAdd) (ret : ℤ) (s s' : TimerState)
    (l l' : List Timer) : Prop where
  queue : TimerQueue s' l'
  called : s'.called = s.called ++ l.filter fun t => timerKey t ≤ now
  left : l' = enqueueAll timerKey
    (newTimers now s.added ((l.filter fun t => timerKey t ≤ now).flatMap body))
    (l.filter fun t => now < timerKey t)
  later : ∀ t ∈ l', now < timerKey t
  ret_nil : l' = [] → ret = 0
  ret_cons : ∀ t l'', l' = t :: l'' → timerKey t - now < 2 ^ 31 → ret = timerKey t - now ∧ 0 < ret

theorem TimerQueue.next (h : TimerQueue s l) (hl : ∀ t ∈ l, c.read.1 < timerKey t) :
    ∃ ret c', timerNext c s = .ok (ret, c') ∧ (l = [] → ret = 0) ∧ ∀ t l', l = t :: l' →
      timerKey t - c.read.1 < 2 ^ 31 → ret = timerKey t - c.read.1 ∧ 0 < ret := by
  unfold timerNext
  rw [h.list.2, List.length_map]
  cases l with
  | nil => exact ⟨0, c, rfl, fun _ => rfl, by simp⟩
  | cons t l =>
    have ht := hl t List.mem_cons_self
    rw [if_neg (by simp), h.list.head_eq]
    simp only [List.map_cons, List.head?_cons, Option.bind_some, h.obj t List.mem_cons_self]
    refine ⟨_, _, rfl, by simp, ?_⟩
    rintro u l' heq hint
    cases heq
    have hmod : (timerKey t - c.read.1).bmod (2 ^ 32) = timerKey t - c.read.1 :=
      Int.bmod_eq_of_le (by omega) (by omega)
    exact ⟨hmod, by rw [show t.2.to_expire = timerKey t from rfl, hmod]; omega⟩

/-- `plm_timer_run` returns, and does what it is for, while nobody else sets the time. -/
theorem TimerQueue.run (h : TimerQueue s l) (hc : ∀ v, some v ∈ c.others → v = now)
    (hbody : ∀ t, ∀ a ∈ body t, 0 < a.delta) (hfuel : l.length < fuel) :
    ∃ ret c' s' l', timerRun fuel now body c s = .ok (ret, c', s') ∧
      Ran now body ret s s' l l' := by
  have hstays : (timerUpdateCurrent now c).Stays now := ⟨rfl, hc⟩
  unfold timerRun
  simp only
  rw [h.list.2, List.length_map]
  split_ifs with hempty
  · obtain rfl := List.length_eq_zero_iff.1 hempty
    exact ⟨0, _, s, [], rfl, h, (List.append_nil _).symm, rfl, by simp, fun _ => rfl, by simp⟩
  · have hsplit := h.ordered.filter_append now
    have hq := h
    rw [hsplit] at hq
    have hlater : ∀ t ∈ l.filter (fun t => now < timerKey t), now < timerKey t :=
      fun t ht => of_decide_eq_true (List.mem_filter.1 ht).2
    obtain ⟨c1, s', hloop, hc1, hq', hcalled⟩ := hq.runLoop
      (by rw [← hsplit]; exact fun hnil => hempty (by rw [hnil]; rfl)) hstays
      (fun t ht => of_decide_eq_true (List.mem_filter.1 ht).2) hlater hbody
      ((List.length_filter_le ..).trans_lt hfuel)
    have hdue : ∀ t ∈ enqueueAll timerKey
      (newTimers now s.added ((l.filter fun t => timerKey t ≤ now).flatMap body))
        (l.filter fun t => now < timerKey t), now < timerKey t := by
      intro t ht
      rcases mem_enqueueAll.1 ht with ht | ht
      · obtain ⟨-, a, ha, hkey⟩ := mem_newTimers ht
        obtain ⟨u, -, hu⟩ := List.mem_flatMap.1 ha
        have hpos := hbody u a hu
        omega
      · exact hlater t ht
    obtain ⟨hnow, -⟩ := hc1.read
    obtain ⟨ret, c', hret, hnil, hcons⟩ := hq'.next (c := c1) (hnow.symm ▸ hdue)
    rw [hloop, ok_bind, hret]
    rw [hnow] at hcons
    exact ⟨ret, c', s', _, rfl, hq', hcalled, rfl, hdue, hnil, hcons⟩

end Run

section Calls

structure TimerProc where
  current_time_ms : ℤ
  thread : TimerState

/-- The calls of a thread, each with what other threads write into the variable meanwhile. -/
inductive TimerOp
  | add (a : TimerAdd) (others : List (Option ℤ))
  | run (fuel : ℕ) (now : ℤ) (body : Timer → List TimerAdd) (others : List (Option ℤ))

def timerStart : TimerProc := ⟨0, timerInit⟩

def timerStep (p : TimerProc) : TimerOp → Option TimerProc
  | .add a others =>
    (timerAdd a ⟨p.current_time_ms, others⟩ p.thread).toOption.map fun r => ⟨r.2.1.current_time_ms,
      r.2.2⟩
  | .run fuel now body others =>
    (timerRun fuel now body ⟨p.current_time_ms,
      others⟩ p.thread).toOption.map fun r => ⟨r.2.1.current_time_ms, r.2.2⟩

/-- Delays are not negative, and those that handlers ask for positive; there is fuel for every timer
in the list. -/
def TimerRule (p : TimerProc) : TimerOp → Prop
  | .add a _ => 0 ≤ a.delta
  | .run fuel _ body _ => p.thread.tl_tmlist.d_len < fuel ∧ ∀ t, ∀ a ∈ body t, 0 < a.delta

/-- While the thread is in `plm_timer_run`, no other one writes another time than it has read
itself. -/
def Undisturbed : TimerOp → Prop
  | .add _ _ => True
  | .run _ now _ others => ∀ v, some v ∈ others → v = now

theorem timerStep_queue {p : TimerProc} (h : ∃ l, TimerQueue p.thread l) (op : TimerOp)
    (hop : TimerRule p op)
    (hquiet : Undisturbed op) : ∃ p', timerStep p op = some p' ∧ ∃ l, TimerQueue p'.thread l := by
  obtain ⟨l, h⟩ := h
  cases op with
  | add a others =>
    obtain ⟨hmem, hno⟩ := h.add a ⟨p.current_time_ms, others⟩
    cases hm : a.mem with
    | false => exact ⟨_, by rw [timerStep, hno hm]; rfl, l, h⟩
    | true =>
      obtain ⟨s', hadd, hq, -⟩ := hmem hm
      exact ⟨_, by rw [timerStep, hadd]; rfl, _, hq⟩
  | run fuel now body others =>
    obtain ⟨hfuel, hbody⟩ := hop
    rw [h.list.2, List.length_map] at hfuel
    obtain ⟨ret, c', s', l', hrun, hran⟩ :=
      h.run (c := ⟨p.current_time_ms, others⟩) hquiet hbody hfuel
    exact ⟨_, by rw [timerStep, hrun]; rfl, l', hran.queue⟩

def RunsRight (p : TimerProc) (l : List Timer) (fuel : ℕ) (now : ℤ) (body : Timer → List TimerAdd)
    (others : List (Option ℤ)) : Prop :=
  ∃ ret c s' l', timerRun fuel now body ⟨p.current_time_ms, others⟩ p.thread = .ok (ret, c, s') ∧
    Ran now body ret p.thread s' l l'

/-- Behind any calls that nobody disturbs the list is the queue of its timers. A further
`plm_timer_add` puts its timer into that queue or changes nothing, and a further `plm_timer_run`
calls exactly the due timers. -/
theorem timer_queue (ops : List TimerOp) (hops : Meets timerStep TimerRule timerStart ops)
    (hquiet : ∀ op ∈ ops, Undisturbed op) :
    ∃ p l, run timerStep timerStart ops = some p ∧ TimerQueue p.thread l ∧
      (∀ (a : TimerAdd) (c : SharedTime), 0 ≤ a.delta →
        (a.mem = true → ∃ s', timerAdd a c p.thread = .ok (0, c.read.2, s') ∧
          TimerQueue s' (enqueue timerKey (p.thread.added, ⟨a.handler, a.data,
            c.read.1 + a.delta⟩) l)) ∧
        (a.mem = false → timerAdd a c p.thread = .ok (-1, c, p.thread))) ∧
      ∀ fuel now body others, l.length < fuel → (∀ t, ∀ a ∈ body t, 0 < a.delta) →
        Undisturbed (.run fuel now body others) → RunsRight p l fuel now body others := by
  have hboth : Meets timerStep (fun p op => TimerRule p op ∧ Undisturbed op) timerStart ops := by
    intro pre op hpre p hp
    exact ⟨hops pre op hpre p hp, hquiet op (hpre.subset (by simp))⟩
  obtain ⟨p, hp, l, h⟩ :=
    run_of_invariant timerStep (I := fun p => ∃ l, TimerQueue p.thread l) ⟨[], timerQueue_init⟩
    (fun _ op h hop => timerStep_queue h op hop.1 hop.2) hboth
  refine ⟨p, l, hp, h, fun a c _ => ?_, fun fuel now body others hfuel hbody hq => ?_⟩
  · obtain ⟨hmem, hno⟩ := h.add a c
    refine ⟨fun hm => ?_, hno⟩
    obtain ⟨s', hadd, hq, -⟩ := hmem hm
    exact ⟨s', hadd, hq⟩
  · exact h.run hq hbody hfuel

/-- Two timers with the same delay, a run that calls nothing, and one that calls both, of which the
first adds another. -/
def twoTimers : List TimerOp :=
  [.run 1 100 (fun _ => []) [], .add ⟨true, 1, 0, 5⟩ [], .add ⟨true, 2, 0, 5⟩ [],
    .run 3 104 (fun _ => []) [],
    .run 3 105 (fun t => if t.1 = 0 then [⟨true, 3, 0, 1⟩] else []) [none, some 105]]

theorem timer_queue_two :
    ∃ p l, run timerStep timerStart twoTimers = some p ∧ TimerQueue p.thread l ∧
    p.thread.called.map Prod.fst = [0, 1] ∧ RunsRight p l 3 106 (fun _ => []) [] := by
  have hops : Meets timerStep TimerRule timerStart twoTimers := by
    refine (meets_cons _).2 ⟨⟨by decide, by simp⟩, fun _ h => ?_⟩
    cases h
    refine (meets_cons _).2 ⟨by simp [TimerRule], fun _ h => ?_⟩
    cases h
    refine (meets_cons _).2 ⟨by simp [TimerRule], fun _ h => ?_⟩
    cases h
    refine (meets_cons _).2 ⟨⟨by decide, by simp⟩, fun _ h => ?_⟩
    cases h
    refine (meets_cons _).2 ⟨⟨by decide, fun t a ha => ?_⟩, fun _ _ => meets_nil _ _ _⟩
    simp only at ha
    split_ifs at ha
    · rw [List.mem_singleton] at ha
      rw [ha]
      decide
    · cases ha
  have hquiet : ∀ op ∈ twoTimers, Undisturbed op := by simp [twoTimers, Undisturbed]
  obtain ⟨p, l, hp, h, -, hright⟩ := timer_queue twoTimers hops hquiet
  cases hp
  have hlen : l.length = 1 := (List.length_map ..).symm.trans h.list.2.symm
  exact
    ⟨_, l, rfl, h, rfl, hright 3 106 (fun _ => []) [] (by omega) (by simp) (by simp [Undisturbed])⟩

/-- The timer at 105 is still to come for a run that reads 104, and when that says how long there is
to wait, another thread has read 200: the result is negative. -/
theorem not_timer_queue : ¬ ∀ ops, Meets timerStep TimerRule timerStart ops →
    ∀ p l, run timerStep timerStart ops = some p →
    TimerQueue p.thread l → ∀ fuel now body others, l.length < fuel →
      (∀ t, ∀ a ∈ body t, 0 < a.delta) →
      RunsRight p l fuel now body others := by
  intro h
  have hops : Meets timerStep TimerRule timerStart [.add ⟨true, 1, 0, 105⟩ []] :=
    (meets_cons _).2 ⟨by simp [TimerRule], fun _ _ => meets_nil _ _ _⟩
  obtain ⟨s, hadd, hq, -⟩ := (timerQueue_init.add ⟨true, 1, 0, 105⟩ ⟨0, []⟩).1 rfl
  have hrun : run timerStep timerStart [.add ⟨true, 1, 0, 105⟩ []] = some ⟨0, s⟩ := by
    change (timerStep timerStart (.add ⟨true, 1, 0, 105⟩ [])).bind _ = _
    rw [timerStep, timerStart, hadd]
    rfl
  obtain ⟨ret, c, s', l', hret, hran⟩ :=
    h _ hops _ _ hrun hq 2 104 (fun _ => []) [none, some 200] (by decide) (by simp)
  cases hadd
  cases hret
  exact absurd (hran.ret_cons (0, ⟨1, 0, 105⟩) [] hran.left (by decide)).2 (by decide)

end Calls

end Plume
