import Plume.Timer

/-! `plm_timer_del` takes a timer off by its handler and data. It gives neither to the search: what
the search compares with is read through a pointer that was never set, and so is what it leaves in
`node` when nothing matches. Both are here as what they happen to be. -/

namespace Plume
open CLib

section Del

def timerEqual (s : TimerState) (to_expire : ℤ) (node : ℕ) : Bool :=
  (s.obj node).any fun o => o.to_expire = to_expire

/-- The search for an equal timer. `obj` is the `to_expire` that the pointer happens to lead to. -/
def timerSearchEqual (obj : Option ℤ) (s : TimerState) : Except Fault (Option ℕ) :=
  if s.tl_tmlist.d_head = none then .ok none
  else
    match obj with
    | none => .error .wild
    | some to_expire =>
      s.tl_tmlist.search (timerEqual s to_expire) s.tl_tmlist.d_len s.to_node

def timerDrop (node : Option ℕ) (s : TimerState) : Except Fault TimerState :=
  match node with
  | none => .ok s
  | some node => do
    let (l, links) ← s.tl_tmlist.remove node s.to_node
    return timerFree node { s with tl_tmlist := l, to_node := links }

/-- `plm_timer_del`, where the handler and the data are not used. -/
def timerDel (_handler _data : ℕ) (obj : Option ℤ) (node : Option ℕ) (s : TimerState) :
    Except Fault TimerState := do
  let found ← timerSearchEqual obj s
  timerDrop (found.orElse fun _ => node) s

end Del

section Spec

structure TimerList (s : TimerState) (l : List Timer) : Prop where
  list : s.tl_tmlist.Holds s.to_node (l.map Prod.fst)
  obj : ∀ t ∈ l, s.obj t.1 = some t.2

def AddedWith (handler data : ℕ) (t : Timer) : Prop := t.2.to_handler = handler ∧ t.2.to_data = data

/-- The timer `t` was taken out of the list and given back to the pool, and nothing else. -/
structure Deleted (t : Timer) (rest : List Timer) (s s' : TimerState) : Prop where
  list : TimerList s' rest
  pool : s'.obj = Function.update s.obj t.1 none
  called : s'.called = s.called

/-- One timer with the handler and data is deleted, or there is none and nothing changes. -/
def DelRight (handler data : ℕ) (l : List Timer) (s : TimerState) (res : Except Fault TimerState) :
    Prop :=
  (∃ l1 t l2 s', l = l1 ++ t :: l2 ∧ AddedWith handler data t ∧ res = .ok s' ∧
    Deleted t (l1 ++ l2) s s') ∨
    ((∀ t ∈ l, ¬ AddedWith handler data t) ∧ res = .ok s)

/-- Where the search ends: at the first timer that expires at the time it happens to compare with,
and otherwise `node` is what it happened to be. -/
def picked (obj : Option ℤ) (node : Option ℕ) (l : List Timer) : Option ℕ :=
  ((l.find? fun t => some (timerKey t) = obj).map Prod.fst).orElse fun _ => node

/-- There is no timer to compare, or something to compare with; and the search happens to end at a
timer with the handler and data, or with `NULL` where there is none. -/
def Aimed (handler data : ℕ) (obj : Option ℤ) (node : Option ℕ) (l : List Timer) : Prop :=
  (l = [] ∨ obj ≠ none) ∧
    match picked obj node l with
    | some n => ∃ t ∈ l, t.1 = n ∧ AddedWith handler data t
    | none => ∀ t ∈ l, ¬ AddedWith handler data t

end Spec

section Proofs

variable {s s' : TimerState} {l : List Timer} {t : Timer} {handler data : ℕ} {obj : Option ℤ}
  {node : Option ℕ}

theorem TimerQueue.timerList (h : TimerQueue s l) : TimerList s l := ⟨h.list, h.obj⟩

theorem TimerList.head_none (h : TimerList s l) : s.tl_tmlist.d_head = none ↔ l = [] := by
  rw [h.list.head_eq, List.head?_map, Option.map_eq_none_iff, List.head?_eq_none_iff]

theorem TimerList.search (h : TimerList s l) (e : ℤ) :
    s.tl_tmlist.search (timerEqual s e) s.tl_tmlist.d_len s.to_node =
      .ok ((l.find? fun t => some (timerKey t) = some e).map Prod.fst) := by
  have hfind := Slist.seg_search (p := timerEqual s e) (dseg_seg h.list.1) h.list.2.symm.le
  rw [Dlist.search, hfind, List.find?_map]
  congr 2
  refine List.find?_congr fun t ht => ?_
  rw [Function.comp_apply, timerEqual, h.obj t ht, Option.any_some]
  simp [timerKey]

/-- With something to compare with, or no timer to compare, the search ends and its pick is
dropped. -/
theorem TimerList.del (h : TimerList s l) (hobj : l = [] ∨ obj ≠ none) :
    timerDel handler data obj node s = timerDrop (picked obj node l) s := by
  unfold timerDel timerSearchEqual
  by_cases hl : l = []
  · rw [if_pos (h.head_none.2 hl), hl]
    rfl
  · obtain ⟨e, rfl⟩ := Option.ne_none_iff_exists'.1 (hobj.resolve_left hl)
    rw [if_neg fun hnone => hl (h.head_none.1 hnone)]
    simp only [h.search e, ok_bind]
    rfl

theorem TimerList.drop {l1 l2 : List Timer} (h : TimerList s (l1 ++ t :: l2)) :
    ∃ s', timerDrop (some t.1) s = .ok s' ∧ Deleted t (l1 ++ l2) s s' := by
  have hlist := h.list
  rw [List.map_append, List.map_cons] at hlist
  have hnot : t.1 ∉ (l1 ++ l2).map Prod.fst := by
    rw [List.map_append]
    exact (List.nodup_cons.1 (List.nodup_middle.1 hlist.nodup)).1
  obtain ⟨tl, links, hrem, htl⟩ := hlist.remove
  rw [← List.map_append] at htl
  simp only [timerDrop, hrem, ok_bind, pure_ok]
  refine ⟨_, rfl, ⟨⟨(dseg_update hnot none).2 htl.1, htl.2⟩, fun u hu => ?_⟩, rfl, rfl⟩
  have hne : u.1 ≠ t.1 := fun heq => hnot (heq ▸ List.mem_map_of_mem hu)
  have hmem : u ∈ l1 ++ t :: l2 := by
    rcases List.mem_append.1 hu with hu | hu
    · exact List.mem_append_left _ hu
    · exact List.mem_append_right _ (List.mem_cons_of_mem _ hu)
  exact (Function.update_of_ne hne ..).trans (h.obj u hmem)

/-- A node that is dropped was in memory, and is the only one given back. -/
theorem drop_cases {n : ℕ} (h : timerDrop (some n) s = .ok s') :
    s.to_node n ≠ none ∧ s'.to_node n = none ∧ s'.obj = Function.update s.obj n none := by
  unfold timerDrop at h
  obtain ⟨⟨tl, links⟩, hrem, h⟩ := bind_eq_ok.1 h
  obtain rfl := Except.ok.inj h
  refine ⟨fun hnone => ?_, Function.update_self .., rfl⟩
  rw [Dlist.remove, hnone] at hrem
  cases hrem

/-- A timer that is deleted is one of the list, so it was there. -/
theorem Deleted.pool_self {rest : List Timer} (h : Deleted t rest s s') : s'.obj t.1 = none := by
  rw [h.pool]
  exact Function.update_self ..

/-- `plm_timer_del` is right exactly where the pointers that were never set happen to aim it. -/
theorem timerDel_iff (handler data : ℕ) (obj : Option ℤ) (node : Option ℕ) (s : TimerState)
    (l : List Timer)
    (h : TimerList s l) :
    DelRight handler data l s (timerDel handler data obj node s) ↔
      Aimed handler data obj node l := by
  by_cases hobj : l = [] ∨ obj ≠ none
  swap
  · -- the comparison follows a pointer that leads nowhere
    rw [not_or, not_not] at hobj
    have hfault : timerDel handler data obj node s = .error .wild := by
      unfold timerDel timerSearchEqual
      rw [if_neg fun hnone => hobj.1 (h.head_none.1 hnone), hobj.2]
      rfl
    refine iff_of_false ?_ fun haim => haim.1.elim hobj.1 fun hne => hne hobj.2
    rw [hfault]
    rintro (⟨_, _, _, _, -, -, hres, -⟩ | ⟨-, hres⟩)
    · exact absurd hres nofun
    · exact absurd hres nofun
  rw [h.del hobj, Aimed, and_iff_right hobj]
  cases picked obj node l with
  | none =>
    constructor
    · rintro (⟨l1, t, l2, s', rfl, -, hres, hdel⟩ | ⟨hno, -⟩)
      · obtain rfl := Except.ok.inj hres
        have hlive := h.obj t (by simp)
        rw [hdel.pool_self] at hlive
        exact absurd hlive nofun
      · exact hno
    · exact fun hno => .inr ⟨hno, rfl⟩
  | some n =>
    constructor
    · rintro (⟨l1, t, l2, s', rfl, hadded, hres, hdel⟩ | ⟨-, hres⟩)
      · refine ⟨t, by simp, ?_, hadded⟩
        by_contra hne
        have hgone := hdel.pool_self
        rw [(drop_cases hres).2.2, Function.update_of_ne hne, h.obj t (by simp)] at hgone
        exact absurd hgone nofun
      · obtain ⟨hsome, hnone, -⟩ := drop_cases hres
        exact absurd hnone hsome
    · rintro ⟨t, ht, rfl, hadded⟩
      obtain ⟨l1, l2, rfl⟩ := List.append_of_mem ht
      obtain ⟨s', hdrop, hdel⟩ := h.drop
      exact .inl ⟨l1, t, l2, s', rfl, hadded, hdrop, hdel⟩

def oneTimer : List Timer := [(0, ⟨7, 9, 5⟩)]

theorem timerList_one : ∃ s, timerAdd ⟨true, 7, 9, 5⟩ ⟨0, []⟩ timerInit = .ok (0, ⟨0, []⟩, s) ∧
    TimerList s oneTimer := by
  obtain ⟨s, hadd, hq, -⟩ := (timerQueue_init.add ⟨true, 7, 9, 5⟩ ⟨0, []⟩).1 rfl
  exact ⟨s, hadd, hq.timerList⟩

theorem timerDel_iff_one : ∃ s, timerAdd ⟨true, 7, 9, 5⟩ ⟨0, []⟩ timerInit = .ok (0, ⟨0, []⟩, s) ∧
    DelRight 7 9 oneTimer s (timerDel 7 9 (some 5) none s) := by
  obtain ⟨s, hadd, h⟩ := timerList_one
  exact ⟨s, hadd, (timerDel_iff 7 9 (some 5) none s oneTimer h).2 ⟨.inr nofun, _,
    List.mem_singleton_self _, rfl, rfl, rfl⟩⟩

/-- The timer stays where the time that it is compared with happens to be another, and a timer that
was never asked for goes where it happens to be its own. -/
theorem not_delRight : ∃ s, timerAdd ⟨true, 7, 9, 5⟩ ⟨0, []⟩ timerInit = .ok (0, ⟨0, []⟩, s) ∧
    ¬ DelRight 7 9 oneTimer s (timerDel 7 9 (some 6) none s) ∧
    ¬ DelRight 8 9 oneTimer s (timerDel 8 9 (some 5) none s) := by
  obtain ⟨s, hadd, h⟩ := timerList_one
  refine ⟨s, hadd, ?_, ?_⟩
  · have hnull : picked (some 6) none oneTimer = none := by decide
    rw [h.del (.inr (Option.some_ne_none 6)), hnull]
    rintro (⟨l1, t, l2, s', hl, -, hres, hdel⟩ | ⟨hno, -⟩)
    · obtain rfl := Except.ok.inj hres
      have hlive := h.obj t (hl ▸ List.mem_append_right l1 List.mem_cons_self)
      rw [hdel.pool_self] at hlive
      exact absurd hlive nofun
    · exact hno _ (List.mem_singleton_self _) ⟨rfl, rfl⟩
  · have hfirst : picked (some 5) none oneTimer = some 0 := by decide
    rw [h.del (.inr (Option.some_ne_none 5)), hfirst]
    rintro (⟨l1, t, l2, s', hl, hadded, -, -⟩ | ⟨-, hres⟩)
    · have ht : t ∈ oneTimer := hl ▸ List.mem_append_right l1 List.mem_cons_self
      rw [List.mem_singleton.1 ht] at hadded
      exact absurd hadded.1 (by decide)
    · obtain ⟨hsome, hnone, -⟩ := drop_cases hres
      exact hsome hnone

end Proofs

end Plume
