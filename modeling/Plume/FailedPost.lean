import Plume.Event

/-! A post that the kernel refuses. `plm_epoll_io_ctl` takes its own flag back, but the handler was
stored before it was called, and stays stored with the data that callers free on an error. -/

namespace Plume
open CLib

def postings (curr_slot : ℕ) :
    List (Dir × (ℕ → Handler → Bool → EventIo → Except Fault (Bool × EventIo))) :=
  [(.read, eventIoRead curr_slot), (.read, eventIoRead2), (.write, eventIoWrite curr_slot),
    (.write, eventIoWrite2)]

def EventIoHandler.stored (eih : EventIoHandler) (d : Dir) : Option (ℕ × ℕ) :=
  (eih.pending d).map fun h => (h.fn, h.data)

/-- Neither the handlers and data of a descriptor nor its flag have changed. -/
structure PostUndone (e e' : EventIo) : Prop where
  handlers : ∀ x d, (e'.ei_events_arr x).stored d = (e.ei_events_arr x).stored d
  flags : e'.comm = e.comm

section Failed

variable {e e' : EventIo} {fd : ℕ} {flag : Dir} {t : Poller} {handler : Handler} {refuse : Bool}
  {c c1 c2 : Comm}

theorem get_set {cf : CommFd} (h : c.get fd = .ok cf) (cf' : CommFd) :
    (c.set fd cf').get fd = .ok cf' := by
  unfold Comm.get at h
  split at h
  · next hget =>
    have hlt : fd < c.commfd_array.length := (List.getElem?_eq_some_iff.1 hget).1
    unfold Comm.get Comm.set
    simp [hlt]
  · exact absurd h nofun

theorem set_get {cf : CommFd} (h : c.get fd = .ok cf) : c.set fd cf = c := by
  unfold Comm.get at h
  split at h
  · next hget =>
    obtain rfl := Except.ok.inj h
    obtain ⟨hlt, hcf⟩ := List.getElem?_eq_some_iff.1 hget
    unfold Comm.set
    rw [← hcf, List.set_getElem_self]
  · exact absurd h nofun

/-- A flag that was not set and is set and taken back is as it was. -/
theorem flag_restored (h : commGetFlagAdded fd c = .ok false)
    (h1 : commSetFlagAdded fd true c = .ok c1)
    (h2 : commSetFlagAdded fd false c1 = .ok c2) : c2 = c := by
  obtain ⟨cf, hget, hflag⟩ := bind_eq_ok.1 h
  have hflag : cf.cf_associate = false := Except.ok.inj hflag
  rw [commSetFlagAdded, hget, ok_bind] at h1
  obtain rfl := Except.ok.inj h1
  rw [commSetFlagAdded, get_set hget, ok_bind] at h2
  obtain rfl := Except.ok.inj h2
  have hset : (c.set fd { cf with cf_associate := true }).set fd { cf with cf_associate := false } =
      c.set fd { cf with cf_associate := false } := by
    simp only [Comm.set, List.set_set]
  simp only [hset]
  rw [← hflag]
  exact set_get hget

/-- The flags are as they were when the control call fails, whether it added or modified. -/
theorem epollIoCtl_failed (h : epollIoCtl fd flag t refuse e = .ok (true, e')) :
    e'.comm = e.comm := by
  unfold epollIoCtl at h
  obtain ⟨added, hadded, h⟩ := bind_eq_ok.1 h
  split_ifs at h with hset
  · obtain ⟨comm, hcomm, h⟩ := bind_eq_ok.1 h
    simp only at h
    split_ifs at h with herr
    · obtain ⟨comm', hcomm', h⟩ := bind_eq_ok.1 h
      obtain ⟨-, rfl⟩ := Prod.mk.inj (Except.ok.inj h)
      rw [Bool.not_eq_true'] at hset
      exact flag_restored (hset ▸ hadded) hcomm hcomm'
    · exact absurd (Prod.mk.inj (Except.ok.inj h)).1 herr
  · obtain ⟨-, rfl⟩ := Prod.mk.inj (Except.ok.inj h)
    rfl

theorem stored_store (eih : EventIoHandler) (d : Dir) :
    (eih.store handler flag).stored d = if d = flag then some
    (handler.fn, handler.data) else eih.stored d := by
  cases flag <;> cases d <;> rfl

/-- A post that fails has stored its handler all the same. -/
theorem eventIoPost_failed (h : eventIoPost flag t fd handler refuse e = .ok (true, e')) :
    PostUndone e e' ↔ (e.ei_events_arr fd).stored flag = some (handler.fn, handler.data) := by
  have harr := (eventIoPost_ok h).1
  have hflags := epollIoCtl_failed h
  constructor
  · intro hun
    have := hun.handlers fd flag
    rw [harr, if_pos rfl, stored_store, if_pos rfl] at this
    exact this.symm
  · refine fun hsame => ⟨fun x d => ?_, hflags⟩
    rw [harr]
    split_ifs with hx
    · subst hx
      rw [stored_store]
      split_ifs with hd
      · rw [hd, hsame]
      · rfl
    · rfl

/-- A failed post changes nothing exactly where the same handler waited for the direction already,
with the same data. -/
theorem failedPost_iff (curr_slot : ℕ) (e e' : EventIo) (fd : ℕ) (handler : Handler) (refuse : Bool)
    (post : Dir × (ℕ → Handler → Bool → EventIo → Except Fault (Bool × EventIo)))
    (hpost : post ∈ postings curr_slot)
    (h : post.2 fd handler refuse e = .ok (true, e')) :
    PostUndone e e' ↔ (e.ei_events_arr fd).stored post.1 = some (handler.fn, handler.data) := by
  simp only [postings, List.mem_cons, List.not_mem_nil, or_false] at hpost
  obtain rfl | rfl | rfl | rfl := hpost <;> exact eventIoPost_failed h

def idle : EventIo where
  comm := zeroTable 8
  ei_events_arr := fun _ => ⟨none, none, 0⟩
  kernel := ⟨fun fd => fd == 3, fun _ _ => none⟩

theorem failedPost_iff_idle : ∃ e', eventIoRead 1 3 ⟨7, 9, 0⟩ true idle = .ok (true, e') ∧
    (PostUndone idle e' ↔ (idle.ei_events_arr 3).stored .read = some (7, 9)) :=
  ⟨_, rfl,
    failedPost_iff 1 idle _ 3 ⟨7, 9, 0⟩ true (.read, eventIoRead 1) (List.mem_cons_self ..) rfl⟩

/-- The kernel refuses, and the handler waits with the data that its poster will free. -/
theorem not_unposted : ∃ e', eventIoRead 1 3 ⟨7, 9, 0⟩ true idle = .ok (true, e') ∧
    (e'.ei_events_arr 3).stored .read = some (7, 9) ∧ ¬ PostUndone idle e' :=
  ⟨_, rfl, rfl, fun h => absurd (h.handlers 3 .read) nofun⟩

end Failed

end Plume
