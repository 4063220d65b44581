import Plume.Event

/-! The process as a transition system: worker threads that poll and call the handlers
of the batch they got (`plm_disp_proc`), and what those handlers do in turn, opening,
accepting, posting and closing, one operation after the other in any order. The kernel
hands out any descriptor that is not open. -/

namespace Plume
open CLib

inductive Act
  | open (type fd : ℕ)
  | accept (fd cfd : ℕ)
  | post (flag : Dir) (t : Poller) (fd fn data : ℕ) (refuse : Bool)
  | poll (slot : ℕ) (t : Poller) (evs : List (ℕ × Mask))
  | call (slot : ℕ)
  | close (fd : ℕ)
deriving DecidableEq, Repr

/-- A call of a handler, with the moment its descriptor had last been opened,
`none` when it was not open. -/
structure Call where
  fd : ℕ
  handler : Handler
  openedAt : Option ℕ
deriving DecidableEq, Repr

structure Sys where
  io : EventIo
  /-- the local `events` of each thread, from the entry on at which the thread is -/
  batch : ℕ → List EventIoHandler
  /-- the clock, which only the statements look at, like the moments and calls below -/
  now : ℕ
  openedAt : ℕ → Option ℕ
  calls : List Call

namespace Kernel

def opened (k : Kernel) (fd : ℕ) : Kernel := { k with isOpen := fun x => x = fd || k.isOpen x }

/-- `close`, which also takes the descriptor off every interest list. -/
def closed (k : Kernel) (fd : ℕ) : Kernel where
  isOpen x := x ≠ fd && k.isOpen x
  interest p x := if x = fd then none else k.interest p x

end Kernel

namespace Sys

def opened (s : Sys) (fd : ℕ) (comm : Comm) : Sys :=
  { s with
    io := { s.io with comm := comm, kernel := s.io.kernel.opened fd }
    now := s.now + 1
    openedAt := fun x => if x = fd then some s.now else s.openedAt x }

def called (s : Sys) (slot fd : ℕ) (h : Handler) (rest : List EventIoHandler) : Sys :=
  { s with
    batch := fun t => if t = slot then rest else s.batch t
    now := s.now + 1
    calls := s.calls ++ [⟨fd, h, s.openedAt fd⟩] }

end Sys

/-- The next call of the loop over `events`: an entry's read handler goes before its
write handler, and an entry without either is passed over. -/
def nextCall (s : Sys) (slot : ℕ) : Option Sys :=
  match s.batch slot with
  | [] => none
  | e :: rest =>
    match e.eih_onread, e.eih_onwrite with
    | some h, _ => some (s.called slot e.eih_fd h ({ e with eih_onread := none } :: rest))
    | none, some h => some (s.called slot e.eih_fd h rest)
    | none, none =>
      some { s with batch := fun t => if t = slot then rest else s.batch t, now := s.now + 1 }

/-- One operation, `none` when it does not return or cannot be made. A thread polls when
it is through with its batch; `plm_comm_close` returns after one handler or never. -/
def sysStep (s : Sys) : Act → Option Sys
  | .open type fd =>
    if s.io.kernel.isOpen fd then none
    else (commOpen type fd s.io.comm).toOption.map fun comm => s.opened fd comm
  | .accept fd cfd =>
    if s.io.kernel.isOpen cfd then none
    else (commAccept fd cfd s.io.comm).toOption.map fun comm => s.opened cfd comm
  | .post flag t fd fn data refuse =>
    (eventIoPost flag t fd ⟨fn, data, s.now⟩ refuse s.io).toOption.map fun r =>
      { s with io := r.2, now := s.now + 1 }
  | .poll slot t evs =>
    if s.batch slot ≠ [] then none
    else (epollIoPoll t evs s.io).map fun r =>
      { s with io := r.2, batch := fun x => if x = slot then r.1 else s.batch x, now := s.now + 1 }
  | .call slot => nextCall s slot
  | .close fd =>
    (commClose 1 fd s.io.comm).toOption.map fun comm =>
      { s with
        io := { s.io with comm := comm, kernel := s.io.kernel.closed fd }
        now := s.now + 1
        openedAt := fun x => if x = fd then none else s.openedAt x }

def booted (comm : Comm) : Sys where
  io := ⟨comm, fun _ => ⟨none, none, 0⟩, ⟨fun _ => false, fun _ _ => none⟩⟩
  batch _ := []
  now := 0
  openedAt _ := none
  calls := []

section Inversion

variable {s s' : Sys} {type fd cfd fn data slot : ℕ} {flag : Dir} {t : Poller} {refuse : Bool}
  {evs : List (ℕ × Mask)}

theorem sysStep_open (h : sysStep s (.open type fd) = some s') :
    s.io.kernel.isOpen fd = false ∧ ∃ comm, s' = s.opened fd comm := by
  simp only [sysStep] at h
  split_ifs at h with ho
  obtain ⟨comm, -, rfl⟩ := Option.map_eq_some_iff.1 h
  exact ⟨Bool.eq_false_iff.2 ho, comm, rfl⟩

theorem sysStep_accept (h : sysStep s (.accept fd cfd) = some s') :
    s.io.kernel.isOpen cfd = false ∧ ∃ comm, s' = s.opened cfd comm := by
  simp only [sysStep] at h
  split_ifs at h with ho
  obtain ⟨comm, -, rfl⟩ := Option.map_eq_some_iff.1 h
  exact ⟨Bool.eq_false_iff.2 ho, comm, rfl⟩

theorem sysStep_post (h : sysStep s (.post flag t fd fn data refuse) = some s') :
    ∃ err io, eventIoPost flag t fd ⟨fn, data, s.now⟩ refuse s.io = .ok (err, io) ∧
      s' = { s with io := io, now := s.now + 1 } := by
  obtain ⟨⟨err, io⟩, hr, rfl⟩ := Option.map_eq_some_iff.1 h
  exact ⟨err, io, toOption_eq_some.1 hr, rfl⟩

theorem sysStep_poll (h : sysStep s (.poll slot t evs) = some s') : ∃ k,
    epollWait t evs s.io.kernel = some k ∧ s' = { s with
      io := { s.io with kernel := k, ei_events_arr := (pollLoop evs s.io.ei_events_arr).2 }
      batch := fun x => if x = slot then (pollLoop evs s.io.ei_events_arr).1 else s.batch x
      now := s.now + 1 } := by
  simp only [sysStep] at h
  split_ifs at h
  obtain ⟨⟨events, io⟩, hr, rfl⟩ := Option.map_eq_some_iff.1 h
  obtain ⟨k, hk, hio⟩ := Option.map_eq_some_iff.1 hr
  obtain ⟨rfl, rfl⟩ := Prod.mk.inj hio
  exact ⟨k, hk, rfl⟩

/-- Either the next handler of the batch is called, or an entry without handlers is passed. -/
theorem sysStep_call (h : sysStep s (.call slot) = some s') : ∃ e rest, s.batch slot = e :: rest ∧
    ((∃ d hd rest', e.pending d = some hd ∧ s' = s.called slot e.eih_fd hd rest' ∧
      (rest' = { e with eih_onread := none } :: rest ∨ rest' = rest)) ∨
    s' = { s with batch := fun t => if t = slot then rest else s.batch t, now := s.now + 1 }) := by
  simp only [sysStep, nextCall] at h
  cases hb : s.batch slot with
  | nil => rw [hb] at h; exact absurd h (by simp)
  | cons e rest =>
    rw [hb] at h
    refine ⟨e, rest, rfl, ?_⟩
    cases hr : e.eih_onread with
    | some hd =>
      simp only [hr] at h
      exact .inl ⟨.read, hd, _, hr, (Option.some.inj h).symm, .inl rfl⟩
    | none =>
      cases hw : e.eih_onwrite with
      | some hd =>
        simp only [hr, hw] at h
        exact .inl ⟨.write, hd, _, hw, (Option.some.inj h).symm, .inr rfl⟩
      | none =>
        simp only [hr, hw] at h
        exact .inr (Option.some.inj h).symm

theorem sysStep_close (h : sysStep s (.close fd) = some s') : ∃ comm, s' = { s with
    io := { s.io with comm := comm, kernel := s.io.kernel.closed fd }
    now := s.now + 1
    openedAt := fun x => if x = fd then none else s.openedAt x } := by
  obtain ⟨comm, -, rfl⟩ := Option.map_eq_some_iff.1 h
  exact ⟨comm, rfl⟩

end Inversion

end Plume
