import Plume.Comm

/-! The event layer, `plm_event.c` over `plm_epoll.c`: the handlers waiting for an event
of a descriptor are kept in `ei_events_arr`, the events awaited in the kernel, in one
epoll instance for each thread and one for the process. -/

namespace Plume
open CLib

abbrev Mask := BitVec 32

abbrev EPOLLIN : Mask := 0x1#32
abbrev EPOLLOUT : Mask := 0x4#32
abbrev EPOLLERR : Mask := 0x8#32
abbrev EPOLLHUP : Mask := 0x10#32
abbrev EPOLLONESHOT : Mask := 0x40000000#32
abbrev EPOLLET : Mask := 0x80000000#32

abbrev MAX_EVENTS : ℕ := 256

inductive Dir
  | read | write
deriving DecidableEq, Repr

/-- The epoll instance `plm_poller_t` selects, for a thread in the given slot. -/
inductive Poller
  | threadLocal (curr_slot : ℕ)
  | processGlobal
deriving DecidableEq, Repr

/-- A handler with its data, and the moment it was posted, which the code does not keep. -/
structure Handler where
  fn : ℕ
  data : ℕ
  posted : ℕ
deriving DecidableEq, Repr

structure EventIoHandler where
  eih_onread : Option Handler
  eih_onwrite : Option Handler
  eih_fd : ℕ
deriving DecidableEq, Repr

structure Kernel where
  isOpen : ℕ → Bool
  interest : Poller → ℕ → Option Mask

structure EventIo where
  comm : Comm
  ei_events_arr : ℕ → EventIoHandler
  kernel : Kernel

section Kernel

/-- `epoll_ctl`, `EPOLL_CTL_ADD` or `EPOLL_CTL_MOD`; `true` is failure, which `refuse`
forces for the reasons that are not in the model. -/
def epollCtl (add : Bool) (efd : Poller) (fd : ℕ) (events : Mask) (refuse : Bool) (k : Kernel) :
    Bool × Kernel :=
  if refuse || !k.isOpen fd || (k.interest efd fd).isSome == add then (true, k)
  else (false, { k with interest := fun p x => if p =
    efd ∧ x = fd then some events else k.interest p x })

def awaited (m : Mask) : Mask := m &&& ~~~(EPOLLONESHOT ||| EPOLLET)

/-- A registration under which `epoll_wait` may report `ev`: errors and hang-ups are
reported unasked, but nothing is while the registration is disarmed. -/
def mayReport (reg : Option Mask) (ev : Mask) : Bool :=
  match reg with
  | none => false
  | some m => awaited m != 0 && ev != 0 && ev &&& ~~~(awaited m ||| EPOLLERR ||| EPOLLHUP) == 0

/-- What `EPOLLONESHOT` leaves of a registration behind a report. -/
def disarm (m : Mask) : Mask :=
  if m &&& EPOLLONESHOT = 0 then m else m &&& (EPOLLONESHOT ||| EPOLLET)

def epollWait (efd : Poller) (evs : List (ℕ × Mask)) (k : Kernel) : Option Kernel :=
  if evs.length ≤ MAX_EVENTS ∧ (evs.map Prod.fst).Nodup ∧
      ∀ ev ∈ evs, mayReport (k.interest efd ev.1) ev.2 = true then
    some { k with interest := fun p x =>
      if p = efd ∧ x ∈ evs.map Prod.fst then (k.interest p x).map disarm else k.interest p x }
  else none

end Kernel

/-- `ev.events` in `plm_epoll_io_ctl`, from the one direction asked for -/
def eventsOf : Dir → Mask
  | .read => EPOLLIN ||| EPOLLONESHOT ||| EPOLLET
  | .write => EPOLLOUT ||| EPOLLONESHOT ||| EPOLLET

def epollIoCtl (fd : ℕ) (flag : Dir) (t : Poller) (refuse : Bool) (e : EventIo) :
    Except Fault (Bool × EventIo) := do
  if !(← commGetFlagAdded fd e.comm) then
    let comm ← commSetFlagAdded fd true e.comm
    let (err, kernel) := epollCtl true t fd (eventsOf flag) refuse e.kernel
    if err then return (err, { e with comm := ← commSetFlagAdded fd false comm, kernel := kernel })
    else return (err, { e with comm := comm, kernel := kernel })
  else
    let (err, kernel) := epollCtl false t fd (eventsOf flag) refuse e.kernel
    return (err, { e with kernel := kernel })

def EventIoHandler.pending (eih : EventIoHandler) : Dir → Option Handler
  | .read => eih.eih_onread
  | .write => eih.eih_onwrite

def EventIoHandler.store (eih : EventIoHandler) (handler : Handler) : Dir → EventIoHandler
  | .read => { eih with eih_onread := some handler }
  | .write => { eih with eih_onwrite := some handler }

/-- What the four posting functions share: the handler is stored before the kernel is asked. -/
def eventIoPost (flag : Dir) (t : Poller) (fd : ℕ) (handler : Handler) (refuse : Bool)
    (e : EventIo) :
    Except Fault (Bool × EventIo) :=
  epollIoCtl fd flag t refuse { e with ei_events_arr := fun x =>
    if x = fd then (e.ei_events_arr fd).store handler flag else e.ei_events_arr x }

def eventIoRead (curr_slot : ℕ) := eventIoPost .read (.threadLocal curr_slot)

def eventIoRead2 := eventIoPost .read .processGlobal

def eventIoWrite (curr_slot : ℕ) := eventIoPost .write (.threadLocal curr_slot)

def eventIoWrite2 := eventIoPost .write .processGlobal

/-- One round of the loop of `plm_epoll_io_poll`: the entry of the batch, which starts
out zeroed, and what is left of the handlers stored. -/
def pollRound (fd : ℕ) (epoll_evt : Mask) (eih : EventIoHandler) :
    EventIoHandler × EventIoHandler :=
  let rd := epoll_evt &&& ~~~EPOLLOUT != 0 && eih.eih_onread.isSome
  let wr := epoll_evt &&& ~~~EPOLLIN != 0 && eih.eih_onwrite.isSome
  (⟨if rd then eih.eih_onread else none, if wr then eih.eih_onwrite else none,
    if rd || wr then fd else 0⟩,
    ⟨if rd then none else eih.eih_onread, if wr then none else eih.eih_onwrite, eih.eih_fd⟩)

def pollLoop : List (ℕ × Mask) → (ℕ → EventIoHandler) → List EventIoHandler × (ℕ → EventIoHandler)
  | [], arr => ([], arr)
  | (fd, ev) :: evs, arr =>
    let (entry, eih) := pollRound fd ev (arr fd)
    let (events, arr) := pollLoop evs fun x => if x = fd then eih else arr x
    (entry :: events, arr)

def epollIoPoll (t : Poller) (evs : List (ℕ × Mask)) (e : EventIo) :
    Option (List EventIoHandler × EventIo) :=
  (epollWait t evs e.kernel).map fun k =>
    let (events, arr) := pollLoop evs e.ei_events_arr
    (events, { e with kernel := k, ei_events_arr := arr })

section Post

variable {e e' : EventIo} {k k' : Kernel} {fd : ℕ} {flag : Dir} {t : Poller} {handler : Handler}
  {add refuse err : Bool} {m : Mask}

theorem epollCtl_isOpen : (epollCtl add t fd m refuse k).2.isOpen = k.isOpen := by
  unfold epollCtl
  split_ifs <;> rfl

/-- A refusal changes nothing; otherwise the mask becomes the one given. -/
theorem epollCtl_interest (p : Poller) (x : ℕ) : (epollCtl add t fd m refuse k).2.interest p x =
    if (epollCtl add t fd m refuse k).1 = false ∧ p = t ∧ x = fd then some m
      else k.interest p x := by
  unfold epollCtl
  by_cases h : (refuse || !k.isOpen fd || (k.interest t fd).isSome == add) = true
  · simp only [if_pos h, Bool.true_eq_false, false_and, if_false]
  · simp only [if_neg h, true_and]

theorem eventIoPost_ok (h : eventIoPost flag t fd handler refuse e = .ok (err, e')) :
    (∀ x, e'.ei_events_arr x =
      if x = fd then (e.ei_events_arr fd).store handler flag else e.ei_events_arr x) ∧
    e'.kernel.isOpen = e.kernel.isOpen ∧
    ∀ p x, e'.kernel.interest p x =
      if err = false ∧ p = t ∧ x = fd then some (eventsOf flag) else e.kernel.interest p x := by
  unfold eventIoPost epollIoCtl at h
  obtain ⟨added, -, h⟩ := bind_eq_ok.1 h
  split_ifs at h
  · obtain ⟨comm, -, h⟩ := bind_eq_ok.1 h
    simp only at h
    split_ifs at h with herr
    · obtain ⟨comm', -, h⟩ := bind_eq_ok.1 h
      obtain ⟨rfl, rfl⟩ := Prod.mk.inj (Except.ok.inj h)
      exact ⟨fun _ => rfl, epollCtl_isOpen, epollCtl_interest⟩
    · obtain ⟨rfl, rfl⟩ := Prod.mk.inj (Except.ok.inj h)
      exact ⟨fun _ => rfl, epollCtl_isOpen, epollCtl_interest⟩
  · obtain ⟨rfl, rfl⟩ := Prod.mk.inj (Except.ok.inj h)
    exact ⟨fun _ => rfl, epollCtl_isOpen, epollCtl_interest⟩

end Post

section Poll

variable {k k' : Kernel} {t : Poller} {evs : List (ℕ × Mask)} {fd : ℕ} {ev : Mask}
  {arr : ℕ → EventIoHandler} {h : Handler} {d : Dir}

theorem epollWait_eq (hw : epollWait t evs k = some k') : (evs.map Prod.fst).Nodup ∧
    (∀ ev ∈ evs, mayReport (k.interest t ev.1) ev.2 = true) ∧ k'.isOpen = k.isOpen ∧
    ∀ p x, k'.interest p x =
      if p = t ∧ x ∈ evs.map Prod.fst then (k.interest p x).map disarm else k.interest p x := by
  unfold epollWait at hw
  split_ifs at hw with hev
  obtain rfl := Option.some.inj hw
  exact ⟨hev.2.1, hev.2.2, rfl, fun _ _ => rfl⟩

/-- A descriptor that is not reported keeps its handlers. -/
theorem pollLoop_of_not_mem (hno : fd ∉ evs.map Prod.fst) : (pollLoop evs arr).2 fd = arr fd := by
  induction evs generalizing arr with
  | nil => rfl
  | cons e evs ih =>
    rw [List.map_cons, List.mem_cons, not_or] at hno
    unfold pollLoop
    rw [ih hno.2, if_neg hno.1]

variable (arr) in
/-- A descriptor that is reported once loses the handlers it has for the events. -/
theorem pollLoop_of_mem (hnd : (evs.map Prod.fst).Nodup) (hmem : (fd, ev) ∈ evs) :
    (pollLoop evs arr).2 fd = (pollRound fd ev (arr fd)).2 := by
  induction evs generalizing arr with
  | nil => simp at hmem
  | cons e evs ih =>
    rw [List.map_cons, List.nodup_cons] at hnd
    unfold pollLoop
    rcases List.mem_cons.1 hmem with rfl | hmem
    · rw [pollLoop_of_not_mem hnd.1, if_pos rfl]
    · have hne : fd ≠ e.1 := by
        rintro rfl
        exact hnd.1 (List.mem_map.2 ⟨_, hmem, rfl⟩)
      rw [ih _ hnd.2 hmem, if_neg hne]

/-- What a round leaves waiting was waiting, and what it hands out was waiting for `fd`. -/
theorem pollRound_pending (fd : ℕ) (ev : Mask) (eih : EventIoHandler) :
    ((pollRound fd ev eih).2.pending d = some h → eih.pending d = some h) ∧
    ((pollRound fd ev eih).1.pending d = some h →
      (pollRound fd ev eih).1.eih_fd = fd ∧ eih.pending d = some h) := by
  unfold pollRound
  constructor
  · cases d <;> simp only [EventIoHandler.pending] <;> split_ifs <;> simp
  · cases d with
    | read =>
      simp only [EventIoHandler.pending]
      split_ifs with h1 h2 h2
      · exact fun hr => ⟨rfl, hr⟩
      · exact absurd (by rw [h1, Bool.true_or]) h2
      · simp
      · simp
    | write =>
      simp only [EventIoHandler.pending]
      split_ifs with h1 h2 h2
      · exact fun hr => ⟨rfl, hr⟩
      · exact absurd (by rw [h1, Bool.or_true]) h2
      · simp
      · simp

/-- No handler comes out of a poll that was not waiting before it, for its descriptor. -/
theorem pollLoop_pending (evs : List (ℕ × Mask)) (arr : ℕ → EventIoHandler) (d : Dir)
    (h : Handler) :
    (∀ fd, ((pollLoop evs arr).2 fd).pending d = some h → (arr fd).pending d = some h) ∧
    ∀ e ∈ (pollLoop evs arr).1, e.pending d = some h → (arr e.eih_fd).pending d = some h := by
  induction evs generalizing arr with
  | nil => exact ⟨fun _ hp => hp, fun e he => by simp [pollLoop] at he⟩
  | cons e evs ih =>
    unfold pollLoop
    obtain ⟨harr, hev⟩ := ih fun x => if x = e.1 then (pollRound e.1 e.2 (arr e.1)).2 else arr x
    have hback : ∀ fd, (if fd = e.1 then (pollRound e.1 e.2 (arr e.1)).2 else arr fd).pending d =
      some h →
        (arr fd).pending d = some h := by
      intro fd hp
      split_ifs at hp with hfd
      · subst hfd
        exact (pollRound_pending _ _ _).1 hp
      · exact hp
    refine ⟨fun fd hp => hback fd (harr fd hp), fun x hx hp => ?_⟩
    rcases List.mem_cons.1 hx with rfl | hx
    · obtain ⟨hfd, hp⟩ := (pollRound_pending _ _ _).2 hp
      rw [hfd]
      exact hp
    · exact hback _ (hev x hx hp)

end Poll

end Plume
