import Plume.CLib.Scan
import Plume.CLib.Run

/-! The table of open descriptors of `plm_comm.c`. Its entries are indexed by the
number of the descriptor, which the kernel reuses, so an entry outlives every
descriptor it stood for. -/

namespace Plume
open CLib

abbrev PLM_COMM_FILE : ℕ := 1
abbrev PLM_COMM_TCP : ℕ := 2
abbrev PLM_COMM_UDP : ℕ := 3

/-- `struct plm_comm_close_handler`, at an address of its own. The function and its
argument are names. -/
structure CloseHandler where
  cch_next : Option ℕ
  cch_handler : ℕ
  cch_data : ℕ
deriving DecidableEq, Repr

structure CommFd where
  cf_handler : Option ℕ
  cf_type : ℕ
  cf_open : Bool
  cf_associate : Bool
deriving DecidableEq, Repr

/-- The table, the close handlers in memory and the calls made to them. -/
structure Comm where
  commfd_array : List CommFd
  memory : ℕ → Option CloseHandler
  called : List (ℕ × ℕ)

namespace Comm

def get (c : Comm) (fd : ℕ) : Except Fault CommFd :=
  match c.commfd_array[fd]? with
  | some cf => .ok cf
  | none => .error .bounds

def set (c : Comm) (fd : ℕ) (cf : CommFd) : Comm :=
  { c with commfd_array := c.commfd_array.set fd cf }

def store (c : Comm) (a : ℕ) (ch : CloseHandler) : Comm :=
  { c with memory := fun x => if x = a then some ch else c.memory x }

end Comm

/-- `plm_comm_init`, when the memory it gets happens to be zero. -/
def zeroTable (maxfd : ℕ) : Comm :=
  ⟨List.replicate maxfd ⟨none, 0, false, false⟩, fun _ => none, []⟩

/-- `plm_comm_open` for the descriptor `fd` the kernel returned. -/
def commOpen (type fd : ℕ) (c : Comm) : Except Fault Comm := do
  let commfd ← c.get fd
  if commfd.cf_open then .error .abort
  else return c.set fd { commfd with cf_type := type, cf_open := true, cf_associate := false }

def commAccept (fd cfd : ℕ) (c : Comm) : Except Fault Comm := do
  let l ← c.get fd
  if l.cf_type ≠ PLM_COMM_TCP then .error .abort
  else if cfd > 0 then
    let commfd ← c.get cfd
    if commfd.cf_open then .error .abort
    else return c.set cfd { commfd with cf_type := PLM_COMM_TCP, cf_open := true }
  else return c

/-- The loop of `plm_comm_close`. Each round starts from `cf_handler` again. -/
def commCloseLoop (fd : ℕ) : ℕ → Comm → Except Fault Comm
  | 0, _ => .error .fuel
  | fuel + 1, c => do
    let commfd ← c.get fd
    match commfd.cf_handler.bind c.memory with
    | none => .error .wild
    | some ch =>
      let c := { c with called := c.called ++ [(ch.cch_handler, ch.cch_data)] }
      match ch.cch_next with
      | none => return c
      | some _ => commCloseLoop fd fuel c

/-- `plm_comm_close`, for close handlers that leave the table and each other alone. -/
def commClose (fuel fd : ℕ) (c : Comm) : Except Fault Comm := do
  let commfd ← c.get fd
  if !commfd.cf_open then .error .abort
  else
    let c ← if commfd.cf_handler.isSome then commCloseLoop fd fuel c else pure c
    return c.set fd { commfd with cf_open := false, cf_associate := false }

def commAddCloseHandler (fd a : ℕ) (c : Comm) : Except Fault Comm := do
  match c.memory a with
  | none => .error .wild
  | some handler =>
    let commfd ← c.get fd
    return (c.store a { handler with cch_next := commfd.cf_handler }).set fd
      { commfd with cf_handler := some a }

def commSetFlagAdded (fd : ℕ) (added : Bool) (c : Comm) : Except Fault Comm := do
  let commfd ← c.get fd
  return c.set fd { commfd with cf_associate := added }

def commGetFlagAdded (fd : ℕ) (c : Comm) : Except Fault Bool := do
  return (← c.get fd).cf_associate

abbrev EINTR : ℤ := 4
abbrev EAGAIN : ℤ := 11
abbrev ERESTART : ℤ := 85
abbrev EALREADY : ℤ := 114
abbrev EINPROGRESS : ℤ := 115

/-- What one system call returned: a value, or -1 with the `errno` it set. -/
inductive SysRet (α : Type)
  | value (a : α)
  | failed (errno : ℤ)
deriving DecidableEq, Repr

/-- The loop of `plm_comm_read` and of `plm_comm_write` over what its calls return, `none`
while it has not come to an end. -/
def commTry {α : Type} : List (SysRet α) → Option (SysRet α)
  | [] => none
  | .value a :: _ => some (.value a)
  | .failed errno :: rets => if errno = EINTR then commTry rets else some (.failed errno)

/-- `plm_comm_ignore`, where `EWOULDBLOCK` is `EAGAIN`. No `break` stands behind the first
assignment. -/
def commIgnore (err : ℤ) : ℤ := Id.run do
  let mut n := 0
  if err ∈ [EAGAIN, EINTR, ERESTART, EALREADY, EINPROGRESS] then n := 1
  n := 0
  return n

@[simp] theorem commIgnore_eq (err : ℤ) : commIgnore err = 0 := by
  unfold commIgnore
  split <;> rfl

/-- Failures end the loop at the first one that is no `EINTR`. -/
theorem commTry_failed (α : Type) (errs : List ℤ) :
    ((∀ e ∈ errs, e = EINTR) ∧ commTry (errs.map (SysRet.failed (α := α))) = none) ∨
    ∃ e ∈ errs, e ≠ EINTR ∧ commTry (errs.map (SysRet.failed (α := α))) = some (.failed e) := by
  induction errs with
  | nil => exact .inl ⟨by simp, rfl⟩
  | cons e errs ih =>
    rw [List.map_cons, commTry]
    split_ifs with he
    · rcases ih with ⟨hall, hn⟩ | ⟨x, hx, hne, hs⟩
      · exact .inl ⟨List.forall_mem_cons.2 ⟨he, hall⟩, hn⟩
      · exact .inr ⟨x, List.mem_cons_of_mem e hx, hne, hs⟩
    · exact .inr ⟨e, List.mem_cons_self, he, rfl⟩

def slot (c : Comm) (fd : ℕ) : Option ℕ := c.commfd_array[fd]?.bind CommFd.cf_handler

def openFlag (c : Comm) (fd : ℕ) : Bool := c.commfd_array[fd]?.any CommFd.cf_open

section Table

variable {c c' : Comm} {fd f : ℕ} {cf : CommFd}

theorem Comm.get_ok : c.get fd = .ok cf ↔ c.commfd_array[fd]? = some cf := by
  unfold Comm.get
  cases c.commfd_array[fd]? <;> simp

theorem Comm.get_set (c : Comm) (fd f : ℕ) (cf : CommFd) : (c.set fd cf).commfd_array[f]? =
    if f = fd ∧ fd < c.commfd_array.length then some cf else c.commfd_array[f]? := by
  unfold Comm.set
  by_cases hf : f = fd
  · subst hf
    by_cases hlt : f < c.commfd_array.length
    · rw [if_pos ⟨rfl, hlt⟩, List.getElem?_set_self hlt]
    · rw [if_neg (fun h => hlt h.2), List.set_eq_of_length_le (by omega)]
  · rw [if_neg (fun h => hf h.1), List.getElem?_set_ne (Ne.symm hf)]

theorem Comm.lt_of_get (h : c.get fd = .ok cf) : fd < c.commfd_array.length :=
  (List.getElem?_eq_some_iff.1 (Comm.get_ok.1 h)).1

/-- Writing an entry that was read leaves every other entry alone. -/
theorem slot_set (h : c.get fd = .ok cf) (cf' : CommFd) (f : ℕ) :
    slot (c.set fd cf') f = if f = fd then cf'.cf_handler else slot c f := by
  unfold slot
  rw [Comm.get_set]
  by_cases hf : f = fd
  · rw [if_pos ⟨hf, Comm.lt_of_get h⟩, if_pos hf]
    rfl
  · rw [if_neg (fun h => hf h.1), if_neg hf]

theorem openFlag_set (h : c.get fd = .ok cf) (cf' : CommFd) (f : ℕ) :
    openFlag (c.set fd cf') f = if f = fd then cf'.cf_open else openFlag c f := by
  unfold openFlag
  rw [Comm.get_set]
  by_cases hf : f = fd
  · rw [if_pos ⟨hf, Comm.lt_of_get h⟩, if_pos hf]
    rfl
  · rw [if_neg (fun h => hf h.1), if_neg hf]

theorem slot_of_get (h : c.get fd = .ok cf) : slot c fd = cf.cf_handler := by
  unfold slot
  rw [Comm.get_ok.1 h]
  rfl

theorem openFlag_of_get (h : c.get fd = .ok cf) : openFlag c fd = cf.cf_open := by
  unfold openFlag
  rw [Comm.get_ok.1 h]
  rfl

end Table

section Spec

variable {c c' : Comm} {fd a type cfd fuel : ℕ}

theorem commOpen_ok : commOpen type fd c = .ok c' ↔ ∃ cf, c.get fd = .ok cf ∧ cf.cf_open = false ∧
    c' = c.set fd { cf with cf_type := type, cf_open := true, cf_associate := false } := by
  unfold commOpen
  rw [bind_eq_ok]
  refine exists_congr fun cf => and_congr_right fun _ => ?_
  cases cf.cf_open <;> simp [eq_comm]

theorem commAccept_ok :
    commAccept fd cfd c = .ok c' ↔ ∃ l, c.get fd = .ok l ∧ l.cf_type = PLM_COMM_TCP ∧
    ((0 < cfd ∧ ∃ cf, c.get cfd = .ok cf ∧ cf.cf_open = false ∧
      c' = c.set cfd { cf with cf_type := PLM_COMM_TCP, cf_open := true }) ∨
        (cfd = 0 ∧ c' = c)) := by
  unfold commAccept
  rw [bind_eq_ok]
  refine exists_congr fun l => and_congr_right fun _ => ?_
  by_cases ht : l.cf_type = PLM_COMM_TCP
  case neg => simp [ht]
  rw [if_neg (not_not.2 ht)]
  by_cases hpos : cfd > 0
  · rw [if_pos hpos, bind_eq_ok]
    have hne : ¬ (cfd = 0 ∧ c' = c) := fun h => absurd h.1 (ne_of_gt hpos)
    rw [or_iff_left hne, and_iff_right ht, and_iff_right hpos]
    refine exists_congr fun cf => and_congr_right fun _ => ?_
    cases cf.cf_open <;> simp [eq_comm]
  · rw [if_neg hpos]
    rw [and_iff_right ht, or_iff_right (fun h => hpos h.1), and_iff_right (by omega), pure_ok,
      Except.ok.injEq, eq_comm]

theorem commAddCloseHandler_ok : commAddCloseHandler fd a c = .ok c' ↔ ∃ handler cf,
    c.memory a = some handler ∧ c.get fd = .ok cf ∧
    c' = (c.store a { handler with cch_next := cf.cf_handler }).set fd
      { cf with cf_handler := some a } := by
  unfold commAddCloseHandler
  cases c.memory a with
  | none => simp
  | some handler =>
    simp only [bind_eq_ok, pure_ok, Except.ok.injEq, Option.some.injEq]
    constructor
    · rintro ⟨cf, hg, rfl⟩
      exact ⟨handler, cf, rfl, hg, rfl⟩
    · rintro ⟨_, cf, rfl, hg, rfl⟩
      exact ⟨cf, hg, rfl⟩

/-- The loop calls handlers and changes nothing else. -/
theorem commCloseLoop_table (h : commCloseLoop fd fuel c = .ok c') :
    c'.commfd_array = c.commfd_array ∧ c'.memory = c.memory := by
  induction fuel generalizing c with
  | zero => simp [commCloseLoop] at h
  | succ fuel ih =>
    rw [commCloseLoop] at h
    obtain ⟨cf, -, h⟩ := bind_eq_ok.1 h
    cases hm : cf.cf_handler.bind c.memory with
    | none => rw [hm] at h; simp at h
    | some ch =>
      rw [hm] at h
      cases hn : ch.cch_next with
      | none =>
        simp only [hn, pure_ok, Except.ok.injEq] at h
        subst h
        exact ⟨rfl, rfl⟩
      | some x =>
        simp only [hn] at h
        have hrest := ih h
        exact hrest

/-- Closing calls the handlers, if there are any, and then clears the flags. -/
theorem commClose_calls (h : commClose fuel fd c = .ok c') : ∃ (cf : CommFd) (c₁ : Comm),
    c.get fd = .ok cf ∧ cf.cf_open = true ∧
    (if cf.cf_handler.isSome then commCloseLoop fd fuel c else pure c) = .ok c₁ ∧
    c' = c₁.set fd { cf with cf_open := false, cf_associate := false } := by
  unfold commClose at h
  obtain ⟨cf, hg, h⟩ := bind_eq_ok.1 h
  cases ho : cf.cf_open with
  | false => rw [ho] at h; simp at h
  | true =>
    rw [ho] at h
    simp only [Bool.not_true, Bool.false_eq_true, if_false] at h
    split_ifs at h with hsome
    · obtain ⟨c₁, hc, h⟩ := bind_eq_ok.1 h
      exact ⟨cf, c₁, hg, ho, by rw [if_pos hsome, hc], (Except.ok.inj h).symm⟩
    · exact ⟨cf, c, hg, ho, by rw [if_neg hsome, pure_ok], (Except.ok.inj h).symm⟩

theorem commClose_ok (h : commClose fuel fd c = .ok c') : ∃ (cf : CommFd) (c₁ : Comm),
    c.get fd = .ok cf ∧ cf.cf_open = true ∧
    c₁.commfd_array = c.commfd_array ∧ c₁.memory = c.memory ∧
    c' = c₁.set fd { cf with cf_open := false, cf_associate := false } := by
  obtain ⟨cf, c₁, hg, ho, hc, rfl⟩ := commClose_calls h
  split_ifs at hc
  · obtain ⟨htable, hmem⟩ := commCloseLoop_table hc
    exact ⟨cf, c₁, hg, ho, htable, hmem, rfl⟩
  · obtain rfl := Except.ok.inj hc
    exact ⟨cf, c, hg, ho, rfl, rfl, rfl⟩

/-- Opening, accepting and closing leave the handlers, and the memory they are in. -/
theorem slot_commOpen (h : commOpen type fd c = .ok c') (f : ℕ) : slot c' f = slot c f := by
  obtain ⟨cf, hg, -, rfl⟩ := commOpen_ok.1 h
  rw [slot_set hg]
  split_ifs with hf
  · rw [hf, ← slot_of_get hg]
  · rfl

theorem slot_commAccept (h : commAccept fd cfd c = .ok c') (f : ℕ) : slot c' f = slot c f := by
  obtain ⟨-, -, -, ⟨-, cf, hg, -, rfl⟩ | ⟨-, rfl⟩⟩ := commAccept_ok.1 h
  · rw [slot_set hg]
    split_ifs with hf
    · rw [hf, ← slot_of_get hg]
    · rfl
  · rfl

theorem slot_commClose (h : commClose fuel fd c = .ok c') (f : ℕ) : slot c' f = slot c f := by
  obtain ⟨cf, c₁, hg, -, hc, -, rfl⟩ := commClose_ok h
  have hg' : c₁.get fd = .ok cf := by rw [Comm.get_ok, hc, ← Comm.get_ok, hg]
  rw [slot_set hg']
  split_ifs with hf
  · rw [hf, ← slot_of_get hg]
  · unfold slot
    rw [hc]

theorem slot_commAddCloseHandler (h : commAddCloseHandler fd a c = .ok c') (f : ℕ) :
    slot c' f = if f = fd then some a else slot c f := by
  obtain ⟨handler, cf, -, hg, rfl⟩ := commAddCloseHandler_ok.1 h
  have hg' : (c.store a { handler with cch_next := cf.cf_handler }).get fd = .ok cf := hg
  rw [slot_set hg']
  rfl

theorem memory_commOpen (h : commOpen type fd c = .ok c') : c'.memory = c.memory := by
  obtain ⟨cf, -, -, rfl⟩ := commOpen_ok.1 h
  rfl

theorem memory_commAccept (h : commAccept fd cfd c = .ok c') : c'.memory = c.memory := by
  obtain ⟨-, -, -, ⟨-, cf, -, -, rfl⟩ | ⟨-, rfl⟩⟩ := commAccept_ok.1 h
  · rfl
  · rfl

theorem memory_commClose (h : commClose fuel fd c = .ok c') : c'.memory = c.memory := by
  obtain ⟨cf, c₁, -, -, -, hm, rfl⟩ := commClose_ok h
  exact hm

/-- What they do to `cf_open`; the descriptor 0 is accepted in vain. -/
theorem openFlag_commOpen (h : commOpen type fd c = .ok c') (f : ℕ) :
    openFlag c' f = if f = fd then true else openFlag c f := by
  obtain ⟨cf, hg, -, rfl⟩ := commOpen_ok.1 h
  exact openFlag_set hg _ f

theorem openFlag_commAccept (h : commAccept fd cfd c = .ok c') (f : ℕ) :
    openFlag c' f = if f = cfd ∧ 0 < cfd then true else openFlag c f := by
  obtain ⟨-, -, -, ⟨hpos, cf, hg, -, rfl⟩ | ⟨rfl, rfl⟩⟩ := commAccept_ok.1 h
  · rw [openFlag_set hg]
    simp only [hpos, and_true]
  · simp

theorem openFlag_commClose (h : commClose fuel fd c = .ok c') (f : ℕ) :
    openFlag c' f = if f = fd then false else openFlag c f := by
  obtain ⟨cf, c₁, hg, -, hc, -, rfl⟩ := commClose_ok h
  have hg' : c₁.get fd = .ok cf := by rw [Comm.get_ok, hc, ← Comm.get_ok, hg]
  rw [openFlag_set hg']
  unfold openFlag
  rw [hc]

theorem openFlag_commAddCloseHandler (h : commAddCloseHandler fd a c = .ok c') (f : ℕ) :
    openFlag c' f = openFlag c f := by
  obtain ⟨handler, cf, -, hg, rfl⟩ := commAddCloseHandler_ok.1 h
  have hg' : (c.store a { handler with cch_next := cf.cf_handler }).get fd = .ok cf := hg
  rw [openFlag_set hg']
  split_ifs with hf
  · rw [hf, ← openFlag_of_get hg]
  · rfl

/-- Without close handlers, closing only clears the flags. -/
theorem commClose_unhandled {cf : CommFd} (fuel : ℕ) (hg : c.get fd = .ok cf)
    (ho : cf.cf_open = true)
    (hn : cf.cf_handler = none) :
    commClose fuel fd c = .ok (c.set fd { cf with cf_open := false, cf_associate := false }) := by
  unfold commClose
  rw [hg]
  simp [ho, hn]

end Spec

end Plume
