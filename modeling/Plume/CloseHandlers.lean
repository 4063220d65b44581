import Plume.Comm

/-! What `plm_comm_close` does with the handlers of a descriptor, over histories in
which the number of the descriptor has been in use before. The loop never moves on from
`cf_handler` and nothing ever clears it. -/

namespace Plume
open CLib

/-- What is done to the table, with the descriptors the kernel returned. `prepare` is the
caller filling in the handler at an address. -/
inductive CommOp
  | open (type fd : ℕ)
  | accept (fd cfd : ℕ)
  | prepare (a handler data : ℕ)
  | addCloseHandler (fd a : ℕ)
  | close (fd : ℕ)
deriving DecidableEq, Repr

def commPrepare (a handler data : ℕ) (c : Comm) : Comm :=
  c.store a ⟨(c.memory a).bind CloseHandler.cch_next, handler, data⟩

def commExec (fuel : ℕ) (c : Comm) : CommOp → Except Fault Comm
  | .open type fd => commOpen type fd c
  | .accept fd cfd => commAccept fd cfd c
  | .prepare a handler data => .ok (commPrepare a handler data c)
  | .addCloseHandler fd a => commAddCloseHandler fd a c
  | .close fd => commClose fuel fd c

def commStep (fuel : ℕ) (c : Comm) (op : CommOp) : Option Comm := (commExec fuel c op).toOption

def CommOp.opens (fd : ℕ) : CommOp → Bool
  | .open _ f => f == fd
  | .accept _ f => f == fd
  | _ => false

/-- The handlers registered on `fd`, the first one first. -/
def registered (fd : ℕ) (ops : List CommOp) : List ℕ :=
  ops.filterMap fun
    | .addCloseHandler f a => if f = fd then some a else none
    | _ => none

/-- Closing returns, having called the handlers `hs`, the last one first, and no other;
behind it no handler is registered. -/
def CloseRight (fd : ℕ) (hs : List ℕ) (c : Comm) : Prop :=
  ∃ fuel c', commClose fuel fd c = .ok c' ∧
    c'.called = c.called ++ (hs.reverse.filterMap c.memory).map
      (fun h => (h.cch_handler, h.cch_data)) ∧
    slot c' fd = none

section Steps

variable {c c' : Comm} {fd f a type cfd fuel : ℕ} {op : CommOp}

/-- The handler pointer only ever changes by being replaced with a new handler. -/
theorem slot_exec (h : commExec fuel c op = .ok c') (fd : ℕ) :
    slot c' fd = ((registered fd [op]).getLast?).or (slot c fd) := by
  cases op with
  | «open» type f => exact slot_commOpen h fd
  | accept l f => exact slot_commAccept h fd
  | prepare a handler data =>
    obtain rfl : commPrepare a handler data c = c' := Except.ok.inj h
    rfl
  | addCloseHandler f a =>
    rw [slot_commAddCloseHandler h]
    by_cases hf : fd = f
    · subst hf
      simp [registered]
    · simp [registered, hf, Ne.symm hf]
  | close f => exact slot_commClose h fd

/-- A descriptor that is open stays so as long as it is neither opened nor closed. -/
theorem openFlag_exec (h : commExec fuel c op = .ok c') (hop : op.opens fd = false)
    (hcl : op ≠ .close fd) : openFlag c' fd = openFlag c fd := by
  cases op with
  | «open» type f =>
    have hf : fd ≠ f := fun e => by simp [CommOp.opens, e] at hop
    rw [openFlag_commOpen h, if_neg hf]
  | accept l f =>
    have hf : fd ≠ f := fun e => by simp [CommOp.opens, e] at hop
    rw [openFlag_commAccept h, if_neg fun hand => hf hand.1]
  | prepare a handler data =>
    obtain rfl : commPrepare a handler data c = c' := Except.ok.inj h
    rfl
  | addCloseHandler f a => exact openFlag_commAddCloseHandler h fd
  | close f =>
    have hf : fd ≠ f := fun e => hcl (by rw [e])
    rw [openFlag_commClose h, if_neg hf]

/-- An operation that opens the descriptor sets `cf_open`, unless it accepted number 0. -/
theorem openFlag_opens (h : commExec fuel c op = .ok c') (hop : op.opens fd = true) :
    openFlag c' fd = true ↔ ∀ l, op = .accept l 0 → openFlag c fd = true := by
  cases op with
  | «open» type f =>
    obtain rfl : f = fd := by simpa [CommOp.opens] using hop
    rw [openFlag_commOpen h, if_pos rfl]
    simp
  | accept l f =>
    obtain rfl : f = fd := by simpa [CommOp.opens] using hop
    rw [openFlag_commAccept h]
    rcases Nat.eq_zero_or_pos f with rfl | hpos
    · simp
    · simp [hpos, ne_of_gt hpos]
  | prepare a handler data => simp [CommOp.opens] at hop
  | addCloseHandler f a => simp [CommOp.opens] at hop
  | close f => simp [CommOp.opens] at hop

end Steps

section Runs

variable {c c' s₀ s₁ s : Comm} {fd fuel : ℕ} {op : CommOp} {ops before during : List CommOp}

theorem commStep_eq_some : commStep fuel c op = some c' ↔ commExec fuel c op = .ok c' := by
  unfold commStep
  cases commExec fuel c op <;> simp [Except.toOption]

theorem registered_cons (fd : ℕ) (op : CommOp) (ops : List CommOp) :
    registered fd (op :: ops) = registered fd [op] ++ registered fd ops := by
  unfold registered
  rw [← List.filterMap_append, List.singleton_append]

/-- Whatever is opened and closed in between, the entry keeps the last handler registered
on the number. -/
theorem slot_run (h : run (commStep fuel) c ops = some c') :
    slot c' fd = ((registered fd ops).getLast?).or (slot c fd) := by
  induction ops generalizing c with
  | nil =>
    obtain rfl := Option.some.inj h
    rfl
  | cons op ops ih =>
    rw [run, Option.bind_eq_some_iff] at h
    obtain ⟨c₁, h₁, h⟩ := h
    rw [ih h, slot_exec (commStep_eq_some.1 h₁), registered_cons fd op ops, List.getLast?_append,
      Option.or_assoc]

theorem openFlag_run (h : run (commStep fuel) c ops = some c')
    (hno : ∀ op ∈ ops, op.opens fd = false ∧ op ≠ .close fd) : openFlag c' fd = openFlag c fd := by
  induction ops generalizing c with
  | nil =>
    obtain rfl := Option.some.inj h
    rfl
  | cons op ops ih =>
    rw [run, Option.bind_eq_some_iff] at h
    obtain ⟨c₁, h₁, h⟩ := h
    have hop := hno op (List.mem_cons_self ..)
    rw [ih h fun o ho => hno o (List.mem_cons_of_mem _ ho),
      openFlag_exec (commStep_eq_some.1 h₁) hop.1 hop.2]

theorem called_commClose_none (h : commClose fuel fd c = .ok c') (hs : slot c fd = none) :
    c'.called = c.called := by
  obtain ⟨cf, c₁, hg, -, hc, rfl⟩ := commClose_calls h
  rw [← slot_of_get hg, hs] at hc
  obtain rfl := Except.ok.inj hc
  rfl

theorem called_commClose_last {a : ℕ} {ch : CloseHandler} (h : commClose fuel fd c = .ok c')
    (hs : slot c fd = some a)
    (hm : c.memory a = some ch) (hn : ch.cch_next = none) : c'.called = c.called ++
    [(ch.cch_handler, ch.cch_data)] := by
  obtain ⟨cf, c₁, hg, -, hc, rfl⟩ := commClose_calls h
  rw [← slot_of_get hg, hs, Option.isSome_some, if_pos rfl] at hc
  cases fuel with
  | zero => simp [commCloseLoop] at hc
  | succ fuel =>
    rw [commCloseLoop, hg, ok_bind, ← slot_of_get hg, hs, Option.bind_some, hm] at hc
    simp only [hn] at hc
    obtain rfl := Except.ok.inj hc
    rfl

/-- An open descriptor without handlers is closed at once. -/
theorem commClose_none (hs : slot c fd = none) (ho : openFlag c fd = true) :
    ∃ c', commClose 0 fd c = .ok c' ∧ c'.called = c.called := by
  cases hg : c.commfd_array[fd]? with
  | none => simp [openFlag, hg] at ho
  | some cf =>
    have hcf : c.get fd = .ok cf := Comm.get_ok.2 hg
    have hopen : cf.cf_open = true := by rw [← openFlag_of_get hcf, ho]
    have hnone : cf.cf_handler = none := by rw [← slot_of_get hcf, hs]
    exact ⟨_, commClose_unhandled 0 hcf hopen hnone, rfl⟩

/-- A chain of two handlers is never left: the loop calls its head over and over. -/
theorem commClose_diverges (cf : CommFd) (ch : CloseHandler) {a n : ℕ} (hg : c.get fd = .ok cf)
    (ho : cf.cf_open = true) (ha : cf.cf_handler = some a) (hm : c.memory a = some ch)
    (hn : ch.cch_next = some n) (fuel : ℕ) : commClose fuel fd c = .error .fuel := by
  have hloop : ∀ c' : Comm, c'.commfd_array = c.commfd_array → c'.memory = c.memory →
      commCloseLoop fd fuel c' = .error .fuel := by
    induction fuel with
    | zero => exact fun _ _ _ => rfl
    | succ fuel ih =>
      intro c' ht hm'
      have hg' : c'.get fd = .ok cf := by rw [Comm.get_ok, ht, ← Comm.get_ok, hg]
      rw [commCloseLoop, hg', ok_bind, ha, hm', Option.bind_some, hm]
      simp only [hn]
      exact ih _ ht rfl
  unfold commClose
  rw [hg]
  simp [ho, ha, hloop c rfl rfl]

/-- For all histories of the table, from any contents `malloc` left in it: closing a
descriptor does what it should with the handlers registered since it was opened just when
there are none, and none was ever registered on its number. -/
theorem closeRight_iff (hb : run (commStep fuel) s₀ before = some s₁) (hop : op.opens fd = true)
    (hd : ∀ o ∈ during, o.opens fd = false ∧ o ≠ .close fd)
    (h : run (commStep fuel) s₁ (op :: during) = some s) :
    CloseRight fd (registered fd during) s ↔ registered fd during = [] ∧
      registered fd before = [] ∧ slot s₀ fd = none ∧
      ∀ l, op = .accept l 0 → openFlag s₁ fd = true := by
  have hslot : slot s fd = none ↔ registered fd during = [] ∧ registered fd before = [] ∧
      slot s₀ fd = none := by
    have hnone : registered fd [op] = [] := by
      cases op <;> simp [registered, CommOp.opens] at hop ⊢
    rw [slot_run h, slot_run hb, registered_cons, hnone, List.nil_append, Option.or_eq_none_iff,
      Option.or_eq_none_iff, List.getLast?_eq_none_iff, List.getLast?_eq_none_iff]
  rw [run, Option.bind_eq_some_iff] at h
  obtain ⟨s₂, h₂, h⟩ := h
  have hflag := openFlag_opens (commStep_eq_some.1 h₂) hop
  have hkeep := openFlag_run h hd
  constructor
  · rintro ⟨n, c', hc, -, hnil⟩
    rw [slot_commClose hc fd] at hnil
    obtain ⟨h1, h2, h3⟩ := hslot.1 hnil
    refine ⟨h1, h2, h3, hflag.1 ?_⟩
    obtain ⟨cf, c₁, hg, ho, -⟩ := commClose_ok hc
    rw [← hkeep, openFlag_of_get hg, ho]
  · rintro ⟨h1, h2, h3, h4⟩
    have hs := hslot.2 ⟨h1, h2, h3⟩
    obtain ⟨c', hc, hcalled⟩ := commClose_none hs (hkeep.trans (hflag.2 h4))
    refine ⟨0, c', hc, ?_, (slot_commClose hc fd).trans hs⟩
    rw [h1, hcalled]
    simp

end Runs

/-- An accepted connection without handlers is closed as it should. -/
theorem closeRight_none :
    ∃ s, run (commStep 0) (zeroTable 8) [.open PLM_COMM_TCP 3, .accept 3 5] = some s ∧
    CloseRight 5 [] s := by
  obtain ⟨s₁, h₁⟩ : ∃ s₁, run (commStep 0) (zeroTable 8) [.open PLM_COMM_TCP 3] = some s₁ :=
    ⟨_, rfl⟩
  obtain ⟨s, h⟩ : ∃ s, run (commStep 0) (zeroTable 8) [.open PLM_COMM_TCP 3,
    .accept 3 5] = some s :=
    ⟨_, rfl⟩
  have h' : run (commStep 0) s₁ [.accept 3 5] = some s := by
    have := run_append (commStep 0) (zeroTable 8) [.open PLM_COMM_TCP 3] [.accept 3 5]
    rw [h₁] at this
    exact this.symm.trans h
  exact ⟨s, h, (closeRight_iff h₁ rfl (by simp) h').2 ⟨rfl, rfl, rfl, by simp⟩⟩

/-- With two handlers on an accepted connection the close never returns. -/
theorem closeRight_false : ∃ s, run (commStep 0) (zeroTable 8) [.open PLM_COMM_TCP 3, .accept 3 5,
    .prepare 100 1 11, .addCloseHandler 5 100, .prepare 101 2 22, .addCloseHandler 5 101] = some s ∧
    ¬ CloseRight 5 [100, 101] s := by
  refine ⟨_, rfl, ?_⟩
  rintro ⟨fuel, c', h, -⟩
  rw [commClose_diverges ⟨some 101, PLM_COMM_TCP, true, false⟩ ⟨some 100, 2,
    22⟩ (a := 101) (n := 100) rfl rfl rfl rfl rfl fuel] at h
  exact absurd h (by simp)

end Plume
