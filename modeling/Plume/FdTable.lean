import Plume.Comm

/-! The table of descriptors over whole runs, from what `malloc` left in it on. Nothing in
`plm_comm.c` clears the memory, nothing compares a descriptor with the size of the table, and
`plm_comm_accept` does not clear `cf_associate`. -/

namespace Plume
open CLib

inductive FdOp
  | open (type fd : ℕ)
  | accept (fd cfd : ℕ)
  | close (fd : ℕ)
  | setFlagAdded (fd : ℕ) (added : Bool)
  | getFlagAdded (fd : ℕ)
deriving DecidableEq, Repr

/-- `plm_comm_init`, where `malloc` returned memory with these contents; `memory` is what a
`cf_handler` in it points at. -/
def commInit (contents : List CommFd) (memory : ℕ → Option CloseHandler) : Comm :=
  ⟨contents, memory, []⟩

def fdExec (fuel : ℕ) (c : Comm) : FdOp → Except Fault Comm
  | .open type fd => commOpen type fd c
  | .accept fd cfd => commAccept fd cfd c
  | .close fd => commClose fuel fd c
  | .setFlagAdded fd added => commSetFlagAdded fd added c
  | .getFlagAdded fd => do
    let _ ← commGetFlagAdded fd c
    return c

def fdStep (fuel : ℕ) (c : Comm) (op : FdOp) : Option Comm := (fdExec fuel c op).toOption

structure FdLog where
  /-- the type a descriptor was opened with, while it is open -/
  opened : ℕ → Option ℕ
  /-- it has been opened at some time -/
  used : ℕ → Bool

namespace FdLog

def start : FdLog := ⟨fun _ => none, fun _ => false⟩

def add (g : FdLog) (type fd : ℕ) : FdLog :=
  ⟨Function.update g.opened fd (some type), Function.update g.used fd true⟩

def step (g : FdLog) : FdOp → FdLog
  | .open type fd => g.add type fd
  | .accept _ cfd => g.add PLM_COMM_TCP cfd
  | .close fd => { g with opened := Function.update g.opened fd none }
  | _ => g

@[simp] theorem add_opened (g : FdLog) (type fd : ℕ) : (g.add type fd).opened fd = some type :=
  Function.update_self ..

@[simp] theorem add_used (g : FdLog) (type fd : ℕ) : (g.add type fd).used fd = true :=
  Function.update_self ..

def after (ops : List FdOp) : FdLog := ops.foldl step start

theorem after_snoc (ops : List FdOp) (op : FdOp) : after (ops ++ [op]) = (after ops).step op :=
  List.foldl_concat ..

end FdLog

def FdOp.opens (fd : ℕ) : FdOp → Bool
  | .open _ f => f == fd
  | .accept _ f => f == fd
  | _ => false

/-- The kernel returns descriptors that are not open, and the callers use those that are. -/
def FdCalled (g : FdLog) : FdOp → Prop
  | .open type fd => type ∈ [PLM_COMM_FILE, PLM_COMM_TCP, PLM_COMM_UDP] ∧ g.opened fd = none
  | .accept fd cfd => g.opened fd ≠ none ∧ g.opened cfd = none
  | .close fd | .setFlagAdded fd _ | .getFlagAdded fd => g.opened fd ≠ none

instance (g : FdLog) : (op : FdOp) → Decidable (FdCalled g op)
  | .open _ _ | .accept _ _ => inferInstanceAs (Decidable (_ ∧ _))
  | .close _ | .setFlagAdded _ _ | .getFlagAdded _ => inferInstanceAs (Decidable (_ ≠ _))

def FreshEntry (fd : ℕ) (c : Comm) : Prop :=
  ∃ cf, c.get fd = .ok cf ∧ cf.cf_associate = false ∧ cf.cf_handler = none

/-- Every operation of the run returns, in all of its states `cf_open` is set for the open
descriptors and no others, and descriptors that have just been opened are fresh. -/
structure FdTable (fuel : ℕ) (c₀ : Comm) (ops : List FdOp) : Prop where
  returns : ∀ pre, pre <+: ops → ∃ c, run (fdStep fuel) c₀ pre = some c ∧
    ∀ fd, openFlag c fd = ((FdLog.after pre).opened fd).isSome
  fresh : ∀ pre op, pre ++ [op] <+: ops → ∀ fd, op.opens fd = true →
    ∀ c, run (fdStep fuel) c₀ (pre ++ [op]) = some c → FreshEntry fd c

/-- The descriptor has an entry, which on its first use has no handler in it; descriptors are
accepted on TCP sockets, and not as number 0, and on the first use of the entry `cf_associate` is
clear. -/
def FdSafe (c₀ : Comm) (g : FdLog) : FdOp → Prop
  | .open _ fd => ∃ cf, c₀.get fd = .ok cf ∧ (g.used fd = false → cf.cf_handler = none)
  | .accept fd cfd => g.opened fd = some PLM_COMM_TCP ∧ 0 < cfd ∧ ∃ cf, c₀.get cfd = .ok cf ∧
    (g.used cfd = false → cf.cf_handler = none ∧ cf.cf_associate = false)
  | _ => True

structure EntryInv (cf₀ : CommFd) (opened : Option ℕ) (used : Bool) (cf : CommFd) : Prop where
  flag : cf.cf_open = opened.isSome
  type : ∀ t, opened = some t → cf.cf_type = t
  unused : used = false → cf = cf₀
  handler : used = true → cf.cf_handler = none
  associate : used = true → opened = none → cf.cf_associate = false

structure TableInv (c₀ : Comm) (g : FdLog) (c : Comm) : Prop where
  length : c.commfd_array.length = c₀.commfd_array.length
  entry : ∀ fd cf₀ cf, c₀.get fd = .ok cf₀ → c.get fd = .ok cf →
    EntryInv cf₀ (g.opened fd) (g.used fd) cf
  known : ∀ fd, g.opened fd ≠ none → g.used fd = true ∧ ∃ cf₀, c₀.get fd = .ok cf₀

section Step

variable {c₀ c c' : Comm} {g g' : FdLog} {cf₀ cf cf' : CommFd} {fd fuel : ℕ} {op : FdOp}

theorem Comm.get_iff_lt : (∃ cf, c.get fd = .ok cf) ↔ fd < c.commfd_array.length := by
  simp only [Comm.get_ok, List.getElem?_eq_some_iff]
  exact ⟨fun ⟨_, hlt, _⟩ => hlt, fun hlt => ⟨_, hlt, rfl⟩⟩

theorem TableInv.get (h : TableInv c₀ g c) (h₀ : c₀.get fd = .ok cf₀) :
    ∃ cf, c.get fd = .ok cf ∧ EntryInv cf₀ (g.opened fd) (g.used fd) cf := by
  obtain ⟨cf, hcf⟩ := Comm.get_iff_lt.2 (h.length ▸ Comm.get_iff_lt.1 ⟨cf₀, h₀⟩)
  exact ⟨cf, hcf, h.entry fd cf₀ cf h₀ hcf⟩

theorem TableInv.of_open (h : TableInv c₀ g c) (ho : g.opened fd ≠ none) :
    ∃ cf, c.get fd = .ok cf ∧ cf.cf_open = true ∧ cf.cf_handler = none ∧
      g.opened fd = some cf.cf_type := by
  obtain ⟨hused, cf₀, h₀⟩ := h.known fd ho
  obtain ⟨cf, hcf, he⟩ := h.get h₀
  obtain ⟨t, ht⟩ := Option.ne_none_iff_exists'.1 ho
  exact ⟨cf, hcf, by rw [he.flag, ht]; rfl, he.handler hused, by rw [ht, he.type t ht]⟩

theorem TableInv.openFlag (h : TableInv c₀ g c) (fd : ℕ) :
    openFlag c fd = (g.opened fd).isSome := by
  by_cases hlt : fd < c₀.commfd_array.length
  · obtain ⟨cf₀, h₀⟩ := Comm.get_iff_lt.2 hlt
    obtain ⟨cf, hcf, he⟩ := h.get h₀
    rw [openFlag_of_get hcf, he.flag]
  · have hnone : g.opened fd = none := by
      by_contra ho
      exact hlt (Comm.get_iff_lt.1 (h.known fd ho).2)
    rw [hnone, Plume.openFlag, List.getElem?_eq_none (by rw [h.length]; omega)]
    rfl

theorem TableInv.write (h : TableInv c₀ g c) (h₀ : c₀.get fd = .ok cf₀)
    (he : EntryInv cf₀ (g'.opened fd) (g'.used fd) cf')
    (hused : g'.opened fd ≠ none → g'.used fd = true)
    (hother : ∀ x, x ≠ fd → g'.opened x = g.opened x ∧ g'.used x = g.used x) :
    TableInv c₀ g' (c.set fd cf') := by
  refine ⟨(List.length_set ..).trans h.length, fun x x₀ xf hx₀ hx => ?_, fun x hx => ?_⟩
  · rw [Comm.get_ok, Comm.get_set] at hx
    by_cases hxf : x = fd
    · subst hxf
      rw [if_pos ⟨rfl, h.length ▸ Comm.lt_of_get h₀⟩] at hx
      cases hx
      rw [h₀] at hx₀
      cases hx₀
      exact he
    · rw [if_neg fun hand => hxf hand.1] at hx
      rw [(hother x hxf).1, (hother x hxf).2]
      exact h.entry x x₀ xf hx₀ (Comm.get_ok.2 hx)
  · by_cases hxf : x = fd
    · subst hxf
      exact ⟨hused hx, cf₀, h₀⟩
    · rw [(hother x hxf).1] at hx
      rw [(hother x hxf).2]
      exact h.known x hx

theorem TableInv.add (h : TableInv c₀ g c) (h₀ : c₀.get fd = .ok cf₀) {type : ℕ}
    (hopen : cf'.cf_open = true)
    (htype : cf'.cf_type = type) (hnone : cf'.cf_handler = none) : TableInv c₀ (g.add type fd)
    (c.set fd cf') := by
  refine h.write h₀ ⟨?_, fun t ht => ?_, ?_, fun _ => hnone, ?_⟩ (fun _ => g.add_used type fd)
    fun x hx => ⟨Function.update_of_ne hx .., Function.update_of_ne hx ..⟩
  · rw [hopen, FdLog.add_opened]
    rfl
  · rw [FdLog.add_opened] at ht
    rw [htype, Option.some.inj ht]
  · simp
  · simp

theorem Comm.get_set_self (hg : c.get fd = .ok cf) : (c.set fd cf').get fd = .ok cf' := by
  rw [Comm.get_ok, Comm.get_set, if_pos ⟨rfl, Comm.lt_of_get hg⟩]

variable (fuel) in
/-- The step lemma: where it is safe, an operation returns and keeps the invariant. -/
theorem TableInv.exec (h : TableInv c₀ g c) (hcall : FdCalled g op) (hsafe : FdSafe c₀ g op) :
    ∃ c', fdExec fuel c op = .ok c' ∧ TableInv c₀ (g.step op) c' ∧ ∀ fd, op.opens fd = true →
      FreshEntry fd c' := by
  cases op with
  | «open» type fd =>
    obtain ⟨cf₀, h₀, hfirst⟩ := hsafe
    obtain ⟨cf, hcf, he⟩ := h.get h₀
    have hclosed : cf.cf_open = false := by rw [he.flag, hcall.2]; rfl
    have hnone : cf.cf_handler = none := by
      cases hu : g.used fd with
      | true => exact he.handler hu
      | false => rw [he.unused hu]; exact hfirst hu
    refine ⟨_, commOpen_ok.2 ⟨cf, hcf, hclosed, rfl⟩, h.add h₀ rfl rfl hnone, fun x hx => ?_⟩
    obtain rfl : fd = x := by simpa [FdOp.opens] using hx
    exact ⟨_, Comm.get_set_self hcf, rfl, hnone⟩
  | accept l fd =>
    obtain ⟨htcp, hpos, cf₀, h₀, hfirst⟩ := hsafe
    obtain ⟨lf, hl, -, -, htype⟩ := h.of_open hcall.1
    obtain ⟨cf, hcf, he⟩ := h.get h₀
    have hclosed : cf.cf_open = false := by rw [he.flag, hcall.2]; rfl
    have hclear : cf.cf_handler = none ∧ cf.cf_associate = false := by
      cases hu : g.used fd with
      | true => exact ⟨he.handler hu, he.associate hu hcall.2⟩
      | false => rw [he.unused hu]; exact hfirst hu
    have hlf : lf.cf_type = PLM_COMM_TCP := Option.some.inj (htype.symm.trans htcp)
    refine ⟨_, commAccept_ok.2 ⟨lf, hl, hlf, .inl ⟨hpos, cf, hcf, hclosed, rfl⟩⟩,
      h.add h₀ rfl rfl hclear.1, fun x hx => ?_⟩
    obtain rfl : fd = x := by simpa [FdOp.opens] using hx
    exact ⟨_, Comm.get_set_self hcf, hclear.2, hclear.1⟩
  | close fd =>
    obtain ⟨hused, cf₀, h₀⟩ := h.known fd hcall
    obtain ⟨cf, hcf, hopen, hnone, -⟩ := h.of_open hcall
    refine ⟨_, commClose_unhandled fuel hcf hopen hnone, ?_, by simp [FdOp.opens]⟩
    refine h.write h₀
      ⟨?_, ?_, ?_, fun _ => hnone, fun _ _ => rfl⟩ ?_ fun x hx => ⟨Function.update_of_ne hx .., rfl⟩
    all_goals simp [FdLog.step, hused]
  | setFlagAdded fd added =>
    obtain ⟨hused, cf₀, h₀⟩ := h.known fd hcall
    obtain ⟨cf, hcf, he⟩ := h.get h₀
    have hunused : g.used fd ≠ false := by simp [hused]
    refine ⟨c.set fd { cf with cf_associate := added }, by simp [fdExec, commSetFlagAdded, hcf], ?_,
      by simp [FdOp.opens]⟩
    exact h.write h₀
      ⟨he.flag, he.type, fun hu => absurd hu hunused, he.handler, fun _ ho => absurd ho hcall⟩
      (fun _ => hused) fun _ _ => ⟨rfl, rfl⟩
  | getFlagAdded fd =>
    obtain ⟨cf, hcf, -⟩ := h.of_open hcall
    exact ⟨c, by simp [fdExec, commGetFlagAdded, hcf], h, by simp [FdOp.opens]⟩

/-- And only there does it leave the table as it should be. -/
theorem TableInv.safe (h : TableInv c₀ g c) (hcall : FdCalled g op)
    (hexec : fdExec fuel c op = .ok c')
    (hflag : ∀ fd, Plume.openFlag c' fd = ((g.step op).opened fd).isSome)
    (hfresh : ∀ fd, op.opens fd = true → FreshEntry fd c') : FdSafe c₀ g op := by
  cases op with
  | «open» type fd =>
    obtain ⟨cf, hcf, -, rfl⟩ := commOpen_ok.1 hexec
    obtain ⟨cf₀, h₀⟩ := Comm.get_iff_lt.2 (h.length ▸ Comm.lt_of_get hcf)
    obtain ⟨cf', hcf', -, hnone⟩ := hfresh fd (by simp [FdOp.opens])
    rw [Comm.get_set_self hcf] at hcf'
    cases hcf'
    exact ⟨cf₀, h₀, fun hu => (h.entry fd cf₀ cf h₀ hcf).unused hu ▸ hnone⟩
  | accept l fd =>
    obtain ⟨lf, hl, hlf, hacc⟩ := commAccept_ok.1 hexec
    obtain ⟨lf', hl', -, -, htype⟩ := h.of_open hcall.1
    rw [hl] at hl'
    cases hl'
    rcases hacc with ⟨hpos, cf, hcf, -, rfl⟩ | ⟨rfl, rfl⟩
    · obtain ⟨cf₀, h₀⟩ := Comm.get_iff_lt.2 (h.length ▸ Comm.lt_of_get hcf)
      obtain ⟨cf', hcf', hassoc, hnone⟩ := hfresh fd (by simp [FdOp.opens])
      rw [Comm.get_set_self hcf] at hcf'
      cases hcf'
      exact ⟨htype.trans (congrArg some hlf), hpos, cf₀, h₀, fun hu =>
        (h.entry fd cf₀ cf h₀ hcf).unused hu ▸ ⟨hnone, hassoc⟩⟩
    · -- number 0 is taken for no descriptor, so its flag is left as it was
      have h0 := hflag 0
      rw [h.openFlag, hcall.2, FdLog.step, FdLog.add_opened] at h0
      cases h0
  | _ => trivial

end Step

/-- With all flags clear in the memory, the invariant holds to begin with. -/
theorem tableInv_init {contents : List CommFd} (memory : ℕ → Option CloseHandler)
    (h : ∀ cf ∈ contents, cf.cf_open = false) :
    TableInv (commInit contents memory) FdLog.start (commInit contents memory) := by
  refine ⟨rfl, fun fd cf₀ cf h₀ hcf => ?_, fun fd hfd => absurd rfl hfd⟩
  rw [h₀] at hcf
  cases hcf
  refine ⟨h cf₀ (List.mem_of_getElem? (Comm.get_ok.1 h₀)), ?_, fun _ => rfl, ?_, ?_⟩
  all_goals simp [FdLog.start]

theorem run_fdStep {c₀ c : Comm} {pre : List FdOp} {fuel : ℕ}
    (h : run (fdStep fuel) c₀ pre = some c) (op : FdOp)
    (c' : Comm) :
    run (fdStep fuel) c₀ (pre ++ [op]) = some c' ↔ fdExec fuel c op = .ok c' := by
  rw [run_snoc, h, Option.bind_some, fdStep, toOption_eq_some]

theorem TableInv.safe_iff {c₀ : Comm} (h : TableInv c₀ FdLog.start c₀) (fuel : ℕ) (ops : List FdOp)
    (hcalls : ∀ pre op, pre ++ [op] <+: ops → FdCalled (FdLog.after pre) op) :
    FdTable fuel c₀ ops ↔ ∀ pre op, pre ++ [op] <+: ops → FdSafe c₀ (FdLog.after pre) op := by
  have hiff := forall_prefix_iff_of_invariant (l := ops)
    (P := fun pre => ∃ c, run (fdStep fuel) c₀ pre = some c ∧
      ∀ fd, Plume.openFlag c fd = ((FdLog.after pre).opened fd).isSome)
    (I := fun pre => ∃ c, run (fdStep fuel) c₀ pre = some c ∧ TableInv c₀ (FdLog.after pre) c)
    (Q := fun pre op => ∀ fd, op.opens fd = true →
      ∀ c, run (fdStep fuel) c₀ (pre ++ [op]) = some c → FreshEntry fd c)
    (C := fun pre op => FdSafe c₀ (FdLog.after pre) op) ⟨c₀, rfl, h⟩ ?_ ?_ ?_
  · exact ⟨fun ⟨hret, hfresh⟩ => hiff.1 ⟨hret, hfresh⟩,
      fun hsafe => ⟨(hiff.2 hsafe).1, (hiff.2 hsafe).2⟩⟩
  · rintro pre ⟨c, hc, hi⟩
    exact ⟨c, hc, hi.openFlag⟩
  · rintro pre op hpre ⟨c, hc, hi⟩ ⟨c', hc', hflag⟩ hfresh
    rw [FdLog.after_snoc] at hflag
    exact hi.safe (hcalls pre op hpre)
      ((run_fdStep hc op c').1 hc') hflag fun fd hfd => hfresh fd hfd c' hc'
  · rintro pre op hpre ⟨c, hc, hi⟩ hsafe
    obtain ⟨c', hexec, hi', hfresh⟩ := hi.exec fuel (hcalls pre op hpre) hsafe
    have hc' := (run_fdStep hc op c').2 hexec
    refine ⟨⟨c', hc', FdLog.after_snoc pre op ▸ hi'⟩, fun fd hfd c'' hc'' => ?_⟩
    rw [hc'] at hc''
    cases hc''
    exact hfresh fd hfd

/-- For every run of the callers over descriptors of the kernel, from any contents of the memory:
the table is right in all states just when no flag was set in the memory and every descriptor the
kernel returned was safe. -/
theorem fdTable_iff (fuel : ℕ) (contents : List CommFd) (memory : ℕ → Option CloseHandler)
    (ops : List FdOp)
    (hcalls : Meets (fun g op => some (FdLog.step g op)) FdCalled FdLog.start ops) :
    FdTable fuel (commInit contents memory) ops ↔ (∀ cf ∈ contents, cf.cf_open = false) ∧
      Meets (fun g op => some (FdLog.step g op))
        (FdSafe (commInit contents memory)) FdLog.start ops := by
  rw [meets_fold] at hcalls ⊢
  constructor
  · intro h
    have hclear : ∀ cf ∈ contents, cf.cf_open = false := by
      intro cf hcf
      obtain ⟨c, hc, hflag⟩ := h.returns [] List.nil_prefix
      cases hc
      obtain ⟨fd, hfd⟩ := List.mem_iff_getElem?.1 hcf
      rw [← openFlag_of_get (Comm.get_ok.2 hfd : (commInit contents memory).get fd = .ok cf), hflag]
      rfl
    exact ⟨hclear, ((tableInv_init memory hclear).safe_iff fuel ops hcalls).1 h⟩
  · rintro ⟨hclear, hsafe⟩
    exact ((tableInv_init memory hclear).safe_iff fuel ops hcalls).2 hsafe

/-- A connection is accepted, added to a poller and closed, and its number is accepted again. -/
theorem fdTable_iff_reused :
    FdTable 0 (commInit (List.replicate 8 ⟨none, 0, false, false⟩) fun _ => none)
    [.open PLM_COMM_TCP 3, .accept 3 5, .setFlagAdded 5 true, .close 5, .accept 3 5,
      .getFlagAdded 5] := by
  refine (fdTable_iff 0 _ _ _ ?_).2 ⟨by simp, ?_⟩
  · refine (meets_cons _).2 ⟨⟨by decide, rfl⟩, fun _ h => ?_⟩
    cases h
    refine (meets_cons _).2 ⟨⟨by decide, rfl⟩, fun _ h => ?_⟩
    cases h
    refine (meets_cons _).2 ⟨by decide, fun _ h => ?_⟩
    cases h
    refine (meets_cons _).2 ⟨by decide, fun _ h => ?_⟩
    cases h
    refine (meets_cons _).2 ⟨⟨by decide, rfl⟩, fun _ h => ?_⟩
    cases h
    exact (meets_cons _).2 ⟨by decide, fun _ _ => meets_nil _ _ _⟩
  · refine (meets_cons _).2 ⟨⟨_, rfl, fun _ => rfl⟩, fun _ h => ?_⟩
    cases h
    refine (meets_cons _).2 ⟨⟨rfl, by decide, _, rfl, fun _ => ⟨rfl, rfl⟩⟩, fun _ h => ?_⟩
    cases h
    refine (meets_cons _).2 ⟨trivial, fun _ h => ?_⟩
    cases h
    refine (meets_cons _).2 ⟨trivial, fun _ h => ?_⟩
    cases h
    refine (meets_cons _).2 ⟨⟨rfl, by decide, _, rfl, fun _ => ⟨rfl, rfl⟩⟩, fun _ h => ?_⟩
    cases h
    exact (meets_cons _).2 ⟨trivial, fun _ _ => meets_nil _ _ _⟩

/-- The memory may hold a flag, and then opening the descriptor aborts. -/
theorem not_fdTable : ¬ ∀ (maxfd fuel : ℕ) (contents : List CommFd) (memory : ℕ →
    Option CloseHandler) (ops : List FdOp),
    0 < maxfd → contents.length = maxfd →
      Meets (fun g op => some (FdLog.step g op)) FdCalled FdLog.start ops →
      FdTable fuel (commInit contents memory) ops := by
  intro h
  have h3 := h 8 0 (List.replicate 8 ⟨some 1, 7, true, true⟩) (fun _ => none) [.open PLM_COMM_TCP 3]
    (by decide) rfl ?_
  · obtain ⟨c, hc, -⟩ := h3.returns _ (List.prefix_refl _)
    cases hc
  · exact (meets_cons _).2 ⟨⟨by decide, rfl⟩, fun _ _ => meets_nil _ _ _⟩

end Plume
