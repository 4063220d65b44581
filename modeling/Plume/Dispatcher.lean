import Plume.CLib.Lock
import Plume.Event
import Plume.Threads

/-! `plm_disp_proc` in full and the way a worker process ends: the threads of `Threads`, with the
lock around the global poll, the batch of handlers that each of them calls and the timers it
runs, and with all that the main thread destroys behind its own loop. -/

namespace Plume
open CLib

inductive Round
  | status
  | trylock
  | polling (t : Poller)
  | handling (t : Poller) (n : ℕ)
  | timers
deriving DecidableEq, Repr

def Round.poller : Round → Option Poller
  | .polling t | .handling t _ => some t
  | _ => none

/-- How far the main thread has come behind its `plm_disp_proc`: through the hooks of the plugins,
`plm_event_io_shutdown`, `plm_comm_destroy` and `plm_buffer_destroy`, which
`plm_main_on_work_proc_exit` calls, then in `plm_disp_shutdown`, and at last `plm_ctx_destroy`. -/
inductive Ending
  | working
  | plugins | eventIo | comm | buffer
  | join (i : ℕ) | joined | unlocked
  | ctx
  /-- `plm_threads_end` read `tm_thread_id` where it is `NULL` -/
  | crashed
deriving DecidableEq, Repr

/-- The handlers of events and timers that are called, with what the main thread is at. -/
structure HandlerCall where
  thread : ℕ
  ending : Ending
deriving DecidableEq, Repr

structure Disp where
  threads : Threads
  disp_thrdn : ℕ
  /-- `tm_thread_id` is `NULL`, since its `calloc` failed -/
  noIds : Bool
  round : ℕ → Round
  disp_lock : Lock ℕ
  ending : Ending
  /-- `disp_lock` was used behind `plm_lock_destroy` -/
  misused : Bool
  calls : List HandlerCall

inductive DispAct
  | thread (a : ThreadAct)
  | trylock (t : ℕ)
  | poll (t n : ℕ)
  | handler (t : ℕ)
  | through (t : ℕ)
  | fire (t : ℕ)
  | timed (t : ℕ)
  | finish
deriving DecidableEq, Repr

namespace Disp

def goto (s : Disp) (t : ℕ) (r : Round) : Disp :=
  { s with round := fun x => if x = t then r else s.round x }

def failed (s : Disp) (e : StartError) (threads : Threads) : Disp :=
  { s with
    threads := threads
    noIds := e = .threadId
    disp_lock := if e ≠ .lock ∧ s.disp_thrdn > 1 then .destroyed else s.disp_lock }

def called (s : Disp) (t : ℕ) : Disp := { s with calls := s.calls ++ [⟨t, s.ending⟩] }

theorem goto_self (s : Disp) (t : ℕ) (r : Round) : (s.goto t r).round t = r := if_pos rfl

theorem goto_other (s : Disp) {t u : ℕ} (r : Round) (h : u ≠ t) :
    (s.goto t r).round u = s.round u := if_neg h

/-- The epoll descriptors are closed, so that no poll finds an event any more. -/
def closed (s : Disp) : Bool := s.ending ≠ .working && s.ending ≠ .plugins

end Disp

def unlock (s : Disp) : Disp :=
  if s.disp_lock = .destroyed then { s with misused := true } else { s with disp_lock := .free }

/-- The next step of the main thread behind its loop, but for the two of `Threads`: the shutdown of
`plm_disp_shutdown` and that of `plm_threads_end`. -/
def finish (s : Disp) : Option Disp :=
  match s.ending with
  | .working => if s.threads.point 0 = .exit then some { s with ending := .plugins } else none
  | .plugins => some { s with ending := .eventIo }
  | .eventIo => some { s with ending := .comm }
  | .comm => some { s with ending := .buffer }
  | .buffer => if s.threads.point 0 = .done then some { s with ending := .join 1 } else none
  | .join i =>
    if i < s.threads.tm_thrdn then
      if s.noIds = true then some { s with ending := .crashed }
      else
        match s.threads.tm_thread_id i with
        | none => some { s with ending := .join (i + 1) }
        | some thrd =>
          if s.threads.point thrd = .done then some { s with ending := .join (i + 1) } else none
    else some { s with ending := .joined }
  | .joined =>
    if s.disp_thrdn > 1 then some { s with ending := .unlocked, disp_lock := .destroyed }
    else some { s with ending := .unlocked }
  | .unlocked => some { s with ending := .ctx }
  | .ctx | .crashed => none

/-- One step of a thread, `none` where it is not there. -/
def dispStep (s : Disp) : DispAct → Option Disp
  | .thread (.loop t) =>
    if s.round t = .status then
      (threadStep s.threads (.loop t)).map fun threads =>
        let s := { s with threads := threads }
        if threads.point t = .loop then s.goto t .trylock else s
    else none
  | .thread (.bootFails e) => (threadStep s.threads (.bootFails e)).map (s.failed e)
  | .thread .exit =>
    if s.ending =
      .buffer then (threadStep s.threads .exit).map fun threads => { s with threads := threads }
    else none
  | .thread a => (threadStep s.threads a).map fun threads => { s with threads := threads }
  | .trylock t =>
    if s.round t = .trylock then
      match s.disp_lock with
      | .free => some ({ s with disp_lock := .held t }.goto t (.polling .processGlobal))
      | .held _ => some (s.goto t .timers)
      | .destroyed => some ({ s with misused := true }.goto t .timers)
    else none
  -- `n` handlers are found
  | .poll t n =>
    match s.round t with
    | .polling p => if s.closed = true ∧ n ≠ 0 then none else some (s.goto t (.handling p n))
    | _ => none
  | .handler t =>
    match s.round t with
    | .handling p (n + 1) => some ((s.called t).goto t (.handling p n))
    | _ => none
  | .through t =>
    match s.round t with
    | .handling .processGlobal 0 => some ((unlock s).goto t .timers)
    | .handling (.threadLocal _) 0 => some (s.goto t .status)
    | _ => none
  -- `plm_timer_run`
  | .fire t => if s.round t = .timers then some (s.called t) else none
  | .timed t => if s.round t = .timers then some
    (s.goto t (.polling (.threadLocal (s.threads.curr_slot t)))) else none
  | .finish => finish s

section Step

variable {s s' : Disp}

inductive Finishes (s : Disp) : Disp → Prop
  | hooks : s.ending = .working → s.threads.point 0 = .exit →
    Finishes s { s with ending := .plugins }
  | eventIo : s.ending = .plugins → Finishes s { s with ending := .eventIo }
  | comm : s.ending = .eventIo → Finishes s { s with ending := .comm }
  | buffer : s.ending = .comm → Finishes s { s with ending := .buffer }
  | shutdown : s.ending = .buffer → s.threads.point 0 = .done →
    Finishes s { s with ending := .join 1 }
  | crash {i : ℕ} : s.ending = .join i → i < s.threads.tm_thrdn → s.noIds = true →
    Finishes s { s with ending := .crashed }
  | join {i : ℕ} : s.ending = .join i → i < s.threads.tm_thrdn →
    (∀ thrd, s.threads.tm_thread_id i = some thrd → s.threads.point thrd = .done) →
    Finishes s { s with ending := .join (i + 1) }
  | joined {i : ℕ} : s.ending = .join i → s.threads.tm_thrdn ≤ i →
    Finishes s { s with ending := .joined }
  | unlocked : s.ending = .joined → Finishes s { s with
      ending := .unlocked, disp_lock := if s.disp_thrdn > 1 then .destroyed else s.disp_lock }
  | ctx : s.ending = .unlocked → Finishes s { s with ending := .ctx }

theorem finish_cases (h : finish s = some s') : Finishes s s' := by
  unfold finish at h
  split at h
  next he =>
    split_ifs at h with hp
    cases h
    exact .hooks he hp
  next he =>
    cases h
    exact .eventIo he
  next he =>
    cases h
    exact .comm he
  next he =>
    cases h
    exact .buffer he
  next he =>
    split_ifs at h with hp
    cases h
    exact .shutdown he hp
  next i he =>
    split_ifs at h with hi hnull
    · cases h
      exact .crash he hi hnull
    · split at h
      next hid =>
        cases h
        exact .join he hi fun thrd ht => by rw [hid] at ht; cases ht
      next thrd hid =>
        split_ifs at h with hd
        cases h
        exact .join he hi fun thrd' ht => by rw [hid] at ht; cases ht; exact hd
    · cases h
      exact .joined he (by omega)
  next he =>
    have hs := Finishes.unlocked he
    split_ifs at h with hn
    · cases h
      rwa [if_pos hn] at hs
    · cases h
      rwa [if_neg hn] at hs
  next he =>
    cases h
    exact .ctx he
  next => cases h
  next => cases h

/-- What each step asks for and what it leaves behind. -/
theorem dispStep_cases {a : DispAct} (h : dispStep s a = some s') :
    match a with
    | .thread a =>
      ∃ threads, threadStep s.threads a = some threads ∧ (a = .exit → s.ending = .buffer) ∧
        (s' = { s with threads := threads } ∧ (∀ e, a ≠ .bootFails e) ∧
          (∀ t, a = .loop t → s.round t = .status) ∨
          (∃ t, a = .loop t ∧ s.round t = .status ∧ threads.point t = .loop ∧
            s' = { s with threads := threads }.goto t .trylock) ∨
          ∃ e, a = .bootFails e ∧ s' = s.failed e threads)
    | .trylock t => s.round t = .trylock ∧
        (s.disp_lock = .free ∧
          s' = { s with disp_lock := .held t }.goto t (.polling .processGlobal) ∨
          (∃ u, s.disp_lock = .held u) ∧ s' = s.goto t .timers ∨
          s.disp_lock = .destroyed ∧ s' = { s with misused := true }.goto t .timers)
    | .poll t n =>
      ∃ p, s.round t = .polling p ∧ (s.closed = true → n = 0) ∧ s' = s.goto t (.handling p n)
    | .handler t =>
      ∃ p n, s.round t = .handling p (n + 1) ∧ s' = (s.called t).goto t (.handling p n)
    | .through t => s.round t = .handling .processGlobal 0 ∧ s' = (unlock s).goto t .timers ∨
        (∃ slot, s.round t = .handling (.threadLocal slot) 0) ∧ s' = s.goto t .status
    | .fire t => s.round t = .timers ∧ s' = s.called t
    | .timed t =>
      s.round t = .timers ∧ s' = s.goto t (.polling (.threadLocal (s.threads.curr_slot t)))
    | .finish => Finishes s s' := by
  cases a with
  | thread a =>
    have hplain : a ≠ .exit → (∀ e, a ≠ .bootFails e) → (∀ t, a ≠ .loop t) →
        (threadStep s.threads a).map (fun threads => { s with threads := threads }) = some s' →
        ∃ threads, threadStep s.threads a = some threads ∧ (a = .exit → s.ending = .buffer) ∧
          (s' = { s with threads := threads } ∧ (∀ e, a ≠ .bootFails e) ∧
            (∀ t, a = .loop t → s.round t = .status) ∨
            (∃ t, a = .loop t ∧ s.round t = .status ∧ threads.point t = .loop ∧
              s' = { s with threads := threads }.goto t .trylock) ∨
            ∃ e, a = .bootFails e ∧ s' = s.failed e threads) := by
      intro hexit hfails hloop hs
      obtain ⟨threads, ht, rfl⟩ := Option.map_eq_some_iff.1 hs
      exact ⟨threads, ht, fun he => absurd he hexit,
        .inl ⟨rfl, hfails, fun t ht => absurd ht (hloop t)⟩⟩
    cases a with
    | bootFails e =>
      obtain ⟨threads, ht, rfl⟩ := Option.map_eq_some_iff.1 h
      exact ⟨threads, ht, nofun, .inr (.inr ⟨e, rfl, rfl⟩)⟩
    | loop t =>
      simp only [dispStep] at h
      split_ifs at h with hr
      obtain ⟨threads, ht, hs⟩ := Option.map_eq_some_iff.1 h
      refine ⟨threads, ht, nofun, ?_⟩
      split_ifs at hs with hp
      · exact .inr (.inl ⟨t, rfl, hr, hp, hs.symm⟩)
      · exact .inl ⟨hs.symm, nofun, fun u hu => by cases hu; exact hr⟩
    | exit =>
      simp only [dispStep] at h
      split_ifs at h with he
      obtain ⟨threads, ht, rfl⟩ := Option.map_eq_some_iff.1 h
      exact ⟨threads, ht, fun _ => he, .inl ⟨rfl, nofun, nofun⟩⟩
    | _ => exact hplain nofun nofun nofun h
  | trylock t =>
    simp only [dispStep] at h
    split_ifs at h with hr
    refine ⟨hr, ?_⟩
    split at h
    next hl => exact .inl ⟨hl, (Option.some.inj h).symm⟩
    next u hl => exact .inr (.inl ⟨⟨u, hl⟩, (Option.some.inj h).symm⟩)
    next hl => exact .inr (.inr ⟨hl, (Option.some.inj h).symm⟩)
  | poll t n =>
    simp only [dispStep] at h
    split at h
    next p hr =>
      split_ifs at h with hc
      exact ⟨p, hr, fun hcl => by_contra fun hn => hc ⟨hcl, hn⟩, (Option.some.inj h).symm⟩
    next => cases h
  | handler t =>
    simp only [dispStep] at h
    split at h
    next p n hr => exact ⟨p, n, hr, (Option.some.inj h).symm⟩
    next => cases h
  | through t =>
    simp only [dispStep] at h
    split at h
    next hr => exact .inl ⟨hr, (Option.some.inj h).symm⟩
    next slot hr => exact .inr ⟨⟨slot, hr⟩, (Option.some.inj h).symm⟩
    next => cases h
  | fire t | timed t =>
    simp only [dispStep] at h
    split_ifs at h with hr
    exact ⟨hr, (Option.some.inj h).symm⟩
  | finish => exact finish_cases h

end Step

/-- The worker process behind `plm_conf_load`, with `disp_lock` initialised where there is more than
one thread, and as the program loader left it otherwise, which makes a free lock of it too. -/
def dispBoot (thrdn : ℕ) (cpu : Option CpuAffinity) : Disp where
  threads := threadsBoot thrdn cpu
  disp_thrdn := thrdn
  noIds := false
  round _ := .status
  disp_lock := .free
  ending := .working
  misused := false
  calls := []

end Plume
