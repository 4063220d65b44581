import Plume.CLib.Trace

/-! The master process of `main.c` and the workers it forks, as one transition system: the
steps of `main` and of `plm_master_proc_loop`, the signal handlers one instruction at a time,
and the kernel, which delivers signals and ends workers. The log is not in the code. -/

namespace Plume
open CLib

/-- The signals of `plm_sig`: `SIGCHLD`, `SIGQUIT`, `SIGINT`, `SIGTERM`, `SIGHUP`. -/
inductive Signo
  | chld | quit | int | term | hup
deriving DecidableEq, Repr

structure SigAct where
  s_signo : Signo
  s_master_block : Bool
  s_worker_block : Bool
deriving DecidableEq, Repr

def plmSig : List SigAct :=
  [⟨.chld, true, true⟩, ⟨.quit, true, false⟩, ⟨.int, true, false⟩, ⟨.term, true, false⟩,
    ⟨.hup, true, true⟩]

def blockSignals (block : SigAct → Bool) (mask : Finset Signo) : Finset Signo :=
  mask ∪ plmSig.foldl (fun set s => if block s then insert s.s_signo set else set) ∅

def blockSignalMaster : Finset Signo → Finset Signo := blockSignals SigAct.s_master_block

def blockSignalWorker : Finset Signo → Finset Signo := blockSignals SigAct.s_worker_block

inductive WaitStatus
  | exited (code : ℕ)
  | signaled (sig : ℕ)
  | stopped | continued | unknown
deriving DecidableEq, Repr

inductive Life
  | alive
  | dead (status : WaitStatus)
  | reaped
deriving DecidableEq, Repr

/-- A worker process, `entered` once it has left `plm_block_signal_worker` behind. -/
structure Worker where
  pid : ℕ
  mask : Finset Signo
  entered : Bool
  life : Life
deriving DecidableEq

/-- The next instruction of a handler that has been called for `signo`. -/
inductive HPoint
  | switch
  | sigchld
  | clear
  | wait
  | status (status : WaitStatus)
  | reconf
  | clearHup
deriving DecidableEq, Repr

structure Frame where
  signo : Signo
  point : HPoint
deriving DecidableEq, Repr

/-- Where `main` is, apart from its handlers: before the first `fork`, between its return and
the assignment, before `plm_master_proc_loop` blocks signals, in `sigsuspend`. -/
inductive Phase
  | boot
  | forked (pid : ℕ)
  | assigned
  | suspended (caught : Bool)
  | exited
deriving DecidableEq, Repr

inductive MasterEvent
  | forked (pid : ℕ)
  | reaped (pid : ℕ)
  | quitSeen
  | quit (pid : ℕ)
  | hup
  | hupCleared
  | notified (pid : ℕ)
deriving DecidableEq, Repr

structure Master where
  phase : Phase
  mask : Finset Signo
  plm_chlddone : ℕ
  plm_sigint : ℕ
  plm_sigchld : ℕ
  plm_sigterm : ℕ
  plm_sigquit : ℕ
  plm_sighup : ℕ
  worker_pid : ℕ
  /-- the handlers that run, the innermost one first -/
  frames : List Frame
  /-- every worker ever forked -/
  workers : List Worker
  log : List MasterEvent
deriving DecidableEq

namespace Master

def setFlag (m : Master) : Signo → Master
  | .hup => { m with plm_sighup := 1, log := m.log ++ [.hup] }
  | .quit => { m with plm_sigquit := 1 }
  | .chld => { m with plm_sigchld := 1 }
  | .term => { m with plm_sigterm := 1 }
  | .int => { m with plm_sigint := 1 }

/-- The child that `waitpid(worker_pid, ..)` waits for; 0 stands for any. -/
def awaited (m : Master) : Option ℕ :=
  m.workers.findIdx? fun w => w.life ≠ .reaped && (m.worker_pid = 0 || w.pid = m.worker_pid)

def setLife (m : Master) (i : ℕ) (w : Worker) (life : Life) : Master :=
  { m with workers := m.workers.set i { w with life := life } }

/-- One instruction of the handler on top of `rest`: `plm_sig_handler` from the `switch` on,
then `plm_get_chld_status`. A call of `waitpid` that has to wait makes no step. -/
def handlerStep (m : Master) (f : Frame) (rest : List Frame) : Option Master :=
  let goto (p : HPoint) : List Frame := ⟨f.signo, p⟩ :: rest
  match f.point with
  | .switch => some { m.setFlag f.signo with frames := goto .sigchld }
  | .sigchld => some { m with frames := if m.plm_sigchld ≠ 0 then goto .clear else rest }
  | .clear => some { m with plm_sigchld := 0, frames := goto .wait }
  | .wait =>
    match m.awaited with
    | none => some { m with frames := rest }
    | some i =>
      match m.workers[i]? with
      | none => none
      | some w =>
        match w.life with
        | .dead status =>
          some { m.setLife i w .reaped with
            log := m.log ++ [.reaped w.pid]
            frames := if w.pid = m.worker_pid then goto (.status status) else rest }
        | _ => none
  | .status (.exited _) =>
    if m.plm_sighup ≠ 0 then some { m with frames := goto .reconf }
    else some { m with plm_sigquit := 1, frames := rest }
  | .status (.signaled _) => some { m with plm_chlddone := 1, frames := rest }
  | .status .stopped => some { m with frames := rest }
  | .status .continued => some { m with frames := rest }
  | .status .unknown => some { m with plm_chlddone := 1, frames := rest }
  | .reconf => some { m with plm_chlddone := 1, frames := goto .clearHup }
  | .clearHup => some { m with plm_sighup := 0, log := m.log ++ [.hupCleared], frames := rest }

/-- `fork`, with the child's number or a failure. The child inherits the mask; its number is
that of no process that is still there. -/
def fork (m : Master) : Option ℕ → Option (Master × Option ℕ)
  | none => some (m, none)
  | some pid =>
    if pid ≠ 0 ∧ ∀ w ∈ m.workers, w.life ≠ .reaped → w.pid ≠ pid then
      some ({ m with
        workers := m.workers ++ [⟨pid, m.mask, false, .alive⟩]
        log := m.log ++ [.forked pid] }, some pid)
    else none

def quit (m : Master) : Bool := m.plm_sigquit ||| m.plm_sigint ||| m.plm_sigterm ≠ 0

/-- The loop reads its flags, before it decides anything. -/
def seen (m : Master) (quit : Bool) : Master :=
  if quit then { m with log := m.log ++ [.quitSeen] } else m

/-- The first branch of the loop: the worker is replaced. -/
def replace (m : Master) (quit : Bool) (res : Option ℕ) : Option Master :=
  if m.plm_chlddone ≠ 0 ∧ quit = false then
    (fork { m with plm_chlddone := 0 } res).map fun r =>
      match r.2 with
      | some pid => { r.1 with worker_pid := pid }
      | none => r.1
  else some m

def signal (m : Master) (quit : Bool) : Master :=
  if quit = true then { m with log := m.log ++ [.quit m.worker_pid], phase := .exited }
  else if m.plm_sighup = 1 then
    { m with
      plm_sighup := m.plm_sighup + 1
      log := m.log ++ [.notified m.worker_pid]
      phase := .suspended false }
  else { m with phase := .suspended false }

def pass (m : Master) (res : Option ℕ) : Option Master :=
  let quit := m.quit
  ((m.seen quit).replace quit res).map fun m₁ => m₁.signal quit

/-- Whether a signal that arrives now is handled: `sigsuspend` unblocks them all, a handler
blocks its own. -/
def handles (m : Master) (signo : Signo) : Bool :=
  signo ∉ m.frames.map Frame.signo &&
    match m.phase with
    | .boot | .forked _ | .assigned => decide (signo ∉ m.mask)
    | .suspended _ => true
    | .exited => false

end Master

inductive MasterAct
  | fork (res : Option ℕ)
  | assign
  | block
  | deliver (signo : Signo)
  | handler
  | pass (res : Option ℕ)
  | die (i : ℕ) (status : WaitStatus)
  | enter (i : ℕ)
deriving DecidableEq, Repr

/-- One step, `none` where it cannot be taken. `main` moves on while none of its handlers
runs, in `sigsuspend` once one has run. A worker ends by an exit or by a signal. -/
def masterStep (m : Master) : MasterAct → Option Master
  | .fork res =>
    if m.phase = .boot ∧ m.frames = [] then
      (m.fork res).map fun r =>
        match r.2 with
        | some pid => { r.1 with phase := .forked pid }
        | none => { r.1 with phase := .exited }
    else none
  | .assign =>
    match m.phase, m.frames with
    | .forked pid, [] => some { m with worker_pid := pid, phase := .assigned }
    | _, _ => none
  | .block =>
    if m.phase = .assigned ∧ m.frames = [] then
      some { m with mask := blockSignalMaster m.mask, phase := .suspended false }
    else none
  | .deliver signo =>
    if m.handles signo then
      some { m with
        frames := ⟨signo, .switch⟩ :: m.frames
        phase := match m.phase with | .suspended _ => .suspended true | p => p }
    else none
  | .handler =>
    match m.frames with
    | [] => none
    | f :: rest => m.handlerStep f rest
  | .pass res =>
    if m.phase = .suspended true ∧ m.frames = [] then m.pass res else none
  | .die i status =>
    match m.workers[i]?, status with
    | some w, .exited _ | some w, .signaled _ =>
      if w.life = .alive then some (m.setLife i w (.dead status)) else none
    | _, _ => none
  | .enter i =>
    match m.workers[i]? with
    | some w =>
      if w.life = .alive ∧ w.entered = false then
        some { m with workers :=
          m.workers.set i { w with mask := blockSignalWorker w.mask, entered := true } }
      else none
    | none => none

section Frame

variable {m m' : Master} {f : Frame} {rest : List Frame}

/-- A handler leaves the phase and the mask alone, and every worker that `waitpid` does not
take away. -/
theorem handlerStep_frame (h : m.handlerStep f rest = some m') :
    m'.phase = m.phase ∧ m'.mask = m.mask ∧ (m'.workers = m.workers ∨
      ∃ i w, m.workers[i]? = some w ∧ m'.workers = m.workers.set i { w with life := .reaped }) := by
  unfold Master.handlerStep at h
  cases hp : f.point with
  | switch =>
    rw [hp] at h
    obtain rfl := Option.some.inj h
    cases f.signo <;> exact ⟨rfl, rfl, .inl rfl⟩
  | wait =>
    simp only [hp] at h
    cases ha : m.awaited with
    | none =>
      rw [ha] at h
      obtain rfl := Option.some.inj h
      exact ⟨rfl, rfl, .inl rfl⟩
    | some i =>
      simp only [ha] at h
      cases hw : m.workers[i]? with
      | none => simp [hw] at h
      | some w =>
        simp only [hw] at h
        cases hl : w.life with
        | dead status =>
          simp only [hl] at h
          obtain rfl := Option.some.inj h
          exact ⟨rfl, rfl, .inr ⟨i, w, hw, rfl⟩⟩
        | alive => simp [hl] at h
        | reaped => simp [hl] at h
  | status st =>
    rw [hp] at h
    cases st with
    | exited code =>
      simp only at h
      split_ifs at h
      all_goals
        obtain rfl := Option.some.inj h
        exact ⟨rfl, rfl, .inl rfl⟩
    | _ =>
      obtain rfl := Option.some.inj h
      exact ⟨rfl, rfl, .inl rfl⟩
  | _ =>
    rw [hp] at h
    obtain rfl := Option.some.inj h
    exact ⟨rfl, rfl, .inl rfl⟩

theorem fork_eq {res : Option ℕ} {r : Master × Option ℕ} (h : m.fork res = some r) :
    r = (m, none) ∨
      ∃ pid, r = ({ m with
        workers := m.workers ++ [⟨pid, m.mask, false, .alive⟩]
        log := m.log ++ [.forked pid] }, some pid) := by
  cases res with
  | none => exact .inl (Option.some.inj h).symm
  | some pid =>
    simp only [Master.fork] at h
    split_ifs at h
    exact .inr ⟨pid, (Option.some.inj h).symm⟩

theorem seen_frame (m : Master) (quit : Bool) : (m.seen quit).phase = m.phase ∧
    (m.seen quit).mask = m.mask ∧ (m.seen quit).workers = m.workers := by
  unfold Master.seen
  split_ifs
  all_goals exact ⟨rfl, rfl, rfl⟩

theorem replace_frame {quit : Bool} {res : Option ℕ}
    (h : (m.seen quit).replace quit res = some m') :
    m'.phase = m.phase ∧ m'.mask = m.mask ∧ (m'.workers = m.workers ∨
      ∃ pid, m'.workers = m.workers ++ [⟨pid, m.mask, false, .alive⟩]) := by
  obtain ⟨hphase, hmask, hworkers⟩ := seen_frame m quit
  unfold Master.replace at h
  split_ifs at h
  · obtain ⟨r, hr, h⟩ := Option.map_eq_some_iff.1 h
    rcases fork_eq hr with rfl | ⟨pid, rfl⟩
    · subst h
      exact ⟨hphase, hmask, .inl hworkers⟩
    · subst h
      exact ⟨hphase, hmask, .inr ⟨pid, by simp only [hmask, hworkers]⟩⟩
  · obtain rfl := Option.some.inj h
    exact ⟨hphase, hmask, .inl hworkers⟩

theorem signal_frame (m : Master) (quit : Bool) : (m.signal quit).mask = m.mask ∧
    (m.signal quit).workers = m.workers ∧
    ((m.signal quit).phase = .suspended false ∨ (m.signal quit).phase = .exited) := by
  unfold Master.signal
  split_ifs
  · exact ⟨rfl, rfl, .inr rfl⟩
  · exact ⟨rfl, rfl, .inl rfl⟩
  · exact ⟨rfl, rfl, .inl rfl⟩

theorem masterStep_die {i : ℕ} {status : WaitStatus} (h : masterStep m (.die i status) = some m') :
    ∃ w, m.workers[i]? = some w ∧ w.life = .alive ∧ m' = m.setLife i w (.dead status) := by
  simp only [masterStep] at h
  split at h
  next hw =>
    split_ifs at h with hl
    exact ⟨_, hw, hl, (Option.some.inj h).symm⟩
  next hw =>
    split_ifs at h with hl
    exact ⟨_, hw, hl, (Option.some.inj h).symm⟩
  next => simp at h

/-- A worker that enters its loop blocks its signals first. -/
theorem masterStep_enter {i : ℕ} (h : masterStep m (.enter i) = some m') :
    ∃ w, m.workers[i]? = some w ∧ w.life = .alive ∧ w.entered = false ∧ m' = { m with
      workers :=
        m.workers.set i { w with mask := blockSignalWorker w.mask, entered := true } } := by
  simp only [masterStep] at h
  cases hw : m.workers[i]? with
  | none => simp [hw] at h
  | some w =>
    simp only [hw] at h
    split_ifs at h with hl
    exact ⟨w, rfl, hl.1, hl.2, (Option.some.inj h).symm⟩

/-- What each step asks for and what it leaves behind. -/
theorem masterStep_cases {a : MasterAct} (h : masterStep m a = some m') :
    match a with
    | .fork _ =>
      m.phase = .boot ∧ m.frames = [] ∧ (m' = { m with phase := .exited } ∨ ∃ pid, m' = { m with
        workers := m.workers ++ [⟨pid, m.mask, false, .alive⟩]
        log := m.log ++ [.forked pid]
        phase := .forked pid })
    | .assign =>
      ∃ pid, m.phase = .forked pid ∧ m' = { m with worker_pid := pid, phase := .assigned }
    | .block => m.phase = .assigned ∧
        m' = { m with mask := blockSignalMaster m.mask, phase := .suspended false }
    | .deliver signo => m.handles signo = true ∧ m' = { m with
        frames := ⟨signo, .switch⟩ :: m.frames
        phase := match m.phase with | .suspended _ => .suspended true | p => p }
    | .handler => ∃ f rest, m.frames = f :: rest ∧ m.handlerStep f rest = some m'
    | .pass res => m.phase = .suspended true ∧ m.frames = [] ∧
        ∃ m₁, (m.seen m.quit).replace m.quit res = some m₁ ∧ m' = m₁.signal m.quit
    | .die i status =>
      ∃ w, m.workers[i]? = some w ∧ w.life = .alive ∧ m' = m.setLife i w (.dead status)
    | .enter i => ∃ w, m.workers[i]? = some w ∧ w.life = .alive ∧ w.entered = false ∧ m' = { m with
        workers :=
          m.workers.set i { w with mask := blockSignalWorker w.mask, entered := true } } := by
  cases a with
  | fork res =>
    simp only [masterStep] at h
    split_ifs at h with hb
    obtain ⟨r, hr, h⟩ := Option.map_eq_some_iff.1 h
    refine ⟨hb.1, hb.2, ?_⟩
    rcases fork_eq hr with rfl | ⟨pid, rfl⟩
    · exact .inl h.symm
    · exact .inr ⟨pid, h.symm⟩
  | assign =>
    simp only [masterStep] at h
    split at h
    next pid hp hf => exact ⟨pid, hp, (Option.some.inj h).symm⟩
    next => simp at h
  | block =>
    simp only [masterStep] at h
    split_ifs at h with hb
    exact ⟨hb.1, (Option.some.inj h).symm⟩
  | deliver signo =>
    simp only [masterStep] at h
    split_ifs at h with hd
    exact ⟨hd, (Option.some.inj h).symm⟩
  | handler =>
    simp only [masterStep] at h
    cases hf : m.frames with
    | nil => simp [hf] at h
    | cons f rest => exact ⟨f, rest, rfl, by simpa [hf] using h⟩
  | pass res =>
    simp only [masterStep] at h
    split_ifs at h with hb
    obtain ⟨m₁, hr, h⟩ := Option.map_eq_some_iff.1 h
    exact ⟨hb.1, hb.2, m₁, hr, h.symm⟩
  | die i status => exact masterStep_die h
  | enter i => exact masterStep_enter h

end Frame

/-- `main` behind `plm_step_signal`, with the mask the process was started with. -/
def masterBoot (mask : Finset Signo) : Master where
  phase := .boot
  mask := mask
  plm_chlddone := 0
  plm_sigint := 0
  plm_sigchld := 0
  plm_sigterm := 0
  plm_sigquit := 0
  plm_sighup := 0
  worker_pid := 0
  frames := []
  workers := []
  log := []

end Plume
