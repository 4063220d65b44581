import Plume.CLib.Run

/-! The threads of a worker process: `plm_threads.c`, the part of `plm_dispatcher.c` around
the dispatcher loop, and the notification that a signal handler sends, as steps of threads
that interleave in any order. Thread 0 is the main thread, thread `i` the one made in round
`i` of `plm_threads_create`. -/

namespace Plume
open CLib

inductive TmStatus
  | init | run | shutdown
deriving DecidableEq, Repr

inductive DispStatus
  | running | shutdown
deriving DecidableEq, Repr

/-- What a thread does next. The main thread starts at `boot`, its calls of
`plm_threads_create` and `plm_threads_run` lead to `disp`; a thread made by it starts at `wait`. -/
inductive Point
  | absent
  | boot | create (i : ℕ) | store | poll
  | wait | inc | check | dec
  | openLog | thrdInit | cas | loop
  | exit | endThreads | done
deriving DecidableEq, Repr

def Point.inProc : Point → Bool
  | .openLog | .thrdInit | .cas | .loop => true
  | _ => false

/-- `mc_cpu_affinity_id`, whose length is an `int8_t`. -/
structure CpuAffinity where
  mc_cpu_affinity_id : List UInt64
  pos : 0 < mc_cpu_affinity_id.length
  num : mc_cpu_affinity_id.length < 128

/-- A call of `pthread_setaffinity_np`; no target is a thread that was not created. -/
structure AffinityCall where
  caller : ℕ
  slot : ℕ
  target : Option ℕ
  cpus : List ℕ
deriving DecidableEq, Repr

structure Threads where
  tm_thrdn : ℕ
  tm_active_thrdn : ℕ
  tm_status : TmStatus
  e_signaled : Bool
  tm_thread_id : ℕ → Option ℕ
  disp_status : DispStatus
  mc_cpu_affinity : Option CpuAffinity
  curr_slot : ℕ → ℕ
  point : ℕ → Point
  /-- handlers between `plm_threads_notify_exit` and `plm_disp_notify_exit` -/
  quitting : ℕ
  /-- a handler has come to its end; like the calls below, only statements look at it -/
  notified : Bool
  calls : List AffinityCall

section Cpu

def cpuSetLoop : ℕ → ℕ → ℕ → List ℕ
  | 0, _, _ => []
  | fuel + 1, i, mask =>
    if mask = 0 then []
    else if mask % 2 = 1 then i :: cpuSetLoop fuel (i + 1) (mask / 2)
    else cpuSetLoop fuel (i + 1) (mask / 2)

def cpuSet (mask : UInt64) : List ℕ := cpuSetLoop 64 0 mask.toNat

def CpuAffinity.param (c : CpuAffinity) (slot : ℕ) : UInt64 :=
  c.mc_cpu_affinity_id.get ⟨slot % c.mc_cpu_affinity_id.length, Nat.mod_lt slot c.pos⟩

/-- `plm_plugin_get_cpu_affinity_id`, which returns an `int`. -/
def CpuAffinity.id (c : CpuAffinity) (slot : ℕ) : Int32 := (c.param slot).toUInt32.toInt32

/-- The argument of `plm_threads_set_cpu_affinity`: an `int` converted to `uint64_t`. -/
def CpuAffinity.arg (c : CpuAffinity) (slot : ℕ) : UInt64 := (c.id slot).toInt64.toUInt64

end Cpu

/-- `plm_atomic_test_and_set` on `disp_status` -/
def casDisp (f v status : DispStatus) : DispStatus := if status = f then v else status

namespace Threads

def goto (s : Threads) (t : ℕ) (p : Point) : Threads :=
  { s with point := fun x => if x = t then p else s.point x }

/-- `plm_disp_proc` returns: to `plm_thread_proc` or, in the main thread, to
`plm_worker_proc_loop`. -/
def leave (s : Threads) (t : ℕ) : Threads := s.goto t (if t = 0 then .exit else .check)

def createThread (s : Threads) (i : ℕ) (ok : Bool) : Threads :=
  let s := { s with tm_thread_id := fun x => if x =
    i then (if ok then some i else none) else s.tm_thread_id x }
  if ok then s.goto i .wait else s

/-- `plm_threads_set_cpu_affinity` as `plm_plugin_work_thrd_init` calls it. -/
def setCpuAffinity (s : Threads) (t : ℕ) : Threads :=
  match s.mc_cpu_affinity with
  | none => s
  | some c =>
    let slot := s.curr_slot t
    let thrd := if slot = 0 then some t else s.tm_thread_id slot
    { s with calls := s.calls ++ [⟨t, slot, thrd, cpuSet (c.arg slot)⟩] }

end Threads

/-- What can fail in `plm_disp_start` before a thread is made: `plm_lock_init`, `plm_event_init`,
the `calloc` of `tm_thread_id`. -/
inductive StartError
  | lock | event | threadId
deriving DecidableEq, Repr

inductive ThreadAct
  | boot
  | bootFails (e : StartError)
  | create (ok : Bool)
  | store
  | poll
  | wait (i : ℕ)
  | inc (i : ℕ)
  | check (i : ℕ)
  | dec (i : ℕ)
  | openLog (t : ℕ) (ok : Bool)
  | thrdInit (t : ℕ) (ok : Bool)
  | cas (t : ℕ)
  | loop (t : ℕ)
  | exit
  | endThreads
  | notifyThreads
  | notifyDisp
deriving DecidableEq, Repr

/-- One step of a thread, `none` where it is not there. -/
def threadStep (s : Threads) : ThreadAct → Option Threads
  -- `plm_disp_start` and `plm_threads_create`
  | .boot =>
    if s.point 0 = .boot then
      some ({ s with
        tm_active_thrdn := 0
        tm_status := .init
        e_signaled := false
        tm_thread_id := fun _ => none }.goto 0 (.create 1))
    else none
  -- an error that `plm_plugin_init` does not look at; `thrd_mgr` is zero until it is set up
  | .bootFails e =>
    if s.point 0 = .boot ∧ (e = .lock → 1 < s.tm_thrdn) then
      some ((match e with
        | .threadId =>
          { s with tm_active_thrdn := 0, tm_status := .init, e_signaled := false, tm_thread_id :=
            fun _ => none }
        | _ => { s with tm_thrdn := 0 }).goto 0 .openLog)
    else none
  | .create ok =>
    match s.point 0 with
    | .create i =>
      if i < s.tm_thrdn then some ((s.createThread i ok).goto 0 (.create (i + 1)))
      else some (s.goto 0 (if i = s.tm_thrdn then .store else .openLog))
    | _ => none
  -- `plm_threads_run`
  | .store =>
    if s.point 0 = .store then some ({ s with tm_status := .run }.goto 0 .poll) else none
  | .poll =>
    if s.point 0 = .poll then
      if s.tm_active_thrdn ≥ s.tm_thrdn - 1 then some (s.goto 0 .openLog)
      else some { s with e_signaled := true }
    else none
  -- `plm_thread_proc`
  | .wait i => if s.point i = .wait ∧ s.e_signaled = true then some (s.goto i .inc) else none
  | .inc i =>
    if s.point i = .inc then
      some ({ s with
        tm_active_thrdn := s.tm_active_thrdn + 1
        curr_slot :=
          fun x => if x = i then s.tm_active_thrdn + 1 else s.curr_slot x }.goto i .check)
    else none
  | .check i =>
    if s.point i = .check then some (s.goto i (if s.tm_status = .shutdown then .dec else .openLog))
    else none
  | .dec i =>
    if s.point i = .dec then some ({ s with tm_active_thrdn := s.tm_active_thrdn - 1 }.goto i .done)
    else none
  -- `plm_disp_proc`
  | .openLog t ok =>
    if s.point t = .openLog then some (if ok then s.goto t .thrdInit else s.leave t) else none
  | .thrdInit t ok =>
    if s.point t = .thrdInit then
      some (if ok then (s.setCpuAffinity t).goto t .cas else (s.setCpuAffinity t).leave t)
    else none
  | .cas t =>
    if s.point t = .cas then
      some ({ s with disp_status := casDisp .shutdown .running s.disp_status }.goto t .loop)
    else none
  | .loop t =>
    if s.point t = .loop then some (if s.disp_status ≠ .running then s.leave t else s) else none
  -- `plm_disp_shutdown` and `plm_threads_end`
  | .exit => if s.point 0 = .exit then some ({ s with disp_status := .shutdown }.goto 0 .endThreads)
    else none
  | .endThreads =>
    if s.point 0 = .endThreads then some ({ s with tm_status := .shutdown }.goto 0 .done) else none
  -- `plm_sig_handler`
  | .notifyThreads => some { s with tm_status := .shutdown, quitting := s.quitting + 1 }
  | .notifyDisp =>
    if s.quitting = 0 then none
    else some { s with
      disp_status := casDisp .running .shutdown s.disp_status
      quitting := s.quitting - 1
      notified := true }

section Step

variable {s s' : Threads}

/-- Setting an affinity changes nothing but the calls made. -/
theorem setCpuAffinity_eq (s : Threads) (t : ℕ) :
    ∃ calls, s.setCpuAffinity t = { s with calls := calls } := by
  unfold Threads.setCpuAffinity
  split
  · exact ⟨s.calls, rfl⟩
  · exact ⟨_, rfl⟩

/-- What each step asks for and what it leaves behind. -/
theorem threadStep_cases {a : ThreadAct} (h : threadStep s a = some s') :
    match a with
    | .boot => s.point 0 = .boot ∧ s' = { s with
        tm_active_thrdn := 0, tm_status :=
          .init, e_signaled := false, tm_thread_id := fun _ => none }.goto 0 (.create 1)
    | .bootFails e => s.point 0 = .boot ∧ (e = .lock → 1 < s.tm_thrdn) ∧
        (e = .threadId ∧ s' = { s with
          tm_active_thrdn := 0, tm_status :=
            .init, e_signaled := false, tm_thread_id := fun _ => none }.goto 0 .openLog ∨
          e ≠ .threadId ∧ s' = { s with tm_thrdn := 0 }.goto 0 .openLog)
    | .create ok => ∃ i, s.point 0 = .create i ∧
        (i < s.tm_thrdn ∧ s' = (s.createThread i ok).goto 0 (.create (i + 1)) ∨
          s' = s.goto 0 .store ∨ s' = s.goto 0 .openLog)
    | .store => s.point 0 = .store ∧ s' = { s with tm_status := .run }.goto 0 .poll
    | .poll => s.point 0 = .poll ∧ (s' = s.goto 0 .openLog ∨ s' = { s with e_signaled := true })
    | .wait i => s.point i = .wait ∧ s.e_signaled = true ∧ s' = s.goto i .inc
    | .inc i => s.point i = .inc ∧ s' = { s with
        tm_active_thrdn := s.tm_active_thrdn + 1
        curr_slot := fun x => if x = i then s.tm_active_thrdn + 1 else s.curr_slot x }.goto i .check
    | .check i => s.point i = .check ∧
        (s.tm_status = .shutdown ∧ s' = s.goto i .dec ∨
          s.tm_status ≠ .shutdown ∧ s' = s.goto i .openLog)
    | .dec i =>
      s.point i = .dec ∧ s' = { s with tm_active_thrdn := s.tm_active_thrdn - 1 }.goto i .done
    | .openLog t _ => s.point t = .openLog ∧ (s' = s.goto t .thrdInit ∨ s' = s.leave t)
    | .thrdInit t _ => s.point t = .thrdInit ∧
        (s' = (s.setCpuAffinity t).goto t .cas ∨ s' = (s.setCpuAffinity t).leave t)
    | .cas t => s.point t = .cas ∧
        s' = { s with disp_status := casDisp .shutdown .running s.disp_status }.goto t .loop
    | .loop t => s.point t = .loop ∧ (s' = s.leave t ∨ s' = s)
    | .exit => s.point 0 = .exit ∧ s' = { s with disp_status := .shutdown }.goto 0 .endThreads
    | .endThreads => s.point 0 = .endThreads ∧ s' = { s with tm_status := .shutdown }.goto 0 .done
    | .notifyThreads => s' = { s with tm_status := .shutdown, quitting := s.quitting + 1 }
    | .notifyDisp => s.quitting ≠ 0 ∧ s' = { s with
        disp_status := casDisp .running .shutdown s.disp_status
        quitting := s.quitting - 1
        notified := true } := by
  cases a with
  | bootFails e =>
    simp only [threadStep] at h
    split_ifs at h with hp
    refine ⟨hp.1, hp.2, ?_⟩
    cases e with
    | threadId => exact .inl ⟨rfl, (Option.some.inj h).symm⟩
    | lock | event => exact .inr ⟨nofun, (Option.some.inj h).symm⟩
  | create ok =>
    simp only [threadStep] at h
    split at h
    next i hp =>
      refine ⟨i, hp, ?_⟩
      split_ifs at h with hlt heq
      · exact .inl ⟨hlt, (Option.some.inj h).symm⟩
      · exact .inr (.inl (Option.some.inj h).symm)
      · exact .inr (.inr (Option.some.inj h).symm)
    next => simp at h
  | wait i =>
    simp only [threadStep] at h
    split_ifs at h with hp
    exact ⟨hp.1, hp.2, (Option.some.inj h).symm⟩
  | check i =>
    simp only [threadStep] at h
    split_ifs at h with hp hst
    · exact ⟨hp, .inl ⟨hst, (Option.some.inj h).symm⟩⟩
    · exact ⟨hp, .inr ⟨hst, (Option.some.inj h).symm⟩⟩
  | poll | openLog | thrdInit | loop =>
    simp only [threadStep] at h
    split_ifs at h with hp
    · exact ⟨hp, .inl (Option.some.inj h).symm⟩
    · exact ⟨hp, .inr (Option.some.inj h).symm⟩
  | notifyThreads => exact (Option.some.inj h).symm
  | _ =>
    simp only [threadStep] at h
    split_ifs at h with hp
    exact ⟨hp, (Option.some.inj h).symm⟩

end Step

/-- The worker process behind `plm_conf_load`, its variables as the program loader left them. -/
def threadsBoot (thrdn : ℕ) (cpu : Option CpuAffinity) : Threads where
  tm_thrdn := thrdn
  tm_active_thrdn := 0
  tm_status := .init
  e_signaled := false
  tm_thread_id _ := none
  disp_status := .running
  mc_cpu_affinity := cpu
  curr_slot _ := 0
  point t := if t = 0 then .boot else .absent
  quitting := 0
  notified := false
  calls := []

end Plume
