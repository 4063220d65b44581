import Plume.Dispatcher
import Plume.Slots

/-! The rounds of the dispatcher loop, in any order of the threads' steps: an epoll instance belongs
to one thread at a time, the global one to the thread that has `disp_lock`; no thread takes the
lock along out of the loop, and it is destroyed when there is no other thread left. -/

namespace Plume
open CLib

section Safe

/-- The threads below this one have been joined. -/
def Ending.joinedTo (thrdn : ℕ) : Ending → ℕ
  | .join i => i
  | .joined | .unlocked | .ctx => thrdn
  | _ => 0

def Ending.inShutdown : Ending → Bool
  | .join _ | .joined | .unlocked | .ctx => true
  | _ => false

def Polls (s : Disp) (t : ℕ) (p : Poller) : Prop := (s.round t).poller = some p

structure DispSafe (s : Disp) : Prop where
  exclusive : ∀ t u p, Polls s t p → Polls s u p → t = u
  holder : ∀ t, Polls s t .processGlobal ↔ s.disp_lock = .held t
  inside : ∀ t p, Polls s t p → s.threads.point t = .loop
  used : s.misused = false
  alone : s.ending = .joined ∨ s.ending = .unlocked ∨ s.ending = .ctx →
    s.threads.point 0 = .done ∧ ∀ t, t ≠ 0 → (s.threads.point t).gone
  ended : s.ending ≠ .crashed

structure DispInv (s : Disp) : Prop where
  seats : Seats s.threads
  created : Created s.threads
  outside : ∀ t, s.threads.point t ≠ .loop → s.round t = .status
  slot : ∀ t k, Polls s t (.threadLocal k) → s.threads.curr_slot t = k
  guards : s.disp_lock.Guards (Polls s · .processGlobal)
  used : s.misused = false
  main : s.ending ≠ .working → (s.threads.point 0).behind
  shut : s.ending.inShutdown = true → s.threads.point 0 = .done
  joined : ∀ t, t ≠ 0 → t < s.ending.joinedTo s.threads.tm_thrdn → (s.threads.point t).gone
  destroyed : s.disp_lock = .destroyed → s.ending = .unlocked ∨ s.ending = .ctx
  num : s.threads.tm_thrdn ≤ s.disp_thrdn
  ids : s.noIds = true → s.threads.tm_thrdn ≤ 1
  joins : ∀ i, s.ending = .join i → 1 ≤ i
  ended : s.ending ≠ .crashed

variable {s s' : Disp} {t : ℕ}

theorem DispInv.round_loop (h : DispInv s) (ht : s.round t ≠ .status) : s.threads.point t = .loop :=
  by_contra fun hp => ht (h.outside t hp)

theorem Polls.ne_status {p : Poller} (h : Polls s t p) : s.round t ≠ .status := by
  intro hr
  rw [Polls, hr] at h
  cases h

theorem DispInv.alone (h : DispInv s)
    (he : s.ending = .joined ∨ s.ending = .unlocked ∨ s.ending = .ctx) :
    s.threads.point 0 = .done ∧ ∀ t, t ≠ 0 → (s.threads.point t).gone := by
  have hto : s.ending.inShutdown = true ∧
    s.ending.joinedTo s.threads.tm_thrdn = s.threads.tm_thrdn := by
    obtain he | he | he := he <;> rw [he] <;> exact ⟨rfl, rfl⟩
  refine ⟨h.shut hto.1, fun t ht => ?_⟩
  by_cases hlt : t < s.threads.tm_thrdn
  · exact h.joined t ht (hto.2.symm ▸ hlt)
  · exact .inl (by_contra fun hne => hlt (h.seats.exist t ht hne))

theorem DispInv.exclusive (h : DispInv s) {u : ℕ} {p : Poller} (ht : Polls s t p)
    (hu : Polls s u p) : t = u := by
  cases p with
  | processGlobal => exact h.guards.exclusive ht hu
  | threadLocal k =>
    refine h.seats.exclusive.distinct t u ?_ ?_ ((h.slot t k ht).trans (h.slot u k hu).symm)
    · rw [InProc, h.round_loop ht.ne_status]
      rfl
    · rw [InProc, h.round_loop hu.ne_status]
      rfl

theorem DispInv.safe (h : DispInv s) : DispSafe s where
  exclusive _ _ _ := h.exclusive
  holder := h.guards
  inside _ _ ht := h.round_loop ht.ne_status
  used := h.used
  alone := h.alone
  ended := h.ended

theorem DispInv.all_status (h : DispInv s)
    (he : s.ending = .joined ∨ s.ending = .unlocked ∨ s.ending = .ctx) (t : ℕ) :
    s.round t = .status := by
  obtain ⟨h0, hother⟩ := h.alone he
  refine h.outside t fun hp => ?_
  rcases eq_or_ne t 0 with rfl | ht
  · rw [h0] at hp
    cases hp
  · obtain hg | hg := hother t ht <;> rw [hp] at hg <;> cases hg

theorem DispInv.not_destroyed (h : DispInv s) (ht : s.round t ≠ .status) :
    s.disp_lock ≠ .destroyed :=
  fun hl => ht (h.all_status (.inr (h.destroyed hl)) t)

theorem dispInv_boot (thrdn : ℕ) (cpu : Option CpuAffinity) : DispInv (dispBoot thrdn cpu) where
  seats := seats_boot thrdn cpu
  created := created_boot thrdn cpu
  outside _ _ := rfl
  slot _ _ h := by cases h
  guards := Lock.Guards.of_free fun t ht => by cases ht
  used := rfl
  main h := absurd rfl h
  shut h := by cases h
  joined t _ ht := absurd ht (Nat.not_lt_zero t)
  destroyed h := by cases h
  num := le_rfl
  ids h := by cases h
  joins i h := by cases h
  ended := nofun

theorem polls_goto {r : Round} {p : Poller} : Polls (s.goto t r) t p ↔ r.poller = some p := by
  rw [Polls, Disp.goto_self]

theorem polls_other {u : ℕ} {r : Round} {p : Poller} (h : u ≠ t) :
    Polls (s.goto t r) u p ↔ Polls s u p := by
  rw [Polls, Disp.goto_other s r h, Polls]

/-- A thread goes on in its round, and the lock may change hands. -/
theorem DispInv.turn {r : Round} {l : Lock ℕ} (h : DispInv s) (hloop : s.threads.point t = .loop)
    (hslot : ∀ k, r.poller = some (.threadLocal k) → s.threads.curr_slot t = k)
    (hl : l = .destroyed → s.disp_lock = .destroyed)
    (hguards : l.Guards (Polls (s.goto t r) · .processGlobal)) :
    DispInv ({ s with disp_lock := l }.goto t r) := by
  refine ⟨h.seats, h.created, fun u hu => ?_, fun u k hu => ?_, hguards, h.used, h.main, h.shut,
    h.joined, fun hd => h.destroyed (hl hd), h.num, h.ids, h.joins, h.ended⟩
  · have hut : u ≠ t := by
      rintro rfl
      exact hu hloop
    exact (if_neg hut).trans (h.outside u hu)
  · rcases eq_or_ne u t with rfl | hut
    · exact hslot k (polls_goto.1 hu)
    · exact h.slot u k ((polls_other hut).1 hu)

/-- It stays with its epoll instance, or leaves one that needs no lock. -/
theorem DispInv.goto {r : Round} (h : DispInv s) (hloop : s.threads.point t = .loop)
    (hslot : ∀ k, r.poller = some (.threadLocal k) → s.threads.curr_slot t = k)
    (hr : r.poller = some .processGlobal ↔ Polls s t .processGlobal) : DispInv (s.goto t r) := by
  refine h.turn hloop hslot id (h.guards.same fun u => ?_)
  rcases eq_or_ne u t with rfl | hut
  · exact polls_goto.trans hr
  · exact polls_other hut

theorem DispInv.acquire (h : DispInv s) (ht : s.round t = .trylock) (hl : s.disp_lock = .free) :
    DispInv ({ s with disp_lock := .held t }.goto t (.polling .processGlobal)) := by
  have hguards := h.guards
  rw [hl] at hguards
  exact h.turn (h.round_loop (by rw [ht]; exact nofun)) nofun nofun
    (hguards.acquire (polls_goto.2 rfl) fun u hut => polls_other hut)

theorem DispInv.release (h : DispInv s) (ht : s.round t = .handling .processGlobal 0) :
    DispInv ((unlock s).goto t .timers) := by
  have hne : s.round t ≠ .status := by rw [ht]; exact nofun
  rw [unlock, if_neg (h.not_destroyed hne)]
  refine h.turn (h.round_loop hne) nofun nofun
    (h.guards.release (t := t) ?_ (fun hin => ?_) fun u hut => polls_other hut)
  · rw [Polls, ht]
    rfl
  · cases polls_goto.1 hin

variable {a : ThreadAct} {threads : Threads}

theorem DispInv.thread (h : DispInv s) (hs : threadStep s.threads a = some threads)
    (hround : ∀ t, a = .loop t → s.round t = .status) : DispInv { s with threads := threads } := by
  have hdone : s.ending.inShutdown = true → ∀ t, (s.threads.point t).gone →
    threads.point t = s.threads.point t :=
    fun he t => h.created.gone_kept hs fun i hi => by rw [h.shut he] at hi; cases hi
  have hnum : threads.tm_thrdn ≤ s.threads.tm_thrdn := threadStep_thrdn_le hs
  refine ⟨h.seats.step h.created hs, h.created.step hs, fun t ht => ?_, fun t k ht => ?_, h.guards,
    h.used, fun he => ?_,
    fun he => ?_, fun t ht hlt => ?_, h.destroyed, hnum.trans h.num,
    fun hids => hnum.trans (h.ids hids), h.joins, h.ended⟩
  · by_cases hp : s.threads.point t = .loop
    · obtain heq | hm := h.created.moves hs t
      · exact absurd (heq.trans hp) ht
      · exact hround t (hm.of_loop hp)
    · exact h.outside t hp
  · have hloop := h.round_loop (Polls.ne_status ht)
    refine ((threadStep_slot hs t).resolve_right fun hp => ?_).trans (h.slot t k ht)
    rw [hloop] at hp
    cases hp
  · obtain heq | hm := h.created.moves hs 0
    · change (threads.point 0).behind
      rw [heq]
      exact h.main he
    · exact hm.of_behind (h.main he)
  · exact (hdone he 0 (.inr (h.shut he))).trans (h.shut he)
  · change t < s.ending.joinedTo threads.tm_thrdn at hlt
    have he : s.ending.inShutdown = true := by
      cases hend : s.ending with
      | join | joined | unlocked | ctx => rfl
      | _ =>
        rw [hend] at hlt
        exact absurd hlt (Nat.not_lt_zero t)
    have hstarted : s.threads.point 0 ≠ .boot := by
      rw [h.shut he]
      exact nofun
    rw [threadStep_thrdn_started hs hstarted] at hlt
    change (threads.point t).gone
    rw [hdone he t (h.joined t ht hlt)]
    exact h.joined t ht hlt

/-- `plm_disp_start` returns early, with `disp_lock` as it was. -/
theorem DispInv.failed {e : StartError} (h : DispInv s)
    (hs : threadStep s.threads (.bootFails e) = some threads)
    (hfew : e ≠ .lock → s.disp_thrdn ≤ 1) : DispInv (s.failed e threads) := by
  have h' : DispInv { s with threads := threads } := h.thread hs nofun
  have hkept : s.failed e threads = { s with threads := threads, noIds := e = .threadId } := by
    rw [Disp.failed, if_neg fun hc => absurd (hfew hc.1) (by omega)]
  rw [hkept]
  refine ⟨h'.seats, h'.created, h'.outside, h'.slot, h'.guards, h'.used, h'.main, h'.shut,
    h'.joined, h'.destroyed, h'.num, fun hids => ?_, h'.joins, h'.ended⟩
  have he : e = .threadId := by simpa using hids
  exact h'.num.trans (hfew (by rw [he]; exact nofun))

/-- The main thread comes on where that leaves what was joined as it was. -/
theorem DispInv.ends (h : DispInv s) {e : Ending} (hmain : (s.threads.point 0).behind)
    (hshut : e.inShutdown = true → s.threads.point 0 = .done)
    (hjoined : ∀ t, t ≠ 0 → t < e.joinedTo s.threads.tm_thrdn → (s.threads.point t).gone)
    (hlock : s.disp_lock = .destroyed → e = .unlocked ∨ e = .ctx) (hended : e ≠ .crashed)
    (hjoins : ∀ i, e = .join i → 1 ≤ i) : DispInv { s with ending := e } :=
  ⟨h.seats, h.created, h.outside, h.slot, h.guards, h.used, fun _ => hmain, hshut, hjoined, hlock,
    h.num, h.ids, hjoins, hended⟩

theorem DispInv.finishes (h : DispInv s) (hs : Finishes s s') : DispInv s' := by
  have hkept : ∀ e : Ending, s.ending ≠ .unlocked → s.ending ≠ .ctx → s.disp_lock = .destroyed →
    e = .unlocked ∨ e = .ctx :=
    fun e hu hc hl => absurd (h.destroyed hl) (not_or.2 ⟨hu, hc⟩)
  have hbehind : ∀ e, s.ending = e → e ≠ .working → (s.threads.point 0).behind :=
    fun e he hne => h.main (he ▸ hne)
  cases hs with
  | hooks he hp =>
    exact h.ends (.inl hp) nofun (fun t _ ht => absurd ht (Nat.not_lt_zero t))
      (hkept _ (by simp [he]) (by simp [he])) nofun nofun
  | eventIo he | comm he | buffer he =>
    exact h.ends (hbehind _ he nofun) nofun (fun t _ ht => absurd ht (Nat.not_lt_zero t))
      (hkept _ (by simp [he]) (by simp [he])) nofun nofun
  | shutdown he hp =>
    refine h.ends (.inr (.inr hp)) (fun _ => hp) (fun t ht h1 => absurd (Nat.lt_one_iff.1 h1) ht)
      (hkept _ (by simp [he]) (by simp [he])) nofun fun i hi => ?_
    cases hi
    exact le_rfl
  | @crash i he hi hids =>
    -- there is no other thread, and the loop of `plm_threads_end` is not entered
    have hlt := h.ids hids
    have hpos := h.joins i he
    omega
  | @join i he hi hthrd =>
    have hdone := h.shut (by rw [he]; rfl)
    refine h.ends (.inr (.inr hdone)) (fun _ => hdone) (fun t ht hlt => ?_)
      (hkept _ (by simp [he]) (by simp [he])) nofun
      fun j hj => ?_
    · rcases Nat.lt_succ_iff_lt_or_eq.1 hlt with hlt | rfl
      · exact h.joined t ht (by rw [he]; exact hlt)
      · cases hid : s.threads.tm_thread_id t with
        | none => exact .inl (h.created.absent t ht hid)
        | some thrd =>
          have hthrd := hthrd thrd hid
          rw [h.created.self t thrd hid] at hthrd
          exact .inr hthrd
    · cases hj
      exact Nat.le_add_left 1 i
  | joined he hi =>
    have hdone := h.shut (by rw [he]; rfl)
    refine h.ends (.inr (.inr hdone)) (fun _ => hdone) (fun t ht hlt => ?_)
      (hkept _ (by simp [he]) (by simp [he])) nofun nofun
    exact h.joined t ht (by rw [he]; exact lt_of_lt_of_le hlt hi)
  | unlocked he =>
    have hall := h.alone (.inl he)
    have hfree : ∀ t, s.disp_lock ≠ .held t := fun t hl =>
      Polls.ne_status ((h.guards t).2 hl) (h.all_status (.inl he) t)
    refine ⟨h.seats, h.created, h.outside, h.slot, ?_, h.used, fun _ => .inr (.inr hall.1),
      fun _ => hall.1, fun t ht _ => hall.2 t ht, fun _ => .inl rfl, h.num, h.ids, nofun, nofun⟩
    change Lock.Guards (if s.disp_thrdn > 1 then .destroyed else s.disp_lock)
      (Polls s · .processGlobal)
    split_ifs
    · exact h.guards.destroy hfree
    · exact h.guards
  | ctx he =>
    have hall := h.alone (.inr (.inl he))
    exact h.ends (.inr (.inr hall.1)) (fun _ => hall.1) (fun t ht _ => hall.2 t ht)
      (fun _ => .inr rfl) nofun nofun

theorem DispInv.called (h : DispInv s) : DispInv (s.called t) :=
  ⟨h.seats, h.created, h.outside, h.slot, h.guards, h.used, h.main, h.shut, h.joined, h.destroyed,
    h.num, h.ids, h.joins, h.ended⟩

theorem DispInv.step {a : DispAct} (h : DispInv s)
    (hfew : ∀ e, a = .thread (.bootFails e) → e ≠ .lock → s.disp_thrdn ≤ 1)
    (hs : dispStep s a = some s') : DispInv s' := by
  have hloop : ∀ {t : ℕ} {r : Round}, s.round t = r → r ≠ .status → s.threads.point t = .loop :=
    fun hr hne => h.round_loop (hr ▸ hne)
  have hglobal : ∀ {t : ℕ} {r r' : Round}, s.round t = r →
      (r'.poller = some .processGlobal ↔ r.poller = some .processGlobal) →
      (r'.poller = some .processGlobal ↔ Polls s t .processGlobal) := by
    rintro t _ r' rfl hr
    exact hr
  cases a with
  | thread a =>
    obtain ⟨threads, ht, -, ⟨rfl, -, hround⟩ | ⟨t, rfl, hr, hp, rfl⟩ | ⟨e, rfl, rfl⟩⟩ :=
      dispStep_cases hs
    · exact h.thread ht hround
    · refine (h.thread ht fun u hu => by cases hu; exact hr).goto hp nofun ?_
      exact hglobal hr Iff.rfl
    · exact h.failed ht (hfew e rfl)
  | trylock t =>
    obtain ⟨hr, ⟨hl, rfl⟩ | ⟨-, rfl⟩ | ⟨hl, rfl⟩⟩ := dispStep_cases hs
    · exact h.acquire hr hl
    · exact h.goto (hloop hr nofun) nofun (hglobal hr Iff.rfl)
    · exact absurd hl (h.not_destroyed (by rw [hr]; exact nofun))
  | poll t n =>
    obtain ⟨p, hr, -, rfl⟩ := dispStep_cases hs
    exact h.goto (hloop hr nofun) (fun k hk => h.slot t k (by rw [Polls, hr]; exact hk))
      (hglobal hr Iff.rfl)
  | handler t =>
    obtain ⟨p, n, hr, rfl⟩ := dispStep_cases hs
    exact h.called.goto (hloop hr nofun) (fun k hk => h.slot t k (by rw [Polls, hr]; exact hk))
      (hglobal hr Iff.rfl)
  | through t =>
    obtain ⟨hr, rfl⟩ | ⟨⟨slot, hr⟩, rfl⟩ := dispStep_cases hs
    · exact h.release hr
    · exact h.goto (hloop hr nofun) nofun (hglobal hr ⟨nofun, nofun⟩)
  | fire t =>
    obtain ⟨-, rfl⟩ := dispStep_cases hs
    exact h.called
  | timed t =>
    obtain ⟨hr, rfl⟩ := dispStep_cases hs
    exact h.goto (hloop hr nofun) (fun k hk => by cases hk; rfl) (hglobal hr ⟨nofun, nofun⟩)
  | finish => exact h.finishes (dispStep_cases hs)

theorem dispStep_disp_thrdn {a : DispAct} (hs : dispStep s a = some s') :
    s'.disp_thrdn = s.disp_thrdn := by
  cases a with
  | thread a =>
    obtain ⟨-, -, -, ⟨rfl, -⟩ | ⟨-, -, -, -, rfl⟩ | ⟨-, -, rfl⟩⟩ := dispStep_cases hs <;> rfl
  | trylock t => obtain ⟨-, ⟨-, rfl⟩ | ⟨-, rfl⟩ | ⟨-, rfl⟩⟩ := dispStep_cases hs <;> rfl
  | poll t n =>
    obtain ⟨-, -, -, rfl⟩ := dispStep_cases hs
    rfl
  | handler t =>
    obtain ⟨-, -, -, rfl⟩ := dispStep_cases hs
    rfl
  | through t =>
    obtain ⟨-, rfl⟩ | ⟨-, rfl⟩ := dispStep_cases hs
    · rw [unlock]
      split_ifs <;> rfl
    · rfl
  | fire t | timed t =>
    obtain ⟨-, rfl⟩ := dispStep_cases hs
    rfl
  | finish => cases dispStep_cases hs <;> rfl

/-- The threads could not be made: the lock is gone, and the main thread comes to it in its loop. -/
def lockGone : List DispAct :=
  [.thread (.bootFails .event), .thread (.openLog 0 true), .thread (.thrdInit 0 true),
    .thread (.cas 0), .thread (.loop 0), .trylock 0]

theorem lockGone_misused {thrdn : ℕ} (cpu : Option CpuAffinity) (h : 1 < thrdn) :
    ∃ s, run dispStep (dispBoot thrdn cpu) lockGone = some s ∧ s.misused = true := by
  cases cpu <;>
    simp [lockGone, run, dispStep, dispBoot, threadStep, threadsBoot, Disp.failed, Disp.goto,
      Threads.goto, Threads.setCpuAffinity, casDisp, h]

/-- The worker process, in any order of its threads' steps and with a shutdown at any moment: it is
safe where `plm_disp_start` comes to make its threads, or finds no lock to destroy. -/
theorem dispatcher_safe (thrdn : ℕ) (cpu : Option CpuAffinity) :
    (∀ as, (thrdn ≤ 1 ∨ ∀ e, DispAct.thread (.bootFails e) ∈ as → e = .lock) →
      Always dispStep DispSafe (dispBoot thrdn cpu) as) ∧
    (1 < thrdn → ∃ as, ¬Always dispStep DispSafe (dispBoot thrdn cpu) as) := by
  constructor
  · intro as hfails
    have hsteps : EachStep dispStep (fun _ a _ => ∀ e, a = .thread (.bootFails e) → e ≠ .lock →
      thrdn ≤ 1)
        (dispBoot thrdn cpu) as := by
      refine eachStep_of_mem dispStep ?_
      rintro a ha e rfl hne
      exact hfails.resolve_right fun hlock => hne (hlock e ha)
    have hinv : Always dispStep (fun s => DispInv s ∧ s.disp_thrdn = thrdn)
      (dispBoot thrdn cpu) as := by
      refine always_of_invariant dispStep ⟨dispInv_boot thrdn cpu, rfl⟩ ?_ hsteps
      rintro s a s' ⟨h, hn⟩ hfew hs
      exact ⟨h.step (fun e he hne => hn ▸ hfew e he hne) hs, (dispStep_disp_thrdn hs).trans hn⟩
    exact hinv.mono fun _ h => h.1.safe
  · intro h
    obtain ⟨s, hrun, hmis⟩ := lockGone_misused cpu h
    refine ⟨lockGone, fun hsafe => ?_⟩
    have hused := (hsafe.last hrun).used
    rw [hmis] at hused
    cases hused

theorem dispatcher_safe_two :
    Always dispStep DispSafe (dispBoot 2 none) [.thread .boot, .thread (.create true),
      .thread (.create true), .thread .store, .thread .poll, .thread (.wait 1), .thread (.inc 1)] ∧
    ∃ as, ¬Always dispStep DispSafe (dispBoot 2 none) as :=
  ⟨(dispatcher_safe 2 none).1 _ (.inr (by simp)), (dispatcher_safe 2 none).2 (by decide)⟩

end Safe

end Plume
