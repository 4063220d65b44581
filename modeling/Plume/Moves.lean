import Plume.Threads

/-! How the threads of a worker process come, move and go, whatever order their steps have. -/

namespace Plume
open CLib

def Point.gone (p : Point) : Prop := p = .absent ∨ p = .done

def Point.early : Point → Bool
  | .boot | .create _ | .store => true
  | _ => false

def Point.behind (p : Point) : Prop := p = .exit ∨ p = .endThreads ∨ p = .done

/-- The identifiers of the threads, while and behind `plm_threads_create`: a thread without one was
not made. -/
structure Created (s : Threads) : Prop where
  boot : s.point 0 = .boot → ∀ j, j ≠ 0 → s.point j = .absent
  create : ∀ i, s.point 0 = .create i → i ≠ 0 ∧ ∀ j, i ≤ j → s.point j = .absent
  self : ∀ j thrd, s.tm_thread_id j = some thrd → thrd = j
  absent : ∀ j, j ≠ 0 → s.tm_thread_id j = none → s.point j = .absent

theorem created_boot (thrdn : ℕ) (cpu : Option CpuAffinity) : Created (threadsBoot thrdn cpu) where
  boot _ j hj := if_neg hj
  create i h := by cases h
  self j thrd h := by cases h
  absent j hj _ := if_neg hj

inductive Moves (point : ℕ → Point) : ThreadAct → ℕ → Point → Prop
  | boot : point 0 = .boot → Moves point .boot 0 (.create 1)
  | bootFails (e : StartError) : point 0 = .boot → Moves point (.bootFails e) 0 .openLog
  | create (ok : Bool) {i : ℕ} {p : Point} : point 0 = .create i → p.early = true ∨ p = .openLog →
    p ≠ .boot →
    (∀ j, p = .create j → j = i + 1) → Moves point (.create ok) 0 p
  | made {i : ℕ} : point 0 = .create i → point i = .absent → Moves point (.create true) i .wait
  | store : point 0 = .store → Moves point .store 0 .poll
  | poll : point 0 = .poll → Moves point .poll 0 .openLog
  | wait {t : ℕ} : point t = .wait → Moves point (.wait t) t .inc
  | inc {t : ℕ} : point t = .inc → Moves point (.inc t) t .check
  | check {t : ℕ} {p : Point} : point t = .check → p = .dec ∨ p = .openLog →
    Moves point (.check t) t p
  | dec {t : ℕ} : point t = .dec → Moves point (.dec t) t .done
  | proc {a : ThreadAct} {t : ℕ} {p q : Point} : point t = p → p.inProc = true →
    q.inProc = true ∨ q = (if t = 0 then .exit else .check) → (p = .loop → a = .loop t) →
      Moves point a t q
  | exit : point 0 = .exit → Moves point .exit 0 .endThreads
  | endThreads : point 0 = .endThreads → Moves point .endThreads 0 .done

variable {s s' : Threads} {a : ThreadAct} {t : ℕ}

theorem moves_goto {u : ℕ} {p : Point} (h : Moves s.point a u p) :
    (s.goto u p).point t = s.point t ∨ Moves s.point a t ((s.goto u p).point t) := by
  rcases eq_or_ne t u with rfl | ht
  · right
    rwa [show (s.goto t p).point t = p from if_pos rfl]
  · exact .inl (if_neg ht)

theorem moves_leave {u : ℕ} {p : Point} (hp : s.point u = p) (h : p.inProc = true)
    (hloop : p = .loop → a = .loop u) :
    (s.leave u).point t = s.point t ∨ Moves s.point a t ((s.leave u).point t) :=
  moves_goto (.proc hp h (.inr rfl) hloop)

theorem Created.moves (hc : Created s) (h : threadStep s a = some s') (t : ℕ) :
    s'.point t = s.point t ∨ Moves s.point a t (s'.point t) := by
  cases a with
  | boot =>
    obtain ⟨hp, rfl⟩ := threadStep_cases h
    exact moves_goto (.boot hp)
  | bootFails e =>
    obtain ⟨hp, -, ⟨-, rfl⟩ | ⟨-, rfl⟩⟩ := threadStep_cases h
    · exact moves_goto (s := s) (.bootFails e hp)
    · exact moves_goto (s := s) (.bootFails e hp)
  | create ok =>
    obtain ⟨i, hp, ⟨-, rfl⟩ | rfl | rfl⟩ := threadStep_cases h
    · rcases eq_or_ne t 0 with rfl | ht
      · exact .inr
          (.create ok (p := .create (i + 1)) hp (.inl rfl) (by simp) fun j hj => by cases hj; rfl)
      · cases ok with
        | false => exact .inl (if_neg ht)
        | true =>
          rcases eq_or_ne t i with rfl | hti
          · right
            have hw : (((s.createThread t true).goto 0 (.create (t + 1))).point t) = .wait := by
              simp [Threads.goto, Threads.createThread, ht]
            rw [hw]
            exact .made hp ((hc.create t hp).2 t le_rfl)
          · left
            simp [Threads.goto, Threads.createThread, ht, hti]
    · exact moves_goto (.create ok hp (.inl rfl) (by simp) (by simp))
    · exact moves_goto (.create ok hp (.inr rfl) (by simp) (by simp))
  | store =>
    obtain ⟨hp, rfl⟩ := threadStep_cases h
    exact moves_goto (.store hp)
  | poll =>
    obtain ⟨hp, rfl | rfl⟩ := threadStep_cases h
    · exact moves_goto (.poll hp)
    · exact .inl rfl
  | wait i =>
    obtain ⟨hp, -, rfl⟩ := threadStep_cases h
    exact moves_goto (.wait hp)
  | inc i =>
    obtain ⟨hp, rfl⟩ := threadStep_cases h
    exact moves_goto (.inc hp)
  | check i =>
    obtain ⟨hp, ⟨-, rfl⟩ | ⟨-, rfl⟩⟩ := threadStep_cases h
    · exact moves_goto (.check hp (.inl rfl))
    · exact moves_goto (.check hp (.inr rfl))
  | dec i =>
    obtain ⟨hp, rfl⟩ := threadStep_cases h
    exact moves_goto (.dec hp)
  | openLog u ok =>
    obtain ⟨hp, rfl | rfl⟩ := threadStep_cases h
    · exact moves_goto (.proc hp rfl (.inl rfl) (by simp))
    · exact moves_leave hp rfl (by simp)
  | thrdInit u ok =>
    obtain ⟨hp, hnext⟩ := threadStep_cases h
    obtain ⟨calls, hcalls⟩ := setCpuAffinity_eq s u
    rw [hcalls] at hnext
    obtain rfl | rfl := hnext
    · exact moves_goto (s := s) (.proc hp rfl (.inl rfl) (by simp))
    · exact moves_leave (s := s) hp rfl (by simp)
  | cas u =>
    obtain ⟨hp, rfl⟩ := threadStep_cases h
    exact moves_goto (.proc hp rfl (.inl rfl) (by simp))
  | loop u =>
    obtain ⟨hp, rfl | rfl⟩ := threadStep_cases h
    · exact moves_leave hp rfl fun _ => rfl
    · exact .inl rfl
  | exit =>
    obtain ⟨hp, rfl⟩ := threadStep_cases h
    exact moves_goto (.exit hp)
  | endThreads =>
    obtain ⟨hp, rfl⟩ := threadStep_cases h
    exact moves_goto (.endThreads hp)
  | notifyThreads =>
    obtain rfl : s' = _ := threadStep_cases h
    exact .inl rfl
  | notifyDisp =>
    obtain ⟨-, rfl⟩ := threadStep_cases h
    exact .inl rfl

/-- Only a thread that is made moves from where it is not there, and none from where it has
ended. -/
theorem Moves.of_gone {point : ℕ → Point} {q : Point} (h : Moves point a t q)
    (ht : (point t).gone) :
    a = .create true ∧ point 0 = .create t := by
  have hgone : ∀ p, point t = p → p.gone := fun p hp => hp ▸ ht
  cases h with
  | made hp => exact ⟨rfl, hp⟩
  | proc hp hproc => obtain rfl | rfl := hgone _ hp <;> cases hproc
  | boot hp | bootFails _ hp | create _ hp | store hp | poll hp | wait hp | inc hp | check hp
    | dec hp | exit hp | endThreads hp =>
    exact absurd (hgone _ hp) (by simp [Point.gone])

theorem Moves.of_loop {point : ℕ → Point} {q : Point} (h : Moves point a t q)
    (ht : point t = .loop) : a = .loop t := by
  have hloop : ∀ p, point t = p → p = .loop := fun p hp => hp ▸ ht
  cases h with
  | made _ hp | boot hp | bootFails _ hp | create _ hp | store hp | poll hp | wait hp | inc hp
    | check hp | dec hp | exit hp | endThreads hp =>
    exact absurd (hloop _ hp) (by simp)
  | proc hp _ _ ha => exact ha (hloop _ hp)

/-- The main thread stays behind its `plm_disp_proc`. -/
theorem Moves.of_behind {point : ℕ → Point} {q : Point} (h : Moves point a 0 q)
    (h0 : (point 0).behind) : q.behind := by
  have hbehind : ∀ p, point 0 = p → p.behind := fun p hp => hp ▸ h0
  cases h with
  | exit hp => exact .inr (.inl rfl)
  | endThreads hp => exact .inr (.inr rfl)
  | proc hp hproc => obtain rfl | rfl | rfl := hbehind _ hp <;> cases hproc
  | made _ hp | boot hp | bootFails _ hp | create _ hp | store hp | poll hp | wait hp | inc hp
    | check hp | dec hp =>
    exact absurd (hbehind _ hp) (by simp [Point.behind])

/-- Behind the loop of `plm_threads_create` a thread that is gone stays like that. -/
theorem Created.gone_kept (hc : Created s) (hs : threadStep s a = some s')
    (h0 : ∀ i, s.point 0 ≠ .create i)
    (ht : (s.point t).gone) : s'.point t = s.point t :=
  (hc.moves hs t).resolve_right fun h => h0 t (h.of_gone ht).2

/-- The steps that leave the statuses and the flags of a notification alone. -/
def ThreadAct.quiet : ThreadAct → Bool
  | .create _ | .poll | .wait _ | .inc _ | .check _ | .dec _ | .openLog _ _ | .thrdInit _ _
  | .loop _ => true
  | _ => false

/-- What only steps of one kind write. -/
structure StepFrame (s : Threads) (a : ThreadAct) (s' : Threads) : Prop where
  thrdn : (∀ e, a ≠ .bootFails e) → s'.tm_thrdn = s.tm_thrdn
  ids : a ≠ .boot → (∀ e, a ≠ .bootFails e) → (∀ ok, a ≠ .create ok) →
    s'.tm_thread_id = s.tm_thread_id
  slot : ∀ t, a ≠ .inc t → s'.curr_slot t = s.curr_slot t
  calls : (∀ t ok, a ≠ .thrdInit t ok) → s'.calls = s.calls
  cpu : s'.mc_cpu_affinity = s.mc_cpu_affinity
  status : a.quiet = true → s'.tm_status = s.tm_status ∧ s'.disp_status = s.disp_status ∧
    s'.quitting = s.quitting ∧ s'.notified = s.notified

theorem StepFrame.of_eq (hn : s'.tm_thrdn = s.tm_thrdn) (hi : s'.tm_thread_id = s.tm_thread_id)
    (hs : s'.curr_slot = s.curr_slot) (hc : s'.calls = s.calls)
    (hm : s'.mc_cpu_affinity = s.mc_cpu_affinity)
    (hq : a.quiet = true → s'.tm_status = s.tm_status ∧ s'.disp_status = s.disp_status ∧
      s'.quitting = s.quitting ∧ s'.notified = s.notified) : StepFrame s a s' :=
  ⟨fun _ => hn, fun _ _ _ => hi, fun t _ => congrFun hs t, fun _ => hc, hm, hq⟩

theorem createThread_eq (s : Threads) (i : ℕ) (ok : Bool) :
    ∃ ids point, s.createThread i ok = { s with tm_thread_id := ids, point := point } := by
  cases ok with
  | false => exact ⟨_, s.point, rfl⟩
  | true => exact ⟨_, _, rfl⟩

theorem threadStep_frame (h : threadStep s a = some s') : StepFrame s a s' := by
  cases a with
  | boot =>
    obtain ⟨-, rfl⟩ := threadStep_cases h
    exact ⟨fun _ => rfl, fun hb => absurd rfl hb, fun _ _ => rfl, fun _ => rfl, rfl,
      Bool.noConfusion⟩
  | bootFails e =>
    have hfails : ∀ {P : Prop}, (∀ e', ThreadAct.bootFails e ≠ .bootFails e') → P :=
      fun hne => absurd rfl (hne e)
    obtain ⟨-, -, ⟨-, rfl⟩ | ⟨-, rfl⟩⟩ := threadStep_cases h
    · exact ⟨hfails, fun _ hne _ => hfails hne, fun _ _ => rfl, fun _ => rfl, rfl,
        Bool.noConfusion⟩
    · exact ⟨hfails, fun _ hne _ => hfails hne, fun _ _ => rfl, fun _ => rfl, rfl,
        Bool.noConfusion⟩
  | create ok =>
    obtain ⟨i, -, ⟨-, rfl⟩ | rfl | rfl⟩ := threadStep_cases h
    · obtain ⟨ids, point, hmade⟩ := createThread_eq s i ok
      rw [hmade]
      exact ⟨fun _ => rfl, fun _ _ hne => absurd rfl (hne ok), fun _ _ => rfl, fun _ => rfl, rfl,
        fun _ => ⟨rfl, rfl, rfl, rfl⟩⟩
    · exact .of_eq rfl rfl rfl rfl rfl fun _ => ⟨rfl, rfl, rfl, rfl⟩
    · exact .of_eq rfl rfl rfl rfl rfl fun _ => ⟨rfl, rfl, rfl, rfl⟩
  | inc i =>
    obtain ⟨-, rfl⟩ := threadStep_cases h
    refine ⟨fun _ => rfl, fun _ _ _ => rfl, fun t ht => if_neg ?_, fun _ => rfl, rfl,
      fun _ => ⟨rfl, rfl, rfl, rfl⟩⟩
    rintro rfl
    exact ht rfl
  | thrdInit t ok =>
    obtain ⟨-, hnext⟩ := threadStep_cases h
    obtain ⟨calls, hcalls⟩ := setCpuAffinity_eq s t
    rw [hcalls] at hnext
    obtain rfl | rfl := hnext
    · exact ⟨fun _ => rfl, fun _ _ _ => rfl, fun _ _ => rfl, fun hne => absurd rfl (hne t ok),
        rfl, fun _ => ⟨rfl, rfl, rfl, rfl⟩⟩
    · exact ⟨fun _ => rfl, fun _ _ _ => rfl, fun _ _ => rfl, fun hne => absurd rfl (hne t ok),
        rfl, fun _ => ⟨rfl, rfl, rfl, rfl⟩⟩
  | poll | openLog t ok | loop t =>
    obtain ⟨-, rfl | rfl⟩ := threadStep_cases h
    · exact .of_eq rfl rfl rfl rfl rfl fun _ => ⟨rfl, rfl, rfl, rfl⟩
    · exact .of_eq rfl rfl rfl rfl rfl fun _ => ⟨rfl, rfl, rfl, rfl⟩
  | check i =>
    obtain ⟨-, ⟨-, rfl⟩ | ⟨-, rfl⟩⟩ := threadStep_cases h
    · exact .of_eq rfl rfl rfl rfl rfl fun _ => ⟨rfl, rfl, rfl, rfl⟩
    · exact .of_eq rfl rfl rfl rfl rfl fun _ => ⟨rfl, rfl, rfl, rfl⟩
  | wait i =>
    obtain ⟨-, -, rfl⟩ := threadStep_cases h
    exact .of_eq rfl rfl rfl rfl rfl fun _ => ⟨rfl, rfl, rfl, rfl⟩
  | dec i =>
    obtain ⟨-, rfl⟩ := threadStep_cases h
    exact .of_eq rfl rfl rfl rfl rfl fun _ => ⟨rfl, rfl, rfl, rfl⟩
  | store | cas t | exit | endThreads | notifyDisp =>
    obtain ⟨-, rfl⟩ := threadStep_cases h
    exact .of_eq rfl rfl rfl rfl rfl Bool.noConfusion
  | notifyThreads =>
    obtain rfl : s' = _ := threadStep_cases h
    exact .of_eq rfl rfl rfl rfl rfl Bool.noConfusion

theorem threadStep_slot (h : threadStep s a = some s') (t : ℕ) :
    s'.curr_slot t = s.curr_slot t ∨ s.point t = .inc := by
  by_cases ha : a = .inc t
  · rw [ha] at h
    exact .inr (threadStep_cases h).1
  · exact .inl ((threadStep_frame h).slot t ha)

/-- Behind the start of `plm_threads_create` the number of threads stays. -/
theorem threadStep_thrdn_started (h : threadStep s a = some s') (h0 : s.point 0 ≠ .boot) :
    s'.tm_thrdn = s.tm_thrdn := by
  refine (threadStep_frame h).thrdn fun e ha => ?_
  rw [ha] at h
  exact h0 (threadStep_cases h).1

theorem threadStep_thrdn_le (h : threadStep s a = some s') : s'.tm_thrdn ≤ s.tm_thrdn := by
  cases a with
  | bootFails e =>
    obtain ⟨-, -, ⟨-, rfl⟩ | ⟨-, rfl⟩⟩ := threadStep_cases h
    · exact le_rfl
    · exact Nat.zero_le _
  | _ => exact ((threadStep_frame h).thrdn nofun).le

theorem Created.other (h : Created s) (hs : threadStep s a = some s') (hboot : a ≠ .boot)
    (hfails : ∀ e, a ≠ .bootFails e) (hcreate : ∀ ok, a ≠ .create ok) : Created s' := by
  have hids := (threadStep_frame hs).ids hboot hfails hcreate
  have habsent : ∀ j, s.point j = .absent → s'.point j = .absent := fun j hj =>
    ((h.moves hs j).resolve_right fun hm => hcreate true (hm.of_gone (.inl hj)).1).trans hj
  have hmain : ∀ p, p = .boot ∨ (∃ i, p = .create i) → s'.point 0 = p → s.point 0 = p := by
    intro p hp hs'
    refine ((h.moves hs 0).resolve_right fun hm => ?_).symm.trans hs'
    rw [hs'] at hm
    obtain rfl | ⟨i, rfl⟩ := hp
    · cases hm with
      | create _ _ _ hne => exact hne rfl
      | check _ hq => exact absurd hq (by simp)
      | proc _ _ hq => exact absurd hq (by simp [Point.inProc])
    · cases hm with
      | boot => exact hboot rfl
      | create ok => exact hcreate ok rfl
      | check _ hq => exact absurd hq (by simp)
      | proc _ _ hq => exact absurd hq (by simp [Point.inProc])
  refine ⟨fun hp j hj => habsent j (h.boot (hmain _ (.inl rfl) hp) j hj), fun i hp => ?_, ?_,
    fun j hj hid => ?_⟩
  · obtain ⟨hi, hall⟩ := h.create i (hmain _ (.inr ⟨i, rfl⟩) hp)
    exact ⟨hi, fun j hj => habsent j (hall j hj)⟩
  · rw [hids]
    exact h.self
  · exact habsent j (h.absent j hj (hids ▸ hid))

/-- Each thread made stands in `tm_thread_id` under its own number. -/
theorem Created.id_of_made (h : Created s) (ht : t ≠ 0) (hp : s.point t ≠ .absent) :
    s.tm_thread_id t = some t := by
  cases hid : s.tm_thread_id t with
  | none => exact absurd (h.absent t ht hid) hp
  | some thrd => rw [h.self t thrd hid]

theorem Created.main_goto {p : Point} (h : Created s) (hb : p ≠ .boot) (hc : ∀ i, p ≠ .create i) :
    Created (s.goto 0 p) :=
  ⟨fun he => absurd he hb, fun i he => absurd he (hc i), h.self,
    fun j hj hid => (if_neg hj).trans (h.absent j hj hid)⟩

theorem Created.fresh (h : Created s) (hp : s.point 0 = .boot) :
    Created { s with tm_thread_id := fun _ => none } :=
  ⟨h.boot, h.create, nofun, fun j hj _ => h.boot hp j hj⟩

theorem Created.made (h : Created s) {i : ℕ} (hp : s.point 0 = .create i) (ok : Bool) :
    Created ((s.createThread i ok).goto 0 (.create (i + 1))) := by
  obtain ⟨hi, hall⟩ := h.create i hp
  have hid : ∀ j, ((s.createThread i ok).goto 0 (.create (i + 1))).tm_thread_id j =
      if j = i then (if ok then some i else none) else s.tm_thread_id j := by
    intro j
    cases ok <;> rfl
  have hpoint : ∀ j, j ≠ 0 → j ≠ i →
    ((s.createThread i ok).goto 0 (.create (i + 1))).point j = s.point j := by
    intro j hj hji
    cases ok <;> simp [Threads.createThread, Threads.goto, hj, hji]
  refine ⟨by simp [Threads.goto], fun k hk => ?_, fun j thrd hj => ?_, fun j hj hnone => ?_⟩
  · cases hk
    refine ⟨Nat.succ_ne_zero i, fun j hj => ?_⟩
    rw [hpoint j (by omega) (by omega)]
    exact hall j (by omega)
  · rw [hid] at hj
    rcases eq_or_ne j i with rfl | hji
    · cases ok <;> simp_all
    · rw [if_neg hji] at hj
      exact h.self j thrd hj
  · rw [hid] at hnone
    rcases eq_or_ne j i with rfl | hji
    · cases ok with
      | true => simp at hnone
      | false => exact (if_neg hj).trans (hall j le_rfl)
    · rw [if_neg hji] at hnone
      rw [hpoint j hj hji]
      exact h.absent j hj hnone

theorem Created.congr (h : Created s) (hid : s'.tm_thread_id = s.tm_thread_id)
    (hp : s'.point = s.point) : Created s' where
  boot := hp ▸ h.boot
  create := hp ▸ h.create
  self := hid ▸ h.self
  absent := by rw [hid, hp]; exact h.absent

theorem Created.step (h : Created s) (hs : threadStep s a = some s') : Created s' := by
  cases a with
  | boot =>
    obtain ⟨hp, rfl⟩ := threadStep_cases hs
    refine ⟨nofun, fun i hi => ?_, nofun, fun j hj _ => (if_neg hj).trans (h.boot hp j hj)⟩
    cases hi
    refine ⟨one_ne_zero, fun j hj => ?_⟩
    have hj0 : j ≠ 0 := by omega
    exact (if_neg hj0).trans (h.boot hp j hj0)
  | bootFails e =>
    obtain ⟨hp, -, ⟨-, rfl⟩ | ⟨-, rfl⟩⟩ := threadStep_cases hs
    · exact Created.main_goto ((h.fresh hp).congr rfl rfl) nofun nofun
    · exact Created.main_goto (h.congr rfl rfl) nofun nofun
  | create ok =>
    obtain ⟨i, hp, ⟨-, rfl⟩ | rfl | rfl⟩ := threadStep_cases hs
    · exact h.made hp ok
    · exact h.main_goto nofun nofun
    · exact h.main_goto nofun nofun
  | _ => exact h.other hs nofun nofun nofun

end Plume
