import Plume.Master

/-! The master keeps at most one worker, whatever signals arrive in whatever order: a flag
that asks for a new worker is only set behind a `waitpid` that took the old one away. -/

namespace Plume
open CLib

namespace MasterEvent

def IsForked (e : MasterEvent) : Prop := ∃ pid, e = .forked pid
def IsReaped (e : MasterEvent) : Prop := ∃ pid, e = .reaped pid
def IsQuitSeen (e : MasterEvent) : Prop := e = .quitSeen
def IsNotified (e : MasterEvent) : Prop := ∃ pid, e = .notified pid
def WritesHup (e : MasterEvent) : Prop := e = .hup ∨ e = .hupCleared

end MasterEvent

open MasterEvent

/-- Worker `i` has not been reaped. -/
def Present (m : Master) (i : ℕ) : Prop := ∃ w, m.workers[i]? = some w ∧ w.life ≠ .reaped

def Alive (m : Master) (i : ℕ) : Prop := ∃ w, m.workers[i]? = some w ∧ w.life = .alive

/-- No two workers are alive; none is forked before the one before it was reaped, nor once a
quit flag has been seen set; the worker is notified once for each value of `plm_sighup`. -/
structure Supervised (m : Master) : Prop where
  one : ∀ i j, Alive m i → Alive m j → i = j
  replaced : Between IsForked IsForked IsReaped m.log
  quit : Between IsQuitSeen IsForked (fun _ => False) m.log
  once : Between IsNotified IsNotified WritesHup m.log

/-- The points behind a `waitpid` that returned the worker. -/
def HPoint.Told : HPoint → Prop
  | .status _ | .reconf | .clearHup => True
  | _ => False

/-- The worker has been taken away, and a new one is asked for or about to be. -/
def Asked (m : Master) : Prop := m.plm_chlddone ≠ 0 ∨ ∃ f ∈ m.frames, f.point.Told

structure Inv (m : Master) : Prop where
  one : ∀ i j, Present m i → Present m j → i = j
  gone : m.phase = .boot ∨ Asked m → (∀ i, ¬ Present m i) ∧ ¬ Since IsForked IsReaped m.log
  boot : m.phase = .boot → ¬ Asked m
  stays : m.phase ≠ .exited → ¬ Since IsQuitSeen (fun _ => False) m.log
  notified : Since IsNotified WritesHup m.log → m.plm_sighup ≠ 1
  replaced : Between IsForked IsForked IsReaped m.log
  quit : Between IsQuitSeen IsForked (fun _ => False) m.log
  once : Between IsNotified IsNotified WritesHup m.log

theorem Alive.present {m : Master} {i : ℕ} (h : Alive m i) : Present m i := by
  obtain ⟨w, hw, hl⟩ := h
  exact ⟨w, hw, by rw [hl]; simp⟩

theorem Inv.supervised {m : Master} (h : Inv m) : Supervised m where
  one i j hi hj := h.one i j hi.present hj.present
  replaced := h.replaced
  quit := h.quit
  once := h.once

theorem inv_boot (mask : Finset Signo) : Inv (masterBoot mask) where
  one i j hi _ := by
    obtain ⟨w, hw, -⟩ := hi
    simp [masterBoot] at hw
  gone _ := ⟨fun i ⟨w, hw, _⟩ => by simp [masterBoot] at hw, since_nil⟩
  boot _ := by simp [Asked, masterBoot]
  stays _ := since_nil
  notified h := absurd h since_nil
  replaced := between_nil
  quit := between_nil
  once := between_nil

section Step

variable {m m' : Master}

/-- A step that forks, reaps and logs nothing, as far as the invariant can see it. -/
theorem Inv.same (h : Inv m) (hw : ∀ i, Present m' i → Present m i) (hlog : m'.log = m.log)
    (hask : Asked m' → Asked m) (hboot : m'.phase = .boot → m.phase = .boot)
    (hphase : m'.phase ≠ .exited → m.phase ≠ .exited)
    (hhup : m'.plm_sighup = 1 → m.plm_sighup = 1) :
    Inv m' where
  one i j hi hj := h.one i j (hw i hi) (hw j hj)
  gone hn := by
    obtain ⟨hg, hs⟩ := h.gone (hn.imp hboot hask)
    exact ⟨fun i hi => hg i (hw i hi), hlog ▸ hs⟩
  boot hb ha := h.boot (hboot hb) (hask ha)
  stays hp := hlog ▸ h.stays (hphase hp)
  notified hn h1 := h.notified (hlog ▸ hn) (hhup h1)
  replaced := hlog ▸ h.replaced
  quit := hlog ▸ h.quit
  once := hlog ▸ h.once

/-- An event that is neither a fork nor a notification. A quit is only seen where the loop
ends. -/
theorem Inv.logged (h : Inv m) {e : MasterEvent} (hw : ∀ i, Present m' i → Present m i)
    (hlog : m'.log = m.log ++ [e]) (hask : Asked m' → Asked m)
    (hboot : m'.phase = .boot → m.phase = .boot) (hphase : m'.phase ≠ .exited → m.phase ≠ .exited)
    (hf : ¬ e.IsForked) (hn : ¬ e.IsNotified) (hq : m'.phase = .exited ∨ ¬ e.IsQuitSeen)
    (hhup : e.WritesHup ∨ (m'.plm_sighup = 1 → m.plm_sighup = 1)) : Inv m' where
  one i j hi hj := h.one i j (hw i hi) (hw j hj)
  gone hn := by
    obtain ⟨hg, hs⟩ := h.gone (hn.imp hboot hask)
    refine ⟨fun i hi => hg i (hw i hi), ?_⟩
    rw [hlog, since_snoc]
    rintro (he | ⟨hs', -⟩)
    · exact hf he
    · exact hs hs'
  boot hb ha := h.boot (hboot hb) (hask ha)
  stays hp := by
    rw [hlog, since_snoc]
    rintro (he | ⟨hs, -⟩)
    · exact hq.elim hp fun hne => hne he
    · exact h.stays (hphase hp) hs
  notified hs h1 := by
    rw [hlog, since_snoc] at hs
    rcases hs with he | ⟨hs, hne⟩
    · exact hn he
    · rcases hhup with hwr | hkeep
      · exact hne hwr
      · exact h.notified hs (hkeep h1)
  replaced := by
    rw [hlog]
    exact between_snoc.2 ⟨h.replaced, fun he => absurd he hf⟩
  quit := by
    rw [hlog]
    exact between_snoc.2 ⟨h.quit, fun he => absurd he hf⟩
  once := by
    rw [hlog]
    exact between_snoc.2 ⟨h.once, fun he => absurd he hn⟩

/-- Frames that add no point at which the worker is known to be gone. -/
theorem Asked.of_frames (hc : m'.plm_chlddone = m.plm_chlddone)
    (hf : ∀ g ∈ m'.frames, g.point.Told → g ∈ m.frames) (h : Asked m') : Asked m := by
  rcases h with h | ⟨g, hg, ht⟩
  · exact .inl (hc ▸ h)
  · exact .inr ⟨g, hf g hg ht, ht⟩

theorem present_of_workers (h : m'.workers = m.workers) {i : ℕ} (hi : Present m' i) :
    Present m i := by
  unfold Present at hi
  rwa [h] at hi

variable {f : Frame} {rest : List Frame}

/-- The status of the worker is taken: it was the only one, and it is gone. -/
theorem Inv.reap {i : ℕ} {w : Worker} (h : Inv m) (hi : m.workers[i]? = some w)
    (hw : w.life ≠ .reaped) (hworkers : m'.workers = m.workers.set i { w with life := .reaped })
    (hlog : m'.log = m.log ++ [.reaped w.pid]) (hphase : m'.phase = m.phase)
    (hhup : m'.plm_sighup = m.plm_sighup) : Inv m' := by
  have hgone : ∀ j, ¬ Present m' j := by
    rintro j ⟨v, hv, hl⟩
    rw [hworkers] at hv
    rcases eq_or_ne i j with rfl | hij
    · rw [List.getElem?_set_self (List.getElem?_eq_some_iff.1 hi).1] at hv
      obtain rfl := Option.some.inj hv
      exact hl rfl
    · rw [List.getElem?_set_ne hij] at hv
      exact hij (h.one i j ⟨w, hi, hw⟩ ⟨v, hv, hl⟩)
  have hsince : ¬ Since IsForked IsReaped m'.log := by
    rw [hlog, since_snoc]
    rintro (⟨pid, hpid⟩ | ⟨-, hno⟩)
    · simp at hpid
    · exact hno ⟨w.pid, rfl⟩
  have hf : ¬ (MasterEvent.reaped w.pid).IsForked := by simp [IsForked]
  have hn : ¬ (MasterEvent.reaped w.pid).IsNotified := by simp [IsNotified]
  refine ⟨fun a b ha => absurd ha (hgone a), fun _ => ⟨hgone, hsince⟩, ?_, ?_, ?_, ?_, ?_, ?_⟩
  · intro hb
    exact absurd ⟨w, hi, hw⟩ ((h.gone (.inl (hphase ▸ hb))).1 i)
  · intro hp hs
    rw [hlog, since_snoc] at hs
    rcases hs with hseen | ⟨hs, -⟩
    · simp [IsQuitSeen] at hseen
    · exact h.stays (hphase ▸ hp) hs
  · intro hs
    rw [hlog, since_snoc] at hs
    rcases hs with hs | ⟨hs, -⟩
    · exact absurd hs hn
    · rw [hhup]
      exact h.notified hs
  · rw [hlog]
    exact between_snoc.2 ⟨h.replaced, fun he => absurd he hf⟩
  · rw [hlog]
    exact between_snoc.2 ⟨h.quit, fun he => absurd he hf⟩
  · rw [hlog]
    exact between_snoc.2 ⟨h.once, fun he => absurd he hn⟩

theorem awaited_present {i : ℕ} (h : m.awaited = some i) {w : Worker}
    (hw : m.workers[i]? = some w) :
    w.life ≠ .reaped := by
  unfold Master.awaited at h
  obtain ⟨hlt, hp, -⟩ := List.findIdx?_eq_some_iff_getElem.1 h
  rw [List.getElem?_eq_getElem hlt, Option.some.injEq] at hw
  subst hw
  simp only [Bool.and_eq_true, decide_eq_true_eq] at hp
  exact hp.1

theorem Inv.handler (h : Inv m) (hf : m.frames = f :: rest) (hs : m.handlerStep f rest = some m') :
    Inv m' := by
  have hrest : ∀ g ∈ rest, g.point.Told → g ∈ m.frames := by
    intro g hg _
    rw [hf]
    exact List.mem_cons_of_mem f hg
  have hgoto : ∀ p : HPoint, ¬ p.Told → ∀ g ∈
    (⟨f.signo, p⟩ :: rest : List Frame), g.point.Told → g ∈ m.frames := by
    intro p hp g hg ht
    rcases List.mem_cons.1 hg with rfl | hg
    · exact absurd ht hp
    · exact hrest g hg ht
  have htold : f.point.Told → Asked m :=
    fun ht => .inr (⟨f, by rw [hf]; exact List.mem_cons_self, ht⟩)
  unfold Master.handlerStep at hs
  cases hp : f.point with
  | switch =>
    rw [hp] at hs
    obtain rfl := Option.some.inj hs
    cases hsig : f.signo with
    | hup =>
      refine h.logged (fun i hi => hi) rfl (Asked.of_frames rfl ?_) id id ?_ ?_ ?_ (.inl (.inl rfl))
      · exact hsig ▸ hgoto .sigchld (by simp [HPoint.Told])
      all_goals simp [IsForked, IsNotified, IsQuitSeen]
    | _ => exact h.same (fun i hi => hi) rfl (Asked.of_frames rfl
      (hsig ▸ hgoto .sigchld (by simp [HPoint.Told]))) id id id
  | sigchld =>
    rw [hp] at hs
    obtain rfl := Option.some.inj hs
    refine h.same (fun i hi => hi) rfl (Asked.of_frames rfl ?_) id id id
    intro g hg
    simp only at hg
    split_ifs at hg
    · exact hgoto .clear (by simp [HPoint.Told]) g hg
    · exact hrest g hg
  | clear =>
    rw [hp] at hs
    obtain rfl := Option.some.inj hs
    exact h.same (fun i hi => hi) rfl
      (Asked.of_frames rfl (hgoto .wait (by simp [HPoint.Told]))) id id id
  | wait =>
    simp only [hp] at hs
    cases ha : m.awaited with
    | none =>
      rw [ha] at hs
      obtain rfl := Option.some.inj hs
      exact h.same (fun i hi => hi) rfl (Asked.of_frames rfl hrest) id id id
    | some i =>
      simp only [ha] at hs
      cases hw : m.workers[i]? with
      | none => simp [hw] at hs
      | some w =>
        simp only [hw] at hs
        cases hl : w.life with
        | dead status =>
          simp only [hl] at hs
          obtain rfl := Option.some.inj hs
          exact h.reap hw (awaited_present ha hw) rfl rfl rfl rfl
        | alive => simp [hl] at hs
        | reaped => simp [hl] at hs
  | status st =>
    have hno := htold (by rw [hp]; trivial)
    rw [hp] at hs
    cases st with
    | exited code =>
      simp only at hs
      split_ifs at hs
      · obtain rfl := Option.some.inj hs
        exact h.same (fun i hi => hi) rfl (fun _ => hno) id id id
      · obtain rfl := Option.some.inj hs
        exact h.same (fun i hi => hi) rfl (fun _ => hno) id id id
    | _ =>
      obtain rfl := Option.some.inj hs
      exact h.same (fun i hi => hi) rfl (fun _ => hno) id id id
  | reconf =>
    have hno := htold (by rw [hp]; trivial)
    rw [hp] at hs
    obtain rfl := Option.some.inj hs
    exact h.same (fun i hi => hi) rfl (fun _ => hno) id id id
  | clearHup =>
    have hno := htold (by rw [hp]; trivial)
    rw [hp] at hs
    obtain rfl := Option.some.inj hs
    refine h.logged (fun i hi => hi) rfl (fun _ => hno) id id ?_ ?_ ?_ (.inl (.inr rfl))
    all_goals simp [IsForked, IsNotified, IsQuitSeen]

theorem Inv.forked {w : Worker} (h : Inv m) (hno : m.phase = .boot ∨ Asked m)
    (hphase : m.phase ≠ .exited)
    (hworkers : m'.workers = m.workers ++ [w]) (hlog : m'.log = m.log ++ [.forked w.pid])
    (hboot : m'.phase ≠ .boot) (hask : ¬ Asked m')
    (hhup : m'.plm_sighup = m.plm_sighup) : Inv m' := by
  obtain ⟨hgone, hsince⟩ := h.gone hno
  have hlast : ∀ i, Present m' i → i = m.workers.length := by
    rintro i ⟨v, hv, hl⟩
    rw [hworkers] at hv
    rcases lt_trichotomy i m.workers.length with hlt | heq | hgt
    · rw [List.getElem?_append_left hlt] at hv
      exact absurd ⟨v, hv, hl⟩ (hgone i)
    · exact heq
    · rw [List.getElem?_eq_none (by simp; omega)] at hv
      exact absurd hv (by simp)
  have hn : ¬ (MasterEvent.forked w.pid).IsNotified := by simp [IsNotified]
  have hq : ¬ Since IsQuitSeen (fun _ => False) (m.log ++ [.forked w.pid]) := by
    rw [since_snoc]
    rintro (hseen | ⟨hs, -⟩)
    · simp [IsQuitSeen] at hseen
    · exact h.stays hphase hs
  refine ⟨fun i j hi hj => (hlast i hi).trans (hlast j hj).symm,
    fun hn => absurd hn (not_or.2 ⟨hboot, hask⟩), fun hb => absurd hb hboot, fun _ => hlog ▸ hq, ?_,
    ?_, ?_, ?_⟩
  · intro hs
    rw [hlog, since_snoc] at hs
    rcases hs with hs | ⟨hs, -⟩
    · exact absurd hs hn
    · rw [hhup]
      exact h.notified hs
  · rw [hlog]
    exact between_snoc.2 ⟨h.replaced, fun _ => hsince⟩
  · rw [hlog]
    exact between_snoc.2 ⟨h.quit, fun _ => h.stays hphase⟩
  · rw [hlog]
    exact between_snoc.2 ⟨h.once, fun he => absurd he hn⟩

theorem Inv.replace {res : Option ℕ} (h : Inv m) (hphase : m.phase = .suspended true)
    (hframes : m.frames = []) (hs : m.replace false res = some m') :
    Inv m' ∧ m'.phase = .suspended true := by
  unfold Master.replace at hs
  split_ifs at hs with hc
  · obtain ⟨r, hr, hs⟩ := Option.map_eq_some_iff.1 hs
    rcases fork_eq hr with rfl | ⟨pid, rfl⟩
    · subst hs
      exact ⟨h.same (fun i hi => hi) rfl (fun _ => .inl hc.1) id id id, hphase⟩
    · subst hs
      refine
        ⟨h.forked (w := ⟨pid, m.mask, false, .alive⟩) (.inr (.inl hc.1)) (by simp [hphase]) rfl rfl
        (by simp [hphase]) ?_ rfl, hphase⟩
      rintro (hb | ⟨g, hg, -⟩)
      · exact hb rfl
      · simp [hframes] at hg
  · obtain rfl := Option.some.inj hs
    exact ⟨h, hphase⟩

/-- The master notifies the worker of a `SIGHUP` it has not seen yet. -/
theorem Inv.notify (h : Inv m) {pid : ℕ} (h1 : m.plm_sighup = 1) (hphase : m.phase ≠ .exited)
    (hworkers : m'.workers = m.workers) (hlog : m'.log = m.log ++ [.notified pid])
    (hask : Asked m' → Asked m) (hboot : m'.phase = .boot → m.phase = .boot)
    (hhup : m'.plm_sighup ≠ 1) :
    Inv m' := by
  have hf : ¬ (MasterEvent.notified pid).IsForked := by simp [IsForked]
  have hw : ∀ i, Present m' i → Present m i := fun i => present_of_workers hworkers
  refine ⟨fun i j hi hj => h.one i j (hw i hi) (hw j hj), fun hn => ?_,
    fun hb ha => h.boot (hboot hb) (hask ha), fun _ hs => ?_, fun _ => hhup, ?_, ?_, ?_⟩
  · obtain ⟨hg, hs⟩ := h.gone (hn.imp hboot hask)
    refine ⟨fun i hi => hg i (hw i hi), ?_⟩
    rw [hlog, since_snoc]
    rintro (he | ⟨hs', -⟩)
    · exact hf he
    · exact hs hs'
  · rw [hlog, since_snoc] at hs
    rcases hs with hseen | ⟨hs, -⟩
    · simp [IsQuitSeen] at hseen
    · exact h.stays hphase hs
  · rw [hlog]
    exact between_snoc.2 ⟨h.replaced, fun he => absurd he hf⟩
  · rw [hlog]
    exact between_snoc.2 ⟨h.quit, fun he => absurd he hf⟩
  · rw [hlog]
    exact between_snoc.2 ⟨h.once, fun _ hs => h.notified hs h1⟩

theorem Inv.signal (h : Inv m) (hphase : m.phase = .suspended true) : Inv (m.signal false) := by
  unfold Master.signal
  rw [if_neg (by simp)]
  split_ifs with h1
  · exact h.notify h1 (by simp [hphase]) rfl rfl id (fun hb => absurd hb (by simp)) (by simp [h1])
  · exact h.same (fun i hi => hi) rfl id (fun hb => absurd hb (by simp)) (by simp [hphase]) id

/-- A round that sees a quit flag: no worker is forked, and the loop is left. -/
theorem Inv.leave {res : Option ℕ} (h : Inv m) (hs : (m.seen true).replace true res = some m') :
    Inv (m'.signal true) := by
  have hno : ¬ ((m.seen true).plm_chlddone ≠ 0 ∧ true = false) := by simp
  rw [Master.replace, if_neg hno] at hs
  obtain rfl := Option.some.inj hs
  have h₁ : Inv { m with phase := .exited } :=
    h.same (fun i hi => hi) rfl id (fun hb => absurd hb (by simp)) (fun hp => absurd rfl hp) id
  have h₂ : Inv { m with phase := .exited, log := m.log ++ [.quitSeen] } :=
    h₁.logged (fun i hi => hi) rfl id id id (by simp [IsForked]) (by simp [IsNotified]) (.inl rfl)
      (.inr id)
  exact h₂.logged (fun i hi => hi) rfl id id id (by simp [IsForked]) (by simp [IsNotified])
    (.inl rfl) (.inr id)

theorem Inv.pass {res : Option ℕ} (h : Inv m) (hphase : m.phase = .suspended true)
    (hframes : m.frames = [])
    (hs : (m.seen m.quit).replace m.quit res = some m') : Inv (m'.signal m.quit) := by
  cases hq : m.quit with
  | true =>
    rw [hq] at hs
    exact h.leave hs
  | false =>
    rw [hq, show m.seen false = m from rfl] at hs
    obtain ⟨h₁, hphase₁⟩ := h.replace hphase hframes hs
    exact h₁.signal hphase₁

/-- A worker whose entry is rewritten while it is alive. -/
theorem present_of_set {i j : ℕ} {w v : Worker} (hi : m.workers[i]? = some w) (hw : w.life = .alive)
    (h : m'.workers = m.workers.set i v) (hj : Present m' j) : Present m j := by
  obtain ⟨u, hu, hl⟩ := hj
  rw [h] at hu
  rcases eq_or_ne i j with rfl | hij
  · exact ⟨w, hi, by simp [hw]⟩
  · rw [List.getElem?_set_ne hij] at hu
    exact ⟨u, hu, hl⟩

theorem Inv.step {a : MasterAct} (h : Inv m) (hs : masterStep m a = some m') : Inv m' := by
  cases a with
  | fork res =>
    obtain ⟨hb, -, rfl | ⟨pid, rfl⟩⟩ := masterStep_cases hs
    · exact h.same (fun i hi => hi) rfl id (fun hp => absurd hp (by simp))
        (fun hp => absurd rfl hp) id
    · exact h.forked (w := ⟨pid, m.mask, false, .alive⟩) (.inl hb) (by simp [hb]) rfl rfl (by simp)
        (h.boot hb) rfl
  | assign =>
    obtain ⟨pid, hp, rfl⟩ := masterStep_cases hs
    exact h.same (fun i hi => hi) rfl id (by simp) (by simp [hp]) id
  | block =>
    obtain ⟨hb, rfl⟩ := masterStep_cases hs
    exact h.same (fun i hi => hi) rfl id (by simp) (by simp [hb]) id
  | deliver signo =>
    obtain ⟨-, rfl⟩ := masterStep_cases hs
    refine h.same (fun i hi => hi) rfl (Asked.of_frames rfl ?_) ?_ ?_ id
    · intro g hg ht
      rcases List.mem_cons.1 hg with rfl | hg
      · simp [HPoint.Told] at ht
      · exact hg
    · cases m.phase <;> simp
    · cases m.phase <;> simp
  | handler =>
    obtain ⟨f, rest, hf, hs⟩ := masterStep_cases hs
    exact h.handler hf hs
  | pass res =>
    obtain ⟨hp, hf, m₁, hr, rfl⟩ := masterStep_cases hs
    exact h.pass hp hf hr
  | die i status =>
    obtain ⟨w, hw, hl, rfl⟩ := masterStep_cases hs
    exact h.same (fun j hj => present_of_set hw hl rfl hj) rfl id id id id
  | enter i =>
    obtain ⟨w, hw, hl, -, rfl⟩ := masterStep_cases hs
    exact h.same (fun j hj => present_of_set hw hl rfl hj) rfl id id id id

end Step

/-- The master from its start on, whatever signals arrive and whenever its workers end. -/
theorem master_supervised (mask : Finset Signo) (as : List MasterAct) :
    Always masterStep Supervised (masterBoot mask) as := by
  refine Always.mono (fun _ => Inv.supervised) ?_
  exact always_of_step masterStep as (inv_boot mask) fun _ _ _ h hs => h.step hs

end Plume
