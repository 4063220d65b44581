import Plume.Dispatch

/-! Whether a handler can be called for a descriptor it was not posted for. Three tables
know a descriptor by its number, and `plm_comm_close` looks at the first one alone: the
handlers in `ei_events_arr` and in the batches of the threads stay where they are. -/

namespace Plume
open CLib

/-- The call came while the descriptor was open, with a handler posted since it was opened. -/
def Call.Fresh (c : Call) : Prop := ∃ t, c.openedAt = some t ∧ t < c.handler.posted

structure Dropped (fd : ℕ) (s : Sys) : Prop where
  stored : ∀ d, (s.io.ei_events_arr fd).pending d = none
  batched : ∀ slot, ∀ e ∈ s.batch slot, e.eih_fd = fd → ∀ d, e.pending d = none

/-- Every call along the run is fresh, and closing drops every handler. -/
structure NoStale (s : Sys) (as : List Act) : Prop where
  calls : Always sysStep (fun s => ∀ c ∈ s.calls, c.Fresh) s as
  drops : EachStep sysStep (fun _ a s' => ∀ fd, a = .close fd → Dropped fd s') s as

/-- Descriptors are posted on while they are open, and closed when nothing is posted on them. -/
structure Settled (s : Sys) (a : Act) : Prop where
  post : ∀ flag t fd fn data refuse, a = .post flag t fd fn data refuse → s.openedAt fd ≠ none
  close : ∀ fd, a = .close fd → Dropped fd s

def Keeps (s : Sys) (fd : ℕ) (h : Handler) : Prop :=
  ∃ d, (s.io.ei_events_arr fd).pending d = some h ∨
    ∃ slot, ∃ e ∈ s.batch slot, e.eih_fd = fd ∧ e.pending d = some h

/-- The invariant: every handler kept was posted since its descriptor was opened. -/
structure AllFresh (s : Sys) : Prop where
  kept : ∀ fd h, Keeps s fd h → ∃ t, s.openedAt fd = some t ∧ t < h.posted
  calls : ∀ c ∈ s.calls, c.Fresh
  past : ∀ fd t, s.openedAt fd = some t → t < s.now
  kernel : ∀ fd t, s.openedAt fd = some t → s.io.kernel.isOpen fd = true

section Step

variable {s s' : Sys} {fd : ℕ} {a : Act}

theorem dropped_iff : Dropped fd s ↔ ∀ h, ¬ Keeps s fd h := by
  constructor
  · rintro ⟨hs, hb⟩ h ⟨d, hp | ⟨slot, e, he, hfd, hp⟩⟩
    · rw [hs d] at hp; exact absurd hp (by simp)
    · rw [hb slot e he hfd d] at hp; exact absurd hp (by simp)
  · intro hno
    refine ⟨fun d => ?_, fun slot e he hfd d => ?_⟩
    · cases hp : (s.io.ei_events_arr fd).pending d with
      | none => rfl
      | some h => exact absurd ⟨d, .inl hp⟩ (hno h)
    · cases hp : e.pending d with
      | none => rfl
      | some h => exact absurd ⟨d, .inr ⟨slot, e, he, hfd, hp⟩⟩ (hno h)

/-- Opening a descriptor the kernel has free adds nothing to what is kept. -/
theorem AllFresh.opened (h : AllFresh s) (hfree : s.io.kernel.isOpen fd = false) (comm : Comm) :
    AllFresh (s.opened fd comm) := by
  have hclosed : s.openedAt fd = none := by
    cases ho : s.openedAt fd with
    | none => rfl
    | some t => rw [h.kernel fd t ho] at hfree; exact absurd hfree (by decide)
  refine ⟨fun x hd hk => ?_, h.calls, fun x t ht => ?_, fun x t ht => ?_⟩
  · obtain ⟨t, ht, hlt⟩ := h.kept x hd hk
    have hne : x ≠ fd := by
      rintro rfl
      rw [hclosed] at ht
      exact absurd ht (by simp)
    exact ⟨t, (if_neg hne).trans ht, hlt⟩
  · change (if x = fd then some s.now else s.openedAt x) = some t at ht
    change t < s.now + 1
    split_ifs at ht
    · have := Option.some.inj ht; omega
    · have := h.past x t ht; omega
  · change (if x = fd then some s.now else s.openedAt x) = some t at ht
    change (decide (x = fd) || s.io.kernel.isOpen x) = true
    split_ifs at ht with hx
    · rw [decide_eq_true hx, Bool.true_or]
    · rw [h.kernel x t ht, Bool.or_true]

theorem pending_store (eih : EventIoHandler) (h : Handler) (flag d : Dir) :
    (eih.store h flag).pending d = if d = flag then some h else eih.pending d := by
  cases flag <;> cases d <;> rfl

/-- Whatever only takes handlers away, calls nothing and opens nothing keeps the invariant. -/
theorem AllFresh.mono (h : AllFresh s) (hkeep : ∀ fd hd, Keeps s' fd hd → Keeps s fd hd)
    (hcalls : s'.calls = s.calls) (hnow : s'.now = s.now + 1) (hat : s'.openedAt = s.openedAt)
    (hopen : s'.io.kernel.isOpen = s.io.kernel.isOpen) : AllFresh s' := by
  refine ⟨fun fd hd hk => ?_, ?_, fun fd t ht => ?_, fun fd t ht => ?_⟩
  · rw [hat]; exact h.kept fd hd (hkeep fd hd hk)
  · rw [hcalls]; exact h.calls
  · rw [hat] at ht
    rw [hnow]
    exact Nat.lt_succ_of_lt (h.past fd t ht)
  · rw [hat] at ht
    rw [hopen]
    exact h.kernel fd t ht

/-- What is left of a batch behind its next call was in it. -/
theorem keeps_of_rest {e : EventIoHandler} {rest rest' : List EventIoHandler} {slot : ℕ}
    {hd : Handler}
    {batch : ℕ → List EventIoHandler} (hb : s.batch slot = e :: rest)
    (hr : rest' = { e with eih_onread := none } :: rest ∨ rest' = rest)
    (hb' : batch = fun t => if t = slot then rest' else s.batch t) {d : Dir}
    (hk : ∃ t, ∃ x ∈ batch t, x.eih_fd = fd ∧ x.pending d = some hd) : Keeps s fd hd := by
  obtain ⟨t, x, hx, hfd, hp⟩ := hk
  subst hb'
  by_cases ht : t = slot
  · subst ht
    simp only [if_true] at hx
    rcases hr with rfl | rfl
    · rcases List.mem_cons.1 hx with rfl | hx
      · refine ⟨d, .inr ⟨t, e, by rw [hb]; simp, hfd, ?_⟩⟩
        cases d with
        | read => exact absurd hp (by simp [EventIoHandler.pending])
        | write => exact hp
      · exact ⟨d, .inr ⟨t, x, by rw [hb]; simp [hx], hfd, hp⟩⟩
    · exact ⟨d, .inr ⟨t, x, by rw [hb]; simp [hx], hfd, hp⟩⟩
  · simp only [if_neg ht] at hx
    exact ⟨d, .inr ⟨t, x, hx, hfd, hp⟩⟩

theorem AllFresh.step (h : AllFresh s) (hc : Settled s a) (hs : sysStep s a = some s') :
    AllFresh s' := by
  cases a with
  | «open» type fd =>
    obtain ⟨hfree, comm, rfl⟩ := sysStep_open hs
    exact h.opened hfree comm
  | accept l fd =>
    obtain ⟨hfree, comm, rfl⟩ := sysStep_accept hs
    exact h.opened hfree comm
  | post flag t fd fn data refuse =>
    obtain ⟨err, io, hpost, rfl⟩ := sysStep_post hs
    obtain ⟨harr, hopen, -⟩ := eventIoPost_ok hpost
    obtain ⟨t₀, ht₀⟩ := Option.ne_none_iff_exists'.1 (hc.post _ _ _ _ _ _ rfl)
    refine ⟨fun x hd hk => ?_, h.calls, fun x t ht => Nat.lt_succ_of_lt (h.past x t ht),
      fun x t ht => ?_⟩
    · obtain ⟨d, hp | hb⟩ := hk
      · change (io.ei_events_arr x).pending d = some hd at hp
        rw [harr] at hp
        split_ifs at hp with hx
        · rw [pending_store] at hp
          split_ifs at hp
          · obtain rfl := Option.some.inj hp
            exact ⟨t₀, hx ▸ ht₀, h.past fd t₀ ht₀⟩
          · exact h.kept x hd ⟨d, .inl (hx ▸ hp)⟩
        · exact h.kept x hd ⟨d, .inl hp⟩
      · exact h.kept x hd ⟨d, .inr hb⟩
    · change io.kernel.isOpen x = true
      rw [hopen]
      exact h.kernel x t ht
  | poll slot t evs =>
    obtain ⟨k, hk, rfl⟩ := sysStep_poll hs
    obtain ⟨-, -, hopen, -⟩ := epollWait_eq hk
    refine h.mono (fun fd hd hkeep => ?_) rfl rfl rfl hopen
    obtain ⟨d, hp | ⟨x, e, he, hfd, hp⟩⟩ := hkeep
    · exact ⟨d, .inl ((pollLoop_pending evs _ d hd).1 fd hp)⟩
    · by_cases hx : x = slot
      · subst hx
        simp only [if_true] at he
        have := (pollLoop_pending evs _ d hd).2 e he hp
        rw [hfd] at this
        exact ⟨d, .inl this⟩
      · simp only [if_neg hx] at he
        exact ⟨d, .inr ⟨x, e, he, hfd, hp⟩⟩
  | call slot =>
    obtain ⟨e, rest, hb, h'⟩ := sysStep_call hs
    rcases h' with ⟨d, hd, rest', hp, rfl, hr⟩ | rfl
    · have hkeep : ∀ fd hd', Keeps (s.called slot e.eih_fd hd rest') fd hd' → Keeps s fd hd' := by
        rintro fd hd' ⟨d', hp' | hk⟩
        · exact ⟨d', .inl hp'⟩
        · exact keeps_of_rest hb hr rfl hk
      refine ⟨fun fd hd' hk => h.kept fd hd' (hkeep fd hd' hk), fun c hc => ?_,
        fun x t ht => Nat.lt_succ_of_lt (h.past x t ht), h.kernel⟩
      rcases List.mem_append.1 hc with hc | hc
      · exact h.calls c hc
      · obtain rfl := List.mem_singleton.1 hc
        exact h.kept e.eih_fd hd ⟨d, .inr ⟨slot, e, by rw [hb]; simp, rfl, hp⟩⟩
    · refine h.mono (fun fd hd hk => ?_) rfl rfl rfl rfl
      obtain ⟨d, hp | hk⟩ := hk
      · exact ⟨d, .inl hp⟩
      · exact keeps_of_rest hb (.inr rfl) rfl hk
  | close fd =>
    obtain ⟨comm, rfl⟩ := sysStep_close hs
    have hno := dropped_iff.1 (hc.close fd rfl)
    refine ⟨fun x hd hk => ?_, h.calls, fun x t ht => ?_, fun x t ht => ?_⟩
    · have hne : x ≠ fd := by
        rintro rfl
        exact hno hd hk
      obtain ⟨t, ht, hlt⟩ := h.kept x hd hk
      exact ⟨t, (if_neg hne).trans ht, hlt⟩
    · change (if x = fd then none else s.openedAt x) = some t at ht
      split_ifs at ht
      exact Nat.lt_succ_of_lt (h.past x t ht)
    · change (if x = fd then none else s.openedAt x) = some t at ht
      change (decide (x ≠ fd) && s.io.kernel.isOpen x) = true
      split_ifs at ht with hx
      rw [decide_eq_true hx, Bool.true_and]
      exact h.kernel x t ht

theorem dropped_close (hs : sysStep s (.close fd) = some s') : Dropped fd s' ↔ Dropped fd s := by
  obtain ⟨comm, rfl⟩ := sysStep_close hs
  exact ⟨fun ⟨h1, h2⟩ => ⟨h1, h2⟩, fun ⟨h1, h2⟩ => ⟨h1, h2⟩⟩

end Step

theorem booted_allFresh (comm : Comm) : AllFresh (booted comm) := by
  refine ⟨fun fd h hk => ?_, fun c hc => absurd hc (by simp [booted]), fun fd t ht => ?_,
    fun fd t ht => ?_⟩
  · obtain ⟨d, hp | ⟨slot, e, he, -⟩⟩ := hk
    · cases d <;> exact absurd hp (by simp [booted, EventIoHandler.pending])
    · exact absurd he (by simp [booted])
  · exact absurd ht (by simp [booted])
  · exact absurd ht (by simp [booted])

/-- For every run of the process, whatever the table of descriptors holds at its start: no
call is stale and closing drops every handler as long as descriptors are posted on while they are
open and closed when nothing is posted on them; and the latter closing is needed. -/
theorem noStale_run (comm : Comm) (as : List Act) :
    (EachStep sysStep (fun s a _ => Settled s a) (booted comm) as → NoStale (booted comm) as) ∧
    (NoStale (booted comm) as →
      EachStep sysStep (fun s a _ => ∀ fd, a = .close fd → Dropped fd s) (booted comm) as) := by
  constructor
  · intro hc
    have hinv := always_of_invariant sysStep (booted_allFresh comm)
      (fun s a s' hi hcond hs => AllFresh.step hi hcond hs) hc
    refine ⟨hinv.mono fun s h => h.calls, fun pre a hpre s s' hs ha fd hfd => ?_⟩
    subst hfd
    exact (dropped_close ha).2 ((hc pre _ hpre s s' hs ha).close fd rfl)
  · rintro ⟨-, hd⟩ pre a hpre s s' hs ha fd rfl
    exact (dropped_close ha).1 (hd pre _ hpre s s' hs ha fd rfl)

/-- A reader is called for the bytes that have come, and then the connection is closed. -/
theorem noStale_run_reader : NoStale (booted (zeroTable 8)) [.open PLM_COMM_TCP 5,
    .post .read (.threadLocal 1) 5 1 11 false, .poll 1 (.threadLocal 1) [(5, EPOLLIN)], .call 1,
    .call 1, .close 5] := by
  refine (noStale_run (zeroTable 8) _).1 ?_
  have hother : ∀ {s a}, (∀ flag t fd fn data refuse, a ≠ .post flag t fd fn data refuse) →
    (∀ fd, a ≠ .close fd) →
      Settled s a := fun hp hc => ⟨fun _ _ _ _ _ _ ha => absurd ha (hp _ _ _ _ _ _),
        fun _ ha => absurd ha (hc _)⟩
  refine (eachStep_cons sysStep).2 fun s hs => ⟨hother nofun nofun, ?_⟩
  cases hs
  refine (eachStep_cons sysStep).2 fun s hs => ⟨⟨?_, nofun⟩, ?_⟩
  · intro flag t fd fn data refuse ha
    cases ha
    exact nofun
  cases hs
  refine (eachStep_cons sysStep).2 fun s hs => ⟨hother nofun nofun, ?_⟩
  cases hs
  refine (eachStep_cons sysStep).2 fun s hs => ⟨hother nofun nofun, ?_⟩
  cases hs
  refine (eachStep_cons sysStep).2 fun s hs => ⟨hother nofun nofun, ?_⟩
  cases hs
  refine (eachStep_cons sysStep).2 fun s hs => ⟨⟨nofun, ?_⟩, eachStep_nil _ _ _⟩
  intro fd ha
  cases ha
  refine ⟨fun d => ?_, fun slot e he hfd d => ?_⟩
  · cases d <;> rfl
  · rcases eq_or_ne slot 1 with rfl | hslot
    · cases he
    · simp [hslot, Sys.called, Sys.opened, booted] at he

/-- A hang-up delivers the reader and the writer of a connection in one entry; the reader
closes the connection, and the writer is called behind that. -/
theorem noStale_false : ¬ NoStale (booted (zeroTable 8)) [.open PLM_COMM_TCP 5,
    .post .read (.threadLocal 1) 5 1 11 false, .post .write (.threadLocal 1) 5 2 22 false,
    .poll 1 (.threadLocal 1) [(5, EPOLLHUP)], .call 1, .close 5, .call 1] := by
  intro h
  obtain ⟨s, hs, hc⟩ : ∃ s, run sysStep (booted (zeroTable 8)) [.open PLM_COMM_TCP 5,
      .post .read (.threadLocal 1) 5 1 11 false, .post .write (.threadLocal 1) 5 2 22 false,
      .poll 1 (.threadLocal 1) [(5, EPOLLHUP)], .call 1, .close 5, .call 1] = some s ∧
      s.calls = [⟨5, ⟨1, 11, 1⟩, some 0⟩, ⟨5, ⟨2, 22, 2⟩, none⟩] := ⟨_, rfl, rfl⟩
  obtain ⟨t, ht, -⟩ := h.calls _ (List.prefix_refl _) s hs ⟨5, ⟨2, 22, 2⟩, none⟩ (by rw [hc]; simp)
  exact absurd ht (by simp)

end Plume
