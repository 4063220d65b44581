import Plume.Dispatch

/-! Whether the kernel waits for what the handlers wait for. `plm_epoll_io_ctl` sets the
whole mask of a descriptor from the one direction that is posted, so a post silences the
other direction. -/

namespace Plume
open CLib

/-- The epoll instance `p` waits for the event `bit` of `fd`. -/
def Awaits (s : Sys) (p : Poller) (fd : ℕ) (bit : Mask) : Prop :=
  ∃ m, s.io.kernel.interest p fd = some m ∧ m &&& bit ≠ 0

/-- Every handler of `fd` that is posted and not delivered is waited for in the kernel. -/
structure Interested (p : Poller) (fd : ℕ) (s : Sys) : Prop where
  read : (s.io.ei_events_arr fd).eih_onread ≠ none → Awaits s p fd EPOLLIN
  write : (s.io.ei_events_arr fd).eih_onwrite ≠ none → Awaits s p fd EPOLLOUT

structure Unposted (fd : ℕ) (s : Sys) : Prop where
  read : (s.io.ei_events_arr fd).eih_onread = none
  write : (s.io.ei_events_arr fd).eih_onwrite = none
  interest : ∀ p, s.io.kernel.interest p fd = none

/-- The step leaves `fd` open, and a post on it is made on `p` and succeeds. -/
def PostsSucceed (p : Poller) (fd : ℕ) (s : Sys) : Act → Sys → Prop
  | .open _ x, _ => x ≠ fd
  | .accept _ x, _ => x ≠ fd
  | .close x, _ => x ≠ fd
  | .post flag t x fn data refuse, _ => x = fd → t = p ∧
      ∃ io, eventIoPost flag t x ⟨fn, data, s.now⟩ refuse s.io = .ok (false, io)
  | _, _ => True

def OtherUnposted (fd : ℕ) (s : Sys) : Act → Sys → Prop
  | .post .read _ x _ _ _, _ => x = fd → (s.io.ei_events_arr fd).eih_onwrite = none
  | .post .write _ x _ _ _, _ => x = fd → (s.io.ei_events_arr fd).eih_onread = none
  | _, _ => True

/-- The invariant: one direction at a time, and the mask is the one set for it. -/
structure OneDirection (p : Poller) (fd : ℕ) (s : Sys) : Prop where
  one : (s.io.ei_events_arr fd).eih_onread = none ∨ (s.io.ei_events_arr fd).eih_onwrite = none
  read : (s.io.ei_events_arr fd).eih_onread ≠ none →
    s.io.kernel.interest p fd = some (eventsOf .read)
  write : (s.io.ei_events_arr fd).eih_onwrite ≠ none →
    s.io.kernel.interest p fd = some (eventsOf .write)
  elsewhere : ∀ q, q ≠ p → s.io.kernel.interest q fd = none

section Step

variable {p : Poller} {fd : ℕ} {s s' : Sys} {a : Act}

theorem OneDirection.interested (h : OneDirection p fd s) : Interested p fd s :=
  ⟨fun hr => ⟨_, h.read hr, by decide⟩, fun hw => ⟨_, h.write hw, by decide⟩⟩

theorem Unposted.oneDirection (h : Unposted fd s) (p : Poller) : OneDirection p fd s :=
  ⟨.inl h.read, fun hr => absurd h.read hr, fun hw => absurd h.write hw, fun q _ => h.interest q⟩

/-- The invariant only looks at the handlers and the masks of the descriptor. -/
theorem OneDirection.congr (h : OneDirection p fd s)
    (harr : s'.io.ei_events_arr fd = s.io.ei_events_arr fd)
    (hint : ∀ q, s'.io.kernel.interest q fd =
      s.io.kernel.interest q fd) : OneDirection p fd s' := by
  refine ⟨?_, ?_, ?_, fun q hq => (hint q).trans (h.elsewhere q hq)⟩
  · rw [harr]; exact h.one
  · rw [harr, hint]; exact h.read
  · rw [harr, hint]; exact h.write

theorem and_of_and_not {x m : Mask} (h : x &&& ~~~m = 0) : x &&& m = x := by
  apply BitVec.eq_of_getLsbD_eq
  intro i hi
  have hb := congrArg (BitVec.getLsbD · i) h
  simp only [BitVec.getLsbD_and, BitVec.getLsbD_not, hi, decide_true, Bool.true_and,
    show BitVec.getLsbD (0 : Mask) i = false from BitVec.getLsbD_zero] at hb
  rw [BitVec.getLsbD_and]
  cases hx : x.getLsbD i
  · rfl
  · rw [hx] at hb
    cases hm : m.getLsbD i
    · rw [hm] at hb; exact absurd hb (by decide)
    · rfl

/-- What may be reported to a reader is taken by its handler, errors and hang-ups included. -/
theorem report_read {ev : Mask} (h : mayReport (some (eventsOf .read)) ev = true) :
    ev &&& ~~~EPOLLOUT ≠ 0 := by
  unfold mayReport at h
  simp only [Bool.and_eq_true, bne_iff_ne, beq_iff_eq] at h
  have hev := and_of_and_not h.2
  rw [← hev, BitVec.and_assoc,
    show (awaited (eventsOf .read) ||| EPOLLERR ||| EPOLLHUP) &&& ~~~EPOLLOUT =
    awaited (eventsOf .read) ||| EPOLLERR ||| EPOLLHUP by decide, hev]
  exact h.1.2

theorem report_write {ev : Mask} (h : mayReport (some (eventsOf .write)) ev = true) :
    ev &&& ~~~EPOLLIN ≠ 0 := by
  unfold mayReport at h
  simp only [Bool.and_eq_true, bne_iff_ne, beq_iff_eq] at h
  have hev := and_of_and_not h.2
  rw [← hev, BitVec.and_assoc,
    show (awaited (eventsOf .write) ||| EPOLLERR ||| EPOLLHUP) &&& ~~~EPOLLIN =
    awaited (eventsOf .write) ||| EPOLLERR ||| EPOLLHUP by decide, hev]
  exact h.1.2

/-- A report on the descriptor delivers the handler there is. -/
theorem pollRound_delivers {ev : Mask} (h : OneDirection p fd s)
    (hm : mayReport (s.io.kernel.interest p fd) ev = true) :
    (pollRound fd ev (s.io.ei_events_arr fd)).2.eih_onread = none ∧
    (pollRound fd ev (s.io.ei_events_arr fd)).2.eih_onwrite = none := by
  unfold pollRound
  constructor
  · by_cases hr : (s.io.ei_events_arr fd).eih_onread = none
    · simp [hr]
    · rw [h.read hr] at hm
      have hne := report_read hm
      simp only [Option.isSome_iff_ne_none.2 hr, Bool.and_true, bne_iff_ne, ne_eq, hne,
        not_false_eq_true, if_true]
  · by_cases hw : (s.io.ei_events_arr fd).eih_onwrite = none
    · simp [hw]
    · rw [h.write hw] at hm
      have hne := report_write hm
      simp only [Option.isSome_iff_ne_none.2 hw, Bool.and_true, bne_iff_ne, ne_eq, hne,
        not_false_eq_true, if_true]

theorem OneDirection.step (h : OneDirection p fd s)
    (hc : PostsSucceed p fd s a s' ∧ OtherUnposted fd s a s') (hs : sysStep s a = some s') :
    OneDirection p fd s' := by
  obtain ⟨hok, hother⟩ := hc
  cases a with
  | «open» type x =>
    obtain ⟨-, comm, rfl⟩ := sysStep_open hs
    exact h.congr rfl fun _ => rfl
  | accept l x =>
    obtain ⟨-, comm, rfl⟩ := sysStep_accept hs
    exact h.congr rfl fun _ => rfl
  | post flag t x fn data refuse =>
    obtain ⟨err, io, hpost, rfl⟩ := sysStep_post hs
    obtain ⟨harr, -, hint⟩ := eventIoPost_ok hpost
    by_cases hx : x = fd
    · subst hx
      obtain ⟨rfl, io', hio⟩ := hok rfl
      obtain ⟨rfl, rfl⟩ := Prod.mk.inj (Except.ok.inj (hpost.symm.trans hio))
      have hset : io.kernel.interest t x = some (eventsOf flag) := by
        rw [hint, if_pos ⟨rfl, rfl, rfl⟩]
      have helse : ∀ q, q ≠ t → io.kernel.interest q x = none := by
        intro q hq
        rw [hint, if_neg (fun h => hq h.2.1)]
        exact h.elsewhere q hq
      have hentry := harr x
      rw [if_pos rfl] at hentry
      cases flag with
      | read =>
        have hw : (io.ei_events_arr x).eih_onwrite = none := by rw [hentry]; exact hother rfl
        exact ⟨.inr hw, fun _ => hset, fun hne => absurd hw hne, helse⟩
      | write =>
        have hr : (io.ei_events_arr x).eih_onread = none := by rw [hentry]; exact hother rfl
        exact ⟨.inl hr, fun hne => absurd hr hne, fun _ => hset, helse⟩
    · refine h.congr ?_ fun q => ?_
      · exact (harr fd).trans (if_neg (Ne.symm hx))
      · exact (hint q fd).trans (if_neg fun h => hx h.2.2.symm)
  | poll slot t evs =>
    obtain ⟨k, hk, rfl⟩ := sysStep_poll hs
    obtain ⟨hnd, hmay, -, hint⟩ := epollWait_eq hk
    by_cases hmem : fd ∈ evs.map Prod.fst
    · obtain ⟨⟨x, ev⟩, hev, rfl⟩ := List.mem_map.1 hmem
      have hm := hmay _ hev
      obtain rfl : t = p := by
        by_contra hne
        rw [h.elsewhere t hne] at hm
        exact absurd hm (by simp [mayReport])
      obtain ⟨hr, hw⟩ := pollRound_delivers h hm
      have hentry := pollLoop_of_mem s.io.ei_events_arr hnd hev
      rw [← hentry] at hr hw
      refine ⟨.inl hr, fun hne => absurd hr hne, fun hne => absurd hw hne, fun q hq => ?_⟩
      refine (hint q x).trans ?_
      rw [if_neg (fun h => hq h.1)]
      exact h.elsewhere q hq
    · refine h.congr (pollLoop_of_not_mem hmem) fun q => ?_
      exact (hint q fd).trans (if_neg fun h => hmem h.2)
  | call slot =>
    obtain ⟨e, rest, -, h'⟩ := sysStep_call hs
    rcases h' with ⟨d, hd, rest', -, rfl, -⟩ | rfl
    · exact h.congr rfl fun _ => rfl
    · exact h.congr rfl fun _ => rfl
  | close x =>
    obtain ⟨comm, rfl⟩ := sysStep_close hs
    exact h.congr rfl fun q => if_neg (Ne.symm hok)

/-- A post over a handler of the other direction takes its event out of the mask. -/
theorem otherUnposted_of_interested (hok : PostsSucceed p fd s a s') (hs : sysStep s a = some s')
    (h' : Interested p fd s') : OtherUnposted fd s a s' := by
  cases a with
  | post flag t x fn data refuse =>
    obtain ⟨err, io, hpost, rfl⟩ := sysStep_post hs
    obtain ⟨harr, -, hint⟩ := eventIoPost_ok hpost
    have hset : x = fd → io.kernel.interest p x = some (eventsOf flag) := by
      intro hx
      obtain ⟨rfl, io', hio⟩ := hok hx
      obtain ⟨rfl, rfl⟩ := Prod.mk.inj (Except.ok.inj (hpost.symm.trans hio))
      rw [hint, if_pos ⟨rfl, rfl, rfl⟩]
    cases flag with
    | read =>
      rintro rfl
      have hentry := (harr x).trans (if_pos rfl)
      by_contra hne
      obtain ⟨m, hm, hbit⟩ := h'.write (by rw [hentry]; exact hne)
      obtain rfl := Option.some.inj (hm.symm.trans (hset rfl))
      exact hbit (by decide)
    | write =>
      rintro rfl
      have hentry := (harr x).trans (if_pos rfl)
      by_contra hne
      obtain ⟨m, hm, hbit⟩ := h'.read (by rw [hentry]; exact hne)
      obtain rfl := Option.some.inj (hm.symm.trans (hset rfl))
      exact hbit (by decide)
  | _ => trivial

end Step

/-- For every run from a descriptor without posts on, posts on it succeeding on one
instance: no interest is lost in any state just when no post finds a handler of the other
direction waiting. -/
theorem interested_iff {p : Poller} {fd : ℕ} {s : Sys} {as : List Act} (h0 : Unposted fd s)
    (hp : EachStep sysStep (PostsSucceed p fd) s as) :
    Always sysStep (Interested p fd) s as ↔ EachStep sysStep (OtherUnposted fd) s as := by
  constructor
  · intro h
    exact eachStep_of_always sysStep h hp fun s a s' _ hok hs h' =>
      otherUnposted_of_interested hok hs h'
  · intro h
    exact (always_of_invariant sysStep (h0.oneDirection p) (fun s a s' hi hc hs => hi.step hc hs)
      (hp.and h)).mono fun s hs => hs.interested

/-- A connection on which a read is posted, delivered and posted again. -/
theorem interested_reader :
    ∃ s, run sysStep (booted (zeroTable 8)) [.open PLM_COMM_TCP 5] = some s ∧
    Always sysStep (Interested (.threadLocal 1) 5) s [.post .read (.threadLocal 1) 5 1 11 false,
      .poll 1 (.threadLocal 1) [(5, EPOLLIN)], .post .read (.threadLocal 1) 5 1 11 false] := by
  refine ⟨_, rfl, (interested_iff ⟨rfl, rfl, fun _ => rfl⟩ ?_).2 ?_⟩
  · refine (eachStep_cons _).2 fun s₁ h₁ => ⟨fun _ => ⟨rfl, _, rfl⟩, ?_⟩
    obtain rfl := Option.some.inj h₁
    refine (eachStep_cons _).2 fun s₂ h₂ => ⟨trivial, ?_⟩
    obtain rfl := Option.some.inj h₂
    exact (eachStep_cons _).2 fun s₃ h₃ => ⟨fun _ => ⟨rfl, _, rfl⟩, eachStep_nil _ _ _⟩
  · refine (eachStep_cons _).2 fun s₁ h₁ => ⟨fun _ => rfl, ?_⟩
    obtain rfl := Option.some.inj h₁
    refine (eachStep_cons _).2 fun s₂ h₂ => ⟨trivial, ?_⟩
    obtain rfl := Option.some.inj h₂
    exact (eachStep_cons _).2 fun s₃ h₃ => ⟨fun _ => rfl, eachStep_nil _ _ _⟩

/-- A reply is waiting to be written when the next read is posted. -/
theorem interested_false : ∃ s, run sysStep (booted (zeroTable 8)) [.open PLM_COMM_TCP 5] = some s ∧
    Unposted 5 s ∧ EachStep sysStep (PostsSucceed (.threadLocal 1) 5) s
      [.post .write (.threadLocal 1) 5 2 22 false, .post .read (.threadLocal 1) 5 1 11 false] ∧
    ¬ Always sysStep (Interested (.threadLocal 1) 5) s
      [.post .write (.threadLocal 1) 5 2 22 false, .post .read (.threadLocal 1) 5 1 11 false] := by
  refine ⟨_, rfl, ⟨rfl, rfl, fun _ => rfl⟩, ?_, fun h => ?_⟩
  · refine (eachStep_cons _).2 fun s₁ h₁ => ⟨fun _ => ⟨rfl, _, rfl⟩, ?_⟩
    obtain rfl := Option.some.inj h₁
    exact (eachStep_cons _).2 fun s₂ h₂ => ⟨fun _ => ⟨rfl, _, rfl⟩, eachStep_nil _ _ _⟩
  · obtain ⟨m, hm, hbit⟩ := (h _ (List.prefix_refl _) _ rfl).write (by simp [EventIoHandler.store])
    obtain rfl : eventsOf .read = m := Option.some.inj hm
    exact hbit (by decide)

end Plume
