import Plume.CLib.Places
import Plume.Dispatch

/-! What becomes of a handler: it waits in `ei_events_arr`, goes into the batch of one thread and is
called. In any order of the operations it is at one of these places at a time, so that it is
called once at most, and only a post that takes its place makes it disappear. -/

namespace Plume
open CLib

inductive Place
  | table (fd : ℕ) (d : Dir)
  | batch (slot i : ℕ) (d : Dir)
  | called (i : ℕ)
deriving DecidableEq, Repr

def EventIoHandler.handed (e : EventIoHandler) (d : Dir) : Option (ℕ × Handler) :=
  (e.pending d).map (Prod.mk e.eih_fd)

def Sys.at (s : Sys) : Place → Option (ℕ × Handler)
  | .table fd d => ((s.io.ei_events_arr fd).pending d).map (Prod.mk fd)
  | .batch slot i d => (s.batch slot)[i]?.bind fun e => e.handed d
  | .called i => s.calls[i]?.map fun c => (c.fd, c.handler)

/-- No handler is moved back into the table. -/
def Settles (move : Place → Place) : Prop := ∀ p fd d, move p = .table fd d → p = .table fd d

section Poll

variable {evs : List (ℕ × Mask)} {arr : ℕ → EventIoHandler}

/-- A round hands a handler out or leaves it waiting. -/
theorem pollRound_parts (fd : ℕ) (ev : Mask) (eih : EventIoHandler) (d : Dir) :
    ((pollRound fd ev eih).1.pending d = none ∧ (pollRound fd ev eih).2.pending d = eih.pending d) ∨
      ((pollRound fd ev eih).1.pending d = eih.pending d ∧
        (pollRound fd ev eih).2.pending d = none) := by
  unfold pollRound
  cases d <;> simp only [EventIoHandler.pending] <;> split_ifs <;> simp

/-- What a round hands out is handed out with its descriptor. -/
theorem pollRound_handed (fd : ℕ) (ev : Mask) (eih : EventIoHandler) (d : Dir) :
    (pollRound fd ev eih).1.handed d = ((pollRound fd ev eih).1.pending d).map (Prod.mk fd) := by
  unfold pollRound EventIoHandler.handed
  cases d <;> simp only [EventIoHandler.pending] <;> split_ifs <;> simp_all

theorem pollLoop_batch (hnd : (evs.map Prod.fst).Nodup) :
    (pollLoop evs arr).1 = evs.map fun e => (pollRound e.1 e.2 (arr e.1)).1 := by
  induction evs generalizing arr with
  | nil => rfl
  | cons e evs ih =>
    rw [List.map_cons, List.nodup_cons] at hnd
    change _ :: (pollLoop evs _).1 = _
    rw [List.map_cons, ih hnd.2]
    refine congrArg (List.cons _) (List.map_congr_left fun e' he' => ?_)
    rw [if_neg]
    intro heq
    exact hnd.1 (heq ▸ List.mem_map_of_mem he')

def pollMove (slot : ℕ) (evs : List (ℕ × Mask)) (arr : ℕ → EventIoHandler) : Place → Place
  | .table fd d =>
    let i := (evs.map Prod.fst).idxOf fd
    if ((pollLoop evs arr).1[i]?.bind fun e => e.pending d).isSome then .batch slot i d
      else .table fd d
  | p => p

theorem pollMove_settles (slot : ℕ) : Settles (pollMove slot evs arr) := by
  intro p fd d hp
  cases p with
  | table x e =>
    unfold pollMove at hp
    dsimp only at hp
    split_ifs at hp
    exact hp
  | batch | called => exact hp

variable {s s' : Sys} {slot : ℕ} {t : Poller}

theorem idxOf_event (hnd : (evs.map Prod.fst).Nodup) {i fd : ℕ} {ev : Mask}
    (h : evs[i]? = some (fd, ev)) :
    (evs.map Prod.fst).idxOf fd = i := by
  obtain ⟨hi, hev⟩ := List.getElem?_eq_some_iff.1 h
  have hlen : i < (evs.map Prod.fst).length := by simpa using hi
  have hget : (evs.map Prod.fst)[i] = fd := by simp [hev]
  rw [← hget]
  exact hnd.idxOf_getElem i hlen

theorem batch_event (hnd : (evs.map Prod.fst).Nodup) {i fd : ℕ} {ev : Mask}
    (h : evs[i]? = some (fd, ev)) :
    (pollLoop evs arr).1[i]? = some (pollRound fd ev (arr fd)).1 := by
  rw [pollLoop_batch hnd, List.getElem?_map, h]
  rfl

/-- A handler that waits is left waiting, or handed out with its event. -/
theorem poll_split (slot : ℕ) (hnd : (evs.map Prod.fst).Nodup) (fd : ℕ) (d : Dir) :
    (pollMove slot evs arr (.table fd d) = .table fd d ∧
      ((pollLoop evs arr).2 fd).pending d = (arr fd).pending d ∧
      ∀ (i : ℕ) (ev : Mask), evs[i]? = some (fd, ev) →
        (pollRound fd ev (arr fd)).1.pending d = none) ∨
    ∃ (i : ℕ) (ev : Mask), evs[i]? = some (fd, ev) ∧
      pollMove slot evs arr (.table fd d) = .batch slot i d ∧
      (pollRound fd ev (arr fd)).1.pending d = (arr fd).pending d ∧
      ((pollLoop evs arr).2 fd).pending d = none := by
  unfold pollMove
  dsimp only
  by_cases hmem : fd ∈ evs.map Prod.fst
  · obtain ⟨⟨x, ev⟩, he, hx⟩ := List.mem_map.1 hmem
    obtain rfl : x = fd := hx
    obtain ⟨i, hi⟩ := List.mem_iff_getElem?.1 he
    rw [idxOf_event hnd hi, batch_event hnd hi, Option.bind_some, pollLoop_of_mem _ hnd he]
    obtain ⟨h1, h2⟩ | ⟨h1, h2⟩ := pollRound_parts x ev (arr x) d
    · rw [h1, if_neg (by simp)]
      refine .inl ⟨rfl, h2, fun k ev' hk => ?_⟩
      have hev : ev' = ev := by
        have hki : k = i := (idxOf_event hnd hk).symm.trans (idxOf_event hnd hi)
        rw [hki, hi] at hk
        exact (Prod.mk.inj (Option.some.inj hk)).2.symm
      rw [hev, h1]
    · cases hp : (arr x).pending d with
      | none =>
        rw [h1, hp, if_neg (by simp)]
        refine .inl ⟨rfl, h2, fun k ev' _ => ?_⟩
        obtain ⟨h3, -⟩ | ⟨h3, -⟩ := pollRound_parts x ev' (arr x) d
        · exact h3
        · rw [h3, hp]
      | some h =>
        rw [h1, hp, if_pos (show (some h).isSome = true from rfl)]
        exact .inr ⟨i, ev, hi, rfl, h1.trans hp, h2⟩
  · have hlen : (pollLoop evs arr).1.length ≤ (evs.map Prod.fst).idxOf fd := by
      rw [pollLoop_batch hnd, List.length_map, List.idxOf_eq_length hmem, List.length_map]
    rw [List.getElem?_eq_none hlen, if_neg (by simp), pollLoop_of_not_mem hmem]
    exact .inl
      ⟨rfl, rfl, fun i ev hi => absurd (List.mem_map.2 ⟨_, List.mem_of_getElem? hi, rfl⟩) hmem⟩

theorem poll_carries (hb : s.batch slot = []) (hnd : (evs.map Prod.fst).Nodup)
    (htable : s'.io.ei_events_arr = (pollLoop evs s.io.ei_events_arr).2)
    (hbatch : s'.batch = fun x => if x =
      slot then (pollLoop evs s.io.ei_events_arr).1 else s.batch x)
    (hcalls : s'.calls = s.calls) : Carries (pollMove slot evs s.io.ei_events_arr) s.at s'.at := by
  have hself : s'.batch slot = (pollLoop evs s.io.ei_events_arr).1 := by
    rw [hbatch]
    exact if_pos rfl
  have hother : ∀ x, x ≠ slot → s'.batch x = s.batch x := by
    intro x hx
    rw [hbatch]
    exact if_neg hx
  have hevent : ∀ i fd ev d, evs[i]? = some (fd, ev) →
      s'.at (.batch slot i d) = ((pollRound fd ev (s.io.ei_events_arr fd)).1.pending d).map
        (Prod.mk fd) := by
    intro i fd ev d hi
    rw [Sys.at, hself, batch_event hnd hi, Option.bind_some, pollRound_handed]
  constructor
  · intro p h hp
    cases p with
    | table fd d =>
      have hp : ((s.io.ei_events_arr fd).pending d).map (Prod.mk fd) = some h := hp
      obtain ⟨hmove, hkept, -⟩ | ⟨i, ev, hi, hmove, htaken, -⟩ := poll_split slot hnd fd d
      · rw [hmove, Sys.at, htable, hkept, hp]
      · rw [hmove, hevent i fd ev d hi, htaken, hp]
    | batch x i d =>
      have hx : x ≠ slot := by
        rintro rfl
        simp [Sys.at, hb] at hp
      change s'.at (.batch x i d) = some h
      rw [Sys.at, hother x hx]
      exact hp
    | called i =>
      change s'.at (.called i) = some h
      rw [Sys.at, hcalls]
      exact hp
  · intro p h hp
    cases p with
    | table fd d =>
      rw [Sys.at, htable] at hp
      obtain ⟨hmove, hkept, -⟩ | ⟨i, ev, hi, hmove, -, hgone⟩ := poll_split slot hnd fd d
      · rw [hkept] at hp
        exact ⟨.table fd d, hp, hmove⟩
      · rw [hgone] at hp
        cases hp
    | batch x i d =>
      rcases eq_or_ne x slot with rfl | hx
      · cases hi : evs[i]? with
        | none =>
          have hlen : (pollLoop evs s.io.ei_events_arr).1.length ≤ i := by
            rw [pollLoop_batch hnd, List.length_map]
            exact List.getElem?_eq_none_iff.1 hi
          rw [Sys.at, hself, List.getElem?_eq_none hlen] at hp
          cases hp
        | some e =>
          obtain ⟨fd, ev⟩ := e
          rw [hevent i fd ev d hi] at hp
          obtain ⟨-, -, hnone⟩ | ⟨k, ev', hk, hmove, htaken, -⟩ := poll_split x hnd fd d
          · rw [hnone i ev hi] at hp
            cases hp
          · have hki : k = i := (idxOf_event hnd hk).symm.trans (idxOf_event hnd hi)
            subst hki
            rw [hi] at hk
            obtain ⟨-, rfl⟩ := Prod.mk.inj (Option.some.inj hk)
            rw [htaken] at hp
            exact ⟨.table fd d, hp, hmove⟩
      · refine ⟨.batch x i d, ?_, rfl⟩
        rw [Sys.at, hother x hx] at hp
        exact hp
    | called i =>
      refine ⟨.called i, ?_, rfl⟩
      rw [Sys.at, hcalls] at hp
      exact hp

end Poll

section Call

variable {s s' : Sys} {slot : ℕ}

inductive CallsNext (slot : ℕ) (s : Sys) : Sys → Prop
  | read {e : EventIoHandler} {rest : List EventIoHandler} {h : Handler} : s.batch slot = e ::
    rest →
    e.eih_onread = some h →
      CallsNext slot s (s.called slot e.eih_fd h ({ e with eih_onread := none } :: rest))
  | write {e : EventIoHandler} {rest : List EventIoHandler} {h : Handler} : s.batch slot = e ::
    rest →
    e.eih_onread = none → e.eih_onwrite = some h → CallsNext slot s (s.called slot e.eih_fd h rest)
  | pass {e : EventIoHandler} {rest : List EventIoHandler} : s.batch slot = e :: rest →
    e.eih_onread = none → e.eih_onwrite = none →
    CallsNext slot s { s with batch := fun t => if t =
      slot then rest else s.batch t, now := s.now + 1 }

theorem nextCall_cases (h : nextCall s slot = some s') : CallsNext slot s s' := by
  unfold nextCall at h
  cases hb : s.batch slot with
  | nil =>
    rw [hb] at h
    cases h
  | cons e rest =>
    rw [hb] at h
    cases hr : e.eih_onread with
    | some hd =>
      simp only [hr] at h
      cases h
      exact .read hb hr
    | none =>
      cases hw : e.eih_onwrite with
      | some hd =>
        simp only [hr, hw] at h
        cases h
        exact .write hb hr hw
      | none =>
        simp only [hr, hw] at h
        cases h
        exact .pass hb hr hw

def dropMove (slot n : ℕ) : Place → Place
  | .batch x 0 d => if x = slot then .called n else .batch x 0 d
  | .batch x (i + 1) d => if x = slot then .batch x i d else .batch x (i + 1) d
  | p => p

def readMove (slot n : ℕ) : Place → Place
  | .batch x 0 .read => if x = slot then .called n else .batch x 0 .read
  | p => p

theorem dropMove_settles (slot n : ℕ) : Settles (dropMove slot n) := by
  intro p fd d hp
  cases p with
  | batch x i e =>
    rcases i with - | i
    all_goals
      rw [dropMove] at hp
      split_ifs at hp
  | table | called => exact hp

theorem readMove_settles (slot n : ℕ) : Settles (readMove slot n) := by
  intro p fd d hp
  cases p with
  | batch x i e =>
    rcases i with - | i
    · cases e with
      | read =>
        rw [readMove] at hp
        split_ifs at hp
      | write => exact hp
    · exact hp
  | table | called => exact hp

theorem at_called {fd : ℕ} {h : Handler} {rest : List EventIoHandler} (i : ℕ) :
    (s.called slot fd h rest).at (.called i) = if i = s.calls.length then some (fd, h) else s.at
    (.called i) := by
  change ((s.calls ++ [_])[i]?).map _ = _
  rw [List.getElem?_append]
  split_ifs with h1 h2 h2
  · omega
  · rfl
  · rw [h2, Nat.sub_self]
    rfl
  · rw [Sys.at, List.getElem?_eq_none (by simp; omega), List.getElem?_eq_none (by omega)]

theorem at_calls_lt {i : ℕ} {h : ℕ × Handler} (hi : s.at (.called i) = some h) :
    i ≠ s.calls.length := by
  rintro rfl
  simp [Sys.at] at hi

theorem at_batch {fd : ℕ} {h : Handler} {rest : List EventIoHandler} (x i : ℕ) (d : Dir) :
    (s.called slot fd h rest).at (.batch x i d) =
      if x = slot then rest[i]?.bind (fun e => e.handed d) else s.at (.batch x i d) := by
  change ((if x = slot then rest else s.batch x)[i]?).bind _ = _
  split_ifs <;> rfl

theorem handed_read {e : EventIoHandler} {h : Handler} (hr : e.eih_onread = some h) :
    e.handed .read = some (e.eih_fd, h) := by
  rw [EventIoHandler.handed, EventIoHandler.pending, hr]
  rfl

theorem handed_write {e : EventIoHandler} {h : Handler} (hw : e.eih_onwrite = some h) :
    e.handed .write = some (e.eih_fd, h) := by
  rw [EventIoHandler.handed, EventIoHandler.pending, hw]
  rfl

theorem handed_none {e : EventIoHandler} {d : Dir} (h : e.pending d = none) :
    e.handed d = none := by
  rw [EventIoHandler.handed, h]
  rfl

theorem read_carries {e : EventIoHandler} {rest : List EventIoHandler} {h : Handler}
    (hb : s.batch slot = e :: rest)
    (hr : e.eih_onread = some h) : Carries (readMove slot s.calls.length) s.at
      (s.called slot e.eih_fd h ({ e with eih_onread := none } :: rest)).at := by
  have hold : ∀ i d, s.at (.batch slot i d) = (e :: rest)[i]?.bind fun e => e.handed d :=
    fun i d => by rw [Sys.at, hb]
  constructor
  · intro p g hp
    cases p with
    | table fd d => exact hp
    | called i =>
      change (s.called _ _ _ _).at (.called i) = some g
      rw [at_called, if_neg (at_calls_lt hp)]
      exact hp
    | batch x i d =>
      rcases eq_or_ne x slot with rfl | hx
      · rw [hold] at hp
        rcases i with - | i
        · cases d with
          | read =>
            rw [readMove, if_pos rfl, at_called, if_pos rfl]
            exact (handed_read hr).symm.trans hp
          | write =>
            change (s.called _ _ _ _).at (.batch x 0 .write) = some g
            rw [at_batch, if_pos rfl]
            exact hp
        · change (s.called _ _ _ _).at (.batch x (i + 1) d) = some g
          rw [at_batch, if_pos rfl]
          exact hp
      · have hmove : readMove slot s.calls.length (.batch x i d) = .batch x i d := by
          rcases i with - | i
          · cases d with
            | read => exact if_neg hx
            | write => rfl
          · rfl
        rw [hmove, at_batch, if_neg hx, hp]
  · intro p g hp
    cases p with
    | table fd d => exact ⟨.table fd d, hp, rfl⟩
    | called i =>
      rw [at_called] at hp
      split_ifs at hp with hi
      · refine ⟨.batch slot 0 .read, ?_, ?_⟩
        · rw [hold]
          exact (handed_read hr).trans hp
        · rw [readMove, if_pos rfl, hi]
      · exact ⟨.called i, hp, rfl⟩
    | batch x i d =>
      rw [at_batch] at hp
      split_ifs at hp with hx
      · subst hx
        rcases i with - | i
        · cases d with
          | read => cases hp
          | write => exact ⟨.batch x 0 .write, (hold 0 .write).trans hp, rfl⟩
        · exact ⟨.batch x (i + 1) d, (hold (i + 1) d).trans hp, rfl⟩
      · refine ⟨.batch x i d, hp, ?_⟩
        rcases i with - | i
        · cases d with
          | read => exact if_neg hx
          | write => rfl
        · rfl

/-- The first entry of a batch is dropped, `called` saying which handler of it is called. -/
theorem drop_carries {e : EventIoHandler} {rest : List EventIoHandler}
    (hb : s.batch slot = e :: rest)
    (hr : e.eih_onread = none) (htable : ∀ fd d, s'.at (.table fd d) = s.at (.table fd d))
    (hbatch : ∀ x i d, s'.at (.batch x i d) = if x =
      slot then rest[i]?.bind (fun e => e.handed d) else s.at (.batch x i d))
    (hcalled : ∀ i, s'.at (.called i) = if i =
      s.calls.length then e.handed .write else s.at (.called i)) :
    Carries (dropMove slot s.calls.length) s.at s'.at := by
  have hold : ∀ i d, s.at (.batch slot i d) = (e :: rest)[i]?.bind fun e => e.handed d :=
    fun i d => by rw [Sys.at, hb]
  constructor
  · intro p g hp
    cases p with
    | table fd d => exact (htable fd d).trans hp
    | called i =>
      change s'.at (.called i) = some g
      rw [hcalled, if_neg (at_calls_lt hp)]
      exact hp
    | batch x i d =>
      rcases eq_or_ne x slot with rfl | hx
      · rw [hold] at hp
        rcases i with - | i
        · rw [dropMove, if_pos rfl, hcalled, if_pos rfl]
          cases d with
          | read => cases (handed_none (d := .read) hr).symm.trans hp
          | write => exact hp
        · rw [dropMove, if_pos rfl, hbatch, if_pos rfl]
          exact hp
      · have hmove : dropMove slot s.calls.length (.batch x i d) = .batch x i d := by
          rcases i with - | i <;> exact if_neg hx
        rw [hmove, hbatch, if_neg hx, hp]
  · intro p g hp
    cases p with
    | table fd d => exact ⟨.table fd d, (htable fd d).symm.trans hp, rfl⟩
    | called i =>
      rw [hcalled] at hp
      split_ifs at hp with hi
      · refine ⟨.batch slot 0 .write, ?_, ?_⟩
        · rw [hold]
          exact hp
        · rw [dropMove, if_pos rfl, hi]
      · exact ⟨.called i, hp, rfl⟩
    | batch x i d =>
      rw [hbatch] at hp
      split_ifs at hp with hx
      · subst hx
        exact ⟨.batch x (i + 1) d, (hold (i + 1) d).trans hp, if_pos rfl⟩
      · refine ⟨.batch x i d, hp, ?_⟩
        rcases i with - | i <;> exact if_neg hx

theorem calls_carries (h : CallsNext slot s s') :
    ∃ move, Settles move ∧ Carries move s.at s'.at := by
  cases h with
  | read hb hr => exact ⟨_, readMove_settles _ _, read_carries hb hr⟩
  | write hb hr hw =>
    refine ⟨_, dropMove_settles _ _,
      drop_carries hb hr (fun _ _ => rfl) (fun x i d => at_batch x i d) fun i => ?_⟩
    rw [at_called, handed_write hw]
  | pass hb hr hw =>
    refine
      ⟨_, dropMove_settles _ _, drop_carries hb hr (fun _ _ => rfl) (fun x i d => ?_) fun i => ?_⟩
    · change ((if x = slot then _ else s.batch x)[i]?).bind _ = _
      split_ifs <;> rfl
    · rw [handed_none (d := .write) hw]
      split_ifs with hi
      · rw [hi]
        simp [Sys.at]
      · rfl

end Call

section Run

variable {s s' : Sys} {a : Act}

theorem post_at {flag : Dir} {t : Poller} {fd fn data : ℕ} {refuse : Bool}
    (h : sysStep s (.post flag t fd fn data refuse) = some s') :
    s'.at (.table fd flag) = some (fd, ⟨fn, data, s.now⟩) ∧ ∀ p, p ≠ .table fd flag →
      s'.at p = s.at p := by
  obtain ⟨err, io, hpost, rfl⟩ := sysStep_post h
  have harr := (eventIoPost_ok hpost).1
  refine ⟨?_, fun p hp => ?_⟩
  · rw [Sys.at, harr, if_pos rfl]
    cases flag <;> rfl
  · cases p with
    | table x d =>
      rw [Sys.at, harr]
      split_ifs with hx
      · subst hx
        have hd : d ≠ flag := fun hd => hp (by rw [hd])
        rw [Sys.at]
        cases flag <;> cases d <;> first | rfl | exact absurd rfl hd
      · rfl
    | _ => rfl

theorem sysStep_now (h : sysStep s a = some s') : s'.now = s.now + 1 := by
  cases a with
  | «open» type fd =>
    obtain ⟨-, comm, rfl⟩ := sysStep_open h
    rfl
  | accept fd cfd =>
    obtain ⟨-, comm, rfl⟩ := sysStep_accept h
    rfl
  | post flag t fd fn data refuse =>
    obtain ⟨err, io, -, rfl⟩ := sysStep_post h
    rfl
  | poll slot t evs =>
    obtain ⟨k, -, rfl⟩ := sysStep_poll h
    rfl
  | call slot =>
    have hc : CallsNext slot s s' := nextCall_cases h
    cases hc <;> rfl
  | close fd =>
    obtain ⟨comm, rfl⟩ := sysStep_close h
    rfl

theorem sysStep_carries (h : sysStep s a = some s')
    (hpost : ∀ flag t fd fn data refuse, a ≠ .post flag t fd fn data refuse) :
    ∃ move, Settles move ∧ Carries move s.at s'.at := by
  have hsame : (∀ p, s'.at p = s.at p) → ∃ move, Settles move ∧ Carries move s.at s'.at :=
    fun hat => ⟨id, fun _ _ _ hp => hp, .same hat⟩
  cases a with
  | «open» type fd =>
    obtain ⟨-, comm, rfl⟩ := sysStep_open h
    exact hsame fun p => by cases p <;> rfl
  | accept fd cfd =>
    obtain ⟨-, comm, rfl⟩ := sysStep_accept h
    exact hsame fun p => by cases p <;> rfl
  | post flag t fd fn data refuse => exact absurd rfl (hpost flag t fd fn data refuse)
  | poll slot t evs =>
    have hb : s.batch slot = [] := by
      by_contra hne
      simp [sysStep, hne] at h
    obtain ⟨k, hk, rfl⟩ := sysStep_poll h
    exact ⟨_, pollMove_settles slot, poll_carries hb (epollWait_eq hk).1 rfl rfl rfl⟩
  | call slot => exact calls_carries (nextCall_cases h)
  | close fd =>
    obtain ⟨comm, rfl⟩ := sysStep_close h
    exact hsame fun p => by cases p <;> rfl

/-- The moment a handler was posted at, which tells it from all others. -/
def stamp (x : ℕ × Handler) : ℕ := x.2.posted

/-- The `i`th operation posted the handler, for the descriptor it is kept with. -/
def PostedBy (as : List Act) (x : ℕ × Handler) : Prop :=
  ∃ flag t refuse, as[stamp x]? = some (.post flag t x.1 x.2.fn x.2.data refuse)

theorem PostedBy.snoc {as : List Act} {x : ℕ × Handler} (h : PostedBy as x) (a : Act) :
    PostedBy (as ++ [a]) x := by
  obtain ⟨flag, t, refuse, hx⟩ := h
  have hlt : stamp x < as.length := (List.getElem?_eq_some_iff.1 hx).1
  exact ⟨flag, t, refuse, (List.getElem?_append_left hlt).trans hx⟩

structure Booked (as : List Act) (s : Sys) : Prop where
  now : s.now = as.length
  once : Once stamp s.at
  posted : Each (PostedBy as) s.at

theorem Booked.step {as : List Act} (h : Booked as s) (hs : sysStep s a = some s') :
    Booked (as ++ [a]) s' := by
  have hnow : s'.now = (as ++ [a]).length := by
    rw [sysStep_now hs, h.now, List.length_append, List.length_singleton]
  have hposted : Each (PostedBy (as ++ [a])) s.at := h.posted.mono fun x hx => hx.snoc a
  by_cases hpost : ∃ flag t fd fn data refuse, a = .post flag t fd fn data refuse
  · obtain ⟨flag, t, fd, fn, data, refuse, rfl⟩ := hpost
    obtain ⟨hself, hother⟩ := post_at hs
    refine ⟨hnow, h.once.put hself hother ?_, hposted.put hself hother ⟨flag, t, refuse, ?_⟩⟩
    · intro p x hp heq
      obtain ⟨_, _, _, hx⟩ := h.posted p x hp
      rw [heq] at hx
      have hlt : s.now < as.length := (List.getElem?_eq_some_iff.1 hx).1
      have hlen := h.now
      omega
    · change (as ++ [_])[s.now]? = _
      rw [h.now, List.getElem?_append_right (le_refl _), Nat.sub_self]
      rfl
  · push Not at hpost
    obtain ⟨move, -, hc⟩ := sysStep_carries hs hpost
    exact ⟨hnow, hc.once h.once, hc.each hposted⟩

/-- A handler is somewhere, in the table only where it was posted. -/
def Around (s : Sys) (fd : ℕ) (d : Dir) (x : ℕ × Handler) : Prop :=
  ∃ p, s.at p = some x ∧ ∀ y e, p = .table y e → y = fd ∧ e = d

theorem Around.step {fd : ℕ} {d : Dir} {x : ℕ × Handler} (ha : Around s fd d x)
    (hs : sysStep s a = some s')
    (hpost : ∀ t fn data refuse, a ≠ .post d t fd fn data refuse) : Around s' fd d x := by
  obtain ⟨p, hp, htable⟩ := ha
  by_cases hpa : ∃ flag t y fn data refuse, a = .post flag t y fn data refuse
  · obtain ⟨flag, t, y, fn, data, refuse, rfl⟩ := hpa
    refine ⟨p, ((post_at hs).2 p ?_).trans hp, htable⟩
    rintro rfl
    obtain ⟨rfl, rfl⟩ := htable _ _ rfl
    exact hpost t fn data refuse rfl
  · push Not at hpa
    obtain ⟨move, hsettles, hc⟩ := sysStep_carries hs hpa
    exact ⟨move p, hc.forth p x hp, fun y e hm => htable y e (hsettles p y e hm)⟩

theorem Around.run {fd : ℕ} {d : Dir} {x : ℕ × Handler} {as : List Act} (ha : Around s fd d x)
    (hs : CLib.run sysStep s as = some s')
    (hpost : ∀ t fn data refuse, .post d t fd fn data refuse ∉ as) :
    Around s' fd d x := by
  induction as generalizing s with
  | nil =>
    cases hs
    exact ha
  | cons a as ih =>
    rw [CLib.run, Option.bind_eq_some_iff] at hs
    obtain ⟨s₁, hs₁, hs⟩ := hs
    refine ih (ha.step hs₁ ?_) hs fun t fn data refuse hmem => hpost t fn data refuse
      (List.mem_cons_of_mem _ hmem)
    rintro t fn data refuse rfl
    exact hpost t fn data refuse List.mem_cons_self

end Run

end Plume
