import Plume.Dispatch
import Plume.Http.Request

/-! `plm_http_event_io.c`: a buffer written to a socket in as many activations as the socket
takes. The first is `plm_http_event_write` itself, the others come from the event layer, which
keeps the handler of the descriptor in its table between two of them. -/

namespace Plume.Http
open CLib

abbrev INT_MAX : ℕ := 2 ^ 31 - 1

/-- `struct plm_http_wrevt`, with functions and data by name. -/
structure WrEvt where
  hw_fn : ℕ
  hw_data : ℕ
  hw_buf : Bytes
  hw_off : ℕ
  hw_len : ℕ
deriving DecidableEq, Repr

structure WrDone where
  data : ℕ
  buf : Bytes
  n : ℕ
  state : ℤ
deriving DecidableEq, Repr

/-- What surrounds one activation: what its calls of `write` return, the `errno` from before
them, and whether the event layer refuses to post. -/
structure Attempt where
  rets : List (SysRet ℕ)
  errno : ℤ
  refuse : Bool
deriving DecidableEq, Repr

/-- A transfer: the `plm_http_wrevt` and its address, the entry of the descriptor in
`ei_events_arr`, the bytes the socket took and the calls of `hw_fn`. -/
structure Transfer where
  fd : ℕ
  addr : ℕ
  we : WrEvt
  eih : EventIoHandler
  wire : Bytes
  done : List WrDone
deriving DecidableEq, Repr

def httpEventWriteCbFn : ℕ := 0

namespace Transfer

def handler (t : Transfer) : Handler := ⟨httpEventWriteCbFn, t.addr, 0⟩

/-- `PLM_EVT_DRV_WRITE`, which exits when the event cannot be posted. -/
def rearm (refuse : Bool) (t : Transfer) : Option Transfer :=
  if refuse then none else some { t with eih := t.eih.store t.handler .write }

def finish (n : ℕ) (state : ℤ) (t : Transfer) : Transfer :=
  { t with done := t.done ++ [⟨t.we.hw_data, t.we.hw_buf, n, state⟩] }

def sent (off n : ℕ) (t : Transfer) : Transfer :=
  { t with we := { t.we with hw_off := t.we.hw_off + n }, wire := t.wire ++ slice t.we.hw_buf off n
    }

end Transfer

def commWrite (n : ℤ) (rets : List (SysRet ℕ)) : Option (SysRet ℕ) :=
  (commTry rets).filter fun
    | .value k => k ≤ n
    | .failed _ => true

/-- The text the two functions share; `off` is where they write from. The count goes
through an `int`. -/
def httpEventDrive (off : ℕ) (a : Attempt) (t : Transfer) : Option Transfer := do
  match ← commWrite (((t.we.hw_len : ℤ) - off).bmod (2 ^ 32)) a.rets with
  | .value n =>
    if n > 0 then
      let t := t.sent off n
      if t.we.hw_len > t.we.hw_off then t.rearm a.refuse
      else some (t.finish t.we.hw_len 0)
    else if commIgnore a.errno ≠ 0 then t.rearm a.refuse
    else some (t.finish t.we.hw_off (-1))
  | .failed errno =>
    if commIgnore errno ≠ 0 then t.rearm a.refuse
    else some (t.finish t.we.hw_off (-1))

def httpEventWriteCb (a : Attempt) (t : Transfer) : Option Transfer :=
  httpEventDrive t.we.hw_off a t

def httpEventWrite (a : Attempt) (t : Transfer) : Option Transfer := httpEventDrive 0 a t

inductive WrAct
  | write (a : Attempt)
  | ready (ev : Mask) (a : Attempt)
deriving DecidableEq, Repr

/-- One step of a transfer. An event reported for the descriptor takes the handler out of
the table before it is called. -/
def transferStep (t : Transfer) : WrAct → Option Transfer
  | .write a => httpEventWrite a t
  | .ready ev a =>
    let (entry, eih) := pollRound t.fd ev t.eih
    let t := { t with eih := eih }
    if entry.eih_onwrite = some t.handler then httpEventWriteCb a t else some t

def Activates (t : Transfer) : WrAct → Prop
  | .write _ => True
  | .ready ev _ => (pollRound t.fd ev t.eih).1.eih_onwrite = some t.handler

/-- The socket has the first `hw_off` bytes, in order, and `hw_fn` was called at most once,
with state 0 as soon as the socket has them all and not before. -/
structure Exact (w : WrEvt) (t : Transfer) : Prop where
  we : t.we = { w with hw_off := t.we.hw_off }
  wire : t.wire = w.hw_buf.take t.we.hw_off
  off : t.we.hw_off ≤ w.hw_len
  size : t.wire.length = t.we.hw_off
  once : t.done.length ≤ 1
  complete : (∃ d ∈ t.done, d.state = 0) ↔ t.we.hw_off = w.hw_len

/-- An activation either posts the write event again or calls `hw_fn`, and nothing else does. -/
def RearmsOrCalls (t : Transfer) (a : WrAct) (t' : Transfer) : Prop :=
  (Activates t a →
    (t'.eih.eih_onwrite = some t.handler ∧ t'.done = t.done) ∨
    (t'.eih.eih_onwrite = none ∧ ∃ d, t'.done = t.done ++ [d])) ∧
  (¬ Activates t a → t'.eih.eih_onwrite = t.eih.eih_onwrite ∧ t'.done = t.done)

section Drive

variable {w : WrEvt} {t t' : Transfer} {a : Attempt} {off : ℕ}

structure Sent (w : WrEvt) (t : Transfer) : Prop where
  we : t.we = { w with hw_off := t.we.hw_off }
  wire : t.wire = w.hw_buf.take t.we.hw_off

structure Waiting (w : WrEvt) (t : Transfer) : Prop extends Sent w t where
  off : t.we.hw_off < w.hw_len
  armed : t.eih.eih_onwrite = some t.handler
  done : t.done = []

structure Over (w : WrEvt) (t : Transfer) : Prop extends Sent w t where
  off : t.we.hw_off ≤ w.hw_len
  idle : t.eih.eih_onwrite = none
  done : ∃ d, t.done = [d] ∧ (d.state = 0 ↔ t.we.hw_off = w.hw_len)

theorem Sent.size (h : Sent w t) (hbuf : w.hw_buf.length = w.hw_len)
    (hle : t.we.hw_off ≤ w.hw_len) :
    t.wire.length = t.we.hw_off := by
  rw [h.wire, List.length_take, hbuf, min_eq_left hle]

theorem Waiting.exact (h : Waiting w t) (hbuf : w.hw_buf.length = w.hw_len) : Exact w t where
  we := h.we
  wire := h.wire
  off := h.off.le
  size := h.size hbuf h.off.le
  once := by simp [h.done]
  complete := by simp [h.done, h.off.ne]

theorem Over.exact (h : Over w t) (hbuf : w.hw_buf.length = w.hw_len) : Exact w t := by
  obtain ⟨d, hd, hs⟩ := h.done
  refine ⟨h.we, h.wire, h.off, h.size hbuf h.off, by simp [hd], ?_⟩
  rw [hd]
  simpa using hs

theorem Sent.sent {n : ℕ} (h : Sent w t) (hoff : t.we.hw_off = off) : Sent w (t.sent off n) := by
  obtain ⟨hwe, hwire⟩ := h
  refine ⟨by rw [Transfer.sent, hwe], ?_⟩
  have hbuf : t.we.hw_buf = w.hw_buf := by rw [hwe]
  simp only [Transfer.sent, hwire, hbuf, hoff, slice, List.take_add]

theorem bmod_of_le {n m : ℕ} (hmn : m ≤ n) (hn : n ≤ INT_MAX) :
    ((n : ℤ) - m).bmod (2 ^ 32) = (n - m : ℕ) := by
  rw [Int.bmod_eq_of_le (by omega) (by norm_num [INT_MAX] at hn; omega)]
  omega

/-- One activation, from the offset it finds: the event is posted again and the transfer
waits, or `hw_fn` is called and it is over. -/
theorem httpEventDrive_spec (hmax : w.hw_len ≤ INT_MAX) (hs : Sent w t) (hoff : t.we.hw_off = off)
    (hlt : off < w.hw_len) (hidle : t.eih.eih_onwrite = none) (hdone : t.done = [])
    (h : httpEventDrive off a t = some t') : t'.handler = t.handler ∧
    (Waiting w t' ∨ Over w t') := by
  have hlen : t.we.hw_len = w.hw_len := by rw [hs.we]
  obtain ⟨r, hr, h⟩ := Option.bind_eq_some_iff.1 h
  have hfail : Over w (t.finish t.we.hw_off (-1)) := by
    refine ⟨⟨hs.we, hs.wire⟩, ?_, hidle, ⟨_, by rw [Transfer.finish, hdone, List.nil_append], ?_⟩⟩
    · exact (hoff.trans_lt hlt).le
    · exact iff_of_false (by norm_num) (hoff.trans_lt hlt).ne
  cases r with
  | failed errno =>
    simp only [commIgnore_eq, ne_eq, not_true_eq_false, if_false, Option.some.injEq] at h
    subst h
    exact ⟨rfl, .inr hfail⟩
  | value n =>
    obtain ⟨-, hn⟩ := Option.filter_eq_some_iff.1 hr
    rw [hlen, bmod_of_le hlt.le hmax, decide_eq_true_eq, Nat.cast_le] at hn
    simp only [commIgnore_eq, ne_eq, not_true_eq_false, if_false] at h
    have hst : Sent w (t.sent off n) := hs.sent hoff
    have hoff' : (t.sent off n).we.hw_off = off + n := by rw [Transfer.sent, hoff]
    have hlen' : (t.sent off n).we.hw_len = w.hw_len := hlen
    rw [hlen', hoff'] at h
    split_ifs at h with hpos hmore
    · -- a short write: the rest waits for the next event
      unfold Transfer.rearm at h
      split_ifs at h
      obtain rfl := Option.some.inj h
      exact ⟨rfl, .inl ⟨⟨hst.we, hst.wire⟩, hoff'.trans_lt hmore, rfl, hdone⟩⟩
    · obtain rfl := Option.some.inj h
      refine ⟨rfl, .inr ⟨⟨hst.we, hst.wire⟩, ?_, hidle,
        ⟨_, by rw [Transfer.finish]; exact congrArg (· ++ _) hdone, ?_⟩⟩⟩
      · exact hoff'.trans_le (by omega)
      · exact iff_of_true rfl (hoff'.trans (by omega))
    · obtain rfl := Option.some.inj h
      exact ⟨rfl, .inr hfail⟩

/-- A report hands the write handler out and takes it off the table, or leaves it there. -/
theorem pollRound_onwrite (fd : ℕ) (ev : Mask) (eih : EventIoHandler) :
    ((pollRound fd ev eih).1.eih_onwrite = none ∧
      (pollRound fd ev eih).2.eih_onwrite = eih.eih_onwrite) ∨
    ((pollRound fd ev eih).1.eih_onwrite = eih.eih_onwrite ∧
      (pollRound fd ev eih).2.eih_onwrite = none) := by
  simp only [pollRound]
  split_ifs
  all_goals simp

theorem rearmsOrCalls_of_phase {x : WrAct} (ha : Activates t x) (hh : t'.handler = t.handler)
    (hdone : t.done = []) (h : Waiting w t' ∨ Over w t') : RearmsOrCalls t x t' := by
  refine ⟨fun _ => ?_, fun hn => absurd ha hn⟩
  rcases h with h | h
  · exact .inl ⟨by rw [h.armed, hh], h.done.trans hdone.symm⟩
  · obtain ⟨d, hd, -⟩ := h.done
    exact .inr ⟨h.idle, d, by rw [hd, hdone, List.nil_append]⟩

theorem transferStep_ready {ev : Mask} (hmax : w.hw_len ≤ INT_MAX) (hI : Waiting w t ∨ Over w t)
    (h : transferStep t (.ready ev a) = some t') :
    (Waiting w t' ∨ Over w t') ∧ RearmsOrCalls t (.ready ev a) t' := by
  simp only [transferStep] at h
  split_ifs at h with hact
  · -- only a transfer that waits has its handler in the table
    have hact' : (pollRound t.fd ev t.eih).1.eih_onwrite = some t.handler := hact
    rcases hI with hw | hov
    · have hidle : (pollRound t.fd ev t.eih).2.eih_onwrite = none := by
        rcases pollRound_onwrite t.fd ev t.eih with ⟨hno, -⟩ | ⟨-, hno⟩
        · rw [hno] at hact'
          exact absurd hact' (by simp)
        · exact hno
      have hs : Sent w { t with eih := (pollRound t.fd ev t.eih).2 } := ⟨hw.we, hw.wire⟩
      obtain ⟨hh, hp⟩ := httpEventDrive_spec hmax hs rfl hw.off hidle hw.done h
      exact ⟨hp, rearmsOrCalls_of_phase hact' hh hw.done hp⟩
    · rcases pollRound_onwrite t.fd ev t.eih with ⟨hno, -⟩ | ⟨hno, -⟩
      · rw [hno] at hact'
        exact absurd hact' (by simp)
      · rw [hno, hov.idle] at hact'
        exact absurd hact' (by simp)
  · obtain rfl := Option.some.inj h
    have hkeep : (pollRound t.fd ev t.eih).2.eih_onwrite = t.eih.eih_onwrite := by
      rcases pollRound_onwrite t.fd ev t.eih with ⟨-, hk⟩ | ⟨hout, hk⟩
      · exact hk
      · rcases hI with hw | hov
        · exact absurd (hout.trans hw.armed) hact
        · rw [hk, hov.idle]
    refine ⟨?_, fun ha => absurd ha hact, fun _ => ⟨hkeep, rfl⟩⟩
    exact hI.imp (fun hw => ⟨⟨hw.we, hw.wire⟩, hw.off, hkeep.trans hw.armed, hw.done⟩)
      fun hov => ⟨⟨hov.we, hov.wire⟩, hov.off, hkeep.trans hov.idle, hov.done⟩

end Drive

/-- A transfer from the call of `plm_http_event_write` on, whatever the calls of `write`
return and whatever events are reported. -/
theorem httpEventWrite_exact {t : Transfer} (hoff : t.we.hw_off = 0) (hpos : 0 < t.we.hw_len)
    (hmax : t.we.hw_len ≤ INT_MAX) (hbuf : t.we.hw_buf.length = t.we.hw_len) (hwire : t.wire = [])
    (hdone : t.done = []) (hidle : t.eih.eih_onwrite = none) (a : Attempt)
    (evs : List (Mask × Attempt)) :
    Always transferStep (Exact t.we) t (.write a :: evs.map fun e => .ready e.1 e.2) ∧
    EachStep transferStep RearmsOrCalls t (.write a :: evs.map fun e => .ready e.1 e.2) := by
  have hs : Sent t.we t := ⟨rfl, by rw [hwire, hoff, List.take_zero]⟩
  have hstart : Exact t.we t :=
    ⟨hs.we, hs.wire, by omega, hs.size hbuf (by omega), by simp [hdone], by simp [hdone, hoff,
      hpos.ne]⟩
  have hfirst : ∀ t', transferStep t (.write a) = some t' →
      t'.handler = t.handler ∧ (Waiting t.we t' ∨ Over t.we t') :=
    fun t' h => httpEventDrive_spec hmax hs hoff hpos hidle hdone h
  have hready : ∀ t', EachStep transferStep (fun _ x _ => ∃ ev a, x = .ready ev a) t'
      (evs.map fun e => .ready e.1 e.2) := by
    intro t'
    apply eachStep_of_mem
    intro x hx
    obtain ⟨e, -, rfl⟩ := List.mem_map.1 hx
    exact ⟨e.1, e.2, rfl⟩
  have hrest : ∀ t', transferStep t (.write a) = some t' → Always transferStep
      (fun t' => Waiting t.we t' ∨ Over t.we t') t' (evs.map fun e => .ready e.1 e.2) := by
    intro t' h
    refine always_of_invariant transferStep (hfirst t' h).2 ?_ (hready t')
    rintro t₁ _ t₂ hI ⟨ev, b, rfl⟩ hstep
    exact (transferStep_ready hmax hI hstep).1
  constructor
  · refine (always_cons transferStep).2 ⟨hstart, fun t' h => ?_⟩
    refine Always.mono (fun t₁ hI => ?_) (hrest t' h)
    exact hI.elim (fun hw => hw.exact hbuf) fun hov => hov.exact hbuf
  · refine (eachStep_cons transferStep).2 fun t' h => ⟨?_, ?_⟩
    · obtain ⟨hh, hp⟩ := hfirst t' h
      exact rearmsOrCalls_of_phase trivial hh hdone hp
    · refine eachStep_of_always transferStep (hrest t' h) (hready t') ?_
      rintro t₁ _ t₂ hI ⟨ev, b, rfl⟩ hstep -
      exact (transferStep_ready hmax hI hstep).2

def sevenBytes : Transfer where
  fd := 5
  addr := 1
  we := ⟨2, 3, [1, 2, 3, 4, 5, 6, 7], 0, 7⟩
  eih := ⟨none, none, 5⟩
  wire := []
  done := []

theorem httpEventWrite_exact_seven :
    Always transferStep (Exact sevenBytes.we) sevenBytes
      [.write ⟨[.failed EINTR, .value 3], 0, false⟩, .ready EPOLLOUT ⟨[.value 4], 0, false⟩] ∧
    EachStep transferStep RearmsOrCalls sevenBytes
      [.write ⟨[.failed EINTR, .value 3], 0, false⟩, .ready EPOLLOUT ⟨[.value 4], 0, false⟩] ∧
    (run transferStep sevenBytes
      [.write ⟨[.failed EINTR, .value 3], 0, false⟩, .ready EPOLLOUT ⟨[.value 4], 0, false⟩]).map
        (fun t => (t.wire, t.done)) =
      some ([1, 2, 3, 4, 5, 6, 7], [⟨3, [1, 2, 3, 4, 5, 6, 7], 7, 0⟩]) := by
  obtain ⟨h1, h2⟩ :=
    httpEventWrite_exact (t := sevenBytes) rfl (by decide) (by decide) rfl rfl rfl rfl
    ⟨[.failed EINTR, .value 3], 0, false⟩ [(EPOLLOUT, ⟨[.value 4], 0, false⟩)]
  exact ⟨h1, h2, by decide +kernel⟩

section Transient

/-- `plm_http_read_req` over what its calls of `read` return, `none` while they are repeated. -/
def httpReadReqCall (junk : Option ℕ) (rets : List (SysRet Bytes)) (st : ConnState) :
    Option (Except Fault ConnState) :=
  (commTry rets).map fun
    | .value [] => httpReadReq junk .eof st
    | .value b => httpReadReq junk (.data b) st
    | .failed errno => httpReadReq junk (.error (commIgnore errno ≠ 0)) st

/-- Reads that fail with these errors, one after the other, are being repeated or leave the
connection as it was, waiting to be read again. -/
def ReadKept (junk : Option ℕ) (errs : List ℤ) (st : ConnState) : Prop :=
  ∀ r, httpReadReqCall junk (errs.map .failed) st = some r → r = .ok { st with reading := true }

/-- Writes that fail with these errors are being repeated or leave the transfer as it was,
with its handler in the table. -/
def WriteKept (drive : Attempt → Transfer → Option Transfer) (errs : List ℤ) (errno : ℤ)
    (refuse : Bool) (t : Transfer) : Prop :=
  ∀ t', drive ⟨errs.map .failed, errno, refuse⟩ t = some t' →
    t' = { t with eih := t.eih.store t.handler .write }

variable {errs : List ℤ}

theorem readKept_iff (junk : Option ℕ) (st : ConnState) :
    ReadKept junk errs st ↔ ∀ e ∈ errs, e = EINTR := by
  unfold ReadKept httpReadReqCall
  rcases commTry_failed Bytes errs with ⟨hall, hn⟩ | ⟨e, he, hne, hs⟩
  · rw [hn]
    exact iff_of_true (by simp) hall
  · rw [hs]
    refine iff_of_false (fun h => ?_) fun h => hne (h e he)
    have hok := h _ rfl
    simp only [commIgnore_eq, ne_eq, not_true_eq_false, decide_false, httpReadReq] at hok
    have hr := congrArg ConnState.reading (Except.ok.inj hok)
    simp at hr

theorem httpEventDrive_failed {off : ℕ} {a : Attempt} {t : Transfer} {e : ℤ}
    (h : commTry a.rets = some (.failed e)) :
    httpEventDrive off a t = some (t.finish t.we.hw_off (-1)) := by
  have hw : ∀ n, commWrite n a.rets = some (.failed e) := by
    intro n
    rw [commWrite, h]
    rfl
  rw [httpEventDrive, hw]
  simp

theorem writeKept_iff (off : ℕ) (errno : ℤ) (refuse : Bool) (t : Transfer) :
    WriteKept (httpEventDrive off) errs errno refuse t ↔ ∀ e ∈ errs, e = EINTR := by
  rcases commTry_failed ℕ errs with ⟨hall, hn⟩ | ⟨e, he, hne, hs⟩
  · refine iff_of_true (fun t' h => ?_) hall
    simp [httpEventDrive, commWrite, hn] at h
  · refine iff_of_false (fun h => ?_) fun h => hne (h e he)
    have hd := congrArg Transfer.done (h _ (httpEventDrive_failed hs))
    simp [Transfer.finish] at hd

/-- Of the errors `plm_comm_ignore` is there for, only those its callers never pass on leave
a connection and its transfers as they were. -/
theorem transient_kept_iff (errs : List ℤ) (junk : Option ℕ) (st : ConnState) (errno : ℤ)
    (refuse : Bool) (t : Transfer) :
    (ReadKept junk errs st ↔ ∀ e ∈ errs, e = EINTR) ∧
    (WriteKept httpEventWrite errs errno refuse t ↔ ∀ e ∈ errs, e = EINTR) ∧
    (WriteKept httpEventWriteCb errs errno refuse t ↔ ∀ e ∈ errs, e = EINTR) :=
  ⟨readKept_iff junk st, writeKept_iff 0 errno refuse t, writeKept_iff t.we.hw_off errno refuse t⟩

def idleConn : ConnState where
  conn := ⟨[], none, []⟩
  hc_psr := ⟨.none, 0, .conn⟩
  hc_data := List.replicate 1024 0
  hc_offset := 0
  hc_eof := false
  hc_badreq := false
  reading := true
  processed := []
  closed := false

/-- Nothing to read yet, and a socket buffer that is full. -/
theorem eagain_not_kept : ¬ ∀ (e : ℤ), e ∈ [EAGAIN, EINTR, ERESTART, EALREADY, EINPROGRESS] →
    ReadKept none [e] idleConn ∧ WriteKept httpEventWrite [e] 0 false sevenBytes ∧
      WriteKept httpEventWriteCb [e] 0 false sevenBytes := by
  intro h
  have hread := (readKept_iff none idleConn).1 (h EAGAIN (by simp)).1
  exact absurd (hread EAGAIN (by simp)) (by decide)

end Transient

end Plume.Http
