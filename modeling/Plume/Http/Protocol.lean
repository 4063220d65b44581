import Plume.CLib.Run
import Plume.Http.Bounds
import Plume.Http.Request
import Plume.Http.Rules

/-! The user data of a connection's parser: which struct it points to at each callback,
over all the reads of the connection. -/

namespace Plume.Http
open CLib

/-- What the callbacks of a connection did so far, as far as their user data goes. -/
structure Protocol where
  /-- the request that `plm_http_on_reqline` completed for the head being parsed -/
  current : Option ℕ
  /-- a callback has broken the parse -/
  broken : Bool
  /-- each callback was called before any of them broke the parse, on the struct it takes
  its user data for, and went through no wild pointer -/
  obeyed : Bool
deriving DecidableEq, Repr

def Protocol.violated (p : Protocol) : Protocol := { p with obeyed := false }

def Designates (junk : Option ℕ) (c : Conn) : Prop := ∃ i ∈ junk, i < c.hc_reqs.length

instance (junk : Option ℕ) (c : Conn) : Decidable (Designates junk c) :=
  inferInstanceAs (Decidable (∃ i ∈ junk, i < c.hc_reqs.length))

/-- `plm_http_on_reqline` under watch. A call out of turn is not made. -/
def watchReqline (mthd : Mthd) (url : PStr) (ver : Ver) (data : UserData) (own : Conn × Protocol) :
    Except Fault (ℤ × UserData × Conn × Protocol) := do
  if own.2.broken ∨ data ≠ .conn then return (-1, data, own.1, own.2.violated)
  else
    let (rc, data, c) ← httpOnReqline mthd url ver data own.1
    let current := if rc = 0 then some own.1.hc_reqs.length else none
    return (rc, data, c, { own.2 with current := current, broken := rc ≠ 0 })

def watchField (k v : PStr) (data : UserData) (own : Conn × Protocol) :
    Except Fault (ℤ × Conn × Protocol) := do
  if own.2.broken ∨ own.2.current.map .req ≠ some data then return (-1, own.1, own.2.violated)
  else
    let (rc, c) ← httpOnFieldData k v data own.1
    return (rc, c, { own.2 with broken := rc ≠ 0 })

def watchHdrDone (junk : Option ℕ) (data : UserData) (own : Conn × Protocol) :
    Except Fault (Option UserData × Conn × Protocol) := do
  if own.2.broken ∨ own.2.current.map .req ≠ some data ∨ ¬ Designates junk own.1 then
    return (none, own.1, own.2.violated)
  else
    let (init, c) ← httpOnHdrDone junk data own.1
    return (init, c, { own.2 with current := none })

def watchHooks (junk : Option ℕ) : Hooks UserData (Conn × Protocol) where
  hp_on_req_line := watchReqline
  hp_on_status_line _ _ _ data own := .ok (0, data, own)
  hp_on_field := watchField
  hp_on_hdr_done := watchHdrDone junk

/-- Watching changes nothing while the protocol is obeyed. -/
theorem watchHooks_follows (junk : Option ℕ) :
    (watchHooks junk).Follows (connHooks junk) Prod.fst fun own => own.2.obeyed = true where
  line m u v d own rc d' own' h hgood := by
    simp only [watchHooks, watchReqline] at h
    split_ifs at h with hv
    · obtain ⟨rfl, rfl, rfl⟩ := by simpa only [pure_ok, Except.ok.injEq, Prod.mk.injEq] using h
      cases hgood (by decide)
    · obtain ⟨y, hcb, h⟩ := bind_eq_ok.1 h
      cases h
      exact hcb
  field k v d own rc own' h hgood := by
    simp only [watchHooks, watchField] at h
    split_ifs at h with hv
    · obtain ⟨rfl, rfl⟩ := by simpa only [pure_ok, Except.ok.injEq, Prod.mk.injEq] using h
      cases hgood (by decide)
    · obtain ⟨y, hcb, h⟩ := bind_eq_ok.1 h
      cases h
      exact hcb
  done d own x own' h hgood := by
    simp only [watchHooks, watchHdrDone] at h
    split_ifs at h with hv
    · obtain ⟨rfl, rfl⟩ := by simpa only [pure_ok, Except.ok.injEq, Prod.mk.injEq] using h
      cases hgood
    · obtain ⟨y, hcb, h⟩ := bind_eq_ok.1 h
      cases h
      exact hcb

structure Watched where
  st : ConnState
  protocol : Protocol
  /-- the last read ended with `PLM_HTTP_PARSE_DONE` -/
  reported : Bool
deriving DecidableEq, Repr

/-- `plm_http_read_req`, after which the protocol is `p`. -/
def Watched.read (w : Watched) (a : Option ℕ × ReadResult) (p : Protocol) (reported : Bool) :
    Option Watched :=
  (httpReadReq a.1 a.2 w.st).toOption.map fun st => ⟨st, p, reported⟩

/-- `plm_http_read_req` under watch, when a read event is posted. It ends at a call out of
turn, and is undefined behind a fault. -/
def watchedStep (w : Watched) (a : Option ℕ × ReadResult) : Option Watched :=
  if !w.st.reading then none
  else
    match a.2 with
    | .data b =>
      if w.st.conn.hc_body.isSome then w.read a w.protocol false
      else
        match httpParserReq (watchHooks a.1) w.st.hc_psr ⟨given w.st b, 0, false⟩
            (w.st.conn, w.protocol) with
        | .error _ => none
        | .ok r =>
          if r.own.2.obeyed then w.read a r.own.2 (r.rc = .done)
          else some ⟨{ w.st with reading := false }, r.own.2, false⟩
    | _ => w.read a w.protocol false

/-- A connection just accepted. Its allocations will go as `mem` says, and its input buffer
has never been written to. -/
def accepted (mem : List Bool) (buf : Bytes) : Watched where
  st := ⟨⟨[], none, mem⟩, ⟨.none, 0, .conn⟩, buf, 0, false, false, true, [], false⟩
  protocol := ⟨none, false, true⟩
  reported := false

/-- The protocol was obeyed, and a head reported complete leaves the parser as it was at first. -/
def Kept (w : Watched) : Prop :=
  w.protocol.obeyed = true ∧
    (w.reported = true → w.st.hc_psr.hp_data = .conn ∧ w.st.hc_psr.hp_state = .none)

instance (w : Watched) : Decidable (Kept w) := inferInstanceAs (Decidable (_ ∧ _))

/-- When the parser may be given `text`: not the LF of a blank line whose CR came before, not
a field behind a broken parse, and not while the uninitialised pointer of
`plm_http_on_hdr_done` is wild. -/
structure InTurn (w : Watched) (junk : Option ℕ) (text : Bytes) : Prop where
  resume : w.st.hc_psr.hp_state = .hdrCr → text.head? ≠ some LF
  broken : w.protocol.broken = true → ∀ k line post, ¬ FieldLine text 0 k line post
  pointer : w.protocol.broken = false → ∃ i ∈ junk,
    i < w.st.conn.hc_reqs.length + if w.st.hc_psr.hp_state = .none then 1 else 0

/-- A step whose bytes, if it gives any to the parser, come in turn. -/
def Orderly (w : Watched) (a : Option ℕ × ReadResult) (_ : Watched) : Prop :=
  ∀ b, a.2 = .data b → w.st.conn.hc_body = none → InTurn w a.1 (given w.st b)

section Callbacks

variable {c c' : Conn} {rc : ℤ} {d : UserData}

theorem httpOnReqline_conn {m : Mthd} {u : PStr} {v : Ver}
    (h : httpOnReqline m u v .conn c = .ok (rc, d, c')) (hrc : rc = 0) :
    d = .req c.hc_reqs.length ∧ c'.hc_reqs.length = c.hc_reqs.length + 1 := by
  unfold httpOnReqline at h
  rw [if_neg (by simp)] at h
  dsimp only at h
  split_ifs at h
  · cases h
    cases hrc
  · cases h
    cases hrc
  · obtain ⟨y, -, h⟩ := bind_eq_ok.1 h
    cases h
    simp

theorem httpOnFieldData_length {k v : PStr} (h : httpOnFieldData k v d c = .ok (rc, c')) :
    c'.hc_reqs.length = c.hc_reqs.length := by
  unfold httpOnFieldData at h
  cases d with
  | conn => cases h
  | req i =>
    dsimp only at h
    cases hi : c.hc_reqs[i]? with
    | none => rw [hi] at h; cases h
    | some r =>
      rw [hi] at h
      dsimp only at h
      obtain ⟨y, -, h⟩ := bind_eq_ok.1 h
      cases h
      exact List.length_set

end Callbacks

section Turns

variable {junk : Option ℕ} {own : Conn × Protocol} {psr : Parser UserData} {i n : ℕ}
  {r : Step UserData (Conn × Protocol)}

structure Idle (own : Conn × Protocol) : Prop where
  broken : own.2.broken = false
  obeyed : own.2.obeyed = true

structure Open (i n : ℕ) (own : Conn × Protocol) : Prop where
  protocol : own.2 = ⟨some i, false, true⟩
  reqs : own.1.hc_reqs.length = n
  lt : i < n

structure Failed (own : Conn × Protocol) : Prop where
  broken : own.2.broken = true
  obeyed : own.2.obeyed = true

inductive Turn (own : Conn × Protocol) (psr : Parser UserData) : Prop
  | start (hI : Idle own) (hst : psr.hp_state = .none) (hd : psr.hp_data = .conn)
  | fields (i n : ℕ) (hO : Open i n own) (hst : psr.hp_state = .rlDone ∨ psr.hp_state = .hdrCr)
    (hd : psr.hp_data = .req i)
  | failed (hF : Failed own) (hst : psr.hp_state = .rlDone)

theorem Turn.obeyed (hT : Turn own psr) : own.2.obeyed = true := by
  cases hT with
  | start hI _ _ => exact hI.obeyed
  | fields i n hO _ _ => rw [hO.protocol]
  | failed hF _ => exact hF.obeyed

theorem watchReqline_turn (hI : Idle own) {m : Mthd} {u : PStr} {v : Ver} {own' : Conn × Protocol}
    {rc : ℤ} {d : UserData} (h : watchReqline m u v .conn own = .ok (rc, d, own')) :
    if rc = 0 then d = .req own.1.hc_reqs.length ∧
      Open own.1.hc_reqs.length (own.1.hc_reqs.length + 1) own' else Failed own' := by
  unfold watchReqline at h
  rw [if_neg (by simp [hI.broken])] at h
  obtain ⟨⟨rc, d', c'⟩, hcb, h⟩ := bind_eq_ok.1 h
  cases h
  by_cases hrc : rc = 0
  · obtain ⟨rfl, hlen⟩ := httpOnReqline_conn hcb hrc
    rw [if_pos hrc]
    exact ⟨rfl, by simp [hrc, hI.obeyed], hlen, Nat.lt_succ_self _⟩
  · rw [if_neg hrc]
    exact ⟨by simp [hrc], hI.obeyed⟩

theorem watch_fieldsKeep (hj : ∃ j ∈ junk, j < n) :
    FieldsKeep (watchHooks junk) (.req i) (Open i n) Failed fun x own => x = some .conn ∧
      Idle own where
  field k v own own' rc hO h := by
    simp only [watchHooks, watchField] at h
    rw [if_neg (by simp [hO.protocol])] at h
    obtain ⟨⟨rc, c'⟩, hcb, h⟩ := bind_eq_ok.1 h
    cases h
    have hlen := httpOnFieldData_length hcb
    by_cases hrc : rc = 0
    · rw [if_pos hrc]
      exact ⟨by simp [hrc, hO.protocol], hlen.trans hO.reqs, hO.lt⟩
    · rw [if_neg hrc]
      exact ⟨by simp [hrc], by rw [hO.protocol]⟩
  done own own' x hO h := by
    obtain ⟨j, rfl, hlt⟩ := hj
    have hlt' : j < own.1.hc_reqs.length := by rw [hO.reqs]; exact hlt
    simp only [watchHooks, watchHdrDone] at h
    rw [if_neg (by simp [hO.protocol, Designates, hlt'])] at h
    simp only [httpOnHdrDone, List.getElem?_eq_getElem hlt', ok_bind, pure_ok] at h
    cases h
    exact ⟨rfl, by rw [hO.protocol], by rw [hO.protocol]⟩

structure Ends (r : Step UserData (Conn × Protocol)) : Prop where
  turn : Turn r.own r.psr
  done : r.rc = .done → r.psr.hp_data = .conn ∧ r.psr.hp_state = .none

theorem fieldLoop_ends {fuel : ℕ} {s : Input} (hj : ∃ j ∈ junk, j < n) (hO : Open i n own)
    (hd : psr.hp_data = .req i) (hst : psr.hp_state = .rlDone)
    (h : httpParserFieldLoop (watchHooks junk) fuel psr s own = .ok r) : Ends r := by
  have hend := fieldLoop_rule (watch_fieldsKeep hj) hO hd hst h
  unfold FieldsEnd at hend
  cases hrc : r.rc with
  | again =>
    rw [hrc] at hend
    obtain ⟨hO', hd', hst'⟩ := hend
    exact ⟨.fields i n hO' hst' hd', by simp [hrc]⟩
  | error =>
    rw [hrc] at hend
    obtain ⟨hO', hd', hst'⟩ := hend
    exact ⟨.fields i n hO' (.inl hst') hd', by simp [hrc]⟩
  | brk =>
    rw [hrc] at hend
    obtain ⟨hF, -, hst'⟩ := hend
    exact ⟨.failed hF hst', by simp [hrc]⟩
  | done =>
    rw [hrc] at hend
    obtain ⟨x, ⟨rfl, hI⟩, hd', hst'⟩ := hend
    exact ⟨.start hI hst' hd', fun _ => ⟨hd', hst'⟩⟩

/-- The field parser at the start of a text whose first line is no field. -/
theorem fieldLoop_noField {δ σ : Type} {hooks : Hooks δ σ} {psr : Parser δ} {own : σ} {fuel : ℕ}
    {text : Bytes} {r : Step δ σ} (hno : ∀ k line post, ¬ FieldLine text 0 k line post)
    (h : httpParserFieldLoop hooks fuel psr ⟨text, 0, false⟩ own = .ok r) :
    r.psr = psr ∧ r.own = own ∧ r.rc ≠ .done := by
  cases fuel with
  | zero => cases h
  | succ fuel =>
    rcases cursor_cases ⟨text, 0, false⟩ with hnone | ⟨pre, k, body, post, hb, hp, hLF, hhd⟩
    · rw [fieldLoop_none (cursor_noLf hnone)] at h
      cases h
      exact ⟨rfl, rfl, by simp⟩
    obtain rfl : pre = [] := List.length_eq_zero_iff.1 hp.symm
    rcases List.eq_nil_or_concat' body with rfl | ⟨line, c, rfl⟩
    · rw [List.append_nil] at hb
      have hempty := fieldLoop_empty hooks psr own fuel hb hp
      cases k with
      | zero =>
        rw [List.replicate_zero, List.append_nil, List.getLast?_nil] at hempty
        rw [hempty] at h
        cases h
      | succ k =>
        rw [List.replicate_succ', ← List.append_assoc, List.getLast?_concat] at hempty
        rw [hempty (by decide)] at h
        cases h
        exact ⟨rfl, rfl, by simp⟩
    · by_cases hc : c = CR
      case neg =>
        rw [fieldLoop_noCr hb hp hLF hhd hc] at h
        cases h
        exact ⟨rfl, rfl, by simp⟩
      subst hc
      have hline := fieldLoop_line hooks psr own [] fuel hb hp hLF hhd
      cases hf : fieldOf line with
      | none =>
        obtain ⟨buf, hline⟩ : ∃ buf, _ = _ := by simpa only [hf] using hline
        rw [hline] at h
        cases h
        exact ⟨rfl, rfl, by simp⟩
      | some kv =>
        exact absurd ⟨hb, hLF, hhd, by rw [hf]; rfl⟩ (hno k line post)

theorem Turn.ends (hT : Turn own psr) (h1 : r.psr.hp_state = psr.hp_state)
    (h2 : r.psr.hp_data = psr.hp_data) (h3 : r.own = own) (hrc : r.rc ≠ .done) : Ends r := by
  refine ⟨?_, fun h => absurd h hrc⟩
  rw [h3]
  cases hT with
  | start hI hst hd => exact .start hI (h1.trans hst) (h2.trans hd)
  | fields i n hO hst hd => exact .fields i n hO (by rwa [h1]) (h2.trans hd)
  | failed hF hst => exact .failed hF (h1.trans hst)

theorem first_ends {s : Input} (hI : Idle own) (hst : psr.hp_state = .none)
    (hd : psr.hp_data = .conn)
    (hj : ∃ j ∈ junk, j < own.1.hc_reqs.length + 1)
    (h : httpParserReq (watchHooks junk) psr s own = .ok r) : Ends r := by
  unfold httpParserReq httpParser at h
  rw [if_pos hst] at h
  obtain ⟨r₁, hl, h⟩ := bind_eq_ok.1 h
  have hrule :=
    reqLine_rule (B := Failed) (fun m u v own' rc d' hcb => watchReqline_turn hI (hd ▸ hcb)) hl
  cases hrc : r₁.rc with
  | done =>
    rw [hrc] at hrule
    obtain ⟨⟨hd', hO⟩, hst'⟩ := hrule
    rw [if_pos hrc] at h
    by_cases hlen : r₁.s.s_len > 0
    · rw [if_pos hlen] at h
      exact fieldLoop_ends hj hO hd' hst' h
    · rw [if_neg hlen] at h
      obtain rfl := Except.ok.inj h
      exact ⟨.fields _ _ hO (.inl hst') hd', by simp⟩
  | brk =>
    rw [hrc] at hrule
    rw [if_neg (by simp [hrc])] at h
    obtain rfl := Except.ok.inj h
    exact ⟨.failed hrule.1 hrule.2, by simp [hrc]⟩
  | again =>
    rw [hrc] at hrule
    rw [if_neg (by simp [hrc])] at h
    obtain rfl := Except.ok.inj h
    exact (Turn.start hI hst hd).ends (by rw [hrule.1]) (by rw [hrule.1]) hrule.2 (by simp [hrc])
  | error =>
    rw [hrc] at hrule
    rw [if_neg (by simp [hrc])] at h
    obtain rfl := Except.ok.inj h
    exact (Turn.start hI hst hd).ends (by rw [hrule.1]) (by rw [hrule.1]) hrule.2 (by simp [hrc])

/-- One call of the parser, on bytes that come in turn. -/
theorem httpParserReq_ends {w : Watched} {text : Bytes}
    (hT : Turn (w.st.conn, w.protocol) w.st.hc_psr)
    (hin : InTurn w junk text)
    (h : httpParserReq (watchHooks junk) w.st.hc_psr ⟨text, 0,
      false⟩ (w.st.conn, w.protocol) = .ok r) :
    Ends r := by
  cases hT with
  | start hI hst hd =>
    have hj := hin.pointer hI.broken
    rw [if_pos hst] at hj
    exact first_ends hI hst hd hj h
  | fields i n hO hst hd =>
    have hT : Turn (w.st.conn, w.protocol) w.st.hc_psr := .fields i n hO hst hd
    have hne : w.st.hc_psr.hp_state ≠ .none := by rcases hst with hst | hst <;> simp [hst]
    have hbr : w.protocol.broken = false := congrArg Protocol.broken hO.protocol
    have hj := hin.pointer hbr
    rw [if_neg hne, Nat.add_zero, hO.reqs] at hj
    unfold httpParserReq httpParser at h
    rcases hst with hst | hst
    · simp only [hst, reduceCtorEq, if_false, if_true] at h
      refine fieldLoop_ends hj hO ?_ ?_ h
      · exact hd
      · rfl
    · simp only [hst, reduceCtorEq, if_false, if_true] at h
      obtain ⟨c, hl, h⟩ := bind_eq_ok.1 h
      by_cases hc : c = LF
      · cases text with
        | nil => cases hl
        | cons x t =>
          cases hl
          exact absurd (by rw [hc]; rfl) (hin.resume hst)
      · rw [if_neg hc] at h
        obtain rfl := Except.ok.inj h
        exact hT.ends hst.symm rfl rfl (by simp)
  | failed hF hst =>
    unfold httpParserReq httpParser at h
    simp only [hst, reduceCtorEq, if_false, if_true] at h
    obtain ⟨hpsr, hown, hrc⟩ := fieldLoop_noField (hin.broken hF.broken) h
    exact (Turn.failed hF hst).ends (by rw [hpsr, hst]) (by rw [hpsr]) hown hrc

end Turns

section Reads

variable {w w' : Watched} {a : Option ℕ × ReadResult}

structure Inv (w : Watched) : Prop where
  turn : Turn (w.st.conn, w.protocol) w.st.hc_psr
  done : w.reported = true → w.st.hc_psr.hp_data = .conn ∧ w.st.hc_psr.hp_state = .none

theorem Inv.frame (hI : Inv w) {st : ConnState}
    (h : st.conn = w.st.conn ∧ st.hc_psr = w.st.hc_psr) :
    Inv ⟨st, w.protocol, false⟩ := by
  refine ⟨?_, by simp⟩
  rw [h.1, h.2]
  exact hI.turn

theorem Watched.read_eq {p : Protocol} {rep : Bool} (h : w.read a p rep = some w') :
    ∃ st, httpReadReq a.1 a.2 w.st = .ok st ∧ w' = ⟨st, p, rep⟩ := by
  unfold Watched.read at h
  cases hr : httpReadReq a.1 a.2 w.st with
  | error f => rw [hr] at h; cases h
  | ok st =>
    rw [hr] at h
    exact ⟨st, rfl, (Option.some.inj h).symm⟩

/-- A read under watch that gives its bytes to the parser. -/
theorem watchedStep_parse {junk : Option ℕ} {b : Bytes} (hI : Inv w)
    (hin : InTurn w junk (given w.st b))
    (hread : w.st.reading = true) (hbody : w.st.conn.hc_body = none)
    (h : watchedStep w (junk, .data b) = some w') : Inv w' := by
  unfold watchedStep at h
  rw [if_neg (by simp [hread])] at h
  dsimp only at h
  rw [if_neg (by simp [hbody])] at h
  cases hp : httpParserReq (watchHooks junk) w.st.hc_psr ⟨given w.st b, 0, false⟩
      (w.st.conn, w.protocol) with
  | error f => rw [hp] at h; cases h
  | ok r =>
    have hend := httpParserReq_ends hI.turn hin hp
    have hfollow := httpParserReq_follows (watchHooks_follows junk) hp hend.turn.obeyed
    rw [hp] at h
    dsimp only at h
    rw [if_pos hend.turn.obeyed] at h
    obtain ⟨st, hst, rfl⟩ := Watched.read_eq h
    obtain ⟨hconn, hpsr⟩ := httpReadReq_parsed hbody hfollow hst
    refine ⟨?_, fun hrep => ?_⟩
    · rw [hconn, hpsr]
      exact hend.turn
    · rw [hpsr]
      exact hend.done (of_decide_eq_true hrep)

theorem watchedStep_inv (hI : Inv w) (hC : Orderly w a w') (h : watchedStep w a = some w') :
    Inv w' := by
  obtain ⟨junk, res⟩ := a
  by_cases hread : w.st.reading = true
  case neg =>
    unfold watchedStep at h
    rw [if_pos (by simpa using hread)] at h
    cases h
  cases res with
  | data b =>
    cases hbody : w.st.conn.hc_body with
    | none => exact watchedStep_parse hI (hC b rfl hbody) hread hbody h
    | some i =>
      unfold watchedStep at h
      rw [if_neg (by simp [hread])] at h
      dsimp only at h
      rw [if_pos (by simp [hbody])] at h
      obtain ⟨st, hst, rfl⟩ := Watched.read_eq h
      exact hI.frame (httpReadReq_frame (by simp [hbody]) hst)
  | eof =>
    unfold watchedStep at h
    rw [if_neg (by simp [hread])] at h
    obtain ⟨st, hst, rfl⟩ := Watched.read_eq h
    exact hI.frame (httpReadReq_frame (by simp) hst)
  | error ignore =>
    unfold watchedStep at h
    rw [if_neg (by simp [hread])] at h
    obtain ⟨st, hst, rfl⟩ := Watched.read_eq h
    exact hI.frame (httpReadReq_frame (by simp) hst)

/-- Reads that come in turn keep the protocol. -/
theorem userData_kept (mem : List Bool) (buf : Bytes) (as : List (Option ℕ × ReadResult))
    (hC : EachStep watchedStep Orderly (accepted mem buf) as) :
    Always watchedStep Kept (accepted mem buf) as := by
  have h0 : Inv (accepted mem buf) := ⟨.start ⟨rfl, rfl⟩ rfl rfl, by simp [accepted]⟩
  refine Always.mono (fun w hI => ⟨hI.turn.obeyed, hI.done⟩) (?_ : Always watchedStep Inv _ as)
  exact always_of_invariant watchedStep h0 (fun _ _ _ hI hC h => watchedStep_inv hI hC h) hC

end Reads

/-- `Orderly` before a broken parse and away from the CR of a blank line, as a test. -/
def orderlyCheck (w : Watched) (a : Option ℕ × ReadResult) (_ : Watched) : Bool :=
  !w.protocol.broken && w.st.hc_psr.hp_state != .hdrCr && match a.1 with
    | none => false
    | some i => i < w.st.conn.hc_reqs.length + if w.st.hc_psr.hp_state = .none then 1 else 0

theorem orderly_of_check (w : Watched) (a : Option ℕ × ReadResult) (w' : Watched)
    (h : orderlyCheck w a w' = true) : Orderly w a w' := by
  obtain ⟨junk, res⟩ := a
  unfold orderlyCheck at h
  cases junk with
  | none => simp at h
  | some i =>
    simp only [Bool.and_eq_true, Bool.not_eq_true', bne_iff_ne, decide_eq_true_eq] at h
    obtain ⟨⟨hbr, hst⟩, hi⟩ := h
    exact fun _ _ _ => ⟨fun hcr => absurd hcr hst, fun hbr' => by simp [hbr] at hbr',
      fun _ => ⟨i, rfl, hi⟩⟩

def headReads : List (Option ℕ × ReadResult) :=
  [(some 0, .data (ascii "GET / HTTP/1.1\r\n")), (some 0, .data (ascii "Host: a\r\n\r\n"))]

theorem userData_kept_get :
    (run watchedStep (accepted [] (List.replicate 1024 0)) headReads).isSome ∧
    Always watchedStep Kept (accepted [] (List.replicate 1024 0)) headReads := by
  refine ⟨by decide +kernel, userData_kept [] (List.replicate 1024 0) headReads ?_⟩
  exact eachStep_of_check watchedStep orderly_of_check (by decide +kernel)

/-- A blank line cut behind its CR: the head is reported complete with the user data still
the request. -/
theorem userData_kept_false :
    ¬ ∀ mem buf as, Always watchedStep Kept (accepted mem buf) as := by
  intro h
  have hrun := h [] (List.replicate 1024 0) [(some 0, .data (ascii "GET / HTTP/1.1\r\n")),
    (some 0, .data (ascii "Host: a\r\n\r")), (some 0, .data (ascii "\n"))] _ (List.prefix_refl _)
  revert hrun
  decide +kernel

end Plume.Http
