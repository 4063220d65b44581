import Plume.Http.Decode

/-! A head that arrives in chunks. A call resumes where the unparsed bytes begin
and counts `hp_parsed` from there, so a head cut behind its first line is read
with other cursors than the whole head, and other callbacks follow. Only cuts
before the first LF, where no call has done anything yet, change nothing. -/

namespace Plume.Http
open CLib

inductive Start
  | req (l : ReqLine)
  | resp (l : StatusLine)

namespace Start

def text : Start → Bytes
  | .req l => l.text
  | .resp l => l.text

def call : Start → Call
  | .req l => .reqLine l.mthd (.ofBytes l.url) l.ver.ver
  | .resp l => .statusLine l.ver.ver (atoi l.code) (.ofBytes l.reason)

def doneState : Start → PState
  | .req _ => .rlDone
  | .resp _ => .slDone

def parse : Start → Parser Unit → Input → List Call → Except Fault (Step Unit (List Call))
  | .req _ => httpParserReq record
  | .resp _ => httpParserResp record

end Start

/-- What the caller of the parser keeps between two calls. -/
structure Feed where
  rc : Rc
  psr : Parser Unit
  rest : Bytes
  log : List Call
deriving DecidableEq

/-- One call, on the bytes not yet consumed and the next chunk, while the parser asks for more. -/
def feedStep (h : Start) (st : Feed) (chunk : Bytes) : Except Fault Feed :=
  if st.rc = .again then do
    let r ← h.parse st.psr (whole (st.rest ++ chunk)) st.log
    return ⟨r.rc, r.psr, (st.rest ++ chunk).drop r.psr.hp_parsed, r.own⟩
  else return st

def feed (h : Start) (chunks : List Bytes) (st : Feed) : Except Fault Feed :=
  chunks.foldlM (feedStep h) st

def outcome (h : Start) (chunks : List Bytes) : Except Fault (List Call × Rc) :=
  (feed h chunks ⟨.again, fresh, [], []⟩).map fun st => (st.log, st.rc)

def headText (h : Start) (fs : List Field) : Bytes := h.text ++ fieldsText fs ++ crlf

def SplitInvariant (h : Start) (chunks : List Bytes) : Prop :=
  outcome h chunks = outcome h [chunks.flatten]

def CutsInFirstLine (chunks : List Bytes) : Prop := LF ∉ chunks.dropLast.flatten

section Call

variable {h : Start} {n fuel : ℕ} {b : Bytes} {s : Input} {log : List Call} {psr : Parser Unit}
  {r : Step Unit (List Call)}

theorem parse_noLf (hb : LF ∉ b) :
    h.parse ⟨.none, n, ()⟩ (whole b) log = .ok ⟨.again, ⟨.none, 0, ()⟩, whole b, log⟩ := by
  have hf := cursor_noLf (s := whole b) hb
  cases h with
  | req l =>
    simp only [Start.parse, httpParserReq, httpParser, if_true, reqLine_none hf, ok_bind,
      reduceCtorEq, if_false, pure_ok]
  | resp l =>
    simp only [Start.parse, httpParserResp, httpParser, if_true, statusLine_none hf, ok_bind,
      reduceCtorEq, if_false, pure_ok]

theorem parse_done : h.parse ⟨h.doneState, n, ()⟩ s log =
    httpParserField record ⟨h.doneState, 0, ()⟩ s log := by
  cases h <;> rfl

theorem parse_done_noLf (hb : LF ∉ b) :
    h.parse ⟨h.doneState, n, ()⟩ (whole b) log =
      .ok ⟨.again, ⟨h.doneState, 0, ()⟩, whole b, log⟩ := by
  rw [parse_done, httpParserField, fieldLoop_none (cursor_noLf (s := whole b) hb)]

/-- The callbacks only grow, and the parser does not return to its initial state. -/
theorem fieldLoop_prefix (h : httpParserFieldLoop record fuel psr s log = .ok r)
    (hst : psr.hp_state ≠ .none) : log <+: r.own ∧ r.psr.hp_state ≠ .none := by
  induction fuel generalizing psr s log with
  | zero => simp [httpParserFieldLoop] at h
  | succ fuel ih =>
    rcases fieldLoop_cases record fuel psr s log with
      ⟨f, hf⟩ | ⟨rc, s', hs, -, -⟩ | ⟨key, value, n, s', -, -, -, -, -, hs⟩
    · simp [hf] at h
    · rw [hs] at h
      obtain rfl := Except.ok.inj h
      exact ⟨List.prefix_refl _, hst⟩
    rw [hs] at h
    simp only [record, ok_bind, ne_eq, not_true_eq_false, if_false, fieldNext_eq] at h
    have hlog : log <+: log ++ [Call.field (.ofBytes key) value] := List.prefix_append _ _
    split at h
    · obtain rfl := Except.ok.inj h
      exact ⟨hlog, hst⟩
    split_ifs at h
    · obtain rfl := Except.ok.inj h
      exact ⟨hlog.trans (List.prefix_append _ _), by simp⟩
    · obtain rfl := Except.ok.inj h
      exact ⟨hlog, by simp⟩
    · obtain ⟨hpre, hst'⟩ := ih h hst
      exact ⟨hlog.trans hpre, hst'⟩

theorem parse_prefix (hr : h.parse psr s log = .ok r) (hst : psr.hp_state ≠ .none) :
    log <+: r.own ∧ r.psr.hp_state ≠ .none := by
  have key : ∀ line cr done, cr ≠ PState.none → done ≠ PState.none →
      httpParser line cr done record psr s log = .ok r →
        log <+: r.own ∧ r.psr.hp_state ≠ .none := by
    intro line cr done hcr hdone hr
    simp only [httpParser, hst, if_false] at hr
    have stay : ∀ {st : PState} {n rc s'}, st ≠ .none →
        (Except.ok ⟨rc, ⟨st, n, psr.hp_data⟩, s',
          log⟩ : Except Fault (Step Unit (List Call))) = .ok r →
        log <+: r.own ∧ r.psr.hp_state ≠ .none := by
      intro st n rc s' hst' he
      obtain rfl := Except.ok.inj he
      exact ⟨List.prefix_refl _, hst'⟩
    by_cases h1 : psr.hp_state = cr
    · rw [if_pos h1] at hr
      cases hl : load s.buf s.pos with
      | error f => simp [hl] at hr
      | ok x =>
        rw [hl, ok_bind] at hr
        split_ifs at hr
        · exact fieldLoop_prefix hr hdone
        · exact stay hdone hr
        · exact stay hst hr
    rw [if_neg h1] at hr
    by_cases h2 : psr.hp_state = done
    · rw [if_pos h2] at hr
      exact fieldLoop_prefix hr hst
    rw [if_neg h2] at hr
    by_cases h3 : psr.hp_state = .hdrCr
    · rw [if_pos h3] at hr
      cases hl : load s.buf s.pos with
      | error f => simp [hl] at hr
      | ok x =>
        rw [hl, ok_bind] at hr
        split_ifs at hr
        · exact stay (by simp) hr
        · exact stay hst hr
    rw [if_neg h3] at hr
    split_ifs at hr <;> exact stay hst hr
  cases h with
  | req l => exact key _ _ _ (by simp) (by simp) hr
  | resp l => exact key _ _ _ (by simp) (by simp) hr

end Call

def Field.call (f : Field) : Call := .field (.ofBytes f.key) (.ofBytes f.value)

section Round

variable {h : Start} {f : Field} {n fuel : ℕ} {pre post y : Bytes} {s : Input} {log : List Call}
  {psr : Parser Unit} {r : Step Unit (List Call)}

variable (fuel pre log psr) in
theorem fieldLoop_record (hb : s.buf = pre ++ f.text ++ post) (hp : s.pos = pre.length) :
    ∃ pre', pre'.length = pre.length + f.text.length ∧
      let s' : Input := ⟨pre' ++ post, s.pos + (psr.hp_parsed + f.text.length),
        s.neg || decide ((pre' ++ post).length < s.pos + (psr.hp_parsed + f.text.length))⟩
      httpParserFieldLoop record (fuel + 1) psr s log =
        match post.drop psr.hp_parsed with
        | [] => .ok ⟨.again, ⟨psr.hp_state, psr.hp_parsed + f.text.length, ()⟩, s', log ++ [f.call]⟩
        | x :: t =>
          if x ≠ CR then httpParserFieldLoop record fuel
            ⟨psr.hp_state, psr.hp_parsed + f.text.length, ()⟩ s' (log ++ [f.call])
          else if t.head? = some LF then .ok ⟨.done,
            ⟨.hdrDone, psr.hp_parsed + f.text.length + 2, ()⟩, s', log ++ [f.call] ++ [.hdrDone]⟩
          else .ok ⟨.again, ⟨.hdrCr, psr.hp_parsed + f.text.length + 1, ()⟩, s',
            log ++ [f.call]⟩ := by
  obtain ⟨pre', hpre', h⟩ := fieldLoop_round record psr log pre post fuel hb hp rfl
  exact ⟨pre', hpre', h⟩

variable (pre) in
theorem fieldLoop_field (hs : httpParserFieldLoop record (fuel + 1) psr s log = .ok r)
    (hb : s.buf = pre ++ f.text ++ post) (hp : s.pos = pre.length) (hst : psr.hp_state ≠ .none) :
    log ++ [f.call] <+: r.own ∧ r.psr.hp_state ≠ .none := by
  obtain ⟨pre', -, hround⟩ := fieldLoop_record fuel pre log psr hb hp
  rw [hround] at hs
  cases hd : post.drop psr.hp_parsed with
  | nil =>
    simp only [hd] at hs
    obtain rfl := Except.ok.inj hs
    exact ⟨List.prefix_refl _, hst⟩
  | cons x t =>
    simp only [hd] at hs
    split_ifs at hs
    · exact fieldLoop_prefix hs hst
    · obtain rfl := Except.ok.inj hs
      exact ⟨List.prefix_append _ _, by simp⟩
    · obtain rfl := Except.ok.inj hs
      exact ⟨List.prefix_refl _, by simp⟩

end Round

section Feed

variable {h : Start} {st fin : Feed} {c : Bytes} {cs : List Bytes}

@[simp] theorem feed_nil : feed h [] st = .ok st := rfl

theorem feed_cons : feed h (c :: cs) st = (do feed h cs (← feedStep h st c)) := rfl

theorem feed_stop (hrc : st.rc ≠ .again) : feed h cs st = .ok st := by
  induction cs with
  | nil => rfl
  | cons c cs ih => simpa [feed_cons, feedStep, hrc] using ih

theorem feed_log_grows (hfin : feed h cs st = .ok fin) (hst : st.psr.hp_state ≠ .none) :
    st.log <+: fin.log := by
  induction cs generalizing st with
  | nil =>
    obtain rfl := Except.ok.inj hfin
    exact List.prefix_refl _
  | cons c cs ih =>
    by_cases hrc : st.rc = .again
    · rw [feed_cons, feedStep, if_pos hrc] at hfin
      cases hp : h.parse st.psr (whole (st.rest ++ c)) st.log with
      | error f => simp [hp] at hfin
      | ok r =>
        obtain ⟨hpre, hst'⟩ := parse_prefix hp hst
        simp only [hp, ok_bind, pure_ok] at hfin
        exact hpre.trans (ih hfin hst')
    · rw [feed_stop hrc] at hfin
      obtain rfl := Except.ok.inj hfin
      exact List.prefix_refl _

/-- Chunks gather in front of the parser until the first LF arrives. -/
theorem feed_until (log : List Call) {st0 : PState} {X T r : Bytes} {n : ℕ}
    (hag : ∀ n b, LF ∉ b → h.parse ⟨st0, n, ()⟩ (whole b) log =
      .ok ⟨.again, ⟨st0, 0, ()⟩, whole b, log⟩)
    (hX : LF ∉ X) (hr : r.length ≤ X.length) (hcs : r ++ cs.flatten = X ++ LF :: T) :
    ∃ cs0 c cs' y n', cs = cs0 ++ c :: cs' ∧ LF ∉ cs0.flatten ∧ y ++ cs'.flatten = T ∧
      r ++ cs0.flatten ++ c = X ++ LF :: y ∧
      feed h cs ⟨.again, ⟨st0, n, ()⟩, r, log⟩ = (do
        let s ← h.parse ⟨st0, n', ()⟩ (whole (X ++ LF :: y)) log
        feed h cs' ⟨s.rc, s.psr, (X ++ LF :: y).drop s.psr.hp_parsed, s.own⟩) := by
  induction cs generalizing r n with
  | nil =>
    have hlen := congrArg List.length hcs
    simp only [List.flatten_nil, List.append_nil, List.length_append, List.length_cons] at hlen
    omega
  | cons c cs ih =>
    rw [List.flatten_cons, ← List.append_assoc] at hcs
    by_cases hl : (r ++ c).length ≤ X.length
    · obtain ⟨u, hu⟩ : r ++ c <+: X :=
        List.prefix_of_prefix_length_le ⟨cs.flatten, hcs⟩ ⟨LF :: T, rfl⟩ hl
      have hrc : LF ∉ r ++ c := fun hm => hX (hu ▸ List.mem_append_left _ hm)
      obtain ⟨cs0, c', cs', y, n', rfl, hcs0, hy, hcut, hfeed⟩ := ih (n := 0) hl hcs
      refine ⟨c :: cs0, c', cs', y, n', rfl, ?_, hy, by simpa using hcut, ?_⟩
      · simp only [List.flatten_cons, List.mem_append, not_or] at hrc ⊢
        exact ⟨hrc.2, hcs0⟩
      · simpa only [feed_cons, feedStep, if_true, hag n _ hrc, ok_bind, pure_ok, List.drop_zero]
          using hfeed
    · obtain ⟨y, hy⟩ : X ++ [LF] <+: r ++ c :=
        List.prefix_of_prefix_length_le (show _ <+: r ++ c ++ cs.flatten from ⟨T, by simp [hcs]⟩)
          ⟨cs.flatten, rfl⟩ (by simp at hl ⊢; omega)
      have hy' : r ++ c = X ++ LF :: y := by simp [← hy]
      refine ⟨[], c, cs, y, n, rfl, by simp, ?_, by simpa using hy', ?_⟩
      · rw [hy', List.append_assoc, List.append_cancel_left_eq, List.cons_append,
          List.cons.injEq] at hcs
        exact hcs.2
      · simp only [feed_cons, feedStep, if_true, hy', bind_assoc, pure_ok, ok_bind]

end Feed

section Head

variable {h : Start} {f : Field} {fs : List Field} {n : ℕ} {y : Bytes} {log : List Call}
  {cs : List Bytes} {r : Bytes} {fin : Feed}

theorem Start.text_split (h : Start) : ∃ X, h.text = X ++ [LF] ∧ LF ∉ X := by
  cases h with
  | req l => exact ⟨l.line ++ [CR], by simp [Start.text, ReqLine.text, crlf], l.line_lf⟩
  | resp l => exact ⟨l.line ++ [CR], by simp [Start.text, StatusLine.text, crlf], l.line_lf⟩

theorem Field.text_split (f : Field) : f.text = f.line ++ [CR] ++ [LF] := by simp [Field.text, crlf]

theorem Start.doneState_ne (h : Start) : h.doneState ≠ .none := by
  cases h <;> simp [Start.doneState]

theorem parse_parsed (h : Start) (st : PState) (s : Input) (log : List Call) (n : ℕ) :
    h.parse ⟨st, n, ()⟩ s log = h.parse ⟨st, 0, ()⟩ s log := by
  cases h <;> rfl

/-- A call in the initial state that sees the whole first line. -/
theorem parse_text (h : Start) (y : Bytes) :
    ∃ pre, pre.length = h.text.length ∧ h.parse fresh (whole (h.text ++ y)) [] =
      if y = [] then
        .ok ⟨.again, ⟨h.doneState, h.text.length, ()⟩, ⟨pre ++ y, pre.length, false⟩, [h.call]⟩
      else httpParserFieldLoop record (y.length + 1) ⟨h.doneState, h.text.length, ()⟩
        ⟨pre ++ y, pre.length, false⟩ [h.call] := by
  have key : ∀ (pre : Bytes) (psr : Parser Unit), (if (⟨pre ++ y, pre.length,
    false⟩ : Input).s_len > 0
      then httpParserField record psr ⟨pre ++ y, pre.length, false⟩ [h.call]
      else return ⟨.again, psr, ⟨pre ++ y, pre.length, false⟩, [h.call]⟩) =
      if y = [] then .ok ⟨.again, psr, ⟨pre ++ y, pre.length, false⟩, [h.call]⟩
      else httpParserFieldLoop record (y.length + 1) psr ⟨pre ++ y, pre.length,
        false⟩ [h.call] := by
    intro pre psr
    have hlen : (⟨pre ++ y, pre.length, false⟩ : Input).s_len = y.length := by simp [Input.s_len]
    rw [httpParserField, hlen, Int.toNat_natCast]
    cases y <;> simp
  cases h with
  | req l =>
    obtain ⟨pre, hpre, hline⟩ := reqLine_text record { fresh with hp_parsed := 0 } [] [] (l := l)
      (s := whole (l.text ++ y)) rfl rfl
    refine ⟨pre, by simpa [Start.text] using hpre, ?_⟩
    rw [← key, Start.parse, httpParserReq]
    exact httpParser_first rfl hline
  | resp l =>
    obtain ⟨pre, hpre, hline⟩ := statusLine_text record { fresh with hp_parsed := 0 } [] [] (l := l)
      (s := whole (l.text ++ y)) rfl rfl
    refine ⟨pre, by simpa [Start.text] using hpre, ?_⟩
    rw [← key, Start.parse, httpParserResp]
    exact httpParser_first rfl hline

/-- Nothing happens behind the first line while no field line is complete. -/
theorem parse_text_noLf (hy : LF ∉ y) : ∃ s, h.parse fresh (whole (h.text ++ y)) [] =
    .ok ⟨.again, ⟨h.doneState, h.text.length, ()⟩, s, [h.call]⟩ := by
  obtain ⟨pre, -, hp⟩ := parse_text h y
  rw [hp]
  split_ifs
  · exact ⟨_, rfl⟩
  · exact ⟨_, fieldLoop_none (cursor_noLf (by simpa using hy))⟩

/-- Nothing happens behind the first field when what follows is no longer than the first line. -/
theorem parse_text_field (hy : y.length ≤ h.text.length) :
    ∃ s, h.parse fresh (whole (h.text ++ (f.text ++ y))) [] =
      .ok ⟨.again, ⟨h.doneState, h.text.length + f.text.length, ()⟩, s, [h.call, f.call]⟩ := by
  obtain ⟨pre, hpre, hp⟩ := parse_text h (f.text ++ y)
  obtain ⟨pre', -, hround⟩ := fieldLoop_record (f.text ++ y).length pre [h.call]
    ⟨h.doneState, h.text.length, ()⟩ (s := ⟨pre ++ (f.text ++ y), pre.length, false⟩)
    (List.append_assoc pre f.text y).symm rfl
  rw [hp, if_neg (by simp [Field.text, crlf]), hround]
  simp only [List.drop_eq_nil_of_le hy]
  exact ⟨_, rfl⟩

/-- A call behind the first line that sees a whole field line reports the field. -/
theorem parse_done_field {s : Step Unit (List Call)}
    (hs : h.parse ⟨h.doneState, n, ()⟩ (whole (f.text ++ y)) log = .ok s) :
    log ++ [f.call] <+: s.own ∧ s.psr.hp_state ≠ .none := by
  rw [parse_done, httpParserField] at hs
  exact fieldLoop_field [] hs rfl rfl h.doneState_ne

variable (log) in
/-- A call that sees a field line and a part of the next one keeps that part. -/
theorem parse_field_open (hy : LF ∉ y) (hhd : y.head? ≠ some CR) :
    ∃ s, h.parse ⟨h.doneState, n, ()⟩ (whole (f.text ++ y)) log =
      .ok ⟨.again, ⟨h.doneState, f.text.length, ()⟩, s, log ++ [f.call]⟩ := by
  obtain ⟨pre, hpre, hround⟩ :=
    fieldLoop_record (whole (f.text ++ y)).s_len.toNat [] log ⟨h.doneState, 0, ()⟩
    (s := whole (f.text ++ y)) rfl rfl
  rw [parse_done, httpParserField, hround]
  simp only [List.drop_zero, Nat.zero_add]
  cases y with
  | nil => exact ⟨_, rfl⟩
  | cons x t =>
    have hx : x ≠ CR := by simpa using hhd
    obtain ⟨fuel, hfuel⟩ : ∃ fuel, (whole (f.text ++ x :: t)).s_len.toNat = fuel + 1 :=
      ⟨f.text.length + t.length, by simp [whole, Input.s_len]; omega⟩
    have hd : (pre ++ x :: t).drop ((whole (f.text ++ x :: t)).pos + f.text.length) = x :: t := by
      rw [List.length_nil, Nat.zero_add] at hpre
      rw [← hpre]
      simp [whole]
    dsimp only
    rw [if_pos hx, hfuel, fieldLoop_none (cursor_noLf (by simpa only [hd] using hy))]
    exact ⟨_, rfl⟩

variable (log) in
/-- A call that sees a field line and the CR of the blank line stops behind the CR. -/
theorem parse_field_cr : ∃ s, h.parse ⟨h.doneState, n, ()⟩ (whole (f.text ++ [CR])) log =
    .ok ⟨.again, ⟨.hdrCr, f.text.length + 1, ()⟩, s, log ++ [f.call]⟩ := by
  obtain ⟨pre, -, hround⟩ :=
    fieldLoop_record (whole (f.text ++ [CR])).s_len.toNat [] log ⟨h.doneState, 0, ()⟩
    (s := whole (f.text ++ [CR])) rfl rfl
  rw [parse_done, httpParserField, hround]
  simp only [Nat.zero_add]
  exact ⟨_, rfl⟩

variable (log) in
theorem parse_field_blank : ∃ s, h.parse ⟨h.doneState, n, ()⟩ (whole (f.text ++ crlf)) log = .ok s ∧
    s.rc = .done := by
  obtain ⟨pre, -, hround⟩ :=
    fieldLoop_record (whole (f.text ++ crlf)).s_len.toNat [] log ⟨h.doneState, 0, ()⟩
    (s := whole (f.text ++ crlf)) rfl rfl
  rw [parse_done, httpParserField, hround]
  exact ⟨_, rfl, rfl⟩

/-- A call that sees two field lines reports both. -/
theorem parse_field_field {g : Field} {s : Step Unit (List Call)}
    (hs : h.parse ⟨h.doneState, n, ()⟩ (whole (f.text ++ (g.text ++ y))) log = .ok s) :
    log ++ [f.call] ++ [g.call] <+: s.own ∧ s.psr.hp_state ≠ .none := by
  obtain ⟨pre, hpre, hround⟩ :=
    fieldLoop_record (whole (f.text ++ (g.text ++ y))).s_len.toNat [] log
    ⟨h.doneState, 0, ()⟩ (s := whole (f.text ++ (g.text ++ y))) rfl rfl
  obtain ⟨x, t, hg⟩ := List.exists_cons_of_ne_nil g.name_ne
  obtain ⟨fuel, hfuel⟩ : ∃ fuel, (whole (f.text ++ (g.text ++ y))).s_len.toNat = fuel + 1 := by
    refine ⟨f.text.length + (g.line ++ [CR] ++ y).length, ?_⟩
    simp [whole, Input.s_len, Field.text_split g]
    omega
  have hx : x ≠ CR := fun h => g.name_free CR (by decide) (by simp [hg, h])
  have hgt : g.text ++ y = x ::
    (t ++ COLON :: (List.replicate g.gap SP ++ g.value) ++ crlf ++ y) := by
    simp [Field.text, Field.line, hg]
  rw [parse_done, httpParserField, hround] at hs
  simp only [List.drop_zero] at hs
  rw [hgt] at hs
  dsimp only at hs
  rw [if_pos hx, ← hgt, hfuel] at hs
  exact fieldLoop_field pre hs (List.append_assoc pre g.text y).symm
    (by simpa [whole] using hpre.symm) h.doneState_ne

theorem parse_hdrCr : h.parse ⟨.hdrCr, n, ()⟩ (whole [LF]) log =
    .ok ⟨.done, ⟨.hdrDone, 1, ()⟩, ⟨[LF], 1, false⟩, log⟩ := by
  cases h <;> rfl

variable (log) in
/-- The blank line at the start of a call is an error. -/
theorem parse_done_blank : ∃ s, h.parse ⟨h.doneState, n, ()⟩ (whole crlf) log = .ok s ∧
    s.rc = .error := by
  rw [parse_done, httpParserField]
  obtain ⟨buf, hr⟩ := fieldLoop_line record ⟨h.doneState, 0, ()⟩ log [] 2 (s := whole crlf)
    (k := 0) (w := []) rfl rfl (by decide) (by decide)
  exact ⟨_, hr, rfl⟩

theorem feed_blank (hr : r.length < 2) (hcs : r ++ cs.flatten = crlf)
    (hfin : feed h cs ⟨.again, ⟨h.doneState, n, ()⟩, r, log⟩ = .ok fin) : fin.rc = .error := by
  obtain ⟨cs0, c, cs', y, n', rfl, -, hy, -, hfeed⟩ := feed_until log (h := h) (X := [CR]) (T := [])
    (n := n) (fun _ _ hb => parse_done_noLf hb) (by decide) (Nat.le_of_lt_succ hr) hcs
  obtain ⟨rfl, -⟩ := List.append_eq_nil_iff.1 hy
  obtain ⟨s, hs, hrc⟩ := parse_done_blank log (h := h) (n := n')
  have hs' : h.parse ⟨h.doneState, n', ()⟩ (whole ([CR] ++ LF :: [])) log = .ok s := hs
  rw [hfeed, hs', ok_bind, feed_stop (by simp [hrc])] at hfin
  obtain rfl := Except.ok.inj hfin
  exact hrc

theorem feed_field {T : Bytes} (hr : cs ≠ [] ∨ r.length < f.text.length)
    (hcs : r ++ cs.flatten = f.text ++ T)
    (hfin : feed h cs ⟨.again, ⟨h.doneState, n, ()⟩, r, log⟩ = .ok fin) :
    log ++ [f.call] <+: fin.log := by
  have after : ∀ {n' y cs'} {rest : Step Unit (List Call) → Bytes}, (do
      let s ← h.parse ⟨h.doneState, n', ()⟩ (whole (f.text ++ y)) log
      feed h cs' ⟨s.rc, s.psr, rest s, s.own⟩) = .ok fin → log ++ [f.call] <+: fin.log := by
    intro n' y cs' rest hf
    cases hs : h.parse ⟨h.doneState, n', ()⟩ (whole (f.text ++ y)) log with
    | error e => simp [hs] at hf
    | ok s =>
      rw [hs, ok_bind] at hf
      obtain ⟨hpre, hst⟩ := parse_done_field hs
      exact hpre.trans (feed_log_grows hf hst)
  by_cases hl : r.length < f.text.length
  · rw [Field.text_split] at hcs hl
    have hle : r.length ≤ (f.line ++ [CR]).length := by
      simp at hl ⊢
      omega
    obtain ⟨cs0, c, cs', y, n', rfl, -, -, -, hfeed⟩ :=
      feed_until log (h := h) (X := f.line ++ [CR])
      (T := T) (n := n) (fun _ _ hb => parse_done_noLf hb) f.line_lf
      hle (by simpa using hcs)
    rw [hfeed, show f.line ++ [CR] ++ LF :: y = f.text ++ y by simp [Field.text, crlf]] at hfin
    exact after hfin
  · obtain ⟨c, cs, rfl⟩ := List.exists_cons_of_ne_nil (hr.resolve_right hl)
    obtain ⟨y, hy⟩ : f.text <+: r ++ c := by
      rw [List.flatten_cons, ← List.append_assoc] at hcs
      exact List.prefix_of_prefix_length_le ⟨T, rfl⟩ ⟨cs.flatten, hcs⟩ (by simp; omega)
    rw [feed_cons, feedStep, if_pos rfl, ← hy] at hfin
    simp only [bind_assoc, pure_ok, ok_bind] at hfin
    exact after hfin

theorem flatten_ne_nil (hcs : cs ≠ []) (hne : [] ∉ cs) : cs.flatten ≠ [] := by
  obtain ⟨c, cs, rfl⟩ := List.exists_cons_of_ne_nil hcs
  intro h
  rw [List.flatten_cons, List.append_eq_nil_iff] at h
  exact hne (h.1 ▸ List.mem_cons_self)

/-- Resuming in front of the rest of a head ends in an error or reports a field. -/
theorem feed_tail (hcs : r ++ cs.flatten = fieldsText fs ++ crlf) (hne : [] ∉ cs) (hcs0 : cs ≠ [])
    (hfin : feed h cs ⟨.again, ⟨h.doneState, n, ()⟩, r, log⟩ = .ok fin) :
    (fin.log, fin.rc) ≠ (log, .again) := by
  cases fs with
  | nil =>
    have hpos := List.length_pos_iff.2 (flatten_ne_nil hcs0 hne)
    have hlen := congrArg List.length hcs
    simp only [fieldsText_nil, List.nil_append, List.length_append, crlf, List.length_cons,
      List.length_nil] at hlen
    have hrc := feed_blank (by omega) hcs hfin
    simp [hrc]
  | cons g fs =>
    rw [fieldsText_cons, List.append_assoc] at hcs
    have hlen := (feed_field (.inl hcs0) hcs hfin).length_le
    intro h
    rw [(Prod.mk.inj h).1, List.length_append, List.length_singleton] at hlen
    omega

theorem crlf_or_field (fs : List Field) : fieldsText fs ++ crlf = crlf ∨
    ∃ g fs', fs = g :: fs' ∧ (fieldsText fs ++ crlf).head? ≠ some CR := by
  cases fs with
  | nil => exact .inl rfl
  | cons g fs =>
    refine .inr ⟨g, fs, rfl, ?_⟩
    rw [fieldsText_cons, List.append_assoc, Field.text, Field.line, List.append_assoc,
      List.append_assoc]
    exact head?_ne_of_free g.name_ne (g.name_free CR (by decide))

/-- What a call can see of the text behind a field line. -/
theorem head_cases {z : Bytes} (hyz : y ++ z = fieldsText fs ++ crlf) :
    (LF ∉ y ∧ y.head? ≠ some CR ∧ y.length < (fieldsText fs ++ crlf).length) ∨ y = [CR] ∨ y = crlf ∨
      ∃ g y', y = Field.text g ++ y' := by
  obtain hblank | ⟨g, fs, rfl, hhd⟩ := crlf_or_field fs
  · rw [hblank] at hyz ⊢
    match y, hyz with
    | [], _ => exact .inl (by simp [crlf])
    | [x], h => exact .inr (.inl (by simpa using (List.cons.inj h).1))
    | [x, x'], h =>
      obtain ⟨hx, h⟩ := List.cons.inj h
      obtain ⟨hx', -⟩ := List.cons.inj h
      exact .inr (.inr (.inl (by rw [hx, hx']; rfl)))
    | x :: x' :: x'' :: t, h => simp [crlf] at h
  · by_cases hl : y.length < g.text.length
    · have hyl : y <+: g.line ++ [CR] := by
        refine List.prefix_of_prefix_length_le ⟨z, hyz⟩ ?_
          (by simp [Field.text, crlf] at hl ⊢; omega)
        exact ⟨LF :: (fieldsText fs ++ crlf), by simp [Field.text, crlf]⟩
      refine .inl ⟨fun h => g.line_lf (hyl.subset h), ?_, ?_⟩
      · rw [← hyz] at hhd
        cases y with
        | nil => simp
        | cons x y => exact hhd
      · simp
        omega
    · obtain ⟨y', hy'⟩ : g.text <+: y := by
        refine List.prefix_of_prefix_length_le ?_ (List.prefix_append y z) (not_lt.1 hl)
        exact ⟨fieldsText fs ++ crlf, by simp [hyz]⟩
      exact .inr (.inr (.inr ⟨g, y', hy'.symm⟩))

/-- Resuming in front of the first field leads behind it with the cursor in the right
place, so the head goes on there. -/
theorem feed_first (hr : r.length < f.text.length)
    (hcs : r ++ cs.flatten = f.text ++ (fieldsText fs ++ crlf)) (hne : [] ∉ cs)
    (hfin : feed h cs ⟨.again, ⟨h.doneState, n, ()⟩, r, log⟩ = .ok fin) :
    (fin.log, fin.rc) ≠ (log ++ [f.call], .again) := by
  rw [Field.text_split] at hcs hr
  have hle : r.length ≤ (f.line ++ [CR]).length := by
    simp at hr ⊢
    omega
  obtain ⟨cs0, c, cs', y, n', rfl, -, hy, -, hfeed⟩ := feed_until log (h := h) (X := f.line ++ [CR])
    (T := fieldsText fs ++ crlf) (n := n) (fun _ _ hb => parse_done_noLf hb) f.line_lf
    hle (by simpa using hcs)
  have hne' : [] ∉ cs' := fun hm => hne (by simp [hm])
  rw [hfeed, show f.line ++ [CR] ++ LF :: y = f.text ++ y by simp [Field.text, crlf]] at hfin
  rcases head_cases hy with ⟨hLF, hhd, hlt⟩ | rfl | rfl | ⟨g, y, rfl⟩
  · obtain ⟨s, hs⟩ := parse_field_open log (h := h) (f := f) (n := n') hLF hhd
    simp only [hs, ok_bind, List.drop_left] at hfin
    refine feed_tail hy hne' ?_ hfin
    rintro rfl
    simp [← hy] at hlt
  · obtain ⟨s, hs⟩ := parse_field_cr log (h := h) (f := f) (n := n')
    simp only [hs, ok_bind] at hfin
    obtain hblank | ⟨g, fs, rfl, hg⟩ := crlf_or_field fs
    case inr =>
      rw [← hy] at hg
      exact absurd rfl hg
    rw [hblank, crlf, List.singleton_append, List.cons.injEq] at hy
    obtain ⟨c', cs', rfl⟩ : ∃ c' cs'', cs' = c' :: cs'' := by
      refine List.exists_cons_of_ne_nil ?_
      rintro rfl
      simp at hy
    have hc' : c' ≠ [] := fun h => hne' (by simp [h])
    obtain ⟨rfl, -⟩ : c' = [LF] ∧ cs'.flatten = [] := by
      simpa [List.append_eq_singleton_iff, hc'] using hy.2
    have hd : (f.text ++ [CR]).drop (f.text.length + 1) = [] := by simp
    rw [feed_cons, feedStep, if_pos rfl] at hfin
    simp only [hd, List.nil_append, parse_hdrCr, ok_bind, pure_ok] at hfin
    rw [feed_stop (by simp)] at hfin
    obtain rfl := Except.ok.inj hfin
    simp
  · obtain ⟨s, hs, hrc⟩ := parse_field_blank log (h := h) (f := f) (n := n')
    rw [hs, ok_bind, feed_stop (by simp [hrc])] at hfin
    obtain rfl := Except.ok.inj hfin
    simp [hrc]
  · cases hs : h.parse ⟨h.doneState, n', ()⟩ (whole (f.text ++ (g.text ++ y))) log with
    | error e => simp [hs] at hfin
    | ok s =>
      rw [hs, ok_bind] at hfin
      obtain ⟨hpre, hst⟩ := parse_field_field hs
      have hlen := (hpre.trans (feed_log_grows hfin hst)).length_le
      intro h
      rw [(Prod.mk.inj h).1, List.length_append, List.length_singleton] at hlen
      omega

theorem cutsInFirstLine_iff {cs0 : List Bytes} (cs' : List Bytes) {c X : Bytes}
    (hcs0 : LF ∉ cs0.flatten)
    (hcut : cs0.flatten ++ c = X ++ LF :: y) : CutsInFirstLine (cs0 ++ c :: cs') ↔ cs' = [] := by
  constructor
  · intro h
    by_contra hcs'
    apply h
    rw [List.dropLast_append_of_ne_nil (by simp), List.dropLast_cons_of_ne_nil hcs',
      List.flatten_append, List.flatten_cons, ← List.append_assoc, hcut]
    simp
  · rintro rfl
    rw [CutsInFirstLine, List.dropLast_concat]
    exact hcs0

theorem outcome_single (b : Bytes) : outcome h [b] =
    (h.parse fresh (whole b) []).map fun s => (s.own, s.rc) := by
  rw [outcome, feed_cons, feedStep, if_pos rfl, List.nil_append]
  cases h.parse fresh (whole b) [] <;> rfl

theorem outcome_whole (hshort : (fieldsText fs ++ crlf).length ≤ h.text.length) :
    outcome h [headText h (f :: fs)] = .ok ([h.call, f.call], .again) := by
  obtain ⟨s, hs⟩ := parse_text_field (h := h) (f := f) hshort
  rw [outcome_single, headText, fieldsText_cons, List.append_assoc, List.append_assoc, hs]
  rfl

/-- A head fed with a cut behind its first LF, when the bytes behind the first field are
no more than those before it. -/
theorem outcome_cut (hshort : (fieldsText fs ++ crlf).length ≤ h.text.length) {y : Bytes}
    (hy : y ++ cs.flatten = fieldsText (f :: fs) ++ crlf) (hne : [] ∉ cs) (hcs : cs ≠ [])
    (hfin : (do
      let s ← h.parse fresh (whole (h.text ++ y)) []
      feed h cs ⟨s.rc, s.psr, (h.text ++ y).drop s.psr.hp_parsed, s.own⟩) = .ok fin) :
    (fin.log, fin.rc) ≠ ([h.call, f.call], .again) := by
  rw [fieldsText_cons, List.append_assoc] at hy
  by_cases hl : y.length < f.text.length
  · have hLF : LF ∉ y := by
      have hyl : y <+: f.line ++ [CR] := by
        refine List.prefix_of_prefix_length_le ⟨cs.flatten, hy⟩ ?_
          (by simp [Field.text, crlf] at hl ⊢; omega)
        exact ⟨LF :: (fieldsText fs ++ crlf), by simp [Field.text, crlf]⟩
      exact fun h => f.line_lf (hyl.subset h)
    obtain ⟨s, hs⟩ := parse_text_noLf (h := h) hLF
    simp only [hs, ok_bind, List.drop_left] at hfin
    exact feed_first hl hy hne hfin
  · obtain ⟨y, rfl⟩ : f.text <+: y :=
      List.prefix_of_prefix_length_le ⟨fieldsText fs ++ crlf, hy.symm⟩
        (List.prefix_append y cs.flatten) (not_lt.1 hl)
    rw [List.append_assoc, List.append_cancel_left_eq] at hy
    have hyl := congrArg List.length hy
    rw [List.length_append] at hyl
    obtain ⟨s, hs⟩ := parse_text_field (h := h) (f := f) (y := y) (by omega)
    have hd : (h.text ++ (f.text ++ y)).drop (h.text.length + f.text.length) = y := by
      rw [← List.drop_drop, List.drop_left, List.drop_left]
    simp only [hs, ok_bind, hd] at hfin
    exact feed_tail hy hne hcs hfin

/-- Cuts before the first LF do not matter. When the first line is at least as long as all
behind the first field, as it is for every head with one field, every other cut does. -/
theorem splitInvariant_iff (h : Start) (f : Field) (fs : List Field) (chunks : List Bytes)
    (hne : [] ∉ chunks) (hcut : chunks.flatten = headText h (f :: fs)) :
    (CutsInFirstLine chunks → SplitInvariant h chunks) ∧
      ((fieldsText fs ++ crlf).length ≤ h.text.length →
        (SplitInvariant h chunks ↔ CutsInFirstLine chunks)) := by
  obtain ⟨X, hX, hXLF⟩ := h.text_split
  have hcut' : [] ++ chunks.flatten = X ++ LF :: (fieldsText (f :: fs) ++ crlf) := by
    simp [hcut, headText, hX]
  obtain ⟨cs0, c, cs', y, n, rfl, hcs0, hy, hc, hfeed⟩ := feed_until [] (h := h) (n := 0)
    (fun _ _ hb => parse_noLf hb) hXLF (Nat.zero_le _) hcut'
  rw [List.nil_append] at hc
  have hXy : X ++ LF :: y = h.text ++ y := by simp [hX]
  rw [parse_parsed, hXy] at hfeed
  have hcuts := cutsInFirstLine_iff cs' hcs0 hc
  have hall : CutsInFirstLine (cs0 ++ c :: cs') → SplitInvariant h (cs0 ++ c :: cs') := by
    rw [hcuts]
    rintro rfl
    obtain rfl : y = fieldsText (f :: fs) ++ crlf := by simpa using hy
    rw [SplitInvariant, hcut, outcome_single, outcome, fresh, hfeed, headText, List.append_assoc]
    cases h.parse ⟨.none, 0, ()⟩ (whole (h.text ++ (fieldsText (f :: fs) ++ crlf))) [] <;> rfl
  refine ⟨hall, fun hshort => ⟨fun hinv => ?_, hall⟩⟩
  rw [hcuts]
  by_contra hcs'
  rw [SplitInvariant, hcut, outcome_whole hshort, outcome] at hinv
  cases hfin : feed h (cs0 ++ c :: cs') ⟨.again, fresh, [], []⟩ with
  | error e =>
    rw [hfin] at hinv
    cases hinv
  | ok fin =>
    rw [hfin] at hinv
    exact outcome_cut hshort hy (fun hm => hne (by simp [hm])) hcs' (hfeed ▸ hfin)
      (Except.ok.inj hinv)

theorem splitInvariant_get : SplitInvariant (.req getRoot)
    [ascii "GET", ascii " / HTTP/1.1\r", ascii "\nHost: a\r\n\r\n"] :=
  (splitInvariant_iff (.req getRoot) hostField [] _ (by decide) (by decide)).1
    (by unfold CutsInFirstLine; decide)

end Head

theorem splitInvariant_false :
    ¬ ∀ (h : Start) (fs : List Field) (chunks : List Bytes), fs ≠ [] → [] ∉ chunks →
      chunks.flatten = headText h fs → SplitInvariant h chunks := by
  intro h
  have h :=
    h (.req getRoot) [hostField] [getRoot.text, hostField.text ++ crlf] (by simp) (by decide)
    (by decide)
  revert h
  unfold SplitInvariant
  decide

end Plume.Http
