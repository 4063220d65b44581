import Plume.Http.Fields

/-! Well-formed message heads, their texts, and what the parser makes of these
texts one line at a time. -/

namespace Plume.Http
open CLib

/-- None of the bytes `cs` occurs in `b`. -/
def Free (cs b : Bytes) : Prop := ∀ c ∈ cs, c ∉ b

instance (cs b : Bytes) : Decidable (Free cs b) :=
  (List.decidableBAll (fun c => c ∉ b) cs : Decidable (∀ c ∈ cs, c ∉ b))

def mthdText : Mthd → Bytes
  | .connect => ascii "CONNECT"
  | .delete => ascii "DELETE"
  | .get => ascii "GET"
  | .head => ascii "HEAD"
  | .post => ascii "POST"
  | .put => ascii "PUT"
  | .options => ascii "OPTIONS"
  | .trace => ascii "TRACE"

inductive Version
  | v10 | v11
deriving DecidableEq, Repr

def Version.ver : Version → Ver
  | .v10 => .v10
  | .v11 => .v11

def Version.text : Version → Bytes
  | .v10 => ascii "HTTP/1.0"
  | .v11 => ascii "HTTP/1.1"

structure ReqLine where
  mthd : Mthd
  url : Bytes
  ver : Version
  url_ne : url ≠ []
  url_free : Free [SP, CR, LF, 0] url

def ReqLine.line (l : ReqLine) : Bytes := mthdText l.mthd ++ SP :: (l.url ++ SP :: l.ver.text)

structure StatusLine where
  ver : Version
  code : Bytes
  reason : Bytes
  code_ne : code ≠ []
  code_digit : ∀ c ∈ code, isDigit c = true
  reason_free : Free [CR, LF, 0] reason
  reason_head : reason.head? ≠ some SP

def StatusLine.line (l : StatusLine) : Bytes := l.ver.text ++ SP :: (l.code ++ SP :: l.reason)

/-- A header field, written with `gap` spaces behind the colon. -/
structure Field where
  name : Bytes
  gap : ℕ
  value : Bytes
  name_ne : name ≠ []
  name_free : Free [COLON, CR, LF, 0, SP] name
  value_free : Free [CR, LF, 0] value
  value_head : value.head? ≠ some SP

def Field.line (f : Field) : Bytes := f.name ++ COLON :: (List.replicate f.gap SP ++ f.value)

def crlf : Bytes := [CR, LF]

def ReqLine.text (l : ReqLine) : Bytes := l.line ++ crlf

def StatusLine.text (l : StatusLine) : Bytes := l.line ++ crlf

def Field.text (f : Field) : Bytes := f.line ++ crlf

def fieldsText (fs : List Field) : Bytes := (fs.map Field.text).flatten

@[simp] theorem fieldsText_nil : fieldsText [] = [] := rfl

@[simp] theorem fieldsText_cons (f : Field) (fs : List Field) :
    fieldsText (f :: fs) = f.text ++ fieldsText fs := rfl

def Field.key (f : Field) : Bytes := f.name.take (keyLen f.name.length)

theorem Field.key_eq_name_iff (f : Field) : f.key = f.name ↔ f.name.length ≠ 33 := by
  rw [Field.key, List.take_eq_self_iff, keyLen]
  split <;> omega

theorem token_some {m t : Bytes} (a : ℕ) (hm : SP ∉ m) (ht : t.head? ≠ some SP) :
    token (m ++ SP :: (List.replicate a SP ++ t)) = some (m, t) := by
  rw [token, cut_some hm, Option.map_some, dropWhile_spaces ht]

theorem upToNul_of_free {l : Bytes} (h : 0 ∉ l) : upToNul l = l := by
  rw [upToNul, List.takeWhile_eq_self_iff]
  intro c hc
  simpa using ne_of_mem_of_not_mem hc h

theorem head?_ne_of_free {c : UInt8} {a b : Bytes} (ha : a ≠ []) (hc : c ∉ a) :
    (a ++ b).head? ≠ some c := by
  obtain ⟨x, a, rfl⟩ := List.exists_cons_of_ne_nil ha
  rintro ⟨⟩
  exact hc List.mem_cons_self

theorem token_exact {m t : Bytes} (hm : SP ∉ m) (ht : t.head? ≠ some SP) :
    token (m ++ SP :: t) = some (m, t) := token_some 0 hm ht

theorem ReqLine.head_line (l : ReqLine) :
    reqLineHead l.line = some (l.mthd, l.url, l.ver.text) := by
  have hm : SP ∉ mthdText l.mthd := by cases l.mthd <;> decide
  have hv : l.ver.text.head? ≠ some SP := by cases l.ver <;> decide
  have hmthd : mthdOf (mthdText l.mthd) = some l.mthd := by cases l.mthd <;> decide
  have hsp : SP ∉ l.url := l.url_free SP (by decide)
  simp [reqLineHead, ReqLine.line, token_exact hm (head?_ne_of_free l.url_ne hsp),
    token_exact hsp hv, hmthd]

theorem ReqLine.line_lf (l : ReqLine) : LF ∉ l.line ++ [CR] := by
  have hm : LF ∉ mthdText l.mthd := by cases l.mthd <;> decide
  have hv : LF ∉ l.ver.text := by cases l.ver <;> decide
  simp [ReqLine.line, hm, hv, l.url_free LF (by decide)]

theorem ReqLine.line_head (l : ReqLine) : (l.line ++ [CR]).head? ≠ some SP := by
  rw [ReqLine.line, List.append_assoc]
  cases l.mthd <;> exact head?_ne_of_free (by decide) (by decide)

theorem Version.versionOf_text (v : Version) : versionOf v.text = some v.ver := by
  cases v <;> decide

theorem Version.text_length (v : Version) : v.text.length = 8 := by cases v <;> rfl

theorem StatusLine.token_line (l : StatusLine) :
    token l.line = some (l.ver.text, l.code ++ SP :: l.reason) := by
  have hv : SP ∉ l.ver.text := by cases l.ver <;> decide
  have hc : SP ∉ l.code := fun h => absurd (l.code_digit SP h) (by decide)
  exact token_exact hv (head?_ne_of_free l.code_ne hc)

theorem StatusLine.tail_line (l : StatusLine) :
    statusTail l.ver.text (l.code ++ SP :: l.reason) = some (l.ver.ver, atoi l.code, l.reason) := by
  have hc : ∀ c, isDigit c = false → c ∉ l.code := fun c hc h => by simp [l.code_digit c h] at hc
  simp [statusTail, l.ver.versionOf_text, token_exact (hc SP (by decide)) l.reason_head,
    upToNul_of_free (hc 0 (by decide))]

theorem StatusLine.line_lf (l : StatusLine) : LF ∉ l.line ++ [CR] := by
  have hv : LF ∉ l.ver.text := by cases l.ver <;> decide
  have hc : LF ∉ l.code := fun h => absurd (l.code_digit LF h) (by decide)
  simp [StatusLine.line, hv, hc, l.reason_free LF (by decide)]

theorem StatusLine.line_head (l : StatusLine) : (l.line ++ [CR]).head? ≠ some SP := by
  rw [StatusLine.line, List.append_assoc]
  cases l.ver <;> exact head?_ne_of_free (by decide) (by decide)

theorem Field.fieldOf_line (f : Field) : fieldOf f.line = some (f.key, f.value) := by
  have h0 : 0 ∉ f.line := by
    simp [Field.line, f.name_free 0 (by decide), f.value_free 0 (by decide)]
  rw [fieldOf, upToNul_of_free h0, Field.line, cut_some (f.name_free COLON (by decide)),
    Option.map_some]
  simp [dropWhile_spaces f.value_head, Field.key]

theorem Field.line_lf (f : Field) : LF ∉ f.line ++ [CR] := by
  simp [Field.line, f.name_free LF (by decide), f.value_free LF (by decide)]

theorem Field.line_head (f : Field) : (f.line ++ [CR]).head? ≠ some SP := by
  rw [Field.line, List.append_assoc]
  exact head?_ne_of_free f.name_ne (f.name_free SP (by decide))

section Lines

variable {δ σ : Type} {hooks : Hooks δ σ} {psr : Parser δ} {s : Input} {own : σ}
  {pre post : Bytes}

variable (hooks psr own pre) in
/-- The request-line parser on a well-formed line. -/
theorem reqLine_text {l : ReqLine} (hb : s.buf = pre ++ l.text ++ post) (hp : s.pos = pre.length) :
    ∃ pre', pre'.length = pre.length + l.text.length ∧
      httpParserReqLine hooks psr s own = (do
        let (rc, data, own) ← hooks.hp_on_req_line l.mthd (.ofBytes l.url) l.ver.ver psr.hp_data own
        return ⟨if rc = 0 then .done else .brk, ⟨.rlDone, l.text.length, data⟩,
          ⟨pre' ++ post, pre'.length, s.neg⟩, own⟩) := by
  have hb' : s.buf = pre ++ List.replicate 0 SP ++ (l.line ++ [CR]) ++ LF :: post := by
    simpa [ReqLine.text, crlf] using hb
  have h := reqLine_line hooks psr own pre hb' hp l.line_lf l.line_head
  have hv : ¬ l.ver.text.length + post.length < 3 := by
    rw [l.ver.text_length]
    omega
  simp only [l.head_line, hv, if_false, l.ver.versionOf_text] at h
  obtain ⟨pre', hpre', h⟩ := h
  refine ⟨pre' ++ [LF], by simp [ReqLine.text, crlf, hpre']; omega, ?_⟩
  simpa [ReqLine.text, crlf] using h

variable (hooks psr own pre) in
theorem statusLine_text {l : StatusLine} (hb : s.buf = pre ++ l.text ++ post)
    (hp : s.pos = pre.length) :
    ∃ pre', pre'.length = pre.length + l.text.length ∧
      httpParserStatusLine hooks psr s own = (do
        let (rc, data, own) ←
          hooks.hp_on_status_line l.ver.ver (atoi l.code) (.ofBytes l.reason) psr.hp_data own
        return ⟨if rc = 0 then .done else .brk, ⟨.slDone, l.text.length, data⟩,
          ⟨pre' ++ post, pre'.length, s.neg⟩, own⟩) := by
  have hb' : s.buf = pre ++ List.replicate 0 SP ++ (l.line ++ [CR]) ++ LF :: post := by
    simpa [StatusLine.text, crlf] using hb
  have h := statusLine_line hooks psr own pre hb' hp l.line_lf l.line_head
  have hv : ¬ l.line.length + post.length < 3 := by
    simp only [StatusLine.line, List.length_append, l.ver.text_length]
    omega
  simp only [l.token_line, hv, if_false, l.tail_line] at h
  obtain ⟨pre', hpre', h⟩ := h
  refine ⟨pre' ++ [LF], by simp [StatusLine.text, crlf, hpre']; omega, ?_⟩
  simpa [StatusLine.text, crlf] using h

variable (hooks psr own pre) in
/-- One round of the field loop on a well-formed line. -/
theorem fieldLoop_text {f : Field} (fuel : ℕ) (hb : s.buf = pre ++ f.text ++ post)
    (hp : s.pos = pre.length) :
    ∃ pre', pre'.length = pre.length + f.text.length ∧
      httpParserFieldLoop hooks (fuel + 1) psr s own = (do
        let psr := { psr with hp_parsed := psr.hp_parsed + f.text.length }
        let s := { s with buf := pre' ++ post }
        let (rc, own) ← hooks.hp_on_field (.ofBytes f.key) (.ofBytes f.value) psr.hp_data own
        if rc ≠ 0 then return ⟨.brk, psr, s, own⟩
        else httpParserFieldNext hooks (httpParserFieldLoop hooks fuel) psr s own) := by
  have hb' : s.buf = pre ++ List.replicate 0 SP ++ (f.line ++ [CR]) ++ LF :: post := by
    simpa [Field.text, crlf] using hb
  have h := fieldLoop_line hooks psr own pre fuel hb' hp f.line_lf f.line_head
  simp only [f.fieldOf_line] at h
  obtain ⟨pre', hpre', h⟩ := h
  refine ⟨pre' ++ [LF], by simp [Field.text, crlf, hpre']; omega, ?_⟩
  simpa [Field.text, crlf] using h

variable (hooks psr own pre post) in
/-- Behind a field whose callback accepts it, the loop skips what was parsed before the field
once more. -/
theorem fieldLoop_round {f : Field} {own' : σ} (fuel : ℕ) (hb : s.buf = pre ++ f.text ++ post)
    (hp : s.pos = pre.length)
    (hcb : hooks.hp_on_field (.ofBytes f.key) (.ofBytes f.value) psr.hp_data own = .ok (0, own')) :
    ∃ pre', pre'.length = pre.length + f.text.length ∧
      let psr' : Parser δ := ⟨psr.hp_state, psr.hp_parsed + f.text.length, psr.hp_data⟩
      let s' : Input := ⟨pre' ++ post, s.pos + (psr.hp_parsed + f.text.length),
        s.neg || decide ((pre' ++ post).length < s.pos + (psr.hp_parsed + f.text.length))⟩
      httpParserFieldLoop hooks (fuel + 1) psr s own =
        match post.drop psr.hp_parsed with
        | [] => .ok ⟨.again, psr', s', own'⟩
        | x :: t =>
          if x ≠ CR then httpParserFieldLoop hooks fuel psr' s' own'
          else if t.head? = some LF then do
            let (init, own) ← hooks.hp_on_hdr_done psr.hp_data own'
            return ⟨.done, match init with
              | none => ⟨.hdrDone, psr'.hp_parsed + 2, psr.hp_data⟩
              | some data => ⟨.none, psr'.hp_parsed + 2, data⟩, s', own⟩
          else .ok ⟨.again, ⟨.hdrCr, psr'.hp_parsed + 1, psr.hp_data⟩, s', own'⟩ := by
  obtain ⟨pre', hpre', h⟩ := fieldLoop_text hooks psr own pre fuel hb hp
  have hd : (pre' ++ post).drop
    (s.pos + (psr.hp_parsed + f.text.length)) = post.drop psr.hp_parsed := by
    rw [show s.pos + (psr.hp_parsed + f.text.length) = pre'.length + psr.hp_parsed by omega,
      ← List.drop_drop, List.drop_left]
  refine ⟨pre', hpre', ?_⟩
  simp only [hcb, ok_bind, ne_eq, not_true_eq_false, if_false, fieldNext_eq, hd] at h
  exact h

/-- A call in the initial state whose first line is well formed. -/
theorem httpParser_first {line : Parser δ → Input → σ → Except Fault (Step δ σ)} {cr done : PState}
    {cb : Except Fault (ℤ × δ × σ)} {n : ℕ} {s' : Input} (hst : psr.hp_state = .none)
    (h : line { psr with hp_parsed := 0 } s own = (do
      let (rc, data, own) ← cb
      return ⟨if rc = 0 then .done else .brk, ⟨done, n, data⟩, s', own⟩)) :
    httpParser line cr done hooks psr s own = (do
      let (rc, data, own) ← cb
      if rc ≠ 0 then return ⟨.brk, ⟨done, n, data⟩, s', own⟩
      else if s'.s_len > 0 then httpParserField hooks ⟨done, n, data⟩ s' own
      else return ⟨.again, ⟨done, n, data⟩, s', own⟩) := by
  simp only [httpParser, hst, if_true] at h ⊢
  rw [h]
  cases cb with
  | error f => rfl
  | ok x =>
    obtain ⟨rc, data, own⟩ := x
    by_cases hrc : rc = 0
    · simp [hrc]
    · simp [hrc]

end Lines

end Plume.Http
