import Plume.Http.Message

/-! Calls of the parser on bytes that end with a line and that it takes in to the last one,
whatever its callbacks do, as long as they accept what they are told. -/

namespace Plume.Http
open CLib

section Chunk

variable {δ σ : Type} {hooks : Hooks δ σ} {psr : Parser δ} {s : Input} {own own' own'' : σ}
  {f g : Field} {l : ReqLine} {b pre post : Bytes} {data data' : δ} {n : ℕ}

/-- A call on `b` parses all of it: it returns `rc` and leaves the state, the user data and
the owner as given. -/
def Consumes (hooks : Hooks δ σ) (psr : Parser δ) (b : Bytes) (own : σ) (rc : Rc) (st : PState)
    (data : δ) (own' : σ) : Prop :=
  ∃ s, s.buf.length = b.length ∧
    httpParserReq hooks psr ⟨b, 0, false⟩ own = .ok ⟨rc, ⟨st, b.length, data⟩, s, own'⟩

def Accepts (hooks : Hooks δ σ) (f : Field) (data : δ) (own own' : σ) : Prop :=
  hooks.hp_on_field (.ofBytes f.key) (.ofBytes f.value) data own = .ok (0, own')

def AcceptsLine (hooks : Hooks δ σ) (l : ReqLine) (data : δ) (own : σ) (data' : δ) (own' : σ) :
    Prop :=
  hooks.hp_on_req_line l.mthd (.ofBytes l.url) l.ver.ver data own = .ok (0, data', own')

theorem Field.text_ne (f : Field) : ∃ x t, f.text = x :: t ∧ x ≠ CR := by
  obtain ⟨x, name, hname⟩ := List.exists_cons_of_ne_nil f.name_ne
  refine ⟨x, _, by rw [Field.text, Field.line, hname]; rfl, ?_⟩
  rintro rfl
  exact f.name_free CR (by decide) (by simp [hname])

variable (psr pre) in
theorem field_again (fuel : ℕ) (hb : s.buf = pre ++ f.text) (hp : s.pos = pre.length)
    (hcb : Accepts hooks f psr.hp_data own own') :
    ∃ s', s'.buf.length = s.buf.length ∧ httpParserFieldLoop hooks (fuel + 1) psr s own =
      .ok ⟨.again, ⟨psr.hp_state, psr.hp_parsed + f.text.length, psr.hp_data⟩, s', own'⟩ := by
  obtain ⟨pre', hlen, h⟩ :=
    fieldLoop_round hooks psr own pre [] fuel (by rw [hb, List.append_nil]) hp hcb
  refine ⟨_, ?_, by rw [h, List.drop_nil]⟩
  rw [List.append_nil, hlen, hb, List.length_append]

theorem httpParserReq_rlDone : httpParserReq hooks ⟨.rlDone, n, data⟩ ⟨b, 0, false⟩ own =
    httpParserFieldLoop hooks (b.length + 1) ⟨.rlDone, 0, data⟩ ⟨b, 0, false⟩ own := by
  unfold httpParserReq httpParser httpParserField
  simp only [reduceCtorEq, if_false, if_true]
  rw [show Input.s_len ⟨b, 0, false⟩ = (b.length : ℤ) from sub_zero _, Int.toNat_natCast]

theorem consumes_field (hcb : Accepts hooks f data own own') :
    Consumes hooks ⟨.rlDone, n, data⟩ f.text own .again .rlDone data own' := by
  obtain ⟨s', hlen, h⟩ := field_again ⟨.rlDone, 0, data⟩ []
    (s := ⟨f.text, 0, false⟩) f.text.length rfl rfl hcb
  rw [Nat.zero_add] at h
  exact ⟨s', hlen, by rw [httpParserReq_rlDone, h]⟩

/-- The cursor is behind the first field then, where the second begins, and goes past it. -/
theorem consumes_twoFields (hcb : Accepts hooks f data own own')
    (hcb' : Accepts hooks g data own' own'') :
    Consumes hooks ⟨.rlDone, n, data⟩ (f.text ++ g.text) own .again .rlDone data own'' := by
  obtain ⟨x, t, hg, hx⟩ := g.text_ne
  obtain ⟨pre, hlen, h⟩ := fieldLoop_round hooks ⟨.rlDone, 0, data⟩ own [] g.text
    (s := ⟨f.text ++ g.text, 0, false⟩) (f.text.length + t.length + 1) rfl rfl hcb
  rw [List.length_nil, Nat.zero_add] at hlen
  obtain ⟨s', hlen', h'⟩ := field_again ⟨.rlDone, 0 + f.text.length, data⟩ pre
    (s := ⟨pre ++ g.text, 0 + (0 + f.text.length), false ||
      decide ((pre ++ g.text).length < 0 + (0 + f.text.length))⟩) (f.text.length + t.length) rfl
        (by rw [hlen, Nat.zero_add, Nat.zero_add]) hcb'
  refine ⟨s', by rw [hlen', List.length_append, List.length_append, hlen], ?_⟩
  have hfuel : (f.text ++ g.text).length + 1 = f.text.length + t.length + 1 + 1 := by
    rw [List.length_append, hg, List.length_cons]
    rfl
  rw [httpParserReq_rlDone, hfuel, h, List.drop_zero]
  rw [hg] at h' ⊢
  dsimp only
  rw [if_pos hx, h', List.length_append, Nat.zero_add]

theorem consumes_last (hcb : Accepts hooks f data own own')
    (hdone : hooks.hp_on_hdr_done data own' = .ok (some data', own'')) :
    Consumes hooks ⟨.rlDone, n, data⟩ (f.text ++ crlf) own .done .none data' own'' := by
  obtain ⟨pre, hlen, h⟩ := fieldLoop_round hooks ⟨.rlDone, 0, data⟩ own [] crlf
    (s := ⟨f.text ++ crlf, 0, false⟩) (f.text ++ crlf).length rfl rfl hcb
  rw [List.length_nil, Nat.zero_add] at hlen
  refine ⟨?s, ?hlen, ?hcall⟩
  case hcall =>
    rw [httpParserReq_rlDone, h]
    simp only [crlf, List.drop_zero, hdone, Nat.zero_add, ok_bind, List.head?_cons, ne_eq,
      not_true_eq_false, if_false, if_true, pure_ok, List.length_append]
    rfl
  case hlen =>
    rw [List.length_append, List.length_append, hlen]
    rfl

theorem consumes_lastCr (hcb : Accepts hooks f data own own') :
    Consumes hooks ⟨.rlDone, n, data⟩ (f.text ++ [CR]) own .again .hdrCr data own' := by
  obtain ⟨pre, hlen, h⟩ := fieldLoop_round hooks ⟨.rlDone, 0, data⟩ own [] [CR]
    (s := ⟨f.text ++ [CR], 0, false⟩) (f.text ++ [CR]).length rfl rfl hcb
  rw [List.length_nil, Nat.zero_add] at hlen
  refine ⟨?s, ?hlen, ?hcall⟩
  case hcall =>
    rw [httpParserReq_rlDone, h]
    simp only [List.drop_zero, Nat.zero_add, List.head?_nil, ne_eq, not_true_eq_false, if_false,
      List.length_append, reduceCtorEq]
    rfl
  case hlen => rw [List.length_append, List.length_append, hlen]

/-- The LF of the blank line, for which no callback is made. -/
theorem consumes_lf :
    Consumes hooks ⟨.hdrCr, n, data⟩ [LF] own .done .hdrDone data own :=
  ⟨⟨[LF], 1, false⟩, rfl, rfl⟩

variable (n post) in
theorem httpParserReq_none (hcb : AcceptsLine hooks l data own data' own') :
    ∃ pre, pre.length = l.text.length ∧
      httpParserReq hooks ⟨.none, n, data⟩ ⟨l.text ++ post, 0, false⟩ own =
        if post.length > 0 then
          httpParserFieldLoop hooks (post.length + 1) ⟨.rlDone, l.text.length, data'⟩
            ⟨pre ++ post, pre.length, false⟩ own'
        else .ok ⟨.again, ⟨.rlDone, l.text.length, data'⟩, ⟨pre ++ post, pre.length, false⟩,
          own'⟩ := by
  obtain ⟨pre, hlen, h⟩ := reqLine_text hooks ⟨.none, 0, data⟩ own [] (l := l)
    (s := ⟨l.text ++ post, 0, false⟩) rfl rfl
  rw [List.length_nil, Nat.zero_add] at hlen
  refine ⟨pre, hlen, ?_⟩
  have hs : Input.s_len ⟨pre ++ post, pre.length, false⟩ = post.length := by
    unfold Input.s_len
    rw [List.length_append]
    push_cast
    ring
  unfold AcceptsLine at hcb
  rw [httpParserReq, httpParser_first rfl h, hcb]
  simp only [ok_bind, ne_eq, not_true_eq_false, if_false, hs, httpParserField, Int.toNat_natCast,
    pure_ok, Nat.cast_pos, gt_iff_lt]

theorem consumes_line (hcb : AcceptsLine hooks l data own data' own') :
    Consumes hooks ⟨.none, n, data⟩ l.text own .again .rlDone data' own' := by
  obtain ⟨pre, hlen, h⟩ := httpParserReq_none [] n hcb
  rw [List.append_nil, if_neg (by simp)] at h
  exact ⟨_, by rw [List.append_nil, hlen], h⟩

theorem consumes_lineField (hcb : AcceptsLine hooks l data own data' own')
    (hcb' : Accepts hooks f data' own' own'') :
    Consumes hooks ⟨.none, n, data⟩ (l.text ++ f.text) own .again .rlDone data' own'' := by
  obtain ⟨x, t, hf, -⟩ := f.text_ne
  obtain ⟨pre, hlen, h⟩ := httpParserReq_none f.text n hcb
  obtain ⟨s', hlen', h'⟩ := field_again ⟨.rlDone, l.text.length, data'⟩ pre
    (s := ⟨pre ++ f.text, pre.length, false⟩) f.text.length rfl rfl hcb'
  rw [if_pos (by simp [hf]), h'] at h
  refine ⟨s', by rw [hlen', List.length_append, List.length_append, hlen], ?_⟩
  rw [h, List.length_append]

end Chunk

end Plume.Http
