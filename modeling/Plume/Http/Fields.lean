import Plume.Http.Lines

/-! One round of the field loop of `plm_http_parser.c`: the field a line names,
and where the cursor goes from there. -/

namespace Plume.Http
open CLib

/-- The name and value of a field line without its CR LF. -/
def fieldOf (w : Bytes) : Option (Bytes × Bytes) :=
  (cut COLON (upToNul w)).map fun x =>
    (x.1.take (keyLen x.1.length), (w.drop (x.1.length + 1)).dropWhile (· == SP))

theorem upToNul_prefix (l : Bytes) : ∃ t, l = upToNul l ++ t :=
  (List.takeWhile_prefix (· != (0 : UInt8))).imp fun _ h => h.symm

theorem fieldOf_length {w key value : Bytes} (h : fieldOf w = some (key, value)) :
    key.length + value.length + 1 ≤ w.length := by
  by_cases hcol : COLON ∈ upToNul w
  case neg => simp [fieldOf, cut_none hcol] at h
  obtain ⟨k, u, hu, hk⟩ := List.eq_append_cons_of_mem hcol
  rw [fieldOf, hu, cut_some hk, Option.map_some, Option.some.injEq, Prod.mk.injEq] at h
  obtain ⟨hkey, hval⟩ := h
  obtain ⟨t, ht⟩ := upToNul_prefix w
  have hw : k.length + 1 ≤ w.length := by
    rw [ht, hu]
    simp
  have hkl : key.length ≤ k.length := hkey ▸ List.length_take_le' _ _
  have hvl : value.length ≤ w.length - (k.length + 1) := by
    rw [← hval, ← List.length_drop]
    exact (List.dropWhile_suffix _).length_le
  omega

section Round

variable {δ σ : Type} {hooks : Hooks δ σ} {psr : Parser δ} {s : Input} {own : σ}
  {pre w post : Bytes} {k fuel : ℕ} {c : UInt8}

theorem fieldLoop_none (h : find (· == LF) s.buf (s.pos + leadingSpaces s.buf s.pos) = none) :
    httpParserFieldLoop hooks (fuel + 1) psr s own = .ok ⟨.again, psr, s, own⟩ := by
  simp only [httpParserFieldLoop, h, pure_ok]

/-- A line with no byte between its leading spaces and its LF: the byte before the LF
is the last space, or belongs to what came before. -/
theorem empty_find (hb : s.buf = pre ++ List.replicate k SP ++ LF :: post)
    (hp : s.pos = pre.length) :
    s.pos + leadingSpaces s.buf s.pos = (pre ++ List.replicate k SP).length ∧
      find (· == LF) s.buf (pre ++ List.replicate k SP).length =
        some (pre ++ List.replicate k SP).length ∧
      ∀ l c, pre ++ List.replicate k SP = l ++ [c] →
        before (l ++ [c]).length = .ok l.length ∧ load s.buf l.length = .ok c := by
  refine ⟨?_, ?_, ?_⟩
  · rw [leadingSpaces_eq (t := LF :: post) hb hp (by rintro ⟨⟩), hp]
    simp
  · exact find_split (m := []) (by simpa using hb) rfl (by simp) (by simp)
  · intro l c hl
    refine ⟨by rw [List.length_append]; rfl, ?_⟩
    exact load_split (r := LF :: post) (by simpa [hl] using hb) rfl

variable (hooks psr own fuel) in
theorem fieldLoop_empty (hb : s.buf = pre ++ List.replicate k SP ++ LF :: post)
    (hp : s.pos = pre.length) :
    match (pre ++ List.replicate k SP).getLast? with
    | none => httpParserFieldLoop hooks (fuel + 1) psr s own = .error .bounds
    | some c =>
      c ≠ CR → httpParserFieldLoop hooks (fuel + 1) psr s own = .ok ⟨.error, psr, s, own⟩ := by
  obtain ⟨hstr, hlf, hlast⟩ := empty_find hb hp
  rcases List.eq_nil_or_concat' (pre ++ List.replicate k SP) with hnil | ⟨l, c, hl⟩
  · rw [hnil] at hstr hlf ⊢
    rw [List.length_nil] at hstr hlf
    simp only [List.getLast?_nil, httpParserFieldLoop, hstr, hlf, before, error_bind]
  · obtain ⟨hbef, hld⟩ := hlast l c hl
    rw [hl] at hstr hlf ⊢
    rw [List.getLast?_concat]
    intro hc
    simp only [httpParserFieldLoop, hstr, hlf, hbef, hld, ok_bind, pure_ok, ne_eq, hc,
      not_false_eq_true, if_true]

variable (hooks psr own pre) in
theorem statusLine_empty (hb : s.buf = pre ++ List.replicate k SP ++ LF :: post)
    (hp : s.pos = pre.length) :
    match (pre ++ List.replicate k SP).getLast? with
    | none => httpParserStatusLine hooks psr s own = .error .bounds
    | some c => c ≠ CR → httpParserStatusLine hooks psr s own = .ok ⟨.error, psr, s, own⟩ := by
  obtain ⟨hstr, hlf, hlast⟩ := empty_find hb hp
  rcases List.eq_nil_or_concat' (pre ++ List.replicate k SP) with hnil | ⟨l, c, hl⟩
  · rw [hnil] at hstr hlf ⊢
    rw [List.length_nil] at hstr hlf
    simp only [List.getLast?_nil, httpParserStatusLine, hstr, hlf, before, error_bind]
  · obtain ⟨hbef, hld⟩ := hlast l c hl
    rw [hl] at hstr hlf ⊢
    rw [List.getLast?_concat]
    intro hc
    simp only [httpParserStatusLine, hstr, hlf, hbef, hld, ok_bind, pure_ok, ne_eq, hc,
      not_false_eq_true, if_true]

theorem fieldLoop_noCr (hb : s.buf = pre ++ List.replicate k SP ++ (w ++ [c]) ++ LF :: post)
    (hp : s.pos = pre.length) (hLF : LF ∉ w ++ [c]) (hhd : (w ++ [c]).head? ≠ some SP)
    (hc : c ≠ CR) :
    httpParserFieldLoop hooks (fuel + 1) psr s own = .ok ⟨.error, psr, s, own⟩ := by
  obtain ⟨hstr, hlf, hbef, hld, -⟩ := line_find hb hp hLF hhd
  simp only [httpParserFieldLoop, hstr, hlf, hbef, hld, ok_bind, pure_ok, ne_eq, hc,
    not_false_eq_true, if_true]

variable (hooks psr own pre fuel) in
theorem fieldLoop_line (hb : s.buf = pre ++ List.replicate k SP ++ (w ++ [CR]) ++ LF :: post)
    (hp : s.pos = pre.length) (hLF : LF ∉ w ++ [CR]) (hhd : (w ++ [CR]).head? ≠ some SP) :
    match fieldOf w with
    | none => ∃ buf, httpParserFieldLoop hooks (fuel + 1) psr s own =
        .ok ⟨.error, psr, { s with buf := buf }, own⟩
    | some (key, value) => ∃ pre', pre'.length = pre.length + k + w.length + 1 ∧
        httpParserFieldLoop hooks (fuel + 1) psr s own = (do
          let psr := { psr with hp_parsed := psr.hp_parsed + (k + w.length + 2) }
          let s := { s with buf := pre' ++ LF :: post }
          let (rc, own) ← hooks.hp_on_field (.ofBytes key) (.ofBytes value) psr.hp_data own
          if rc ≠ 0 then return ⟨.brk, psr, s, own⟩
          else httpParserFieldNext hooks (httpParserFieldLoop hooks fuel) psr s own) := by
  obtain ⟨hstr, hlf, hbef, hld, hst⟩ := line_find hb hp hLF hhd
  set P := pre ++ List.replicate k SP with hP
  have hPl : pre.length + k = P.length := by simp [hP]
  rw [hPl] at hstr hlf hbef hst hld
  have hlen : ((P.length + (w.length + 1) : ℕ) : ℤ) - 1 - (P.length : ℤ) = (w.length : ℤ) := by
    push_cast; ring
  have hcr : (CR ≠ CR) = False := by simp
  by_cases hcol : COLON ∈ upToNul w
  · obtain ⟨key, u, hu, hkey⟩ := List.eq_append_cons_of_mem hcol
    obtain ⟨v, hv⟩ := upToNul_prefix w
    obtain ⟨a, value, hav, hval⟩ := exists_replicate SP (u ++ v)
    have h0 : 0 ∉ key := fun h => upToNul_no_nul w (by simp [hu, h])
    have hw : w = key ++ COLON :: (List.replicate a SP ++ value) := by
      rw [hv, hu, ← hav]
      simp
    have hf : fieldOf w = some (key.take (keyLen key.length), value) := by
      have hd : w.drop (key.length + 1) = List.replicate a SP ++ value := by simp [hw]
      rw [fieldOf, hu, cut_some hkey, Option.map_some, hd, dropWhile_spaces hval]
    set Q := P ++ key ++ 0 :: List.replicate a SP with hQ
    have hQl : Q.length + value.length = P.length + w.length := by
      simp only [hQ, hw, List.length_append, List.length_cons, List.length_replicate]
      omega
    have hchr : strchr (P ++ w ++ 0 :: LF :: post) P.length COLON = .ok
      (some (P.length + key.length)) :=
      strchr_split (r := List.replicate a SP ++ value ++ 0 :: LF :: post) (by simp [hw]) rfl hkey h0
    have hst1 : store (P ++ w ++ 0 :: LF :: post) (P.length + key.length) 0 =
        .ok (Q ++ value ++ 0 :: LF :: post) := by
      simpa [hQ] using store_split (b := P ++ w ++ 0 :: LF :: post) (l := P ++ key) (x := COLON)
        (y := 0)
        (r := List.replicate a SP ++ value ++ 0 :: LF :: post) (by simp [hw]) (by simp)
    have hk : slice (Q ++ value ++ 0 :: LF :: post) P.length
      (keyLen (P.length + key.length - P.length)) =
        key.take (keyLen key.length) := by
      have hle : keyLen key.length ≤ key.length := by
        unfold keyLen
        split <;> omega
      have hd : (Q ++ value ++ 0 :: LF :: post).drop P.length =
          key ++ (0 :: List.replicate a SP ++ value ++ 0 :: LF :: post) := by simp [hQ]
      rw [Nat.add_sub_cancel_left, slice, hd, List.take_append_of_le_length hle]
    have hsk : skip (Q ++ value ++ 0 :: LF :: post)
      (P.length + key.length + 1) SP = .ok Q.length := by
      simpa [hQ] using skip_token (A := P ++ key) (a := a) (r := LF :: post) hval
    have hvlen : (w.length : ℤ) - ((Q.length : ℤ) - P.length) = (value.length : ℤ) := by omega
    have hv' : slice (Q ++ value ++ 0 :: LF :: post) Q.length value.length = value :=
      slice_split rfl rfl rfl
    have hparsed : P.length + (w.length + 1) + 1 - s.pos = k + w.length + 2 := by omega
    have hbuf : Q ++ value ++ 0 :: LF :: post = Q ++ value ++ [0] ++ LF :: post := by simp
    simp only [hf]
    refine ⟨Q ++ value ++ [0], by simp only [List.length_append, List.length_singleton]; omega, ?_⟩
    simp only [httpParserFieldLoop, hstr, hlf, hbef, hld, hcr, if_false, hst, hlen, ok_bind,
      pure_ok, Input.length_natCast, hchr, hst1, hk, hsk, hvlen, Int.toNat_natCast, hv', hparsed]
    rw [hbuf]
    rfl
  · obtain ⟨t, ht⟩ := upToNul_split w (LF :: post)
    have hchr : strchr (P ++ w ++ 0 :: LF :: post) P.length COLON = .ok none :=
      strchr_absent (r := t) (by simpa using ht) rfl hcol (upToNul_no_nul w) (by decide)
    simp only [fieldOf, cut_none hcol, Option.map_none]
    exact ⟨P ++ w ++ 0 :: LF :: post, by
      simp only [httpParserFieldLoop, hstr, hlf, hbef, hld, hcr, if_false, hst, hlen, ok_bind,
        pure_ok, Input.length_natCast, hchr]⟩

theorem cursor_noLf {s : Input} (h : LF ∉ s.buf.drop s.pos) :
    find (· == LF) s.buf (s.pos + leadingSpaces s.buf s.pos) = none := by
  rw [find, Option.map_eq_none_iff, List.findIdx?_eq_none_iff]
  intro x hx
  rw [← List.drop_drop] at hx
  exact beq_false_of_ne (ne_of_mem_of_not_mem (List.mem_of_mem_drop hx) h)

/-- The text at the cursor has no LF, or a first line. -/
theorem cursor_cases (s : Input) :
    LF ∉ s.buf.drop s.pos ∨
      ∃ pre k body post, s.buf = pre ++ List.replicate k SP ++ body ++ LF :: post ∧
        s.pos = pre.length ∧ LF ∉ body ∧ body.head? ≠ some SP := by
  obtain ⟨k, t, hd, ht⟩ := exists_replicate SP (s.buf.drop s.pos)
  by_cases hLF : LF ∈ t
  · obtain ⟨body, post, rfl, hbody⟩ := List.eq_append_cons_of_mem hLF
    have hle : s.pos ≤ s.buf.length := by
      by_contra h
      rw [List.drop_eq_nil_of_le (by omega)] at hd
      simp at hd
    refine .inr ⟨s.buf.take s.pos, k, body, post, ?_, by simp [hle], hbody, ?_⟩
    · rw [List.append_assoc, List.append_assoc, ← hd, List.take_append_drop]
    · cases body <;> simp_all
  · exact .inl (by simp [hd, hLF])

variable (hooks psr own fuel) in
/-- The loop with its cursor at an LF behind a CR: the length of the line is negative. -/
theorem fieldLoop_lf (hb : s.buf = pre ++ [CR] ++ LF :: post) (hp : s.pos = pre.length + 1) :
    (∃ f, httpParserFieldLoop hooks (fuel + 1) psr s own = .error f) ∨
    (∃ buf, httpParserFieldLoop hooks (fuel + 1) psr s own =
      .ok ⟨.error, psr, ⟨buf, s.pos, true⟩, own⟩) ∨
    ∃ key value buf, value.s_len < 0 ∧ buf.length = s.buf.length ∧
      httpParserFieldLoop hooks (fuel + 1) psr s own = (do
        let psr := { psr with hp_parsed := psr.hp_parsed + 1 }
        let s : Input := ⟨buf, s.pos, true⟩
        let (rc, own) ← hooks.hp_on_field (.ofBytes key) value psr.hp_data own
        if rc ≠ 0 then return ⟨.brk, psr, s, own⟩
        else httpParserFieldNext hooks (httpParserFieldLoop hooks fuel) psr s own) := by
  have hl : (pre ++ [CR]).length = s.pos := by simpa using hp.symm
  have hstr : s.pos + leadingSpaces s.buf s.pos = s.pos := by
    rw [leadingSpaces_eq (k := 0) (t := LF :: post) (by simpa using hb) hl.symm (by rintro ⟨⟩),
      Nat.add_zero]
  have hlf : find (· == LF) s.buf s.pos = some s.pos := by
    rw [find_split (m := []) (r := post) (x := LF) (by simpa using hb) hl.symm (by simp) (by simp),
      hl]
    rfl
  have hbef : before s.pos = .ok pre.length := by rw [hp]; rfl
  have hld : load s.buf pre.length = .ok CR :=
    load_split (r := LF :: post) (by simpa using hb) rfl
  have hst : store s.buf pre.length 0 = .ok (pre ++ 0 :: LF :: post) :=
    store_split (x := CR) (by simpa using hb) rfl
  have hcr : (CR ≠ CR) = False := by simp
  have hlen : (s.pos : ℤ) - 1 - s.pos = -1 := by ring
  have hneg : ∀ (s : Input) (n : ℤ), n < 0 → s.length n = ⟨s.buf, s.pos, true⟩ := by
    intro s n hn
    simp [Input.length, hn]
  have hlf1 : s.pos + 1 - s.pos = 1 := by omega
  simp only [httpParserFieldLoop, hstr, hlf, hbef, hld, ok_bind, hcr, if_false, hst, hlen, pure_ok,
    hneg s (-1) (by decide)]
  cases hchr : strchr (pre ++ 0 :: LF :: post) s.pos COLON with
  | error f => exact .inl ⟨f, rfl⟩
  | ok p =>
    cases p with
    | none => exact .inr (.inl ⟨_, rfl⟩)
    | some p =>
      have hp1 : s.pos ≤ p := strchr_ge hchr
      cases hst1 : store (pre ++ 0 :: LF :: post) p 0 with
      | error f => exact .inl ⟨f, by simp only [ok_bind, hst1, error_bind]⟩
      | ok buf =>
        cases hsk : skip buf (p + 1) SP with
        | error f => exact .inl ⟨f, by simp only [ok_bind, hst1, hsk, error_bind]⟩
        | ok q =>
          have hq := skip_ge hsk
          have hvlen : -1 - ((q : ℤ) - s.pos) < 0 := by omega
          refine .inr (.inr ⟨slice buf s.pos (keyLen (p - s.pos)),
            ⟨slice buf q (-1 - ((q : ℤ) - s.pos)).toNat, -1 - ((q : ℤ) - s.pos)⟩, buf, hvlen, ?_,
            ?_⟩)
          · rw [store_length hst1, hb]
            simp
          · simp only [ok_bind, hst1, hsk, hneg _ _ hvlen, hlf1]

theorem fieldLoop_cases (hooks : Hooks δ σ) (fuel : ℕ) (psr : Parser δ) (s : Input) (own : σ) :
    (∃ f, httpParserFieldLoop hooks (fuel + 1) psr s own = .error f) ∨
    (∃ rc s', httpParserFieldLoop hooks (fuel + 1) psr s own = .ok ⟨rc, psr, s', own⟩ ∧
      rc ≠ .done ∧ (s.neg = true → s'.neg = true)) ∨
    ∃ key value n s', 1 ≤ n ∧ s.pos + n ≤ s.buf.length ∧ s'.pos = s.pos ∧
      s'.buf.length = s.buf.length ∧
      (value.s_len < 0 ∧ s'.neg = true ∨
        s'.neg = s.neg ∧ ∃ v, value = .ofBytes v ∧ key.length + v.length + 3 ≤ n) ∧
      httpParserFieldLoop hooks (fuel + 1) psr s own = (do
        let psr := { psr with hp_parsed := psr.hp_parsed + n }
        let (rc, own) ← hooks.hp_on_field (.ofBytes key) value psr.hp_data own
        if rc ≠ 0 then return ⟨.brk, psr, s', own⟩
        else httpParserFieldNext hooks (httpParserFieldLoop hooks fuel) psr s' own) := by
  obtain hnone | ⟨pre, k, body, post, hb, hp, hLF, hhd⟩ := cursor_cases s
  · exact .inr (.inl ⟨_, _, fieldLoop_none (cursor_noLf hnone), by simp, id⟩)
  obtain rfl | ⟨w, c, rfl⟩ := List.eq_nil_or_concat' body
  · rw [List.append_nil] at hb
    have h := fieldLoop_empty hooks psr own fuel hb hp
    obtain hnil | ⟨l, c, hl⟩ := List.eq_nil_or_concat' (pre ++ List.replicate k SP)
    · simp only [hnil, List.getLast?_nil] at h
      exact .inl ⟨_, h⟩
    simp only [hl, List.getLast?_concat] at h
    by_cases hc : c = CR
    case neg => exact .inr (.inl ⟨_, _, h hc, by simp, id⟩)
    obtain rfl : k = 0 := by
      cases k with
      | zero => rfl
      | succ k =>
        have hlast := congrArg List.getLast? hl
        rw [List.replicate_succ', ← List.append_assoc, List.getLast?_concat, List.getLast?_concat,
          hc] at hlast
        exact absurd hlast (by decide)
    obtain rfl : pre = l ++ [CR] := by simpa [hc] using hl
    obtain hf | ⟨buf, h⟩ | ⟨key, value, buf, hv, hlen, h⟩ :=
      fieldLoop_lf hooks psr own fuel (s := s)
        (by simpa using hb) (by simpa using hp)
    · exact .inl hf
    · exact .inr (.inl ⟨_, _, h, by simp, fun _ => rfl⟩)
    · refine .inr (.inr ⟨key, value, 1, ⟨buf, s.pos, true⟩, le_rfl, ?_, rfl, hlen,
        .inl ⟨hv, rfl⟩, h⟩)
      simp [hb, hp]
  · by_cases hc : c = CR
    case neg => exact .inr (.inl ⟨_, _, fieldLoop_noCr hb hp hLF hhd hc, by simp, id⟩)
    subst hc
    have h := fieldLoop_line hooks psr own pre fuel hb hp hLF hhd
    cases hf : fieldOf w with
    | none =>
      obtain ⟨buf, h⟩ : ∃ buf, _ = _ := by simpa only [hf] using h
      exact .inr (.inl ⟨_, _, h, by simp, id⟩)
    | some kv =>
      obtain ⟨key, value⟩ := kv
      simp only [hf] at h
      obtain ⟨pre', hpre', h⟩ := h
      have hle := fieldOf_length hf
      refine .inr (.inr ⟨key, .ofBytes value, k + w.length + 2, ⟨pre' ++ LF :: post, s.pos, s.neg⟩,
        by omega, ?_, rfl, ?_, .inr ⟨rfl, value, rfl, by omega⟩, h⟩)
      · simp [hb, hp]
        omega
      · simp [hb, hpre']
        omega

/-- Where the loop goes after a callback that returned zero. -/
theorem fieldNext_eq (loop : Parser δ → Input → σ → Except Fault (Step δ σ)) :
    httpParserFieldNext hooks loop psr s own =
      let s' : Input := ⟨s.buf, s.pos + psr.hp_parsed,
        s.neg || decide (s.buf.length < s.pos + psr.hp_parsed)⟩
      match s.buf.drop (s.pos + psr.hp_parsed) with
      | [] => .ok ⟨.again, psr, s', own⟩
      | x :: t =>
        if x ≠ CR then loop psr s' own
        else if t.head? = some LF then do
          let (init, own) ← hooks.hp_on_hdr_done psr.hp_data own
          return ⟨.done, match init with
            | none => ⟨.hdrDone, psr.hp_parsed + 2, psr.hp_data⟩
            | some data => ⟨.none, psr.hp_parsed + 2, data⟩, s', own⟩
        else .ok ⟨.again, ⟨.hdrCr, psr.hp_parsed + 1, psr.hp_data⟩, s', own⟩ := by
  have hneg : decide (({ s with pos := s.pos + psr.hp_parsed } : Input).s_len < 0) =
      decide (s.buf.length < s.pos + psr.hp_parsed) :=
    decide_eq_decide.mpr (by simp only [Input.s_len]; omega)
  simp only [httpParserFieldNext, Input.length, hneg]
  cases hd : s.buf.drop (s.pos + psr.hp_parsed) with
  | nil =>
    have hle : s.buf.length ≤ s.pos + psr.hp_parsed := by simpa using hd
    rw [if_pos (by simp only [Input.s_len]; omega)]
    rfl
  | cons x t =>
    have hlen : s.buf.length = s.pos + psr.hp_parsed + (t.length + 1) := by
      have h := congrArg List.length hd
      simp only [List.length_drop, List.length_cons] at h
      omega
    have hbuf : s.buf = s.buf.take (s.pos + psr.hp_parsed) ++ x :: t := by
      rw [← hd, List.take_append_drop]
    have hl : load s.buf (s.pos + psr.hp_parsed) = .ok x :=
      load_split hbuf (by simp; omega)
    rw [if_neg (by simp only [Input.s_len]; omega)]
    simp only [hl, ok_bind]
    by_cases hx : x = CR
    case neg => simp [hx]
    simp only [hx, ne_eq, not_true_eq_false, if_false]
    cases t with
    | nil =>
      rw [if_neg (by simp only [Input.s_len]; simp only [List.length_nil] at hlen; omega)]
      simp
    | cons y t =>
      have hl1 : load s.buf (s.pos + psr.hp_parsed + 1) = .ok y :=
        load_split (l := s.buf.take (s.pos + psr.hp_parsed) ++ [x]) (r := t) (by simpa using hbuf)
          (by simp; omega)
      rw [if_pos (by simp only [Input.s_len]; simp only [List.length_cons] at hlen; omega)]
      simp only [hl1, ok_bind, List.head?_cons, Option.some.injEq]
      by_cases hy : y = LF
      · simp only [hy, if_true]
        congr 1
        funext r
        obtain ⟨_ | data, own'⟩ := r <;> rfl
      · simp [hy]

end Round

end Plume.Http
