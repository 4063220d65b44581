import Plume.Http.Bounds
import Plume.Http.Request

/-! How much of its input a call of the parser says it has parsed. The cursor moves by the whole of
`hp_parsed` with every field, so it may leave the input; `hp_parsed` itself stays behind it. -/

namespace Plume.Http
open CLib

section Yields

variable {α β : Type} {P : β → Prop}

def Yields (P : β → Prop) (x : Except Fault β) : Prop := ∀ b, x = .ok b → P b

theorem yields_ok {b : β} (h : P b) : Yields P (.ok b) := by
  rintro _ ⟨⟩
  exact h

theorem yields_bind {x : Except Fault α} {f : α → Except Fault β}
    (h : ∀ a, x = .ok a → Yields P (f a)) :
    Yields P (x >>= f) := by
  intro b hb
  obtain ⟨a, ha, hb⟩ := bind_eq_ok.1 hb
  exact h a ha b hb

theorem yields_ite {p : Prop} [Decidable p] {x y : Except Fault β} (hx : p → Yields P x)
    (hy : ¬ p → Yields P y) :
    Yields P (if p then x else y) := by
  by_cases hp : p
  · rw [if_pos hp]
    exact hx hp
  · rw [if_neg hp]
    exact hy hp

end Yields

section Parsed

variable {δ σ : Type} {hooks : Hooks δ σ} {psr : Parser δ} {s : Input} {own : σ}
  {base len least fuel lf : ℕ}

/-- What was parsed since the cursor was at `base` lies inside the buffer, and behind the cursor. -/
structure Within (base len least : ℕ) (psr : Parser δ) (s : Input) : Prop where
  size : s.buf.length = len
  cursor : base + psr.hp_parsed ≤ s.pos
  parsed : base + psr.hp_parsed ≤ len
  least : least ≤ psr.hp_parsed

structure Parsed (base len least : ℕ) (r : Step δ σ) : Prop where
  size : r.s.buf.length = len
  parsed : base + r.psr.hp_parsed ≤ len
  least : least ≤ r.psr.hp_parsed

theorem Within.parsed_ok {rc : Rc} (h : Within base len least psr s) :
    Yields (Parsed base len least) (.ok ⟨rc, psr, s, own⟩ : Except Fault (Step δ σ)) :=
  yields_ok ⟨h.size, h.parsed, h.least⟩

theorem find_lt {p : UInt8 → Bool} {b : Bytes} {i k : ℕ} (h : find p b i = some k) :
    i ≤ k ∧ k < b.length := by
  obtain ⟨j, hj, rfl⟩ := Option.map_eq_some_iff.1 h
  have hlt := (List.findIdx?_eq_some_iff_getElem.1 hj).1
  rw [List.length_drop] at hlt
  omega

theorem find_lf (h : LF ∈ s.buf.drop s.pos) :
    ∃ lf, find (· == LF) s.buf (s.pos + leadingSpaces s.buf s.pos) = some lf := by
  obtain hno | ⟨pre, k, body, post, hb, hp, hLF, hhd⟩ := cursor_cases s
  · exact absurd h hno
  · have hhead : (body ++ LF :: post).head? ≠ some SP := by
      cases body with
      | nil => simp
      | cons x body => exact hhd
    have hsp : leadingSpaces s.buf s.pos = k :=
      leadingSpaces_eq (by rw [hb, List.append_assoc]) hp hhead
    rw [hsp, find_split (p := (· == LF)) (m := body) hb (by simp [hp])
      (fun y hy => beq_false_of_ne (ne_of_mem_of_not_mem hy hLF)) (beq_self_eq_true LF)]
    exact ⟨_, rfl⟩

theorem fieldNext_parsed {loop : Parser δ → Input → σ → Except Fault (Step δ σ)}
    (hloop : ∀ psr s own, Within base len least psr s →
      Yields (Parsed base len least) (loop psr s own))
    (hlen : s.buf.length = len) (hbase : base ≤ s.pos) (hle : base + psr.hp_parsed ≤ len)
    (hleast : least ≤ psr.hp_parsed) :
    Yields (Parsed base len least) (httpParserFieldNext hooks loop psr s own) := by
  rw [fieldNext_eq]
  dsimp only
  cases hd : s.buf.drop (s.pos + psr.hp_parsed) with
  | nil => exact yields_ok ⟨hlen, hle, hleast⟩
  | cons x t =>
    have hrest : s.pos + psr.hp_parsed + (t.length + 1) = len := by
      have h := congrArg List.length hd
      rw [List.length_drop, List.length_cons] at h
      omega
    refine yields_ite (fun _ => ?_) fun _ => yields_ite (fun ht => ?_) fun _ => ?_
    · exact hloop _ _ _ ⟨hlen, Nat.add_le_add_right hbase _, hle, hleast⟩
    · -- the blank line is two bytes more
      have htlen : t.length ≠ 0 := by
        rintro h0
        rw [List.length_eq_zero_iff.1 h0] at ht
        cases ht
      refine yields_bind fun y _ => yields_ok ?_
      obtain ⟨_ | data, own'⟩ := y <;> exact ⟨hlen, by dsimp only; omega, by dsimp only; omega⟩
    · exact yields_ok ⟨hlen, by dsimp only; omega, by dsimp only; omega⟩

/-- A round that finds its line: it stops at an error, or counts the line and goes on. -/
theorem fieldLoop_found {Q : Step δ σ → Prop}
    (hf : find (· == LF) s.buf (s.pos + leadingSpaces s.buf s.pos) = some lf)
    (herr : ∀ s' : Input, s'.buf.length = s.buf.length → Q ⟨.error, psr, s', own⟩)
    (hcall : ∀ (s' : Input) own', s'.buf.length = s.buf.length → s'.pos = s.pos →
      let psr' := { psr with hp_parsed := psr.hp_parsed + (lf + 1 - s.pos) }
      Q ⟨.brk, psr', s', own'⟩ ∧
        Yields Q (httpParserFieldNext hooks (httpParserFieldLoop hooks fuel) psr' s' own')) :
    Yields Q (httpParserFieldLoop hooks (fuel + 1) psr s own) := by
  simp only [httpParserFieldLoop, hf]
  refine yields_bind fun i _ => yields_bind fun c _ => yields_ite
    (fun _ => yields_ok (herr s rfl)) fun _ => ?_
  refine yields_bind fun i _ => yields_bind fun b1 hb1 => yields_bind fun p _ => ?_
  have h1 := store_length hb1
  cases p with
  | none => exact yields_ok (herr _ h1)
  | some p =>
    refine yields_bind fun b2 hb2 => yields_bind fun q _ => yields_bind fun x _ => ?_
    obtain ⟨hbrk, hnext⟩ :=
      hcall ⟨b2, s.pos, (s.neg || _) || _⟩ x.2 ((store_length hb2).trans h1) rfl
    exact yields_ite (fun _ => yields_ok hbrk) fun _ => hnext

theorem fieldLoop_parsed (h : Within base len least psr s) :
    Yields (Parsed base len least) (httpParserFieldLoop hooks fuel psr s own) := by
  induction fuel generalizing psr s own with
  | zero =>
    intro r hr
    cases hr
  | succ fuel ih =>
    obtain ⟨hsize, hcur, hpar, hleast⟩ := h
    cases hf : find (· == LF) s.buf (s.pos + leadingSpaces s.buf s.pos) with
    | none =>
      rw [fieldLoop_none hf]
      exact yields_ok ⟨hsize, hpar, hleast⟩
    | some lf =>
      have hlf := find_lt hf
      refine fieldLoop_found hf
        (fun s' hs' => ⟨hs'.trans hsize, hpar, hleast⟩) fun s' own' hs' hpos => ?_
      have hle : base + (psr.hp_parsed + (lf + 1 - s.pos)) ≤ len := by omega
      have hleast' : least ≤ psr.hp_parsed + (lf + 1 - s.pos) := by omega
      refine ⟨⟨hs'.trans hsize, hle, hleast'⟩, ?_⟩
      exact fieldNext_parsed (fun _ _ _ hw => ih hw) (hs'.trans hsize) (by omega) hle hleast'

/-- A first line that was not parsed leaves the parser as it is; one that was lies between the
cursor before it and the cursor behind it. -/
structure LineEnd (psr : Parser δ) (s : Input) (r : Step δ σ) : Prop where
  size : r.s.buf.length = s.buf.length
  stop : r.rc ≠ .done ∧ r.psr = psr ∧ (LF ∈ s.buf.drop s.pos → r.rc = .error) ∨
    s.pos + r.psr.hp_parsed = r.s.pos ∧ r.s.pos ≤ s.buf.length ∧ 0 < r.psr.hp_parsed

theorem lineEnd_noLf (h : find (· == LF) s.buf (s.pos + leadingSpaces s.buf s.pos) = none) :
    Yields (LineEnd psr s) (.ok ⟨.again, psr, s, own⟩ : Except Fault (Step δ σ)) := by
  refine yields_ok ⟨rfl, .inl ⟨by simp, rfl, fun hlf => ?_⟩⟩
  obtain ⟨lf, hf⟩ := find_lf hlf
  rw [h] at hf
  cases hf

theorem lineEnd_error {s' : Input} (hlen : s'.buf.length = s.buf.length) :
    Yields (LineEnd psr s) (.ok ⟨.error, psr, s', own⟩ : Except Fault (Step δ σ)) :=
  yields_ok ⟨hlen, .inl ⟨by simp, rfl, fun _ => rfl⟩⟩

/-- The rest of either line parser: the callback, with the cursor behind the LF. -/
theorem lineEnd_call {cb : Except Fault (ℤ × δ × σ)} {b : Bytes} {neg : Bool} {st : PState}
    (hlf : s.pos ≤ lf ∧ lf < s.buf.length) (hlen : b.length = s.buf.length) :
    Yields (LineEnd psr s) (do
      let (rc, data, own) ← cb
      return ⟨if rc = 0 then .done else .brk, ⟨st, lf + 1 - s.pos, data⟩,
        ⟨b, s.pos + (lf + 1 - s.pos), neg⟩, own⟩) :=
  yields_bind fun x _ => yields_ok ⟨hlen, .inr ⟨rfl, by dsimp only; omega, by dsimp only; omega⟩⟩

theorem parseVer_length (b : Bytes) (i : ℕ) :
    Yields (fun x => x.2.length = b.length) (parseVer b i) := by
  unfold parseVer
  refine yields_bind fun dot _ => ?_
  cases dot with
  | none => exact yields_ok rfl
  | some dot =>
    refine yields_bind fun b1 hb1 => yields_bind fun c _ => ?_
    refine yields_ite (fun _ => yields_ok (store_length hb1)) fun _ => ?_
    exact yields_bind fun x _ => yields_bind fun y _ => yields_ok (store_length hb1)

theorem reqLine_end (hooks : Hooks δ σ) (psr : Parser δ) (s : Input) (own : σ) :
    Yields (LineEnd psr s) (httpParserReqLine hooks psr s own) := by
  simp only [httpParserReqLine]
  cases hf : find (· == LF) s.buf (s.pos + leadingSpaces s.buf s.pos) with
  | none => exact lineEnd_noLf hf
  | some lf =>
    have hlf := find_lt hf
    refine yields_bind fun i _ => yields_bind fun b1 hb1 => yields_bind fun p _ => ?_
    have h1 := store_length hb1
    cases p with
    | none => exact lineEnd_error h1
    | some p =>
      refine yields_bind fun b2 hb2 => yields_bind fun m _ => ?_
      have h2 := (store_length hb2).trans h1
      cases m with
      | none => exact lineEnd_error h2
      | some m =>
        refine yields_bind fun q _ => yields_bind fun p _ => ?_
        cases p with
        | none => exact lineEnd_error h2
        | some p =>
          refine yields_bind fun b3 hb3 => yields_bind fun q _ => yields_bind fun e _ => ?_
          have h3 := (store_length hb3).trans h2
          refine yields_ite (fun _ => lineEnd_error h3) fun _ => yields_bind fun v hv => ?_
          have h4 := (parseVer_length _ _ v hv).trans h3
          obtain ⟨v, b4⟩ := v
          cases v with
          | none => exact lineEnd_error h4
          | some v => exact lineEnd_call (by omega) h4

theorem statusLine_end (hooks : Hooks δ σ) (psr : Parser δ) (s : Input) (own : σ) :
    Yields (LineEnd psr s) (httpParserStatusLine hooks psr s own) := by
  simp only [httpParserStatusLine]
  cases hf : find (· == LF) s.buf (s.pos + leadingSpaces s.buf s.pos) with
  | none => exact lineEnd_noLf hf
  | some lf =>
    have hlf := find_lt hf
    refine yields_bind fun i _ => yields_bind fun c _ => yields_ite
      (fun _ => lineEnd_error rfl) fun _ => ?_
    refine yields_bind fun i _ => yields_bind fun b1 hb1 => yields_bind fun p _ => ?_
    have h1 := store_length hb1
    cases p with
    | none => exact lineEnd_error h1
    | some p =>
      refine yields_bind fun b2 hb2 => yields_bind fun e _ => ?_
      have h2 := (store_length hb2).trans h1
      refine yields_ite (fun _ => lineEnd_error h2) fun _ => yields_bind fun v hv => ?_
      have h3 := (parseVer_length _ _ v hv).trans h2
      obtain ⟨v, b3⟩ := v
      cases v with
      | none => exact lineEnd_error h3
      | some v =>
        refine yields_bind fun q _ => yields_bind fun p _ => ?_
        cases p with
        | none => exact lineEnd_error h3
        | some p =>
          refine yields_bind fun b4 hb4 => yields_bind fun code _ => yields_bind fun q _ => ?_
          exact lineEnd_call (by omega) ((store_length hb4).trans h3)

theorem load_lt {b : Bytes} {i : ℕ} {x : UInt8} (h : load b i = .ok x) : i < b.length := by
  unfold load at h
  by_contra hge
  rw [List.getElem?_eq_none (by omega)] at h
  cases h

theorem httpParser_parsed {line : Parser δ → Input → σ → Except Fault (Step δ σ)} {cr done : PState}
    (hline : ∀ psr s own, Yields (LineEnd psr s) (line psr s own)) (hs : s.pos ≤ s.buf.length) :
    Yields (Parsed s.pos s.buf.length 0) (httpParser line cr done hooks psr s own) := by
  have hfield : ∀ psr s' own, Within s.pos s.buf.length 0 psr s' →
      Yields (Parsed s.pos s.buf.length 0) (httpParserField hooks psr s' own) :=
    fun _ _ _ h => fieldLoop_parsed h
  have hzero : ∀ (st : PState) (d : δ), Within s.pos s.buf.length 0 ⟨st, 0, d⟩ s :=
    fun _ _ => ⟨rfl, le_rfl, hs, Nat.zero_le _⟩
  unfold httpParser
  dsimp only
  refine yields_ite (fun _ => ?none) fun _ => yields_ite (fun _ => ?cr) fun _ => yields_ite
    (fun _ => ?fields)
    fun _ => yields_ite (fun _ => ?blank) fun _ => yields_ite (fun _ => ?finished) fun _ => ?other
  case none =>
    refine yields_bind fun r hr => ?_
    obtain ⟨hsize, hstop⟩ := hline _ _ _ r hr
    have hin : Parsed s.pos s.buf.length 0 r := by
      refine ⟨hsize, ?_, Nat.zero_le _⟩
      rcases hstop with ⟨-, hpsr, -⟩ | ⟨hpos, hle, -⟩
      · rw [hpsr]
        exact hs
      · omega
    refine yields_ite (fun hd => ?_) fun _ => yields_ok hin
    refine yields_ite (fun _ => ?_) fun _ => yields_ok ⟨hsize, hin.parsed, hin.least⟩
    rcases hstop with ⟨hne, -⟩ | ⟨hpos, hle, -⟩
    · exact absurd hd hne
    · exact hfield _ _ _ ⟨hsize, hpos.le, hin.parsed, hin.least⟩
  case cr =>
    refine yields_bind fun c hc => ?_
    have hin := load_lt hc
    refine yields_ite (fun _ => yields_ite (fun _ => ?_) fun _ => ?_) fun _ => yields_ok
      ⟨rfl, hin, Nat.zero_le _⟩
    · exact hfield _ _ _ ⟨rfl, le_rfl, hin, Nat.zero_le _⟩
    · exact yields_ok ⟨rfl, hin, Nat.zero_le _⟩
  case fields => exact hfield _ _ _ (hzero _ _)
  case blank =>
    refine yields_bind fun c hc => ?_
    have hin := load_lt hc
    exact yields_ite (fun _ => yields_ok ⟨rfl, hin, Nat.zero_le _⟩) fun _ => yields_ok
      ⟨rfl, hin, Nat.zero_le _⟩
  case finished => exact (hzero _ _).parsed_ok
  case other => exact (hzero _ _).parsed_ok

theorem given_length (st : ConnState) (b : Bytes) : (given st b).length = b.length := by
  simp only [given, List.length_take, List.length_append]
  omega

/-- In every state, with any callbacks, what a call says it has parsed is part of its input; and
what `plm_http_read_req` keeps of a read is the rest of it. -/
theorem parsed_le (k : Msg) (hooks : Hooks δ σ) (psr : Parser δ) (s : Input) (own : σ)
    (hne : s.pos < s.buf.length) :
    (∀ r, k.parse hooks psr s own = .ok r → r.psr.hp_parsed ≤ s.buf.length - s.pos) ∧
    ∀ (junk : Option ℕ) (st : ConnState) (b : Bytes) (r : Step UserData Conn), b ≠ [] →
      httpParserReq (connHooks junk) st.hc_psr ⟨given st b, 0, false⟩ st.conn = .ok r →
        r.psr.hp_parsed + sizeT (b.length - r.psr.hp_parsed) = b.length := by
  constructor
  · intro r hr
    have h : Parsed s.pos s.buf.length 0 r := by
      cases k with
      | req => exact httpParser_parsed (reqLine_end hooks) hne.le r hr
      | resp => exact httpParser_parsed (statusLine_end hooks) hne.le r hr
    have hle := h.parsed
    omega
  · intro junk st b r _ hr
    have h := (httpParser_parsed (reqLine_end (connHooks junk)) (Nat.zero_le _) r hr).parsed
    dsimp only at h
    rw [given_length] at h
    rw [← Nat.cast_sub (by omega), sizeT_natCast]
    omega

def twoFields : Bytes := ascii "GET / HTTP/1.0\r\nA: b\r\nC: d\r\n"

theorem parsed_le_twoFields : ∃ r, Msg.req.parse record fresh (whole twoFields) [] = .ok r ∧
    r.psr.hp_parsed ≤ twoFields.length :=
  ⟨_, rfl, (parsed_le .req record fresh (whole twoFields) [] (by decide)).1 _ rfl⟩

end Parsed

end Plume.Http
