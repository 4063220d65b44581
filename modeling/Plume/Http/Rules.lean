import Plume.Http.Message

/-! What a parse does around its callbacks: up to the next callback the parser looks at
the input only, so what a parse leads to follows from what its callbacks do. -/

namespace Plume.Http
open CLib

section Split

abbrev Part := ∀ δ σ : Type, Hooks δ σ → Parser δ → σ → Except Fault (Step δ σ)

/-- Whatever the callbacks, the part faults, ends the call, or goes on as one of the `K`. -/
def Splits {ι : Type} (K : ι → Part) (F : Part) : Prop :=
  (∃ f, ∀ δ σ hooks psr own, F δ σ hooks psr own = .error f) ∨
  (∃ rc s, (rc = .again ∨ rc = .error) ∧
    ∀ δ σ hooks psr own, F δ σ hooks psr own = .ok ⟨rc, psr, s, own⟩) ∨
  ∃ i, ∀ δ σ hooks psr own, F δ σ hooks psr own = K i δ σ hooks psr own

variable {ι α : Type} {K : ι → Part}

theorem splits_stop {rc : Rc} (hrc : rc = .again ∨ rc = .error) (s : Input) :
    Splits K fun _ _ _ psr own => .ok ⟨rc, psr, s, own⟩ :=
  .inr (.inl ⟨rc, s, hrc, fun _ _ _ _ _ => rfl⟩)

theorem splits_call (i : ι) : Splits K (K i) := .inr (.inr ⟨i, fun _ _ _ _ _ => rfl⟩)

theorem splits_bind {x : Except Fault α} {F : α → Part} (h : ∀ a, Splits K (F a)) :
    Splits K fun δ σ hooks psr own => x >>= fun a => F a δ σ hooks psr own := by
  cases x with
  | error f => exact .inl ⟨f, fun _ _ _ _ _ => rfl⟩
  | ok a => exact h a

theorem splits_ite {p : Prop} [Decidable p] {F G : Part} (hF : Splits K F) (hG : Splits K G) :
    Splits K fun δ σ hooks psr own => if p then F δ σ hooks psr own else G δ σ hooks psr own := by
  by_cases hp : p
  · simpa only [hp, if_true] using hF
  · simpa only [hp, if_false] using hG

end Split

def reqLineCall (x : Mthd × Bytes × Ver × ℕ × Input) : Part := fun _ _ hooks psr own => do
  let (rc, data, own) ← hooks.hp_on_req_line x.1 (.ofBytes x.2.1) x.2.2.1 psr.hp_data own
  return ⟨if rc = 0 then .done else .brk, ⟨.rlDone, x.2.2.2.1, data⟩, x.2.2.2.2, own⟩

theorem reqLine_split (s : Input) :
    Splits reqLineCall fun _ _ hooks psr own => httpParserReqLine hooks psr s own := by
  simp only [httpParserReqLine]
  cases find (· == LF) s.buf (s.pos + leadingSpaces s.buf s.pos) with
  | none => exact splits_stop (.inl rfl) s
  | some lf =>
    refine splits_bind fun i => splits_bind fun b => splits_bind fun p => ?_
    cases p with
    | none => exact splits_stop (.inr rfl) _
    | some p =>
      refine splits_bind fun b => splits_bind fun m => ?_
      cases m with
      | none => exact splits_stop (.inr rfl) _
      | some m =>
        refine splits_bind fun q => splits_bind fun p => ?_
        cases p with
        | none => exact splits_stop (.inr rfl) _
        | some p =>
          refine splits_bind fun b => splits_bind fun q => splits_bind fun e => ?_
          refine splits_ite (splits_stop (.inr rfl) _) (splits_bind fun v => ?_)
          obtain ⟨v, b⟩ := v
          cases v with
          | none => exact splits_stop (.inr rfl) _
          | some v => exact splits_call (_, _, _, _, _)

def fieldCall (fuel : ℕ) (x : PStr × PStr × ℕ × Input) : Part := fun _ _ hooks psr own => do
  let psr := { psr with hp_parsed := psr.hp_parsed + x.2.2.1 }
  let (rc, own) ← hooks.hp_on_field x.1 x.2.1 psr.hp_data own
  if rc ≠ 0 then return ⟨.brk, psr, x.2.2.2, own⟩
  else httpParserFieldNext hooks (httpParserFieldLoop hooks fuel) psr x.2.2.2 own

theorem fieldLoop_split (fuel : ℕ) (s : Input) :
    Splits (fieldCall fuel) fun _ _ hooks psr own => httpParserFieldLoop hooks
      (fuel + 1) psr s own := by
  simp only [httpParserFieldLoop]
  cases find (· == LF) s.buf (s.pos + leadingSpaces s.buf s.pos) with
  | none => exact splits_stop (.inl rfl) s
  | some lf =>
    refine splits_bind fun i => splits_bind fun c => splits_ite (splits_stop (.inr rfl) s) ?_
    refine splits_bind fun i => splits_bind fun b => splits_bind fun p => ?_
    cases p with
    | none => exact splits_stop (.inr rfl) _
    | some p => exact splits_bind fun b => splits_bind fun q => splits_call (_, _, _, _)

section Loop

variable {δ σ : Type} {hooks : Hooks δ σ} {d : δ} {st : PState} {I B : σ → Prop}
  {D : Option δ → σ → Prop} {fuel : ℕ} {psr : Parser δ} {s : Input} {own : σ} {r : Step δ σ}

/-- The owner and the parser behind the fields of a head: `I` holds while they go on, `B`
behind a callback that broke the parse, and `D` of what the end of the head returned. -/
def FieldsEnd (d : δ) (st : PState) (I B : σ → Prop) (D : Option δ → σ → Prop) (r : Step δ σ) :
    Prop :=
  match r.rc with
  | .again => I r.own ∧ r.psr.hp_data = d ∧ (r.psr.hp_state = st ∨ r.psr.hp_state = .hdrCr)
  | .error => I r.own ∧ r.psr.hp_data = d ∧ r.psr.hp_state = st
  | .brk => B r.own ∧ r.psr.hp_data = d ∧ r.psr.hp_state = st
  | .done => ∃ x, D x r.own ∧ r.psr.hp_data = x.getD d ∧
      r.psr.hp_state = if x.isSome then .none else .hdrDone

theorem fieldsEnd_stop (hrc : r.rc = .again ∨ r.rc = .error) (hI : I r.own) (hd : r.psr.hp_data = d)
    (hst : r.psr.hp_state = st) : FieldsEnd d st I B D r := by
  unfold FieldsEnd
  rcases hrc with hrc | hrc
  · rw [hrc]
    exact ⟨hI, hd, .inl hst⟩
  · rw [hrc]
    exact ⟨hI, hd, hst⟩

structure FieldsKeep (hooks : Hooks δ σ) (d : δ) (I B : σ → Prop) (D : Option δ → σ → Prop) :
    Prop where
  field : ∀ k v own own' rc, I own → hooks.hp_on_field k v d own = .ok (rc, own') →
    if rc = 0 then I own' else B own'
  done : ∀ own own' x, I own → hooks.hp_on_hdr_done d own = .ok (x, own') → D x own'

theorem fieldNext_rule {loop : Parser δ → Input → σ → Except Fault (Step δ σ)}
    (hK : FieldsKeep hooks d I B D)
    (hloop : ∀ psr s own r, I own → psr.hp_data = d → psr.hp_state = st →
      loop psr s own = .ok r → FieldsEnd d st I B D r)
    (hI : I own) (hd : psr.hp_data = d) (hst : psr.hp_state = st)
    (h : httpParserFieldNext hooks loop psr s own = .ok r) : FieldsEnd d st I B D r := by
  rw [fieldNext_eq] at h
  dsimp only at h
  cases hb : s.buf.drop (s.pos + psr.hp_parsed) with
  | nil =>
    rw [hb] at h
    obtain rfl := Except.ok.inj h
    exact fieldsEnd_stop (.inl rfl) hI hd hst
  | cons x t =>
    rw [hb] at h
    dsimp only at h
    by_cases hx : x = CR
    case neg => exact hloop _ _ _ _ hI hd hst (by rwa [if_pos hx] at h)
    rw [if_neg (not_not.2 hx)] at h
    by_cases ht : t.head? = some LF
    · rw [if_pos ht, hd] at h
      obtain ⟨⟨y, own'⟩, hcb, h⟩ := bind_eq_ok.1 h
      obtain rfl := Except.ok.inj h
      refine ⟨y, hK.done _ _ _ hI hcb, ?_⟩
      cases y with
      | none => exact ⟨rfl, rfl⟩
      | some d' => exact ⟨rfl, rfl⟩
    · rw [if_neg ht] at h
      obtain rfl := Except.ok.inj h
      exact ⟨hI, hd, .inr rfl⟩

theorem fieldLoop_rule (hK : FieldsKeep hooks d I B D) (hI : I own) (hd : psr.hp_data = d)
    (hst : psr.hp_state = st) (h : httpParserFieldLoop hooks fuel psr s own = .ok r) :
    FieldsEnd d st I B D r := by
  induction fuel generalizing psr s own r with
  | zero => cases h
  | succ fuel ih =>
    have hround := fieldLoop_split fuel s
    simp only [Splits] at hround
    rcases hround with ⟨f, hf⟩ | ⟨rc, s', hrc, hs⟩ | ⟨x, hx⟩
    · rw [hf] at h
      cases h
    · rw [hs] at h
      obtain rfl := Except.ok.inj h
      exact fieldsEnd_stop hrc hI hd hst
    · rw [hx] at h
      simp only [fieldCall, hd] at h
      obtain ⟨⟨rc, own'⟩, hcb, h⟩ := bind_eq_ok.1 h
      have hkeep := hK.field _ _ _ _ _ hI hcb
      dsimp only at h
      by_cases hrc : rc = 0
      · rw [if_pos hrc] at hkeep
        rw [if_neg (not_not.2 hrc)] at h
        refine fieldNext_rule hK (fun _ _ _ _ => ih) hkeep ?_ ?_ h
        · rfl
        · exact hst
      · rw [if_neg hrc] at hkeep
        rw [if_pos hrc] at h
        obtain rfl := Except.ok.inj h
        exact ⟨hkeep, rfl, hst⟩

/-- The rule of the request line: `I` holds of the user data and the owner behind its
callback, or `B` of the owner where that broke the parse. -/
theorem reqLine_rule {I : δ → σ → Prop} (hI : ∀ m u v own' rc d',
      hooks.hp_on_req_line m u v psr.hp_data own = .ok (rc, d', own') →
        if rc = 0 then I d' own' else B own')
    (h : httpParserReqLine hooks psr s own = .ok r) :
    match r.rc with
    | .done => I r.psr.hp_data r.own ∧ r.psr.hp_state = .rlDone
    | .brk => B r.own ∧ r.psr.hp_state = .rlDone
    | _ => r.psr = psr ∧ r.own = own := by
  have hline := reqLine_split s
  simp only [Splits] at hline
  rcases hline with ⟨f, hf⟩ | ⟨rc, s', hrc, hs⟩ | ⟨x, hx⟩
  · rw [hf] at h
    cases h
  · rw [hs] at h
    obtain rfl := Except.ok.inj h
    rcases hrc with rfl | rfl
    · exact ⟨rfl, rfl⟩
    · exact ⟨rfl, rfl⟩
  · rw [hx] at h
    simp only [reqLineCall] at h
    obtain ⟨⟨rc, d', own'⟩, hcb, h⟩ := bind_eq_ok.1 h
    have hkeep := hI _ _ _ _ _ _ hcb
    obtain rfl := Except.ok.inj h
    dsimp only
    by_cases hrc : rc = 0
    · rw [if_pos hrc] at hkeep ⊢
      exact ⟨hkeep, rfl⟩
    · rw [if_neg hrc] at hkeep ⊢
      exact ⟨hkeep, rfl⟩

end Loop

section Follow

variable {δ σ τ : Type} {h : Hooks δ σ} {g : Hooks δ τ} {π : σ → τ} {Good : σ → Prop}

/-- The callbacks `h` do to the part `π` of their owner what `g` does, except where they
break the parse in a state that is not `Good`. -/
structure Hooks.Follows (h : Hooks δ σ) (g : Hooks δ τ) (π : σ → τ) (Good : σ → Prop) : Prop where
  line : ∀ m u v d own rc d' own', h.hp_on_req_line m u v d own = .ok (rc, d', own') →
    (rc ≠ 0 → Good own') → g.hp_on_req_line m u v d (π own) = .ok (rc, d', π own')
  field : ∀ k v d own rc own', h.hp_on_field k v d own = .ok (rc, own') →
    (rc ≠ 0 → Good own') → g.hp_on_field k v d (π own) = .ok (rc, π own')
  done : ∀ d own x own', h.hp_on_hdr_done d own = .ok (x, own') →
    Good own' → g.hp_on_hdr_done d (π own) = .ok (x, π own')

def Step.map (π : σ → τ) (r : Step δ σ) : Step δ τ := ⟨r.rc, r.psr, r.s, π r.own⟩

variable {fuel : ℕ} {psr : Parser δ} {s : Input} {own : σ} {r : Step δ σ}

theorem fieldNext_follows (hF : h.Follows g π Good)
    {loop : Parser δ → Input → σ → Except Fault (Step δ σ)}
    {loop' : Parser δ → Input → τ → Except Fault (Step δ τ)}
    (hloop : ∀ psr s own r, loop psr s own = .ok r → Good r.own →
      loop' psr s (π own) = .ok (r.map π))
    (hr : httpParserFieldNext h loop psr s own = .ok r) (hgood : Good r.own) :
    httpParserFieldNext g loop' psr s (π own) = .ok (r.map π) := by
  rw [fieldNext_eq] at hr ⊢
  dsimp only at hr ⊢
  cases hb : s.buf.drop (s.pos + psr.hp_parsed) with
  | nil =>
    rw [hb] at hr
    obtain rfl := Except.ok.inj hr
    rfl
  | cons x t =>
    rw [hb] at hr
    dsimp only at hr ⊢
    by_cases hx : x = CR
    case neg =>
      rw [if_pos hx] at hr ⊢
      exact hloop _ _ _ _ hr hgood
    rw [if_neg (not_not.2 hx)] at hr ⊢
    by_cases ht : t.head? = some LF
    · rw [if_pos ht] at hr ⊢
      obtain ⟨⟨y, own'⟩, hcb, hr⟩ := bind_eq_ok.1 hr
      obtain rfl := Except.ok.inj hr
      rw [hF.done _ _ _ _ hcb hgood]
      rfl
    · rw [if_neg ht] at hr ⊢
      obtain rfl := Except.ok.inj hr
      rfl

theorem fieldLoop_follows (hF : h.Follows g π Good)
    (hr : httpParserFieldLoop h fuel psr s own = .ok r) (hgood : Good r.own) :
    httpParserFieldLoop g fuel psr s (π own) = .ok (r.map π) := by
  induction fuel generalizing psr s own r with
  | zero => cases hr
  | succ fuel ih =>
    have hround := fieldLoop_split fuel s
    simp only [Splits] at hround
    rcases hround with ⟨f, hf⟩ | ⟨rc, s', -, hs⟩ | ⟨x, hx⟩
    · rw [hf] at hr
      cases hr
    · rw [hs] at hr ⊢
      obtain rfl := Except.ok.inj hr
      rfl
    · rw [hx] at hr ⊢
      simp only [fieldCall] at hr ⊢
      obtain ⟨⟨rc, own'⟩, hcb, hr⟩ := bind_eq_ok.1 hr
      dsimp only at hr
      by_cases hrc : rc = 0
      · rw [hF.field _ _ _ _ _ _ hcb (absurd hrc), ok_bind, if_neg (not_not.2 hrc)]
        rw [if_neg (not_not.2 hrc)] at hr
        exact fieldNext_follows hF (fun _ _ _ _ => ih) hr hgood
      · rw [if_pos hrc] at hr
        obtain rfl := Except.ok.inj hr
        rw [hF.field _ _ _ _ _ _ hcb fun _ => hgood, ok_bind, if_pos hrc]
        rfl

/-- The first line, except where it is broken off. -/
theorem reqLine_follows (hF : h.Follows g π Good)
    (hr : httpParserReqLine h psr s own = .ok r) (hgood : r.rc ≠ .done → Good r.own) :
    httpParserReqLine g psr s (π own) = .ok (r.map π) := by
  have hline := reqLine_split s
  simp only [Splits] at hline
  rcases hline with ⟨f, hf⟩ | ⟨rc, s', -, hs⟩ | ⟨x, hx⟩
  · rw [hf] at hr
    cases hr
  · rw [hs] at hr ⊢
    obtain rfl := Except.ok.inj hr
    rfl
  · rw [hx] at hr ⊢
    simp only [reqLineCall] at hr ⊢
    obtain ⟨⟨rc, d, own'⟩, hcb, hr⟩ := bind_eq_ok.1 hr
    obtain rfl := Except.ok.inj hr
    rw [hF.line _ _ _ _ _ _ _ _ hcb fun hrc => hgood (by simp [hrc])]
    rfl

/-- A whole call behaves alike for both, as long as the first ends well. -/
theorem httpParserReq_follows (hF : h.Follows g π Good)
    (hr : httpParserReq h psr s own = .ok r) (hgood : Good r.own) :
    httpParserReq g psr s (π own) = .ok (r.map π) := by
  unfold httpParserReq httpParser at hr ⊢
  dsimp only at hr ⊢
  by_cases h1 : psr.hp_state = .none
  · rw [if_pos h1] at hr ⊢
    obtain ⟨r₁, hl, hr⟩ := bind_eq_ok.1 hr
    by_cases hrc : r₁.rc = .done
    · rw [reqLine_follows hF hl (absurd hrc), ok_bind, Step.map, if_pos hrc]
      rw [if_pos hrc] at hr
      by_cases hlen : r₁.s.s_len > 0
      · rw [if_pos hlen] at hr ⊢
        exact fieldLoop_follows hF hr hgood
      · rw [if_neg hlen] at hr ⊢
        obtain rfl := Except.ok.inj hr
        rfl
    · rw [if_neg hrc] at hr
      obtain rfl := Except.ok.inj hr
      rw [reqLine_follows hF hl fun _ => hgood, ok_bind, Step.map, if_neg hrc]
      rfl
  rw [if_neg h1] at hr ⊢
  by_cases h2 : psr.hp_state = .rlCr
  · rw [if_pos h2] at hr ⊢
    obtain ⟨c, hl, hr⟩ := bind_eq_ok.1 hr
    rw [hl, ok_bind]
    split_ifs at hr ⊢
    · exact fieldLoop_follows hF hr hgood
    · obtain rfl := Except.ok.inj hr
      rfl
    · obtain rfl := Except.ok.inj hr
      rfl
  rw [if_neg h2] at hr ⊢
  by_cases h3 : psr.hp_state = .rlDone
  · rw [if_pos h3] at hr ⊢
    exact fieldLoop_follows hF hr hgood
  rw [if_neg h3] at hr ⊢
  by_cases h4 : psr.hp_state = .hdrCr
  · rw [if_pos h4] at hr ⊢
    obtain ⟨c, hl, hr⟩ := bind_eq_ok.1 hr
    rw [hl, ok_bind]
    split_ifs at hr ⊢
    · obtain rfl := Except.ok.inj hr
      rfl
    · obtain rfl := Except.ok.inj hr
      rfl
  rw [if_neg h4] at hr ⊢
  split_ifs at hr ⊢
  · obtain rfl := Except.ok.inj hr
    rfl
  · obtain rfl := Except.ok.inj hr
    rfl

end Follow

end Plume.Http
