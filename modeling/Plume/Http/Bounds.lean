import Plume.Http.Decode

/-! Which inputs keep the parser inside its buffer. Two things lead it outside: an
LF where a line should begin, since the byte before an LF is taken to belong to the
line, and the cursor of the field loop, which runs past the end of the buffer when
fewer bytes follow a field line than were parsed before it. Both are conditions on
the input alone, because a line is read before anything in it is overwritten. -/

namespace Plume.Http
open CLib

section Input

variable {b : Bytes}

/-- A field line at index `p` of the input, with a colon before any NUL. -/
structure FieldLine (b : Bytes) (p k : ℕ) (w post : Bytes) : Prop where
  text : b.drop p = List.replicate k SP ++ (w ++ [CR]) ++ LF :: post
  lf : LF ∉ w ++ [CR]
  head : (w ++ [CR]).head? ≠ some SP
  colon : (fieldOf w).isSome

/-- From one cursor of the field loop to the next, each with the bytes parsed before it. -/
def Next (b : Bytes) (q q' : ℕ × ℕ) : Prop :=
  ∃ k w post, FieldLine b q.2 k w post ∧
    q' = (q.1 + (k + w.length + 2), q.2 + (q.1 + (k + w.length + 2))) ∧
    ∃ x, b[q'.2]? = some x ∧ x ≠ CR

/-- The cursor stands at an LF that begins the buffer or follows a CR. -/
def LfFirst (b : Bytes) (p : ℕ) : Prop :=
  b[p]? = some LF ∧ ∀ c, (b.take p).getLast? = some c → c = CR

/-- Fewer bytes follow the field line at the cursor than were parsed before it. -/
def TooFar (b : Bytes) (q : ℕ × ℕ) : Prop :=
  ∃ k w post, FieldLine b q.2 k w post ∧ post.length < q.1

/-- The cursors of the field loop that starts at `q` stay inside the buffer. -/
def FieldsInside (b : Bytes) (q : ℕ × ℕ) : Prop :=
  ∀ q', Relation.ReflTransGen (Next b) q q' → ¬ LfFirst b q'.2 ∧ ¬ TooFar b q'

def ReqLineInside (b : Bytes) : Prop :=
  ∀ k body post, b = List.replicate k SP ++ body ++ LF :: post → LF ∉ body →
    body.head? ≠ some SP → body ≠ [] ∧
      ∀ w c m u v, body = w ++ [c] → reqLineHead w = some (m, u, v) → 3 ≤ v.length + post.length ∧
        (versionOf v ≠ none → FieldsInside b (k + w.length + 2, k + w.length + 2))

def StatusLineInside (b : Bytes) : Prop :=
  b.head? ≠ some LF ∧ ∀ k w post v t, b = List.replicate k SP ++ (w ++ [CR]) ++ LF :: post →
    LF ∉ w ++ [CR] → (w ++ [CR]).head? ≠ some SP → token w = some (v, t) →
      3 ≤ w.length + post.length ∧
        (statusTail v t ≠ none → FieldsInside b (k + w.length + 2, k + w.length + 2))

theorem fieldsInside_iff {q : ℕ × ℕ} :
    FieldsInside b q ↔
      ¬ LfFirst b q.2 ∧ ¬ TooFar b q ∧ ∀ q', Next b q q' → FieldsInside b q' := by
  constructor
  · intro h
    exact ⟨(h q .refl).1, (h q .refl).2, fun q' hq q'' hq' => h q'' (.head hq hq')⟩
  · rintro ⟨h1, h2, h⟩ q' hq'
    obtain rfl | ⟨c, hc, hcq⟩ := Relation.ReflTransGen.cases_head hq'
    · exact ⟨h1, h2⟩
    · exact h c hc q' hcq

theorem line_unique {k k' : ℕ} {body body' post post' : Bytes}
    (h : List.replicate k SP ++ body ++ LF :: post = List.replicate k' SP ++ body' ++ LF :: post')
    (hLF : LF ∉ body) (hhd : body.head? ≠ some SP) (hLF' : LF ∉ body')
    (hhd' : body'.head? ≠ some SP) :
    k = k' ∧ body = body' ∧ post = post' := by
  have hmem : ∀ {k : ℕ} {body : Bytes}, LF ∉ body → LF ∉ List.replicate k SP ++ body := by
    intro k body hb
    simp [hb]
  have hcut := cut_some (t := post) (hmem (k := k) hLF)
  rw [h, cut_some (hmem hLF'), Option.some.injEq, Prod.mk.injEq] at hcut
  have hk := leadingSpaces_drop (i := 0) (b := List.replicate k SP ++ body) rfl hhd
  rw [← hcut.1, leadingSpaces_drop (i := 0) rfl hhd'] at hk
  subst hk
  exact ⟨rfl, List.append_cancel_left hcut.1.symm, hcut.2.symm⟩

theorem fieldsInside_of_noLf {q : ℕ × ℕ} (h : LF ∉ b.drop q.2) : FieldsInside b q := by
  have hline : ∀ k w post, ¬ FieldLine b q.2 k w post := fun k w post hl => h (by simp [hl.text])
  refine fieldsInside_iff.2 ⟨fun hlf => h ?_, ?_, ?_⟩
  · rw [LfFirst, ← List.head?_drop] at hlf
    exact List.mem_of_mem_head? hlf.1
  · rintro ⟨k, w, post, hl, -⟩
    exact hline k w post hl
  · rintro q' ⟨k, w, post, hl, -⟩
    exact absurd hl (hline k w post)

/-- The cursor at a line: what the line must be, and where the cursor goes. -/
theorem fieldsInside_line {P p k : ℕ} {body post : Bytes}
    (hb : b.drop p = List.replicate k SP ++ body ++ LF :: post) (hLF : LF ∉ body)
    (hhd : body.head? ≠ some SP) :
    FieldsInside b (P, p) ↔
      (k = 0 → body = [] → ∃ c, (b.take p).getLast? = some c ∧ c ≠ CR) ∧
      ∀ w, body = w ++ [CR] → (fieldOf w).isSome → P ≤ post.length ∧
        ∀ x t, post.drop P = x :: t → x ≠ CR →
          FieldsInside b (P + (k + w.length + 2), p + (P + (k + w.length + 2))) := by
  have hlf : LfFirst b p ↔ k = 0 ∧ body = [] ∧ ∀ c, (b.take p).getLast? = some c → c = CR := by
    rw [LfFirst, ← List.head?_drop, hb, ← and_assoc]
    refine and_congr_left fun _ => ?_
    cases k with
    | zero =>
      cases body with
      | nil => simp
      | cons x body =>
        have hx : x ≠ LF := fun h => hLF (by simp [h])
        simp [hx]
    | succ k => simp [List.replicate_succ]
  have hline : ∀ k' w' post', FieldLine b p k' w' post' ↔
      k' = k ∧ body = w' ++ [CR] ∧ post' = post ∧ (fieldOf w').isSome := by
    intro k' w' post'
    constructor
    · intro h
      obtain ⟨rfl, rfl, rfl⟩ := line_unique (h.text.symm.trans hb) h.lf h.head hLF hhd
      exact ⟨rfl, rfl, rfl, h.colon⟩
    · rintro ⟨rfl, rfl, rfl, hc⟩
      exact ⟨hb, hLF, hhd, hc⟩
  have hget : ∀ w, body = w ++ [CR] → ∀ x, (b[p + (P + (k + w.length + 2))]? = some x ↔
      ∃ t, post.drop P = x :: t) := by
    rintro w rfl x
    rw [← List.head?_drop, ← List.drop_drop, hb,
      show P + (k + w.length + 2) = (List.replicate k SP ++ (w ++ [CR]) ++ [LF]).length + P by
        simp; omega,
      show List.replicate k SP ++ (w ++ [CR]) ++ LF :: post =
        List.replicate k SP ++
          (w ++ [CR]) ++ [LF] ++ post by simp, ← List.drop_drop, List.drop_left]
    cases post.drop P <;> simp
  rw [fieldsInside_iff]
  constructor
  · rintro ⟨h1, h2, h3⟩
    refine ⟨fun hk hbody => ?_, fun w hw hc => ?_⟩
    · by_contra hno
      push Not at hno
      exact h1 (hlf.2 ⟨hk, hbody, hno⟩)
    · have hl := (hline k w post).2 ⟨rfl, hw, rfl, hc⟩
      refine ⟨not_lt.1 fun hlt => h2 ⟨k, w, post, hl, hlt⟩, fun x t hd hx => ?_⟩
      exact h3 _ ⟨k, w, post, hl, rfl, x, (hget w hw x).2 ⟨t, hd⟩, hx⟩
  · rintro ⟨h1, h2⟩
    refine ⟨fun h => ?_, ?_, ?_⟩
    · obtain ⟨hk, hbody, hall⟩ := hlf.1 h
      obtain ⟨c, hc, hne⟩ := h1 hk hbody
      exact hne (hall c hc)
    · rintro ⟨k', w, post', hl, hlt⟩
      obtain ⟨rfl, hw, rfl, hc⟩ := (hline k' w post').1 hl
      exact absurd hlt (not_lt.2 (h2 w hw hc).1)
    · rintro q' ⟨k', w, post', hl, rfl, x, hx, hne⟩
      obtain ⟨rfl, hw, rfl, hc⟩ := (hline k' w post').1 hl
      obtain ⟨t, ht⟩ := (hget w hw x).1 hx
      exact (h2 w hw hc).2 x t ht hne

end Input

section Loop

variable {δ σ : Type} {hooks : Hooks δ σ} {psr : Parser δ} {s : Input} {own : σ} {b : Bytes}
  {fuel : ℕ} {r : Step δ σ}

/-- Callbacks that do not themselves run into a fault. -/
structure Hooks.Total (hooks : Hooks δ σ) : Prop where
  req_line : ∀ m u v d own, ∃ x, hooks.hp_on_req_line m u v d own = .ok x
  status_line : ∀ v c t d own, ∃ x, hooks.hp_on_status_line v c t d own = .ok x
  field : ∀ k v d own, ∃ x, hooks.hp_on_field k v d own = .ok x
  hdr_done : ∀ d own, ∃ x, hooks.hp_on_hdr_done d own = .ok x

def quiet : Hooks δ σ where
  hp_on_req_line _ _ _ d own := .ok (0, d, own)
  hp_on_status_line _ _ _ d own := .ok (0, d, own)
  hp_on_field _ _ _ own := .ok (0, own)
  hp_on_hdr_done _ own := .ok (none, own)

theorem quiet_total : (quiet : Hooks δ σ).Total :=
  ⟨fun _ _ _ _ _ => ⟨_, rfl⟩, fun _ _ _ _ _ => ⟨_, rfl⟩, fun _ _ _ _ => ⟨_, rfl⟩,
    fun _ _ => ⟨_, rfl⟩⟩

/-- The buffer has not been written to from the byte before the cursor on. -/
def Unwritten (b : Bytes) (s : Input) : Prop :=
  ∃ pre pre0 rest, s.buf = pre ++ rest ∧ b = pre0 ++ rest ∧ s.pos = pre.length ∧
    pre0.length = pre.length ∧ pre.getLast? = pre0.getLast?

/-- A length that was negative once stays on record. -/
theorem fieldNext_neg {loop : Parser δ → Input → σ → Except Fault (Step δ σ)}
    (hloop : ∀ {psr s own r}, loop psr s own = .ok r → s.neg = true → r.s.neg = true)
    (h : httpParserFieldNext hooks loop psr s own = .ok r)
    (hs : (s.neg || decide (s.buf.length < s.pos + psr.hp_parsed)) = true) : r.s.neg = true := by
  simp only [fieldNext_eq, hs] at h
  split at h
  · obtain rfl := Except.ok.inj h
    rfl
  split_ifs at h
  · exact hloop h rfl
  · obtain ⟨x, -, h⟩ := bind_eq_ok.1 h
    obtain rfl := Except.ok.inj h
    rfl
  · obtain rfl := Except.ok.inj h
    rfl

theorem callback_neg {loop : Parser δ → Input → σ → Except Fault (Step δ σ)}
    {cb : Except Fault (ℤ × σ)}
    (hloop : ∀ {psr s own r}, loop psr s own = .ok r → s.neg = true → r.s.neg = true)
    (h : (do
      let (rc, own) ← cb
      if rc ≠ 0 then return ⟨.brk, psr, s, own⟩
      else httpParserFieldNext hooks loop psr s own : Except Fault (Step δ σ)) = .ok r)
    (hs : s.neg = true) : r.s.neg = true := by
  obtain ⟨⟨rc, own⟩, -, h⟩ := bind_eq_ok.1 h
  dsimp only at h
  split_ifs at h
  · obtain rfl := Except.ok.inj h
    exact hs
  · exact fieldNext_neg hloop h (by rw [hs, Bool.true_or])

theorem fieldLoop_neg (h : httpParserFieldLoop hooks fuel psr s own = .ok r) (hs : s.neg = true) :
    r.s.neg = true := by
  induction fuel generalizing psr s own r with
  | zero => simp [httpParserFieldLoop] at h
  | succ fuel ih =>
    rcases fieldLoop_cases hooks fuel psr s own with
      ⟨f, hf⟩ | ⟨rc, s', hs', -, hneg⟩ | ⟨key, value, n, s', -, -, -, -, hval, hs'⟩
    · simp [hf] at h
    · rw [hs'] at h
      obtain rfl := Except.ok.inj h
      exact hneg hs
    · rw [hs'] at h
      refine callback_neg ih h ?_
      rcases hval with ⟨-, h⟩ | ⟨h, -⟩
      · exact h
      · rw [h, hs]

/-- The loop does not survive an LF at its cursor that follows a CR. -/
theorem fieldLoop_lfFirst {pre post : Bytes} (hb : s.buf = pre ++ LF :: post)
    (hp : s.pos = pre.length) (hpre : ∀ c, pre.getLast? = some c → c = CR)
    (h : httpParserFieldLoop hooks (fuel + 1) psr s own = .ok r) : r.s.neg = true := by
  rcases List.eq_nil_or_concat' pre with rfl | ⟨l, c, rfl⟩
  · have h' := fieldLoop_empty hooks psr own fuel (k := 0) (by simpa using hb) hp
    simp only [List.replicate_zero, List.append_nil, List.getLast?_nil] at h'
    simp [h'] at h
  · obtain rfl : c = CR := hpre c (by simp)
    rcases fieldLoop_lf hooks psr own fuel hb
      (by simpa using hp) with ⟨f, hf⟩ | ⟨buf, hs⟩ | ⟨key, value, buf, -, -, hs⟩
    · simp [hf] at h
    · rw [hs] at h
      obtain rfl := Except.ok.inj h
      rfl
    · rw [hs] at h
      exact callback_neg fieldLoop_neg h rfl

theorem Unwritten.drop_eq (hs : Unwritten b s) : s.buf.drop s.pos = b.drop s.pos := by
  obtain ⟨pre, pre0, rest, hb, rfl, hp, hl, -⟩ := hs
  rw [hb, hp, List.drop_left, ← hl, List.drop_left]

theorem drop_past (pre post : Bytes) (P : ℕ) :
    (pre ++ LF :: post).drop (pre.length + 1 + P) = post.drop P := by
  rw [← List.drop_drop, show pre ++ LF :: post = pre ++ [LF] ++ post by simp,
    show pre.length + 1 = (pre ++ [LF]).length by simp, List.drop_left]

theorem Unwritten.at_cursor {pre t : Bytes} (hs : Unwritten b s) (hb : s.buf = pre ++ t)
    (hp : s.pos = pre.length) : ∃ pre0, b = pre0 ++ t ∧ pre0.length = pre.length ∧
      b.drop s.pos = t ∧ (b.take s.pos).getLast? = pre.getLast? := by
  obtain ⟨pre', pre0, rest, hb', rfl, hp', hl, hlast⟩ := hs
  obtain ⟨rfl, rfl⟩ := List.append_inj (hb.symm.trans hb') (hp.symm.trans hp')
  refine ⟨pre0, rfl, hl, ?_, ?_⟩
  · rw [hp, ← hl, List.drop_left]
  · rw [hp, ← hl, List.take_left, hlast]

/-- Behind a line nothing has been written, wherever the cursor goes from there. -/
theorem Unwritten.next {pre pre0 post : Bytes} {P : ℕ} {neg : Bool} (hl : pre0.length = pre.length)
    (hP : P ≤ post.length) :
    Unwritten (pre0 ++ LF :: post) ⟨pre ++ LF :: post, pre.length + 1 + P, neg⟩ := by
  refine
    ⟨pre ++ LF :: post.take P, pre0 ++ LF :: post.take P, post.drop P, by simp, by simp, ?_, ?_, ?_⟩
  · simp [hP]
    omega
  · simp [hl]
  · rw [List.getLast?_append_of_ne_nil _ (by simp), List.getLast?_append_of_ne_nil _ (by simp)]

/-- No access outside the buffer and no negative length. -/
def Safe (x : Except Fault (Step δ σ)) : Prop := ∃ r, x = .ok r ∧ r.s.neg = false

theorem safe_ok {r : Step δ σ} : Safe (.ok r : Except Fault (Step δ σ)) ↔ r.s.neg = false := by
  constructor
  · rintro ⟨r', h, hr⟩
    obtain rfl := Except.ok.inj h
    exact hr
  · exact fun h => ⟨r, rfl, h⟩

theorem safe_callback {α : Type} {cb : Except Fault α} {f : α → Except Fault (Step δ σ)} {x : α}
    (hcb : cb = .ok x) : Safe (cb >>= f) ↔ Safe (f x) := by
  rw [hcb, ok_bind]

/-- The loop in `s`, whose line has been parsed and reported. -/
theorem fieldNext_safe (ht : hooks.Total) (pre : Bytes) {post : Bytes} {P : ℕ}
    {loop : Parser δ → Input → σ → Except Fault (Step δ σ)}
    (hp : s.pos + psr.hp_parsed = pre.length + 1 + P) (hb : s.buf = pre ++ LF :: post)
    (hneg : s.neg = false) (hP : P ≤ post.length)
    (hloop : ∀ x t, post.drop P = x :: t → x ≠ CR →
      Safe (loop psr ⟨pre ++ LF :: post, pre.length + 1 + P, false⟩ own)) :
    Safe (httpParserFieldNext hooks loop psr s own) := by
  have hdrop : s.buf.drop (s.pos + psr.hp_parsed) = post.drop P := by
    rw [hp, hb, drop_past]
  have hneg' : (s.neg || decide (s.buf.length < s.pos + psr.hp_parsed)) = false := by
    rw [hneg, hp, hb]
    simp
    omega
  rw [fieldNext_eq, hdrop, hneg']
  cases hd : post.drop P with
  | nil => exact safe_ok.2 rfl
  | cons x t =>
    dsimp only
    split_ifs with hx
    · rw [hp, hb]
      exact hloop x t hd hx
    · obtain ⟨y, hy⟩ := ht.hdr_done psr.hp_data own
      rw [safe_callback hy]
      exact safe_ok.2 rfl
    · exact safe_ok.2 rfl

theorem fieldLoop_safe (ht : hooks.Total) (hs : Unwritten b s) (hneg : s.neg = false)
    (hfuel : b.length < s.pos + fuel) (hin : FieldsInside b (psr.hp_parsed, s.pos)) :
    Safe (httpParserFieldLoop hooks fuel psr s own) := by
  induction fuel generalizing psr s own with
  | zero =>
    obtain ⟨pre, pre0, rest, -, rfl, hp, hl, -⟩ := hs
    simp only [List.length_append] at hfuel
    omega
  | succ fuel ih =>
    rcases cursor_cases s with hno | ⟨pre, k, body, post, hb, hp, hLF, hhd⟩
    · rw [fieldLoop_none (cursor_noLf hno)]
      exact safe_ok.2 hneg
    obtain ⟨pre0, hb0, hl0, hdrop, htake⟩ := hs.at_cursor
      (t := List.replicate k SP ++ body ++ LF :: post) (by simpa using hb) hp
    obtain ⟨hfirst, hline⟩ := (fieldsInside_line hdrop hLF hhd).1 hin
    rcases List.eq_nil_or_concat' body with rfl | ⟨w, c, rfl⟩
    · rw [List.append_nil] at hb
      have hempty := fieldLoop_empty hooks psr own fuel hb hp
      obtain ⟨c, hc, hcr⟩ : ∃ c, (pre ++ List.replicate k SP).getLast? = some c ∧ c ≠ CR := by
        cases k with
        | zero =>
          rw [List.replicate_zero, List.append_nil, ← htake]
          exact hfirst rfl rfl
        | succ k =>
          exact
            ⟨SP, by rw [List.replicate_succ', ← List.append_assoc, List.getLast?_concat], by simp⟩
      simp only [hc] at hempty
      rw [hempty hcr]
      exact safe_ok.2 hneg
    by_cases hc : c = CR
    case neg =>
      rw [fieldLoop_noCr hb hp hLF hhd hc]
      exact safe_ok.2 hneg
    subst hc
    have hround := fieldLoop_line hooks psr own pre fuel hb hp hLF hhd
    cases hf : fieldOf w with
    | none =>
      simp only [hf] at hround
      obtain ⟨buf, hround⟩ := hround
      rw [hround]
      exact safe_ok.2 hneg
    | some kv =>
      obtain ⟨key, value⟩ := kv
      simp only [hf] at hround
      obtain ⟨pre', hpre', hround⟩ := hround
      obtain ⟨hP, hnext⟩ := hline w rfl (by simp [hf])
      rw [hround]
      obtain ⟨⟨rc, own'⟩, hcb⟩ := ht.field (.ofBytes key) (.ofBytes value) psr.hp_data own
      rw [safe_callback hcb]
      split_ifs
      · exact safe_ok.2 hneg
      · refine fieldNext_safe ht pre' (P := psr.hp_parsed) ?_ rfl hneg hP fun x t hd hx => ?_
        · simp only [hpre', hp]
          omega
        · refine ih ?_ rfl (by dsimp only; omega) ?_
          · rw [hb0, ← List.append_assoc]
            refine Unwritten.next ?_ hP
            simp [hl0, hpre']
            omega
          · have h := hnext x t hd hx
            rwa [show s.pos + (psr.hp_parsed + (k + w.length + 2)) =
              pre'.length + 1 + psr.hp_parsed by
              omega] at h

theorem fieldLoop_inside (hs : Unwritten b s)
    (h : Safe (httpParserFieldLoop quiet fuel psr s own)) : FieldsInside b
    (psr.hp_parsed, s.pos) := by
  induction fuel generalizing psr s with
  | zero =>
    obtain ⟨r, hr, -⟩ := h
    simp [httpParserFieldLoop] at hr
  | succ fuel ih =>
    rcases cursor_cases s with hno | ⟨pre, k, body, post, hb, hp, hLF, hhd⟩
    · exact fieldsInside_of_noLf (hs.drop_eq ▸ hno)
    obtain ⟨pre0, hb0, hl0, hdrop, htake⟩ := hs.at_cursor
      (t := List.replicate k SP ++ body ++ LF :: post) (by simpa using hb) hp
    obtain ⟨r, hr, hneg⟩ := h
    refine (fieldsInside_line hdrop hLF hhd).2 ⟨?_, ?_⟩
    · rintro rfl rfl
      rw [htake]
      by_contra hno
      push Not at hno
      have hlf := fieldLoop_lfFirst (by simpa using hb) hp hno hr
      rw [hlf] at hneg
      cases hneg
    · rintro w rfl hsome
      obtain ⟨⟨key, value⟩, hf⟩ := Option.isSome_iff_exists.1 hsome
      have hround := fieldLoop_line quiet psr own pre fuel hb hp hLF hhd
      simp only [hf] at hround
      obtain ⟨pre', hpre', hround⟩ := hround
      rw [hround] at hr
      simp only [quiet, ok_bind, ne_eq, not_true_eq_false, if_false] at hr
      have hP : psr.hp_parsed ≤ post.length := by
        by_contra hlt
        have hneg' := fieldNext_neg (fun {_ _ _ _} => fieldLoop_neg) hr (by
          simp [hpre', hp]
          omega)
        rw [hneg'] at hneg
        cases hneg
      refine ⟨hP, fun x t hd hx => ?_⟩
      have hpos : s.pos +
        (psr.hp_parsed + (k + w.length + 2)) = pre'.length + 1 + psr.hp_parsed := by
        omega
      have hdrop' : (pre' ++ LF :: post).drop
        (s.pos + (psr.hp_parsed + (k + w.length + 2))) = x :: t := by
        rw [hpos, drop_past, hd]
      rw [fieldNext_eq] at hr
      simp only [hdrop', if_pos hx] at hr
      refine ih ?_ ⟨r, hr, hneg⟩
      rw [hb0, ← List.append_assoc, hpos]
      refine Unwritten.next ?_ hP
      simp [hl0, hpre']
      omega

variable (psr) in
theorem httpParserField_safe (ht : hooks.Total) (hs : Unwritten b s) (hneg : s.neg = false)
    (hin : FieldsInside b (psr.hp_parsed, s.pos)) : Safe (httpParserField hooks psr s own) := by
  refine fieldLoop_safe ht hs hneg ?_ hin
  obtain ⟨pre, pre0, rest, hb, rfl, hp, hl, -⟩ := hs
  simp only [Input.s_len, hb, hp, List.length_append, hl]
  omega

variable (psr) in
theorem httpParserField_safe_iff (hs : Unwritten b s) (hneg : s.neg = false) :
    (∀ hooks : Hooks δ σ, hooks.Total → Safe (httpParserField hooks psr s own)) ↔
      FieldsInside b (psr.hp_parsed, s.pos) :=
  ⟨fun h => fieldLoop_inside hs (h quiet quiet_total),
    fun h _ ht => httpParserField_safe psr ht hs hneg h⟩

theorem httpParser_stop {line : Parser δ → Input → σ → Except Fault (Step δ σ)} {cr done : PState}
    (hst : psr.hp_state = .none) (h : line { psr with hp_parsed := 0 } s own = .ok r)
    (hr : r.rc ≠ .done) : httpParser line cr done hooks psr s own = .ok r := by
  simp only [httpParser, hst, if_true] at h ⊢
  rw [h, ok_bind, if_neg hr, pure_ok]

theorem httpParser_fault {line : Parser δ → Input → σ → Except Fault (Step δ σ)} {cr done : PState}
    {f : Fault} (hst : psr.hp_state = .none)
    (h : line { psr with hp_parsed := 0 } s own = .error f) :
    httpParser line cr done hooks psr s own = .error f := by
  simp only [httpParser, hst, if_true] at h ⊢
  rw [h, error_bind]

/-- A call in the initial state behind a first line that was accepted. -/
theorem first_safe (ht : hooks.Total) {line : Parser δ → Input → σ → Except Fault (Step δ σ)}
    {cr done : PState} {cb : Except Fault (ℤ × δ × σ)} {n : ℕ} {s' : Input}
    (hst : psr.hp_state = .none)
    (h : line { psr with hp_parsed := 0 } s own = (do
      let (rc, data, own) ← cb
      return ⟨if rc = 0 then .done else .brk, ⟨done, n, data⟩, s', own⟩))
    (hcb : ∃ x, cb = .ok x) (hs : Unwritten b s') (hneg : s'.neg = false)
    (hin : FieldsInside b (n, s'.pos)) : Safe (httpParser line cr done hooks psr s own) := by
  obtain ⟨⟨rc, data, own'⟩, hcb⟩ := hcb
  rw [httpParser_first hst h, safe_callback hcb]
  by_cases hrc : rc = 0
  · by_cases hlen : s'.s_len > 0
    · simpa only [hrc, ne_eq, not_true_eq_false, if_false, if_pos hlen] using
        httpParserField_safe ⟨done, n, data⟩ ht hs hneg hin
    · simpa only [hrc, ne_eq, not_true_eq_false, if_false, if_neg hlen,
        pure_ok] using safe_ok.2 hneg
  · simpa only [ne_eq, hrc, not_false_eq_true, if_true, pure_ok] using safe_ok.2 hneg

theorem first_inside {line : Parser δ → Input → σ → Except Fault (Step δ σ)} {cr done : PState}
    {data : δ} {n : ℕ} {s' : Input} (hst : psr.hp_state = .none)
    (h : line { psr with hp_parsed := 0 } s own = (do
      let (rc, data, own) ← (.ok (0, data, own) : Except Fault (ℤ × δ × σ))
      return ⟨if rc = 0 then .done else .brk, ⟨done, n, data⟩, s', own⟩))
    (hs : Unwritten b s') (hsafe : Safe (httpParser line cr done quiet psr s own)) :
    FieldsInside b (n, s'.pos) := by
  rw [httpParser_first hst h, ok_bind] at hsafe
  simp only [ne_eq, not_true_eq_false, if_false] at hsafe
  split_ifs at hsafe with hlen
  · exact fieldLoop_inside hs hsafe
  · refine fieldsInside_of_noLf ?_
    rw [← hs.drop_eq, List.drop_eq_nil_of_le (by simp only [Input.s_len] at hlen; omega)]
    simp

/-- The request-line parser on spaces and an LF counts a line of length minus one. -/
theorem reqLine_empty {k : ℕ} {post : Bytes}
    (h : httpParserReqLine hooks psr (whole (List.replicate k SP ++ LF :: post)) own = .ok r) :
    r.s.neg = true := by
  have hstr : leadingSpaces (List.replicate k SP ++ LF :: post) 0 = k :=
    leadingSpaces_drop (t := LF :: post) rfl (by rintro ⟨⟩)
  have hlf : find (· == LF) (List.replicate k SP ++ LF :: post) k = some k := by
    rw [find_split (l := List.replicate k SP) (m := []) (r := post) (x := LF) (by simp) (by simp)
      (by simp) (by simp)]
    simp
  have hneg : ((k : ℤ) - 1 - k < 0) = True := by simp
  simp only [httpParserReqLine, whole, Nat.zero_add, hstr, hlf, Input.length, hneg, decide_true,
    Bool.or_true] at h
  obtain ⟨i, -, h⟩ := bind_eq_ok.1 h
  obtain ⟨b1, -, h⟩ := bind_eq_ok.1 h
  obtain ⟨_ | p, -, h⟩ := bind_eq_ok.1 h
  · obtain rfl := Except.ok.inj h
    rfl
  obtain ⟨b2, -, h⟩ := bind_eq_ok.1 h
  obtain ⟨_ | m, -, h⟩ := bind_eq_ok.1 h
  · obtain rfl := Except.ok.inj h
    rfl
  obtain ⟨p, -, h⟩ := bind_eq_ok.1 h
  obtain ⟨_ | p', -, h⟩ := bind_eq_ok.1 h
  · obtain rfl := Except.ok.inj h
    rfl
  obtain ⟨b3, -, h⟩ := bind_eq_ok.1 h
  obtain ⟨p'', -, h⟩ := bind_eq_ok.1 h
  obtain ⟨eq, -, h⟩ := bind_eq_ok.1 h
  split_ifs at h
  · obtain rfl := Except.ok.inj h
    rfl
  obtain ⟨⟨_ | ver, b4⟩, -, h⟩ := bind_eq_ok.1 h
  · obtain rfl := Except.ok.inj h
    rfl
  obtain ⟨x, -, h⟩ := bind_eq_ok.1 h
  obtain rfl := Except.ok.inj h
  rfl

end Loop

inductive Msg
  | req | resp
deriving DecidableEq, Repr

section Call

variable {δ σ : Type} {hooks : Hooks δ σ} {psr : Parser δ} {own : σ} {b : Bytes}

def Msg.parse (hooks : Hooks δ σ) : Msg → Parser δ → Input → σ → Except Fault (Step δ σ)
  | .req => httpParserReq hooks
  | .resp => httpParserResp hooks

/-- The inputs a call in a given state reads without leaving the buffer. -/
def Msg.Inside : Msg → PState → Bytes → Prop
  | .req, .none, b => ReqLineInside b
  | .resp, .none, b => StatusLineInside b
  | .req, .rlCr, b => b.head? = some LF → FieldsInside b (1, 1)
  | .resp, .slCr, b => b.head? = some LF → FieldsInside b (1, 1)
  | .req, .rlDone, b => FieldsInside b (0, 0)
  | .resp, .slDone, b => FieldsInside b (0, 0)
  | _, _, _ => True

theorem whole_cases (b : Bytes) : LF ∉ b ∨ ∃ k body post,
    b = List.replicate k SP ++ body ++ LF :: post ∧ LF ∉ body ∧ body.head? ≠ some SP := by
  rcases cursor_cases (whole b) with h | ⟨pre, k, body, post, hb, hp, hLF, hhd⟩
  · exact .inl h
  · obtain rfl : pre = [] := List.length_eq_zero_iff.1 hp.symm
    exact .inr ⟨k, body, post, hb, hLF, hhd⟩

theorem unwritten_line {w pre post : Bytes} {k : ℕ} (c : UInt8) (neg : Bool)
    (hpre : pre.length = k + w.length + 1) :
    Unwritten (List.replicate k SP ++ (w ++ [c]) ++ LF :: post)
      ⟨pre ++ LF :: post, pre.length + 1, neg⟩ :=
  Unwritten.next (P := 0) (by simp [hpre, Nat.add_assoc]) (Nat.zero_le _)

theorem req_safe (ht : hooks.Total) (hst : psr.hp_state = .none) (hin : ReqLineInside b) :
    Safe (httpParserReq hooks psr (whole b) own) := by
  rcases whole_cases b with hno | ⟨k, body, post, rfl, hLF, hhd⟩
  · rw [httpParserReq,
      httpParser_stop hst (reqLine_none (cursor_noLf (s := whole b) hno)) (by simp)]
    exact safe_ok.2 rfl
  obtain ⟨hne, hline⟩ := hin k body post rfl hLF hhd
  obtain ⟨w, c, rfl⟩ := (List.eq_nil_or_concat' body).resolve_left hne
  have h := reqLine_line hooks { psr with hp_parsed := 0 } own []
    (s := whole (List.replicate k SP ++ (w ++ [c]) ++ LF :: post)) rfl rfl hLF hhd
  cases hhead : reqLineHead w with
  | none =>
    simp only [hhead] at h
    obtain ⟨buf, h⟩ := h
    rw [httpParserReq, httpParser_stop hst h (by simp)]
    exact safe_ok.2 rfl
  | some x =>
    obtain ⟨m, u, v⟩ := x
    obtain ⟨hlen, hfields⟩ := hline w c m u v rfl hhead
    simp only [hhead, if_neg (not_lt.2 hlen)] at h
    cases hver : versionOf v with
    | none =>
      simp only [hver] at h
      obtain ⟨buf, h⟩ := h
      rw [httpParserReq, httpParser_stop hst h (by simp)]
      exact safe_ok.2 rfl
    | some ver =>
      simp only [hver] at h
      obtain ⟨pre', hpre', h⟩ := h
      simp only [List.length_nil, Nat.zero_add] at hpre'
      refine first_safe ht hst h (ht.req_line _ _ _ _ _) (unwritten_line c _ hpre') rfl ?_
      rw [hpre']
      exact hfields (by simp [hver])

theorem req_inside (hst : psr.hp_state = .none)
    (hsafe : Safe (httpParserReq quiet psr (whole b) own)) : ReqLineInside b := by
  rintro k body post rfl hLF hhd
  constructor
  · rintro rfl
    obtain ⟨r, hr, hneg⟩ := hsafe
    rw [List.append_nil] at hr
    simp only [httpParserReq, httpParser, hst, if_true] at hr
    obtain ⟨x, hx, hr⟩ := bind_eq_ok.1 hr
    have hxneg := reqLine_empty hx
    split_ifs at hr
    · have := fieldLoop_neg hr hxneg
      simp [this] at hneg
    · obtain rfl := Except.ok.inj hr
      simp [hxneg] at hneg
    · obtain rfl := Except.ok.inj hr
      simp [hxneg] at hneg
  · rintro w c m u v rfl hhead
    have h := reqLine_line quiet { psr with hp_parsed := 0 } own []
      (s := whole (List.replicate k SP ++ (w ++ [c]) ++ LF :: post)) rfl rfl hLF hhd
    simp only [hhead] at h
    have hlen : 3 ≤ v.length + post.length := by
      by_contra hlt
      rw [if_pos (not_le.1 hlt)] at h
      rw [httpParserReq, httpParser_fault hst h] at hsafe
      obtain ⟨r, hr, -⟩ := hsafe
      cases hr
    refine ⟨hlen, fun hver => ?_⟩
    obtain ⟨ver, hver⟩ := Option.ne_none_iff_exists'.1 hver
    simp only [if_neg (not_lt.2 hlen), hver] at h
    obtain ⟨pre', hpre', h⟩ := h
    simp only [List.length_nil, Nat.zero_add] at hpre'
    have hin := first_inside hst h (unwritten_line c _ hpre') hsafe
    rwa [hpre'] at hin

theorem resp_safe (ht : hooks.Total) (hst : psr.hp_state = .none) (hin : StatusLineInside b) :
    Safe (httpParserResp hooks psr (whole b) own) := by
  rcases whole_cases b with hno | ⟨k, body, post, rfl, hLF, hhd⟩
  · rw [httpParserResp,
      httpParser_stop hst (statusLine_none (cursor_noLf (s := whole b) hno)) (by simp)]
    exact safe_ok.2 rfl
  obtain ⟨hfirst, hline⟩ := hin
  rcases List.eq_nil_or_concat' body with rfl | ⟨w, c, rfl⟩
  · rw [List.append_nil] at hfirst ⊢
    have h := statusLine_empty hooks { psr with hp_parsed := 0 } own []
      (s := whole (List.replicate k SP ++ LF :: post)) rfl rfl
    cases k with
    | zero => exact absurd rfl hfirst
    | succ k =>
      rw [List.nil_append, List.replicate_succ', List.getLast?_concat] at h
      rw [List.replicate_succ', httpParserResp, httpParser_stop hst (h (by simp)) (by simp)]
      exact safe_ok.2 rfl
  by_cases hc : c = CR
  case neg =>
    rw [httpParserResp, httpParser_stop hst (statusLine_noCr [] rfl rfl hLF hhd hc) (by simp)]
    exact safe_ok.2 rfl
  subst hc
  have h := statusLine_line hooks { psr with hp_parsed := 0 } own []
    (s := whole (List.replicate k SP ++ (w ++ [CR]) ++ LF :: post)) rfl rfl hLF hhd
  cases htok : token w with
  | none =>
    simp only [htok] at h
    obtain ⟨buf, h⟩ := h
    rw [httpParserResp, httpParser_stop hst h (by simp)]
    exact safe_ok.2 rfl
  | some x =>
    obtain ⟨v, t⟩ := x
    obtain ⟨hlen, hfields⟩ := hline k w post v t rfl hLF hhd htok
    simp only [htok, if_neg (not_lt.2 hlen)] at h
    cases htail : statusTail v t with
    | none =>
      simp only [htail] at h
      obtain ⟨buf, h⟩ := h
      rw [httpParserResp, httpParser_stop hst h (by simp)]
      exact safe_ok.2 rfl
    | some x =>
      obtain ⟨ver, code, desc⟩ := x
      simp only [htail] at h
      obtain ⟨pre', hpre', h⟩ := h
      simp only [List.length_nil, Nat.zero_add] at hpre'
      refine first_safe ht hst h (ht.status_line _ _ _ _ _) (unwritten_line CR _ hpre') rfl ?_
      rw [hpre']
      exact hfields (by simp [htail])

theorem resp_inside (hst : psr.hp_state = .none)
    (hsafe : Safe (httpParserResp quiet psr (whole b) own)) : StatusLineInside b := by
  constructor
  · intro hhead
    obtain ⟨post, rfl⟩ : ∃ post, b = LF :: post := by
      cases b with
      | nil => simp at hhead
      | cons x post => exact ⟨post, by simpa using hhead⟩
    have h := statusLine_empty quiet { psr with hp_parsed := 0 } own []
      (s := whole (LF :: post)) (k := 0) rfl rfl
    obtain ⟨r, hr, -⟩ := hsafe
    rw [httpParserResp, httpParser_fault hst h] at hr
    cases hr
  · rintro k w post v t rfl hLF hhd htok
    have h := statusLine_line quiet { psr with hp_parsed := 0 } own []
      (s := whole (List.replicate k SP ++ (w ++ [CR]) ++ LF :: post)) rfl rfl hLF hhd
    simp only [htok] at h
    have hlen : 3 ≤ w.length + post.length := by
      by_contra hlt
      rw [if_pos (not_le.1 hlt)] at h
      rw [httpParserResp, httpParser_fault hst h] at hsafe
      obtain ⟨r, hr, -⟩ := hsafe
      cases hr
    refine ⟨hlen, fun htail => ?_⟩
    obtain ⟨⟨ver, code, desc⟩, htail⟩ := Option.ne_none_iff_exists'.1 htail
    simp only [if_neg (not_lt.2 hlen), htail] at h
    obtain ⟨pre', hpre', h⟩ := h
    simp only [List.length_nil, Nat.zero_add] at hpre'
    have hin := first_inside hst h (unwritten_line CR _ hpre') hsafe
    rwa [hpre'] at hin

/-- Resuming at the LF of the first line, behind it, and at the LF of the blank line. -/
theorem httpParser_resume_safe
    (line : Hooks δ σ → Parser δ → Input → σ → Except Fault (Step δ σ)) {cr done : PState}
    (hb : b ≠ []) (hn : psr.hp_state ≠ .none) (hcr : cr ≠ done) :
    (∀ hooks : Hooks δ σ, hooks.Total →
      Safe (httpParser (line hooks) cr done hooks psr (whole b) own)) ↔
      (psr.hp_state = cr → b.head? = some LF → FieldsInside b (1, 1)) ∧
        (psr.hp_state = done → FieldsInside b (0, 0)) := by
  obtain ⟨x, t, rfl⟩ := List.exists_cons_of_ne_nil hb
  have hload : load (x :: t) 0 = .ok x := rfl
  have hu : Unwritten (x :: t) ⟨x :: t, 0, false⟩ := ⟨[], [], x :: t, rfl, rfl, rfl, rfl, rfl⟩
  have hu1 : Unwritten (x :: t) ⟨x :: t, 1, false⟩ := ⟨[x], [x], t, rfl, rfl, rfl, rfl, rfl⟩
  simp only [httpParser, hn, if_false, whole, hload, ok_bind, pure_ok, List.head?_cons,
    Option.some.injEq]
  by_cases h1 : psr.hp_state = cr
  · have h2 : psr.hp_state ≠ done := h1 ▸ hcr
    simp only [h1, if_true, true_implies, hcr, false_implies, and_true]
    by_cases hx : x = LF
    · simp only [hx, if_true, true_implies]
      cases t with
      | nil =>
        refine ⟨fun _ => fieldsInside_of_noLf (by simp), fun _ _ _ => ?_⟩
        simpa [Input.s_len] using safe_ok.2 rfl
      | cons y t =>
        have hlen : (⟨LF :: y :: t, 0 + 1, false⟩ : Input).s_len > 0 := by
          simp [Input.s_len]
        simp only [if_pos hlen]
        exact httpParserField_safe_iff ⟨done, 0 + 1, psr.hp_data⟩ (hx ▸ hu1) rfl
    · simp only [hx, if_false, false_implies, iff_true]
      exact fun _ _ => safe_ok.2 rfl
  by_cases h2 : psr.hp_state = done
  · subst h2
    simp only [h1, if_false, if_true, true_implies, false_implies, true_and]
    exact httpParserField_safe_iff ⟨psr.hp_state, 0, psr.hp_data⟩ hu rfl
  · simp only [h1, h2, if_false, false_implies, and_self, iff_true]
    intro _ _
    split_ifs <;> exact safe_ok.2 rfl

/-- Every call, in whatever state, on exactly these inputs. -/
theorem parse_safe_iff (k : Msg) (psr : Parser δ) (own : σ) (b : Bytes) (hb : b ≠ []) :
    (∀ hooks : Hooks δ σ, hooks.Total → Safe (k.parse hooks psr (whole b) own)) ↔
      k.Inside psr.hp_state b := by
  by_cases hst : psr.hp_state = .none
  · cases k with
    | req =>
      rw [hst]
      exact ⟨fun h => req_inside hst (h quiet quiet_total), fun h _ ht => req_safe ht hst h⟩
    | resp =>
      rw [hst]
      exact ⟨fun h => resp_inside hst (h quiet quiet_total), fun h _ ht => resp_safe ht hst h⟩
  · cases k with
    | req =>
      have hne : PState.rlCr ≠ .rlDone := by simp
      refine (httpParser_resume_safe httpParserReqLine hb hst hne).trans ?_
      cases h : psr.hp_state <;> simp_all [Msg.Inside]
    | resp =>
      have hne : PState.slCr ≠ .slDone := by simp
      refine (httpParser_resume_safe httpParserStatusLine hb hst hne).trans ?_
      cases h : psr.hp_state <;> simp_all [Msg.Inside]

def getHost : Bytes := ascii "GET / HTTP/1.1\r\nHost: a\r\nAccept: text/html"

theorem getHost_inside : Msg.req.Inside fresh.hp_state getHost := by
  intro k body post hb hLF hhd
  have hline : getHost =
      List.replicate 0 SP ++ ascii "GET / HTTP/1.1\r" ++ LF ::
        ascii "Host: a\r\nAccept: text/html" := rfl
  obtain ⟨rfl, rfl, rfl⟩ := line_unique (hb.symm.trans hline) hLF hhd (by decide) (by decide)
  refine ⟨by decide, fun w c m u v hw hhead => ?_⟩
  obtain ⟨rfl, hc⟩ := List.append_inj' (show ascii "GET / HTTP/1.1" ++ [CR] = w ++ [c] from hw) rfl
  obtain rfl := List.singleton_inj.1 hc
  have hhead' : reqLineHead (ascii "GET / HTTP/1.1") = some
    (.get, ascii "/", ascii "HTTP/1.1") := by decide
  rw [hhead', Option.some.injEq, Prod.mk.injEq, Prod.mk.injEq] at hhead
  obtain ⟨rfl, rfl, rfl⟩ := hhead
  refine ⟨by decide, fun _ => ?_⟩
  have hfield : getHost.drop 16 = List.replicate 0 SP ++ ascii "Host: a\r" ++ LF ::
    ascii "Accept: text/html" := rfl
  have hnext : ∀ w, ascii "Host: a\r" = w ++ [CR] → w = ascii "Host: a" := fun w hw =>
    (List.append_inj' (show ascii "Host: a" ++ [CR] = w ++ [CR] from hw) rfl).1.symm
  refine (fieldsInside_line (P := 16) hfield (by decide) (by decide)).2
    ⟨by decide, fun w hw _ => ⟨by decide, ?_⟩⟩
  obtain rfl := hnext w hw
  exact fun _ _ _ _ => fieldsInside_of_noLf (by decide)

theorem parse_safe_get :
    (∀ hooks : Hooks Unit Unit, hooks.Total → Safe (Msg.req.parse hooks fresh (whole getHost) ())) ∧
    Msg.req.Inside fresh.hp_state getHost :=
  ⟨(parse_safe_iff .req fresh () getHost (by decide)).2 getHost_inside, getHost_inside⟩

end Call

theorem parse_safe_false :
    ¬ ∀ (k : Msg) (psr : Parser Unit) (own : Unit) (b : Bytes), b ≠ [] →
      ∀ hooks : Hooks Unit Unit, hooks.Total → Safe (k.parse hooks psr (whole b) own) := by
  intro h
  obtain ⟨r, hr, -⟩ := h .req fresh () [LF] (by simp) quiet quiet_total
  have hf : Msg.req.parse (quiet : Hooks Unit Unit) fresh (whole [LF]) () = .error .bounds := rfl
  rw [hf] at hr
  cases hr

end Plume.Http
