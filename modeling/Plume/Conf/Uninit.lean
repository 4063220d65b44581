import Plume.Str
import Plume.Conf.Definition
import Plume.Conf.Rules

/-! What a line leads to, whatever the uninitialised locals of the parser hold. -/

namespace Plume.Conf
open CLib

variable {ε κ : Type} {table : ε → List (Cmd ε κ)} {vars : List VarElem}

section Directives

variable {line cs : Bytes} {i : ℕ} {s s' : Ins ε κ} {name : Option Bytes} {params : List Bytes}

/-- The locals with another content of `cl`, if nothing has been stored there yet. -/
def Ins.withJunk (name : Option Bytes) (params : List Bytes) (s : Ins ε κ) : Ins ε κ :=
  if s.cl.cl_stat then s else { s with cl := ⟨false, name, params⟩ }

theorem withJunk_true (h : s.cl.cl_stat = true) : s.withJunk name params = s := by
  rw [Ins.withJunk, if_pos h]

theorem withJunk_false (h : s.cl.cl_stat = false) :
    s.withJunk name params = { s with cl := ⟨false, name, params⟩ } := by
  rw [Ins.withJunk, if_neg (by simp [h])]

section Fields

variable (name : Option Bytes) (params : List Bytes) (s : Ins ε κ)

@[simp] theorem withJunk_ctx : (s.withJunk name params).ctx = s.ctx := by
  unfold Ins.withJunk; split_ifs <;> rfl

@[simp] theorem withJunk_env : (s.withJunk name params).env = s.env := by
  unfold Ins.withJunk; split_ifs <;> rfl

@[simp] theorem withJunk_last : (s.withJunk name params).last = s.last := by
  unfold Ins.withJunk; split_ifs <;> rfl

@[simp] theorem withJunk_beg : (s.withJunk name params).beg = s.beg := by
  unfold Ins.withJunk; split_ifs <;> rfl

@[simp] theorem withJunk_var : (s.withJunk name params).var = s.var := by
  unfold Ins.withJunk; split_ifs <;> rfl

@[simp] theorem withJunk_calls : (s.withJunk name params).calls = s.calls := by
  unfold Ins.withJunk; split_ifs <;> rfl

theorem withJunk_step (last : Stat) (beg : ℕ) (var : Bool) :
    { s.withJunk name params with last := last, beg := beg, var := var } =
      ({ s with last := last, beg := beg, var := var } : Ins ε κ).withJunk name params := by
  unfold Ins.withJunk; split_ifs <;> rfl

end Fields

def both {α β : Type} (f : α → β) : Except α α → Except β β
  | .error a => .error (f a)
  | .ok a => .ok (f a)

structure Stored (s : Ins ε κ) : Prop where
  stat : s.cl.cl_stat = true
  name : s.cl.cl_name ≠ none

def Clean (s : Ins ε κ) : Prop := s.cl.cl_stat = false ∨ Stored s

theorem push_cl (table : ε → List (Cmd ε κ)) (token : Bytes) (s : Ins ε κ)
    (h : s.cl.cl_stat = false) :
    ∃ s', Stored s' ∧
      (confCmdLinePush table token s = .ok s' ∨ confCmdLinePush table token s = .error s') := by
  unfold confCmdLinePush
  rw [if_neg (by simp [h])]
  dsimp only
  cases pluginCmdSearch (table s.env) token with
  | none => exact ⟨_, ⟨rfl, by simp⟩, .inr rfl⟩
  | some cmd =>
    dsimp only
    cases cmd.c_type with
    | block =>
      dsimp only
      split_ifs
      · exact ⟨_, ⟨rfl, by simp⟩, .inr rfl⟩
      · exact ⟨_, ⟨rfl, by simp⟩, .inl rfl⟩
    | instruction =>
      dsimp only
      split_ifs
      · exact ⟨_, ⟨rfl, by simp⟩, .inr rfl⟩
      · exact ⟨_, ⟨rfl, by simp⟩, .inl rfl⟩

theorem push_withJunk (table : ε → List (Cmd ε κ)) (token : Bytes) (s : Ins ε κ) :
    confCmdLinePush table token (s.withJunk name params) =
      both (Ins.withJunk name params) (confCmdLinePush table token s) := by
  cases h : s.cl.cl_stat with
  | true =>
    rw [withJunk_true h, confCmdLinePush, if_pos h, both, withJunk_true]
    exact h
  | false =>
    have hsame : confCmdLinePush table token
      (s.withJunk name params) = confCmdLinePush table token s := by
      rw [withJunk_false h, confCmdLinePush, confCmdLinePush, if_neg (by simp),
        if_neg (by simp [h])]
    obtain ⟨s', hs', hok | herr⟩ := push_cl table token s h
    · rw [hsame, hok, both, withJunk_true hs'.stat]
    · rw [hsame, herr, both, withJunk_true hs'.stat]

theorem both_map {f : Ins ε κ → Ins ε κ}
    (hf : ∀ s, f (s.withJunk name params) = (f s).withJunk name params)
    (x : Except (Ins ε κ) (Ins ε κ)) :
    (both (Ins.withJunk name params) x).map f = both (Ins.withJunk name params) (x.map f) := by
  cases x with
  | error s => rfl
  | ok s => exact congrArg Except.ok (hf s)

theorem insPush_withJunk (s : Ins ε κ) : insPush table vars line i (s.withJunk name params) =
    both (Ins.withJunk name params) (insPush table vars line i s) := by
  unfold insPush
  simp only [withJunk_var, withJunk_beg]
  by_cases hv : s.var = true
  · rw [if_pos hv, if_pos hv]
    cases confGetVarValue vars (slice line s.beg (i - s.beg)) with
    | none => rfl
    | some v =>
      dsimp only
      rw [push_withJunk, both_map]
      intro s
      simpa using withJunk_step name params s s.last s.beg false
  · rw [if_neg hv, if_neg hv, push_withJunk]

theorem insStep_withJunk (stat : Stat) (s : Ins ε κ) :
    insStep table vars line i stat (s.withJunk name params) =
      both (Ins.withJunk name params) (insStep table vars line i stat s) := by
  have hmap : ∀ l, ((insPush table vars line i (s.withJunk name params)).map fun s =>
    { s with last := l }) =
      both (Ins.withJunk name params)
        ((insPush table vars line i s).map fun s => { s with last := l }) := by
    intro l
    rw [insPush_withJunk, both_map]
    intro s
    simpa using withJunk_step name params s l s.beg s.var
  have hok : ∀ l b v, (Except.ok { s.withJunk name params with last := l, beg := b, var := v } :
      Except (Ins ε κ) (Ins ε κ)) =
        both (Ins.withJunk name params) (.ok { s with last := l, beg := b, var := v }) :=
    fun l b v => congrArg Except.ok (withJunk_step name params s l b v)
  cases stat with
  | blockBeg =>
    simp only [insStep, withJunk_last, hmap]
    split_ifs
    · rfl
    · rfl
    · simpa using hok .blockBeg s.beg s.var
  | blockEnd =>
    simp only [insStep, withJunk_last]
    split_ifs
    · rfl
    · simpa using hok .blockEnd s.beg s.var
  | char =>
    simp only [insStep, withJunk_last, withJunk_beg]
    by_cases h : s.last = .blockBeg ∨ s.last = .blockEnd
    · rw [if_pos h, if_pos h]
      rfl
    · rw [if_neg h, if_neg h]
      simpa using hok .char (if s.last = .space ∨ s.last = .var then i else s.beg) s.var
  | space =>
    simp only [insStep, withJunk_last, hmap]
    split_ifs <;> rfl
  | var =>
    simp only [insStep, withJunk_last]
    split_ifs
    · rfl
    · simpa using hok .var s.beg true
  | lineEnd =>
    simp only [insStep, withJunk_last]
    split_ifs
    · exact insPush_withJunk s
    · rfl
    · rfl
  | null => rfl
  | assign => rfl
  | invalid => rfl

def loopJunk (name : Option Bytes) (params : List Bytes) :
    Except (Ins ε κ) (Stat × Ins ε κ) → Except (Ins ε κ) (Stat × Ins ε κ)
  | .error s => .error (s.withJunk name params)
  | .ok (stat, s) => .ok (stat, s.withJunk name params)

theorem insLoop_withJunk (stat : Stat) (s : Ins ε κ) :
    insLoop table vars line stat cs i (s.withJunk name params) =
      loopJunk name params (insLoop table vars line stat cs i s) := by
  induction cs generalizing stat i s with
  | nil =>
    rw [insLoop, insLoop]
    split_ifs
    · rfl
    · rw [insStep_withJunk]
      cases insStep table vars line i .lineEnd s <;> rfl
  | cons c cs ih =>
    rw [insLoop, insLoop, insStep_withJunk]
    cases insStep table vars line i (confParseStateIns c) s with
    | error s => rfl
    | ok s => exact ih _ s

theorem push_ok {token : Bytes} (hs : Clean s) (h : confCmdLinePush table token s = .ok s') :
    Stored s' := by
  rcases hs with hs | hs
  · obtain ⟨x, hx, hok | herr⟩ := push_cl table token s hs
    · rw [hok] at h
      rw [← Except.ok.inj h]
      exact hx
    · rw [herr] at h
      cases h
  · rw [confCmdLinePush, if_pos hs.stat] at h
    rw [← Except.ok.inj h]
    exact ⟨hs.stat, hs.name⟩

theorem insPush_ok (hs : Clean s) (h : insPush table vars line i s = .ok s') : Stored s' := by
  unfold insPush at h
  dsimp only at h
  split_ifs at h
  · cases hv : confGetVarValue vars (slice line s.beg (i - s.beg)) with
    | none => rw [hv] at h; cases h
    | some v =>
      rw [hv] at h
      obtain ⟨x, hp, rfl⟩ := map_eq_ok h
      have hx := push_ok hs hp
      exact ⟨hx.stat, hx.name⟩
  · exact push_ok hs h

theorem insPush_last {l : Stat} (hs : Clean s)
    (h : (insPush table vars line i s).map (fun s => { s with last := l }) =
      .ok s') : Stored s' := by
  obtain ⟨x, hp, rfl⟩ := map_eq_ok h
  have hx := insPush_ok hs hp
  exact ⟨hx.stat, hx.name⟩

theorem stored_storable (table : ε → List (Cmd ε κ)) : Storable table Stored := by
  refine ⟨fun token s hs => ?_, fun s _ _ _ hs => ⟨hs.stat, hs.name⟩⟩
  rw [confCmdLinePush, if_pos hs.stat]
  exact ⟨hs.stat, hs.name⟩

theorem insLoop_stored {stat stat' : Stat} (hs : Stored s)
    (h : insLoop table vars line stat cs i s = .ok (stat', s')) : Stored s' := by
  have hends := insLoop_leaves vars (stored_storable table) line stat cs i hs
  rwa [h] at hends

theorem insLoop_char {stat' : Stat} (hi : i ≠ 0) (hs : Clean s) (hl : s.last = .char)
    (h : insLoop table vars line .char cs i s = .ok (stat', s')) : Stored s' := by
  induction cs generalizing i s with
  | nil =>
    rw [insLoop, if_neg (by simp [hi])] at h
    simp only [insStep, hl, if_true] at h
    obtain ⟨x, hp, hx⟩ := map_eq_ok h
    cases hx
    exact insPush_ok hs hp
  | cons c cs ih =>
    obtain ⟨x, hx, hrest⟩ := insLoop_cons_ok h
    cases hc : confParseStateIns c with
    | char =>
      rw [hc] at hx hrest
      simp only [insStep, hl, reduceCtorEq, or_self, if_false] at hx
      cases hx
      refine ih ?_ ?_ ?_ hrest
      · omega
      · exact hs.imp id fun hs => ⟨hs.stat, hs.name⟩
      · rfl
    | space =>
      rw [hc] at hx
      simp only [insStep, hl, reduceCtorEq, or_self, if_false] at hx
      exact insLoop_stored (insPush_last hs hx) hrest
    | blockBeg =>
      rw [hc] at hx
      simp only [insStep, hl, if_true] at hx
      exact insLoop_stored (insPush_last hs hx) hrest
    | blockEnd => simp [hc, insStep, hl] at hx
    | var => simp [hc, insStep, hl] at hx
    | null | assign | lineEnd | invalid =>
      unfold confParseStateIns at hc
      split_ifs at hc

/-- The lines that store no word: nothing, opening braces, or one closing brace. -/
def bare : Bytes → Bool
  | [] => true
  | c :: cs =>
    c == LBRACE && cs.all (fun c => c == LBRACE || c == SP) || c == RBRACE && cs.all (· == SP)

theorem insLoop_opened {stat : Stat} (hi : i ≠ 0) (hl : s.last = .blockBeg) :
    if cs.all (fun c => c == LBRACE || c == SP) then
      ∃ stat', insLoop table vars line stat cs i s = .ok (stat', s)
    else ∃ s', insLoop table vars line stat cs i s = .error s' := by
  have hself : { s with last := .blockBeg } = s := by rw [← hl]
  induction cs generalizing i stat with
  | nil =>
    rw [insLoop]
    split_ifs with h
    · exact ⟨_, rfl⟩
    · simp [insStep, hl, Except.map]
    · simp at h
    · simp at h
  | cons c cs ih =>
    rw [insLoop, List.all_cons]
    by_cases h1 : c = LBRACE
    · subst h1
      simp only [stateIns_lbrace, insStep, hl, reduceCtorEq, or_self, if_false, hself]
      exact ih (by omega)
    by_cases h2 : c = SP
    · subst h2
      simp only [stateIns_sp, insStep, hl, reduceCtorEq, or_true, or_false, if_true]
      exact ih (by omega)
    · have hall : ((c == LBRACE || c == SP) && cs.all fun c => c == LBRACE || c == SP) = false := by
        simp [h1, h2]
      rw [if_neg (by simp [hall])]
      refine ⟨s, ?_⟩
      unfold confParseStateIns
      rw [if_neg h2, if_neg h1]
      split_ifs <;> simp [insStep, hl]

theorem insLoop_closed {stat : Stat} (hi : i ≠ 0) (hl : s.last = .blockEnd) :
    if cs.all (· == SP) then ∃ stat', insLoop table vars line stat cs i s = .ok (stat', s)
    else ∃ s', insLoop table vars line stat cs i s = .error s' := by
  induction cs generalizing i stat with
  | nil =>
    rw [insLoop]
    split_ifs with h
    · exact ⟨_, rfl⟩
    · simp [insStep, hl, Except.map]
    · simp at h
    · simp at h
  | cons c cs ih =>
    rw [insLoop, List.all_cons]
    by_cases h2 : c = SP
    · subst h2
      simp only [stateIns_sp, insStep, hl, reduceCtorEq, or_true, if_true]
      exact ih (by omega)
    · have hall : ((c == SP) && cs.all (· == SP)) = false := by simp [h2]
      rw [if_neg (by simp [hall])]
      refine ⟨s, ?_⟩
      unfold confParseStateIns
      rw [if_neg h2]
      split_ifs <;> simp [insStep, hl]

theorem insLoop_lbrace (table : ε → List (Cmd ε κ)) (vars : List VarElem) (line cs : Bytes)
    (stat : Stat)
    (hl : s.last = .null) :
    if cs.all (fun c => c == LBRACE || c == SP) then
      ∃ stat', insLoop table vars line stat (LBRACE :: cs) 0 s = .ok
        (stat', { s with last := .blockBeg })
    else ∃ s', insLoop table vars line stat (LBRACE :: cs) 0 s = .error s' := by
  rw [insLoop]
  simp only [stateIns_lbrace, insStep, hl, reduceCtorEq, or_self, if_false]
  exact insLoop_opened (by decide) rfl

theorem insLoop_rbrace (table : ε → List (Cmd ε κ)) (vars : List VarElem) (line cs : Bytes)
    (stat : Stat)
    (hl : s.last = .null) :
    if cs.all (· == SP) then
      ∃ stat', insLoop table vars line stat (RBRACE :: cs) 0 s = .ok
        (stat', { s with last := .blockEnd })
    else ∃ s', insLoop table vars line stat (RBRACE :: cs) 0 s = .error s' := by
  rw [insLoop]
  simp only [stateIns_rbrace, insStep, hl, ne_eq, not_true_eq_false, if_false]
  exact insLoop_closed (by decide) rfl

theorem bare_lbrace (cs : Bytes) :
    bare (LBRACE :: cs) = cs.all fun c => c == LBRACE || c == SP := by
  simp [bare, show LBRACE ≠ RBRACE by decide]

theorem bare_rbrace (cs : Bytes) : bare (RBRACE :: cs) = cs.all (· == SP) := by
  simp [bare, show RBRACE ≠ LBRACE by decide]

theorem insLoop_bare (table : ε → List (Cmd ε κ)) (vars : List VarElem) (stat : Stat)
    (hl : s.last = .null) (hb : bare line = true) :
    ∃ stat' s', insLoop table vars line stat line 0 s = .ok (stat', s') ∧ s'.cl = s.cl := by
  rcases line with _ | ⟨c, cs⟩
  · exact ⟨stat, s, rfl, rfl⟩
  by_cases h1 : c = LBRACE
  · subst h1
    have h := insLoop_lbrace table vars (LBRACE :: cs) cs stat hl
    rw [← bare_lbrace, if_pos hb] at h
    obtain ⟨stat', h⟩ := h
    exact ⟨stat', _, h, rfl⟩
  by_cases h2 : c = RBRACE
  · subst h2
    have h := insLoop_rbrace table vars (RBRACE :: cs) cs stat hl
    rw [← bare_rbrace, if_pos hb] at h
    obtain ⟨stat', h⟩ := h
    exact ⟨stat', _, h, rfl⟩
  · simp [bare, h1, h2] at hb

/-- Any other line has stored a word if it gets to its end. -/
theorem insLoop_word {stat stat' : Stat} (hs : s.cl.cl_stat = false) (hl : s.last = .null)
    (hb : bare line = false)
    (h : insLoop table vars line stat line 0 s = .ok (stat', s')) : Stored s' := by
  rcases line with _ | ⟨c, cs⟩
  · cases hb
  by_cases h1 : c = LBRACE
  · subst h1
    have hloop := insLoop_lbrace table vars (LBRACE :: cs) cs stat hl
    rw [← bare_lbrace, if_neg (by simp [hb])] at hloop
    obtain ⟨y, hy⟩ := hloop
    rw [hy] at h
    cases h
  by_cases h2 : c = RBRACE
  · subst h2
    have hloop := insLoop_rbrace table vars (RBRACE :: cs) cs stat hl
    rw [← bare_rbrace, if_neg (by simp [hb])] at hloop
    obtain ⟨y, hy⟩ := hloop
    rw [hy] at h
    cases h
  obtain ⟨x, hx, hrest⟩ := insLoop_cons_ok h
  by_cases h3 : c = SP
  · subst h3
    simp only [stateIns_sp, insStep, hl, reduceCtorEq, or_self, if_false] at hx
    exact insLoop_stored (insPush_last (.inl hs) hx) hrest
  by_cases h4 : c = DOLLAR
  · subst h4
    have hd : confParseStateIns DOLLAR = .var := rfl
    simp [hd, insStep, hl] at hx
  · have hc : confParseStateIns c = .char := by
      unfold confParseStateIns
      rw [if_neg h3, if_neg h1, if_neg h2, if_neg h4]
    rw [hc] at hx hrest
    simp only [insStep, hl, reduceCtorEq, or_self, if_false] at hx
    cases hx
    refine insLoop_char (by decide) ?_ ?_ hrest
    · exact .inl hs
    · rfl

end Directives

section Line

variable {line : Bytes} {st : ConfState ε κ} {j j' : Junk κ}

/-- What a line does is the same whatever the uninitialised locals hold, and a line that is
only `}` calls no `c_set_cmd`. -/
structure Independent (table : ε → List (Cmd ε κ)) (line : Bytes) (st : ConfState ε κ) : Prop where
  same : ∀ j j', confParseLine table j line st = confParseLine table j' line st
  closing : line = [RBRACE] → ∀ j r, confParseLine table j line st = .ok r →
    ∀ name ctx params, Call.setCmd name ctx params ∉ r.2.2

/-- A line inside a block, that stores a word or defines a variable, by its name. -/
structure Settled (line : Bytes) (st : ConfState ε κ) : Prop where
  inside : st.node ≠ none
  definition : line.head? = some DOLLAR → ¬ Unnoticed st.vars line
  word : line.head? ≠ some DOLLAR → bare line = false

theorem parseIns_eq (j : Junk κ) (ctx : Option κ) (env : ε) :
    confParseIns table j vars line ctx env = insEnd table
      (loopJunk j.cl_name j.cl_params
        (insLoop table vars line j.stat line 0 (Ins.start ctx env ⟨false, none, []⟩))) := by
  rw [← insLoop_withJunk]
  rfl

def seen (r : Stat × Ins ε κ) : Stat × Option κ × ε × List (Call κ) :=
  (r.1, r.2.ctx, r.2.env, r.2.calls)

theorem bind_seen {curr : JunkPtr κ} {x y : Except Fault (Stat × Ins ε κ)}
    (h : x.map seen = y.map seen) :
    (x >>= fun r => pure (r.1, storeCtx curr r.2 st, r.2.calls)) =
      y >>= fun r => pure (r.1, storeCtx curr r.2 st, r.2.calls) := by
  rcases x with f | ⟨stat, s⟩ <;> rcases y with f' | ⟨stat', s'⟩
  · cases h
    rfl
  · cases h
  · cases h
  · simp only [Except.map, seen, Except.ok.injEq, Prod.mk.injEq] at h
    obtain ⟨h1, h2, h3, h4⟩ := h
    simp [storeCtx, h1, h2, h3, h4]

/-- A line that stores a word forgets what `cl` held. -/
theorem parseIns_same (table : ε → List (Cmd ε κ)) (vars : List VarElem) (hb : bare line = false)
    (ctx : Option κ) (env : ε) (j j' : Junk κ) : (confParseIns table j vars line ctx env).map seen =
    (confParseIns table j' vars line ctx env).map seen := by
  have hstat : ∀ stat, insLoop table vars line stat line 0 (Ins.start ctx env ⟨false, none, []⟩) =
      insLoop table vars line .null line 0 (Ins.start ctx env ⟨false, none, []⟩) := by
    intro stat
    cases line with
    | nil => cases hb
    | cons c cs => rfl
  rw [parseIns_eq, parseIns_eq, hstat j.stat, hstat j'.stat]
  cases h : insLoop table vars line .null line 0 (Ins.start ctx env ⟨false, none, []⟩) with
  | error s => simp [loopJunk, insEnd, Except.map, seen]
  | ok y =>
    obtain ⟨stat, s⟩ := y
    have hs := (insLoop_word rfl rfl hb h).stat
    rw [loopJunk, loopJunk, withJunk_true hs, withJunk_true hs]

theorem parseIns_bare (hb : bare line = true) (ctx : Option κ) (env : ε) (hj : j.cl_name = none) :
    confParseIns table j vars line ctx env = .error .wild := by
  obtain ⟨stat, s, h, hcl⟩ :=
    insLoop_bare table vars j.stat (s := Ins.start ctx env ⟨false, none, []⟩) rfl hb
  have hs : s.cl.cl_stat = false := by rw [hcl]; rfl
  rw [parseIns_eq, h, loopJunk, withJunk_false hs, insEnd, confSetCmd]
  simp [hj]

theorem setCmd_ok (table : ε → List (Cmd ε κ)) {s : Ins ε κ} {name : Bytes}
    (h : s.cl.cl_name = some name) :
    ∃ r, confSetCmd table s = .ok r := by
  unfold confSetCmd
  rw [h]
  dsimp only
  split
  · exact ⟨_, rfl⟩
  · split
    · exact ⟨_, rfl⟩
    · exact ⟨_, rfl⟩

/-- Without a wild name in `cl` nothing goes wrong. -/
theorem parseIns_ok (ctx : Option κ) (env : ε) (hj : j.cl_name ≠ none) :
    ∃ r, confParseIns table j vars line ctx env = .ok r := by
  rw [parseIns_eq]
  cases h : insLoop table vars line j.stat line 0 (Ins.start ctx env ⟨false, none, []⟩) with
  | error s => exact ⟨_, rfl⟩
  | ok y =>
    obtain ⟨stat, s⟩ := y
    have hname : (s.withJunk j.cl_name j.cl_params).cl.cl_name ≠ none := by
      cases hb : bare line with
      | true =>
        obtain ⟨stat', s', h', hcl⟩ :=
          insLoop_bare table vars j.stat (s := Ins.start ctx env ⟨false, none, []⟩) rfl hb
        rw [h] at h'
        cases h'
        have hs : s.cl.cl_stat = false := by rw [hcl]; rfl
        rw [withJunk_false hs]
        exact hj
      | false =>
        have hs := insLoop_word rfl rfl hb h
        rw [withJunk_true hs.stat]
        exact hs.name
    obtain ⟨name, hname⟩ := Option.ne_none_iff_exists'.1 hname
    obtain ⟨r, hr⟩ := setCmd_ok table hname
    rw [loopJunk, insEnd, hr, ok_bind]
    dsimp only
    split_ifs <;> exact ⟨_, rfl⟩

/-- A definition, where the current context is known to be readable. -/
theorem parseLine_variable (hd : line.head? = some DOLLAR) {d : Option κ}
    (hc : bcData st (currCtx j st) = .ok d) : confParseLine table j line st =
      (confParseVariable j.last st.vars line).map fun vars =>
      (.lineEnd, { st with vars := vars }, []) := by
  rw [confParseLine, if_pos hd, hc, ok_bind]
  cases confParseVariable j.last st.vars line <;> rfl

theorem parseLine_ins (hd : line.head? ≠ some DOLLAR) {ctx : Option κ}
    (hc : startCtx st (currCtx j st) = .ok ctx) : confParseLine table j line st =
      (confParseIns table j st.vars line ctx st.env).map fun r =>
        (r.1, storeCtx (currCtx j st) r.2 st, r.2.calls) := by
  rw [confParseLine, if_neg hd, hc, ok_bind]
  cases confParseIns table j st.vars line ctx st.env <;> rfl

/-- A wild pointer to the current context is followed. -/
theorem parseLine_wild (hn : st.node = none) (hj : j.curr_ctx = .wild) :
    confParseLine table j line st = .error .wild := by
  have hc : currCtx j st = .wild := by rw [currCtx, hn, hj]
  rw [confParseLine, hc]
  split_ifs <;> rfl

theorem parseLine_not_wild
    (hc : ∃ d, startCtx st (currCtx j st) = .ok d ∧ bcData st (currCtx j st) = .ok d)
    (hj : j.cl_name ≠ none) : confParseLine table j line st ≠ .error .wild := by
  obtain ⟨d, hs, hb⟩ := hc
  by_cases hd : line.head? = some DOLLAR
  · rw [parseLine_variable hd hb]
    cases hv : confParseVariable j.last st.vars line with
    | error f =>
      intro h
      cases h
      exact variable_not_wild _ _ _ hv
    | ok vars => simp [Except.map]
  · rw [parseLine_ins hd hs]
    obtain ⟨r, hr⟩ := parseIns_ok d st.env hj
    rw [hr]
    simp [Except.map]

theorem independent_inside
    (hsame : ∀ j j', confParseLine table j line st = confParseLine table j' line st) :
    st.node ≠ none := by
  intro hn
  have h := hsame ⟨.wild, some [], [], .null, .null⟩ ⟨.other none, some [], [], .null, .null⟩
  rw [parseLine_wild hn rfl] at h
  refine parseLine_not_wild ⟨none, ?_, ?_⟩ (by simp) h.symm
  · rw [currCtx, hn]
    rfl
  · rw [currCtx, hn]
    rfl

theorem currCtx_inside {i : ℕ} (hn : st.node = some i) (j : Junk κ) : currCtx j st = .block i := by
  rw [currCtx, hn]

theorem independent_definition {i : ℕ} (hn : st.node = some i) (hd : line.head? = some DOLLAR)
    (hsame : ∀ j j', confParseLine table j line st = confParseLine table j' line st) :
    ¬ Unnoticed st.vars line := by
  refine (variable_settled line hd).1 fun l l' => ?_
  have h := hsame ⟨.null, none, [], .null, l⟩ ⟨.null, none, [], .null, l'⟩
  rw [parseLine_variable hd (by rw [currCtx_inside hn]; rfl),
    parseLine_variable hd (by rw [currCtx_inside hn]; rfl)] at h
  dsimp only at h
  cases hl : confParseVariable l st.vars line with
  | error f =>
    cases hl' : confParseVariable l' st.vars line with
    | error f' =>
      rw [hl, hl'] at h
      cases h
      rfl
    | ok vars' => rw [hl, hl'] at h; cases h
  | ok vars =>
    cases hl' : confParseVariable l' st.vars line with
    | error f' => rw [hl, hl'] at h; cases h
    | ok vars' =>
      rw [hl, hl'] at h
      exact congrArg Except.ok (congrArg (fun r => r.2.1.vars) (Except.ok.inj h))

theorem independent_word {i : ℕ} (hn : st.node = some i) (hd : line.head? ≠ some DOLLAR)
    (hsame : ∀ j j', confParseLine table j line st = confParseLine table j' line st) :
    bare line = false := by
  by_contra hb
  have hb : bare line = true := by simpa using hb
  have h := hsame ⟨.null, none, [], .null, .null⟩ ⟨.null, some [], [], .null, .null⟩
  rw [parseLine_ins hd (by rw [currCtx_inside hn]; rfl), parseIns_bare hb _ _ rfl] at h
  refine parseLine_not_wild ⟨(st.blocks i).bc_data, ?_, ?_⟩ (by simp) h.symm
  · rw [currCtx_inside hn]
    rfl
  · rw [currCtx_inside hn]
    rfl

theorem settled_same (hs : Settled line st) (j j' : Junk κ) :
    confParseLine table j line st = confParseLine table j' line st := by
  obtain ⟨i, hn⟩ := Option.ne_none_iff_exists'.1 hs.inside
  have hc := currCtx_inside hn
  by_cases hd : line.head? = some DOLLAR
  · rw [parseLine_variable hd (by rw [hc]; rfl), parseLine_variable hd (by rw [hc]; rfl),
      (variable_settled line hd).2 (hs.definition hd) j.last j'.last]
  rw [confParseLine, confParseLine, if_neg hd, if_neg hd, hc, hc]
  exact bind_seen (parseIns_same table st.vars (hs.word hd) (st.blocks i).bc_data st.env j j')

/-- A line does the same whatever the uninitialised locals hold if and only if it is settled. -/
theorem independent_iff (table : ε → List (Cmd ε κ)) (line : Bytes) (st : ConfState ε κ) :
    Independent table line st ↔ Settled line st := by
  constructor
  · intro ⟨hsame, _⟩
    have hinside := independent_inside hsame
    obtain ⟨i, hn⟩ := Option.ne_none_iff_exists'.1 hinside
    exact ⟨hinside, fun hd => independent_definition hn hd hsame,
      fun hd => independent_word hn hd hsame⟩
  · intro hs
    refine ⟨settled_same hs, fun hline => ?_⟩
    subst hline
    cases hs.word (by decide)

def mainCmd : Cmd Unit ℕ := ⟨ascii "main" ++ [0], .block, none, fun _ _ => (some 0, ())⟩

/-- A `}` line inside `main`: `cl` may hold no string at all, or some name. -/
theorem independent_false : ¬ ∀ (table : Unit → List (Cmd Unit ℕ)) (line : Bytes)
    (st : ConfState Unit ℕ), Independent table line st := by
  intro h
  have hsame := (h (fun _ => [mainCmd]) [RBRACE] ⟨(), [], fun _ => ⟨none, some 0⟩, 1, some 0⟩).same
  cases independent_word rfl (by decide) hsame

end Line

end Plume.Conf
