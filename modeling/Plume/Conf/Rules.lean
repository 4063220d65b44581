import Plume.Conf.Parser

/-! Rules for the loop of `plm_conf_parse_ins`: a property that storing a word keeps is kept by
every line, and the last byte of a line decides what it returns. -/

namespace Plume.Conf
open CLib

variable {ε κ : Type} {table : ε → List (Cmd ε κ)} {vars : List VarElem} {line cs : Bytes} {i : ℕ}
  {stat stat' : Stat} {s s' : Ins ε κ} {P : Ins ε κ → Prop}

theorem map_eq_ok {α β γ : Type} {x : Except α β} {f : β → γ} {c : γ} (h : x.map f = .ok c) :
    ∃ b, x = .ok b ∧ f b = c := by
  cases x with
  | error a => cases h
  | ok b => exact ⟨b, rfl, Except.ok.inj h⟩

section Bytes

theorem stateIns_sp : confParseStateIns SP = .space := rfl

theorem stateIns_lbrace : confParseStateIns LBRACE = .blockBeg := rfl

theorem stateIns_rbrace : confParseStateIns RBRACE = .blockEnd := rfl

theorem stateIns_eq_rbrace {c : UInt8} (h : confParseStateIns c = .blockEnd) : c = RBRACE := by
  unfold confParseStateIns at h
  split_ifs at h with h1 h2 h3 h4
  exact h3

def lastStat (stat : Stat) (cs : Bytes) : Stat := cs.foldl (fun _ c => confParseStateIns c) stat

theorem lastStat_brace {t : Bytes} (ht : t ≠ []) (hl : t.getLast? ≠ some LBRACE)
    (hr : t.getLast? ≠ some RBRACE) :
    lastStat .null t ≠ .blockBeg ∧ lastStat .null t ≠ .blockEnd := by
  obtain ⟨t, c, rfl⟩ := (List.eq_nil_or_concat t).resolve_left ht
  have hc : lastStat .null (t.concat c) = confParseStateIns c := by simp [lastStat]
  have h1 : c ≠ LBRACE := by simpa using hl
  have h2 : c ≠ RBRACE := by simpa using hr
  rw [hc]
  unfold confParseStateIns
  rw [if_neg h1, if_neg h2]
  split_ifs <;> simp

end Bytes

def Ins.start (ctx : Option κ) (env : ε) (cl : CmdLine) : Ins ε κ :=
  ⟨ctx, env, cl, .null, 0, false, []⟩

section Leaves

/-- `P` holds of what is left, after a success and after a failure. -/
def Leaves (P : Ins ε κ → Prop) : Except (Ins ε κ) (Ins ε κ) → Prop
  | .error s => P s
  | .ok s => P s

def Ends (P : Ins ε κ → Prop) : Except (Ins ε κ) (Stat × Ins ε κ) → Prop
  | .error s => P s
  | .ok (_, s) => P s

/-- A property of what a line has stored and called, that storing one more word keeps. -/
structure Storable (table : ε → List (Cmd ε κ)) (P : Ins ε κ → Prop) : Prop where
  push : ∀ token s, P s → Leaves P (confCmdLinePush table token s)
  free : ∀ s last beg var, P s → P { s with last := last, beg := beg, var := var }

theorem leaves_map {x : Except (Ins ε κ) (Ins ε κ)} {f : Ins ε κ → Ins ε κ} (hx : Leaves P x)
    (hf : ∀ s, P s → P (f s)) : Leaves P (x.map f) := by
  cases x with
  | error s => exact hx
  | ok s => exact hf s hx

variable (vars) in
theorem insPush_leaves (hP : Storable table P) (line : Bytes) (i : ℕ) (h : P s) :
    Leaves P (insPush table vars line i s) := by
  unfold insPush
  dsimp only
  split_ifs
  · cases confGetVarValue vars (slice line s.beg (i - s.beg)) with
    | none => exact h
    | some v => exact leaves_map (hP.push v s h) fun s hs => hP.free s s.last s.beg false hs
  · exact hP.push _ s h

variable (vars) in
theorem insStep_leaves (hP : Storable table P) (line : Bytes) (i : ℕ) (stat : Stat) (h : P s) :
    Leaves P (insStep table vars line i stat s) := by
  have hpush := insPush_leaves vars hP line i h
  have hmap : ∀ l, Leaves P ((insPush table vars line i s).map fun s => { s with last := l }) :=
    fun l => leaves_map hpush fun s hs => hP.free s l s.beg s.var hs
  cases stat with
  | blockBeg =>
    simp only [insStep]
    split_ifs
    · exact hmap _
    · exact h
    · exact hP.free s _ s.beg s.var h
  | blockEnd =>
    simp only [insStep]
    split_ifs
    · exact h
    · exact hP.free s _ s.beg s.var h
  | char =>
    simp only [insStep]
    by_cases hl : s.last = .blockBeg ∨ s.last = .blockEnd
    · rw [if_pos hl]
      exact h
    · rw [if_neg hl]
      exact hP.free s _ _ s.var h
  | space =>
    simp only [insStep]
    split_ifs
    · exact h
    · exact h
    · exact hmap _
  | var =>
    simp only [insStep]
    split_ifs
    · exact h
    · exact hP.free s _ s.beg true h
  | lineEnd =>
    simp only [insStep]
    split_ifs
    · exact hpush
    · exact h
    · exact h
  | null | assign | invalid => exact h

theorem insLoop_nil_ends (hstep : Leaves P (insStep table vars line i .lineEnd s)) (h : P s) :
    Ends P (insLoop table vars line stat [] i s) := by
  rw [insLoop]
  split_ifs
  · exact h
  · cases hx : insStep table vars line i .lineEnd s with
    | error x => rw [hx] at hstep; exact hstep
    | ok x => rw [hx] at hstep; exact hstep

variable (vars) in
theorem insLoop_leaves (hP : Storable table P) (line : Bytes) (stat : Stat) (cs : Bytes) (i : ℕ)
    (h : P s) :
    Ends P (insLoop table vars line stat cs i s) := by
  induction cs generalizing stat i s with
  | nil => exact insLoop_nil_ends (insStep_leaves vars hP line i .lineEnd h) h
  | cons c cs ih =>
    rw [insLoop]
    have hstep := insStep_leaves vars hP line i (confParseStateIns c) h
    cases hx : insStep table vars line i (confParseStateIns c) s with
    | error x => rw [hx] at hstep; exact hstep
    | ok x => rw [hx] at hstep; exact ih _ _ hstep

end Leaves

/-- Once a space or a brace has been read, spaces do nothing. -/
theorem insLoop_skip (hl : s.last = .space ∨ s.last = .blockBeg ∨ s.last = .blockEnd) (k : ℕ) :
    insLoop table vars line .space
      (List.replicate k SP ++ cs) i s = insLoop table vars line .space cs (i + k) s := by
  induction k generalizing i with
  | zero => rfl
  | succ k ih =>
    rw [List.replicate_succ, List.cons_append, insLoop, stateIns_sp]
    simp only [insStep, if_pos hl]
    rw [ih, Nat.add_right_comm, Nat.add_assoc]

section Last

def Begun (s : Ins ε κ) : Prop :=
  s.last = .char ∨ s.last = .space ∨ s.last = .var ∨ s.last = .blockBeg ∨ s.last = .blockEnd

theorem insStep_begun {c : UInt8} (h : insStep table vars line i (confParseStateIns c) s = .ok s') :
    Begun s' := by
  have hpush : ∀ l, (insPush table vars line i s).map (fun s => { s with last := l }) = .ok s' →
      s'.last = l := by
    intro l h
    obtain ⟨x, -, rfl⟩ := map_eq_ok h
    rfl
  unfold Begun
  cases hc : confParseStateIns c with
  | blockBeg =>
    simp only [hc, insStep] at h
    split_ifs at h
    · simp [hpush _ h]
    · cases h
      simp
  | blockEnd =>
    simp only [hc, insStep] at h
    split_ifs at h
    cases h
    simp
  | char =>
    simp only [hc, insStep] at h
    by_cases hl : s.last = .blockBeg ∨ s.last = .blockEnd
    · rw [if_pos hl] at h
      cases h
    · rw [if_neg hl] at h
      cases h
      simp
  | space =>
    simp only [hc, insStep] at h
    split_ifs at h with hl
    · cases h
      rcases hl with hl | hl | hl <;> simp [hl]
    · simp [hpush _ h]
  | var =>
    simp only [hc, insStep] at h
    split_ifs at h
    cases h
    simp
  | null | assign | lineEnd | invalid =>
    unfold confParseStateIns at hc
    split_ifs at hc

theorem begun_null (hs : Begun s) : s.last ≠ .null := by
  rcases hs with h | h | h | h | h <;> rw [h] <;> exact Stat.noConfusion

theorem insLoop_cons_ok {c : UInt8}
    (h : insLoop table vars line stat (c :: cs) i s = .ok (stat', s')) :
    ∃ x, insStep table vars line i (confParseStateIns c) s = .ok x ∧
      insLoop table vars line (confParseStateIns c) cs (i + 1) x = .ok (stat', s') := by
  rw [insLoop] at h
  cases hx : insStep table vars line i (confParseStateIns c) s with
  | error x => rw [hx] at h; cases h
  | ok x => exact ⟨x, rfl, by rwa [hx] at h⟩

/-- What the loop returns, unless there was nothing to read. -/
theorem insLoop_stat (h : insLoop table vars line stat cs i s = .ok (stat', s'))
    (hi : i ≠ 0 ∨ cs ≠ []) :
    stat' = if lastStat stat cs = .blockBeg ∨ lastStat stat cs = .blockEnd then lastStat stat cs
      else .lineEnd := by
  induction cs generalizing stat i s with
  | nil =>
    have hi : i ≠ 0 := by simpa using hi
    rw [insLoop] at h
    simp only [hi, false_or] at h
    change stat' = if stat = .blockBeg ∨ stat = .blockEnd then stat else .lineEnd
    split_ifs at h ⊢
    · cases h
      rfl
    · obtain ⟨x, -, hx⟩ := map_eq_ok h
      cases hx
      rfl
  | cons c cs ih =>
    obtain ⟨x, -, hrest⟩ := insLoop_cons_ok h
    exact ih hrest (.inl (by omega))

/-- A `}` is only taken where nothing stands in front of it. -/
theorem insLoop_begun (h : insLoop table vars line stat cs i s = .ok (stat', s')) (hs : Begun s)
    (hcs : cs ≠ []) : lastStat stat cs ≠ .blockEnd := by
  induction cs generalizing stat i s with
  | nil => exact absurd rfl hcs
  | cons c cs ih =>
    obtain ⟨x, hx, hrest⟩ := insLoop_cons_ok h
    by_cases hcs : cs = []
    · subst hcs
      change confParseStateIns c ≠ .blockEnd
      intro hc
      rw [hc] at hx
      simp only [insStep] at hx
      rw [if_pos (begun_null hs)] at hx
      cases hx
    · exact ih hrest (insStep_begun hx) hcs

theorem insLoop_closes (h : insLoop table vars line stat line 0 s = .ok (stat', s'))
    (hline : line ≠ [])
    (hl : lastStat stat line = .blockEnd) : line = [RBRACE] := by
  obtain ⟨c, cs, rfl⟩ := List.exists_cons_of_ne_nil hline
  obtain ⟨x, hx, hrest⟩ := insLoop_cons_ok h
  by_cases hcs : cs = []
  · subst hcs
    rw [stateIns_eq_rbrace hl]
  · have hopen := insLoop_begun hrest (insStep_begun hx) hcs
    exact absurd hl hopen

end Last

end Plume.Conf
