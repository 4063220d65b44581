import Plume.CLib.Run
import Plume.Conf.Directive
import Plume.Conf.Uninit

/-! The contexts that the directives of a configuration get, against those that their blocks
were given. -/

namespace Plume.Conf
open CLib

variable {ε κ : Type}

section Watch

/-- The context created by the calls of a line, or `ctx` if they create none. -/
def created (ctx : Option κ) : List (Call κ) → Option κ
  | .createCtx _ _ ctx' :: _ => ctx'
  | _ => ctx

/-- The load so far, with the context that each block open in the text created, innermost first,
and the one that was created last. -/
structure Watch (ε κ : Type) where
  st : LoadState ε κ
  scopes : List (Option κ)
  last : Option κ

/-- The line is neither empty nor a comment, and defines no variable: it goes to
`plm_conf_parse_ins`. -/
def IsIns (line : Bytes) : Prop :=
  body line ≠ [] ∧ (body line).head? ≠ some HASH ∧ (body line).head? ≠ some DOLLAR

instance (line : Bytes) : Decidable (IsIns line) := inferInstanceAs (Decidable (_ ∧ _ ∧ _))

/-- By its text the line opens a block, or closes one. -/
def Opens (line : Bytes) : Prop := IsIns line ∧ LBRACE ∈ body line

def Closes (line : Bytes) : Prop := IsIns line ∧ RBRACE ∈ body line

instance (line : Bytes) : Decidable (Opens line) := inferInstanceAs (Decidable (_ ∧ _))

instance (line : Bytes) : Decidable (Closes line) := inferInstanceAs (Decidable (_ ∧ _))

/-- The blocks that are open in the text behind a line, which made these calls. -/
def scopesAfter (line : Bytes) (calls : List (Call κ)) (scopes : List (Option κ)) :
    List (Option κ) :=
  if Opens line then created none calls :: scopes
  else if Closes line then scopes.tail
  else scopes

variable (table : ε → List (Cmd ε κ)) (junk : ℕ → Junk κ)

def watchLine (w : Watch ε κ) (line : Bytes) : Option (Watch ε κ) :=
  match loadLine table junk line w.st with
  | (_, .error _) => none
  | (calls, .ok st) => some ⟨st, scopesAfter line calls w.scopes, created w.last calls⟩

def watchStart (env : ε) : Watch ε κ := ⟨loadStart env, [], none⟩

def Directive (line : Bytes) : Prop := (body line).head? ≠ some HASH ∧ word (body line) ≠ []

def Names (line : Bytes) (cmd : Cmd ε κ) (w : Watch ε κ) : Prop :=
  Directive line ∧ pluginCmdSearch (table w.st.conf.env) (word (body line)) = some cmd

def Served (cmd : Cmd ε κ) : Prop := cmd.c_type = .block ∨ cmd.c_set_cmd ≠ none

end Watch

section Calls

variable {table : ε → List (Cmd ε κ)} {junk : ℕ → Junk κ} {w : Watch ε κ} {st : LoadState ε κ}
  {line t : Bytes} {cmd : Cmd ε κ} {ctx : Option κ} {calls : List (Call κ)}

variable (table junk) in
/-- A line that is parsed as a directive, in the context it is given. -/
theorem loadParse_ins (hd : t.head? ≠ some DOLLAR) (st : LoadState ε κ) :
    (loadParse table junk t st).1 = [] ∧ (∀ st', (loadParse table junk t st).2 ≠ .ok st') ∨
      ∃ ctx stat s, startCtx st.conf (currCtx (junk st.parsed) st.conf) = .ok ctx ∧
        confParseIns table (junk st.parsed) st.conf.vars t ctx st.conf.env = .ok (stat, s) ∧
        loadParse table junk t st =
          (s.calls ++ (loadSwitch stat { st with
              conf :=
                storeCtx (currCtx (junk st.parsed) st.conf) s st.conf, parsed := st.parsed + 1 }).1,
            (loadSwitch stat { st with
              conf := storeCtx (currCtx (junk st.parsed) st.conf) s st.conf, parsed :=
                st.parsed + 1 }).2) := by
  unfold loadParse confParseLine
  rw [if_neg hd]
  cases hc : startCtx st.conf (currCtx (junk st.parsed) st.conf) with
  | error f => exact .inl ⟨rfl, fun st' h => by cases h⟩
  | ok ctx =>
    cases hp : confParseIns table (junk st.parsed) st.conf.vars t ctx st.conf.env with
    | error f =>
      rw [ok_bind, hp]
      exact .inl ⟨rfl, fun st' h => by cases h⟩
    | ok y =>
      obtain ⟨stat, s⟩ := y
      rw [ok_bind, hp]
      exact .inr ⟨ctx, stat, s, rfl, hp, rfl⟩

end Calls

section Created

variable {ctx : Option κ} {s : Ins ε κ} {calls more : List (Call κ)} {k : κ}

end Created

section Track

variable {table : ε → List (Cmd ε κ)} {junk : ℕ → Junk κ} {w w' : Watch ε κ} {line : Bytes}

/-- The state behind `plm_conf_parse_ins`, where block `i` is current. -/
theorem storeCtx_block (s : Ins ε κ) (conf : ConfState ε κ) (i : ℕ) :
    (storeCtx (.block i) s conf).node = some i ∧
    ((storeCtx (.block i) s conf).blocks i).bc_data = s.ctx ∧
      ((storeCtx (.block i) s conf).blocks i).ln_next = (conf.blocks i).ln_next := by
  simp [storeCtx]

theorem storeCtx_node (curr : JunkPtr κ) (s : Ins ε κ) (conf : ConfState ε κ) :
    ∃ i, (storeCtx curr s conf).node = some i ∧
      ((storeCtx curr s conf).blocks i).bc_data = s.ctx := by
  cases curr with
  | block i => exact ⟨i, by simp [storeCtx]⟩
  | null | other | wild => exact ⟨conf.used, by simp [storeCtx]⟩

theorem loadParse_definition {t : Bytes} (hd : t.head? = some DOLLAR) {st st' : LoadState ε κ}
    {calls : List (Call κ)} (h : loadParse table junk t st = (calls, .ok st')) : calls = [] ∧
      ∃ vars, st' = { st with conf := { st.conf with vars := vars }, parsed := st.parsed + 1 } := by
  unfold loadParse confParseLine at h
  rw [if_pos hd] at h
  cases hb : bcData st.conf (currCtx (junk st.parsed) st.conf) with
  | error f => rw [hb] at h; cases h
  | ok d =>
    rw [hb, ok_bind] at h
    cases hv : confParseVariable (junk st.parsed).last st.conf.vars t with
    | error f => rw [hv] at h; cases h
    | ok vars =>
      rw [hv] at h
      cases h
      exact ⟨rfl, vars, rfl⟩

def insLoad (junk : ℕ → Junk κ) (s : Ins ε κ) (st : LoadState ε κ) : LoadState ε κ :=
  { st with conf := storeCtx (currCtx (junk st.parsed) st.conf) s st.conf, parsed := st.parsed + 1 }

/-- A line that is parsed as a directive, and got over. -/
theorem watchLine_ins (hskip : ¬ (lineText line = [] ∨ (body line).head? = some HASH))
    (hd : (body line).head? ≠ some DOLLAR) (h : watchLine table junk w line = some w') :
    ∃ ctx stat s st', startCtx w.st.conf (currCtx (junk w.st.parsed) w.st.conf) = .ok ctx ∧
      confParseIns table (junk w.st.parsed) w.st.conf.vars (body line) ctx w.st.conf.env = .ok
        (stat, s) ∧
      stat ≠ .invalid ∧
        (loadLine table junk line w.st).1 = s.calls ++ (loadSwitch stat (insLoad junk s w.st)).1 ∧
      (loadSwitch stat (insLoad junk s w.st)).2 = .ok st' ∧
      w' = ⟨st', scopesAfter line (s.calls ++ (loadSwitch stat (insLoad junk s w.st)).1) w.scopes,
        created w.last (s.calls ++ (loadSwitch stat (insLoad junk s w.st)).1)⟩ := by
  have hload : loadLine table junk line w.st = loadParse table junk (body line) w.st := by
    rw [loadLine_eq, if_neg hskip]
  unfold watchLine at h
  rw [hload] at h ⊢
  rcases loadParse_ins table junk hd w.st with ⟨-, herr⟩ | ⟨ctx, stat, s, hctx, hp, heq⟩
  · cases hr : loadParse table junk (body line) w.st with
    | mk calls r =>
      rw [hr] at h herr
      cases r with
      | error f => cases h
      | ok st' => exact absurd rfl (herr st')
  · change _ = (s.calls ++
      (loadSwitch stat (insLoad junk s w.st)).1, (loadSwitch stat (insLoad junk s w.st)).2) at heq
    rw [heq] at h ⊢
    have hstat : stat ≠ .invalid := by
      rintro rfl
      cases h
    cases hsw : (loadSwitch stat (insLoad junk s w.st)).2 with
    | error f =>
      rw [hsw] at h
      cases h
    | ok st' =>
      rw [hsw] at h
      exact ⟨ctx, stat, s, st', hctx, hp, hstat, rfl, hsw, (Option.some.inj h).symm⟩

/-- With nothing to parse, what the local `stat` holds is returned. -/
theorem parseIns_nil {j : Junk κ} {vars : List VarElem} {ctx : Option κ} {env : ε} {stat : Stat}
    {s : Ins ε κ}
    (h : confParseIns table j vars [] ctx env = .ok (stat, s)) (hstat : stat ≠ .invalid) :
    stat = braceOr j.stat := by
  obtain ⟨stat1, s1, hl, hbrace⟩ := parseIns_loop h hstat
  rw [insLoop, if_pos (Or.inl rfl)] at hl
  cases hl
  exact hbrace

/-- Each line of a load that gets through is reached, and got over. -/
theorem reached {env : ε} {lines pre : List Bytes} {w : Watch ε κ} (h : run (watchLine table junk)
    (watchStart env) lines = some w) (hpre : pre ++ [line] <+: lines) :
    ∃ w1 w2, run (watchLine table junk) (watchStart env) pre = some w1 ∧
      watchLine table junk w1 line = some w2 := by
  obtain ⟨rest, rfl⟩ := hpre
  rw [run_append, run_snoc] at h
  obtain ⟨w2, hstep, -⟩ := Option.bind_eq_some_iff.1 h
  obtain ⟨w1, hpre, hstep⟩ := Option.bind_eq_some_iff.1 hstep
  exact ⟨w1, w2, hpre, hstep⟩

end Track

section Claim

variable {table : ε → List (Cmd ε κ)} {junk : ℕ → Junk κ} {w : Watch ε κ} {line : Bytes}
  {cmd : Cmd ε κ}
  {k : κ}

end Claim

end Plume.Conf
