import Plume.Conf.Command
import Plume.Conf.Layout
import Plume.Conf.Scope

/-! The loader against the tree of a configuration, for every file whose lines are those of the
tree, whatever blank lines, comments and white space stand between and before them: what it makes of
any tree, and that this is what the tree means where nothing follows a nested block in its block, no
variable is defined by another and the uninitialised locals do no harm. -/

namespace Plume.Conf
open CLib

variable {ε κ : Type} {table : ε → List (Cmd ε κ)} {junk : ℕ → Junk κ} {V : List VarElem} {d n : ℕ}
  {w : World ε κ} {st : LoadState ε κ} {t : Bytes} {ρ : Env}

section State

/-- The loader behind `n` lines, with `d` blocks open and these variables on its stack. -/
structure Loads (V : List VarElem) (d n : ℕ) (w : World ε κ) (st : LoadState ε κ) : Prop where
  env : st.conf.env = w.env
  vars : st.conf.vars = V
  parsed : st.parsed = n
  len : st.l_len = d
  block : st.block = d
  outside : d = 0 → st.conf.node = none
  inside : d ≠ 0 →
    ∃ i, st.conf.node = some i ∧ st.l_head = some i ∧ (st.conf.blocks i).bc_data = w.ctx ∧
    (d ≠ 1 → (st.conf.blocks i).ln_next = some i)

theorem loads_start (env : ε) : Loads [] 0 0 ⟨env, none⟩ (loadStart env : LoadState ε κ) :=
  ⟨rfl, rfl, rfl, rfl, rfl, fun _ => rfl, fun h => absurd rfl h⟩

def Given (junk : ℕ → Junk κ) (w : World ε κ) (st : LoadState ε κ) : Prop :=
  startCtx st.conf (currCtx (junk st.parsed) st.conf) = .ok w.ctx

variable (junk) in
theorem Loads.given (h : Loads V d n w st) (hd : d ≠ 0) : Given junk w st := by
  obtain ⟨i, hn, -, hdata, -⟩ := h.inside hd
  unfold Given
  rw [currCtx_inside hn, ← hdata]
  rfl

theorem Loads.line (h : Loads V d n w st) (hd : d ≠ 0) (s : Ins ε κ) :
    Loads V d (n + 1) ⟨s.env, s.ctx⟩ (insLoad junk s st) := by
  obtain ⟨i, hn, hhead, -, hnext⟩ := h.inside hd
  obtain ⟨hnode, hdata, hln⟩ := storeCtx_block s st.conf i
  unfold insLoad
  rw [currCtx_inside hn]
  exact ⟨rfl, h.vars, congrArg (· + 1) h.parsed, h.len, h.block, fun h0 => absurd h0 hd,
    fun _ => ⟨i, hnode, hhead, hdata, fun h1 => hln.trans (hnext h1)⟩⟩

theorem storeCtx_vars (curr : JunkPtr κ) (s : Ins ε κ) (conf : ConfState ε κ) :
    (storeCtx curr s conf).vars = conf.vars ∧ (storeCtx curr s conf).env = s.env := by
  cases curr <;> exact ⟨rfl, rfl⟩

variable (junk) in
theorem Loads.opens (h : Loads V d n w st) (s : Ins ε κ) :
    ∃ st', loadBlockBeg (insLoad junk s st) = .ok st' ∧
      Loads (confVarBlockPush d V) (d + 1) (n + 1) ⟨s.env, s.ctx⟩ st' := by
  obtain ⟨i, hnode, hdata⟩ := storeCtx_node (currCtx (junk st.parsed) st.conf) s st.conf
  obtain ⟨hvars, henv⟩ := storeCtx_vars (currCtx (junk st.parsed) st.conf) s st.conf
  unfold loadBlockBeg insLoad
  dsimp only
  rw [hnode]
  refine ⟨_, rfl, henv, ?_, congrArg (· + 1) h.parsed, congrArg (· + 1) h.len, ?_,
    fun h0 => absurd h0 (Nat.succ_ne_zero d), fun _ => ⟨i, hnode, rfl, ?_, fun h1 => ?_⟩⟩
  · change confVarBlockPush st.block
      (storeCtx (currCtx (junk st.parsed) st.conf) s st.conf).vars = _
    rw [hvars, h.vars, h.block]
  · change st.block + 1 = _
    rw [h.block]
    rfl
  · simpa [ctxPush] using hdata
  · obtain ⟨i', hn, hhead, -⟩ := h.inside fun h0 => h1 (congrArg (· + 1) h0)
    rw [currCtx_inside hn, (storeCtx_block s st.conf i').1] at hnode
    simp [ctxPush, hhead, Option.some.inj hnode]

variable (junk) in
theorem Loads.closes (h : Loads V (d + 1) n w st) (s : Ins ε κ) :
    ∃ st', loadBlockEnd (insLoad junk s st) = .ok st' ∧
      Loads (confVarBlockPop V) d (n + 1) ⟨s.env, s.ctx⟩ st' := by
  obtain ⟨i, hn, hhead, -, hnext⟩ := h.inside (Nat.succ_ne_zero d)
  obtain ⟨-, hdata, hln⟩ := storeCtx_block s st.conf i
  have hblock : st.block - 1 = d := by
    rw [h.block]
    push_cast
    omega
  unfold loadBlockEnd ctxPop insLoad
  rw [currCtx_inside hn]
  dsimp only
  rw [if_neg (by rw [h.len]; exact Nat.succ_ne_zero d), hhead, ok_bind]
  refine ⟨_, rfl, rfl, congrArg confVarBlockPop h.vars, congrArg (· + 1) h.parsed, ?_, hblock,
    fun h0 => ?_, fun hd => ?_⟩
  · change st.l_len - 1 = d
    rw [h.len]
    rfl
  · refine if_neg ?_
    change ¬ st.l_len - 1 > 0
    rw [h.len, h0]
    decide
  · have hhead' : ((storeCtx (.block i) s st.conf).blocks i).ln_next = some i :=
      hln.trans (hnext fun h1 => hd (by omega))
    have hopen : st.l_len - 1 > 0 := by
      rw [h.len]
      omega
    exact ⟨i, (if_pos hopen).trans hhead', hhead', hdata, fun _ => hhead'⟩

end State

section Lines

theorem loadParse_eq {ctx : Option κ} {stat : Stat} {s : Ins ε κ}
    (hctx : startCtx st.conf (currCtx (junk st.parsed) st.conf) = .ok ctx)
    (hd : t.head? ≠ some DOLLAR)
    (hp : confParseIns table (junk st.parsed) st.conf.vars t ctx st.conf.env = .ok (stat, s)) :
    loadParse table junk t st =
      (s.calls ++
        (loadSwitch stat (insLoad junk s st)).1, (loadSwitch stat (insLoad junk s st)).2) := by
  unfold loadParse confParseLine
  rw [if_neg hd, hctx, ok_bind, hp]
  rfl

/-- A line that does what `m` says, and what the `switch` behind it then does. -/
theorem parse_agrees {α : Type} {R : α → LoadState ε κ → Prop}
    {m : Logged (Call κ) Fault (World ε κ)} {stat : Stat}
    {y : Stat × Ins ε κ} {k : World ε κ → Logged (Call κ) Fault α} (h : Loads V d n w st)
    (hgiven : Given junk w st)
    (hd : t.head? ≠ some DOLLAR) (hy : confParseIns table (junk n) V t w.ctx w.env = .ok y)
    (hp : Parses stat m y)
    (hk : ∀ (w' : World ε κ) (s : Ins ε κ), w' = ⟨s.env, s.ctx⟩ →
      Logged.Agrees R (k w') (loadSwitch stat (insLoad junk s st))) :
    Logged.Agrees R (m.bind k) (loadParse table junk t st) := by
  rw [← h.parsed, ← h.vars, ← h.env] at hy
  cases hp with
  | refused s =>
    rw [loadParse_eq hgiven hd hy, Logged.stopped_bind]
    change Logged.Agrees R _ (s.calls ++ [], Except.error Fault.abort)
    rw [List.append_nil]
    exact .fail _ _
  | @through w' s hctx henv =>
    rw [loadParse_eq hgiven hd hy, Logged.logged_bind]
    refine (hk w' s ?_).behind s.calls
    rw [hctx, henv]

def Sees (ρ : Env) (V : List VarElem) : Prop := ∀ x, 0 ∉ x → ρ x = confGetVarValue V x

theorem words_mem {dl : WordLine} {opens : Bool} {n : ℕ} {x : PlainWord}
    (h : (n, Word.var x) ∈ dl.words)
    (h0 : 0 ∉ dl.text ++ brace opens) : 0 ∉ x.1 := by
  intro hx
  apply h0
  refine List.mem_append_left _ (List.mem_append_right _ (List.mem_append_left _ ?_))
  refine List.mem_flatMap.2 ⟨_, h, List.mem_append_right _ (List.mem_cons_of_mem _ hx)⟩

theorem Sees.words {dl : WordLine} {opens : Bool} (hρ : Sees ρ V)
    (h0 : 0 ∉ dl.text ++ brace opens) :
    ∀ w ∈ dl.words, w.2.value V = w.2.meaning ρ := by
  rintro ⟨n, word⟩ hw
  cases word with
  | plain t => rfl
  | var x => exact (hρ x (words_mem hw h0)).symm

theorem text_head (dl : WordLine) (t : Bytes) : (dl.text ++ t).head? ≠ some DOLLAR := by
  obtain ⟨c, n, hn⟩ := List.exists_cons_of_ne_nil dl.name.2.1
  have hc := (dl.name.2.2 c (by rw [hn]; exact List.mem_cons_self)).2.2.2
  rw [WordLine.text, hn]
  simpa using hc

theorem command_agrees {α : Type} {R : α → LoadState ε κ → Prop}
    {k : World ε κ → Logged (Call κ) Fault α} (dl : WordLine)
    (opens : Bool) (h : Loads V d n w st) (hgiven : Given junk w st) (hρ : Sees ρ V)
    (h0 : 0 ∉ dl.text ++ brace opens)
    (hk : ∀ (w' : World ε κ) (s : Ins ε κ), w' = ⟨s.env, s.ctx⟩ →
      Logged.Agrees R (k w')
        (loadSwitch (if opens then .blockBeg else .lineEnd) (insLoad junk s st))) :
    Logged.Agrees R ((w.directive table ρ dl).bind k)
      (loadParse table junk (dl.text ++ brace opens) st) := by
  obtain ⟨y, hy, hp⟩ := parseIns_directive (junk n) dl opens w (hρ.words h0)
  exact parse_agrees h hgiven (text_head dl _) hy hp hk

theorem directive_agrees (dl : WordLine) (hd : d ≠ 0) (h : Loads V d n w st) (hρ : Sees ρ V)
    (h0 : 0 ∉ dl.text ++ brace false) :
    Logged.Agrees (Loads V d (n + 1)) (w.directive table ρ dl)
      (loadParse table junk (dl.text ++ brace false) st) := by
  rw [← Logged.bind_ok (w.directive table ρ dl)]
  refine command_agrees dl false h (h.given junk hd) hρ h0 fun w' s hw' => ?_
  rw [hw']
  exact .ok [] (h.line hd s)

theorem opened_agrees (dl : WordLine) (h : Loads V d n w st) (hgiven : Given junk w st)
    (hρ : Sees ρ V)
    (h0 : 0 ∉ dl.text ++ brace true) :
    Logged.Agrees (Loads (confVarBlockPush d V) (d + 1) (n + 1)) (w.opened table ρ dl)
      (loadParse table junk (dl.text ++ brace true) st) := by
  refine command_agrees dl true h hgiven hρ h0 fun w' s hw' => ?_
  obtain ⟨st', hbeg, hst'⟩ := h.opens junk s
  rw [hw']
  change Logged.Agrees _ _ ([Call.blockBeg], loadBlockBeg (insLoad junk s st))
  rw [hbeg]
  exact .ok _ hst'

variable (table junk) in
/-- A `}` on its own sets what the locals of the parser name. -/
theorem closed_agrees (h : Loads V (d + 1) n w st) :
    Logged.Agrees (Loads (confVarBlockPop V) d (n + 1)) (w.closed table junk n)
      (loadParse table junk [RBRACE] st) := by
  have hgiven := h.given junk (Nat.succ_ne_zero d)
  have hparse : ∀ vars, confParseIns table (junk n) vars [RBRACE] w.ctx w.env =
      insEnd table (.ok (.blockEnd, ⟨w.ctx, w.env, ⟨false, (junk n).cl_name, (junk n).cl_params⟩,
        .blockEnd, 0, false, []⟩)) := fun _ => rfl
  rw [World.closed]
  cases hname : (junk n).cl_name with
  | none =>
    have hwild := hparse st.conf.vars
    rw [hname] at hwild
    unfold loadParse confParseLine
    rw [if_neg (by decide), hgiven, ok_bind, h.parsed, h.env, hwild]
    exact .fail [] Fault.wild
  | some name =>
    set s : Ins ε κ :=
      ⟨w.ctx, w.env, ⟨false, some name, (junk n).cl_params⟩, .blockEnd, 0, false, []⟩
    have hsets : Sets (Logged.bind (s.calls, .ok w) (World.set table name s.cl.cl_params))
      (confSetCmd table s) :=
      setCmd_sets rfl rfl rfl
    obtain ⟨y, hy, hp⟩ := insEnd_sets hsets (show braceOr .blockEnd = .blockEnd from rfl)
    have hy : confParseIns table (junk n) V [RBRACE] w.ctx w.env = .ok y := by
      rw [hparse, hname]
      exact hy
    have hset : Logged.bind (s.calls, .ok w) (World.set table name s.cl.cl_params) =
        w.set table name (junk n).cl_params := rfl
    rw [hset] at hp
    refine parse_agrees h hgiven (by decide) hy hp fun w' s hw' => ?_
    obtain ⟨st', hend, hst'⟩ := h.closes junk s
    rw [hw']
    change Logged.Agrees _ _ ([Call.blockEnd], loadBlockEnd (insLoad junk s st))
    rw [hend]
    exact .ok _ hst'

end Lines

section Definitions

/-- The first reference of a value, up to its end. -/
theorem varLoop_first {n v : Bytes} (vars : List VarElem) (vs : List Bytes) (hne : v ≠ [])
    (hv : IsText v) :
    varLoop (definition n (references (v :: vs))) vars (references (v :: vs)) (n.length + 2)
      (named n) =
      varLoop (definition n (references (v :: vs))) vars (references vs) (n.length + 3 + v.length)
        { named n with var_link := true, beg := n.length + 3, last := .char } := by
  have hstep : varStep (definition n (references (v :: vs))) vars (n.length + 2) .var (named n) =
      .ok { named n with var_link := true, last := .var } := by simp [varStep, named]
  change varLoop _ _ (DOLLAR :: (v ++ references vs)) _ _ = _
  rw [varLoop, stateVar_dollar, hstep, ok_bind, varLoop_text hv hne (.inl rfl)]

theorem parseVariable_stored (last : Stat) (vars : List VarElem) (x : { x : Bytes // IsName x })
    (h0 : 0 ∉ x.1)
    (v : Value) : confParseVariable last vars (definition x v.text) =
      match v.stored (confGetVarValue vars x) with
      | none => .error .abort
      | some u => .ok (.data ⟨x, x.2.ne, h0⟩ u :: vars) := by
  obtain ⟨n, hn⟩ := x
  have hend : ∀ s, s.name = n → varEnd vars s = .ok (.data ⟨n, hn.ne, h0⟩ s.value :: vars) :=
    fun _ => varEnd_ok ⟨hn.ne, h0⟩
  rw [confParseVariable, varLoop_name hn]
  cases v with
  | literal t =>
    obtain ⟨t, hne, ht⟩ := t
    have htext : varLoop (definition n t) vars (t ++ []) (n.length + 2) (named n) = _ :=
      varLoop_text ht hne (.inr rfl)
    have hi : n.length + 2 + t.length ≠ 1 := by omega
    rw [List.append_nil, varLoop_end rfl (definition_length n t).symm hi] at htext
    change varLoop (definition n t) vars t (n.length + 2) (named n) >>= varEnd vars = _
    rw [htext, ok_bind, hend _ rfl]
    exact congrArg (fun value => Except.ok (VarElem.data ⟨n, hn.ne, h0⟩ value :: vars))
      (definition_drop n t)
  | refs vs =>
    obtain ⟨vs, hne, hvs⟩ := vs
    obtain ⟨v₀, vs, rfl⟩ := List.exists_cons_of_ne_nil hne
    obtain ⟨hne₀, hv₀⟩ := hvs v₀ List.mem_cons_self
    change varLoop (definition n (references (v₀ :: vs))) vars (references (v₀ :: vs))
      (n.length + 2) (named n) >>=
      varEnd vars = _
    rw [varLoop_first vars vs hne₀ hv₀]
    cases hu : confGetVarValue vars n with
    | none =>
      rw [varLoop_unknown hu vs rfl rfl rfl (by omega)]
      rfl
    | some u =>
      obtain ⟨s', hloop, hname, hval⟩ :=
        varLoop_references (definition n (references (v₀ :: vs))) hu vs
        (s := { named n with var_link := true, beg := n.length + 3, last := .char })
        (i := n.length + 3 + v₀.length)
        (fun v hv => hvs v (List.mem_cons_of_mem _ hv)) rfl rfl rfl (by omega)
      rw [hloop, ok_bind, hend s' hname, hval]
      rfl

variable (table junk) in
theorem loadParse_define (x : { x : Bytes // IsName x }) (h0 : 0 ∉ x.1) (v : Value) (hd : d ≠ 0)
    (h : Loads V d n w st) :
    match v.stored (confGetVarValue V x) with
    | none => loadParse table junk (definition x v.text) st = ([], .error .abort)
    | some u => ∃ st', loadParse table junk (definition x v.text) st = ([], .ok st') ∧
        Loads (.data ⟨x, x.2.ne, h0⟩ u :: V) d (n + 1) w st' := by
  have hgiven : startCtx st.conf (currCtx (junk st.parsed) st.conf) = .ok w.ctx := h.given junk hd
  obtain ⟨i, hn, hhead, hdata, hnext⟩ := h.inside hd
  have hbc : bcData st.conf (currCtx (junk st.parsed) st.conf) = .ok
    (st.conf.blocks i).bc_data := by
    rw [currCtx_inside hn]
    rfl
  have hparse : loadParse table junk (definition x v.text) st =
      match confParseVariable (junk st.parsed).last V (definition x v.text) with
      | .error f => ([], .error f)
      | .ok vars =>
        ([], .ok { st with conf := { st.conf with vars := vars }, parsed := st.parsed + 1 }) := by
    unfold loadParse confParseLine
    dsimp only
    rw [if_pos (show (definition x v.text).head? = some DOLLAR from rfl), hbc, ok_bind, h.vars]
    cases confParseVariable (junk st.parsed).last V (definition x v.text) <;> rfl
  rw [hparse, parseVariable_stored _ V x h0 v]
  cases v.stored (confGetVarValue V x) with
  | none => rfl
  | some u =>
    exact ⟨_, rfl, h.env, rfl, congrArg (· + 1) h.parsed, h.len, h.block, fun h0 => absurd h0 hd,
      fun _ => ⟨i, hn, hhead, hdata, hnext⟩⟩

end Definitions

section File

variable (table junk) in
def parseLines : List Bytes → LoadState ε κ → Logged (Call κ) Fault (LoadState ε κ)
  | [], st => .ok st
  | t :: ts, st => Logged.bind (loadParse table junk t st) (parseLines ts)

theorem parseLines_append (ts us : List Bytes) (st : LoadState ε κ) :
    parseLines table junk (ts ++ us) st = (parseLines table junk ts st).bind
      (parseLines table junk us) := by
  induction ts generalizing st with
  | nil => rfl
  | cons t ts ih =>
    rw [List.cons_append, parseLines, parseLines, Logged.bind_assoc]
    exact congrArg _ (funext ih)

theorem Sees.define (hρ : Sees ρ V) (x : VarName) (u : Bytes) :
    Sees (Function.update ρ x (some u)) (.data x u :: V) := by
  intro y hy
  rw [confGetVarValue]
  by_cases hxy : y = x
  · rw [hxy, Function.update_self, if_pos ((strcmp_name x x).2 rfl)]
  rw [Function.update_of_ne hxy, if_neg, hρ y hy]
  have hnul : ∀ a b : Bytes, 0 ∉ a → a ≠ b ++ [0] := by
    rintro _ b ha rfl
    exact ha (List.mem_append_right _ (List.mem_singleton.2 rfl))
  simp [strcmp, hxy, hnul y x hy, hnul x y x.2.2]

def defined (ds : List (VarName × Bytes)) : List VarElem := ds.map fun d => .data d.1 d.2

/-- The lines of a block: the definitions made there stay on the stack until it is closed. -/
theorem body_agrees (b : Body) (hd : d ≠ 0) (h0 : ∀ t ∈ b.lines, 0 ∉ t) (hρ : Sees ρ V)
    (h : Loads V d n w st) :
    Logged.Agrees (fun w' st' => ∃ ds, Loads (defined ds ++ V) d (n + b.lines.length) w' st')
      (b.loaded table junk n ρ w) (parseLines table junk b.lines st) := by
  induction b generalizing ρ V d n w st with
  | done => exact .ok [] ⟨[], h⟩
  | define x v rest ih =>
    have hx : 0 ∉ x.1 :=
      fun hmem => h0 _ List.mem_cons_self (List.mem_cons_of_mem _ (List.mem_append_left _ hmem))
    have hline := loadParse_define table junk x hx v hd h
    rw [Body.loaded, Body.lines, parseLines, hρ x hx]
    cases hu : v.stored (confGetVarValue V x) with
    | none =>
      rw [hu] at hline
      rw [hline]
      exact .fail [] _
    | some u =>
      rw [hu] at hline
      obtain ⟨st', hst, h'⟩ := hline
      rw [hst, Logged.logged_bind]
      refine (ih hd (fun t ht => h0 t (List.mem_cons_of_mem _ ht)) (hρ.define ⟨x, x.2.ne,
        hx⟩ u) h').mono ?_
      rintro w' st' ⟨ds, hds⟩
      refine ⟨ds ++ [(⟨x, x.2.ne, hx⟩, u)], ?_⟩
      rw [defined, List.map_append, List.append_assoc, List.length_cons,
        Nat.add_comm rest.lines.length, ← Nat.add_assoc]
      exact hds
  | directive dl rest ih =>
    rw [Body.loaded, Body.lines, parseLines]
    refine (directive_agrees dl hd h hρ (h0 _ List.mem_cons_self)).bind fun w' st' h' => ?_
    rw [List.length_cons, Nat.add_comm rest.lines.length, ← Nat.add_assoc]
    exact ih hd (fun t ht => h0 t (List.mem_cons_of_mem _ ht)) hρ h'
  | block head inner rest ihi ihr =>
    have hi : ∀ t ∈ inner.lines, 0 ∉ t :=
      fun t ht => h0 t (List.mem_cons_of_mem _ (List.mem_append_left _ ht))
    have hr : ∀ t ∈ rest.lines, 0 ∉ t :=
      fun t ht => h0 t
        (List.mem_cons_of_mem _ (List.mem_append_right _ (List.mem_cons_of_mem _ ht)))
    have hpush : confVarBlockPush d V = .spec d :: V := by
      rw [confVarBlockPush, if_neg (by exact_mod_cast hd)]
    have hlen : n + (Body.block head inner rest).lines.length =
        n + 1 + inner.lines.length + 1 + rest.lines.length := by
      rw [Body.lines, List.length_cons, List.length_append, List.length_cons]
      omega
    rw [hlen, Body.loaded, Body.lines, parseLines]
    refine
      (opened_agrees head h (h.given junk hd) hρ (h0 _ List.mem_cons_self)).bind fun w₁ st₁ h₁ => ?_
    rw [hpush] at h₁
    rw [parseLines_append]
    have hρ' : Sees ρ (.spec d :: V) := fun y hy => hρ y hy
    refine (ihi (Nat.succ_ne_zero d) hi hρ' h₁).bind ?_
    rintro w₂ st₂ ⟨ds, h₂⟩
    rw [parseLines]
    refine (closed_agrees table junk h₂).bind fun w₃ st₃ h₃ => ?_
    rw [defined, pop_block] at h₃
    exact ihr hd hr hρ h₃

theorem Loads.outer (h : Loads V 0 n w st) (ctx : Option κ) :
    Loads V 0 n { w with ctx := ctx } st :=
  ⟨h.env, h.vars, h.parsed, h.len, h.block, h.outside, fun hne => absurd rfl hne⟩

/-- An outermost block, where the uninitialised local does not happen to point into the pool. -/
theorem block_agrees (b : Block) (h0 : ∀ t ∈ b.lines, 0 ∉ t)
    (hjunk : ∀ i, (junk n).curr_ctx ≠ .block i)
    (h : Loads [] 0 n w st) :
    Logged.Agrees (Loads [] 0 (n + b.lines.length)) (b.loaded table junk n w.env)
      (parseLines table junk b.lines st) := by
  have hnone : Sees (fun _ => none) [] := fun _ _ => rfl
  have hstart : startCtx st.conf (currCtx (junk st.parsed) st.conf) = junkCtx
    (junk n).curr_ctx := by
    unfold currCtx
    rw [h.outside rfl, h.parsed]
    cases hj : (junk n).curr_ctx with
    | block i => exact absurd hj (hjunk i)
    | null | other d | wild => rfl
  have hlen : n + b.lines.length = n + 1 + b.inner.lines.length + 1 := by
    rw [Block.lines, List.length_cons, List.length_append, List.length_singleton]
    omega
  rw [hlen, Block.loaded, Block.lines, parseLines]
  cases hctx : junkCtx (junk n).curr_ctx with
  | error f =>
    rw [hctx] at hstart
    unfold loadParse confParseLine
    rw [if_neg (text_head b.head _), hstart]
    exact .fail [] f
  | ok ctx =>
    rw [Logged.logged_bind, Body.loaded]
    refine (opened_agrees b.head (h.outer ctx) (hstart.trans hctx) hnone
      (h0 _ List.mem_cons_self)).bind fun w₁ st₁ h₁ => ?_
    rw [parseLines_append]
    refine (body_agrees b.inner (Nat.succ_ne_zero 0)
      (fun t ht => h0 t (List.mem_cons_of_mem _ (List.mem_append_left _ ht)))
      (fun y _ => rfl) h₁).bind ?_
    rintro w₂ st₂ ⟨ds, h₂⟩
    have hclosed := closed_agrees table junk h₂
    rw [show confVarBlockPop (defined ds ++ confVarBlockPush (0 : ℕ) []) =
      [] from pop_block ds 0 []] at hclosed
    rw [parseLines, show parseLines table junk [] = Logged.ok from rfl, Logged.bind_ok,
      show Body.loaded table junk .done _ _ = Logged.ok from rfl, Logged.bind_ok]
    exact hclosed

/-- Between two outermost blocks only the state of the callbacks counts. -/
theorem file_agrees (bs : List Block) (h0 : ∀ t ∈ bs.flatMap Block.lines, 0 ∉ t)
    (hjunk : ∀ k i, (junk k).curr_ctx ≠ .block i) {env : ε} (h : Loads [] 0 n ⟨env, none⟩ st) :
    Logged.Agrees (fun env' st' => ∃ n', Loads [] 0 n' ⟨env',
      none⟩ st') (fileLoaded table junk bs n env)
      (parseLines table junk (bs.flatMap Block.lines) st) := by
  induction bs generalizing n env st with
  | nil => exact .ok [] ⟨n, h⟩
  | cons b bs ih =>
    rw [List.flatMap_cons] at h0 ⊢
    rw [fileLoaded, parseLines_append]
    refine (block_agrees b (fun t ht =>
      h0 t (List.mem_append_left _ ht)) (hjunk _) h).bind fun w' st' h' => ?_
    exact ih (fun t ht => h0 t (List.mem_append_right _ ht)) (h'.outer none)

def Skipped (l : Bytes) : Prop := lineText l = [] ∨ (body l).head? = some HASH

instance (l : Bytes) : Decidable (Skipped l) := inferInstanceAs (Decidable (_ ∨ _))

def parsedLines (ls : List Bytes) : List Bytes := (ls.filter fun l => ¬ Skipped l).map body

theorem loadLines_parsed (ls : List Bytes) (st : LoadState ε κ) :
    loadLines table junk ls st = parseLines table junk (parsedLines ls) st := by
  induction ls generalizing st with
  | nil => rfl
  | cons l ls ih =>
    by_cases hskip : Skipped l
    · rw [loadLines_skip (loadLine_skip hskip), parsedLines,
        List.filter_cons_of_neg (by simpa using hskip)]
      exact ih st
    · have hline : loadLine table junk l st = loadParse table junk (body l) st := by
        rw [loadLine_eq]
        exact if_neg hskip
      rw [parsedLines, List.filter_cons_of_pos (by simpa using hskip), List.map_cons, parseLines,
        loadLines, hline]
      cases loadParse table junk (body l) st with
      | mk calls r =>
        cases r with
        | error f => rfl
        | ok st' =>
          dsimp only
          rw [ih st', Logged.logged_bind]
          rfl

theorem body_free (l : Bytes) : 0 ∉ body l := by
  intro h
  have hmem : (0 : UInt8) ∈ lineText l := (List.dropWhile_suffix _).subset h
  have := List.all_eq_true.1 (List.all_takeWhile (p := fun c => c != 0 && c != LF) (l := l)) 0 hmem
  simp at this

theorem Loads.end_eq (h : Loads V 0 n w st) : loadEnd st = .ok w.env := by
  rw [loadEnd, h.block, if_neg (by decide), h.env]

variable (table) in
theorem confLoad_loaded (env : ε) {bs : List Block} {ls : List Bytes} (hfit : ∀ l ∈ ls, Fits l)
    (hls : parsedLines ls = bs.flatMap Block.lines) (hjunk : ∀ k i, (junk k).curr_ctx ≠ .block i) :
    confLoad table junk env (fileText ls) = fileLoaded table junk bs 0 env := by
  have h0 : ∀ t ∈ bs.flatMap Block.lines, 0 ∉ t := by
    intro t ht
    rw [← hls] at ht
    obtain ⟨l, -, rfl⟩ := List.mem_map.1 ht
    exact body_free l
  have hagree : Logged.Agrees _ (fileLoaded table junk bs 0 env) _ :=
    file_agrees bs h0 hjunk (loads_start env)
  rw [confLoad, loadLines_file hfit, loadLines_parsed, hls]
  generalize fileLoaded table junk bs 0 env = m at hagree
  generalize parseLines table junk (bs.flatMap Block.lines) (loadStart env) = m' at hagree
  cases hagree with
  | fail log f => rfl
  | ok log h =>
    obtain ⟨n, h⟩ := h
    exact congrArg (Prod.mk log) h.end_eq

end File

section Straight

end Straight

section Meaning

theorem word_main : ascii "main" ≠ [] ∧ Plain (ascii "main") := by decide

end Meaning

end Plume.Conf
