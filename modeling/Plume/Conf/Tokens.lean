import Plume.Conf.Directive
import Plume.Str

/-! The words of a directive: what `plm_conf_parse_ins` cuts a line into, and what the command gets
of it. -/

namespace Plume.Conf
open CLib

/-- None of the bytes that mean something to `plm_conf_parse_ins` occurs in `w`. -/
def Plain (w : Bytes) : Prop := ∀ c ∈ w, c ≠ SP ∧ c ≠ LBRACE ∧ c ≠ RBRACE ∧ c ≠ DOLLAR

instance (w : Bytes) : Decidable (Plain w) :=
  (List.decidableBAll (fun c => c ≠ SP ∧ c ≠ LBRACE ∧ c ≠ RBRACE ∧ c ≠ DOLLAR) w :
    Decidable (∀ c ∈ w, c ≠ SP ∧ c ≠ LBRACE ∧ c ≠ RBRACE ∧ c ≠ DOLLAR))

abbrev PlainWord := { w : Bytes // w ≠ [] ∧ Plain w }

/-- A word behind the first: itself, or a variable. -/
inductive Word
  | plain (w : PlainWord)
  | var (x : PlainWord)

namespace Word

def text : Word → Bytes
  | plain w => w
  | var x => DOLLAR :: x

def value (vars : List VarElem) : Word → Option Bytes
  | plain w => some w
  | var x => confGetVarValue vars x

end Word

/-- Words, each behind one space and `gap` more. -/
def wordsText (ws : List (ℕ × Word)) : Bytes :=
  ws.flatMap fun w => List.replicate (w.1 + 1) SP ++ w.2.text

/-- A directive: its words, and `trail` spaces behind the last. -/
structure WordLine where
  name : PlainWord
  words : List (ℕ × Word)
  trail : ℕ

def WordLine.text (d : WordLine) : Bytes :=
  d.name ++ (wordsText d.words ++ List.replicate d.trail SP)

section Loop

variable {ε κ : Type} {table : ε → List (Cmd ε κ)} {vars : List VarElem} {line r : Bytes} {i n : ℕ}
  {stat : Stat} {s : Ins ε κ} {ctx : Option κ} {env : ε} {name : Bytes} {params : List Bytes}

theorem plain_char (w : PlainWord) : ∀ c ∈ w.1, confParseStateIns c = .char := by
  intro c hc
  obtain ⟨h1, h2, h3, h4⟩ := w.2.2 c hc
  rw [confParseStateIns, if_neg h1, if_neg h2, if_neg h3, if_neg h4]

structure Pushed (name : Bytes) (params : List Bytes) (ctx : Option κ) (env : ε) (s : Ins ε κ) :
    Prop where
  cl : s.cl = ⟨true, some name, params⟩
  ctx : s.ctx = ctx
  env : s.env = env
  calls : s.calls = []

structure AtEnd (table : ε → List (Cmd ε κ)) (vars : List VarElem) (name : Bytes)
    (params : List Bytes)
    (ctx : Option κ) (env : ε) (line : Bytes) (i : ℕ) (s : Ins ε κ) : Prop where
  last : s.last = .char
  push : ∃ s', insPush table vars line i s = .ok s' ∧ Pushed name params ctx env s' ∧ s'.var = false

theorem stateIns_dollar : confParseStateIns DOLLAR = .var := rfl

theorem insLoop_gap (h : AtEnd table vars name params ctx env line i s) (stat : Stat) (n : ℕ)
    (r : Bytes) :
    ∃ s', s'.last = .space ∧ s'.var = false ∧ Pushed name params ctx env s' ∧
      insLoop table vars line stat (List.replicate (n + 1) SP ++ r) i s =
        insLoop table vars line .space r (i + (n + 1)) s' := by
  obtain ⟨s', hpush, hs, hvar⟩ := h.push
  refine ⟨{ s' with last := .space }, rfl, hvar, ⟨hs.cl, hs.ctx, hs.env, hs.calls⟩, ?_⟩
  rw [List.replicate_succ, List.cons_append, insLoop, stateIns_sp]
  simp only [insStep, h.last, hpush, reduceCtorEq, or_self, if_false, Except.map]
  rw [insLoop_skip (.inl rfl), Nat.add_assoc, Nat.add_comm 1 n]

theorem insPush_plain (hvar : s.var = false) :
    insPush table vars line i s = confCmdLinePush table (slice line s.beg (i - s.beg)) s := by
  unfold insPush
  rw [if_neg (by rw [hvar]; exact Bool.false_ne_true)]

theorem insPush_var {v : Bytes} (hvar : s.var = true)
    (hv : confGetVarValue vars (slice line s.beg (i - s.beg)) = some v) :
    insPush table vars line i s =
      (confCmdLinePush table v s).map fun s => { s with var := false } := by
  unfold insPush
  rw [if_pos hvar, hv]

variable (table) in
theorem push_param (hs : Pushed name params ctx env s) (token : Bytes) :
    ∃ s', confCmdLinePush table token s = .ok s' ∧ Pushed name (params ++ [token]) ctx env s' ∧
      s'.var = s.var := by
  rw [confCmdLinePush, hs.cl, if_pos rfl]
  exact ⟨_, rfl, ⟨rfl, hs.ctx, hs.env, hs.calls⟩, rfl⟩

/-- The bytes of a word, from the first of them on. -/
theorem insLoop_begin (w : PlainWord) (hlast : s.last = .space ∨ s.last = .var) :
    insLoop table vars line stat (w ++ r) i s =
      insLoop table vars line .char r (i + w.1.length) { s with beg := i, last := .char } := by
  have hchar := plain_char w
  obtain ⟨w, hne, hw⟩ := w
  obtain ⟨c, w, rfl⟩ := List.exists_cons_of_ne_nil hne
  have hstep : insStep table vars line i .char s = .ok { s with beg := i, last := .char } := by
    rcases hlast with h | h <;> simp [insStep, h]
  rw [List.cons_append, insLoop, hchar c List.mem_cons_self, hstep]
  dsimp only
  rw [insLoop_inside table vars line r (fun c hc => hchar c (List.mem_cons_of_mem _ hc)) rfl,
    List.length_cons, Nat.add_right_comm, Nat.add_assoc]

theorem insLoop_wordText (hs : Pushed name params ctx env s) (hlast : s.last = .space)
    (hvar : s.var = false)
    (w : Word) {v pre : Bytes} (hv : w.value vars = some v) (hline : line = pre ++ w.text ++ r)
    (hi : i = pre.length) :
    ∃ s', AtEnd table vars name (params ++ [v]) ctx env line (i + w.text.length) s' ∧
      insLoop table vars line .space (w.text ++ r) i s =
        insLoop table vars line .char r (i + w.text.length) s' := by
  cases w with
  | plain w =>
    refine ⟨{ s with beg := i, last := .char }, ⟨rfl, ?_⟩, insLoop_begin w (.inl hlast)⟩
    have htoken : slice line i (i + w.1.length - i) = v := by
      cases hv
      exact slice_split hline hi (Nat.add_sub_cancel_left _ _)
    have hs₁ : Pushed name params ctx env { s with beg := i, last := .char } :=
      ⟨hs.cl, hs.ctx, hs.env, hs.calls⟩
    obtain ⟨s', hpush, hs', hvar'⟩ := push_param table hs₁ v
    refine ⟨s', ?_, hs', hvar'.trans hvar⟩
    rw [insPush_plain (s := { s with beg := i, last := .char }) hvar]
    rw [← htoken] at hpush
    exact hpush
  | var x =>
    refine ⟨{ s with beg := i + 1, var := true, last := .char }, ⟨rfl, ?_⟩, ?_⟩
    · have htoken : slice line (i + 1) (i + (x.1.length + 1) - (i + 1)) = x := by
        refine slice_split (l := pre ++ [DOLLAR]) (r := r) ?_ ?_ (by omega)
        · rw [hline, Word.text, List.append_assoc pre [DOLLAR], List.singleton_append]
        · rw [hi, List.length_append, List.length_singleton]
      have hs₁ : Pushed name params ctx env { s with beg := i + 1, var := true, last := .char } :=
        ⟨hs.cl, hs.ctx, hs.env, hs.calls⟩
      obtain ⟨s', hpush, hs', -⟩ := push_param table hs₁ v
      refine ⟨{ s' with var := false }, ?_, ⟨hs'.cl, hs'.ctx, hs'.env, hs'.calls⟩, rfl⟩
      rw [insPush_var rfl ((congrArg _ htoken).trans hv), hpush]
      rfl
    · have hdollar : insStep table vars line i .var s =
        .ok { s with var := true, last := .var } := by
        simp [insStep, hlast]
      rw [Word.text, List.cons_append, insLoop, stateIns_dollar, hdollar]
      dsimp only
      rw [insLoop_begin x (.inr rfl), List.length_cons, Nat.add_assoc, Nat.add_comm 1]

/-- The end of a line, behind the end of a word and any spaces. -/
theorem insLoop_trail (h : AtEnd table vars name params ctx env line i s) (hi : i ≠ 0) (trail : ℕ) :
    ∃ s', insLoop table vars line .char (List.replicate trail SP) i s = .ok (.lineEnd, s') ∧
      Pushed name params ctx env s' := by
  cases trail with
  | zero =>
    obtain ⟨s', hpush, hs, -⟩ := h.push
    refine ⟨s', ?_, hs⟩
    rw [List.replicate_zero, insLoop, if_neg (by simp [hi])]
    simp only [insStep, h.last, if_true, hpush, Except.map]
  | succ n =>
    obtain ⟨s', hlast, -, hs, hloop⟩ := insLoop_gap h .char n []
    rw [List.append_nil] at hloop
    refine ⟨s', ?_, hs⟩
    rw [hloop, insLoop, if_neg (by simp)]
    simp [insStep, hlast, Except.map]

theorem wordsText_cons (w : ℕ × Word) (ws : List (ℕ × Word)) :
    wordsText (w :: ws) = List.replicate (w.1 + 1) SP ++ (w.2.text ++ wordsText ws) := by
  rw [wordsText, List.flatMap_cons, List.append_assoc]
  rfl

/-- The rest of a line, from the end of a word on. -/
theorem insLoop_words (ws : List (ℕ × Word)) (trail : ℕ) {vs : List Bytes} {pre : Bytes}
    (h : AtEnd table vars name params ctx env line i s)
    (hvs : ws.map (fun w => w.2.value vars) = vs.map some)
    (hline : line = pre ++ (wordsText ws ++ List.replicate trail SP)) (hi : i = pre.length)
    (hne : i ≠ 0) :
    ∃ s', insLoop table vars line .char (wordsText ws ++ List.replicate trail SP) i s = .ok
      (.lineEnd, s') ∧
      Pushed name (params ++ vs) ctx env s' := by
  induction ws generalizing vs pre params i s with
  | nil =>
    obtain rfl : vs = [] := by simpa using hvs.symm
    rw [List.append_nil]
    exact insLoop_trail h hne trail
  | cons w ws ih =>
    obtain ⟨v, vs, rfl, hv, hvs⟩ : ∃ v vs', vs = v :: vs' ∧ w.2.value vars = some v ∧
        ws.map (fun w => w.2.value vars) = vs'.map some := by
      cases vs with
      | nil => cases hvs
      | cons v vs =>
        rw [List.map_cons, List.map_cons, List.cons.injEq] at hvs
        exact ⟨v, vs, rfl, hvs.1, hvs.2⟩
    rw [wordsText_cons, List.append_assoc, List.append_assoc] at hline ⊢
    obtain ⟨s₁, hlast, hvar, hs₁, h₁⟩ :=
      insLoop_gap h .char w.1 (w.2.text ++ (wordsText ws ++ List.replicate trail SP))
    have hline₁ : line = pre ++ List.replicate (w.1 + 1) SP ++ w.2.text ++
        (wordsText ws ++ List.replicate trail SP) := by
      rw [hline]
      simp only [List.append_assoc]
    have hi₁ : i + (w.1 + 1) = (pre ++ List.replicate (w.1 + 1) SP).length := by
      rw [hi, List.length_append, List.length_replicate]
    obtain ⟨s₂, hs₂, h₂⟩ := insLoop_wordText hs₁ hlast hvar w.2 hv hline₁ hi₁
    have hi₂ : i +
      (w.1 + 1) + w.2.text.length = (pre ++ List.replicate (w.1 + 1) SP ++ w.2.text).length := by
      rw [hi₁, ← List.length_append]
    rw [h₁, h₂, ← List.singleton_append, ← List.append_assoc params]
    exact ih hs₂ hvs hline₁ hi₂ (by omega)

end Loop

section Line

variable {ε κ : Type} {table : ε → List (Cmd ε κ)} {vars : List VarElem} {env : ε} {cmd : Cmd ε κ}
  {f : Option κ → List Bytes → ε → ℤ × ε} {params : List Bytes} {ctx : Option κ}

theorem insLoop_name (d : WordLine) (stat : Stat) (cl : CmdLine) :
    insLoop table vars d.text stat d.text 0 (Ins.start ctx env cl) =
      insLoop table vars d.text .char
        (wordsText d.words ++ List.replicate d.trail SP) d.name.1.length
        { Ins.start ctx env cl with last := .char } :=
  insLoop_first table vars d.text _ stat (plain_char d.name) d.name.2.1 rfl

theorem name_push (d : WordLine) (cl : CmdLine) :
    insPush table vars d.text d.name.1.length { Ins.start ctx env cl with last := .char } =
      confCmdLinePush table d.name { Ins.start ctx env cl with last := .char } := by
  have htoken : slice d.text 0 (d.name.1.length - 0) = d.name := slice_split (l := []) rfl rfl rfl
  rw [insPush_plain rfl]
  exact congrArg (fun token => confCmdLinePush table token _) htoken

/-- The name of an instruction is stored, where there is a context. -/
theorem name_atEnd (d : WordLine) {c : κ} (hcmd : pluginCmdSearch (table env) d.name = some cmd)
    (htype : cmd.c_type = .instruction) (name : Option Bytes) (old : List Bytes) :
    AtEnd table vars d.name [] (some c) env d.text d.name.1.length
      { Ins.start (some c) env ⟨false, name, old⟩ with last := .char } := by
  refine ⟨rfl, { Ins.start (some c) env ⟨true, some d.name, []⟩ with last := .char }, ?_,
    ⟨rfl, rfl, rfl, rfl⟩, rfl⟩
  rw [name_push, confCmdLinePush, if_neg (by exact Bool.false_ne_true)]
  simp [Ins.start, hcmd, htype]

theorem name_refused (d : WordLine) (hcmd : pluginCmdSearch (table env) d.name = some cmd)
    (htype : cmd.c_type = .instruction) (name : Option Bytes) (old : List Bytes) :
    insPush table vars d.text d.name.1.length
        { Ins.start (none : Option κ) env ⟨false, name, old⟩ with last := .char } =
      .error { Ins.start none env ⟨true, some d.name, []⟩ with last := .char } := by
  rw [name_push, confCmdLinePush, if_neg (by exact Bool.false_ne_true)]
  simp [Ins.start, hcmd, htype]

/-- A word that is refused ends the line, where nothing but spaces can stand behind it. -/
theorem insLoop_refused {line : Bytes} {i : ℕ} {s s' : Ins ε κ} (hs : s.last = .char) (hi : i ≠ 0)
    (hpush : insPush table vars line i s = .error s') (ws : List (ℕ × Word)) (trail : ℕ) :
    insLoop table vars line .char (wordsText ws ++ List.replicate trail SP) i s = .error s' := by
  have hgap : ∀ n r, insLoop table vars line .char
    (List.replicate (n + 1) SP ++ r) i s = .error s' := by
    intro n r
    rw [List.replicate_succ, List.cons_append, insLoop, stateIns_sp]
    simp [insStep, hs, hpush, Except.map]
  cases ws with
  | cons w ws =>
    rw [wordsText_cons, List.append_assoc]
    exact hgap _ _
  | nil =>
    cases trail with
    | succ n =>
      have h := hgap n []
      rwa [List.append_nil] at h
    | zero =>
      rw [wordsText, List.flatMap_nil, List.replicate_zero, List.append_nil, insLoop,
        if_neg (by simp [hi])]
      simp [insStep, hs, hpush, Except.map]

/-- The line has its instruction set once, in the context given and with these parameters, and
returns as the callback does. -/
def SetsOnce (table : ε → List (Cmd ε κ)) (j : Junk κ) (vars : List VarElem) (line : Bytes)
    (ctx : Option κ)
    (env : ε) (cmd : Cmd ε κ) (f : Option κ → List Bytes → ε → ℤ × ε)
    (params : List Bytes) : Prop :=
  ∃ s, confParseIns table j vars line ctx env =
      .ok (if (f ctx params env).1 = 0 then .lineEnd else .invalid, s) ∧
    s.calls = [.setCmd cmd.c_name ctx params] ∧ s.ctx = ctx ∧ s.env = (f ctx params env).2

theorem setCmd_pushed {name : Bytes} {s : Ins ε κ} (hs : Pushed name params ctx env s)
    (hcmd : pluginCmdSearch (table env) name = some cmd) (hset : cmd.c_set_cmd = some f) :
    ∃ s', confSetCmd table s = .ok ((f ctx params env).1, s') ∧
      s'.calls = [.setCmd cmd.c_name ctx params] ∧ s'.ctx = ctx ∧
        s'.env = (f ctx params env).2 := by
  have hs' : { s with env := (f ctx params env).2, calls := [.setCmd cmd.c_name ctx params] } =
      ({ s with env := (f ctx params env).2, calls := s.calls ++
        [.setCmd cmd.c_name ctx params] } : Ins ε κ) := by
    rw [hs.calls, List.nil_append]
  refine ⟨{ s with env := (f ctx params env).2, calls := [.setCmd cmd.c_name ctx params] }, ?_, rfl,
    hs.ctx, rfl⟩
  rw [hs', confSetCmd, hs.cl]
  dsimp only
  rw [hs.env, hcmd]
  dsimp only
  rw [hset, hs.ctx]

end Line

/-- A line of words whose first names an instruction: where there is a current context, the
instruction is set once, with a parameter for each of the other words; without one the line is
refused and nothing is called. -/
theorem directive_set {ε κ : Type} (table : ε → List (Cmd ε κ)) (j : Junk κ) (vars : List VarElem)
    (d : WordLine)
    (ctx : Option κ) (env : ε) (cmd : Cmd ε κ) (f : Option κ → List Bytes → ε → ℤ × ε)
    (params : List Bytes)
    (hcmd : pluginCmdSearch (table env) d.name = some cmd) (htype : cmd.c_type = .instruction)
    (hset : cmd.c_set_cmd = some f)
    (hparams : d.words.map (fun w => w.2.value vars) = params.map some) :
    (ctx ≠ none → SetsOnce table j vars d.text ctx env cmd f params) ∧
      (ctx = none →
        ∃ s, confParseIns table j vars d.text ctx env = .ok (.invalid, s) ∧ s.calls = [] ∧
        s.env = env) := by
  have hne : d.name.1.length ≠ 0 := fun h => d.name.2.1 (List.length_eq_zero_iff.1 h)
  have hparse : confParseIns table j vars d.text ctx env = insEnd table
    (insLoop table vars d.text .char
      (wordsText d.words ++ List.replicate d.trail SP) d.name.1.length
        { Ins.start ctx env ⟨false, j.cl_name, j.cl_params⟩ with last := .char }) :=
    congrArg _ (insLoop_name d j.stat _)
  constructor
  · intro hctx
    obtain ⟨c, rfl⟩ := Option.ne_none_iff_exists'.1 hctx
    obtain ⟨s, hloop, hs⟩ :=
      insLoop_words d.words d.trail (name_atEnd d hcmd htype j.cl_name j.cl_params) hparams
      rfl rfl hne
    obtain ⟨s', hcall, hcalls, hctx', henv⟩ := setCmd_pushed hs hcmd hset
    refine ⟨s', ?_, hcalls, hctx', henv⟩
    rw [hparse, hloop, insEnd, hcall]
    by_cases hrc : (f (some c) params env).1 = 0
    · simp [hrc]
    · simp [hrc]
  · rintro rfl
    refine ⟨{ Ins.start none env ⟨true, some d.name, []⟩ with last := .char }, ?_, rfl, rfl⟩
    rw [hparse,
      insLoop_refused rfl hne (name_refused d hcmd htype j.cl_name j.cl_params) d.words d.trail]
    rfl

def setIns : Cmd (List Bytes) ℕ where
  c_name := ascii "set"
  c_type := .instruction
  c_set_cmd := some fun _ params _ => (0, params)
  c_create_ctx ctx env := (ctx, env)

def setLine : WordLine where
  name := ⟨ascii "set", by decide⟩
  words := [(1, .plain ⟨ascii "a", by decide⟩), (0, .var ⟨ascii "v", by decide⟩)]
  trail := 1

def setVars : List VarElem := [.data ⟨ascii "v", by decide⟩ (ascii "b c")]

def noJunk : Junk ℕ := ⟨.null, none, [], .null, .null⟩

theorem directive_set_two :
    ∃ s, confParseIns (fun _ => [setIns]) noJunk setVars setLine.text (some 0) [] =
    .ok (.lineEnd, s) ∧ s.calls = [.setCmd (ascii "set") (some 0) [ascii "a", ascii "b c"]] := by
  have h := directive_set (fun _ => [setIns]) noJunk setVars setLine (some 0) [] setIns
    (fun _ params _ => (0, params)) [ascii "a", ascii "b c"] (by rfl) rfl rfl (by rfl)
  obtain ⟨s, hs, hcalls, -⟩ := h.1 (by simp)
  exact ⟨s, hs, hcalls⟩

def namedWith (c : UInt8) : Bytes := [97, c, 98]

def braceVars : List VarElem := [.data ⟨namedWith LBRACE, by decide⟩ (ascii "v")]

/-- Without a context the instruction is not set; with one, a brace ends the name of a variable, and
a dollar is refused in the name of an instruction. -/
theorem directive_not_set :
    (¬ ∀ (vars : List VarElem) (d : WordLine) (ctx : Option ℕ) (params : List Bytes),
    pluginCmdSearch [setIns] d.name = some setIns →
      d.words.map (fun w => w.2.value vars) = params.map some →
        SetsOnce (fun _ => [setIns]) noJunk vars d.text ctx [] setIns
          (fun _ params _ => (0, params)) params) ∧
    (confGetVarValue braceVars (namedWith LBRACE) = some (ascii "v") ∧
      (confParseIns (fun _ => [setIns]) noJunk braceVars (ascii "set $" ++
        namedWith LBRACE) (some 0) []).map (·.1) =
        .ok .invalid) ∧
    (confParseIns (fun _ =>
      [{ setIns with c_name := namedWith DOLLAR }]) noJunk [] (namedWith DOLLAR) (some 0)
      []).map (·.1) = .ok .invalid := by
  refine ⟨fun h => ?_, ⟨by rfl, by rfl⟩, by rfl⟩
  obtain ⟨s, hs, -⟩ := h setVars setLine none [ascii "a", ascii "b c"] (by rfl) (by rfl)
  have hrun : (confParseIns (fun _ => [setIns]) noJunk setVars setLine.text none []).map (·.1) =
      .ok .invalid := by rfl
  rw [hs] at hrun
  cases hrun

end Plume.Conf
