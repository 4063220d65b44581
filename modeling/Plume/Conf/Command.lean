import Plume.Conf.Tree

/-! A line that names a command, with or without a `{` behind it: what `plm_conf_parse_ins` makes
of it, whatever the command is and whether or not the line is refused. -/

namespace Plume.Conf
open CLib

variable {ε κ : Type} {table : ε → List (Cmd ε κ)} {vars : List VarElem} {line r : Bytes} {i : ℕ}
  {s s' : Ins ε κ} {name : Bytes} {ρ : Env} {m : Logged (Call κ) Fault (List Bytes × World ε κ)}

structure Gathered (name : Bytes) (params : List Bytes) (w : World ε κ) (s : Ins ε κ) : Prop where
  cl : s.cl = ⟨true, some name, params⟩
  ctx : s.ctx = w.ctx
  env : s.env = w.env
  var : s.var = false

/-- What pushing a word does, as a computation. -/
inductive Pushes (name : Bytes) :
    Logged (Call κ) Fault (List Bytes × World ε κ) → Except (Ins ε κ) (Ins ε κ) → Prop
  | stored {params : List Bytes} {w : World ε κ} {s : Ins ε κ} :
    Gathered name params w s → Pushes name (s.calls, .ok (params, w)) (.ok s)
  | refused (s : Ins ε κ) : Pushes name (s.calls, .error .abort) (.error s)

inductive Loops (name : Bytes) (opens : Bool) :
    Logged (Call κ) Fault (List Bytes × World ε κ) → Except (Ins ε κ) (Stat × Ins ε κ) → Prop
  | through {params : List Bytes} {w : World ε κ} {s : Ins ε κ} : Gathered name params w s →
    Loops name opens (s.calls, .ok (params, w)) (.ok (if opens then .blockBeg else .lineEnd, s))
  | refused (s : Ins ε κ) : Loops name opens (s.calls, .error .abort) (.error s)

section Loop

theorem insLoop_space (hl : s.last = .char) (stat : Stat) (n : ℕ) (r : Bytes) :
    insLoop table vars line stat (List.replicate (n + 1) SP ++ r) i s =
      match insPush table vars line i s with
      | .error s' => .error s'
      | .ok s' => insLoop table vars line .space r (i + (n + 1)) { s' with last := .space } := by
  rw [List.replicate_succ, List.cons_append, insLoop, stateIns_sp]
  simp only [insStep, hl, reduceCtorEq, or_self, if_false]
  cases insPush table vars line i s with
  | error s' => rfl
  | ok s' =>
    simp only [Except.map]
    rw [insLoop_skip (.inl rfl), Nat.add_assoc, Nat.add_comm 1 n]

theorem gathered_last {params : List Bytes} {w : World ε κ} (h : Gathered name params w s)
    (last : Stat) :
    Gathered name params w { s with last := last } := ⟨h.cl, h.ctx, h.env, h.var⟩

/-- The end of a line, behind the spaces that end a word. -/
theorem insLoop_tail {params : List Bytes} {w : World ε κ} (hs : Gathered name params w s)
    (hl : s.last = .space)
    (hi : i ≠ 0) (opens : Bool) :
    Loops name opens (s.calls, .ok (params, w))
      (insLoop table vars line .space (brace opens) i s) := by
  cases opens with
  | false =>
    have hloop : insLoop table vars line .space (brace false) i s = .ok (.lineEnd, s) := by
      rw [brace, if_neg Bool.false_ne_true, insLoop, if_neg (by simp [hi])]
      simp [insStep, hl, Except.map]
    rw [hloop]
    exact .through hs
  | true =>
    have hloop : insLoop table vars line .space (brace true) i s = .ok
      (.blockBeg, { s with last := .blockBeg }) := by
      rw [brace, if_pos rfl, insLoop, stateIns_lbrace]
      simp [insStep, hl, insLoop]
    rw [hloop]
    exact .through (gathered_last hs .blockBeg)

/-- The end of a line, behind a word and `trail` spaces. -/
theorem insLoop_ends {x : Except (Ins ε κ) (Ins ε κ)} (hl : s.last = .char)
    (hpush : insPush table vars line i s = x)
    (hx : Pushes name m x) (hi : i ≠ 0) (trail : ℕ) (opens : Bool) :
    Loops name opens m
      (insLoop table vars line .char (List.replicate trail SP ++ brace opens) i s) := by
  cases trail with
  | succ n =>
    rw [insLoop_space hl, hpush]
    cases hx with
    | refused s' => exact .refused s'
    | stored hs => exact insLoop_tail (gathered_last hs .space) rfl (by omega) opens
  | zero =>
    rw [List.replicate_zero, List.nil_append]
    cases opens with
    | false =>
      rw [brace, if_neg Bool.false_ne_true, insLoop, if_neg (by simp [hi])]
      simp only [insStep, hl, if_true, hpush]
      cases hx with
      | refused s' => exact .refused s'
      | stored hs => exact .through hs
    | true =>
      rw [brace, if_pos rfl, insLoop, stateIns_lbrace]
      simp only [insStep, hl, if_true, hpush]
      cases hx with
      | refused s' => exact .refused s'
      | stored hs =>
        simp only [Except.map]
        rw [insLoop, if_pos (.inr (.inl rfl))]
        exact .through (gathered_last hs .blockBeg)

/-- A parameter, or the variable that gives it. -/
def paramMeaning (ρ : Env) (word : Word) (p : List Bytes × World ε κ) :
    Logged (Call κ) Fault (List Bytes × World ε κ) :=
  match word.meaning ρ with
  | none => .fail .abort
  | some v => .ok (p.1 ++ [v], p.2)

theorem push_gathered {params : List Bytes} {w : World ε κ} (hs : Gathered name params w s)
    (token : Bytes) :
    confCmdLinePush table token s = .ok { s with cl := ⟨true, some name, params ++ [token]⟩ } := by
  rw [confCmdLinePush, hs.cl, if_pos rfl]

theorem insLoop_param {params : List Bytes} {w : World ε κ} (hs : Gathered name params w s)
    (hl : s.last = .space)
    (word : Word) {pre : Bytes} (hv : word.value vars = word.meaning ρ)
    (hline : line = pre ++ word.text ++ r)
    (hi : i = pre.length) :
    ∃ s' x, s'.last = .char ∧ insPush table vars line (i + word.text.length) s' = x ∧
      Pushes name (Logged.bind (s.calls, .ok (params, w)) (paramMeaning ρ word)) x ∧
      insLoop table vars line .space (word.text ++ r) i s =
        insLoop table vars line .char r (i + word.text.length) s' := by
  cases word with
  | plain t =>
    refine ⟨{ s with beg := i, last := .char }, _, rfl, rfl, ?_, insLoop_begin t (.inl hl)⟩
    have htoken : slice line i (i + t.1.length - i) = t :=
      slice_split hline hi (Nat.add_sub_cancel_left _ _)
    have hs₁ : Gathered name params w { s with beg := i, last := .char } :=
      ⟨hs.cl, hs.ctx, hs.env, hs.var⟩
    rw [insPush_plain hs₁.var]
    change Pushes name _ (confCmdLinePush table (slice line i (i + t.1.length - i)) _)
    have hs₂ : Gathered name (params ++ [t.1]) w
        { s with beg := i, last := .char, cl := ⟨true, some name, params ++ [t.1]⟩ } :=
          ⟨rfl, hs.ctx, hs.env, hs.var⟩
    rw [htoken, push_gathered hs₁, Logged.logged_bind]
    change Pushes name (s.calls ++ [], .ok (params ++ [t.1], w)) _
    rw [List.append_nil]
    exact .stored hs₂
  | var t =>
    refine ⟨{ s with beg := i + 1, var := true, last := .char }, _, rfl, rfl, ?_, ?_⟩
    · have htoken : slice line (i + 1) (i + (t.1.length + 1) - (i + 1)) = t := by
        refine slice_split (l := pre ++ [DOLLAR]) (r := r) ?_ ?_ (by omega)
        · rw [hline, Word.text, List.append_assoc pre [DOLLAR], List.singleton_append]
        · rw [hi, List.length_append, List.length_singleton]
      unfold insPush
      rw [if_pos rfl]
      change Pushes name _
        (match confGetVarValue vars (slice line (i + 1) (i + (t.1.length + 1) - (i + 1))) with
        | none => _
        | some v => _)
      rw [htoken, Logged.logged_bind, paramMeaning]
      rw [Word.value] at hv
      rw [hv]
      cases (Word.var t).meaning ρ with
      | none =>
        rw [Logged.fail, List.append_nil]
        exact .refused { s with beg := i + 1, var := true, last := .char }
      | some v =>
        have hstep : confCmdLinePush table v { s with beg := i + 1, var := true, last := .char } =
            .ok { s with beg := i + 1, var := true, last := .char, cl := ⟨true, some name,
              params ++ [v]⟩ } := by
          rw [confCmdLinePush, hs.cl, if_pos rfl]
        have hs' : Gathered name (params ++ [v]) w
            { s with beg := i + 1, var := false, last := .char, cl := ⟨true, some name,
              params ++ [v]⟩ } :=
          ⟨rfl, hs.ctx, hs.env, rfl⟩
        dsimp only
        rw [hstep, Logged.ok, List.append_nil]
        exact .stored hs'
    · have hdollar : insStep table vars line i .var s =
        .ok { s with var := true, last := .var } := by
        simp [insStep, hl]
      rw [Word.text, List.cons_append, insLoop, stateIns_dollar, hdollar]
      dsimp only
      rw [insLoop_begin t (.inr rfl), List.length_cons, Nat.add_assoc, Nat.add_comm 1]

def paramsMeaning (ρ : Env) (ws : List (ℕ × Word)) (p : List Bytes × World ε κ) :
    Logged (Call κ) Fault (List Bytes × World ε κ) :=
  match ws.mapM fun w => w.2.meaning ρ with
  | none => .fail .abort
  | some vs => .ok (p.1 ++ vs, p.2)

theorem paramsMeaning_nil (p : List Bytes × World ε κ) : paramsMeaning ρ [] p = .ok p := by
  rw [paramsMeaning, List.mapM_nil]
  exact congrArg Logged.ok (Prod.ext (List.append_nil p.1) rfl)

theorem paramsMeaning_cons (n : ℕ) (word : Word) (ws : List (ℕ × Word))
    (p : List Bytes × World ε κ) :
    paramsMeaning ρ ((n, word) :: ws) p = (paramMeaning ρ word p).bind (paramsMeaning ρ ws) := by
  unfold paramsMeaning paramMeaning
  rw [List.mapM_cons]
  cases word.meaning ρ with
  | none => rfl
  | some v =>
    dsimp only
    rw [Logged.ok_bind]
    cases ws.mapM fun w => w.2.meaning ρ with
    | none => rfl
    | some vs => exact congrArg Logged.ok (Prod.ext (List.append_cons p.1 v vs) rfl)

/-- The rest of a line, from the end of a word on. -/
theorem insLoop_params (ws : List (ℕ × Word)) (trail : ℕ) (opens : Bool) {pre : Bytes}
    {x : Except (Ins ε κ) (Ins ε κ)}
    (hl : s.last = .char) (hpush : insPush table vars line i s = x) (hx : Pushes name m x)
    (hρ : ∀ w ∈ ws, w.2.value vars = w.2.meaning ρ)
    (hline : line = pre ++ (wordsText ws ++ (List.replicate trail SP ++ brace opens)))
    (hi : i = pre.length) (hne : i ≠ 0) :
    Loops name opens (m.bind (paramsMeaning ρ ws))
      (insLoop table vars line .char (wordsText ws ++
        (List.replicate trail SP ++ brace opens)) i s) := by
  induction ws generalizing m x pre i s with
  | nil =>
    have hm : m.bind (paramsMeaning ρ []) = m := by
      rw [show paramsMeaning ρ [] = Logged.ok from funext paramsMeaning_nil, Logged.bind_ok]
    rw [hm]
    exact insLoop_ends hl hpush hx hne trail opens
  | cons word ws ih =>
    obtain ⟨n, word⟩ := word
    have hm : m.bind (paramsMeaning ρ ((n, word) :: ws)) =
        (m.bind (paramMeaning ρ word)).bind (paramsMeaning ρ ws) := by
      rw [Logged.bind_assoc]
      exact congrArg m.bind (funext (paramsMeaning_cons n word ws))
    rw [wordsText_cons, List.append_assoc, List.append_assoc] at hline ⊢
    rw [hm, insLoop_space hl, hpush]
    cases hx with
    | refused s' => exact .refused s'
    | @stored params w s' hs =>
      have hline₁ : line = pre ++ List.replicate (n + 1) SP ++ word.text ++
          (wordsText ws ++ (List.replicate trail SP ++ brace opens)) := by
        rw [hline]
        simp only [List.append_assoc]
      have hi₁ : i + (n + 1) = (pre ++ List.replicate (n + 1) SP).length := by
        rw [hi, List.length_append, List.length_replicate]
      obtain ⟨s₂, x₂, hl₂, hpush₂, hx₂, h₂⟩ := insLoop_param (gathered_last hs .space) rfl word
        (hρ (n, word) List.mem_cons_self) hline₁ hi₁
      dsimp only
      rw [h₂]
      refine ih hl₂ hpush₂ hx₂ (fun w hw => hρ w (List.mem_cons_of_mem _ hw)) hline₁ ?_ (by omega)
      rw [hi₁, ← List.length_append]

end Loop

section Set

variable {w : World ε κ}

inductive Sets : Logged (Call κ) Fault (World ε κ) → Except Fault (ℤ × Ins ε κ) → Prop
  | done {w : World ε κ} {s : Ins ε κ} : s.ctx = w.ctx → s.env = w.env →
    Sets (s.calls, .ok w) (.ok (0, s))
  | refused {rc : ℤ} (s : Ins ε κ) : rc ≠ 0 → Sets (s.calls, .error .abort) (.ok (rc, s))

theorem setCmd_sets (hname : s.cl.cl_name = some name) (hctx : s.ctx = w.ctx)
    (henv : s.env = w.env) :
    Sets (Logged.bind (s.calls, .ok w) (World.set table name s.cl.cl_params))
      (confSetCmd table s) := by
  obtain ⟨env, ctx⟩ := w
  obtain rfl : s.ctx = ctx := hctx
  obtain rfl : s.env = env := henv
  rw [Logged.logged_bind, World.set, confSetCmd, hname]
  dsimp only
  cases pluginCmdSearch (table s.env) name with
  | none =>
    rw [Logged.fail, List.append_nil]
    exact .refused s (by decide)
  | some cmd =>
    dsimp only
    cases cmd.c_set_cmd with
    | none =>
      rw [Logged.ok, List.append_nil]
      exact .done rfl rfl
    | some f =>
      set s' : Ins ε κ :=
        { s with
          env := (f s.ctx s.cl.cl_params s.env).2
          calls := s.calls ++ [.setCmd cmd.c_name s.ctx s.cl.cl_params] }
      dsimp only
      by_cases hrc : (f s.ctx s.cl.cl_params s.env).1 = 0
      · rw [if_pos hrc, hrc]
        exact .done (s := s') rfl rfl
      · rw [if_neg hrc]
        exact .refused s' hrc

inductive Parses (stat : Stat) : Logged (Call κ) Fault (World ε κ) → Stat × Ins ε κ → Prop
  | through {w : World ε κ} {s : Ins ε κ} : s.ctx = w.ctx → s.env = w.env →
    Parses stat (s.calls, .ok w) (stat, s)
  | refused (s : Ins ε κ) : Parses stat (s.calls, .error .abort) (.invalid, s)

theorem insEnd_sets {m : Logged (Call κ) Fault (World ε κ)} (hset : Sets m (confSetCmd table s))
    {stat : Stat}
    (hstat : braceOr stat = stat) : ∃ y, insEnd table
    (.ok (stat, s)) = .ok y ∧ Parses stat m y := by
  generalize hx : confSetCmd table s = x at hset
  cases hset with
  | done hctx henv =>
    refine ⟨_, ?_, .through hctx henv⟩
    unfold insEnd
    dsimp only
    rw [hx]
    exact congrArg (fun stat => Except.ok (stat, _)) hstat
  | refused s' hrc =>
    refine ⟨_, ?_, .refused s'⟩
    unfold insEnd
    dsimp only
    rw [hx, ok_bind]
    exact if_pos hrc

/-- The first word of a line pushed, where it names a command. -/
theorem push_found {ctx : Option κ} {env : ε} {cmd : Cmd ε κ}
    (hcmd : pluginCmdSearch (table env) name = some cmd)
    (old : Option Bytes) (params : List Bytes) :
    confCmdLinePush table name { Ins.start ctx env ⟨false, old, params⟩ with last := .char } =
      let s : Ins ε κ :=
        ⟨(cmd.named ctx env).1, (cmd.named ctx env).2.1, ⟨true, some name, []⟩, .char, 0, false,
        (cmd.named ctx env).2.2⟩
      if (cmd.named ctx env).1.isNone then .error s else .ok s := by
  rw [confCmdLinePush, if_neg (by exact Bool.false_ne_true)]
  simp only [Ins.start, hcmd]
  obtain ⟨c_name, c_type, c_set_cmd, c_create_ctx⟩ := cmd
  cases c_type with
  | block => rfl
  | instruction => rfl

theorem push_name (w : World ε κ) (name : Bytes) (old : Option Bytes) (params : List Bytes) :
    Pushes name ((w.name table name).bind fun w => .ok ([], w))
      (confCmdLinePush table name { Ins.start w.ctx w.env ⟨false, old,
        params⟩ with last := .char }) := by
  rw [World.name]
  cases hcmd : pluginCmdSearch (table w.env) name with
  | none =>
    rw [confCmdLinePush, if_neg (by exact Bool.false_ne_true)]
    simp only [Ins.start, hcmd]
    exact Pushes.refused (Ins.mk w.ctx w.env ⟨true, some name, []⟩ .char 0 false [])
  | some cmd =>
    rw [push_found hcmd]
    dsimp only
    generalize cmd.named w.ctx w.env = r
    obtain ⟨ctx, env, calls⟩ := r
    cases ctx with
    | none => exact Pushes.refused (Ins.mk none env ⟨true, some name, []⟩ .char 0 false calls)
    | some c =>
      set s : Ins ε κ := ⟨some c, env, ⟨true, some name, []⟩, .char, 0, false, calls⟩
      have hs : Gathered name [] ⟨env, some c⟩ s := ⟨rfl, rfl, rfl, rfl⟩
      change Pushes name (s.calls ++ [], .ok ([], ⟨env, some c⟩)) (.ok s)
      rw [List.append_nil]
      exact .stored hs

/-- A line that names a command does what it means. -/
theorem parseIns_directive (j : Junk κ) (d : WordLine) (opens : Bool) (w : World ε κ)
    (hρ : ∀ w ∈ d.words, w.2.value vars = w.2.meaning ρ) :
    ∃ y, confParseIns table j vars (d.text ++ brace opens) w.ctx w.env = .ok y ∧
      Parses (if opens then .blockBeg else .lineEnd) (w.directive table ρ d) y := by
  set start : Ins ε κ := Ins.start w.ctx w.env ⟨false, j.cl_name, j.cl_params⟩
  have htext : d.text ++ brace opens =
      d.name ++ (wordsText d.words ++ (List.replicate d.trail SP ++ brace opens)) := by
    rw [WordLine.text]
    simp only [List.append_assoc]
  have hfirst : insLoop table vars (d.text ++ brace opens) j.stat (d.text ++ brace opens) 0 start =
      insLoop table vars (d.text ++ brace opens) .char
        (wordsText d.words ++ (List.replicate d.trail SP ++ brace opens)) d.name.1.length
        { start with last := .char } := by
    rw [htext]
    exact insLoop_first table vars _ _ j.stat (plain_char d.name) d.name.2.1 rfl
  have hpush : insPush table vars
    (d.text ++ brace opens) d.name.1.length { start with last := .char } =
      confCmdLinePush table d.name { start with last := .char } := by
    have htoken : slice (d.text ++ brace opens) 0 (d.name.1.length - 0) = d.name :=
      slice_split (l := []) htext rfl rfl
    rw [insPush_plain rfl]
    exact congrArg (fun token => confCmdLinePush table token _) htoken
  have hloop := insLoop_params d.words d.trail opens rfl hpush
    (push_name w d.name j.cl_name j.cl_params) hρ htext rfl
    fun h => d.name.2.1 (List.length_eq_zero_iff.1 h)
  have hm : w.directive table ρ d =
      (((w.name table d.name).bind fun w => .ok ([], w)).bind (paramsMeaning ρ d.words)).bind
        fun p => World.set table d.name p.1 p.2 := by
    rw [World.directive, Logged.bind_assoc, Logged.bind_assoc]
    refine congrArg (w.name table d.name).bind (funext fun w => ?_)
    rw [Logged.ok_bind, World.param, paramsMeaning, WordLine.params]
    cases d.words.mapM fun w => w.2.meaning ρ with
    | none => rfl
    | some vs => rfl
  change ∃ y, insEnd table
    (insLoop table vars (d.text ++ brace opens) j.stat (d.text ++ brace opens) 0 start) = .ok y ∧ _
  rw [hm, hfirst]
  generalize insLoop table vars (d.text ++ brace opens) .char _ _ _ = x at hloop
  generalize ((w.name table d.name).bind fun w => .ok ([], w)).bind
    (paramsMeaning ρ d.words) = m at hloop
  cases hloop with
  | refused s => exact ⟨(.invalid, s), rfl, .refused s⟩
  | @through params w' s hs =>
    have hset : Sets (Logged.bind (s.calls, .ok w') (World.set table d.name s.cl.cl_params))
      (confSetCmd table s) :=
      setCmd_sets (by rw [hs.cl]) hs.ctx hs.env
    rw [hs.cl] at hset
    exact insEnd_sets hset (by cases opens <;> rfl)

end Set

end Plume.Conf
