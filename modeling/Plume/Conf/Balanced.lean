import Plume.CLib.Depth
import Plume.Conf.Layout
import Plume.Conf.Scope
import Plume.Conf.Variables

/-! The blocks that the text of a configuration opens and closes, against those that `plm_conf_load`
counts: which files it accepts that are not balanced. -/

namespace Plume.Conf
open CLib

variable {ε κ : Type}

section Text

/-- What a line opens and closes by its text. -/
def textDepth (line : Bytes) : ℤ :=
  if IsIns line then
    (if LBRACE ∈ body line then 1 else 0) - if RBRACE ∈ body line then 1 else 0
  else 0

/-- What it opens and closes by `plm_conf_load`. -/
def loadDepth (line : Bytes) : ℤ :=
  if IsIns line then
    if (body line).getLast? = some LBRACE then 1 else if body line = [RBRACE] then -1 else 0
  else 0

variable (table : ε → List (Cmd ε κ)) (junk : ℕ → Junk κ)

def NamesBlock (w : Watch ε κ) (line : Bytes) : Prop :=
  ∃ cmd, Names table line cmd w ∧ cmd.c_type = .block

structure LineBalanced (w : Watch ε κ) (pre : List Bytes) (line : Bytes) : Prop where
  closes : RBRACE ∈ body line → 0 < depth textDepth pre
  opens : LBRACE ∈ body line →
    (body line).count LBRACE = 1 ∧ (body line).getLast? = some LBRACE ∧ NamesBlock table w line
  named : NamesBlock table w line → LBRACE ∈ body line

structure Balanced (env : ε) (lines : List Bytes) : Prop where
  each : ∀ pre line, pre ++ [line] <+: lines → IsIns line →
    ∀ w, run (watchLine table junk) (watchStart env) pre = some w → LineBalanced table w pre line
  closed : depth textDepth lines = 0

/-- Nothing stands behind a brace, a `}` does not stand where no block is open by the count `block`,
and just the lines that name a block end in `{`. -/
structure LineClear (w : Watch ε κ) (line : Bytes) : Prop where
  behind : LBRACE ∉ (body line).dropLast ∧ RBRACE ∉ (body line).dropLast
  closes : body line = [RBRACE] → 0 < w.st.block
  block : (body line).getLast? = some LBRACE ↔ NamesBlock table w line

def Clear (env : ε) (lines : List Bytes) : Prop :=
  Meets (watchLine table junk) (fun w line => IsIns line →
    LineClear table w line) (watchStart env) lines

/-- Where there is nothing to parse in a line, `plm_conf_parse_ins` does not find a brace in its
local `stat`. -/
def BlankKept (env : ε) (lines : List Bytes) : Prop :=
  Meets (watchLine table junk)
    (fun w line => lineText line ≠ [] → body line = [] → braceOr (junk w.st.parsed).stat = .lineEnd)
    (watchStart env) lines

def Accepted (env : ε) (lines : List Bytes) : Prop :=
  ∃ env', (confLoad table junk env (fileText lines)).2 = .ok env'

end Text

section Step

variable {table : ε → List (Cmd ε κ)} {junk : ℕ → Junk κ} {w w' : Watch ε κ} {line t : Bytes}
  {env : ε}
  {stat : Stat} {s : Ins ε κ} {j : Junk κ} {vars : List VarElem} {ctx : Option κ}
  {st st' : LoadState ε κ}

def statDepth : Stat → ℤ
  | .blockBeg => 1
  | .blockEnd => -1
  | _ => 0

theorem switch_block (h : (loadSwitch stat st).2 = .ok st') :
    st'.block = st.block + statDepth stat := by
  cases stat with
  | blockBeg => exact congrArg VarStack.block (loadBlockBeg_vars h)
  | blockEnd => exact congrArg VarStack.block (loadBlockEnd_vars h)
  | lineEnd =>
    cases h
    exact (add_zero _).symm
  | null | char | space | var | assign | invalid => cases h

/-- A `}` at the end of a line that is accepted is the whole line. -/
theorem parseIns_closes (ht : t ≠ []) (h : confParseIns table j vars t ctx env = .ok (stat, s))
    (hstat : stat ≠ .invalid) (hlast : t.getLast? = some RBRACE) : t = [RBRACE] := by
  have hne : t.getLast? ≠ some LBRACE := by
    rw [hlast]
    decide
  obtain ⟨stat1, s1, hl, -⟩ := parseIns_loop h hstat
  apply insLoop_closes hl ht
  obtain ⟨u, c, rfl⟩ := (List.eq_nil_or_concat t).resolve_left ht
  have hc : c = RBRACE := by simpa using hlast
  rw [hc]
  simp [lastStat, stateIns_rbrace]

/-- A line that is not parsed as a directive opens and closes nothing. -/
theorem watchLine_other (hother : (lineText line = [] ∨ (body line).head? = some HASH) ∨
    (body line).head? = some DOLLAR)
    (h : watchLine table junk w line = some w') : w'.st.block = w.st.block ∧ ¬ IsIns line := by
  unfold watchLine at h
  rw [loadLine_eq] at h
  by_cases hskip : lineText line = [] ∨ (body line).head? = some HASH
  · rw [if_pos hskip] at h
    cases h
    refine ⟨rfl, fun ⟨hne, hhash, _⟩ => ?_⟩
    rcases hskip with hnil | hskip
    · rw [body, hnil] at hne
      exact hne rfl
    · exact hhash hskip
  · rw [if_neg hskip] at h
    have hd := hother.resolve_left hskip
    refine ⟨?_, fun hins => hins.2.2 hd⟩
    cases hp : loadParse table junk (body line) w.st with
    | mk calls r =>
      rw [hp] at h
      cases r with
      | error f => cases h
      | ok st' =>
        cases h
        obtain ⟨-, vars, rfl⟩ := loadParse_definition hd hp
        rfl

/-- The step lemma: the count `block` follows the text, and a `}` at the end of a line is alone on
it. -/
theorem watchLine_block
    (hblank : lineText line ≠ [] → body line = [] → braceOr (junk w.st.parsed).stat = .lineEnd)
    (h : watchLine table junk w line = some w') : w'.st.block = w.st.block + loadDepth line ∧
      (IsIns line → (body line).getLast? = some RBRACE → body line = [RBRACE]) := by
  by_cases hother : (lineText line = [] ∨ (body line).head? = some HASH) ∨
    (body line).head? = some DOLLAR
  · obtain ⟨hblock, hins⟩ := watchLine_other hother h
    rw [loadDepth, if_neg hins, add_zero]
    exact ⟨hblock, fun hins' => absurd hins' hins⟩
  · obtain ⟨hskip, hd⟩ := not_or.1 hother
    obtain ⟨ctx, stat, s, st', -, hp, hstat, -, hsw, rfl⟩ := watchLine_ins hskip hd h
    have hblock := switch_block hsw
    change st'.block = w.st.block + statDepth stat at hblock
    rw [hblock]
    by_cases hnil : body line = []
    · have hins : ¬ IsIns line := fun hins => hins.1 hnil
      rw [hnil] at hp
      rw [parseIns_nil hp hstat, hblank (not_or.1 hskip).1 hnil, loadDepth, if_neg hins]
      exact ⟨rfl, fun hins' => absurd hins' hins⟩
    · have hins : IsIns line := ⟨hnil, (not_or.1 hskip).2, hd⟩
      refine ⟨?_, fun _ => parseIns_closes hnil hp hstat⟩
      rw [parseIns_stat hnil hp hstat, loadDepth, if_pos hins]
      split_ifs <;> rfl

end Step

section Run

variable {table : ε → List (Cmd ε κ)} {junk : ℕ → Junk κ} {w w' : Watch ε κ} {line : Bytes}
  {env : ε}
  {lines pre : List Bytes}

theorem loadLines_run {st : LoadState ε κ} (h : (loadLines table junk lines w.st).2 = .ok st) :
    ∃ w', run (watchLine table junk) w lines = some w' ∧ w'.st = st := by
  induction lines generalizing w with
  | nil =>
    cases h
    exact ⟨w, rfl, rfl⟩
  | cons line lines ih =>
    rw [loadLines] at h
    cases hl : loadLine table junk line w.st with
    | mk calls r =>
      rw [hl] at h
      cases r with
      | error f => cases h
      | ok st1 =>
        have hstep : watchLine table junk w line = some
          ⟨st1, scopesAfter line calls w.scopes, created w.last calls⟩ := by
          rw [watchLine, hl]
        rw [run, hstep]
        exact ih h

theorem Accepted.run (hfit : ∀ l ∈ lines, Fits l) (h : Accepted table junk env lines) :
    ∃ w, CLib.run (watchLine table junk) (watchStart env) lines = some w ∧ w.st.block ≤ 0 := by
  obtain ⟨env', h⟩ := h
  unfold confLoad at h
  rw [loadLines_file hfit] at h
  obtain ⟨st, hload, hend⟩ := bind_eq_ok.1 h
  obtain ⟨w, hrun, rfl⟩ := loadLines_run (w := watchStart env) hload
  refine ⟨w, hrun, ?_⟩
  unfold loadEnd at hend
  split_ifs at hend with hblock
  exact not_lt.1 hblock

theorem run_block (hblank : BlankKept table junk env lines)
    (h : run (watchLine table junk) (watchStart env) lines = some w) : w.st.block =
      depth loadDepth lines := by
  induction lines using List.reverseRecOn generalizing w with
  | nil =>
    cases h
    rfl
  | append_singleton lines line ih =>
    rw [run_snoc] at h
    obtain ⟨w1, h1, hstep⟩ := Option.bind_eq_some_iff.1 h
    have hblank1 : BlankKept table junk env lines :=
      fun pre b hpre => hblank pre b (hpre.trans (List.prefix_append lines [line]))
    rw [depth_snoc, ← ih hblank1 h1]
    exact (watchLine_block (hblank lines line (List.prefix_refl _) w1 h1) hstep).1

end Run

section Claim

variable {table : ε → List (Cmd ε κ)} {junk : ℕ → Junk κ} {w : Watch ε κ} {line t : Bytes} {env : ε}
  {lines pre : List Bytes}

theorem mem_of_not_behind {c : UInt8} (hc : c ∈ t) (hbehind : c ∉ t.dropLast) :
    t.getLast? = some c := by
  obtain ⟨u, d, rfl⟩ := (List.eq_nil_or_concat t).resolve_left (List.ne_nil_of_mem hc)
  simp only [List.concat_eq_append, List.dropLast_concat, List.mem_append, List.mem_singleton,
    List.getLast?_concat]
    at hc hbehind ⊢
  rw [hc.resolve_left hbehind]

theorem count_of_not_behind {c : UInt8} (hlast : t.getLast? = some c) (hbehind : c ∉ t.dropLast) :
    t.count c = 1 := by
  obtain ⟨u, rfl⟩ := List.getLast?_eq_some_iff.1 hlast
  rw [List.dropLast_concat] at hbehind
  simp [List.count_eq_zero_of_not_mem hbehind]

/-- By its text a line does not open more than by `plm_conf_load`, if all its braces but `}` are at
its end; where it opens the same, a `}` is alone on it. -/
theorem textDepth_le
    (hopens : IsIns line → LBRACE ∈ body line → (body line).getLast? = some LBRACE) :
    textDepth line ≤ loadDepth line ∧
      (textDepth line = loadDepth line ↔
        (IsIns line → RBRACE ∈ body line → body line = [RBRACE])) := by
  unfold textDepth loadDepth
  by_cases hins : IsIns line
  · simp only [hins, if_true, true_imp_iff]
    by_cases hlast : (body line).getLast? = some LBRACE
    · have hmem : LBRACE ∈ body line := List.mem_of_getLast? hlast
      have hne : body line ≠ [RBRACE] := by
        intro h
        rw [h] at hlast
        cases hlast
      rw [if_pos hmem, if_pos hlast]
      split_ifs with hr <;> simp [hr, hne]
    · have hmem : LBRACE ∉ body line := fun hmem => hlast (hopens hins hmem)
      rw [if_neg hmem, if_neg hlast]
      by_cases hone : body line = [RBRACE]
      · rw [hone]
        decide
      · split_ifs with hr <;> simp [hr, hone]
  · simp [hins]

/-- A file without any such line is balanced, if it is accepted. -/
theorem balanced_of_clear (hblank : BlankKept table junk env lines)
    (hclear : Clear table junk env lines)
    (hrun : run (watchLine table junk) (watchStart env) lines = some w) (hblock : w.st.block ≤ 0) :
    Balanced table junk env lines := by
  have hline : ∀ pre line, pre ++ [line] <+: lines → IsIns line →
      ∃ w, run (watchLine table junk) (watchStart env) pre = some w ∧ LineClear table w line ∧
        (RBRACE ∈ body line → body line = [RBRACE]) := by
    intro pre line hpre hins
    obtain ⟨w1, w2, h1, hstep⟩ := reached hrun hpre
    have hc := hclear pre line hpre w1 h1 hins
    refine ⟨w1, h1, hc, fun hr => ?_⟩
    exact (watchLine_block (hblank pre line hpre w1 h1) hstep).2 hins
      (mem_of_not_behind hr hc.behind.2)
  have hsame : ∀ line ∈ lines, textDepth line = loadDepth line := by
    intro line hmem
    obtain ⟨pre, rest, rfl⟩ := List.append_of_mem hmem
    have hpre : pre ++ [line] <+: pre ++ line :: rest := ⟨rest, by simp⟩
    refine (textDepth_le fun hins hl => ?_).2.2 fun hins hr => ?_
    · obtain ⟨w1, -, hc, -⟩ := hline pre line hpre hins
      exact mem_of_not_behind hl hc.behind.1
    · obtain ⟨w1, -, -, hone⟩ := hline pre line hpre hins
      exact hone hr
  have hdepth : ∀ pre, pre <+: lines → depth textDepth pre = depth loadDepth pre :=
    fun pre hpre => depth_congr fun line hmem => hsame line (hpre.subset hmem)
  have hcloses : ∀ pre line, pre ++ [line] <+: lines → IsIns line → RBRACE ∈ body line →
    0 < depth textDepth pre := by
    intro pre line hpre hins hr
    obtain ⟨w1, h1, hc, hone⟩ := hline pre line hpre hins
    have hblank1 : BlankKept table junk env pre :=
      fun pre' b hpre' => hblank pre' b (hpre'.trans (prefix_snoc hpre))
    rw [hdepth pre (prefix_snoc hpre), ← run_block hblank1 h1]
    exact hc.closes (hone hr)
  refine ⟨fun pre line hpre hins w1 h1 => ?_, ?_⟩
  · obtain ⟨w2, h2, hc, -⟩ := hline pre line hpre hins
    rw [h1] at h2
    cases h2
    refine
      ⟨hcloses pre line hpre hins, fun hl => ?_, fun hn => List.mem_of_getLast? (hc.block.2 hn)⟩
    have hlast := mem_of_not_behind hl hc.behind.1
    exact ⟨count_of_not_behind hlast hc.behind.1, hlast, hc.block.1 hlast⟩
  · have hzero : 0 ≤ depth textDepth lines := by
      refine depth_nonneg (fun pre line hpre hle => ?_) (List.prefix_refl lines)
      by_cases hclose : IsIns line ∧ RBRACE ∈ body line
      · have hlt := hcloses pre line hpre hclose.1 hclose.2
        have hge : -1 ≤ textDepth line := by
          unfold textDepth
          split_ifs <;> decide
        omega
      · have hge : 0 ≤ textDepth line := by
          unfold textDepth
          split_ifs with hins hl hr hr
          · exact absurd ⟨hins, hr⟩ hclose
          · decide
          · exact absurd ⟨hins, hr⟩ hclose
          · decide
          · decide
        omega
    have hend := run_block hblank hrun
    rw [hdepth lines (List.prefix_refl lines)] at hzero ⊢
    omega

/-- A file that is accepted and balanced has no such line. -/
theorem clear_of_balanced (hblank : BlankKept table junk env lines)
    (hbal : Balanced table junk env lines)
    (hrun : run (watchLine table junk) (watchStart env) lines = some w) (hblock : w.st.block ≤ 0) :
    Clear table junk env lines := by
  have hline : ∀ line ∈ lines, IsIns line → LBRACE ∈ body line →
    (body line).getLast? = some LBRACE := by
    intro line hmem hins hl
    obtain ⟨pre, rest, rfl⟩ := List.append_of_mem hmem
    have hpre : pre ++ [line] <+: pre ++ line :: rest := ⟨rest, by simp⟩
    obtain ⟨w1, w2, h1, -⟩ := reached hrun hpre
    exact ((hbal.each pre line hpre hins w1 h1).opens hl).2.1
  -- the lines with a `}` that closes nothing are not made up for, as `block` must come down to zero
  have hsame : ∀ line ∈ lines, textDepth line = loadDepth line := by
    refine eq_of_depth_le (fun line hmem => (textDepth_le (hline line hmem)).1) ?_
    rw [hbal.closed, ← run_block hblank hrun]
    exact hblock
  intro pre line hpre w1 h1 hins
  have hmem : line ∈ lines := hpre.subset (by simp)
  have hone := (textDepth_le (hline line hmem)).2.1 (hsame line hmem) hins
  have hb := hbal.each pre line hpre hins w1 h1
  refine ⟨⟨fun hl => ?_, fun hr => ?_⟩, fun hbody => ?_, fun hlast => ?_, fun hn => ?_⟩
  · obtain ⟨hcount, hlast, -⟩ := hb.opens (List.dropLast_subset _ hl)
    obtain ⟨u, hu⟩ := List.getLast?_eq_some_iff.1 hlast
    rw [hu, List.dropLast_concat] at hl
    rw [hu, List.count_append, List.count_singleton_self] at hcount
    exact absurd (List.count_pos_iff.2 hl) (by omega)
  · rw [hone (List.dropLast_subset _ hr)] at hr
    cases hr
  · have hblank1 : BlankKept table junk env pre :=
      fun pre' b hpre' => hblank pre' b (hpre'.trans (prefix_snoc hpre))
    rw [run_block hblank1 h1,
      ← depth_congr fun line hmem => hsame line ((prefix_snoc hpre).subset hmem)]
    exact hb.closes (by rw [hbody]; exact List.mem_cons_self)
  · exact (hb.opens (List.mem_of_getLast? hlast)).2.2
  · exact (hb.opens (hb.named hn)).2.1

/-- A file that `plm_conf_load` accepts is balanced if and only if no line of it is one that the
parser should have rejected. -/
theorem accepted_balanced_iff (table : ε → List (Cmd ε κ)) (junk : ℕ → Junk κ) (env : ε)
    (lines : List Bytes)
    (hfit : ∀ l ∈ lines, Fits l) (hblank : BlankKept table junk env lines)
    (hok : Accepted table junk env lines) :
    Balanced table junk env lines ↔ Clear table junk env lines := by
  obtain ⟨w, hrun, hblock⟩ := hok.run hfit
  exact ⟨fun hbal => clear_of_balanced hblank hbal hrun hblock,
    fun hclear => balanced_of_clear hblank hclear hrun hblock⟩

/-- What is in `cl` is always the name `main`. -/
def mainJunk : ℕ → Junk ℕ := fun _ => ⟨.null, some (ascii "main"), [], .null, .null⟩

theorem lineClear_rbrace (table : ε → List (Cmd ε κ)) (hopen : 0 < w.st.block) :
    LineClear table w [RBRACE] := by
  have hbody : body [RBRACE] = [RBRACE] := rfl
  refine ⟨by rw [hbody]; simp, fun _ => hopen, fun hlast => ?_,
    fun ⟨cmd, hnames, _⟩ => absurd rfl hnames.1.2⟩
  rw [hbody] at hlast
  cases hlast

theorem accepted_balanced_iff_main :
    Balanced (fun _ => [mainCmd]) mainJunk () [ascii "main \x7b", [RBRACE]] := by
  refine (accepted_balanced_iff (fun _ => [mainCmd]) mainJunk () _ (by decide) (fun _ _ _ _ _ _ _ =>
    rfl) ⟨(), rfl⟩).2 ?_
  unfold Clear
  rw [meets_cons]
  refine ⟨fun _ => ⟨by decide, fun h => absurd h (by decide), fun _ => ?_, fun _ => by decide⟩,
    fun w1 h1 => ?_⟩
  · exact ⟨mainCmd, ⟨⟨by decide, by decide⟩, rfl⟩, rfl⟩
  · have hopen : 0 < w1.st.block := by
      cases h1
      decide
    rw [meets_cons]
    exact ⟨fun _ => lineClear_rbrace _ hopen, fun _ _ => meets_nil _ _ _⟩

/-- The file `main {`, `}`, `}` is accepted: a `}` where no block is open pops two empty stacks, and
leaves a count below zero, which is not looked for. -/
theorem not_balanced :
    ¬ ∀ (table : Unit → List (Cmd Unit ℕ)) (junk : ℕ → Junk ℕ) (env : Unit) (lines : List Bytes),
    (∀ l ∈ lines, Fits l) → Accepted table junk env lines → Balanced table junk env lines := by
  intro h
  have hbal :=
    h (fun _ => [mainCmd]) mainJunk () [ascii "main \x7b", [RBRACE], [RBRACE]] (by decide) ⟨(), rfl⟩
  have hline :=
    hbal.each [ascii "main \x7b", [RBRACE]] [RBRACE] (List.prefix_refl _) (by decide) _ rfl
  exact absurd (hline.closes (by decide)) (by decide)

end Claim

end Plume.Conf
