import Mathlib.Data.List.TakeWhile
import Plume.Conf.Directive
import Plume.Conf.Uninit

/-! What the layout of a configuration file may change: a file against the same file with
white space around its lines and with blank lines and comments between them. -/

namespace Plume.Conf
open CLib

section Text

variable {l m : Bytes} {i n : ℕ}

theorem blank_text {b : Bytes} (hb : b.all isSpace = true) (hlf : LF ∉ b) (l : Bytes) :
    lineText (b ++ l) = b ++ lineText l := by
  unfold lineText
  apply List.takeWhile_append_of_pos
  intro c hc
  have h0 : c ≠ 0 := by
    rintro rfl
    cases List.all_eq_true.1 hb 0 hc
  have hl : c ≠ LF := ne_of_mem_of_not_mem hc hlf
  simp [h0, hl]

theorem blank_body {b : Bytes} (hb : b.all isSpace = true) (hlf : LF ∉ b) (l : Bytes) :
    body (b ++ l) = body l := by
  rw [body, blank_text hb hlf, List.dropWhile_append_of_pos]
  · rfl
  · exact List.all_eq_true.1 hb

theorem text_append (hlf : LF ∉ l) (m : Bytes) :
    lineText (l ++ m) = if 0 ∈ l then lineText l else l ++ lineText m := by
  induction l with
  | nil => rfl
  | cons c l ih =>
    obtain ⟨hc, hl⟩ := List.ne_and_not_mem_of_not_mem_cons hlf
    unfold lineText at ih ⊢
    by_cases h0 : c = 0
    · subst h0
      rfl
    · rw [List.cons_append, List.takeWhile_cons_of_pos, List.takeWhile_cons_of_pos, ih hl]
      · simp only [List.mem_cons, Ne.symm h0, false_or]
        split_ifs <;> rfl
      · simp [h0, Ne.symm hc]
      · simp [h0, Ne.symm hc]

theorem text_self (hlf : LF ∉ l) (h0 : 0 ∉ l) : lineText l = l := by
  have h := text_append hlf []
  rw [List.append_nil, if_neg h0] at h
  rw [h]
  exact List.append_nil l

end Text

variable {ε κ : Type} {table : ε → List (Cmd ε κ)}

section Trail

variable {vars : List VarElem} {t sp cs : Bytes} {i k : ℕ} {stat : Stat} {s s' : Ins ε κ}

def Ins.rest (s : Ins ε κ) : Ins ε κ := { s with last := .null, beg := 0, var := false }

theorem slice_append (sp : Bytes) (beg : ℕ) (hi : i ≤ t.length) :
    slice (t ++ sp) beg (i - beg) = slice t beg (i - beg) := by
  unfold slice
  by_cases hb : beg ≤ t.length
  · rw [List.drop_append_of_le_length hb, List.take_append_of_le_length]
    rw [List.length_drop]
    omega
  · rw [show i - beg = 0 by omega, List.take_zero, List.take_zero]

/-- Up to the end of a line no step sees what stands behind it. -/
theorem insPush_append (table : ε → List (Cmd ε κ)) (vars : List VarElem) (sp : Bytes)
    (hi : i ≤ t.length) (s : Ins ε κ) :
    insPush table vars (t ++ sp) i s = insPush table vars t i s := by
  unfold insPush
  rw [slice_append sp s.beg hi]

theorem insStep_append (table : ε → List (Cmd ε κ)) (vars : List VarElem) (sp : Bytes)
    (hi : i ≤ t.length) (stat : Stat) (s : Ins ε κ) :
    insStep table vars (t ++ sp) i stat s = insStep table vars t i stat s := by
  unfold insStep
  rw [insPush_append table vars sp hi]

def loopRest : Except (Ins ε κ) (Stat × Ins ε κ) → Except (Ins ε κ) (Stat × Ins ε κ)
  | .error s => .error s.rest
  | .ok (stat, s) => .ok (stat, s.rest)

theorem insLoop_spaces (table : ε → List (Cmd ε κ)) (vars : List VarElem) (line : Bytes)
    (hi : i ≠ 0)
    (hl : s.last = .space ∨ s.last = .blockBeg ∨ s.last = .blockEnd) (k : ℕ) :
    insLoop table vars line .space (List.replicate k SP) i s = .ok (.lineEnd, s) := by
  rw [← List.append_nil (List.replicate k SP), insLoop_skip hl, insLoop, if_neg (by simp [hi])]
  rcases hl with hl | hl | hl <;> simp [insStep, hl, Except.map]

/-- At the end of a line, spaces do what the end does, unless that is a brace. -/
theorem insLoop_end (table : ε → List (Cmd ε κ)) (vars : List VarElem) (hi : i ≠ 0) (hs : Begun s)
    (hstat : stat ≠ .blockBeg ∧ stat ≠ .blockEnd) (line : Bytes) (k : ℕ) :
    loopRest (insLoop table vars line stat (List.replicate k SP) i s) =
      loopRest (insLoop table vars line stat [] i s) := by
  cases k with
  | zero => rfl
  | succ k =>
    rw [List.replicate_succ, insLoop, insLoop, stateIns_sp, if_neg (by simp [hi, hstat])]
    have hi' : i + 1 ≠ 0 := by omega
    rcases hs with hl | hl | hl | hl | hl
    · simp only [insStep, hl, reduceCtorEq, or_self, if_false, if_true]
      cases insPush table vars line i s with
      | error x => rfl
      | ok x =>
        simp only [Except.map]
        rw [insLoop_spaces table vars line hi' (.inl rfl)]
        rfl
    · simp only [insStep, hl, reduceCtorEq, true_or, if_false, if_true]
      rw [insLoop_spaces table vars line hi' (.inl hl)]
      rfl
    · simp only [insStep, hl, reduceCtorEq, or_self, if_false, if_true]
      rfl
    · simp only [insStep, hl, reduceCtorEq, or_true, true_or, if_false, if_true]
      rw [insLoop_spaces table vars line hi' (.inr (.inl hl))]
      rfl
    · simp only [insStep, hl, reduceCtorEq, or_true, if_false, if_true]
      rw [insLoop_spaces table vars line hi' (.inr (.inr hl))]
      rfl

theorem insLoop_append (table : ε → List (Cmd ε κ)) (vars : List VarElem)
    (hi : i + cs.length = t.length)
    (hs : cs = [] → i ≠ 0 ∧ Begun s)
    (hstat : lastStat stat cs ≠ .blockBeg ∧ lastStat stat cs ≠ .blockEnd)
    (k : ℕ) : loopRest
    (insLoop table vars (t ++ List.replicate k SP) stat (cs ++ List.replicate k SP) i s) =
      loopRest (insLoop table vars t stat cs i s) := by
  induction cs generalizing stat i s with
  | nil =>
    obtain ⟨h0, hs⟩ := hs rfl
    change stat ≠ .blockBeg ∧ stat ≠ .blockEnd at hstat
    rw [List.nil_append, insLoop_end table vars h0 hs hstat, insLoop, insLoop, insStep_append]
    simp only [List.length_nil] at hi
    omega
  | cons c cs ih =>
    rw [List.length_cons] at hi
    rw [List.cons_append, insLoop, insLoop, insStep_append table vars _ (by omega)]
    cases hx : insStep table vars t i (confParseStateIns c) s with
    | error x => rfl
    | ok x =>
      apply ih
      · omega
      · exact fun _ => ⟨by omega, insStep_begun hx⟩
      · exact hstat

theorem insEnd_rest (table : ε → List (Cmd ε κ)) (x : Except (Ins ε κ) (Stat × Ins ε κ)) :
    (insEnd table (loopRest x)).map seen = (insEnd table x).map seen := by
  rcases x with s | ⟨stat, s⟩
  · rfl
  simp only [loopRest, insEnd, confSetCmd, Ins.rest]
  cases s.cl.cl_name with
  | none => rfl
  | some name =>
    dsimp only
    cases pluginCmdSearch (table s.env) name with
    | none => rfl
    | some cmd =>
      dsimp only
      cases cmd.c_set_cmd with
      | none => rfl
      | some f =>
        simp only [ok_bind, pure_ok]
        split_ifs <;> rfl

/-- Spaces behind a directive that does not end in a brace. -/
theorem parseIns_append (table : ε → List (Cmd ε κ)) (j : Junk κ) (vars : List VarElem)
    (ht : t ≠ [])
    (hstat : lastStat .null t ≠ .blockBeg ∧ lastStat .null t ≠ .blockEnd) (ctx : Option κ) (env : ε)
    (k : ℕ) :
    (confParseIns table j vars (t ++ List.replicate k SP) ctx env).map seen =
      (confParseIns table j vars t ctx env).map seen := by
  have hlast : lastStat j.stat t = lastStat .null t := by
    cases t with
    | nil => exact absurd rfl ht
    | cons c t => rfl
  unfold confParseIns
  rw [← insEnd_rest, insLoop_append, insEnd_rest]
  · exact Nat.zero_add _
  · exact fun h => absurd h ht
  · rwa [hlast]

end Trail

section Line

variable {l : Bytes} {st : ConfState ε κ} {j : Junk κ}

theorem parseLine_append {t : Bytes} (table : ε → List (Cmd ε κ)) (j : Junk κ) (st : ConfState ε κ)
    (ht : t ≠ []) (hd : t.head? ≠ some DOLLAR)
    (hstat : lastStat .null t ≠ .blockBeg ∧ lastStat .null t ≠ .blockEnd) (k : ℕ) :
    confParseLine table j (t ++ List.replicate k SP) st = confParseLine table j t st := by
  have hd' : (t ++ List.replicate k SP).head? ≠ some DOLLAR := by
    rwa [List.head?_append_of_ne_nil _ ht]
  rw [confParseLine, confParseLine, if_neg hd', if_neg hd]
  cases startCtx st (currCtx j st) with
  | error f => rfl
  | ok ctx =>
    rw [ok_bind, ok_bind]
    exact bind_seen (parseIns_append table j st.vars ht hstat ctx st.env k)

end Line

section File

abbrev Blank := { b : Bytes // b.all isSpace = true }

/-- A line of the relaid file: one of the file before, or a new one. -/
inductive Relaid
  | line (lead : Blank) (l : Bytes) (trail : ℕ)
  | blank (b : Blank)
  | comment (lead : Blank) (text : Bytes)

def Relaid.before : Relaid → Option Bytes
  | .line _ l _ => some l
  | _ => none

def Relaid.after : Relaid → Bytes
  | .line lead l trail => lead ++ (l ++ List.replicate trail SP)
  | .blank b => b
  | .comment lead text => lead ++ HASH :: text

/-- The end of the line is part of what it says: it defines a variable, or ends in a brace. -/
def Tight (l : Bytes) : Prop :=
  (body l).head? = some DOLLAR ∨
    (body l).head? ≠ some HASH ∧ ((body l).getLast? = some LBRACE ∨ (body l).getLast? = some RBRACE)

instance (l : Bytes) : Decidable (Tight l) := inferInstanceAs (Decidable (_ ∨ _ ∧ (_ ∨ _)))

/-- No line of white space comes up, and none that must be tight gets spaces behind it. Only
up to a NUL is it a line at all. -/
def Relaid.Harmless : Relaid → Prop
  | .line lead l trail =>
    (lineText l = [] → lineText (Relaid.line lead l trail).after = []) ∧
    (trail = 0 ∨ 0 ∈ l ∨ ¬ Tight l)
  | .blank b => b.1 = []
  | .comment _ _ => True

instance : (r : Relaid) → Decidable r.Harmless
  | .line _ l _ => inferInstanceAs (Decidable ((lineText l = [] → _) ∧ (_ ∨ _ ∨ ¬ Tight l)))
  | .blank _ => inferInstanceAs (Decidable (_ = []))
  | .comment _ _ => inferInstanceAs (Decidable True)

def Fits (l : Bytes) : Prop := LF ∉ l ∧ l.length < 1024

instance (l : Bytes) : Decidable (Fits l) := inferInstanceAs (Decidable (_ ∧ _))

def fileText (ls : List Bytes) : Bytes := [LF].intercalate ls

variable {table : ε → List (Cmd ε κ)} {junk : ℕ → Junk κ} {l : Bytes} {st : LoadState ε κ}

theorem blank_lf {b : Bytes} {m : Bytes} (h : LF ∉ b ++ m) : LF ∉ b ∧ LF ∉ m := by
  rwa [List.mem_append, not_or] at h

theorem loadLine_skip (h : lineText l = [] ∨ (body l).head? = some HASH) :
    loadLine table junk l st = ([], .ok st) := by
  rw [loadLine_eq, if_pos h]

theorem spaces_text (k : ℕ) : lineText (List.replicate k SP) = List.replicate k SP := by
  apply text_self
  · simp [List.mem_replicate, show LF ≠ SP by decide]
  · simp [List.mem_replicate, show (0 : UInt8) ≠ SP by decide]

/-- A line with spaces behind it, where they are part of the text. -/
theorem body_spaces (hlf : LF ∉ l) (h0 : 0 ∉ l) (k : ℕ) :
    body (l ++ List.replicate k SP) = if body l = [] then []
      else body l ++ List.replicate k SP := by
  have hsp : ∀ c ∈ List.replicate k SP, isSpace c = true := by
    intro c hc
    rw [(List.mem_replicate.1 hc).2]
    rfl
  unfold body
  rw [text_append hlf, if_neg h0, spaces_text, text_self hlf h0, List.dropWhile_append]
  simp only [List.isEmpty_iff]
  split_ifs
  · exact List.dropWhile_eq_nil_iff.2 hsp
  · rfl

theorem loadLine_relaid {lead : Blank} {trail : ℕ} (hlf : LF ∉ (Relaid.line lead l trail).after)
    (h : (Relaid.line lead l trail).Harmless) (st : LoadState ε κ) :
    loadLine table junk (Relaid.line lead l trail).after st = loadLine table junk l st := by
  obtain ⟨hempty, htrail⟩ := h
  unfold Relaid.after at hlf hempty ⊢
  dsimp only at hlf hempty ⊢
  obtain ⟨hlead, hrest⟩ := blank_lf hlf
  obtain ⟨hl, -⟩ := blank_lf hrest
  rw [loadLine_eq, loadLine_eq, blank_body lead.2 hlead]
  have hnil : lineText (lead ++ (l ++ List.replicate trail SP)) = [] ↔ lineText l = [] := by
    refine ⟨fun h => ?_, hempty⟩
    rw [blank_text lead.2 hlead, text_append hl] at h
    split_ifs at h with h0
    · exact (List.append_eq_nil_iff.1 h).2
    · rw [text_self hl h0]
      exact (List.append_eq_nil_iff.1 (List.append_eq_nil_iff.1 h).2).1
  have hsame : body (l ++ List.replicate trail SP) = body l →
      (if lineText (lead ++ (l ++ List.replicate trail SP)) = [] ∨
          (body (l ++ List.replicate trail SP)).head? = some HASH then ([], .ok st)
        else loadParse table junk (body (l ++ List.replicate trail SP)) st) =
      if lineText l = [] ∨ (body l).head? = some HASH then ([], .ok st)
        else loadParse table junk (body l) st := by
    intro hb
    simp only [hb, hnil]
  by_cases h0 : 0 ∈ l
  · apply hsame
    rw [body, text_append hl, if_pos h0]
    rfl
  have hbody := body_spaces hl h0 trail
  by_cases hb : body l = []
  · apply hsame
    rw [hbody, if_pos hb, hb]
  rcases htrail with rfl | h | htight
  · exact hsame (by rw [List.replicate_zero, List.append_nil])
  · exact absurd h h0
  rw [if_neg hb] at hbody
  have hhead : (body l ++ List.replicate trail SP).head? = (body l).head? :=
    List.head?_append_of_ne_nil _ hb
  rw [hbody, hhead]
  simp only [hnil]
  split_ifs with hskip
  · rfl
  rw [not_or] at hskip
  unfold Tight at htight
  simp only [not_or, not_and] at htight
  obtain ⟨hd, hbrace⟩ := htight
  obtain ⟨hlb, hrb⟩ := hbrace hskip.2
  rw [loadParse, loadParse, parseLine_append table _ _ hb hd (lastStat_brace hb hlb hrb)]

theorem loadLines_skip (h : loadLine table junk l st = ([], .ok st)) (ls : List Bytes) :
    loadLines table junk (l :: ls) st = loadLines table junk ls st := by
  rw [loadLines, h]
  rfl

theorem loadLines_congr {l' : Bytes} {ls ls' : List Bytes}
    (hl : ∀ st, loadLine table junk l' st = loadLine table junk l st)
    (hls : ∀ st, loadLines table junk ls' st = loadLines table junk ls st) (st : LoadState ε κ) :
    loadLines table junk (l' :: ls') st = loadLines table junk (l :: ls) st := by
  rw [loadLines, loadLines, hl]
  simp only [hls]

theorem loadLines_relaid {rs : List Relaid} (hlf : ∀ r ∈ rs, LF ∉ r.after)
    (h : ∀ r ∈ rs, r.Harmless)
    (st : LoadState ε κ) : loadLines table junk (rs.map Relaid.after) st =
      loadLines table junk (rs.filterMap Relaid.before) st := by
  induction rs generalizing st with
  | nil => rfl
  | cons r rs ih =>
    have ih :=
      ih (fun r hr => hlf r (List.mem_cons_of_mem _ hr)) fun r hr => h r (List.mem_cons_of_mem _ hr)
    have hr := h r List.mem_cons_self
    have hrlf := hlf r List.mem_cons_self
    rw [List.map_cons]
    cases r with
    | line lead l trail => exact loadLines_congr (loadLine_relaid hrlf hr) ih st
    | blank b =>
      have hb : b.1 = [] := hr
      rw [loadLines_skip (loadLine_skip (.inl (by rw [Relaid.after, hb]; rfl)))]
      exact ih st
    | comment lead text =>
      rw [loadLines_skip (loadLine_skip (.inr ?_))]
      · exact ih st
      · rw [Relaid.after, blank_body lead.2 (blank_lf hrlf).1]
        rfl

/-- `fgets` on a line that does not use up its room. -/
theorem fgets_short (size : ℕ) {room : ℕ} (line rest : Bytes) (hlf : LF ∉ l)
    (hl : l.length < room) :
    fgets size room line (l ++ rest) = fgets size (room - l.length) (line ++ l) rest := by
  induction l generalizing room line with
  | nil => simp
  | cons c l ih =>
    obtain ⟨hc, hlf⟩ := List.ne_and_not_mem_of_not_mem_cons hlf
    rw [List.length_cons] at hl
    rw [List.cons_append, fgets, if_neg (by simp [Ne.symm hc]; omega), ih _ hlf (by omega),
      List.append_assoc, List.singleton_append, List.length_cons]
    congr 1
    omega

/-- A line that just fits is read without its newline. -/
theorem fgets_full (size : ℕ) (rest : Bytes) (hlf : LF ∉ l) (h : l ≠ []) :
    fgets size l.length [] (l ++ rest) = l :: fgets size size [] rest := by
  obtain ⟨l, c, rfl⟩ := (List.eq_nil_or_concat l).resolve_left h
  rw [List.concat_eq_append] at hlf ⊢
  rw [List.append_assoc, fgets_short size [] _ (blank_lf hlf).1 (by simp)]
  simp [fgets]

theorem text_newline (hlf : LF ∉ l) : lineText (l ++ [LF]) = lineText l := by
  rw [text_append hlf]
  split_ifs with h0
  · rfl
  · rw [text_self hlf h0]
    exact List.append_nil l

theorem loadLine_newline (hlf : LF ∉ l) (st : LoadState ε κ) :
    loadLine table junk (l ++ [LF]) st = loadLine table junk l st := by
  unfold loadLine
  rw [text_newline hlf]

theorem loadLines_line (h : Fits l) (rest : Bytes) (st : LoadState ε κ) :
    loadLines table junk (fgets 1023 1023 [] (l ++ LF :: rest)) st =
      loadLines table junk (l :: fgets 1023 1023 [] rest) st := by
  obtain ⟨hlf, hlen⟩ := h
  rcases Nat.lt_or_ge l.length 1023 with hl | hl
  · rw [fgets_short 1023 [] _ hlf hl, fgets, if_pos (.inl rfl), List.nil_append]
    exact loadLines_congr (loadLine_newline hlf) (fun _ => rfl) st
  · have hlen : l.length = 1023 := by omega
    have hfull := fgets_full 1023 (LF :: rest) hlf (by rintro rfl; cases hlen)
    rw [hlen] at hfull
    rw [hfull, fgets, if_pos (.inl rfl)]
    refine loadLines_congr (fun _ => rfl) (fun st => ?_) st
    exact loadLines_skip (loadLine_skip (.inl rfl)) _

theorem loadLines_last (h : Fits l) (st : LoadState ε κ) :
    loadLines table junk (fgets 1023 1023 [] l) st = loadLines table junk [l] st := by
  obtain ⟨hlf, hlen⟩ := h
  by_cases h0 : l = []
  · subst h0
    exact (loadLines_skip (loadLine_skip (.inl rfl)) []).symm
  rw [← List.append_nil l]
  rcases Nat.lt_or_ge l.length 1023 with hl | hl
  · rw [fgets_short 1023 [] _ hlf hl, fgets, if_neg (by simpa using h0), List.append_nil]
    rfl
  · have hlen : l.length = 1023 := by omega
    have hfull := fgets_full 1023 [] hlf h0
    rw [hlen] at hfull
    rw [hfull, List.append_nil]
    rfl

/-- The lines of a file in which each fits are read one by one. -/
theorem loadLines_file {ls : List Bytes} (h : ∀ l ∈ ls, Fits l) (st : LoadState ε κ) :
    loadLines table junk (fgets 1023 1023 [] (fileText ls)) st = loadLines table junk ls st := by
  induction ls generalizing st with
  | nil => rfl
  | cons l ls ih =>
    have ih := ih fun l hl => h l (List.mem_cons_of_mem _ hl)
    have hl := h l List.mem_cons_self
    cases ls with
    | nil =>
      have htext : fileText [l] = l := List.append_nil l
      rw [htext]
      exact loadLines_last hl st
    | cons l' ls =>
      have htext : fileText (l :: l' :: ls) = l ++ LF :: fileText (l' :: ls) := rfl
      rw [htext, loadLines_line hl]
      exact loadLines_congr (fun _ => rfl) ih st

theorem before_fits {r : Relaid} {l : Bytes} (h : Fits r.after) (hl : r.before = some l) :
    Fits l := by
  cases r with
  | line lead m trail =>
    cases hl
    obtain ⟨hlf, hlen⟩ := h
    refine ⟨(blank_lf (blank_lf hlf).2).1, ?_⟩
    simp only [Relaid.after, List.length_append] at hlen
    omega
  | blank b => cases hl
  | comment lead text => cases hl

def LayoutKept (table : ε → List (Cmd ε κ)) (junk : ℕ → Junk κ) (env : ε) (rs : List Relaid) :
    Prop :=
  confLoad table junk env (fileText (rs.map Relaid.after)) =
    confLoad table junk env (fileText (rs.filterMap Relaid.before))

/-- A harmless layout changes nothing, whatever the uninitialised locals hold. -/
theorem layout_kept (table : ε → List (Cmd ε κ)) (junk : ℕ → Junk κ) (env : ε) (rs : List Relaid)
    (hfit : ∀ r ∈ rs, Fits r.after) (h : ∀ r ∈ rs, r.Harmless) : LayoutKept table junk env rs := by
  have hafter : ∀ l ∈ rs.map Relaid.after, Fits l := by
    intro l hl
    obtain ⟨r, hr, rfl⟩ := List.mem_map.1 hl
    exact hfit r hr
  have hbefore : ∀ l ∈ rs.filterMap Relaid.before, Fits l := by
    intro l hl
    obtain ⟨r, hr, hrl⟩ := List.mem_filterMap.1 hl
    exact before_fits (hfit r hr) hrl
  unfold LayoutKept confLoad
  rw [loadLines_file hafter, loadLines_file hbefore, loadLines_relaid (fun r hr => (hfit r hr).1) h]

def spread : List Relaid :=
  [.comment ⟨[SP], rfl⟩ (ascii " the core"), .line ⟨[], rfl⟩ (ascii "main \x7b") 0,
    .blank ⟨[], rfl⟩, .line ⟨[9], rfl⟩ [RBRACE] 0]

theorem layout_kept_spread :
    LayoutKept (fun _ => [mainCmd]) (fun _ => ⟨.null, none, [], .null, .null⟩) ()
    spread :=
  layout_kept _ _ () spread (by decide) (by decide)

def spaced : List Relaid := [.line ⟨[], rfl⟩ (ascii "main \x7b") 1, .line ⟨[], rfl⟩ [RBRACE] 0]

/-- A block opener with a space behind it opens no block, so that its `}` closes none. Here the
name left in `cl` is always that of the line before. -/
theorem layout_not_kept : ¬ ∀ (table : Unit → List (Cmd Unit ℕ)) (junk : ℕ → Junk ℕ) (env : Unit)
    (rs : List Relaid), (∀ r ∈ rs, Fits r.after) → LayoutKept table junk env rs := by
  intro h
  have hsame := congrArg Prod.fst (h (fun _ => [mainCmd])
    (fun _ => ⟨.null, some (ascii "main"), [], .null, .null⟩) () spaced (by decide))
  revert hsame
  decide

end File

end Plume.Conf
