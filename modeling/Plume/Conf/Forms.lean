import Plume.Conf.Directive
import Plume.Conf.Definition
import Plume.Conf.Variables

/-! The forms of a definition, `$name=value` and `$name=$v1$v2`, and what `plm_conf_parse_variable`
makes of them and of all other lines. -/

namespace Plume.Conf
open CLib

structure IsName (n : Bytes) : Prop where
  ne : n ≠ []
  dollar : DOLLAR ∉ n
  assign : ASSIGN ∉ n

def definition (n v : Bytes) : Bytes := DOLLAR :: (n ++ ASSIGN :: v)

def references (vs : List Bytes) : Bytes := vs.flatMap fun v => DOLLAR :: v

inductive Means (vars : List VarElem) : Bytes → Bytes → Bytes → Prop
  | literal {n v : Bytes} : IsName n → DOLLAR ∉ v → Means vars (definition n v) n v
  | references {n : Bytes} {vs us : List Bytes} : IsName n → vs ≠ [] → (∀ v ∈ vs, DOLLAR ∉ v) →
    vs.map (confGetVarValue vars) = us.map some →
      Means vars (definition n (references vs)) n us.flatten

/-- The line is taken, the variable has this value behind it, and the others have theirs. -/
def Defines (vars : List VarElem) (line n value : Bytes) : Prop :=
  ∀ last, ∃ vars', confParseVariable last vars line = .ok vars' ∧
    confGetVarValue vars' n = some value ∧
    ∀ m : VarName, m.1 ≠ n → confGetVarValue vars' m = confGetVarValue vars m

def Rejected (vars : List VarElem) (line : Bytes) : Prop :=
  ∀ last, confParseVariable last vars line = .error .abort

/-- A line of either form does what it means, whatever the local `last` holds at first, and any
other is rejected. -/
structure DefinedRight (vars : List VarElem) (line : Bytes) : Prop where
  defines : ∀ n value, Means vars line n value → Defines vars line n value
  rejects : (∀ n value, ¬ Means vars line n value) → Rejected vars line

/-- A value with neither `$` nor `=` in it, and some byte; or references to variables, where the
variable defined has a value already, which as often as there are references comes to the same. Any
other line, where an error is found in it before its end and before a copy of negative length. -/
structure Supported (vars : List VarElem) (line : Bytes) : Prop where
  literal : ∀ n v, IsName n → line = definition n v → DOLLAR ∉ v → v ≠ [] ∧ ASSIGN ∉ v
  referred : ∀ n vs (us : List Bytes), IsName n → line = definition n (references vs) → vs ≠ [] →
    (∀ v ∈ vs, DOLLAR ∉ v) → vs.map (confGetVarValue vars) = us.map some → ASSIGN ∉ references vs ∧
      ∃ u, confGetVarValue vars n = some u ∧ (List.replicate vs.length u).flatten = us.flatten
  other : (∀ n value, ¬ Means vars line n value) → ¬ Unnoticed vars line ∧
    ∀ n v, IsName n → line = definition n v → selfNamed (confGetVarValue vars n).isSome v = false

section Run

variable {vars : List VarElem} {line cs r w n v : Bytes} {i : ℕ} {s s' : VarLine}

def IsText (w : Bytes) : Prop := ∀ c ∈ w, c ≠ DOLLAR ∧ c ≠ ASSIGN

theorem isText_of_free (h1 : DOLLAR ∉ w) (h2 : ASSIGN ∉ w) : IsText w :=
  fun _ hc => ⟨ne_of_mem_of_not_mem hc h1, ne_of_mem_of_not_mem hc h2⟩

theorem varLoop_inside (hw : IsText w) (hl : s.last = .char) :
    varLoop line vars (w ++ r) i s = varLoop line vars r (i + w.length) s := by
  induction w generalizing i with
  | nil => rfl
  | cons c w ih =>
    obtain ⟨h1, h2⟩ := hw c List.mem_cons_self
    have hstep : varStep line vars i .char s = .ok s := by
      obtain ⟨name, value, last, beg, fin, link⟩ := s
      cases hl
      rfl
    rw [List.cons_append, varLoop, stateVar_char h1 h2, hstep, ok_bind,
      ih (fun c hc => hw c (List.mem_cons_of_mem _ hc)), List.length_cons, Nat.add_right_comm,
      Nat.add_assoc]

theorem varLoop_text (hw : IsText w) (hne : w ≠ []) (hl : s.last = .var ∨ s.last = .assign) :
    varLoop line vars (w ++ r) i s =
      varLoop line vars r (i + w.length) { s with beg := i, last := .char } := by
  obtain ⟨c, w, rfl⟩ := List.exists_cons_of_ne_nil hne
  obtain ⟨h1, h2⟩ := hw c List.mem_cons_self
  have hstep : varStep line vars i .char s = .ok { s with beg := i, last := .char } := by
    simp [varStep, hl]
  rw [List.cons_append, varLoop, stateVar_char h1 h2, hstep, ok_bind,
    varLoop_inside (fun c hc => hw c (List.mem_cons_of_mem _ hc)) rfl, List.length_cons,
    Nat.add_right_comm, Nat.add_assoc]

def named (n : Bytes) : VarLine := ⟨n, [], .assign, 1, n.length + 1, false⟩

theorem varLoop_name (hn : IsName n) (last : Stat) (v : Bytes) :
    varLoop (definition n v) vars (definition n v).tail 1 ⟨[], [], last, 1, 1, false⟩ =
      varLoop (definition n v) vars v (n.length + 2) (named n) := by
  obtain ⟨c, w, rfl⟩ := List.exists_cons_of_ne_nil hn.ne
  have hw := isText_of_free hn.dollar hn.assign
  obtain ⟨h1, h2⟩ := hw c List.mem_cons_self
  have hslice : slice (definition (c :: w) v) 1 (2 + w.length - 1) = c :: w :=
    slice_split (l := [DOLLAR]) (r := ASSIGN :: v) rfl rfl (by rw [List.length_cons]; omega)
  have hstep : varStep (definition (c :: w) v) vars 1 .char ⟨[], [], last, 1, 1, false⟩ =
      .ok ⟨[], [], .char, 1, 1, false⟩ := by simp [varStep]
  have hassign : varStep (definition (c :: w) v) vars (2 + w.length) .assign ⟨[], [], .char, 1, 1,
    false⟩ =
      .ok (named (c :: w)) := by
    have hlt : ¬ 2 + w.length < 1 := by omega
    simp only [varStep, reduceCtorEq, if_false, if_true, hlt, hslice, named, List.length_cons]
    congr 2
    omega
  change varLoop (definition (c :: w) v) vars (c :: (w ++ ASSIGN :: v)) 1 _ = _
  rw [varLoop, stateVar_char h1 h2, hstep, ok_bind,
    varLoop_inside (fun c hc => hw c (List.mem_cons_of_mem _ hc)) rfl, varLoop, stateVar_assign,
    hassign, ok_bind, List.length_cons]
  congr 1
  omega

/-- Between the name and the end of the line: behind a `$`, or in text that begins behind the last
token. -/
structure Behind (i : ℕ) (s : VarLine) : Prop where
  fin : s.fin < i
  last : s.last = .var ∨ s.last = .char ∧ s.fin < s.beg

theorem varStep_behind {c : UInt8} (hc : c ≠ ASSIGN) (hs : Behind i s)
    (h : varStep line vars i (confParseStateVar c) s = .ok s') : Behind (i + 1) s' := by
  obtain ⟨hf, hl⟩ := hs
  by_cases hd : c = DOLLAR
  · rw [hd, stateVar_dollar] at h
    rcases hl with hl | ⟨hl, -⟩
    · simp only [varStep, hl, reduceCtorEq, if_false] at h
      cases h
      exact ⟨Nat.lt_succ_of_lt hf, .inl rfl⟩
    · simp only [varStep, hl, reduceCtorEq, if_false, if_true] at h
      split_ifs at h
      obtain ⟨s₁, happend, h⟩ := bind_eq_ok.1 h
      cases h
      unfold getVarAndAppend at happend
      split at happend
      · cases happend
      · cases happend
        exact ⟨Nat.lt_succ_self i, .inl rfl⟩
  · rw [stateVar_char hd hc] at h
    cases h
    refine ⟨Nat.lt_succ_of_lt hf, .inr ⟨rfl, ?_⟩⟩
    rcases hl with hl | ⟨hl, hb⟩
    · simpa [hl] using hf
    · simpa [hl] using hb

/-- Behind the name, a `=` is an error or a copy of negative length. -/
theorem varLoop_assign (h : ASSIGN ∈ cs) (hs : Behind i s) : varLoop line vars cs i s ≠ .ok s' := by
  induction cs generalizing i s with
  | nil => cases h
  | cons c cs ih =>
    rw [varLoop]
    intro hok
    obtain ⟨s₁, hstep, hok⟩ := bind_eq_ok.1 hok
    by_cases hc : c = ASSIGN
    · rw [hc, stateVar_assign] at hstep
      rcases hs.last with hl | ⟨hl, hb⟩
      · simp [varStep, hl] at hstep
      · rw [varStep_backwards hl hb] at hstep
        cases hstep
    · exact ih ((List.mem_cons.1 h).resolve_left (Ne.symm hc)) (varStep_behind hc hs hstep) hok

theorem varLoop_end (hv : s.var_link = false) (hi : i = line.length) (hi1 : i ≠ 1) :
    varLoop line vars [] i s = .ok { s with fin := i, value := line.drop s.beg } := by
  rw [varLoop, if_neg hi1, ← slice_drop, ← hi]
  simp [varStep, hv]

theorem varStep_again (hl : s.last = .assign) (hb : s.beg = 1) (hf : 1 < s.fin)
    (hname : slice line 1 (s.fin - 1) = s.name) : varStep line vars i .assign s = .ok s := by
  obtain ⟨name, value, last, beg, fin, link⟩ := s
  cases hl
  cases hb
  simp only [varStep, reduceCtorEq, if_false, if_neg hf.ne', if_neg hf.not_gt]
  rw [hname]

/-- A value without references is what stands behind some byte of the line. -/
theorem varLoop_literal (hcs : DOLLAR ∉ cs) (hl : s.last = .assign) (hv : s.var_link = false)
    (hb : s.beg = 1)
    (hf : 1 < s.fin ∧ s.fin < i) (hname : slice line 1 (s.fin - 1) = s.name)
    (hi : i + cs.length = line.length)
    (h : varLoop line vars cs i s = .ok s') :
    s'.name = s.name ∧ ∃ b, s'.value = line.drop b ∧ (b = 1 ∨ i ≤ b ∧ b < line.length) := by
  induction cs generalizing i with
  | nil =>
    have hi : i = line.length := by simpa using hi
    rw [varLoop_end hv hi (by omega), hb] at h
    cases h
    exact ⟨rfl, 1, rfl, .inl rfl⟩
  | cons c cs ih =>
    rw [List.mem_cons, not_or] at hcs
    rw [List.length_cons] at hi
    by_cases hc : c = ASSIGN
    · rw [hc, varLoop, stateVar_assign, varStep_again hl hb hf.1 hname, ok_bind] at h
      obtain ⟨hn, b, hval, hb'⟩ := ih hcs.2 ⟨hf.1, by omega⟩ (by omega) h
      exact ⟨hn, b, hval, by omega⟩
    · have hstep : varStep line vars i .char s = .ok { s with beg := i, last := .char } := by
        simp [varStep, hl]
      rw [varLoop, stateVar_char (Ne.symm hcs.1) hc, hstep, ok_bind] at h
      by_cases hassign : ASSIGN ∈ cs
      · exact absurd h (varLoop_assign hassign ⟨by dsimp only; omega, .inr ⟨rfl, hf.2⟩⟩)
      · rw [← List.append_nil cs, varLoop_inside (isText_of_free hcs.2 hassign) rfl,
          varLoop_end (s := { s with beg := i, last := .char }) hv (by omega) (by omega)] at h
        cases h
        exact ⟨rfl, i, rfl, .inr ⟨le_rfl, by omega⟩⟩

variable (line) in
theorem varLoop_references {u : Bytes} (hu : confGetVarValue vars n = some u) (vs : List Bytes)
    (hvs : ∀ v ∈ vs, v ≠ [] ∧ IsText v) (hl : s.last = .char) (hv : s.var_link = true)
    (hn : s.name = n)
    (hi : 1 < i) :
    ∃ s', varLoop line vars (references vs) i s = .ok s' ∧ s'.name = n ∧
      s'.value = s.value ++ (List.replicate (vs.length + 1) u).flatten := by
  induction vs generalizing i s with
  | nil =>
    refine ⟨{ s with fin := i, value := s.value ++ u }, ?_, hn, ?_⟩
    · rw [references, List.flatMap_nil, varLoop, if_neg (by omega)]
      simp [varStep, hv, getVarAndAppend, hn, hu]
    · simp
  | cons v vs ih =>
    obtain ⟨hne, hw⟩ := hvs v List.mem_cons_self
    have hstep : varStep line vars i .var s =
      .ok { s with fin := i, value := s.value ++ u, last := .var } := by
      simp [varStep, hl, hv, getVarAndAppend, hn, hu]
    obtain ⟨s', hloop, hname, hval⟩ := ih (fun v hv => hvs v (List.mem_cons_of_mem _ hv))
      (s := { s with fin := i, value := s.value ++ u, beg := i + 1, last := .char })
      (i := i + 1 + v.length)
      rfl hv hn (by omega)
    refine ⟨s', ?_, hname, ?_⟩
    · rw [references, List.flatMap_cons, List.cons_append, varLoop, stateVar_dollar, hstep, ok_bind,
        varLoop_text hw hne (.inl rfl)]
      exact hloop
    · have hrep : List.replicate (vs.length + 1 + 1) u = u :: List.replicate (vs.length + 1) u :=
        List.replicate_succ
      rw [hval, List.length_cons, hrep, List.flatten_cons, List.append_assoc]

/-- Without a value to begin with the first of them is refused. -/
theorem varLoop_unknown (hu : confGetVarValue vars n = none) (vs : List Bytes) (hl : s.last = .char)
    (hv : s.var_link = true) (hn : s.name = n) (hi : 1 < i) :
    varLoop line vars (references vs) i s = .error .abort := by
  cases vs with
  | nil =>
    rw [references, List.flatMap_nil, varLoop, if_neg (by omega)]
    simp [varStep, hv, getVarAndAppend, hn, hu]
  | cons v vs =>
    rw [references, List.flatMap_cons, List.cons_append, varLoop, stateVar_dollar]
    simp [varStep, hl, hv, getVarAndAppend, hn, hu]

theorem varEnd_ok (h0 : n ≠ [] ∧ 0 ∉ n) (hn : s.name = n) :
    varEnd vars s = .ok (confSetVarValue vars ⟨n, h0⟩ s.value) := by
  subst hn
  unfold varEnd
  rw [dif_pos h0]

theorem get_set (vars : List VarElem) (x : VarName) (value : Bytes) :
    confGetVarValue (confSetVarValue vars x value) x = some value := by
  rw [confSetVarValue, confGetVarValue, if_pos ((strcmp_name x x).2 rfl)]

theorem get_set_other (vars : List VarElem) {x m : VarName} (value : Bytes) (hm : m ≠ x) :
    confGetVarValue (confSetVarValue vars x value) m = confGetVarValue vars m := by
  rw [confSetVarValue, confGetVarValue, if_neg fun h => hm ((strcmp_name m x).1 h).symm]

/-- What a line with a name defines is what its value is read as. -/
theorem defines_iff (hn : IsName n) (h0 : 0 ∉ n) {value : Bytes}
    (hname : ∀ s', varLoop (definition n v) vars v (n.length + 2) (named n) = .ok s' →
      s'.name = n) :
    Defines vars (definition n v) n value ↔
      ∃ s', varLoop (definition n v) vars v (n.length + 2) (named n) = .ok s' ∧
        s'.value = value := by
  have hparse : ∀ last, confParseVariable last vars (definition n v) =
      varLoop (definition n v) vars v (n.length + 2) (named n) >>= varEnd vars := by
    intro last
    rw [confParseVariable, varLoop_name hn]
  have hend : ∀ s', s'.name = n → varEnd vars s' = .ok
    (confSetVarValue vars ⟨n, hn.ne, h0⟩ s'.value) :=
    fun _ => varEnd_ok ⟨hn.ne, h0⟩
  constructor
  · intro h
    obtain ⟨vars', hok, hget, -⟩ := h .null
    rw [hparse] at hok
    obtain ⟨s', hloop, hok⟩ := bind_eq_ok.1 hok
    rw [hend s' (hname s' hloop)] at hok
    cases hok
    exact ⟨s', hloop, Option.some.inj ((get_set vars ⟨n, hn.ne, h0⟩ s'.value).symm.trans hget)⟩
  · rintro ⟨s', hloop, rfl⟩ last
    refine ⟨_, ?_, get_set vars ⟨n, hn.ne, h0⟩ s'.value, fun m hm => ?_⟩
    · rw [hparse, hloop, ok_bind, hend s' (hname s' hloop)]
    · exact get_set_other vars s'.value fun h => hm (congrArg Subtype.val h)

theorem definition_length (n v : Bytes) : (definition n v).length = n.length + 2 + v.length := by
  rw [definition, List.length_cons, List.length_append, List.length_cons]
  omega

theorem definition_drop (n v : Bytes) : (definition n v).drop (n.length + 2) = v := by
  rw [definition, List.drop_succ_cons, ← List.drop_drop, List.drop_left]
  rfl

theorem definition_slice (n v : Bytes) : slice (definition n v) 1 n.length = n :=
  slice_split (l := [DOLLAR]) (r := ASSIGN :: v) rfl rfl rfl

theorem literal_iff (hn : IsName n) (h0 : 0 ∉ n) (hv : DOLLAR ∉ v) :
    Defines vars (definition n v) n v ↔ v ≠ [] ∧ ASSIGN ∉ v := by
  have hpos : 0 < n.length := List.length_pos_iff.2 hn.ne
  have hlen := definition_length n v
  have hloop : ∀ {s'}, varLoop (definition n v) vars v (n.length + 2) (named n) = .ok s' →
      s'.name = n ∧ ∃ b, s'.value = (definition n v).drop b ∧
        (b = 1 ∨ n.length + 2 ≤ b ∧ b < (definition n v).length) := by
    intro s' h
    exact varLoop_literal hv rfl rfl rfl
      ⟨by dsimp only [named]; omega, by dsimp only [named]; omega⟩
      (definition_slice n v) hlen.symm h
  rw [defines_iff hn h0 fun s' h => (hloop h).1]
  constructor
  · rintro ⟨s', h, hval⟩
    -- a value of this length stands right behind the first `=`
    have hat : ∀ b, s'.value = (definition n v).drop b → b = 1 ∨ b <
      (definition n v).length → b = n.length + 2 := by
      intro b hb hle
      have hsame := congrArg List.length (hval.symm.trans hb)
      rw [List.length_drop] at hsame
      omega
    obtain ⟨-, b, hdrop, hb⟩ := hloop h
    have hb2 := hat b hdrop (hb.imp_right And.right)
    refine ⟨List.ne_nil_of_length_pos (by omega), fun hmem => ?_⟩
    obtain ⟨c, w, rfl⟩ := List.exists_cons_of_ne_nil (List.ne_nil_of_mem hmem)
    rw [List.mem_cons, not_or] at hv
    by_cases hc : c = ASSIGN
    · rw [hc, varLoop, stateVar_assign, ← hc, varStep_again rfl rfl (by dsimp only [named]; omega)
        (definition_slice n _), ok_bind] at h
      obtain ⟨-, b, hdrop, hb⟩ := varLoop_literal hv.2 rfl rfl rfl
        ⟨by dsimp only [named]; omega, by dsimp only [named]; omega⟩ (definition_slice n _)
        (by rw [hlen, List.length_cons]; omega) h
      have := hat b hdrop (hb.imp_right And.right)
      omega
    · have hstep : varStep (definition n (c :: w)) vars (n.length + 2) .char (named n) =
          .ok { named n with beg := n.length + 2, last := .char } := by simp [varStep, named]
      rw [varLoop, stateVar_char (Ne.symm hv.1) hc, hstep, ok_bind] at h
      refine varLoop_assign ((List.mem_cons.1 hmem).resolve_left (Ne.symm hc))
        ⟨?_, .inr ⟨rfl, ?_⟩⟩ h
      · dsimp only [named]
        omega
      · dsimp only [named]
        omega
  · rintro ⟨hne, hassign⟩
    have htext : varLoop (definition n v) vars (v ++ []) (n.length + 2) (named n) = _ :=
      varLoop_text (isText_of_free hv hassign) hne (.inr rfl)
    rw [List.append_nil, varLoop_end rfl hlen.symm (by omega)] at htext
    exact ⟨_, htext, definition_drop n v⟩

theorem ne_of_map_some {vs us : List Bytes} (hus : vs.map (confGetVarValue vars) = us.map some) :
    ∀ v ∈ vs, v ≠ [] := by
  rintro v hv rfl
  have hmem : confGetVarValue vars [] ∈ us.map some := hus ▸ List.mem_map_of_mem hv
  rw [getVar_nil] at hmem
  obtain ⟨u, -, hu⟩ := List.mem_map.1 hmem
  cases hu

theorem references_iff (hn : IsName n) (h0 : 0 ∉ n) {vs us : List Bytes} (hne : vs ≠ [])
    (hvs : ∀ v ∈ vs, DOLLAR ∉ v)
    (hus : vs.map (confGetVarValue vars) = us.map some) :
    Defines vars (definition n (references vs)) n us.flatten ↔ ASSIGN ∉ references vs ∧
      ∃ u, confGetVarValue vars n = some u ∧ (List.replicate vs.length u).flatten = us.flatten := by
  have hnonempty := ne_of_map_some hus
  obtain ⟨v₀, vs, rfl⟩ := List.exists_cons_of_ne_nil hne
  set line := definition n (references (v₀ :: vs)) with hline
  have hfirst : varLoop line vars (references (v₀ :: vs)) (n.length + 2) (named n) =
      varLoop line vars (v₀ ++ references vs)
        (n.length + 3) { named n with var_link := true, last := .var } := by
    have hstep : varStep line vars (n.length + 2) .var (named n) =
        .ok { named n with var_link := true, last := .var } := by simp [varStep, named]
    rw [references, List.flatMap_cons, List.cons_append, varLoop, stateVar_dollar, hstep, ok_bind]
    rfl
  -- without a result of the loop neither side holds
  have hnone : (∀ s', varLoop line vars (references (v₀ :: vs)) (n.length + 2) (named n) ≠ .ok s') →
      ¬ Defines vars line n us.flatten := by
    intro hloop h
    obtain ⟨s', hok, -⟩ := (defines_iff hn h0 fun s' h => absurd h (hloop s')).1 h
    exact hloop s' hok
  by_cases hassign : ASSIGN ∈ references (v₀ :: vs)
  · refine iff_of_false (hnone fun s' h => ?_) fun h => h.1 hassign
    rw [hfirst] at h
    have hmem : ASSIGN ∈ v₀ ++ references vs := (List.mem_cons.1 hassign).resolve_left (by decide)
    exact varLoop_assign hmem ⟨by dsimp only [named]; omega, .inl rfl⟩ h
  have htext : ∀ v ∈ v₀ :: vs, v ≠ [] ∧ IsText v := by
    intro v hv
    refine ⟨hnonempty v hv, isText_of_free (hvs v hv) fun h => hassign ?_⟩
    exact List.mem_flatMap.2 ⟨v, hv, List.mem_cons_of_mem _ h⟩
  obtain ⟨hne₀, htext₀⟩ := htext v₀ List.mem_cons_self
  rw [varLoop_text htext₀ hne₀ (.inl rfl)] at hfirst
  cases hu : confGetVarValue vars n with
  | none =>
    refine iff_of_false (hnone fun s' h => ?_) ?_
    · rw [hfirst, varLoop_unknown hu vs rfl rfl rfl (by omega)] at h
      cases h
    · rintro ⟨-, u, h, -⟩
      cases h
  | some u =>
    obtain ⟨s', hloop, hname, hval⟩ := varLoop_references line hu vs
      (s := { named n with var_link := true, beg := n.length + 3, last := .char })
      (i := n.length + 3 + v₀.length)
      (fun v hv => htext v (List.mem_cons_of_mem _ hv)) rfl rfl rfl (by omega)
    rw [← hfirst] at hloop
    have hval : s'.value = (List.replicate (v₀ :: vs).length u).flatten := hval
    rw [defines_iff hn h0 fun s₁ h => by rw [← Except.ok.inj (hloop.symm.trans h)]; exact hname]
    constructor
    · rintro ⟨s₁, h, hsame⟩
      obtain rfl := Except.ok.inj (hloop.symm.trans h)
      exact ⟨hassign, u, rfl, hval.symm.trans hsame⟩
    · rintro ⟨-, u', hu', hsame⟩
      cases hu'
      exact ⟨s', hloop, hval.trans hsame⟩

theorem definition_inj {n' v' : Bytes} (hn : IsName n) (hn' : IsName n')
    (h : definition n v = definition n' v') :
    n = n' ∧ v = v' := by
  have hcut : ∀ {n v : Bytes}, IsName n → (n ++ ASSIGN :: v).takeWhile (· != ASSIGN) = n := by
    intro n v hn
    rw [List.takeWhile_append_of_pos]
    · simp
    · intro c hc
      simpa using ne_of_mem_of_not_mem hc hn.assign
  have htail : n ++ ASSIGN :: v = n' ++ ASSIGN :: v' := (List.cons.inj h).2
  have hsame : n = n' := by rw [← hcut hn, htail, hcut hn']
  subst hsame
  exact ⟨rfl, (List.cons.inj (List.append_cancel_left htail)).2⟩

theorem textThenAssign_split (h : textThenAssign cs = true) :
    ∃ w v, IsText w ∧ cs = w ++ ASSIGN :: v := by
  induction cs with
  | nil => cases h
  | cons c cs ih =>
    by_cases h1 : c = ASSIGN
    · exact ⟨[], cs, by simp [IsText], by rw [h1, List.nil_append]⟩
    by_cases h2 : c = DOLLAR
    · rw [textThenAssign, if_neg h1, if_pos h2] at h
      cases h
    · obtain ⟨w, v, hw, rfl⟩ := ih (by simpa [textThenAssign, h1, h2] using h)
      refine ⟨c :: w, v, ?_, rfl⟩
      intro d hd
      rcases List.mem_cons.1 hd with rfl | hd
      · exact ⟨h2, h1⟩
      · exact hw d hd

theorem text_refused (h : textThenAssign cs = false) (hl : s.last = .char) (hn : s.name = [])
    (hv : s.var_link = false) (hi : 1 < i) : ¬ Passes line vars cs i s := by
  induction cs generalizing i s with
  | nil =>
    rw [passes_nil (by omega)]
    simp [varStep, hv, hn, varEnd]
  | cons c cs ih =>
    by_cases h1 : c = ASSIGN
    · simp [textThenAssign, h1] at h
    by_cases h2 : c = DOLLAR
    · apply not_passes_cons
      rw [h2, stateVar_dollar]
      simp [varStep, hl, hv]
    · rw [passes_cons { s with last := .char } (by rw [stateVar_char h2 h1]; simp [varStep, hl])]
      exact ih (by simpa [textThenAssign, h1, h2] using h) rfl hn hv (by omega)

theorem not_unnoticed {c : UInt8} (h1 : c ≠ DOLLAR) (h2 : c ≠ ASSIGN) :
    ¬ Unnoticed vars (DOLLAR :: c :: w) := by
  simp [Unnoticed, h1, h2]

theorem rejected_definition (hn : IsName n) (h0 : 0 ∉ n) :
    Rejected vars (definition n v) ↔ selfNamed (confGetVarValue vars n).isSome v = false := by
  have hpasses : ∀ last, confParseVariable last vars (definition n v) = .error .abort ↔
      ¬ Passes (definition n v) vars v (n.length + 2) (named n) := by
    intro last
    rw [confParseVariable, varLoop_name hn, Passes, not_not]
  have hself : Passes (definition n v) vars v (n.length + 2) (named n) ↔
      selfNamed (confGetVarValue vars n).isSome v = true :=
    passes_selfNamed ⟨hn.ne,
      h0⟩ (Nat.lt_succ_self (n.length + 1)) rfl rfl rfl rfl rfl (definition_slice n v)
  rw [← Bool.not_eq_true, ← hself]
  exact ⟨fun h => (hpasses .null).1 (h .null), fun h last => (hpasses last).2 h⟩

theorem rejected_iff (hline : line.head? = some DOLLAR) (h0 : 0 ∉ line) :
    Rejected vars line ↔ ¬ Unnoticed vars line ∧
      ∀ n v, IsName n → line = definition n v →
        selfNamed (confGetVarValue vars n).isSome v = false := by
  by_cases hdef : ∃ n v, IsName n ∧ line = definition n v
  · obtain ⟨n, v, hn, rfl⟩ := hdef
    have hn0 : 0 ∉ n := fun h => h0 (by simp [definition, h])
    rw [rejected_definition hn hn0]
    constructor
    · intro h
      refine ⟨?_, fun n' v' hn' hsame => ?_⟩
      · obtain ⟨c, w, rfl⟩ := List.exists_cons_of_ne_nil hn.ne
        obtain ⟨h1, h2⟩ := isText_of_free hn.dollar hn.assign c List.mem_cons_self
        exact not_unnoticed h1 h2
      · obtain ⟨rfl, rfl⟩ := definition_inj hn hn' hsame
        exact h
    · rintro ⟨-, h⟩
      exact h n v hn rfl
  have hvac : ∀ n v, IsName n → line = definition n v → selfNamed
    (confGetVarValue vars n).isSome v = false :=
    fun n v hn h => absurd ⟨n, v, hn, h⟩ hdef
  rw [and_iff_left hvac]
  rcases line with _ | ⟨c₀, _ | ⟨c₁, w⟩⟩
  · cases hline
  · simp [Rejected, Unnoticed, confParseVariable, varLoop, varEnd]
  obtain rfl := Option.some.inj hline
  by_cases h1 : c₁ = DOLLAR
  · rw [h1, unnoticed_dollar]
    exact refused_dollar w
  by_cases h2 : c₁ = ASSIGN
  · rw [h2, unnoticed_assign]
    exact refused_assign w
  refine iff_of_true (fun last => ?_) (not_unnoticed h1 h2)
  have htext : textThenAssign w = false := by
    by_contra htext
    obtain ⟨x, v, hx, rfl⟩ := textThenAssign_split (Bool.not_eq_false _ ▸ htext)
    refine hdef ⟨c₁ :: x, v, ⟨List.cons_ne_nil _ _, fun h => ?_, fun h => ?_⟩, rfl⟩
    · exact (List.mem_cons.1 h).elim (fun h => h1 h.symm) fun h => (hx _ h).1 rfl
    · exact (List.mem_cons.1 h).elim (fun h => h2 h.symm) fun h => (hx _ h).2 rfl
  have hstep : varStep (DOLLAR :: c₁ :: w) vars 1 (confParseStateVar c₁) ⟨[], [], last, 1, 1,
    false⟩ =
      .ok ⟨[], [], .char, 1, 1, false⟩ := by simp [stateVar_char h1 h2, varStep]
  have hpass : ¬ Passes (DOLLAR :: c₁ :: w) vars (c₁ :: w) 1 ⟨[], [], last, 1, 1, false⟩ := by
    rw [passes_cons _ hstep]
    exact text_refused htext rfl rfl rfl (by decide)
  exact not_not.1 hpass

end Run

/-- A line is taken as it means, and refused when it means nothing, whatever the variables, exactly
where its form is supported. -/
theorem definition_iff (vars : List VarElem) (line : Bytes) (hline : line.head? = some DOLLAR)
    (h0 : 0 ∉ line) :
    DefinedRight vars line ↔ Supported vars line := by
  have hname : ∀ {n v}, line = definition n v → 0 ∉ n := by
    rintro n v rfl h
    exact h0 (by simp [definition, h])
  constructor
  · rintro ⟨hdef, hrej⟩
    refine ⟨?_, ?_, fun h => (rejected_iff hline h0).1 (hrej h)⟩
    · rintro n v hn rfl hv
      exact (literal_iff hn (hname rfl) hv).1 (hdef n v (.literal hn hv))
    · rintro n vs us hn rfl hne hvs hus
      exact (references_iff hn (hname rfl) hne hvs hus).1 (hdef n _ (.references hn hne hvs hus))
  · rintro ⟨hlit, href, hother⟩
    refine ⟨?_, fun h => (rejected_iff hline h0).2 (hother h)⟩
    rintro n value hm
    cases hm with
    | literal hn hv => exact (literal_iff hn (hname rfl) hv).2 (hlit n _ hn rfl hv)
    | references hn hne hvs hus =>
      exact (references_iff hn (hname rfl) hne hvs hus).2 (href n _ _ hn rfl hne hvs hus)

theorem isName_a : IsName (ascii "a") := ⟨by decide, by decide, by decide⟩

theorem definition_iff_plain : DefinedRight [] (definition (ascii "a") (ascii "b")) := by
  refine (definition_iff [] (definition (ascii "a") (ascii "b")) rfl (by decide)).2
    ⟨?_, ?_, fun h => ?_⟩
  · intro n v hn h _
    obtain ⟨-, rfl⟩ := definition_inj isName_a hn h
    exact ⟨by decide, by decide⟩
  · rintro n (_ | ⟨v, vs⟩) us hn h hne
    · exact absurd rfl hne
    · have hb := (definition_inj isName_a hn h).2
      exact absurd (List.cons.inj hb).1 (by decide)
  · exact absurd (Means.literal isName_a (by decide)) (h (ascii "a") (ascii "b"))

theorem definition_not_right :
    ¬ ∀ (vars : List VarElem) (line : Bytes), line.head? = some DOLLAR → 0 ∉ line →
    DefinedRight vars line := by
  intro h
  have hempty := h [] (definition (ascii "a") []) rfl (by decide)
  obtain ⟨vars, hok, hget, -⟩ := hempty.defines (ascii "a") [] (.literal isName_a (by decide)) .null
  have hrun : (confParseVariable .null [] (definition (ascii "a") [])).map
      (fun vars => confGetVarValue vars (ascii "a")) = .ok (some (ascii "a=")) := by rfl
  rw [hok] at hrun
  change Except.ok (confGetVarValue vars (ascii "a")) = _ at hrun
  rw [hget] at hrun
  cases hrun

end Plume.Conf
