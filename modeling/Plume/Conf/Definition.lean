import Plume.Conf.Parser

/-! Definitions of variables and the local `last` of `plm_conf_parse_variable`, which is read
before it is set: which definitions it makes a difference to. -/

namespace Plume.Conf
open CLib

variable {vars : List VarElem}

section Variables

def textThenAssign : Bytes → Bool
  | [] => false
  | c :: cs => if c = ASSIGN then true else if c = DOLLAR then false else textThenAssign cs

/-- Any number of `$`, then at least one byte of text, then `=`. -/
def unnamed : Bytes → Bool
  | [] => false
  | c :: cs => if c = DOLLAR then unnamed cs else if c = ASSIGN then false else textThenAssign cs

/-- Text alone, or text and then `=`. -/
def textValue : Bytes → Bool
  | [] => true
  | c :: cs => if c = ASSIGN then true else if c = DOLLAR then false else textValue cs

mutual

/-- Links, where the variable under definition has a value already if `known`. -/
def linkValue (known : Bool) : Bytes → Bool
  | [] => known
  | c :: cs =>
    if c = DOLLAR then linkValue known cs else if c = ASSIGN then false else linkName known cs

def linkName (known : Bool) : Bytes → Bool
  | [] => known
  | c :: cs =>
    if c = ASSIGN then true else if c = DOLLAR then known && linkValue known cs
      else linkName known cs

end

/-- What is not refused as the value of a variable, behind the `=` that ends its name. -/
def selfNamed (known : Bool) : Bytes → Bool
  | [] => true
  | c :: cs =>
    if c = ASSIGN then selfNamed known cs
    else if c = DOLLAR then linkValue known cs
    else textValue cs

/-- A definition without a name that goes unnoticed, unless `last` happens to hold what it
should have been set to. -/
def Unnoticed (vars : List VarElem) : Bytes → Prop
  | c₀ :: c₁ :: w =>
    c₀ = DOLLAR ∧ (c₁ = DOLLAR ∧ unnamed w = true ∨
      c₁ = ASSIGN ∧ (unnamed w = true ∨
        ∃ x, w = ASSIGN :: x ∧ selfNamed (confGetVarValue vars [ASSIGN]).isSome x = true))
  | _ => False

variable {line cs : Bytes} {i : ℕ} {s : VarLine}

theorem stateVar_dollar : confParseStateVar DOLLAR = .var := rfl

theorem stateVar_assign : confParseStateVar ASSIGN = .assign := rfl

theorem stateVar_char {c : UInt8} (h1 : c ≠ DOLLAR) (h2 : c ≠ ASSIGN) :
    confParseStateVar c = .char := by
  rw [confParseStateVar, if_neg h1, if_neg h2]

theorem getVar_nil (vars : List VarElem) : confGetVarValue vars [] = none := by
  induction vars with
  | nil => rfl
  | cons e vars ih =>
    cases e with
    | spec n => exact ih
    | data name value =>
      obtain ⟨name, hne, h0⟩ := name
      have hcmp : strcmp [] name = false := by
        unfold strcmp
        rcases name with _ | ⟨c, _ | ⟨d, t⟩⟩
        · exact absurd rfl hne
        · have hc : (0 : UInt8) ≠ c := fun h => h0 (by simp [h])
          simp [hc.symm]
        · simp
      rw [confGetVarValue, hcmp]
      exact ih

/-- What is left of a line, `cs` from index `i` on, does not get the line refused. -/
def Passes (line : Bytes) (vars : List VarElem) (cs : Bytes) (i : ℕ) (s : VarLine) : Prop :=
  (varLoop line vars cs i s >>= varEnd vars) ≠ .error .abort

theorem passes_nil (hi : i ≠ 1) :
    Passes line vars [] i s ↔ (varStep line vars i .lineEnd s >>= varEnd vars) ≠ .error .abort := by
  rw [Passes, varLoop, if_neg hi]

theorem passes_cons {c : UInt8} (s' : VarLine)
    (h : varStep line vars i (confParseStateVar c) s = .ok s') :
    Passes line vars (c :: cs) i s ↔ Passes line vars cs (i + 1) s' := by
  rw [Passes, varLoop, h, ok_bind, Passes]

theorem not_passes_cons {c : UInt8}
    (h : varStep line vars i (confParseStateVar c) s = .error .abort) :
    ¬ Passes line vars (c :: cs) i s := by
  rw [Passes, varLoop, h, error_bind, error_bind]
  exact not_not.2 rfl

theorem passes_fuel {c : UInt8} (h : varStep line vars i (confParseStateVar c) s = .error .fuel) :
    Passes line vars (c :: cs) i s := by
  rw [Passes, varLoop, h, error_bind, error_bind]
  simp

theorem varStep_backwards (hl : s.last = .char) (hf : s.fin < s.beg) :
    varStep line vars i .assign s = .error .fuel := by
  simp [varStep, hl, hf, ne_of_lt hf]

/-- No name so far, and text behind the end of the last token. -/
theorem passes_text (hi : 1 < i) (hl : s.last = .char) (hn : s.name = []) (hf : s.fin < s.beg) :
    Passes line vars cs i s ↔ textThenAssign cs = true := by
  induction cs generalizing i s with
  | nil =>
    rw [passes_nil (by omega)]
    cases hv : s.var_link <;> simp [varStep, hv, getVarAndAppend, hn, getVar_nil, varEnd,
      textThenAssign]
  | cons c cs ih =>
    by_cases h1 : c = ASSIGN
    · subst h1
      simp only [textThenAssign, if_true, iff_true]
      exact passes_fuel (varStep_backwards hl hf)
    by_cases h2 : c = DOLLAR
    · subst h2
      simp only [textThenAssign, h1, if_false, if_true, Bool.false_eq_true, iff_false]
      apply not_passes_cons
      rw [stateVar_dollar]
      cases hv : s.var_link <;> simp [varStep, hl, hv, getVarAndAppend, hn, getVar_nil]
    · rw [passes_cons { s with last := .char }]
      · simp only [textThenAssign, h1, h2, if_false]
        exact ih (by omega) rfl hn hf
      · rw [stateVar_char h2 h1]
        simp [varStep, hl]

theorem passes_unnamed (hi : 1 < i) (hl : s.last = .var) (hn : s.name = []) (hf : s.fin < i) :
    Passes line vars cs i s ↔ unnamed cs = true := by
  induction cs generalizing i s with
  | nil =>
    rw [passes_nil (by omega)]
    cases hv : s.var_link <;> simp [varStep, hv, getVarAndAppend, hn, getVar_nil, varEnd, unnamed]
  | cons c cs ih =>
    by_cases h1 : c = DOLLAR
    · subst h1
      rw [passes_cons { s with last := .var }]
      · simp only [unnamed, if_true]
        exact ih (by omega) rfl hn (Nat.lt_succ_of_lt hf)
      · rw [stateVar_dollar]
        simp [varStep, hl]
    by_cases h2 : c = ASSIGN
    · subst h2
      simp only [unnamed, h1, if_false, if_true, Bool.false_eq_true, iff_false]
      apply not_passes_cons
      simp [stateVar_assign, varStep, hl]
    · rw [passes_cons { s with beg := i, last := .char }]
      · simp only [unnamed, h1, h2, if_false]
        exact passes_text (by omega) rfl hn hf
      · rw [stateVar_char h1 h2]
        simp [varStep, hl]

theorem passes_assigned (hi : 1 < i) (hl : s.last = .assign) (hv : s.var_link = false)
    (hn : s.name = [])
    (hf : s.fin < i)
    (hcs : cs.head? ≠ some ASSIGN) : Passes line vars cs i s ↔ unnamed cs = true := by
  cases cs with
  | nil =>
    rw [passes_nil (by omega)]
    simp [varStep, hv, hn, varEnd, unnamed]
  | cons c cs =>
    have h2 : c ≠ ASSIGN := fun h => hcs (by rw [h]; rfl)
    by_cases h1 : c = DOLLAR
    · subst h1
      rw [passes_cons { s with var_link := true, last := .var }]
      · simp only [unnamed, if_true]
        exact passes_unnamed (by omega) rfl hn (Nat.lt_succ_of_lt hf)
      · rw [stateVar_dollar]
        simp [varStep, hl]
    · rw [passes_cons { s with beg := i, last := .char }]
      · simp only [unnamed, h1, h2, if_false]
        exact passes_text (by omega) rfl hn hf
      · rw [stateVar_char h1 h2]
        simp [varStep, hl]

section Named

variable {name : Bytes} (hname : name ≠ [] ∧ 0 ∉ name)
include hname

theorem varEnd_passes (hn : s.name = name) : varEnd vars s ≠ .error .abort := by
  unfold varEnd
  rw [dif_pos (by rw [hn]; exact hname)]
  simp

theorem passes_value (hi : 1 < i) (hl : s.last = .char) (hv : s.var_link = false)
    (hn : s.name = name)
    (hf : s.fin < s.beg) : Passes line vars cs i s ↔ textValue cs = true := by
  induction cs generalizing i s with
  | nil =>
    rw [passes_nil (by omega)]
    simp only [varStep, hv, Bool.false_eq_true, if_false, ok_bind, textValue, iff_true]
    exact varEnd_passes hname hn
  | cons c cs ih =>
    by_cases h1 : c = ASSIGN
    · subst h1
      simp only [textValue, if_true, iff_true]
      exact passes_fuel (varStep_backwards hl hf)
    by_cases h2 : c = DOLLAR
    · subst h2
      simp only [textValue, h1, if_false, if_true, Bool.false_eq_true, iff_false]
      apply not_passes_cons
      simp [stateVar_dollar, varStep, hl, hv]
    · rw [passes_cons { s with last := .char }]
      · simp only [textValue, h1, h2, if_false]
        exact ih (by omega) rfl hv hn hf
      · rw [stateVar_char h2 h1]
        simp [varStep, hl]

theorem passes_linkEnd (hi : 1 < i) (hv : s.var_link = true) (hn : s.name = name) :
    Passes line vars [] i s ↔ (confGetVarValue vars name).isSome = true := by
  rw [passes_nil (by omega)]
  simp only [varStep, hv, if_true, getVarAndAppend, hn]
  cases confGetVarValue vars name with
  | none => simp
  | some v =>
    simp only [ok_bind, Option.isSome_some, iff_true]
    exact varEnd_passes hname rfl

/-- Links as the value of a variable: behind a `$`, and in the name of a link. -/
theorem passes_link (hi : 1 < i) (hv : s.var_link = true) (hn : s.name = name) :
    (s.last = .var → s.fin < i →
      (Passes line vars cs i s ↔ linkValue (confGetVarValue vars name).isSome cs = true)) ∧
    (s.last = .char → s.fin < s.beg → s.beg < i →
      (Passes line vars cs i s ↔ linkName (confGetVarValue vars name).isSome cs = true)) := by
  induction cs generalizing i s with
  | nil =>
    refine ⟨fun _ _ => ?_, fun _ _ _ => ?_⟩
    · rw [linkValue]
      exact passes_linkEnd hname hi hv hn
    · rw [linkName]
      exact passes_linkEnd hname hi hv hn
  | cons c cs ih =>
    refine ⟨fun hl hf => ?_, fun hl hf hb => ?_⟩
    · by_cases h1 : c = DOLLAR
      · subst h1
        rw [passes_cons { s with last := .var }]
        · simp only [linkValue, if_true]
          exact (ih (s := { s with last := .var }) (by omega) hv hn).1 rfl (Nat.lt_succ_of_lt hf)
        · rw [stateVar_dollar]
          simp [varStep, hl]
      by_cases h2 : c = ASSIGN
      · subst h2
        simp only [linkValue, h1, if_false, if_true, Bool.false_eq_true, iff_false]
        apply not_passes_cons
        simp [stateVar_assign, varStep, hl]
      · rw [passes_cons { s with beg := i, last := .char }]
        · simp only [linkValue, h1, h2, if_false]
          exact (ih (s := { s with beg := i, last := .char }) (by omega) hv hn).2 rfl hf
            (Nat.lt_succ_self i)
        · rw [stateVar_char h1 h2]
          simp [varStep, hl]
    · by_cases h1 : c = ASSIGN
      · subst h1
        simp only [linkName, if_true, iff_true]
        exact passes_fuel (varStep_backwards hl hf)
      by_cases h2 : c = DOLLAR
      · subst h2
        simp only [linkName, h1, if_false, if_true]
        cases hg : confGetVarValue vars name with
        | none =>
          simp only [Option.isSome_none, Bool.false_and, Bool.false_eq_true, iff_false]
          apply not_passes_cons
          simp [stateVar_dollar, varStep, hl, hv, getVarAndAppend, hn, hg]
        | some v =>
          rw [passes_cons { s with fin := i, value := s.value ++ v, last := .var }]
          · have h := (ih (s := { s with fin := i, value := s.value ++ v, last := .var })
              (by omega) hv hn).1
              rfl (Nat.lt_succ_self i)
            rw [hg] at h
            rw [h, Option.isSome_some, Bool.true_and]
          · rw [stateVar_dollar]
            simp [varStep, hl, hv, getVarAndAppend, hn, hg]
      · rw [passes_cons { s with last := .char }]
        · simp only [linkName, h1, h2, if_false]
          exact (ih (s := { s with last := .char }) (by omega) hv hn).2 rfl hf
            (Nat.lt_succ_of_lt hb)
        · rw [stateVar_char h2 h1]
          simp [varStep, hl]

theorem passes_selfNamed (hi : name.length + 1 < i) (hl : s.last = .assign)
    (hv : s.var_link = false)
    (hn : s.name = name) (hb : s.beg = 1) (hf : s.fin = name.length + 1)
    (hline : slice line 1 name.length = name) :
    Passes line vars cs i s ↔ selfNamed (confGetVarValue vars name).isSome cs = true := by
  induction cs generalizing i s with
  | nil =>
    rw [passes_nil (by omega)]
    simp only [varStep, hv, Bool.false_eq_true, if_false, ok_bind, selfNamed, iff_true]
    exact varEnd_passes hname hn
  | cons c cs ih =>
    by_cases h1 : c = ASSIGN
    · subst h1
      rw [passes_cons { s with name := slice line 1 name.length, last := .assign }]
      · simp only [selfNamed, if_true]
        exact ih (by omega) rfl hv hline hb hf
      · rw [stateVar_assign]
        simp [varStep, hl, hb, hf, hname.1]
    by_cases h2 : c = DOLLAR
    · subst h2
      rw [passes_cons { s with var_link := true, last := .var }]
      · simp only [selfNamed, h1, if_false, if_true]
        exact (passes_link hname (s := { s with var_link := true, last := .var })
          (by omega) rfl hn).1 rfl
          (by dsimp only; omega)
      · rw [stateVar_dollar]
        simp [varStep, hl]
    · rw [passes_cons { s with beg := i, last := .char }]
      · simp only [selfNamed, h1, h2, if_false]
        exact passes_value hname (by omega) rfl hv hn (by dsimp only; omega)
      · rw [stateVar_char h2 h1]
        simp [varStep, hl]

end Named

/-- A line that one content of `last` gets refused, and all others unless `p`. -/
theorem refused_iff {p : Prop} (l₀ l₁ : Stat) (h₁ : l₁ ≠ l₀)
    (h₀ : confParseVariable l₀ vars line = .error .abort)
    (h : ∀ l, l ≠ l₀ → (Passes line vars line.tail 1 ⟨[], [], l, 1, 1, false⟩ ↔ p)) :
    (∀ l, confParseVariable l vars line = .error .abort) ↔ ¬ p := by
  constructor
  · intro hall hp
    exact (h l₁ h₁).2 hp (hall l₁)
  · intro hp l
    by_cases hl : l = l₀
    · rw [hl, h₀]
    · exact not_not.1 (mt (h l hl).1 hp)

theorem same_iff (l₀ : Stat) (h₀ : confParseVariable l₀ vars line = .error .abort) :
    (∀ l l', confParseVariable l vars line = confParseVariable l' vars line) ↔
      ∀ l, confParseVariable l vars line = .error .abort := by
  constructor
  · intro hsame l
    exact (hsame l l₀).trans h₀
  · intro hall l l'
    rw [hall l, hall l']

theorem dollar_refused (w : Bytes) :
    confParseVariable .char vars (DOLLAR :: DOLLAR :: w) = .error .abort :=
  not_not.1 (not_passes_cons (by simp [stateVar_dollar, varStep]))

theorem refused_dollar (w : Bytes) :
    (∀ l, confParseVariable l vars (DOLLAR :: DOLLAR :: w) = .error .abort) ↔
      ¬ unnamed w = true := by
  refine refused_iff .char .null (by decide) (dollar_refused w) fun l hl => ?_
  rw [List.tail_cons]
  by_cases ha : l = .assign
  · rw [passes_cons ⟨[], [], .var, 1, 1, true⟩ (by simp [stateVar_dollar, varStep, ha])]
    exact passes_unnamed (by decide) rfl rfl (by decide)
  · rw [passes_cons ⟨[], [], .var, 1, 1, false⟩ (by simp [stateVar_dollar, varStep, ha, hl])]
    exact passes_unnamed (by decide) rfl rfl (by decide)

theorem assign_refused (w : Bytes) :
    confParseVariable .var vars (DOLLAR :: ASSIGN :: w) = .error .abort :=
  not_not.1 (not_passes_cons (by simp [stateVar_assign, varStep]))

theorem refused_assign (w : Bytes) :
    (∀ l, confParseVariable l vars (DOLLAR :: ASSIGN :: w) = .error .abort) ↔
      ¬ (unnamed w = true ∨
        ∃ x, w = ASSIGN :: x ∧ selfNamed (confGetVarValue vars [ASSIGN]).isSome x = true) := by
  refine refused_iff .var .null (by decide) (assign_refused w) fun l hl => ?_
  rw [List.tail_cons,
    passes_cons ⟨[], [], .assign, 1, 1, false⟩ (by simp [stateVar_assign, varStep, hl, slice])]
  by_cases hw : w.head? = some ASSIGN
  · obtain ⟨x, rfl⟩ : ∃ x, w = ASSIGN :: x := by
      cases w with
      | nil => cases hw
      | cons c x => exact ⟨x, by rw [Option.some.inj hw]⟩
    have hu : unnamed (ASSIGN :: x) = false := rfl
    rw [passes_cons ⟨[ASSIGN], [], .assign, 1, 2,
      false⟩ (by simp [stateVar_assign, varStep, slice]),
      passes_selfNamed (by decide) (by decide) rfl rfl rfl rfl rfl rfl, hu]
    simp
  · rw [passes_assigned (by decide) rfl rfl rfl (by decide) hw, or_iff_left]
    rintro ⟨x, hx, -⟩
    exact hw (by rw [hx]; rfl)

theorem unnoticed_dollar (w : Bytes) :
    Unnoticed vars (DOLLAR :: DOLLAR :: w) ↔ unnamed w = true := by
  have hne : DOLLAR ≠ ASSIGN := by decide
  simp [Unnoticed, hne]

theorem unnoticed_assign (w : Bytes) : Unnoticed vars (DOLLAR :: ASSIGN :: w) ↔ unnamed w = true ∨
    ∃ x, w = ASSIGN :: x ∧ selfNamed (confGetVarValue vars [ASSIGN]).isSome x = true := by
  have hne : ASSIGN ≠ DOLLAR := by decide
  simp [Unnoticed, hne]

/-- A definition does not depend on what `last` holds at first, if and only if it is not
one that goes unnoticed. -/
theorem variable_settled (line : Bytes) (hline : line.head? = some DOLLAR) :
    (∀ l l', confParseVariable l vars line = confParseVariable l' vars line) ↔
      ¬ Unnoticed vars line := by
  rcases line with _ | ⟨c₀, _ | ⟨c₁, w⟩⟩
  · cases hline
  · simp [Unnoticed, confParseVariable, varLoop, varEnd]
  obtain rfl := Option.some.inj hline
  by_cases h1 : c₁ = DOLLAR
  · subst h1
    rw [same_iff .char (dollar_refused w), refused_dollar, unnoticed_dollar]
  by_cases h2 : c₁ = ASSIGN
  · subst h2
    rw [same_iff .var (assign_refused w), refused_assign, unnoticed_assign]
  · have hstep : ∀ l, varStep (DOLLAR :: c₁ :: w) vars 1 .char ⟨[], [], l, 1, 1, false⟩ =
        .ok ⟨[], [], .char, 1, 1, false⟩ := by
      intro l
      simp [varStep]
    simp [Unnoticed, h1, h2, confParseVariable, varLoop, stateVar_char h1 h2, hstep]

theorem varStep_not_wild (i : ℕ) (stat : Stat) (s : VarLine) :
    varStep line vars i stat s ≠ .error .wild := by
  have happend : ∀ s, getVarAndAppend vars s ≠ .error .wild := by
    intro s
    unfold getVarAndAppend
    cases confGetVarValue vars s.name <;> simp
  unfold varStep
  cases stat with
  | assign => dsimp only; split_ifs <;> simp
  | char => simp
  | var =>
    dsimp only
    split_ifs
    · simp
    · intro h
      cases hg : getVarAndAppend vars { s with fin := i } with
      | error f =>
        rw [hg, error_bind] at h
        exact happend _ (hg.trans h)
      | ok x => rw [hg, ok_bind] at h; cases h
    · simp
    · simp
  | lineEnd =>
    dsimp only
    split_ifs
    · exact happend _
    · simp
  | null | blockBeg | blockEnd | space | invalid => simp

theorem varLoop_not_wild (cs : Bytes) (i : ℕ) (s : VarLine) :
    varLoop line vars cs i s ≠ .error .wild := by
  induction cs generalizing i s with
  | nil =>
    rw [varLoop]
    split_ifs
    · simp
    · exact varStep_not_wild _ _ _
  | cons c cs ih =>
    rw [varLoop]
    cases h : varStep line vars i (confParseStateVar c) s with
    | error f =>
      rw [error_bind]
      exact fun hf => varStep_not_wild _ _ _ (h.trans hf)
    | ok s' => exact ih _ _

theorem variable_not_wild (last : Stat) (vars : List VarElem) (line : Bytes) :
    confParseVariable last vars line ≠ .error .wild := by
  unfold confParseVariable
  cases h : varLoop line vars line.tail 1 ⟨[], [], last, 1, 1, false⟩ with
  | error f =>
    rw [error_bind]
    intro hf
    cases hf
    exact varLoop_not_wild _ _ _ h
  | ok s =>
    rw [ok_bind, varEnd]
    split_ifs <;> simp

end Variables

end Plume.Conf
