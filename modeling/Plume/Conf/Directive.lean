import Plume.Conf.Load
import Plume.Conf.Rules

/-! What a line of the file comes to, by its text: the command its first word names, and the
calls it makes in the context it is given. -/

namespace Plume.Conf
open CLib

variable {ε κ : Type} {table : ε → List (Cmd ε κ)} {vars : List VarElem}

section Text

/-- The trimming loop looks at the NUL behind the line, and takes nothing off. -/
theorem trimEnd_length (l : Bytes) (i : ℕ) : trimEnd l i l.length = l.length := by
  cases h : l.length with
  | zero => rfl
  | succ n =>
    have hnul : (l ++ [0])[n + 1]? = some 0 := by simp [← h]
    rw [trimEnd, hnul, if_neg]
    rintro ⟨-, h0⟩
    cases h0

theorem slice_drop (l : Bytes) (i : ℕ) : slice l i (l.length - i) = l.drop i := by
  rw [slice, List.take_of_length_le]
  rw [List.length_drop]

theorem drop_takeWhile (p : UInt8 → Bool) (l : Bytes) :
    l.drop (l.takeWhile p).length = l.dropWhile p := by
  calc l.drop (l.takeWhile p).length
      = (l.takeWhile p ++ l.dropWhile p).drop (l.takeWhile p).length := by
        rw [List.takeWhile_append_dropWhile]
    _ = l.dropWhile p := List.drop_left

/-- What stands behind the white space a line begins with. -/
def body (l : Bytes) : Bytes := (lineText l).dropWhile isSpace

theorem body_hash (h : (lineText l).head? = some HASH) : (body l).head? = some HASH := by
  unfold body
  cases hl : lineText l with
  | nil => rw [hl] at h; cases h
  | cons c cs =>
    rw [hl] at h
    cases h
    rfl

theorem loadLine_eq (table : ε → List (Cmd ε κ)) (junk : ℕ → Junk κ) (l : Bytes)
    (st : LoadState ε κ) :
    loadLine table junk l st =
      if lineText l = [] ∨ (body l).head? = some HASH then ([], .ok st)
      else loadParse table junk (body l) st := by
  unfold loadLine
  dsimp only
  rw [trimEnd_length, slice_drop, drop_takeWhile]
  change (if lineText l = [] ∨ (lineText l).head? = some HASH then _ else
    if (body l).head? = some HASH then _ else loadParse table junk (body l) st) = _
  by_cases h : lineText l = []
  · rw [if_pos (.inl h), if_pos (.inl h)]
  by_cases hh : (lineText l).head? = some HASH
  · rw [if_pos (.inr hh), if_pos (.inr (body_hash hh))]
  · rw [if_neg (by simp [h, hh])]
    simp only [h, false_or]

end Text

section Word

variable {line t r : Bytes} {i : ℕ} {stat stat' : Stat} {s s' : Ins ε κ} {P : Ins ε κ → Prop}

def word (t : Bytes) : Bytes := t.takeWhile fun c => confParseStateIns c = .char

theorem insLoop_inside (table : ε → List (Cmd ε κ)) (vars : List VarElem) (line r : Bytes)
    {w : Bytes}
    (hw : ∀ c ∈ w, confParseStateIns c = .char) (hs : s.last = .char) (i : ℕ) :
    insLoop table vars line .char (w ++ r) i s = insLoop table vars line .char r
      (i + w.length) s := by
  induction w generalizing i with
  | nil => rfl
  | cons c w ih =>
    have hsame : ({ s with beg := s.beg, last := .char } : Ins ε κ) = s := by rw [← hs]
    rw [List.cons_append, insLoop, hw c List.mem_cons_self]
    simp only [insStep, hs, reduceCtorEq, or_self, if_false, hsame]
    rw [ih (fun c hc => hw c (List.mem_cons_of_mem _ hc)), List.length_cons, Nat.add_right_comm]
    rfl

theorem insLoop_first (table : ε → List (Cmd ε κ)) (vars : List VarElem) (line r : Bytes)
    {w : Bytes}
    (stat : Stat) (hw : ∀ c ∈ w, confParseStateIns c = .char) (hne : w ≠ []) (hs : s.last = .null) :
    insLoop table vars line stat (w ++ r) 0 s =
      insLoop table vars line .char r w.length { s with last := .char } := by
  obtain ⟨c, w, rfl⟩ := List.exists_cons_of_ne_nil hne
  rw [List.cons_append, insLoop, hw c List.mem_cons_self]
  simp only [insStep, hs, reduceCtorEq, or_self, if_false]
  rw [insLoop_inside table vars line r (fun c hc => hw c (List.mem_cons_of_mem _ hc)) rfl,
    List.length_cons, Nat.zero_add, Nat.add_comm]

section First

variable {ctx : Option κ} {env : ε} {cl : CmdLine}

end First

end Word

section Calls

variable {t : Bytes} {stat : Stat} {s : Ins ε κ} {ctx ctx0 : Option κ} {env : ε}
  {calls : List (Call κ)}
  {cmd : Cmd ε κ} {j : Junk κ}

/-- What a command does when it is named: the context and the state behind that, and the calls. -/
def Cmd.named (cmd : Cmd ε κ) (ctx : Option κ) (env : ε) : Option κ × ε × List (Call κ) :=
  match cmd.c_type with
  | .block =>
    let (ctx', env) := cmd.c_create_ctx ctx env
    (ctx', env, [.createCtx cmd.c_name ctx ctx'])
  | .instruction => (ctx, env, [])

def braceOr (stat : Stat) : Stat := if stat = .blockBeg ∨ stat = .blockEnd then stat else .lineEnd

theorem braceOr_idem (stat : Stat) : braceOr (braceOr stat) = braceOr stat := by
  cases stat <;> rfl

theorem insEnd_ok {stat1 : Stat} {s1 : Ins ε κ}
    (h : insEnd table (.ok (stat1, s1)) = .ok (stat, s)) :
    ∃ rc, confSetCmd table s1 = .ok (rc, s) ∧ stat = if rc ≠ 0 then .invalid
      else braceOr stat1 := by
  obtain ⟨⟨rc, s2⟩, hset, hend⟩ := bind_eq_ok.1 h
  dsimp only at hend
  by_cases hrc : rc ≠ 0
  · rw [if_pos hrc] at hend
    cases hend
    exact ⟨rc, hset, by rw [if_pos hrc]⟩
  · rw [if_neg hrc] at hend
    cases hend
    exact ⟨rc, hset, by rw [if_neg hrc]; rfl⟩

/-- A line that is accepted has been read to its end. -/
theorem parseIns_loop (h : confParseIns table j vars t ctx env = .ok (stat, s))
    (hstat : stat ≠ .invalid) :
    ∃ stat1 s1, insLoop table vars t j.stat t 0
        (Ins.start ctx env ⟨false, j.cl_name, j.cl_params⟩) = .ok (stat1, s1) ∧
      stat = braceOr stat1 := by
  unfold confParseIns at h
  change insEnd table
    (insLoop table vars t j.stat t 0 (Ins.start ctx env ⟨false, j.cl_name, j.cl_params⟩)) =
    _ at h
  cases hl : insLoop table vars t j.stat t 0
    (Ins.start ctx env ⟨false, j.cl_name, j.cl_params⟩) with
  | error s1 =>
    rw [hl] at h
    cases h
    exact absurd rfl hstat
  | ok y =>
    obtain ⟨stat1, s1⟩ := y
    rw [hl] at h
    obtain ⟨rc, -, hrc⟩ := insEnd_ok h
    split_ifs at hrc
    · exact absurd hrc hstat
    · exact ⟨stat1, s1, rfl, hrc⟩

theorem parseIns_stat (ht : t ≠ []) (h : confParseIns table j vars t ctx env = .ok (stat, s))
    (hstat : stat ≠ .invalid) : stat = if t.getLast? = some LBRACE then .blockBeg
      else if t = [RBRACE] then .blockEnd else .lineEnd := by
  obtain ⟨stat1, s1, hl, hstat2⟩ := parseIns_loop h hstat
  have hcloses := insLoop_closes hl ht
  have hstat1 : stat1 = braceOr (lastStat j.stat t) := insLoop_stat hl (.inr ht)
  rw [hstat2, hstat1, braceOr_idem]
  obtain ⟨u, c, rfl⟩ := (List.eq_nil_or_concat t).resolve_left ht
  have hlast : lastStat j.stat (u.concat c) = confParseStateIns c := by simp [lastStat]
  have hget : (u.concat c).getLast? = some c := by simp
  rw [hlast] at hcloses ⊢
  rw [hget]
  by_cases h1 : c = LBRACE
  · rw [h1, if_pos rfl]
    rfl
  rw [if_neg (by simpa using h1)]
  by_cases h2 : c = RBRACE
  · rw [if_pos (hcloses (by rw [h2]; rfl)), h2]
    rfl
  · have hne : u.concat c ≠ [RBRACE] := by
      intro he
      rw [he] at hget
      exact h2 (Option.some.inj hget).symm
    rw [if_neg hne]
    unfold confParseStateIns
    rw [if_neg h1, if_neg h2]
    split_ifs <;> rfl

end Calls

end Plume.Conf
