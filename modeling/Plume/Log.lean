import Plume.CLib.Run
import Plume.Str

/-! The log file of a thread, `plm_log.c`. `plm_log_close` forgets the `FILE` it closed only when
`fclose` failed. -/

namespace Plume
open CLib

def PLM_LOG_FATAL : ℤ := 0

def PLM_LOG_WARNING : ℤ := 1

def PLM_LOG_TRACE : ℤ := 2

def PLM_LOG_DEBUG : ℤ := 3

def PLM_LOG_UNKNOWN : ℤ := 4

/-- `msg` in `plm_log_write`, which is not initialised for any other level. -/
def logMsg (level : ℤ) (uninit : Bytes) : Bytes :=
  if level = PLM_LOG_TRACE then ascii "[TRACE]"
  else if level = PLM_LOG_DEBUG then ascii "[DEBUG]"
  else if level = PLM_LOG_FATAL then ascii "[FATAL]"
  else if level = PLM_LOG_WARNING then ascii "[WARNING]"
  else uninit

structure LogFile where
  path : String
  written : Bytes
deriving DecidableEq, Repr

/-- `struct plm_log` of the thread, and the `FILE`s, numbered as `fopen` returned them, as long as
they are open. -/
structure LogState where
  l_fp : Option ℕ
  l_level : ℤ
  file : ℕ → Option LogFile
  fopens : ℕ

def logStart : LogState := ⟨none, 0, fun _ => none, 0⟩

/-- `plm_log_close`. Whether `fclose` succeeds or not, the `FILE` is closed behind it. -/
def logClose (closes : Bool) (s : LogState) : Except Fault (ℤ × LogState) :=
  match s.l_fp with
  | none => .ok (0, s)
  | some fp =>
    match s.file fp with
    | none => .error .wild
    | some _ =>
      let s := { s with file := Function.update s.file fp none }
      .ok (if closes then (0, s) else (-1, { s with l_fp := none, l_level := PLM_LOG_UNKNOWN }))

/-- `plm_log_open`, where `opens` and `closes` tell what `fopen` and `fclose` do. -/
def logOpen (level : ℤ) (filepath : String) (opens closes : Bool) (s : LogState) :
    Except Fault (ℤ × LogState) := do
  let (_, s) ← logClose closes s
  let s := if opens then { s with
    l_fp := some s.fopens
    l_level := level
    file := Function.update s.file s.fopens (some ⟨filepath, []⟩)
    fopens := s.fopens + 1 } else s
  return (if s.l_fp.isSome then 0 else -1, s)

def logLine (level : ℤ) (uninit date_str text : Bytes) : Bytes :=
  date_str ++ ascii " " ++ logMsg level uninit ++ ascii ": " ++ text ++ ascii "\n"

def logWrite (level : ℤ) (uninit date_str text : Bytes) (s : LogState) :
    Except Fault (ℤ × LogState) :=
  match s.l_fp with
  | none => .ok (0, s)
  | some fp =>
    if s.l_level = PLM_LOG_UNKNOWN ∨ level > s.l_level then .ok (0, s)
    else
      match s.file fp with
      | none => .error .wild
      | some f =>
        let line := logLine level uninit date_str text
        .ok (line.length, { s with file := Function.update s.file fp (some ⟨f.path,
          f.written ++ line⟩) })

inductive LogOp
  | open (level : ℤ) (filepath : String) (opens closes : Bool)
  | write (level : ℤ) (uninit date_str text : Bytes)
  | close (closes : Bool)
deriving DecidableEq, Repr

def logExec (s : LogState) : LogOp → Except Fault (ℤ × LogState)
  | .open level filepath opens closes => logOpen level filepath opens closes s
  | .write level uninit date_str text => logWrite level uninit date_str text s
  | .close closes => logClose closes s

def logStep (s : LogState) (op : LogOp) : Option LogState := (logExec s op).toOption.map Prod.snd

def OneFile (s : LogState) : Prop := ∀ a b, s.file a ≠ none → s.file b ≠ none → a = b

def LogsTo (filepath : String) (s : LogState) : Prop :=
  ∃ fp f, s.l_fp = some fp ∧ s.file fp = some f ∧ f.path = filepath

/-- No call uses a `FILE` that is closed, never are two files open, and `plm_log_open` returns 0
when the file it was to open is the open one, and not otherwise. -/
structure LogLifecycle (ops : List LogOp) : Prop where
  uses : ∀ pre, pre <+: ops → ∃ s, run logStep logStart pre = some s ∧ OneFile s
  opens : ∀ pre op, pre ++ [op] <+: ops →
    ∀ level filepath opens closes, op = .open level filepath opens closes →
    ∀ s rc s', run logStep logStart pre = some s → logExec s op = .ok (rc, s') →
      (rc = 0 ↔ LogsTo filepath s')

/-- What the calls made so far have come to: no log, a log that is open, or one that was closed
without an error. -/
inductive LogPhase
  | none
  | open (level : ℤ)
  | closed (level : ℤ)
deriving DecidableEq, Repr

namespace LogPhase

def close (closes : Bool) : LogPhase → LogPhase
  | .open level => if closes then .closed level else .none
  | p => p

def step (p : LogPhase) : LogOp → LogPhase
  | .open level _ opens closes => if opens then .open level else p.close closes
  | .write .. => p
  | .close closes => p.close closes

def after (ops : List LogOp) : LogPhase := ops.foldl step none

end LogPhase

/-- With a log that was closed nothing is done but writing below its level, and a log that is open
is not closed without an error for a file that cannot be opened. -/
def LogSafe : LogPhase → LogOp → Prop
  | .none, _ => True
  | .open _, .open _ _ opens closes => opens = true ∨ closes = false
  | .open _, _ => True
  | .closed level, .write l _ _ _ => level = PLM_LOG_UNKNOWN ∨ l > level
  | .closed _, _ => False

def PhaseInv (s : LogState) : LogPhase → Prop
  | .none => s.l_fp = none ∧ ∀ a, s.file a = none
  | .open level =>
    s.l_level = level ∧ ∃ fp f, s.l_fp = some fp ∧ ∀ a, s.file a = if a = fp then some f else none
  | .closed level => s.l_level = level ∧ s.l_fp ≠ none ∧ ∀ a, s.file a = none

section Step

variable {s s' : LogState} {p : LogPhase} {op : LogOp} {rc : ℤ} {closes : Bool}

theorem PhaseInv.oneFile (h : PhaseInv s p) : OneFile s := by
  intro a b ha hb
  cases p with
  | none => exact absurd (h.2 a) ha
  | «open» level =>
    obtain ⟨-, fp, f, -, hf⟩ := h
    have heq : ∀ x, s.file x ≠ none → x = fp := fun x hx => by
      by_contra hne
      exact hx ((hf x).trans (if_neg hne))
    rw [heq a ha, heq b hb]
  | closed level => exact absurd (h.2.2 a) ha

/-- Closing a log that was not closed before, after which no file is open. -/
theorem PhaseInv.close (h : PhaseInv s p) (hp : ∀ level, p ≠ .closed level) (closes : Bool) :
    ∃ rc s', logClose closes s = .ok (rc, s') ∧ PhaseInv s' (p.close closes) ∧
      ∀ a, s'.file a = none := by
  cases p with
  | none =>
    refine ⟨0, s, ?_, h, h.2⟩
    rw [logClose, h.1]
  | «open» level =>
    obtain ⟨hlevel, fp, f, hfp, hf⟩ := h
    have hnone : ∀ a, Function.update s.file fp none a = none := by
      intro a
      by_cases ha : a = fp
      · rw [ha, Function.update_self]
      · rw [Function.update_of_ne ha, hf, if_neg ha]
    have hlive : s.file fp = some f := (hf fp).trans (if_pos rfl)
    rw [logClose, hfp]
    simp only [hlive]
    cases closes with
    | true => exact ⟨_, _, rfl, ⟨hlevel, by simp, hnone⟩, hnone⟩
    | false => exact ⟨_, _, rfl, ⟨rfl, hnone⟩, hnone⟩
  | closed level => exact absurd rfl (hp level)

/-- A log that was closed is not closed again without a fault. -/
theorem PhaseInv.close_closed {level : ℤ} (h : PhaseInv s (.closed level)) (closes : Bool) :
    logClose closes s = .error .wild := by
  obtain ⟨-, hfp, hf⟩ := h
  obtain ⟨fp, hfp⟩ := Option.ne_none_iff_exists'.1 hfp
  rw [logClose, hfp]
  simp only [hf fp]

/-- Writing to a log that was closed goes well only below its level. -/
theorem PhaseInv.write_closed {level l : ℤ} (h : PhaseInv s (.closed level))
    (uninit date_str text : Bytes) :
    logWrite l uninit date_str text s =
      if level = PLM_LOG_UNKNOWN ∨ l > level then .ok (0, s) else .error .wild := by
  obtain ⟨hlevel, hfp, hf⟩ := h
  obtain ⟨fp, hfp⟩ := Option.ne_none_iff_exists'.1 hfp
  rw [logWrite, hfp, hlevel]
  simp only [hf fp]

theorem PhaseInv.write (h : PhaseInv s p) (hp : ∀ level, p ≠ .closed level) (l : ℤ)
    (uninit date_str text : Bytes) :
    ∃ rc s', logWrite l uninit date_str text s = .ok (rc, s') ∧ PhaseInv s' p := by
  cases p with
  | none =>
    refine ⟨0, s, ?_, h⟩
    rw [logWrite, h.1]
  | «open» level =>
    obtain ⟨hlevel, fp, f, hfp, hf⟩ := h
    have hlive : s.file fp = some f := (hf fp).trans (if_pos rfl)
    rw [logWrite, hfp]
    simp only [hlive]
    split_ifs
    · exact ⟨_, _, rfl, hlevel, fp, f, hfp, hf⟩
    · refine ⟨_, _, rfl, hlevel, fp, ⟨f.path, f.written ++ logLine l uninit date_str text⟩, rfl,
        fun a => ?_⟩
      by_cases ha : a = fp
      · rw [ha, if_pos rfl]
        exact Function.update_self ..
      · rw [if_neg ha]
        exact (Function.update_of_ne ha ..).trans ((hf a).trans (if_neg ha))
  | closed level => exact absurd rfl (hp level)

/-- Opening a log reports what has become of it just where it is safe. -/
theorem PhaseInv.open (h : PhaseInv s p) (hp : ∀ level, p ≠ .closed level) (level : ℤ)
    (filepath : String)
    (opens closes : Bool) : ∃ rc s', logOpen level filepath opens closes s = .ok (rc, s') ∧
      PhaseInv s' (p.step (.open level filepath opens closes)) ∧
      ((rc = 0 ↔ LogsTo filepath s') ↔ LogSafe p (.open level filepath opens closes)) := by
  obtain ⟨rc, s1, hclose, h1, hnone⟩ := h.close hp closes
  rw [logOpen, hclose, ok_bind]
  cases opens with
  | true =>
    refine ⟨_, _, rfl, ⟨rfl, s1.fopens, ⟨filepath, []⟩, rfl, fun a => ?_⟩, iff_of_true ?_ ?_⟩
    · simp only [if_true, Function.update_apply, hnone]
    · exact iff_of_true rfl ⟨_, _, rfl, Function.update_self .., rfl⟩
    · cases p with
      | none => trivial
      | «open» l => exact .inl rfl
      | closed l => exact absurd rfl (hp l)
  | false =>
    have hto : ¬ LogsTo filepath s1 := fun ⟨fp, f, _, hf, _⟩ => by simp [hnone] at hf
    refine ⟨_, _, rfl, h1, ?_⟩
    simp only [Bool.false_eq_true, if_false, hto, iff_false]
    cases p with
    | none => simp [h1.1, LogSafe]
    | «open» l =>
      cases closes with
      | true => simp [Option.isSome_iff_ne_none.2 h1.2.1, LogSafe]
      | false => simp [h1.1, LogSafe]
    | closed l => exact absurd rfl (hp l)

end Step

section Run

variable {s s' : LogState} {p : LogPhase} {op : LogOp} {rc : ℤ}

/-- The step lemma: a safe call returns, and keeps the invariant. -/
theorem PhaseInv.exec (h : PhaseInv s p) (hsafe : LogSafe p op) :
    ∃ rc s', logExec s op = .ok (rc, s') ∧
    PhaseInv s' (p.step op) ∧
      ∀ level filepath opens closes, op = .open level filepath opens closes →
      (rc = 0 ↔ LogsTo filepath s') := by
  cases op with
  | «open» level filepath opens closes =>
    have hp : ∀ l, p ≠ .closed l := by
      rintro l rfl
      exact hsafe
    obtain ⟨rc, s', hopen, h', hiff⟩ := h.open hp level filepath opens closes
    refine ⟨rc, s', hopen, h', fun _ _ _ _ heq => ?_⟩
    cases heq
    exact hiff.2 hsafe
  | write l uninit date_str text =>
    cases p with
    | closed level =>
      refine ⟨0, s, (h.write_closed uninit date_str text).trans (if_pos hsafe), h,
        fun _ _ _ _ heq => by cases heq⟩
    | none | «open» level =>
      obtain ⟨rc, s', hwrite, h'⟩ := h.write (by simp) l uninit date_str text
      exact ⟨rc, s', hwrite, h', fun _ _ _ _ heq => by cases heq⟩
  | close closes =>
    have hp : ∀ l, p ≠ .closed l := by
      rintro l rfl
      exact hsafe
    obtain ⟨rc, s', hclose, h', -⟩ := h.close hp closes
    exact ⟨rc, s', hclose, h', fun _ _ _ _ heq => by cases heq⟩

theorem PhaseInv.safe (h : PhaseInv s p) (hexec : logExec s op = .ok (rc, s'))
    (hopen : ∀ level filepath opens closes, op = .open level filepath opens closes →
      (rc = 0 ↔ LogsTo filepath s')) :
    LogSafe p op := by
  cases p with
  | none => trivial
  | «open» level =>
    cases op with
    | «open» l filepath opens closes =>
      obtain ⟨rc', s'', hexec', -, hiff⟩ := h.open (by simp) l filepath opens closes
      rw [show logExec s _ = logOpen l filepath opens closes s from rfl, hexec'] at hexec
      cases hexec
      exact hiff.1 (hopen _ _ _ _ rfl)
    | write l uninit date_str text => trivial
    | close closes => trivial
  | closed level =>
    cases op with
    | «open» l filepath opens closes =>
      rw [logExec, logOpen, h.close_closed closes] at hexec
      cases hexec
    | write l uninit date_str text =>
      rw [logExec, h.write_closed uninit date_str text] at hexec
      split_ifs at hexec with hl
      exact hl
    | close closes =>
      rw [logExec, h.close_closed closes] at hexec
      cases hexec

theorem run_logStep {s₀ : LogState} {pre : List LogOp} (h : run logStep s₀ pre = some s)
    (op : LogOp) :
    run logStep s₀ (pre ++ [op]) = some s' ↔ ∃ rc, logExec s op = .ok (rc, s') := by
  rw [run_snoc, h, Option.bind_some, logStep, Option.map_eq_some_iff]
  constructor
  · rintro ⟨⟨rc, s1⟩, hexec, rfl⟩
    exact ⟨rc, toOption_eq_some.1 hexec⟩
  · rintro ⟨rc, hexec⟩
    exact ⟨(rc, s'), toOption_eq_some.2 hexec, rfl⟩

end Run

/-- For every sequence of calls of a thread, whatever `fopen` and `fclose` do: the life of the log
is as it should be just when every call is safe. -/
theorem logLifecycle_iff (ops : List LogOp) :
    LogLifecycle ops ↔ ∀ pre op, pre ++ [op] <+: ops → LogSafe (LogPhase.after pre) op := by
  have hafter : ∀ (pre : List LogOp) op, LogPhase.after
    (pre ++ [op]) = (LogPhase.after pre).step op :=
    fun pre op => List.foldl_concat ..
  have hiff := forall_prefix_iff_of_invariant (l := ops)
    (P := fun pre => ∃ s, run logStep logStart pre = some s ∧ OneFile s)
    (I := fun pre => ∃ s, run logStep logStart pre = some s ∧ PhaseInv s (LogPhase.after pre))
    (Q := fun pre op => ∀ level filepath opens closes, op = .open level filepath opens closes →
      ∀ s rc s', run logStep logStart pre = some s → logExec s op = .ok (rc, s') →
        (rc = 0 ↔ LogsTo filepath s'))
    (C := fun pre op => LogSafe (LogPhase.after pre) op) ⟨logStart, rfl, rfl, fun _ => rfl⟩ ?_ ?_ ?_
  · exact ⟨fun ⟨huses, hopens⟩ => hiff.1 ⟨huses, hopens⟩,
      fun hsafe => ⟨(hiff.2 hsafe).1, (hiff.2 hsafe).2⟩⟩
  · rintro pre ⟨s, hs, hi⟩
    exact ⟨s, hs, hi.oneFile⟩
  · rintro pre op - ⟨s, hs, hi⟩ ⟨s', hs', -⟩ hopens
    obtain ⟨rc, hexec⟩ := (run_logStep hs op).1 hs'
    exact hi.safe hexec fun level filepath opens closes heq =>
      hopens level filepath opens closes heq s rc s' hs hexec
  · rintro pre op - ⟨s, hs, hi⟩ hsafe
    obtain ⟨rc, s', hexec, hi', hopens⟩ := hi.exec hsafe
    refine ⟨⟨s', (run_logStep hs op).2 ⟨rc, hexec⟩, hafter pre op ▸ hi'⟩, ?_⟩
    intro level filepath opens closes heq t rc' t' ht hexec'
    rw [hs] at ht
    cases ht
    rw [hexec] at hexec'
    cases hexec'
    exact hopens level filepath opens closes heq

/-- A thread that shuts down closes its log, and then logs. -/
theorem not_logLifecycle : ¬ ∀ ops, LogLifecycle ops := by
  intro h
  obtain ⟨s, hs, -⟩ := (h [.open PLM_LOG_TRACE "plume.log" true true, .close true,
    .write PLM_LOG_TRACE [] [] []]).uses _ (List.prefix_refl _)
  cases hs

end Plume
