import Mathlib.Data.List.TakeWhile
import Plume.CLib.Copy
import Plume.Number

/-! The name of a thread's log file: the directory that `logpath` or `plm_main_ctx_create` leaves in
`main_ctx`, and the name that `plm_disp_open_log` makes of it in a buffer of its own. -/

namespace Plume
open CLib

abbrev MAX_PATH : ℕ := 256

abbrev SLASH : UInt8 := 47

structure CText where
  bytes : Bytes
  ne : bytes ≠ []
  free : 0 ∉ bytes

structure LogConf where
  mc_log_path : PStr
  mc_log_level : ℤ
deriving DecidableEq, Repr

section Model

/-- `plm_strdup`; `mem` says whether `malloc` had memory. -/
def strdup (mem : Bool) (out src : PStr) : Except Fault PStr :=
  if mem then do
    let str ← memcpy (List.replicate (sizeT src.s_len) 0) 0 src.s_str (sizeT src.s_len)
    .ok ⟨str, src.s_len⟩
  else .ok out

def strcat2 (mem : Bool) (out dup cat : PStr) : Except Fault (ℤ × PStr) :=
  let len := dup.s_len + cat.s_len
  if mem then do
    let str ← memcpy (List.replicate (sizeT len) 0) 0 dup.s_str (sizeT dup.s_len)
    let str ← memcpy str (sizeT dup.s_len) cat.s_str (sizeT cat.s_len)
    .ok (len, ⟨str, len⟩)
  else .ok (-1, out)

def stringNull : PStr := ⟨[], 0⟩

def logpathLoop : List Bool → PStr → PStr → List PStr → Except Fault (PStr × PStr)
  | _, logpath, loglevel, [] => .ok (logpath, loglevel)
  | mem, logpath, loglevel, param :: params =>
    if logpath.s_len = 0 then do
      let logpath ← strdup (mem.headD true) logpath param
      logpathLoop mem.tail logpath loglevel params
    else if loglevel.s_len = 0 then logpathLoop mem logpath param params
    else logpathLoop mem logpath loglevel params

def logpathSet (mem : List Bool) (params : List PStr) (ctx : LogConf) :
    Except Fault (ℤ × LogConf) := do
  let (logpath, loglevel) ← logpathLoop mem stringNull stringNull params
  let ctx := if logpath.s_len > 0 then { ctx with mc_log_path := logpath } else ctx
  let ctx := if loglevel.s_len > 0 then { ctx with mc_log_level := str2i loglevel } else ctx
  return (0, ctx)

/-- `plm_main_ctx_create`, on a `main_ctx` that starts out zero. -/
def mainCtxCreate (mem : Bool) (plmPrefix : PStr) : Except Fault LogConf := do
  let (_, mc_log_path) ← strcat2 mem stringNull plmPrefix (.lit "logs/")
  return ⟨mc_log_path, 1⟩

def plumeLog (slot : ℕ) : Bytes := ascii "plume_" ++ ascii (Nat.repr slot) ++ ascii ".log"

/-- How `plm_disp_open_log` goes on: it fails, or calls `plm_log_open`. -/
inductive OpenLog
  | tooLong
  | opens (loglevel : ℤ) (logfile : Bytes)
deriving DecidableEq, Repr

abbrev PathBuf := { b : Bytes // b.length = MAX_PATH }

/-- `plm_disp_open_log` of the thread in the given slot. -/
def dispOpenLog (ctx : LogConf) (slot : ℕ) (logfile : PathBuf) : Except Fault OpenLog :=
  let logpath := ctx.mc_log_path
  let len := logpath.s_len
  -- `len - 10` is negative for a short path, and a `size_t` in the comparison
  if sizeT (len - 10) ≥ MAX_PATH then .ok .tooLong
  else do
    let logfile ← memcpy logfile.1 0 logpath.s_str (sizeT len)
    let c ← load logfile (len - 1).toNat
    let (logfile, len) ←
      if c ≠ SLASH then do
        let logfile ← storeAt logfile len SLASH
        pure (logfile, len + 1)
      else pure (logfile, len)
    let text := plumeLog slot ++ [0]
    let logfile ← memcpy logfile len.toNat text text.length
    let name ← cstr logfile 0
    return .opens ctx.mc_log_level name

end Model

section Spec

/-- Where the directory comes from: `logpath`, with any parameters behind it, or the prefix. -/
inductive LogDir
  | configured (ctx : LogConf) (dir : CText) (params : List PStr)
  | default (plmPrefix : CText)

namespace LogDir

def ctx : LogDir → Except Fault LogConf
  | .configured ctx dir params => Prod.snd <$> logpathSet [] (.ofBytes dir.bytes :: params) ctx
  | .default plmPrefix => mainCtxCreate true (.ofBytes plmPrefix.bytes)

def dir : LogDir → Bytes
  | .configured _ dir _ => dir.bytes
  | .default plmPrefix => plmPrefix.bytes ++ ascii "logs/"

/-- The path in `main_ctx`: the NUL of a string constant is counted. -/
def path : LogDir → Bytes
  | .configured _ dir _ => dir.bytes
  | .default plmPrefix => plmPrefix.bytes ++ ascii "logs/" ++ [0]

def isDefault : LogDir → Bool
  | .configured _ _ _ => false
  | .default _ => true

end LogDir

def slashed (dir : Bytes) : Bytes := if dir.getLast? = some SLASH then dir else dir ++ [SLASH]

def logName (dir : Bytes) (slot : ℕ) : Bytes := slashed dir ++ plumeLog slot

def Fits (dir : Bytes) (slot : ℕ) : Prop := (logName dir slot).length + 1 ≤ MAX_PATH

instance (dir : Bytes) (slot : ℕ) : Decidable (Fits dir slot) := inferInstanceAs (Decidable (_ ≤ _))

def Rejected (len : ℕ) : Prop := len < 10 ∨ MAX_PATH + 10 ≤ len

/-- The file is opened, or its name does not fit and is refused as too long. -/
def OpensLog (d : LogDir) (slot : ℕ) (logfile : PathBuf) : Prop :=
  ∃ ctx res, d.ctx = .ok ctx ∧ dispOpenLog ctx slot logfile = .ok res ∧
    (res = .opens ctx.mc_log_level (logName d.dir slot) ∧ Fits d.dir slot ∨
      res = .tooLong ∧ ¬ Fits d.dir slot)

end Spec

section Paths

variable {d : LogDir} {ctx : LogConf} {slot : ℕ} {logfile : PathBuf} {p : Bytes}

theorem memcpy_whole {n : ℕ} (src : Bytes) (hn : n = src.length) :
    memcpy (List.replicate n 0) 0 src n = .ok src := by
  subst hn
  rw [memcpy_start (by simp) le_rfl, List.take_length, List.drop_of_length_le (by simp),
    List.append_nil]

theorem strdup_ofBytes (out : PStr) (b : Bytes) :
    strdup true out (.ofBytes b) = .ok (.ofBytes b) := by
  unfold strdup
  rw [if_pos rfl, PStr.ofBytes_str, PStr.ofBytes_len, sizeT_natCast, memcpy_whole b rfl]
  rfl

theorem strcat2_ofBytes (out : PStr) (a b : Bytes) :
    strcat2 true out (.ofBytes a) (.ofBytes b) = .ok ((a ++ b).length, .ofBytes (a ++ b)) := by
  have hlen : (a.length : ℤ) + b.length = ((a ++ b).length : ℕ) := by
    rw [List.length_append, Nat.cast_add]
  unfold strcat2
  simp only [if_true, PStr.ofBytes_str, PStr.ofBytes_len, hlen, sizeT_natCast]
  rw [memcpy_start (by simp) le_rfl, ok_bind, List.take_length, memcpy_append rfl (by simp) le_rfl,
    ok_bind, List.take_length, List.drop_drop, List.drop_of_length_le (by simp), List.append_nil]
  rfl

/-- Behind the first parameter that is copied the path does not change. -/
theorem logpathLoop_path {logpath : PStr} (h : logpath.s_len ≠ 0) (mem : List Bool)
    (loglevel : PStr)
    (params : List PStr) : ∃ loglevel', logpathLoop mem logpath loglevel params = .ok
    (logpath, loglevel') := by
  induction params generalizing loglevel with
  | nil => exact ⟨loglevel, rfl⟩
  | cons param params ih =>
    rw [logpathLoop, if_neg h]
    split_ifs
    · exact ih param
    · exact ih loglevel

/-- What the directive or the prefix leaves in `main_ctx`. -/
theorem LogDir.ctx_path (d : LogDir) :
    ∃ ctx, d.ctx = .ok ctx ∧ ctx.mc_log_path = .ofBytes d.path := by
  cases d with
  | configured ctx dir params =>
    have hpos : 0 < dir.bytes.length := List.length_pos_of_ne_nil dir.ne
    have hne : (PStr.ofBytes dir.bytes).s_len ≠ 0 := by
      rw [PStr.ofBytes_len]
      omega
    obtain ⟨loglevel, hloop⟩ := logpathLoop_path hne [] stringNull params
    have hset : logpathLoop [] stringNull stringNull (.ofBytes dir.bytes :: params) =
        .ok (.ofBytes dir.bytes, loglevel) := by
      rw [logpathLoop, if_pos (show stringNull.s_len = 0 from rfl), List.headD_nil, strdup_ofBytes,
        ok_bind]
      exact hloop
    have hgt : (PStr.ofBytes dir.bytes).s_len > 0 := by
      rw [PStr.ofBytes_len]
      omega
    unfold LogDir.ctx logpathSet
    simp only [hset, ok_bind, hgt, if_true]
    refine ⟨_, rfl, ?_⟩
    split_ifs <;> rfl
  | default plmPrefix =>
    have hcat : strcat2 true stringNull (.ofBytes plmPrefix.bytes) (.lit "logs/") =
        .ok (_, .ofBytes (plmPrefix.bytes ++ (ascii "logs/" ++ [0]))) := strcat2_ofBytes ..
    simp only [LogDir.ctx, mainCtxCreate, hcat, ok_bind]
    refine ⟨_, rfl, ?_⟩
    rw [LogDir.path, List.append_assoc]

theorem plumeLog_free (slot : ℕ) : 0 ∉ plumeLog slot := by
  have hnum : 0 ∉ ascii (Nat.repr slot) := by
    unfold ascii
    rw [Nat.toList_repr, List.mem_map]
    rintro ⟨c, hc, h0⟩
    have hdigit := Nat.isDigit_of_mem_toDigits (by decide) (by decide) hc
    obtain ⟨hlo, hhi⟩ : 48 ≤ c.toNat ∧ c.toNat ≤ 57 := Char.isDigit_iff_toNat.1 hdigit
    have := congrArg UInt8.toNat h0
    simp at this
    omega
  unfold plumeLog
  rw [List.mem_append, List.mem_append, not_or, not_or]
  exact ⟨⟨by decide, hnum⟩, by decide⟩

theorem dispOpenLog_rejected (hpath : ctx.mc_log_path = .ofBytes p) (h : Rejected p.length) :
    dispOpenLog ctx slot logfile = .ok .tooLong := by
  have hguard : sizeT (ctx.mc_log_path.s_len - 10) ≥ MAX_PATH := by
    rw [hpath, PStr.ofBytes_len]
    have hmax : MAX_PATH = 256 := rfl
    unfold Rejected at h
    unfold sizeT
    split_ifs <;> omega
  unfold dispOpenLog
  rw [if_pos hguard]

/-- The name and its NUL are written behind what is there, if they fit, and the text is opened. -/
theorem open_name {q rest : Bytes} {n : ℕ} (loglevel : ℤ) (hn : n = q.length)
    (hlen : q.length + rest.length = MAX_PATH) :
    (do
      let logfile ← memcpy (q ++ rest) n (plumeLog slot ++ [0]) (plumeLog slot ++ [0]).length
      let name ← cstr logfile 0
      return OpenLog.opens loglevel name) =
    if q.length + (plumeLog slot).length + 1 ≤ MAX_PATH then
      .ok (.opens loglevel ((q ++ plumeLog slot).takeWhile (· != 0)))
    else .error .bounds := by
  have htext : (plumeLog slot ++ [0]).length = (plumeLog slot).length + 1 := List.length_append
  split_ifs with hin
  · rw [memcpy_append hn (by omega) le_rfl, ok_bind, List.take_length, ← List.append_assoc,
      List.append_assoc, List.singleton_append, cstr_takeWhile]
    rfl
  · rw [memcpy_outside (by rw [List.length_append]; omega)]
    rfl

theorem le_slashed (p : Bytes) : p.length ≤ (slashed p).length := by
  unfold slashed
  split_ifs <;> simp

/-- With a path that the guard lets through the slash and the name are written behind it, and what
is opened ends at the first NUL. -/
theorem dispOpenLog_passed (hpath : ctx.mc_log_path = .ofBytes p) (h : ¬ Rejected p.length) :
    dispOpenLog ctx slot logfile =
      if (slashed p).length + (plumeLog slot).length + 1 ≤ MAX_PATH then
        .ok (.opens ctx.mc_log_level ((slashed p ++ plumeLog slot).takeWhile (· != 0)))
      else .error .bounds := by
  have hmax : MAX_PATH = 256 := rfl
  have hguard : ¬ sizeT (ctx.mc_log_path.s_len - 10) ≥ MAX_PATH := by
    rw [hpath, PStr.ofBytes_len]
    unfold Rejected at h
    unfold sizeT
    split_ifs <;> omega
  have hn : 10 ≤ p.length := by
    unfold Rejected at h
    omega
  have hbuf := logfile.2
  unfold dispOpenLog
  rw [if_neg hguard, hpath]
  simp only [PStr.ofBytes_str, PStr.ofBytes_len, sizeT_natCast]
  by_cases hfit : p.length ≤ MAX_PATH
  swap
  · have hle := le_slashed p
    rw [memcpy_outside (by omega), if_neg (by omega)]
    rfl
  have hne : p ≠ [] := List.ne_nil_of_length_pos (by omega)
  have hlast : load (p ++ logfile.1.drop p.length) ((p.length : ℤ) - 1).toNat = .ok
    (p.getLast hne) := by
    rw [load, show ((p.length : ℤ) - 1).toNat = p.length - 1 by omega,
      List.getElem?_append_left (by omega),
      ← List.getLast?_eq_getElem?, List.getLast?_eq_some_getLast hne]
  rw [memcpy_start (by omega) le_rfl, ok_bind, List.take_length, hlast, ok_bind]
  have hslashed : slashed p = if p.getLast hne = SLASH then p else p ++ [SLASH] := by
    simp only [slashed, List.getLast?_eq_some_getLast hne, Option.some.injEq]
  rw [hslashed]
  by_cases hslash : p.getLast hne = SLASH
  · simp only [hslash, ne_eq, not_true_eq_false, if_false, if_true, ok_bind, pure_ok]
    exact open_name ctx.mc_log_level (Int.toNat_natCast _) (by rw [List.length_drop]; omega)
  · simp only [hslash, ne_eq, not_false_eq_true, if_true, if_false]
    by_cases hfull : p.length < MAX_PATH
    · rw [storeAt_append (by rw [List.length_drop]; omega)]
      simp only [ok_bind, pure_ok]
      have hlen : (p ++ [SLASH]).length = p.length + 1 := List.length_append
      exact open_name ctx.mc_log_level (by omega)
        (by rw [hlen, List.length_drop, List.length_drop]; omega)
    · have hlen : (p ++ [SLASH]).length = p.length + 1 := List.length_append
      rw [storeAt, if_pos (Int.natCast_nonneg _), store, if_neg (by simp; omega), if_neg (by omega)]
      rfl

theorem slashed_free (h : 0 ∉ p) : 0 ∉ slashed p := by
  unfold slashed
  split_ifs
  · exact h
  · rw [List.mem_append, not_or]
    exact ⟨h, by decide⟩

theorem ne_nul_of_free (h : 0 ∉ p) : ∀ c ∈ p, (c != 0) = true := by
  intro c hc
  rw [bne_iff_ne]
  exact ne_of_mem_of_not_mem hc h

/-- Without a NUL in the directory the name is opened whole. -/
theorem takeWhile_logName (h : 0 ∉ p) (slot : ℕ) :
    (slashed p ++ plumeLog slot).takeWhile (· != 0) = logName p slot := by
  refine List.takeWhile_eq_self_iff.2 (ne_nul_of_free ?_)
  rw [List.mem_append, not_or]
  exact ⟨slashed_free h, plumeLog_free slot⟩

/-- Behind a NUL the slash and the name are not part of what is opened: it is the directory. -/
theorem takeWhile_nul (h : 0 ∉ p) (slot : ℕ) :
    (slashed (p ++ [0]) ++ plumeLog slot).takeWhile (· != 0) = p := by
  have hslash : slashed (p ++ [0]) = p ++ ([0] ++ [SLASH]) := by
    rw [slashed, List.getLast?_concat, if_neg (by decide), List.append_assoc]
  have hnil : ([0] ++ [SLASH] ++ plumeLog slot).takeWhile (· != 0) = [] := rfl
  rw [hslash, List.append_assoc, List.takeWhile_append_of_pos (ne_nul_of_free h), hnil,
    List.append_nil]

theorem lt_logName (p : Bytes) (slot : ℕ) : p.length < (logName p slot).length := by
  have hle := le_slashed p
  have hpos : 0 < (plumeLog slot).length := by
    unfold plumeLog
    rw [List.append_assoc, List.length_append]
    exact Nat.add_pos_left (by decide) _
  rw [logName, List.length_append]
  omega

/-- Of a path that the guard lets through the file is opened where it was configured and the name
fits. -/
theorem LogDir.opened_iff (d : LogDir) (slot : ℕ) :
    ((slashed d.path).length + (plumeLog slot).length + 1 ≤ MAX_PATH ∧
      (slashed d.path ++ plumeLog slot).takeWhile (· != 0) = logName d.dir slot ∧ Fits d.dir slot) ↔
      Fits d.dir slot ∧ d.isDefault = false := by
  cases d with
  | configured ctx dir params =>
    have hfits : Fits dir.bytes slot ↔ (slashed dir.bytes).length +
      (plumeLog slot).length + 1 ≤ MAX_PATH := by
      rw [Fits, logName, List.length_append]
    simp only [LogDir.path, LogDir.dir, LogDir.isDefault, takeWhile_logName dir.free, hfits,
      and_true, true_and, and_self]
  | default plmPrefix =>
    refine iff_of_false ?_ fun h => absurd h.2 nofun
    rintro ⟨-, htake, -⟩
    have hfree : 0 ∉ plmPrefix.bytes ++ ascii "logs/" := by
      rw [List.mem_append, not_or]
      exact ⟨plmPrefix.free, by decide⟩
    have hlt := lt_logName (plmPrefix.bytes ++ ascii "logs/") slot
    rw [LogDir.path, LogDir.dir, takeWhile_nul hfree] at htake
    rw [← htake] at hlt
    exact absurd hlt (Nat.lt_irrefl _)

theorem opensLog_path (hctx : d.ctx = .ok ctx) : OpensLog d slot logfile ↔
    ∃ res, dispOpenLog ctx slot logfile = .ok res ∧
      (res = .opens ctx.mc_log_level (logName d.dir slot) ∧ Fits d.dir slot ∨
        res = .tooLong ∧ ¬ Fits d.dir slot) := by
  unfold OpensLog
  rw [hctx]
  simp only [Except.ok.injEq, exists_and_left, exists_eq_left']

/-- The log file is right exactly where its name fits, the directory was configured and the guard
lets its length through, or where it does not fit and the guard does not. -/
theorem opensLog_iff (d : LogDir) (slot : ℕ) (logfile : PathBuf) : OpensLog d slot logfile ↔
    Fits d.dir slot ∧ d.isDefault = false ∧ ¬ Rejected d.path.length ∨
      ¬ Fits d.dir slot ∧ Rejected d.path.length := by
  obtain ⟨ctx, hctx, hpath⟩ := d.ctx_path
  rw [opensLog_path hctx]
  by_cases hrej : Rejected d.path.length
  · rw [dispOpenLog_rejected hpath hrej]
    simp [hrej]
  · rw [dispOpenLog_passed hpath hrej]
    simp only [hrej, not_false_eq_true, and_true, and_false, or_false]
    rw [← d.opened_iff slot]
    split_ifs with hfit
    · simp [hfit]
    · simp [hfit]

def zeroBuf : PathBuf := ⟨List.replicate MAX_PATH 0, List.length_replicate⟩

/-- "/tmp" is refused as too long, the default directory is opened in place of the file, and with
245 bytes the name is written past the end of the buffer. -/
theorem not_opensLog :
    ¬ OpensLog (.configured ⟨stringNull, 1⟩ ⟨ascii "/tmp", by decide, by decide⟩ []) 0 zeroBuf ∧
    ¬ OpensLog (.default ⟨ascii "/usr/local/plume/", by decide, by decide⟩) 0 zeroBuf ∧
    dispOpenLog ⟨.ofBytes (List.replicate 245 47), 1⟩ 0 zeroBuf = .error .bounds := by
  refine ⟨?_, ?_, ?_⟩
  · intro h
    obtain ⟨ctx, hctx, hpath⟩ :=
      LogDir.ctx_path (.configured ⟨stringNull, 1⟩ ⟨ascii "/tmp", by decide, by decide⟩ [])
    rw [opensLog_path hctx, dispOpenLog_rejected hpath (.inl (by decide))] at h
    obtain ⟨res, hres, ⟨rfl, -⟩ | ⟨-, hno⟩⟩ := h
    · exact absurd hres nofun
    · exact hno (by decide)
  · intro h
    obtain ⟨ctx, hctx, hpath⟩ :=
      LogDir.ctx_path (.default ⟨ascii "/usr/local/plume/", by decide, by decide⟩)
    rw [opensLog_path hctx, dispOpenLog_passed hpath (by unfold Rejected; decide),
      if_pos (by decide)] at h
    obtain ⟨res, hres, ⟨rfl, -⟩ | ⟨rfl, -⟩⟩ := h
    · exact absurd (OpenLog.opens.inj (Except.ok.inj hres)).2 (by decide)
    · exact absurd hres nofun
  · have hslash : slashed (List.replicate 245 47) = List.replicate 245 47 := by
      rw [slashed, List.getLast?_replicate, if_pos (if_neg (by decide))]
    have hpass : ¬ Rejected (List.replicate 245 (47 : UInt8)).length := by
      rw [List.length_replicate]
      unfold Rejected
      decide
    rw [dispOpenLog_passed rfl hpass, hslash, List.length_replicate, if_neg (by decide)]

end Paths

end Plume
