import Plume.Str
import Plume.CLib.Copy

/-! The macros of `plm_string.h` that make a string in memory of the pool. Each writes out its own
sizes and copies; the one that appends and adds a NUL counts the NUL and stores it behind what it
asked for. -/

namespace Plume.StrBuild
open CLib

/-- What the pool answers: a region of the size that is asked for, whatever it holds, or `NULL`. -/
structure Pool where
  alloc : ℕ → Option Bytes
  size : ∀ {n mem}, alloc n = some mem → mem.length = n

def toInt (n : ℕ) : ℤ := (n : ℤ).bmod (2 ^ 32)

section Macros

variable (p : Pool) (s : PStr) (a : Bytes) (n : ℕ)

def strappend : Except Fault PStr :=
  let newLen := (sizeT s.s_len + n) % 2 ^ 64
  match p.alloc newLen with
  | none => .ok s
  | some newMem => do
    let newMem ← memcpy newMem 0 s.s_str (sizeT s.s_len)
    let newMem ← memcpy newMem (sizeT s.s_len) a n
    .ok ⟨newMem, toInt newLen⟩

def strzappend : Except Fault PStr :=
  let newLen := (sizeT s.s_len + n + 1) % 2 ^ 64
  match p.alloc newLen with
  | none => .ok s
  | some newMem => do
    let newMem ← memcpy newMem 0 s.s_str (sizeT s.s_len)
    let newMem ← memcpy newMem (sizeT s.s_len) a n
    -- `newLen` bytes are there, so this one is outside
    let newMem ← storeAt newMem (toInt newLen) 0
    .ok ⟨newMem, toInt newLen⟩

def strassign : Except Fault PStr :=
  match p.alloc (n % 2 ^ 64) with
  | none => .ok s
  | some str => do
    let str ← memcpy str 0 a n
    .ok ⟨str, toInt n⟩

def strzassign : Except Fault PStr :=
  match p.alloc ((n + 1) % 2 ^ 64) with
  | none => .ok s
  | some str => do
    let str ← memcpy str 0 a n
    let str ← storeAt str (toInt n) 0
    .ok ⟨str, toInt n⟩

def stringSize : ℕ := 16

/-- `plm_strzalloc`: the string itself stands in front of its bytes. -/
def strzalloc : Except Fault (Option PStr) :=
  match p.alloc ((1 + n + stringSize) % 2 ^ 64) with
  | none => .ok none
  | some mem =>
    if mem.length < stringSize then .error .bounds
    else do
      let str ← memcpy (mem.drop stringSize) 0 a n
      let str ← storeAt str (toInt n) 0
      .ok (some ⟨str, toInt n⟩)

def strappendField (k v : PStr) : Except Fault PStr :=
  let len1 := sizeT k.s_len
  let len2 := sizeT v.s_len
  let len := (len1 + len2 + 4 + sizeT s.s_len) % 2 ^ 64
  match p.alloc len with
  | none => .ok s
  | some mem => do
    let i := sizeT s.s_len
    let mem ← memcpy mem 0 s.s_str i
    let mem ← memcpy mem i k.s_str len1
    let mem ← memcpy mem (i + len1) (ascii ": ") 2
    let mem ← memcpy mem (i + len1 + 2) v.s_str len2
    let mem ← memcpy mem (i + len1 + 2 + len2) (ascii "\r\n") 2
    .ok ⟨mem, toInt len⟩

end Macros

/-- A string whose counted bytes are all there. -/
structure Existing where
  str : PStr
  readable : str.Readable

inductive Builder
  | strappend (a : Bytes)
  | strzappend (a : Bytes)
  | strassign (a : Bytes)
  | strzassign (a : Bytes)
  | strzalloc (a : Bytes)
  | strappendField (k v : Existing)

namespace Builder

variable (p : Pool) (s : Existing)

def run : Builder → Except Fault (Option PStr)
  | .strappend a => some <$> StrBuild.strappend p s.str a a.length
  | .strzappend a => some <$> StrBuild.strzappend p s.str a a.length
  | .strassign a => some <$> StrBuild.strassign p s.str a a.length
  | .strzassign a => some <$> StrBuild.strzassign p s.str a a.length
  | .strzalloc a => StrBuild.strzalloc p a a.length
  | .strappendField k v => some <$> StrBuild.strappendField p s.str k.str v.str

def wanted : Builder → Bytes
  | .strappend a | .strzappend a => s.str.counted ++ a
  | .strassign a | .strzassign a | .strzalloc a => a
  | .strappendField k v =>
    s.str.counted ++ k.str.counted ++ ascii ": " ++ v.str.counted ++ ascii "\r\n"

def nul : Builder → Bool
  | .strzappend _ | .strzassign _ | .strzalloc _ => true
  | .strappend _ | .strassign _ | .strappendField _ _ => false

def header : Builder → ℕ
  | .strzalloc _ => stringSize
  | _ => 0

def size (b : Builder) : ℕ := ((b.wanted s).length + b.nul.toNat + b.header) % 2 ^ 64

def unmade : Builder → Option PStr
  | .strzalloc _ => none
  | _ => some s.str

/-- The string has the bytes and counts them, with a NUL behind them if there is to be one, and
nothing is written outside; without memory there is no change. -/
def Right (b : Builder) : Prop :=
  match p.alloc (b.size s) with
  | none => b.run p s = .ok (b.unmade s)
  | some _ =>
    ∃ s', b.run p s = .ok (some s') ∧ s'.counted = b.wanted s ∧ s'.s_len = (b.wanted s).length ∧
      (b.nul = true → s'.s_str[(b.wanted s).length]? = some 0)

def countsNul : Builder → Bool
  | .strzappend _ => true
  | .strappend _ | .strassign _ | .strzassign _ | .strzalloc _ | .strappendField _ _ => false

def counts (b : Builder) : ℕ := (b.wanted s).length + b.countsNul.toNat

end Builder

section Built

variable {p : Pool} {s : Existing} {b : Builder} {mem : Bytes}

theorem toInt_mod (n : ℕ) : toInt (n % 2 ^ 64) = toInt n := by
  unfold toInt
  rw [← Int.emod_bmod, ← Int.emod_bmod (n : ℤ)]
  congr 1
  omega

theorem toInt_lt (n : ℕ) : toInt n < 2 ^ 31 := Int.bmod_lt (by decide)

theorem toInt_of_lt {n : ℕ} (h : n < 2 ^ 31) : toInt n = n :=
  Int.bmod_eq_of_le_mul_two (by omega) (by omega)

theorem Existing.sizeT_len (s : Existing) : sizeT s.str.s_len = s.str.counted.length := by
  rw [← s.readable.length, sizeT_natCast]

theorem Existing.take_len (s : Existing) :
    s.str.s_str.take s.str.counted.length = s.str.counted := by
  have h := s.readable.length
  rw [PStr.counted] at h ⊢
  rw [List.length_take, List.take_eq_take_iff]
  omega

theorem Existing.len_le (s : Existing) : s.str.counted.length ≤ s.str.s_str.length := by
  rw [PStr.counted]
  exact List.length_take_le' _ _

/-- The sizes that the macros compute are those of what they are to make. -/
theorem Builder.size_eq (s : Existing) (b : Builder) : b.size s = match b with
    | .strappend a => (sizeT s.str.s_len + a.length) % 2 ^ 64
    | .strzappend a => (sizeT s.str.s_len + a.length + 1) % 2 ^ 64
    | .strassign a => a.length % 2 ^ 64
    | .strzassign a => (a.length + 1) % 2 ^ 64
    | .strzalloc a => (1 + a.length + stringSize) % 2 ^ 64
    | .strappendField k v =>
      (sizeT k.str.s_len + sizeT v.str.s_len + 4 + sizeT s.str.s_len) % 2 ^ 64 := by
  have h1 : (ascii ": ").length = 2 := rfl
  have h2 : (ascii "\r\n").length = 2 := rfl
  cases b <;>
    simp only [Builder.size, Builder.wanted, Builder.nul, Builder.header, Existing.sizeT_len,
      List.length_append, h1, h2, Bool.toNat_true, Bool.toNat_false, Nat.add_zero]
  · rw [Nat.add_comm 1]
  · congr 1
    omega

theorem Builder.run_none (h : p.alloc (b.size s) = none) : b.run p s = .ok (b.unmade s) := by
  rw [Builder.size_eq] at h
  cases b <;> simp only [Builder.run, StrBuild.strappend, StrBuild.strzappend, StrBuild.strassign,
    StrBuild.strzassign, StrBuild.strzalloc, StrBuild.strappendField, h] <;> rfl

theorem map_some_eq_ok {x : Except Fault PStr} {s' : PStr} (h : some <$> x = .ok (some s')) :
    x = .ok s' := by
  cases x with
  | error e => exact absurd h nofun
  | ok s => rw [Option.some.inj (Except.ok.inj h)]

theorem Builder.run_some {s' : PStr} (hmem : p.alloc (b.size s) = some mem)
    (h : b.run p s = .ok (some s')) :
    s'.s_len = toInt (b.counts s) := by
  rw [Builder.size_eq] at hmem
  cases b with
  | strappend a =>
    have h := map_some_eq_ok h
    simp only [StrBuild.strappend, hmem, bind_eq_ok] at h
    obtain ⟨_, _, _, _, h⟩ := h
    rw [← Except.ok.inj h, toInt_mod, s.sizeT_len]
    simp [Builder.counts, Builder.wanted, Builder.countsNul]
  | strzappend a =>
    have h := map_some_eq_ok h
    simp only [StrBuild.strzappend, hmem, bind_eq_ok] at h
    obtain ⟨_, _, _, _, _, _, h⟩ := h
    rw [← Except.ok.inj h, toInt_mod, s.sizeT_len]
    simp [Builder.counts, Builder.wanted, Builder.countsNul]
  | strassign a =>
    have h := map_some_eq_ok h
    simp only [StrBuild.strassign, hmem, bind_eq_ok] at h
    obtain ⟨_, _, h⟩ := h
    rw [← Except.ok.inj h]
    simp [Builder.counts, Builder.wanted, Builder.countsNul]
  | strzassign a =>
    have h := map_some_eq_ok h
    simp only [StrBuild.strzassign, hmem, bind_eq_ok] at h
    obtain ⟨_, _, _, _, h⟩ := h
    rw [← Except.ok.inj h]
    simp [Builder.counts, Builder.wanted, Builder.countsNul]
  | strzalloc a =>
    simp only [Builder.run, StrBuild.strzalloc, hmem] at h
    split_ifs at h
    simp only [bind_eq_ok] at h
    obtain ⟨_, _, _, _, h⟩ := h
    rw [← Option.some.inj (Except.ok.inj h)]
    simp [Builder.counts, Builder.wanted, Builder.countsNul]
  | strappendField k v =>
    have h := map_some_eq_ok h
    have hsize : _ = (sizeT k.str.s_len + sizeT v.str.s_len + 4 + sizeT s.str.s_len) % 2 ^ 64 :=
      Builder.size_eq s (.strappendField k v)
    simp only [StrBuild.strappendField, hmem, bind_eq_ok] at h
    obtain ⟨_, _, _, _, _, _, _, _, _, _, h⟩ := h
    rw [← Except.ok.inj h, ← hsize, Builder.size, toInt_mod, Builder.counts]
    simp only [Builder.nul, Builder.header, Builder.countsNul, Bool.toNat_false, Nat.add_zero]

/-- In a region of that size the copies follow each other to its end. -/
theorem Builder.run_ok (hlen : (b.wanted s).length < 2 ^ 31) (hcount : b.countsNul = false)
    (hmem : p.alloc (b.size s) = some mem) :
    b.run p s = .ok (some ⟨b.wanted s ++ if b.nul then [0] else [], (b.wanted s).length⟩) := by
  have hsz : mem.length = (b.wanted s).length + b.nul.toNat + b.header := by
    have hnul : b.nul.toNat ≤ 1 := Bool.toNat_le _
    have hhead : b.header ≤ 16 := by cases b <;> simp [Builder.header, stringSize]
    rw [p.size hmem, Builder.size, Nat.mod_eq_of_lt (by omega)]
  rw [Builder.size_eq] at hmem
  cases b with
  | strappend a =>
    simp only [Builder.wanted, Builder.nul, Builder.header, List.length_append, Bool.toNat_false,
      Nat.add_zero] at hlen hsz
    simp only [Builder.run, StrBuild.strappend, hmem]
    rw [s.sizeT_len, memcpy_start (by omega) s.len_le, s.take_len, ok_bind,
      memcpy_append rfl (by rw [List.length_drop]; omega) le_rfl, ok_bind, List.take_length,
      List.drop_drop, List.drop_of_length_le (by omega), toInt_mod, toInt_of_lt (by omega)]
    simp [Builder.wanted, Builder.nul]
  | strzappend a => exact absurd hcount nofun
  | strassign a =>
    simp only [Builder.wanted, Builder.nul, Builder.header, Bool.toNat_false,
      Nat.add_zero] at hlen hsz
    simp only [Builder.run, StrBuild.strassign, hmem]
    rw [memcpy_start (by omega) le_rfl, ok_bind, List.take_length,
      List.drop_of_length_le (by omega), toInt_of_lt hlen]
    rfl
  | strzassign a =>
    simp only [Builder.wanted, Builder.nul, Builder.header, Bool.toNat_true,
      Nat.add_zero] at hlen hsz
    simp only [Builder.run, StrBuild.strzassign, hmem]
    rw [memcpy_start (by omega) le_rfl, ok_bind, List.take_length, toInt_of_lt hlen,
      storeAt_last (by rw [List.length_drop]; omega)]
    rfl
  | strzalloc a =>
    simp only [Builder.wanted, Builder.nul, Builder.header, Bool.toNat_true] at hlen hsz
    simp only [Builder.run, StrBuild.strzalloc, hmem]
    rw [if_neg (by omega), memcpy_start (by rw [List.length_drop]; omega) le_rfl, ok_bind,
      List.take_length,
      toInt_of_lt hlen, storeAt_last (by rw [List.length_drop, List.length_drop]; omega)]
    rfl
  | strappendField k v =>
    have h1 : (ascii ": ").length = 2 := rfl
    have h2 : (ascii "\r\n").length = 2 := rfl
    simp only [Builder.wanted, Builder.nul, Builder.header, List.length_append, Bool.toNat_false,
      Nat.add_zero, h1, h2] at hlen hsz
    simp only [Builder.run, StrBuild.strappendField, hmem]
    simp only [Existing.sizeT_len]
    rw [memcpy_start (by omega) s.len_le, s.take_len, ok_bind]
    rw [memcpy_append rfl (by rw [List.length_drop]; omega) k.len_le, k.take_len, ok_bind]
    rw [memcpy_append (by simp) (by simp only [List.length_drop]; omega) h1.ge, ok_bind,
      List.take_of_length_le h1.le]
    rw [memcpy_append (by simp only [List.length_append,
      h1]) (by simp only [List.length_drop]; omega) v.len_le, v.take_len, ok_bind]
    rw [memcpy_append (by simp only [List.length_append,
      h1]) (by simp only [List.length_drop]; omega) h2.ge, ok_bind, List.take_of_length_le h2.le]
    rw [List.drop_of_length_le (by simp only [List.length_drop]; omega), toInt_mod,
      toInt_of_lt (by omega)]
    simp [Builder.wanted, Builder.nul, h1, h2]
    omega

/-- A length that counts one more is not the length. -/
theorem toInt_succ_ne (n : ℕ) : toInt (n + 1) ≠ n := by
  intro h
  have h1 : toInt (n + 1) % ((2 ^ 32 : ℕ) : ℤ) = ((n + 1 : ℕ) : ℤ) % ((2 ^ 32 : ℕ) : ℤ) :=
    Int.bmod_emod
  rw [h] at h1
  omega

variable (p s b)

/-- The strings come out right exactly where there is no memory, or the macro does not count the NUL
it adds and the bytes can be counted in an `int`. -/
theorem Builder.builtRight_iff : b.Right p s ↔
    p.alloc (b.size s) = none ∨ (b.countsNul = false ∧ (b.wanted s).length < 2 ^ 31) := by
  unfold Builder.Right
  cases hmem : p.alloc (b.size s) with
  | none => simp [Builder.run_none hmem]
  | some mem =>
    simp only [reduceCtorEq, false_or]
    constructor
    · rintro ⟨s', hrun, -, hlen, -⟩
      have hcounts := Builder.run_some hmem hrun
      rw [hlen, Builder.counts] at hcounts
      cases hc : b.countsNul with
      | true =>
        rw [hc] at hcounts
        exact absurd hcounts.symm (toInt_succ_ne _)
      | false =>
        refine ⟨rfl, ?_⟩
        have := toInt_lt ((b.wanted s).length + b.countsNul.toNat)
        omega
    · rintro ⟨hcount, hlen⟩
      refine ⟨_, Builder.run_ok hlen hcount hmem, ?_, rfl, fun hnul => ?_⟩
      · exact List.take_left
      · rw [if_pos hnul]
        exact List.getElem?_concat_length

def ample : Pool :=
  ⟨fun n => some (List.replicate n 0), by rintro n mem ⟨⟩; exact List.length_replicate⟩

/-- Of the three bytes for "a", "b" and the NUL, the NUL is stored at the fourth. -/
theorem not_builtRight : ¬ (Builder.strzappend (ascii "b")).Right ample ⟨.ofBytes (ascii "a"),
    PStr.readable_ofBytes _⟩ := by
  rintro ⟨s', hrun, -⟩
  have hfault : StrBuild.strzappend ample (.ofBytes (ascii "a"))
    (ascii "b") 1 = .error .bounds := by decide
  exact absurd (hfault.symm.trans (map_some_eq_ok hrun)) nofun

end Built

end Plume.StrBuild
