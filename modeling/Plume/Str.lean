import Plume.CLib.Scan

/-! The counted strings of `plm_string.c`. A string constant counts its
terminating NUL in `s_len`, a token cut out of an input does not. -/

namespace Plume
open CLib

/-- `plm_string_t`: the `s_len` bytes at `s_str`. `s_len` is an `int` of its own,
so a string whose length went wrong can be written down too. -/
structure PStr where
  s_str : Bytes
  s_len : ℤ
deriving DecidableEq, Repr

namespace PStr

/-- A token: its length is the number of its bytes. -/
def ofBytes (b : Bytes) : PStr := ⟨b, b.length⟩

/-- `plm_string("...")`: `sizeof` counts the NUL. -/
def lit (s : String) : PStr := ofBytes (s.toList.map (fun c => c.toNat.toUInt8) ++ [0])

@[simp] theorem ofBytes_str (b : Bytes) : (ofBytes b).s_str = b := rfl
@[simp] theorem ofBytes_len (b : Bytes) : (ofBytes b).s_len = b.length := rfl

end PStr

def ascii (s : String) : Bytes := s.toList.map fun c => c.toNat.toUInt8

/-- A byte as a (signed) `char`. -/
def toChar (c : UInt8) : ℤ := c.toInt8.toInt

def endsNul (s : PStr) : Except Fault Bool := do
  let c ← load s.s_str (s.s_len - 1).toNat
  .ok (c == 0)

/-- `s1->s_len - s2->s_len == 1 && s1->s_str[s1->s_len - 1] == 0` -/
def longerByNul (s1 s2 : PStr) : Except Fault Bool :=
  if s1.s_len - s2.s_len = 1 then endsNul s1 else .ok false

/-- The four length cases `plm_strcmp` and `plm_strcasecmp` share. -/
def cmpWith (cmp : Bytes → Bytes → ℕ → Except Fault ℤ) (s1 s2 : PStr) : Except Fault ℤ := do
  if s1.s_len = s2.s_len then cmp s1.s_str s2.s_str (sizeT s1.s_len)
  else if ← longerByNul s1 s2 then cmp s1.s_str s2.s_str (sizeT s2.s_len)
  else if ← longerByNul s2 s1 then cmp s1.s_str s2.s_str (sizeT s1.s_len)
  else .ok (if s1.s_len > s2.s_len then 1 else -1)

def isChar (c : UInt8) : Bool := c ≤ 122 && 65 ≤ c

def caseEq (c1 c2 : UInt8) : Bool :=
  if isChar c1 && isChar c2 then
    c1 == c2 || toChar c1 - toChar c2 == 32 || toChar c2 - toChar c1 == 32
  else c1 == c2

/-- `plm_casecmp`: the loop leaves at the first position where the two bytes
are equal up to case, and returns the difference of the bytes there. -/
def casecmp : Bytes → Bytes → ℕ → Except Fault ℤ
  | _, _, 0 => .ok 0
  | c1 :: s1, c2 :: s2, len + 1 =>
    if caseEq c1 c2 then .ok (toChar c1 - toChar c2) else casecmp s1 s2 len
  | _, _, _ + 1 => .error .bounds

def strcasecmp : PStr → PStr → Except Fault ℤ := cmpWith casecmp

/-- `plm_strappend_field` where `alloc` says whether the pool had memory for the
result; without it the string stays as it was. -/
def strappendField (alloc : Bool) (s k v : PStr) : PStr :=
  if alloc then
    .ofBytes (slice s.s_str 0 (sizeT s.s_len) ++ slice k.s_str 0 (sizeT k.s_len) ++ ascii ": " ++
      slice v.s_str 0 (sizeT v.s_len) ++ ascii "\r\n")
  else s

theorem strappendField_true (s k v : Bytes) :
    strappendField true (.ofBytes s) (.ofBytes k) (.ofBytes v) =
      .ofBytes (s ++ k ++ [58, 32] ++ v ++ [13, 10]) := by
  have hs : ∀ b : Bytes, slice b 0 b.length = b := fun b => by simp [slice]
  have h1 : ascii ": " = [58, 32] := by decide
  have h2 : ascii "\r\n" = [13, 10] := by decide
  simp only [strappendField, if_true, PStr.ofBytes_str, PStr.ofBytes_len, sizeT_natCast, hs, h1, h2]

/-- `plm_strzassign`, which leaves the string alone when there is no memory. -/
def strzassign (alloc : Bool) (s : PStr) (a : Bytes) (n : ℤ) : PStr :=
  if alloc then ⟨slice a 0 (sizeT n) ++ [0], n⟩ else s

/-- `plm_strzalloc`, whose result is `NULL` when there is no memory. -/
def strzalloc (alloc : Bool) (s : PStr) : Option PStr :=
  if alloc then some ⟨slice s.s_str 0 (sizeT s.s_len) ++ [0], s.s_len⟩ else none

/-- The digit loop of `STR2SI`, in a signed type of `w` bits. -/
def str2siLoop (w : ℕ) (value : ℤ) : Bytes → ℤ
  | [] => value
  | c :: cs =>
    if isDigit c then str2siLoop w ((value * 10 + (c.toNat - 48)).bmod (2 ^ w)) cs else value

def str2si (w : ℕ) (str : PStr) : ℤ :=
  match str.s_str.take str.s_len.toNat with
  | 45 :: num => (-(str2siLoop w 0 num)).bmod (2 ^ w)
  | num => str2siLoop w 0 num

def str2s : PStr → ℤ := str2si 16

def str2ll : PStr → ℤ := str2si 64

section Compare

/-- `plm_casecmp` returns 0: the first place where the bytes agree up to case is one
where they agree exactly, or there is no such place. -/
def loose (a b : Bytes) : Bool :=
  ((a.zip b).find? fun p => caseEq p.1 p.2).all fun p => p.1 == p.2

theorem loose_cons (c d : UInt8) (a b : Bytes) :
    loose (c :: a) (d :: b) = if caseEq c d then c == d else loose a b := by
  unfold loose
  rw [List.zip_cons_cons, List.find?_cons]
  cases caseEq c d <;> rfl

theorem toChar_inj {c d : UInt8} : toChar c = toChar d ↔ c = d := by
  unfold toChar
  rw [Int8.toInt_inj]
  exact ⟨fun h => by simpa using congrArg Int8.toUInt8 h, fun h => by rw [h]⟩

theorem casecmp_take {a b : Bytes} {n : ℕ} (ha : n ≤ a.length) (hb : n ≤ b.length) :
    ∃ d, casecmp a b n = .ok d ∧ (d = 0 ↔ loose (a.take n) (b.take n) = true) := by
  induction n generalizing a b with
  | zero => exact ⟨0, by unfold casecmp; rfl, by simp [loose]⟩
  | succ n ih =>
    obtain ⟨c, a, rfl⟩ := List.exists_cons_of_length_pos (by omega : 0 < a.length)
    obtain ⟨d, b, rfl⟩ := List.exists_cons_of_length_pos (by omega : 0 < b.length)
    rw [casecmp, List.take_succ_cons, List.take_succ_cons, loose_cons]
    split_ifs with h
    · refine ⟨_, rfl, ?_⟩
      rw [sub_eq_zero, toChar_inj, beq_iff_eq]
    · exact ih (by simpa using ha) (by simpa using hb)

def PStr.counted (s : PStr) : Bytes := s.s_str.take s.s_len.toNat

structure PStr.Readable (s : PStr) : Prop where
  nonneg : 0 ≤ s.s_len
  inside : s.s_len ≤ s.s_str.length

def lensFit (a b : Bytes) : Bool :=
  a.length == b.length || (a.length == b.length + 1 && a.getLast? == some 0) ||
    (b.length == a.length + 1 && b.getLast? == some 0)

def alike (a b : PStr) : Bool := lensFit a.counted b.counted && loose a.counted b.counted

theorem PStr.Readable.length {s : PStr} (h : s.Readable) : (s.counted.length : ℤ) = s.s_len := by
  have h1 := h.nonneg
  have h2 := h.inside
  rw [PStr.counted, List.length_take]
  omega

theorem PStr.Readable.endsNul {s : PStr} (h : s.Readable) (hpos : 0 < s.s_len) :
    Plume.endsNul s = .ok (s.counted.getLast? == some 0) := by
  have hlen := h.length
  have hin := h.inside
  have hne : s.counted ≠ [] := List.ne_nil_of_length_pos (by omega)
  have hlt : (s.s_len - 1).toNat < s.s_str.length := by omega
  have hn : s.counted.length - 1 = (s.s_len - 1).toNat := by omega
  rw [Plume.endsNul, load, List.getElem?_eq_getElem hlt, List.getLast?_eq_some_getLast hne,
    List.getLast_eq_getElem]
  simp only [PStr.counted, List.getElem_take] at hn ⊢
  simp only [hn]
  rfl

theorem longerByNul_readable {a b : PStr} (ha : a.Readable) (hb : b.Readable) : longerByNul a b =
    .ok (a.counted.length == b.counted.length + 1 && a.counted.getLast? == some 0) := by
  have hla := ha.length
  have hlb := hb.length
  unfold longerByNul
  by_cases h : a.s_len - b.s_len = 1
  · have hlen : (a.counted.length == b.counted.length + 1) = true := beq_iff_eq.2 (by omega)
    rw [if_pos h, ha.endsNul (by omega), hlen, Bool.true_and]
  · rw [if_neg h, beq_eq_false_iff_ne.2 (by omega), Bool.false_and]

theorem loose_take (a b : Bytes) {n : ℕ} (hn : n = min a.length b.length) :
    loose (a.take n) (b.take n) = loose a b := by
  subst hn
  unfold loose
  rw [← List.zip_eq_zip_take_min]

theorem strcasecmp_readable {a b : PStr} (ha : a.Readable) (hb : b.Readable) :
    ∃ d, strcasecmp a b = .ok d ∧ (d = 0 ↔ alike a b = true) := by
  have hla := ha.length
  have hlb := hb.length
  have hia := ha.inside
  have hib := hb.inside
  have hcmp : ∀ n : ℕ, n = min a.counted.length b.counted.length →
      ∃ d, casecmp a.s_str b.s_str n = .ok d ∧ (d = 0 ↔ loose a.counted b.counted = true) := by
    intro n hn
    obtain ⟨d, hd, hz⟩ := casecmp_take (a := a.s_str) (b := b.s_str) (n := n) (by omega) (by omega)
    refine ⟨d, hd, ?_⟩
    rw [hz, ← loose_take _ _ hn, PStr.counted, PStr.counted, List.take_take, List.take_take,
      min_eq_left (by omega), min_eq_left (by omega)]
  unfold strcasecmp cmpWith
  simp only [longerByNul_readable ha hb, longerByNul_readable hb ha, ok_bind, ← hla, ← hlb,
    sizeT_natCast]
  by_cases heq : a.counted.length = b.counted.length
  · obtain ⟨d, hd, hz⟩ := hcmp a.counted.length (by omega)
    refine ⟨d, by rw [if_pos (by omega), hd], ?_⟩
    rw [hz]
    simp [alike, lensFit, heq]
  rw [if_neg (by omega)]
  by_cases h1 : a.counted.length = b.counted.length + 1 ∧ a.counted.getLast? = some 0
  · obtain ⟨d, hd, hz⟩ := hcmp b.counted.length (by omega)
    refine ⟨d, by rw [if_pos (by simp [h1.1, h1.2]), hd], ?_⟩
    rw [hz]
    simp [alike, lensFit, h1.1, h1.2]
  rw [if_neg (by simpa using h1)]
  by_cases h2 : b.counted.length = a.counted.length + 1 ∧ b.counted.getLast? = some 0
  · obtain ⟨d, hd, hz⟩ := hcmp a.counted.length (by omega)
    refine ⟨d, by rw [if_pos (by simp [h2.1, h2.2]), hd], ?_⟩
    rw [hz]
    simp [alike, lensFit, h2.1, h2.2]
  rw [if_neg (by simpa using h2)]
  have hfit : lensFit a.counted b.counted = false := by
    unfold lensFit
    rw [Bool.or_eq_false_iff, Bool.or_eq_false_iff, beq_eq_false_iff_ne]
    exact ⟨⟨heq, by simpa using h1⟩, by simpa using h2⟩
  refine ⟨_, rfl, ?_⟩
  rw [alike, hfit]
  split_ifs <;> simp

theorem PStr.readable_ofBytes (b : Bytes) : (PStr.ofBytes b).Readable :=
  ⟨Int.natCast_nonneg _, le_rfl⟩

theorem PStr.counted_ofBytes (b : Bytes) : (PStr.ofBytes b).counted = b := List.take_length

/-- The lengths with which `plm_strcmp` compares a string with a constant `w`, whose own
length counts the NUL. -/
def lenFits (w s : Bytes) : Bool :=
  s.length == w.length || s.length == w.length + 1 ||
    (s.length == w.length + 2 && s.getLast? == some 0)

theorem lensFit_const (w s : Bytes) : lensFit s (w ++ [0]) = lenFits w s := by
  have hlen : (w ++ [0]).length = w.length + 1 := by simp
  have hcomm : (w.length + 1 == s.length + 1) = (s.length == w.length) := by
    rw [Bool.eq_iff_iff, beq_iff_eq, beq_iff_eq]
    omega
  unfold lensFit lenFits
  rw [hlen, List.getLast?_concat, hcomm, beq_self_eq_true, Bool.and_true, Bool.or_comm,
    ← Bool.or_assoc]

theorem strcasecmp_const (w s : Bytes) :
    ∃ d, strcasecmp (.ofBytes s) (.ofBytes (w ++ [0])) = .ok d ∧
      (d = 0 ↔ lenFits w s = true ∧ loose s (w ++ [0]) = true) := by
  obtain ⟨d, hd, hz⟩ :=
    strcasecmp_readable (PStr.readable_ofBytes s) (PStr.readable_ofBytes (w ++ [0]))
  refine ⟨d, hd, ?_⟩
  rw [hz, alike, PStr.counted_ofBytes, PStr.counted_ofBytes, lensFit_const, Bool.and_eq_true]

end Compare

section Number

def Numeral (v : Bytes) : Prop := v ≠ [] ∧ ∀ c ∈ v, isDigit c = true

instance (v : Bytes) : Decidable (Numeral v) :=
  haveI : Decidable (∀ c ∈ v, isDigit c = true) := List.decidableBAll _ v
  inferInstanceAs (Decidable (_ ∧ _))

theorem numeral_free {q : Bytes} {d : UInt8} (hq : Numeral q) (hd : isDigit d = false) : d ∉ q :=
  fun hmem => by simp [hq.2 d hmem] at hd

theorem isDigit_iff {c : UInt8} : isDigit c = true ↔ 48 ≤ c.toNat ∧ c.toNat ≤ 57 := by
  unfold isDigit
  rw [Bool.and_eq_true, decide_eq_true_eq, decide_eq_true_eq, UInt8.le_iff_toNat_le,
    UInt8.le_iff_toNat_le]
  rfl

/-- The digit loop of `STR2SI` reads digits modulo the size of its type. -/
theorem str2siLoop_digits {ds : Bytes} (hd : ∀ c ∈ ds, isDigit c = true) (w m : ℕ) :
    str2siLoop w ((m : ℤ).bmod (2 ^ w)) ds =
      ((ds.foldl (fun v c => v * 10 + (c.toNat - 48)) m : ℕ) : ℤ).bmod (2 ^ w) := by
  induction ds generalizing m with
  | nil => rfl
  | cons c ds ih =>
    have hc := isDigit_iff.1 (hd c (by simp))
    have hstep : ((m : ℤ).bmod (2 ^ w) * 10 + (c.toNat - 48)).bmod (2 ^ w) =
        ((m * 10 + (c.toNat - 48) : ℕ) : ℤ).bmod (2 ^ w) := by
      rw [Nat.cast_add, Nat.cast_mul, Nat.cast_sub hc.1]
      rw [← Int.bmod_add_bmod, Int.bmod_mul_bmod, Int.bmod_add_bmod]
      rfl
    rw [str2siLoop, if_pos (hd c (by simp)), hstep, List.foldl_cons]
    exact ih (fun x hx => hd x (by simp [hx])) _

theorem str2si_numeral {v : Bytes} (w : ℕ) (hv : Numeral v) :
    str2si w (.ofBytes v) = (decimal v : ℤ).bmod (2 ^ w) := by
  have h := str2siLoop_digits hv.2 w 0
  rw [Nat.cast_zero, Int.zero_bmod] at h
  unfold str2si
  rw [PStr.ofBytes_str, PStr.ofBytes_len, Int.toNat_natCast, List.take_length]
  split
  · exact absurd (hv.2 45 (by simp)) (by decide)
  · exact h

end Number

end Plume
