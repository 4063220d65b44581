import Plume.Str

/-! The five conversions that `STR2SI` writes out, one for each signed type. The sign is applied
behind the loop, so a numeral is read modulo the size of the type, its most negative one
included. -/

namespace Plume
open CLib

def str2c : PStr → ℤ := str2si 8

def str2i : PStr → ℤ := str2si 32

def str2l : PStr → ℤ := str2si 64

/-- The conversions, with the widths of their results. -/
def conversions : List (ℕ × (PStr → ℤ)) :=
  [(8, str2c), (16, str2s), (32, str2i), (64, str2l), (64, str2ll)]

/-- A text of the form `'-'? digits`. -/
inductive Signed : Bytes → ℤ → Prop
  | digits {ds : Bytes} (h : ∀ c ∈ ds, isDigit c = true) : Signed ds (decimal ds)
  | minus {ds : Bytes} (h : ∀ c ∈ ds, isDigit c = true) : Signed (45 :: ds) (-(decimal ds : ℤ))

/-- The longest prefix of `b` that has the form, and the number it denotes. -/
structure Denotes (b p : Bytes) (v : ℤ) : Prop where
  is_prefix : p <+: b
  form : Signed p v
  longest : ∀ q u, q <+: b → Signed q u → q.length ≤ p.length

section Conversions

variable {b p q : Bytes} {v u : ℤ}

theorem isDigit_takeWhile (b : Bytes) : ∀ c ∈ b.takeWhile isDigit, isDigit c = true :=
  List.all_eq_true.1 List.all_takeWhile

theorem str2siLoop_takeWhile (w : ℕ) (m : ℤ) (b : Bytes) :
    str2siLoop w m b = str2siLoop w m (b.takeWhile isDigit) := by
  induction b generalizing m with
  | nil => rfl
  | cons c b ih =>
    rw [List.takeWhile_cons, str2siLoop]
    split_ifs with hc
    · rw [str2siLoop, if_pos hc]
      exact ih _
    · rfl

/-- The loop reads the digits that it starts with, modulo the size of the type. -/
theorem str2siLoop_zero (w : ℕ) (b : Bytes) :
    str2siLoop w 0 b = (decimal (b.takeWhile isDigit) : ℤ).bmod (2 ^ w) := by
  have h := str2siLoop_digits (isDigit_takeWhile b) w 0
  rw [Nat.cast_zero, Int.zero_bmod] at h
  rw [str2siLoop_takeWhile]
  exact h

theorem digits_longest (hq : q <+: b) (hd : ∀ c ∈ q, isDigit c = true) :
    q.length ≤ (b.takeWhile isDigit).length := by
  obtain ⟨t, rfl⟩ := hq
  rw [List.takeWhile_append_of_pos hd, List.length_append]
  exact Nat.le_add_right _ _

/-- Every text has such a prefix, and `STR2SI` returns what it denotes modulo the size of the
type. -/
theorem str2si_denotes (b : Bytes) :
    ∃ p v, Denotes b p v ∧ ∀ w, str2si w (.ofBytes b) = v.bmod (2 ^ w) := by
  have hcounted : b.take (PStr.ofBytes b).s_len.toNat = b := PStr.counted_ofBytes b
  by_cases hminus : ∃ num, b = 45 :: num
  · obtain ⟨num, rfl⟩ := hminus
    refine ⟨45 :: num.takeWhile isDigit, _, ⟨?_, .minus (isDigit_takeWhile num), ?_⟩, fun w => ?_⟩
    · exact List.cons_prefix_cons.2 ⟨rfl, List.takeWhile_prefix _⟩
    · intro q u hq hform
      cases hform with
      | digits hd =>
        -- the sign is no digit
        obtain rfl : q = [] := by
          cases q with
          | nil => rfl
          | cons c q =>
            obtain ⟨rfl, -⟩ := List.cons_prefix_cons.1 hq
            exact absurd (hd 45 (by simp)) (by decide)
        exact Nat.zero_le _
      | minus hd => exact Nat.succ_le_succ (digits_longest (List.cons_prefix_cons.1 hq).2 hd)
    · unfold str2si
      rw [PStr.ofBytes_str, hcounted]
      change (-str2siLoop w 0 num).bmod (2 ^ w) = _
      rw [str2siLoop_zero]
      exact Int.bmod_neg_bmod
  · refine ⟨b.takeWhile isDigit, _, ⟨List.takeWhile_prefix _, .digits (isDigit_takeWhile b), ?_⟩,
      fun w => ?_⟩
    · intro q u hq hform
      cases hform with
      | digits hd => exact digits_longest hq hd
      | minus hd =>
        obtain ⟨t, rfl⟩ := hq
        exact absurd ⟨_, rfl⟩ hminus
    · unfold str2si
      rw [PStr.ofBytes_str, hcounted]
      split
      · exact absurd ⟨_, rfl⟩ hminus
      · exact str2siLoop_zero w b

/-- Each conversion returns the number that the longest such prefix denotes, modulo the size of its
type, and exactly where that is in the range of the type. -/
theorem conversions_denote (b : Bytes) : ∃ p v, Denotes b p v ∧ ∀ c ∈ conversions,
    c.2 (.ofBytes b) ≡ v [ZMOD 2 ^ c.1] ∧
      (-2 ^ (c.1 - 1) ≤ v ∧ v < 2 ^ (c.1 - 1) → c.2 (.ofBytes b) = v) := by
  obtain ⟨p, v, hden, hval⟩ := str2si_denotes b
  refine ⟨p, v, hden, fun c hc => ?_⟩
  obtain ⟨hpos, hc2⟩ : 0 < c.1 ∧ c.2 = str2si c.1 := by
    simp only [conversions, List.mem_cons, List.not_mem_nil, or_false] at hc
    obtain rfl | rfl | rfl | rfl | rfl := hc <;> exact ⟨by decide, rfl⟩
  rw [hc2, hval]
  constructor
  · have h : (v.bmod (2 ^ c.1)) % ((2 ^ c.1 : ℕ) : ℤ) = v % ((2 ^ c.1 : ℕ) : ℤ) := Int.bmod_emod
    rwa [Nat.cast_pow, Nat.cast_ofNat] at h
  · rintro ⟨hlo, hhi⟩
    have hpow : (2 : ℤ) ^ c.1 = 2 ^ (c.1 - 1) * 2 := by rw [← pow_succ, Nat.sub_add_cancel hpos]
    apply Int.bmod_eq_of_le_mul_two
    · rw [Nat.cast_pow, Nat.cast_ofNat, hpow]
      linarith
    · rw [Nat.cast_pow, Nat.cast_ofNat, hpow]
      linarith

/-- The most negative `char`, which passes through 128. -/
example : str2c (.ofBytes (ascii "-128")) = -128 := by decide

end Conversions

end Plume
