import Plume.Conf.Parser
import Plume.Http.Lookup

/-! The two comparisons of `plm_string.c` on texts that do or do not count their NUL. One decides
whether the texts are equal; the other stops at the first byte that agrees. -/

namespace Plume
open CLib

def byteDiff : Bytes → Bytes → ℤ
  | c :: s1, d :: s2 => if c = d then byteDiff s1 s2 else c.toNat - d.toNat
  | _, _ => 0

/-- `memcmp`, which may read all `n` bytes of both. -/
def memcmp (s1 s2 : Bytes) (n : ℕ) : Except Fault ℤ :=
  if n ≤ s1.length ∧ n ≤ s2.length then .ok (byteDiff (s1.take n) (s2.take n)) else .error .bounds

def strcmp : PStr → PStr → Except Fault ℤ := cmpWith memcmp

/-- A text, and whether its string counts the NUL behind it. -/
structure Text where
  bytes : Bytes
  free : 0 ∉ bytes
  nul : Bool

namespace Text

def counted (t : Text) : Bytes := if t.nul then t.bytes ++ [0] else t.bytes

/-- The string, which has the bytes it counts and no others. -/
def str (t : Text) : PStr := .ofBytes t.counted

end Text

section Strcmp

variable {a b : Bytes}

theorem byteDiff_eq_zero (h : a.length = b.length) : byteDiff a b = 0 ↔ a = b := by
  induction a generalizing b with
  | nil =>
    obtain rfl : b = [] := List.length_eq_zero_iff.1 h.symm
    simp [byteDiff]
  | cons c a ih =>
    obtain ⟨d, b, rfl⟩ := List.exists_cons_of_length_pos (by rw [← h]; exact Nat.succ_pos _)
    rw [byteDiff]
    split_ifs with hcd
    · rw [ih (Nat.succ.inj h), List.cons.injEq, and_iff_right hcd]
    · have hne : c.toNat ≠ d.toNat := fun hn => hcd (UInt8.toNat_inj.1 hn)
      apply iff_of_false
      · omega
      · simp [hcd]

theorem byteDiff_swap (a b : Bytes) : byteDiff b a = -byteDiff a b := by
  induction a generalizing b with
  | nil => cases b <;> rfl
  | cons c a ih =>
    cases b with
    | nil => rfl
    | cons d b =>
      rw [byteDiff, byteDiff]
      by_cases hcd : c = d
      · rw [if_pos hcd, if_pos hcd.symm]
        exact ih b
      · rw [if_neg hcd, if_neg (Ne.symm hcd)]
        ring

theorem memcmp_ok {n : ℕ} (ha : n ≤ a.length) (hb : n ≤ b.length) :
    memcmp a b n = .ok (byteDiff (a.take n) (b.take n)) := if_pos ⟨ha, hb⟩

variable (a b) in
def longer : Bool := a.length == b.length + 1 && a.getLast? == some 0

theorem longer_iff : longer a b = true ↔ ∃ a', a = a' ++ [0] ∧ a'.length = b.length := by
  unfold longer
  rw [Bool.and_eq_true, beq_iff_eq, beq_iff_eq]
  constructor
  · intro h
    refine ⟨a.dropLast, (List.dropLast_append_getLast? 0 h.2).symm, ?_⟩
    rw [List.length_dropLast, h.1, Nat.add_sub_cancel]
  · intro ⟨a', ha, hlen⟩
    subst ha
    simp [hlen]

theorem longer_length (h : longer a b = true) : a.length = b.length + 1 := by
  obtain ⟨a', rfl, hlen⟩ := longer_iff.1 h
  simp [hlen]

theorem longerByNul_ofBytes (a b : Bytes) :
    longerByNul (.ofBytes a) (.ofBytes b) = .ok (longer a b) := by
  rw [longerByNul_readable (PStr.readable_ofBytes a) (PStr.readable_ofBytes b),
    PStr.counted_ofBytes, PStr.counted_ofBytes]
  rfl

/-- What `plm_strcmp` returns on strings that have the bytes they count. -/
def strcmpValue (a b : Bytes) : ℤ :=
  if a.length = b.length then byteDiff a b
  else if longer a b then byteDiff (a.take b.length) b
  else if longer b a then byteDiff a (b.take a.length)
  else if a.length > b.length then 1 else -1

theorem strcmp_ofBytes (a b : Bytes) :
    strcmp (.ofBytes a) (.ofBytes b) = .ok (strcmpValue a b) := by
  unfold strcmp cmpWith strcmpValue
  simp only [longerByNul_ofBytes, ok_bind, PStr.ofBytes_str, PStr.ofBytes_len, sizeT_natCast,
    Nat.cast_inj, gt_iff_lt, Nat.cast_lt]
  split_ifs with heq h1 h2
  · rw [memcmp_ok le_rfl heq.le, List.take_length, heq, List.take_length]
  · rw [memcmp_ok (by rw [longer_length h1]; exact Nat.le_succ _) le_rfl, List.take_length]
  · rw [memcmp_ok le_rfl (by rw [longer_length h2]; exact Nat.le_succ _), List.take_length]
  · rfl
  · rfl

/-- The lengths and the NUL are looked at in both orders alike. -/
theorem strcmpValue_swap (a b : Bytes) : strcmpValue b a = -strcmpValue a b := by
  unfold strcmpValue
  rcases lt_trichotomy a.length b.length with hlt | heq | hgt
  · have hno : longer a b = false := by
      rw [← Bool.not_eq_true]
      intro h
      have := longer_length h
      omega
    rw [if_neg hlt.ne, if_neg hlt.ne']
    simp only [hno, Bool.false_eq_true, if_false]
    split_ifs
    · exact byteDiff_swap _ _
    all_goals omega
  · rw [if_pos heq, if_pos heq.symm]
    exact byteDiff_swap a b
  · have hno : longer b a = false := by
      rw [← Bool.not_eq_true]
      intro h
      have := longer_length h
      omega
    rw [if_neg hgt.ne, if_neg hgt.ne']
    simp only [hno, Bool.false_eq_true, if_false]
    split_ifs
    · exact byteDiff_swap _ _
    all_goals omega

/-- The comparison as the parser of the configuration sees it. -/
theorem strcmpValue_eq_zero : strcmpValue a b = 0 ↔ Conf.strcmp a b = true := by
  have htake : ∀ {x y : Bytes}, longer x y = true → (x.take y.length = y ↔ x = y ++ [0]) := by
    intro x y h
    obtain ⟨x', rfl, hlen⟩ := longer_iff.1 h
    rw [← hlen, List.take_left]
    exact List.append_left_inj [0] |>.symm
  have hlonger : ∀ {x y : Bytes}, x = y ++ [0] → longer x y = true :=
    fun h => longer_iff.2 ⟨_, h, rfl⟩
  unfold strcmpValue Conf.strcmp
  rw [Bool.or_eq_true, Bool.or_eq_true, beq_iff_eq, beq_iff_eq, beq_iff_eq]
  split_ifs with heq h1 h2 hlt
  · rw [byteDiff_eq_zero heq, or_assoc]
    refine (or_iff_left ?_).symm
    rintro (h | h) <;> · rw [h] at heq; simp at heq
  · have hlen := longer_length h1
    rw [byteDiff_eq_zero (by rw [List.length_take]; omega), htake h1]
    constructor
    · exact fun h => .inl (.inr h)
    · rintro ((h | h) | h)
      · exact absurd (congrArg List.length h) heq
      · exact h
      · have := congrArg List.length h
        simp at this
        omega
  · have hlen := longer_length h2
    rw [byteDiff_eq_zero (by rw [List.length_take]; omega), eq_comm, htake h2]
    constructor
    · exact fun h => .inr h
    · rintro ((h | h) | h)
      · exact absurd (congrArg List.length h) heq
      · exact absurd (hlonger h) h1
      · exact h
  all_goals
    apply iff_of_false (by decide)
    rintro ((h | h) | h)
    · exact absurd (congrArg List.length h) heq
    · exact absurd (hlonger h) h1
    · exact absurd (hlonger h) h2

/-- A NUL that only one of two texts counts makes no difference. -/
theorem strcmp_counted (a b : Text) :
    Conf.strcmp a.counted b.counted = true ↔ a.bytes = b.bytes := by
  obtain ⟨a, ha, na⟩ := a
  obtain ⟨b, hb, nb⟩ := b
  have hne : ∀ {x y : Bytes}, 0 ∉ x → x ≠ y ++ [0] := fun hx h => hx (by simp [h])
  unfold Conf.strcmp
  rw [Bool.or_eq_true, Bool.or_eq_true, beq_iff_eq, beq_iff_eq, beq_iff_eq]
  cases na <;> cases nb <;>
    simp only [Text.counted, if_true, Bool.false_eq_true, if_false, List.append_left_inj, hne ha,
      hne hb, false_or, or_false]
  · exact eq_comm
  · exact or_iff_right_of_imp fun h => absurd h.symm (hne hb)

/-- `plm_strcmp` is 0 exactly on equal texts, whichever of them counts its NUL, and has the opposite
sign with the arguments swapped. -/
theorem strcmp_decides (a b : Text) :
    ∃ d e, strcmp a.str b.str = .ok d ∧ strcmp b.str a.str = .ok e ∧
    (d = 0 ↔ a.bytes = b.bytes) ∧ e.sign = -d.sign := by
  refine ⟨_, _, strcmp_ofBytes _ _, strcmp_ofBytes _ _, ?_, ?_⟩
  · rw [strcmpValue_eq_zero]
    exact strcmp_counted a b
  · rw [strcmpValue_swap, Int.sign_neg]

end Strcmp

section Strcasecmp

variable (a b : Text)

/-- The texts are the same but for the case of their letters. -/
def Text.Same : Prop := a.bytes.map Http.lower = b.bytes.map Http.lower

/-- `plm_strcasecmp` reads no other bytes, and is 0 exactly when the texts are the same but for
case. -/
def StrcasecmpRight : Prop := ∃ d, strcasecmp a.str b.str = .ok d ∧ (d = 0 ↔ a.Same b)

def firstAlike : Option (UInt8 × UInt8) := (a.counted.zip b.counted).find? fun p => caseEq p.1 p.2

/-- Texts that are the same begin with the same byte; of texts that are not, the lengths do not fit,
or the first bytes that agree up to case differ. -/
def Told : Prop :=
  (a.Same b ∧ a.bytes.head? = b.bytes.head?) ∨
    (¬ a.Same b ∧ (lensFit a.counted b.counted = false ∨ ∃ p, firstAlike a b = some p ∧ p.1 ≠ p.2))

variable {a b}

theorem loose_eq_false :
    loose a.counted b.counted = false ↔ ∃ p, firstAlike a b = some p ∧ p.1 ≠ p.2 := by
  have h : loose a.counted b.counted = (firstAlike a b).all fun p => p.1 == p.2 := rfl
  rw [h]
  cases firstAlike a b <;> simp

theorem Text.Same.lensFit (h : a.Same b) : lensFit a.counted b.counted = true := by
  have hlen : a.bytes.length = b.bytes.length := by simpa using congrArg List.length h
  unfold Plume.lensFit Text.counted
  cases a.nul <;> cases b.nul <;> simp [hlen]

/-- Texts that are the same agree at their first byte up to case, and the comparison ends there. -/
theorem Text.Same.loose_iff (h : a.Same b) :
    loose a.counted b.counted = true ↔ a.bytes.head? = b.bytes.head? := by
  obtain ⟨a, ha, na⟩ := a
  obtain ⟨b, hb, nb⟩ := b
  have hmap : a.map Http.lower = b.map Http.lower := h
  cases a with
  | nil =>
    obtain rfl : b = [] := by simpa using hmap.symm
    cases na <;> cases nb <;> exact iff_of_true rfl rfl
  | cons c a =>
    cases b with
    | nil => simp at hmap
    | cons d b =>
      have hcd := Http.caseEq_of_lower (List.cons.inj hmap).1
      have hfirst : ∀ x y, loose (c :: x) (d :: y) = (c == d) :=
        fun x y => by rw [loose_cons, if_pos hcd]
      cases na <;> cases nb <;>
        simp only [Text.counted, if_true, Bool.false_eq_true, if_false, List.cons_append, hfirst,
          List.head?_cons, Option.some.injEq, beq_iff_eq]

variable (a b)

/-- The comparison is right exactly on the texts that their first bytes that agree up to case tell
apart or not. -/
theorem strcasecmpRight_iff : StrcasecmpRight a b ↔ Told a b := by
  obtain ⟨d, hd, hz⟩ :=
    strcasecmp_readable (PStr.readable_ofBytes a.counted) (PStr.readable_ofBytes b.counted)
  rw [alike, PStr.counted_ofBytes, PStr.counted_ofBytes, Bool.and_eq_true] at hz
  have hright : StrcasecmpRight a b ↔ (d = 0 ↔ a.Same b) := by
    unfold StrcasecmpRight Text.str
    rw [hd]
    constructor
    · rintro ⟨_, he, h⟩
      rwa [Except.ok.inj he]
    · exact fun h => ⟨d, rfl, h⟩
  rw [hright, hz]
  unfold Told
  by_cases h : a.Same b
  · rw [and_iff_right h.lensFit, h.loose_iff]
    simp [h]
  · rw [← loose_eq_false]
    simp only [h, iff_false, not_and, Bool.not_eq_true, false_and, not_false_eq_true, true_and,
      false_or]
    rw [or_iff_not_imp_left, Bool.not_eq_false]

/-- "ab" is taken for "ac", since their first bytes agree, but not for "Ab". -/
theorem not_strcasecmpRight :
    ¬ StrcasecmpRight ⟨ascii "ab", by decide, false⟩ ⟨ascii "ac", by decide, true⟩ ∧
    ¬ StrcasecmpRight ⟨ascii "ab", by decide, false⟩ ⟨ascii "Ab", by decide, false⟩ := by
  constructor
  · rintro ⟨d, hd, h⟩
    obtain rfl : (0 : ℤ) = d :=
      Except.ok.inj ((show strcasecmp _ _ = .ok 0 by decide).symm.trans hd)
    exact absurd (h.1 rfl) (by unfold Text.Same; decide)
  · rintro ⟨d, hd, h⟩
    obtain rfl : (32 : ℤ) = d :=
      Except.ok.inj ((show strcasecmp _ _ = .ok 32 by decide).symm.trans hd)
    exact absurd (h.2 (by unfold Text.Same; decide)) (by decide)

end Strcasecmp

end Plume
