import Plume.Http.Request

/-! What `plm_http_on_field` makes of a field, as a function of its bytes. The `switch`
looks at the first byte only, and `plm_strcasecmp` stops at the first byte that agrees,
so behind the first byte a name counts by its length alone. -/

namespace Plume.Http
open CLib

def lower (c : UInt8) : UInt8 := if 65 ≤ c ∧ c ≤ 90 then c + 32 else c

def named (w s : Bytes) : Bool := s.map lower == w.map lower

/-- A name that the branch for the constant `w` accepts. -/
def takenFor (w name : Bytes) : Bool := name.head? == w.head? && lenFits w name

/-- A value that `plm_strcasecmp` calls equal to "keep-alive". -/
def likeKeepAlive (v : Bytes) : Bool :=
  lenFits (ascii "keep-alive") v && loose v (ascii "keep-alive" ++ [0])

/-- `hr_cntlen = plm_str2ll(v)`, from a `long long` to a `uint64_t` -/
def cntlenOf (v : Bytes) : ℕ := (str2ll (.ofBytes v) % 2 ^ 64).toNat

/-- Host and port of a `Host` value, split at the first ':'. -/
def splitHost (v : Bytes) : Bytes × Option Bytes :=
  match cut COLON v with
  | some (h, p) => (h, some p)
  | none => (v, none)

def switchOf (k v : Bytes) (r : Req) (mem : List Bool) : PStr × Req × List Bool :=
  if takenFor (ascii "Content-Length") k then
    (.ofBytes k, { r with hr_cntlen := cntlenOf v }, mem)
  else if takenFor (ascii "Connection") k then
    (.ofBytes k, { r with hr_hdr_kpalv_on := r.hr_hdr_kpalv_on || likeKeepAlive v }, mem)
  else if takenFor (ascii "Proxy-Connection") k then
    (cs, { r with hr_hdr_kpalv_on := r.hr_hdr_kpalv_on || !likeKeepAlive v }, mem)
  else if (k.head? = some 72 ∨ k.head? = some 104) ∧ r.hr_host.s_len = 0 then
    let (a, mem) := palloc mem
    let (h, p) := splitHost v
    (.ofBytes k, { r with
      hr_port := (p.map fun p => portOf (.ofBytes p)).getD r.hr_port
      hr_host := strzassign a r.hr_host h h.length }, mem)
  else (.ofBytes k, r, mem)

section Switch

variable {k v w : Bytes} {r : Req} {mem : List Bool} {c d : UInt8}

theorem takenFor_cons (c d : UInt8) (k w : Bytes) :
    takenFor (d :: w) (c :: k) = (c == d && lenFits (d :: w) (c :: k)) := by
  unfold takenFor
  rw [List.head?_cons, List.head?_cons, Option.some_beq_some]

/-- In a branch for `d`, whose other case is `c`, a name beginning with `c` never matches. -/
theorem strcasecmp_name (hc : caseEq c d = true) :
    ∃ n, strcasecmp (.ofBytes (c :: k)) (.ofBytes (d :: w ++ [0])) = .ok n ∧
      (n = 0 ↔ takenFor (d :: w) (c :: k) = true) := by
  obtain ⟨n, hn, hz⟩ := strcasecmp_const (d :: w) (c :: k)
  refine ⟨n, hn, ?_⟩
  rw [hz, takenFor_cons, List.cons_append, loose_cons, if_pos hc, Bool.and_eq_true, and_comm]

theorem strcasecmp_kps (v : Bytes) :
    ∃ n, strcasecmp (.ofBytes v) kps = .ok n ∧ (n = 0 ↔ likeKeepAlive v = true) := by
  obtain ⟨n, hn, hz⟩ := strcasecmp_const (ascii "keep-alive") v
  refine ⟨n, hn, ?_⟩
  rw [hz, likeKeepAlive, Bool.and_eq_true]

theorem splitHost_memchr (v : Bytes) :
    (COLON ∉ v ∧ splitHost v = (v, none) ∧ memchr v 0 COLON v.length = .ok none) ∨
    ∃ h p, v = h ++ COLON :: p ∧ splitHost v = (h, some p) ∧
      memchr v 0 COLON v.length = .ok (some h.length) := by
  rcases cut_cases COLON v with ⟨hno, hcut⟩ | ⟨h, p, rfl, hh, hcut⟩
  · refine .inl ⟨hno, by rw [splitHost, hcut], ?_⟩
    exact memchr_absent (l := []) (r := []) (by simp) rfl hno rfl
  · refine .inr ⟨h, p, rfl, by rw [splitHost, hcut], ?_⟩
    have := memchr_split (b := h ++ COLON :: p) (l := []) (m := h) (r := p) (i := 0)
      (n := (h ++ COLON :: p).length) rfl rfl hh (by simp)
    simpa using this

theorem lenFits_length (h : lenFits w k = true) :
    w.length ≤ k.length ∧ k.length ≤ w.length + 2 := by
  unfold lenFits at h
  simp only [Bool.or_eq_true, Bool.and_eq_true, beq_iff_eq] at h
  omega

theorem takenFor_head (h : takenFor w k = true) : k.head? = w.head? ∧ lenFits w k = true := by
  unfold takenFor at h
  rwa [Bool.and_eq_true, beq_iff_eq] at h

/-- The constants of the 'C' branch are told apart by their lengths. -/
theorem takenFor_connection (h : takenFor (ascii "Content-Length") k = true) :
    takenFor (ascii "Connection") k = false := by
  have hl : (ascii "Content-Length").length = 14 := by decide
  have hc : (ascii "Connection").length = 10 := by decide
  have h1 := lenFits_length (takenFor_head h).2
  by_contra hne
  have h2 := lenFits_length (takenFor_head (Bool.not_eq_false _ ▸ hne)).2
  omega

theorem takenFor_of_head_ne (h : k.head? ≠ w.head?) : takenFor w k = false := by
  unfold takenFor
  rw [beq_eq_false_iff_ne.2 h, Bool.false_and]

/-- `plm_http_on_field` on the branch of a name that begins with a 'C', of either case. -/
theorem fieldSwitch_c (hc : c = 67 ∨ c = 99) :
    fieldSwitch (.ofBytes (c :: k)) (.ofBytes v) r mem = .ok (switchOf (c :: k) v r mem) := by
  have hcase : caseEq c 67 = true := by rcases hc with rfl | rfl <;> decide
  obtain ⟨n1, hn1, hz1⟩ := strcasecmp_name (k := k) (w := ascii "onnection") hcase
  obtain ⟨n2, hn2, hz2⟩ := strcasecmp_name (k := k) (w := ascii "ontent-Length") hcase
  obtain ⟨n3, hn3, hz3⟩ := strcasecmp_kps v
  have hpc : takenFor (ascii "Proxy-Connection") (c :: k) = false :=
    takenFor_of_head_ne (by rcases hc with rfl | rfl <;> simp [ascii])
  have e1 : strcasecmp (.ofBytes (c :: k)) cs = .ok n1 := hn1
  have e2 : strcasecmp (.ofBytes (c :: k)) cl = .ok n2 := hn2
  have t1 : n1 = 0 ↔ takenFor (ascii "Connection") (c :: k) = true := hz1
  have t2 : n2 = 0 ↔ takenFor (ascii "Content-Length") (c :: k) = true := hz2
  have hhost : ¬ ((c :: k).head? = some 72 ∨ (c :: k).head? = some 104) := by
    rcases hc with rfl | rfl <;> simp
  unfold fieldSwitch switchOf
  simp only [firstByte, PStr.ofBytes_str, List.headD_cons, if_pos hc, e1, e2, hn3, ok_bind, pure_ok,
    hpc, Bool.false_eq_true, if_false, hhost, false_and]
  by_cases h2 : n2 = 0
  · have h1 : n1 ≠ 0 := by
      intro h1
      have := takenFor_connection (t2.1 h2)
      rw [t1.1 h1] at this
      exact absurd this (by decide)
    rw [if_neg h1, if_pos h2, if_pos (t2.1 h2)]
    rfl
  · rw [if_neg h2, if_neg (fun h => h2 (t2.2 h))]
    by_cases h1 : n1 = 0
    · rw [if_pos h1, if_pos (t1.1 h1)]
      by_cases h3 : n3 = 0
      · rw [if_pos h3, hz3.1 h3, Bool.or_true]
      · rw [if_neg h3, Bool.eq_false_iff.2 (fun h => h3 (hz3.2 h)), Bool.or_false]
    · rw [if_neg h1, if_neg (fun h => h1 (t1.2 h))]

theorem fieldSwitch_p (hc : c = 80 ∨ c = 112) :
    fieldSwitch (.ofBytes (c :: k)) (.ofBytes v) r mem = .ok (switchOf (c :: k) v r mem) := by
  have hcase : caseEq c 80 = true := by rcases hc with rfl | rfl <;> decide
  obtain ⟨n1, hn1, hz1⟩ := strcasecmp_name (k := k) (w := ascii "roxy-Connection") hcase
  obtain ⟨n3, hn3, hz3⟩ := strcasecmp_kps v
  have hnc : ¬ (c = 67 ∨ c = 99) := by rcases hc with rfl | rfl <;> decide
  have hcl : takenFor (ascii "Content-Length") (c :: k) = false :=
    takenFor_of_head_ne (by rcases hc with rfl | rfl <;> simp [ascii])
  have hcs : takenFor (ascii "Connection") (c :: k) = false :=
    takenFor_of_head_ne (by rcases hc with rfl | rfl <;> simp [ascii])
  have e1 : strcasecmp (.ofBytes (c :: k)) pcs = .ok n1 := hn1
  have t1 : n1 = 0 ↔ takenFor (ascii "Proxy-Connection") (c :: k) = true := hz1
  have hhost : ¬ ((c :: k).head? = some 72 ∨ (c :: k).head? = some 104) := by
    rcases hc with rfl | rfl <;> simp
  unfold fieldSwitch switchOf
  simp only [firstByte, PStr.ofBytes_str, List.headD_cons, if_neg hnc, if_pos hc, e1, hn3, ok_bind,
    pure_ok, hcl, hcs, Bool.false_eq_true, if_false, hhost, false_and]
  by_cases h1 : n1 = 0
  · rw [if_pos h1, if_pos (t1.1 h1)]
    by_cases h3 : n3 = 0
    · rw [if_neg (not_not.2 h3), hz3.1 h3]
      simp
    · rw [if_pos h3, Bool.eq_false_iff.2 (fun h => h3 (hz3.2 h))]
      simp
  · rw [if_neg h1, if_neg (fun h => h1 (t1.2 h))]

theorem fieldSwitch_h (hc : c = 72 ∨ c = 104) :
    fieldSwitch (.ofBytes (c :: k)) (.ofBytes v) r mem = .ok (switchOf (c :: k) v r mem) := by
  have hnc : ¬ (c = 67 ∨ c = 99) := by rcases hc with rfl | rfl <;> decide
  have hnp : ¬ (c = 80 ∨ c = 112) := by rcases hc with rfl | rfl <;> decide
  have hne : ∀ w : Bytes, w.head? = some 67 ∨ w.head? = some 80 → takenFor w (c :: k) = false := by
    intro w hw
    apply takenFor_of_head_ne
    rcases hc with rfl | rfl <;> rcases hw with hw | hw <;> simp [hw]
  have hcl := hne (ascii "Content-Length") (.inl (by decide))
  have hcs := hne (ascii "Connection") (.inl (by decide))
  have hpc := hne (ascii "Proxy-Connection") (.inr (by decide))
  have hhost : (c :: k).head? = some 72 ∨ (c :: k).head? = some 104 := by simpa using hc
  unfold fieldSwitch switchOf
  simp only [firstByte, PStr.ofBytes_str, PStr.ofBytes_len, List.headD_cons, if_neg hnc, if_neg hnp,
    if_pos hc, hcl, hcs, hpc, Bool.false_eq_true, if_false, hhost, true_and, sizeT_natCast]
  by_cases hl : r.hr_host.s_len = 0
  case neg => rw [if_neg hl, if_neg hl]; rfl
  rw [if_pos hl, if_pos hl]
  rcases splitHost_memchr v with ⟨-, hs, hm⟩ | ⟨h, p, rfl, hs, hm⟩
  · simp only [hm, hs, ok_bind, pure_ok]
    rfl
  · have hd : (h ++ COLON :: p).drop (h.length + 1) = p := by
      rw [List.append_cons, List.drop_left' (by simp)]
    have hp : (((h ++ COLON :: p).length : ℕ) : ℤ) - ((h.length : ℤ) + 1) = p.length := by
      simp only [List.length_append, List.length_cons]; omega
    have hh : (((h ++ COLON :: p).length : ℕ) : ℤ) - (p.length : ℤ) - 1 = h.length := by
      simp only [List.length_append, List.length_cons]; omega
    have ha : ∀ a s, strzassign a s (h ++ COLON :: p) h.length = strzassign a s h h.length := by
      intro a s
      unfold strzassign slice
      simp [sizeT_natCast]
    simp only [hm, hs, ok_bind, pure_ok, hd, hp, hh, ha]
    rfl

/-- `plm_http_on_field` never faults in its `switch`, whatever the field is. -/
theorem fieldSwitch_eq (k v : Bytes) (r : Req) (mem : List Bool) :
    fieldSwitch (.ofBytes k) (.ofBytes v) r mem = .ok (switchOf k v r mem) := by
  by_cases hc : k.head? = some 67 ∨ k.head? = some 99
  · rcases hc with h | h <;> obtain ⟨k, rfl⟩ := List.head?_eq_some_iff.1 h
    · exact fieldSwitch_c (.inl rfl)
    · exact fieldSwitch_c (.inr rfl)
  by_cases hp : k.head? = some 80 ∨ k.head? = some 112
  · rcases hp with h | h <;> obtain ⟨k, rfl⟩ := List.head?_eq_some_iff.1 h
    · exact fieldSwitch_p (.inl rfl)
    · exact fieldSwitch_p (.inr rfl)
  by_cases hh : k.head? = some 72 ∨ k.head? = some 104
  · rcases hh with h | h <;> obtain ⟨k, rfl⟩ := List.head?_eq_some_iff.1 h
    · exact fieldSwitch_h (.inl rfl)
    · exact fieldSwitch_h (.inr rfl)
  have hne : ∀ w : Bytes, w.head? = some 67 ∨ w.head? = some 80 → takenFor w k = false := by
    intro w hw
    apply takenFor_of_head_ne
    intro h
    rcases hw with hw | hw <;> rw [hw] at h
    · exact hc (.inl h)
    · exact hp (.inl h)
  have hfirst : ∀ x : UInt8, x ≠ 0 → k.head? ≠ some x → firstByte (.ofBytes k) ≠ x := by
    intro x hx hne
    unfold firstByte
    cases k with
    | nil => simpa using hx.symm
    | cons c k => simpa using hne
  rw [not_or] at hc hp hh
  unfold fieldSwitch switchOf
  rw [hne _ (.inl (by decide)), hne _ (.inl (by decide)), hne _ (.inr (by decide))]
  simp only [hfirst 67 (by decide) hc.1, hfirst 99 (by decide) hc.2, hfirst 80 (by decide) hp.1,
    hfirst 112 (by decide) hp.2, hfirst 72 (by decide) hh.1, hfirst 104 (by decide) hh.2, hh.1,
    hh.2, or_self, if_false, Bool.false_eq_true, false_and]
  rfl

end Switch

theorem httpFieldKey_lt (k : PStr) {max : ℕ} (h : 0 < max) : httpFieldKey k max < max :=
  Nat.mod_lt _ h

theorem cntlenOf_numeral {v : Bytes} (hv : Numeral v) (hlt : decimal v < 2 ^ 63) :
    cntlenOf v = decimal v := by
  unfold cntlenOf str2ll
  rw [str2si_numeral 64 hv, Int.bmod_eq_of_le (by omega) (by omega)]
  omega

theorem portOf_numeral {v : Bytes} (hv : Numeral v) : portOf (.ofBytes v) = decimal v % 65536 := by
  unfold portOf str2s
  rw [str2si_numeral 16 hv]
  have h := Int.bmod_emod (x := decimal v) (m := 2 ^ 16)
  have hc : ((2 ^ 16 : ℕ) : ℤ) = 2 ^ 16 := by norm_num
  rw [hc] at h
  rw [h]
  omega

def stored (s : PStr) : PStr := ⟨slice s.s_str 0 (sizeT s.s_len) ++ [0], s.s_len⟩

theorem strzalloc_true (s : PStr) : strzalloc true s = some (stored s) := rfl

theorem strzalloc_some {a : Bool} {s s' : PStr} (h : strzalloc a s = some s') : s' = stored s := by
  cases a with
  | true => exact (Option.some.inj h).symm
  | false => simp [strzalloc] at h

section OnField

variable (k v : Bytes) (r : Req) (mem : List Bool)

theorem switchOf_fields : (switchOf k v r mem).2.1.hr_fields = r.hr_fields := by
  unfold switchOf
  split_ifs <;> rfl

theorem switchOf_mem : (switchOf k v r []).2.2 = [] := by
  unfold switchOf
  split_ifs <;> rfl

/-- The `switch` has its effect, and the field is entered as it named it unless memory runs out. -/
theorem httpOnField_cases : ∃ mem',
    httpOnField (.ofBytes k) (.ofBytes v) r mem = .ok (-1, (switchOf k v r mem).2.1, mem') ∨
    httpOnField (.ofBytes k) (.ofBytes v) r mem = do
      let fields ← hashInsert httpFieldKey r.hr_fields (stored (switchOf k v r mem).1)
        (stored (.ofBytes v))
      return (0, { (switchOf k v r mem).2.1 with hr_fields := fields }, mem') := by
  have hf := switchOf_fields k v r mem
  obtain ⟨⟨k', r', m⟩, hs⟩ : ∃ x, switchOf k v r mem = x := ⟨_, rfl⟩
  rw [hs] at hf
  unfold httpOnField
  rw [fieldSwitch_eq, hs]
  simp only [ok_bind]
  cases h1 : strzalloc (palloc m).1 k' with
  | none => exact ⟨_, .inl rfl⟩
  | some nk =>
    cases h2 : strzalloc (palloc (palloc m).2).1 (.ofBytes v) with
    | none => exact ⟨_, .inl rfl⟩
    | some nv =>
      obtain rfl := strzalloc_some h1
      obtain rfl := strzalloc_some h2
      simp only
      split_ifs with h3
      · exact ⟨_, .inr (by rw [← hf])⟩
      · exact ⟨_, .inl rfl⟩

/-- With or without memory for the field itself, the `switch` has had its effect. -/
theorem httpOnField_switch (h : HasBuckets r.hr_fields) : ∃ rc fields mem',
    httpOnField (.ofBytes k) (.ofBytes v) r mem =
      .ok (rc, { (switchOf k v r mem).2.1 with hr_fields := fields }, mem') ∧
        HasBuckets fields := by
  obtain ⟨mem', hon | hon⟩ := httpOnField_cases k v r mem
  · exact ⟨-1, (switchOf k v r mem).2.1.hr_fields, mem', hon, by rwa [switchOf_fields]⟩
  · obtain ⟨t, ht, hb⟩ :=
      hashInsert_ok (fun k _ h => httpFieldKey_lt k h) h (stored (switchOf k v r mem).1)
      (stored (.ofBytes v))
    exact ⟨0, t, mem', by rw [hon, ht]; rfl, hb⟩

/-- With memory for everything, the field is entered as the `switch` named it. -/
theorem httpOnField_ok (h : HasBuckets r.hr_fields) : ∃ fields,
    hashInsert httpFieldKey r.hr_fields (stored (switchOf k v r []).1) (stored (.ofBytes v)) =
      .ok fields ∧ HasBuckets fields ∧
    httpOnField (.ofBytes k) (.ofBytes v) r [] =
      .ok (0, { (switchOf k v r []).2.1 with hr_fields := fields }, []) := by
  have hf := switchOf_fields k v r []
  have hm := switchOf_mem k v r
  unfold httpOnField
  rw [fieldSwitch_eq]
  obtain ⟨⟨k', r', m⟩, hs⟩ : ∃ x, switchOf k v r [] = x := ⟨_, rfl⟩
  rw [hs] at hf hm ⊢
  obtain rfl : m = [] := hm
  obtain ⟨t, ht, hb⟩ := hashInsert_ok (fun k _ h => httpFieldKey_lt k h) (hf ▸ h) (stored k')
    (stored (.ofBytes v))
  refine ⟨t, hf ▸ ht, hb, ?_⟩
  simp only [palloc_nil, ok_bind, strzalloc_true, if_true, ht]
  rfl

end OnField

end Plume.Http
