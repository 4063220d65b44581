import Plume.Http.Bounds

/-! The lines `plm_http_parser_req_line` takes for request lines. Beside the request lines proper
these are lines that become one by the cuts: up to the NULs in them, without the byte in front of
the LF, and with version numbers read modulo 256. -/

namespace Plume.Http
open CLib

structure ReqParts where
  mthd : Mthd
  url : Bytes
  maj : Bytes
  min : Bytes
  url_ne : url ≠ []
  url_free : SP ∉ url
  maj_digits : Numeral maj
  min_digits : Numeral min

/-- The line without its LF, with any spaces in front and between. -/
def ReqParts.Spells (x : ReqParts) (l : Bytes) : Prop :=
  ∃ k a b, l = List.replicate k SP ++
    (mthdText x.mthd ++ SP :: (List.replicate a SP ++ (x.url ++ SP ::
    (List.replicate b SP ++ (ascii "HTTP/" ++ (x.maj ++ DOT :: x.min)))))) ++ [CR]

def Ver.numbers : Ver → Option (ℕ × ℕ)
  | .none => Option.none
  | .v09 => some (0, 9)
  | .v10 => some (1, 0)
  | .v11 => some (1, 1)

section Outcome

variable {δ σ : Type} (psr : Parser δ) (own : σ) (pre l post : Bytes)

def reqLineAt (hooks : Hooks δ σ) : Except Fault (Step δ σ) :=
  httpParserReqLine hooks psr ⟨pre ++ l ++ LF :: post, pre.length, false⟩ own

def Takes (m : Mthd) (u : Bytes) (ver : Ver) : Prop :=
  ∀ hooks : Hooks δ σ, ∃ pre', pre'.length = pre.length + l.length ∧
    reqLineAt psr own pre l post hooks = (do
    let (rc, data, own) ← hooks.hp_on_req_line m (.ofBytes u) ver psr.hp_data own
    return ⟨if rc = 0 then .done else .brk, ⟨.rlDone, l.length + 1, data⟩,
      ⟨pre' ++ LF :: post, pre'.length + 1, false⟩, own⟩)

def Rejects : Prop :=
  ∀ hooks : Hooks δ σ, ∃ s, reqLineAt psr own pre l post hooks = .ok ⟨.error, psr, s, own⟩

def Strays : Prop := ∀ hooks : Hooks δ σ, reqLineAt psr own pre l post hooks = .error .bounds

/-- Request lines are taken, with a version that is named only by its numbers; others are not. -/
structure ReqLineRight : Prop where
  proper : ∀ x : ReqParts, x.Spells l → ∃ ver, Takes psr own pre l post x.mthd x.url ver ∧
    ∀ p ∈ ver.numbers, p = (decimal x.maj, decimal x.min)
  other : (∀ x : ReqParts, ¬ x.Spells l) → Rejects psr own pre l post

end Outcome

/-- What the parser cuts a line into: method, URL and version text, and the byte in front of the
LF. -/
structure CutInto (l m u v : Bytes) (c : UInt8) : Prop where
  text : ∃ k a b, l = List.replicate k SP ++
    (m ++ SP :: (List.replicate a SP ++ (u ++ SP :: (List.replicate b SP ++ v)))) ++ [c]
  mthd : m ≠ [] ∧ SP ∉ m
  url : u ≠ [] ∧ SP ∉ u
  ver : v.head? ≠ some SP

/-- A version text with two parts, up to a NUL. -/
structure VersionText (v maj min : Bytes) : Prop where
  text : v.take 5 = ascii "HTTP/"
  cut : upToNul (v.drop 5) = maj ++ DOT :: min
  maj_free : DOT ∉ maj
  min_ne : min ≠ []

def ScanInside (b : Bytes) (n : ℕ) : Prop := SP ∈ b.take n ∨ n ≤ b.length

def low (ds : Bytes) : ℕ := min (decimal ds) (2 ^ 63 - 1) % 256

/-- A line with no flaw that the parser overlooks. -/
structure LineSound (pre l post : Bytes) : Prop where
  /-- a line without a byte but spaces has one, or follows one, and one follows it -/
  blank : ∀ k, l = List.replicate k SP → (0 < k ∨ pre ≠ []) ∧ ScanInside (LF :: post) (2 ^ 64 - 1)
  /-- behind a method and a URL there are five bytes to compare -/
  long : ∀ m u v c, CutInto l m u v c → mthdOf m ≠ none → 3 ≤ v.length + post.length
  /-- what looks like a request line up to NULs and the last byte is one -/
  exact : ∀ m u v c maj min, CutInto l m u v c → mthdOf m ≠ none → VersionText v maj min →
    0 ∉ m ∧ 0 ∉ v ∧ c = CR ∧ Numeral maj ∧ Numeral min
  /-- its numbers are not other ones that look like those of a known version -/
  numbers : ∀ m u v c maj min, CutInto l m u v c → mthdOf m ≠ none → VersionText v maj min →
    (low maj, low min) ∈ [(0, 9), (1, 0), (1, 1)] → decimal maj = low maj ∧ decimal min = low min

section Cut

variable {l m u v w t maj min : Bytes} {c : UInt8}

theorem token_eq_some (h : token w = some (m, t)) :
    ∃ a, w = m ++ SP :: (List.replicate a SP ++ t) ∧ SP ∉ m ∧ t.head? ≠ some SP := by
  by_cases hsp : SP ∈ w
  case neg => simp [token, cut_none hsp] at h
  obtain ⟨m', w1, rfl, hm⟩ := List.eq_append_cons_of_mem hsp
  obtain ⟨a, t', rfl, ht⟩ := exists_replicate SP w1
  simp only [token, cut_some hm, Option.map_some, dropWhile_spaces ht, Option.some.injEq,
    Prod.mk.injEq] at h
  obtain ⟨rfl, rfl⟩ := h
  exact ⟨a, rfl, hm, ht⟩

theorem cutInto_iff : CutInto l m u v c ↔ ∃ k w t, l = List.replicate k SP ++ (w ++ [c]) ∧
    (w ++ [c]).head? ≠ some SP ∧ token w = some (m, t) ∧ token t = some (u, v) := by
  constructor
  · rintro ⟨⟨k, a, b, rfl⟩, ⟨hm, hms⟩, ⟨hu, hus⟩, hv⟩
    have ht : (u ++ SP :: (List.replicate b SP ++ v)).head? ≠ some SP := head?_ne_of_free hu hus
    refine ⟨k, _, _, by rw [List.append_assoc], ?_, token_some a hms ht, token_some b hus hv⟩
    rw [List.append_assoc]
    exact head?_ne_of_free hm hms
  · rintro ⟨k, w, t, rfl, hhd, hw, ht⟩
    obtain ⟨a, rfl, hm, htsp⟩ := token_eq_some hw
    obtain ⟨b, rfl, hu, hv⟩ := token_eq_some ht
    refine ⟨⟨k, a, b, (List.append_assoc ..).symm⟩, ⟨?_, hm⟩, ⟨?_, hu⟩, hv⟩
    · rintro rfl
      exact hhd rfl
    · rintro rfl
      exact htsp rfl

theorem CutInto.unique {m' u' v' : Bytes} {c' : UInt8} (hLF : LF ∉ l) (h : CutInto l m u v c)
    (h' : CutInto l m' u' v' c') : m = m' ∧ u = u' ∧ v = v' ∧ c = c' := by
  obtain ⟨k, w, t, rfl, hhd, hw, ht⟩ := cutInto_iff.1 h
  obtain ⟨k', w', t', heq, hhd', hw', ht'⟩ := cutInto_iff.1 h'
  have hno : LF ∉ w ++ [c] := fun hmem => hLF (List.mem_append_right _ hmem)
  have hno' : LF ∉ w' ++ [c'] := fun hmem => hLF (heq ▸ List.mem_append_right _ hmem)
  obtain ⟨-, hbody, -⟩ := line_unique (congrArg (· ++ LF :: []) heq) hno hhd hno' hhd'
  obtain ⟨rfl, hc⟩ := List.append_inj' hbody rfl
  obtain ⟨rfl, rfl⟩ := Prod.mk.inj (Option.some.inj (hw.symm.trans hw'))
  obtain ⟨rfl, rfl⟩ := Prod.mk.inj (Option.some.inj (ht.symm.trans ht'))
  exact ⟨rfl, rfl, rfl, List.singleton_inj.1 hc⟩

theorem versionOf_iff {ver : Ver} : versionOf v = some ver ↔
    ∃ maj min, VersionText v maj min ∧ ver = verOf (atoi maj) (atoi min) := by
  unfold versionOf verTokens
  constructor
  · intro h
    split_ifs at h with h5
    rcases cut_cases DOT (upToNul (v.drop 5)) with ⟨-, hcut⟩ | ⟨maj, min, heq, hmaj, hcut⟩
    · rw [hcut] at h
      cases h
    · rw [hcut] at h
      simp only at h
      split_ifs at h with hmin
      exact ⟨maj, min, ⟨h5, heq, hmaj, hmin⟩, (Option.some.inj h).symm⟩
  · rintro ⟨maj, min, ⟨h5, heq, hmaj, hmin⟩, rfl⟩
    rw [if_pos h5, heq, cut_some hmaj]
    simp only
    rw [if_neg hmin]

theorem mthdOf_iff {mthd : Mthd} : mthdOf m = some mthd ↔ upToNul m = mthdText mthd := by
  unfold mthdOf
  constructor
  · intro h
    simp only at h
    split_ifs at h with h1 h2 h3 h4 h5 h6 h7 h8 <;> cases h <;> assumption
  · intro h
    rw [h]
    cases mthd <;> decide

end Cut

section Outcome

variable {δ σ : Type} {psr : Parser δ} {own : σ} {pre l post m u v : Bytes} {c : UInt8}
  {mthd : Mthd} {ver : Ver}

theorem CutInto.head (h : CutInto l m u v c) : ∃ k w, l = List.replicate k SP ++ (w ++ [c]) ∧
    (w ++ [c]).head? ≠ some SP ∧ reqLineHead w = (mthdOf m).map fun mthd => (mthd, u, v) := by
  obtain ⟨k, w, t, rfl, hhd, hw, ht⟩ := cutInto_iff.1 h
  refine ⟨k, w, rfl, hhd, ?_⟩
  rw [reqLineHead, hw]
  cases hm : mthdOf m with
  | none => simp [hm]
  | some mthd => simp [hm, ht]

theorem line_buf (pre w post : Bytes) (k : ℕ) (c : UInt8) :
    pre ++ (List.replicate k SP ++ (w ++ [c])) ++ LF :: post =
    pre ++ List.replicate k SP ++ (w ++ [c]) ++ LF :: post := by
  simp only [List.append_assoc]

theorem takes_of_cut (hLF : LF ∉ l) (h : CutInto l m u v c) (hm : mthdOf m = some mthd)
    (hlen : 3 ≤ v.length + post.length)
    (hver : versionOf v = some ver) : Takes psr own pre l post mthd u ver := by
  intro hooks
  obtain ⟨k, w, rfl, hhd, hw⟩ := h.head
  have hline :=
    reqLine_line hooks psr own pre (s := ⟨_, pre.length, false⟩) (line_buf pre w post k c) rfl
    (fun hmem => hLF (List.mem_append_right _ hmem)) hhd
  rw [hw, hm] at hline
  simp only [Option.map_some, if_neg (not_lt.2 hlen), hver] at hline
  obtain ⟨pre', hpre', hrun⟩ := hline
  have hl : (List.replicate k SP ++ (w ++ [c])).length = k + w.length + 1 := by simp [Nat.add_assoc]
  refine ⟨pre', by rw [hpre', hl]; omega, ?_⟩
  rw [reqLineAt, hrun, hl]

theorem strays_of_cut (hLF : LF ∉ l) (h : CutInto l m u v c) (hm : mthdOf m = some mthd)
    (hlen : v.length + post.length < 3) : Strays psr own pre l post := by
  intro hooks
  obtain ⟨k, w, rfl, hhd, hw⟩ := h.head
  have hline :=
    reqLine_line hooks psr own pre (s := ⟨_, pre.length, false⟩) (line_buf pre w post k c) rfl
    (fun hmem => hLF (List.mem_append_right _ hmem)) hhd
  rw [hw, hm] at hline
  simp only [Option.map_some, if_pos hlen] at hline
  exact hline

theorem rejects_of_cut {k : ℕ} {w : Bytes} (hLF : LF ∉ l)
    (hl : l = List.replicate k SP ++ (w ++ [c]))
    (hhd : (w ++ [c]).head? ≠ some SP) (h : ∀ m u v, CutInto l m u v c → mthdOf m ≠ none →
      3 ≤ v.length + post.length ∧ versionOf v = none) : Rejects psr own pre l post := by
  intro hooks
  have hbuf : pre ++ l ++ LF :: post = pre ++ List.replicate k SP ++ (w ++ [c]) ++ LF :: post := by
    rw [hl, line_buf]
  have hline := reqLine_line hooks psr own pre (s := ⟨_, pre.length, false⟩) hbuf rfl
    (fun hmem => hLF (hl ▸ List.mem_append_right _ hmem)) hhd
  cases hhead : reqLineHead w with
  | none =>
    rw [hhead] at hline
    obtain ⟨buf, hrun⟩ := hline
    exact ⟨_, hrun⟩
  | some x =>
    obtain ⟨mthd, u, v⟩ := x
    obtain ⟨⟨m, t⟩, hw, hx⟩ := Option.bind_eq_some_iff.1 hhead
    obtain ⟨mthd', hm, hx⟩ := Option.bind_eq_some_iff.1 hx
    obtain ⟨⟨u', v'⟩, ht, hx⟩ := Option.bind_eq_some_iff.1 hx
    cases hx
    obtain ⟨hlen, hver⟩ := h m u v (cutInto_iff.2 ⟨k, w, t, hl, hhd, hw, ht⟩) (by simp [hm])
    rw [hhead] at hline
    simp only [if_neg (not_lt.2 hlen), hver] at hline
    obtain ⟨buf, hrun⟩ := hline
    exact ⟨_, hrun⟩

variable (post) in
/-- Where a line of spaces begins and ends, with a byte in front of its LF. -/
theorem blank_find {k : ℕ} (hk : 0 < k ∨ pre ≠ []) : ∃ Q : Bytes,
    pre.length + leadingSpaces
      (pre ++ List.replicate k SP ++ LF :: post) pre.length = Q.length + 1 ∧
      find (· == LF) (pre ++ List.replicate k SP ++ LF :: post) (Q.length + 1) = some
        (Q.length + 1) ∧
      store (pre ++ List.replicate k SP ++ LF :: post) Q.length 0 = .ok (Q ++ 0 :: LF :: post) := by
  have hne : pre ++ List.replicate k SP ≠ [] := by
    rcases hk with hk | hk
    · simp [hk.ne']
    · simp [hk]
  obtain ⟨Q, y, hQ⟩ := (List.eq_nil_or_concat' _).resolve_left hne
  have hlen : pre.length + k = Q.length + 1 := by simpa using congrArg List.length hQ
  refine ⟨Q, ?_, ?_, ?_⟩
  · rw [leadingSpaces_eq (t := LF :: post) rfl rfl (by rintro ⟨⟩), hlen]
  · rw [hQ, find_split (l := Q ++
      [y]) (m := []) (x := LF) (r := post) (by simp) (by simp) (by simp) (by simp)]
    simp
  · rw [hQ]
    exact store_split (l := Q) (x := y) (by simp) rfl

theorem blank_len (q : ℕ) : sizeT (((q + 1 : ℕ) : ℤ) - 1 - ((q + 1 : ℕ) : ℤ)) = 2 ^ 64 - 1 := by
  rw [show ((q + 1 : ℕ) : ℤ) - 1 - ((q + 1 : ℕ) : ℤ) = -1 by omega]
  decide

theorem exists_of_mem_take {n : ℕ} (h : SP ∈ (LF :: post).take n) :
    ∃ a r, post = a ++ SP :: r ∧ SP ∉ LF :: a ∧ (LF :: a).length < n := by
  obtain ⟨a, r, har, ha⟩ := List.eq_append_cons_of_mem h
  have hpost : LF :: post = a ++ SP :: (r ++ (LF :: post).drop n) := by
    rw [← List.cons_append, ← List.append_assoc, ← har, List.take_append_drop]
  have hlen := congrArg List.length har
  have hle := List.length_take_le n (LF :: post)
  rw [List.length_append, List.length_cons] at hlen
  cases a with
  | nil => cases hpost
  | cons x a =>
    obtain ⟨rfl, htail⟩ := List.cons.inj hpost
    exact ⟨a, _, htail, ha, by omega⟩

/-- Spaces and an LF make a line of length minus one. -/
theorem blank_rejects {k : ℕ} (hk : 0 < k ∨ pre ≠ [])
    (hscan : ScanInside (LF :: post) (2 ^ 64 - 1)) :
    Rejects psr own pre (List.replicate k SP) post := by
  intro hooks
  obtain ⟨Q, hstr, hlf, hst⟩ := blank_find post hk
  have hneg : (((Q.length + 1 : ℕ) : ℤ) - 1 - ((Q.length + 1 : ℕ) : ℤ) < 0) = True :=
    eq_true (by omega)
  have hQl : (Q ++ [(0 : UInt8)]).length = Q.length + 1 := by simp
  have hlen := blank_len Q.length
  generalize 2 ^ 64 - 1 = n at hscan hlen
  by_cases hsp : SP ∈ (LF :: post).take n
  · -- a space behind the line ends the search, and an LF begins no method
    obtain ⟨a, r, rfl, ha, hlt⟩ := exists_of_mem_take hsp
    have hm : memchr (Q ++ 0 :: LF :: (a ++ SP :: r)) (Q.length + 1) SP n =
        .ok (some ((Q ++ [0]).length + (LF :: a).length)) :=
      memchr_split (l := Q ++ [0]) (m := LF :: a) (r := r) (by simp) hQl.symm ha hlt
    have hst' : store (Q ++ 0 :: LF :: (a ++ SP :: r)) ((Q ++ [0]).length + (LF :: a).length) 0 =
        .ok (Q ++ [0] ++ (LF :: a) ++ 0 :: r) :=
      store_split (l := Q ++ [0] ++ (LF :: a)) (x := SP) (r := r) (by simp) (by simp; omega)
    have hdrop : (Q ++ [0] ++ (LF :: a) ++ 0 :: r).drop (Q.length + 1) = LF :: (a ++ 0 :: r) := by
      rw [← hQl, List.append_assoc (Q ++ [0]), List.drop_left, List.cons_append]
    have hmthd : parseMthd (LF :: (a ++ 0 :: r)) = .ok none := rfl
    refine ⟨⟨Q ++ [0] ++ (LF :: a) ++ 0 :: r, pre.length, true⟩, ?_⟩
    rw [reqLineAt, httpParserReqLine]
    simp only [hstr, hlf, before, ok_bind, hst, Input.length, hneg, hlen, hm, hst', hdrop, hmthd,
      pure_ok, decide_true, Bool.or_true]
  · have hm : memchr (Q ++ 0 :: LF :: post) (Q.length + 1) SP n = .ok none := by
      have hle := hscan.resolve_left hsp
      exact memchr_absent (l := Q ++ [0]) (m := (LF :: post).take n) (r := (LF :: post).drop n)
        (by simp) hQl.symm hsp
        (List.length_take_of_le hle).symm
    refine ⟨⟨Q ++ 0 :: LF :: post, pre.length, true⟩, ?_⟩
    rw [reqLineAt, httpParserReqLine]
    simp only [hstr, hlf, before, ok_bind, hst, Input.length, hneg, hlen, hm, pure_ok, decide_true,
      Bool.or_true]

theorem blank_strays {k : ℕ} (h : ¬ ((0 < k ∨ pre ≠ []) ∧ ScanInside (LF :: post) (2 ^ 64 - 1))) :
    Strays psr own pre (List.replicate k SP) post := by
  intro hooks
  by_cases hk : 0 < k ∨ pre ≠ []
  · have hscan : ¬ ScanInside (LF :: post) (2 ^ 64 - 1) := fun hs => h ⟨hk, hs⟩
    obtain ⟨Q, hstr, hlf, hst⟩ := blank_find post hk
    have hlen := blank_len Q.length
    generalize 2 ^ 64 - 1 = n at hscan hlen
    rw [ScanInside, not_or, not_le] at hscan
    have hm : memchr (Q ++ 0 :: LF :: post) (Q.length + 1) SP n = .error .bounds := by
      refine memchr_outside (l := Q ++ [0]) (m := LF :: post) (by simp) (by simp) ?_ hscan.2
      rw [← List.take_of_length_le hscan.2.le]
      exact hscan.1
    rw [reqLineAt, httpParserReqLine]
    simp only [hstr, hlf, before, ok_bind, hst, Input.length, hlen, hm, error_bind]
  · obtain ⟨rfl, rfl⟩ : k = 0 ∧ pre = [] := by simpa using hk
    rfl

def wildHooks : Hooks δ σ where
  hp_on_req_line _ _ _ _ _ := .error .wild
  hp_on_status_line _ _ _ _ _ := .error .wild
  hp_on_field _ _ _ _ := .error .wild
  hp_on_hdr_done _ _ := .error .wild

theorem Takes.not_rejects {ver : Ver} (h : Takes psr own pre l post mthd u ver) :
    ¬ Rejects psr own pre l post := by
  intro hrej
  obtain ⟨pre', -, hrun⟩ := h wildHooks
  obtain ⟨s, hs⟩ := hrej wildHooks
  cases hs.symm.trans hrun

theorem Strays.not_rejects (h : Strays psr own pre l post) : ¬ Rejects psr own pre l post := by
  intro hrej
  obtain ⟨s, hs⟩ := hrej wildHooks
  cases hs.symm.trans (h wildHooks)

theorem Takes.ver_unique {mthd' : Mthd} {u' : Bytes} {ver ver' : Ver}
    (h : Takes psr own pre l post mthd u ver)
    (h' : Takes psr own pre l post mthd' u' ver') : ver = ver' := by
  -- a callback that tells the version by the way it faults
  let hooks : Hooks δ σ := { wildHooks with
    hp_on_req_line := fun _ _ v _ _ => if v = ver then .error .wild else .error .abort }
  obtain ⟨pre1, -, hrun⟩ := h hooks
  obtain ⟨pre2, -, hrun'⟩ := h' hooks
  have heq := hrun.symm.trans hrun'
  by_contra hne
  have hne' : ¬ ver' = ver := fun h => hne h.symm
  simp only [hooks, if_true, if_neg hne', error_bind] at heq
  cases heq

end Outcome

section Numbers

variable {ds : Bytes}

theorem isSpace_of_isDigit {d : UInt8} (h : isDigit d = true) : isSpace d = false := by
  obtain ⟨hlo, hhi⟩ := isDigit_iff.1 h
  have h32 : d ≠ 32 := by
    rintro rfl
    exact absurd hlo (by decide)
  have h13 : ¬ d ≤ 13 := by
    rw [UInt8.le_iff_toNat_le, show (13 : UInt8).toNat = 13 from rfl]
    omega
  simp [isSpace, h32, h13]

theorem strtol_numeral (h : Numeral ds) : strtol ds = min ((2 : ℤ) ^ 63 - 1) (decimal ds : ℤ) := by
  obtain ⟨hne, hdig⟩ := h
  obtain ⟨d, ds, rfl⟩ := List.exists_cons_of_ne_nil hne
  have htake : (d :: ds).takeWhile isDigit = d :: ds := List.takeWhile_eq_self_iff.2 hdig
  have hd := hdig d (by simp)
  have hdrop : (d :: ds).dropWhile isSpace = d :: ds :=
    List.dropWhile_cons_of_neg (by simp [isSpace_of_isDigit hd])
  unfold strtol
  rw [hdrop]
  split
  · rename_i heq
    cases heq
    exact absurd hd (by decide)
  · rename_i heq
    cases heq
    exact absurd hd (by decide)
  · rw [htake]

theorem atoi_numeral (h : Numeral ds) : atoi ds % 256 = (low ds : ℤ) := by
  have hdvd : (256 : ℤ) ∣ ((2 ^ 32 : ℕ) : ℤ) := by decide
  have hmin : min ((2 : ℤ) ^ 63 - 1)
    (decimal ds : ℤ) = ((min (decimal ds) (2 ^ 63 - 1) : ℕ) : ℤ) := by omega
  rw [atoi, strtol_numeral h, hmin, ← Int.emod_emod_of_dvd _ hdvd, Int.bmod_emod,
    Int.emod_emod_of_dvd _ hdvd, low]
  rfl

/-- The version the parser names is the one that two bytes spell. -/
theorem mem_verOf_numbers {v1 v2 : ℤ} {a b : ℕ} (ha : v1 % 256 = a) (hb : v2 % 256 = b)
    (p : ℕ × ℕ) :
    p ∈ (verOf v1 v2).numbers ↔ p = (a, b) ∧ (a, b) ∈ [(0, 9), (1, 0), (1, 1)] := by
  unfold verOf
  rw [ha, hb]
  split_ifs with h1 h2 h3 h4
  · obtain ⟨rfl, rfl⟩ : a = 1 ∧ b = 1 := by omega
    simp [Ver.numbers, eq_comm]
  · obtain ⟨rfl, rfl⟩ : a = 1 ∧ b = 0 := by omega
    simp [Ver.numbers, eq_comm]
  · have hne : (a, b) ∉ [(0, 9), (1, 0), (1, 1)] := by
      simp
      omega
    simp [Ver.numbers, hne]
  · obtain ⟨rfl, rfl⟩ : a = 0 ∧ b = 9 := by omega
    simp [Ver.numbers, eq_comm]
  · have hne : (a, b) ∉ [(0, 9), (1, 0), (1, 1)] := by
      simp
      omega
    simp [Ver.numbers, hne]

end Numbers

section Lines

variable {δ σ : Type} {psr : Parser δ} {own : σ} {pre l post m u v maj min : Bytes} {c : UInt8}

theorem mthdOf_text (mthd : Mthd) : mthdOf (mthdText mthd) = some mthd := by
  cases mthd <;> decide

theorem ReqParts.nul_free (x : ReqParts) : 0 ∉ x.maj ++ DOT :: x.min := by
  simp [numeral_free x.maj_digits (d := 0) (by decide),
    numeral_free x.min_digits (d := 0) (by decide), (by decide : (0 : UInt8) ≠ DOT)]

theorem ReqParts.Spells.cut {x : ReqParts} (h : x.Spells l) :
    CutInto l (mthdText x.mthd) x.url (ascii "HTTP/" ++ (x.maj ++ DOT :: x.min)) CR ∧
      VersionText (ascii "HTTP/" ++ (x.maj ++ DOT :: x.min)) x.maj x.min := by
  refine ⟨⟨h, ?_, ⟨x.url_ne, x.url_free⟩, by rintro ⟨⟩⟩, rfl, ?_,
    numeral_free x.maj_digits (by decide), x.min_digits.1⟩
  · cases x.mthd <;> decide
  · exact upToNul_of_free x.nul_free

/-- A line that is cut so, without a flaw, is a request line. -/
theorem CutInto.spells {mthd : Mthd} (h : CutInto l m u v c) (hm : mthdOf m = some mthd)
    (hv : VersionText v maj min)
    (hm0 : 0 ∉ m) (hv0 : 0 ∉ v) (hc : c = CR) (hmaj : Numeral maj) (hmin : Numeral min) :
    (⟨mthd, u, maj, min, h.url.1, h.url.2, hmaj, hmin⟩ : ReqParts).Spells l := by
  have hmt : m = mthdText mthd := by rw [← mthdOf_iff.1 hm, upToNul_of_free hm0]
  have hvt : v = ascii "HTTP/" ++ (maj ++ DOT :: min) := by
    have hdrop : 0 ∉ v.drop 5 := fun hmem => hv0 (List.mem_of_mem_drop hmem)
    rw [← hv.cut, upToNul_of_free hdrop, ← hv.text, List.take_append_drop]
  rw [ReqParts.Spells, ← hmt, ← hvt, ← hc]
  exact h.text

/-- Every line is blank or has a last byte behind its leading spaces. -/
theorem line_cases (l : Bytes) : (∃ k, l = List.replicate k SP) ∨
    ∃ k w c, l = List.replicate k SP ++ (w ++ [c]) ∧ (w ++ [c]).head? ≠ some SP := by
  obtain ⟨k, t, rfl, ht⟩ := exists_replicate SP l
  rcases List.eq_nil_or_concat' t with rfl | ⟨w, c, rfl⟩
  · exact .inl ⟨k, List.append_nil _⟩
  · exact .inr ⟨k, w, c, rfl, ht⟩

theorem CutInto.not_blank (h : CutInto l m u v c) (k : ℕ) : l ≠ List.replicate k SP := by
  rintro rfl
  obtain ⟨⟨k', a, b, htext⟩, ⟨hne, hm⟩, -, -⟩ := h
  obtain ⟨y, m, rfl⟩ := List.exists_cons_of_ne_nil hne
  have hmem : y ∈ List.replicate k SP := by simp [htext]
  exact hm (by simp [List.eq_of_mem_replicate hmem])

theorem VersionText.unique {maj' min' : Bytes} (h : VersionText v maj min)
    (h' : VersionText v maj' min') :
    maj = maj' ∧ min = min' := by
  have hcut := cut_some (t := min) h.maj_free
  rw [← h.cut, h'.cut, cut_some h'.maj_free] at hcut
  obtain ⟨rfl, rfl⟩ := Prod.mk.inj (Option.some.inj hcut)
  exact ⟨rfl, rfl⟩

/-- Where the parser does right, a line that is not rejected is a request line, and has been cut as
one. -/
theorem ReqLineRight.cut (h : ReqLineRight psr own pre l post) (hLF : LF ∉ l)
    (hc : CutInto l m u v c)
    (hrej : ¬ Rejects psr own pre l post) : ∃ x : ReqParts, x.Spells l ∧ m = mthdText x.mthd ∧
      v = ascii "HTTP/" ++ (x.maj ++ DOT :: x.min) ∧ c = CR ∧ VersionText v x.maj x.min := by
  obtain ⟨x, hx⟩ : ∃ x : ReqParts, x.Spells l := by
    by_contra hno
    exact hrej (h.other fun x hx => hno ⟨x, hx⟩)
  obtain ⟨hcut, hver⟩ := hx.cut
  obtain ⟨hm, -, rfl, hcr⟩ := hc.unique hLF hcut
  exact ⟨x, hx, hm, rfl, hcr, hver⟩

theorem ReqLineRight.long (h : ReqLineRight psr own pre l post) (hLF : LF ∉ l)
    (hc : CutInto l m u v c)
    (hm : mthdOf m ≠ none) : 3 ≤ v.length + post.length := by
  by_contra hlen
  obtain ⟨mthd, hm⟩ := Option.ne_none_iff_exists'.1 hm
  have hstray : Strays psr own pre l post := strays_of_cut hLF hc hm (not_le.1 hlen)
  obtain ⟨x, -, -, rfl, -, -⟩ := h.cut hLF hc hstray.not_rejects
  have h5 : (ascii "HTTP/").length = 5 := by decide
  rw [List.length_append, h5] at hlen
  omega

theorem ReqLineRight.sound (h : ReqLineRight psr own pre l post) (hLF : LF ∉ l) :
    LineSound pre l post := by
  have htakes : ∀ {m u v c maj min mthd}, CutInto l m u v c → mthdOf m = some mthd →
    VersionText v maj min →
      Takes psr own pre l post mthd u (verOf (atoi maj) (atoi min)) := fun hc hm hv =>
    takes_of_cut hLF hc hm (h.long hLF hc (by simp [hm])) (versionOf_iff.2 ⟨_, _, hv, rfl⟩)
  refine ⟨?_, fun m u v c hc hm => h.long hLF hc hm, ?_, ?_⟩
  · rintro k rfl
    by_contra hblank
    have hstray : Strays psr own pre (List.replicate k SP) post := blank_strays hblank
    refine hstray.not_rejects (h.other fun x hx => ?_)
    exact hx.cut.1.not_blank k rfl
  · intro m u v c maj min hc hm hv
    obtain ⟨mthd, hm⟩ := Option.ne_none_iff_exists'.1 hm
    obtain ⟨x, hx, hmx, hvx, hcr, hvt⟩ := h.cut hLF hc (htakes hc hm hv).not_rejects
    obtain ⟨rfl, rfl⟩ := hv.unique hvt
    refine ⟨?_, ?_, hcr, x.maj_digits, x.min_digits⟩
    · rw [hmx]
      cases x.mthd <;> decide
    · rw [hvx, List.mem_append, not_or]
      exact ⟨by decide, x.nul_free⟩
  · intro m u v c maj min hc hm hv hlow
    obtain ⟨mthd, hm⟩ := Option.ne_none_iff_exists'.1 hm
    obtain ⟨x, hx, -, -, -, hvt⟩ := h.cut hLF hc (htakes hc hm hv).not_rejects
    obtain ⟨rfl, rfl⟩ := hv.unique hvt
    obtain ⟨ver, htake, hnum⟩ := h.proper x hx
    obtain rfl := htake.ver_unique (htakes hc hm hv)
    have hp := hnum _
      ((mem_verOf_numbers (atoi_numeral x.maj_digits) (atoi_numeral x.min_digits) _).2 ⟨rfl, hlow⟩)
    exact ⟨(Prod.mk.inj hp).1.symm, (Prod.mk.inj hp).2.symm⟩

theorem LineSound.right (h : LineSound pre l post) (hLF : LF ∉ l) :
    ReqLineRight psr own pre l post := by
  constructor
  · intro x hx
    obtain ⟨hcut, hver⟩ := hx.cut
    have hm : mthdOf (mthdText x.mthd) ≠ none := by simp [mthdOf_text]
    refine ⟨_, takes_of_cut hLF hcut (mthdOf_text x.mthd) (h.long _ _ _ _ hcut hm)
      (versionOf_iff.2 ⟨_, _, hver, rfl⟩), fun p hp => ?_⟩
    obtain ⟨rfl, hlow⟩ :=
      (mem_verOf_numbers (atoi_numeral x.maj_digits) (atoi_numeral x.min_digits) p).1 hp
    obtain ⟨hmaj, hmin⟩ := h.numbers _ _ _ _ _ _ hcut hm hver hlow
    rw [hmaj, hmin]
  · intro hno
    rcases line_cases l with ⟨k, rfl⟩ | ⟨k, w, c, hl, hhd⟩
    · obtain ⟨hk, hscan⟩ := h.blank k rfl
      exact blank_rejects hk hscan
    · refine rejects_of_cut hLF hl hhd fun m u v hc hm => ⟨h.long m u v c hc hm, ?_⟩
      by_contra hver
      obtain ⟨ver, hver⟩ := Option.ne_none_iff_exists'.1 hver
      obtain ⟨maj, min, hvt, -⟩ := versionOf_iff.1 hver
      obtain ⟨mthd, hmthd⟩ := Option.ne_none_iff_exists'.1 hm
      obtain ⟨hm0, hv0, hcr, hmaj, hmin⟩ := h.exact m u v c maj min hc hm hvt
      exact hno _ (hc.spells hmthd hvt hm0 hv0 hcr hmaj hmin)

end Lines

/-- For every first line, wherever it stands and whatever follows it: the parser takes it for what
it is just when it has no flaw that the parser overlooks. -/
theorem reqLineRight_iff {δ σ : Type} (psr : Parser δ) (own : σ) (pre l post : Bytes)
    (hLF : LF ∉ l) :
    ReqLineRight psr own pre l post ↔ LineSound pre l post :=
  ⟨fun h => h.sound hLF, fun h => h.right hLF⟩

theorem get_cut :
    CutInto (ascii "GET / HTTP/1.1\r") (ascii "GET") (ascii "/") (ascii "HTTP/1.1") CR :=
  ⟨⟨0, 0, 0, by decide⟩, by decide, by decide, by decide⟩

theorem v11_text : VersionText (ascii "HTTP/1.1") [49] [49] :=
  ⟨by decide, by decide, by decide, by decide⟩

theorem get_sound : LineSound [] (ascii "GET / HTTP/1.1\r") [] := by
  refine ⟨fun k hk => ?_, fun m u v c hc _ => ?_, fun m u v c maj min hc _ hv => ?_,
    fun m u v c maj min hc _ hv _ => ?_⟩
  · have hlen := congrArg List.length hk
    rw [List.length_replicate] at hlen
    subst hlen
    exact absurd hk (by decide)
  · obtain ⟨-, -, rfl, -⟩ := get_cut.unique (by decide) hc
    decide
  · obtain ⟨rfl, -, rfl, rfl⟩ := get_cut.unique (by decide) hc
    obtain ⟨rfl, rfl⟩ := v11_text.unique hv
    exact ⟨by decide, by decide, rfl, by decide, by decide⟩
  · obtain ⟨rfl, -, rfl, rfl⟩ := get_cut.unique (by decide) hc
    obtain ⟨rfl, rfl⟩ := v11_text.unique hv
    exact ⟨by decide, by decide⟩

/-- `GET / HTTP/1.1` -/
theorem reqLineRight_iff_get :
    ReqLineRight (⟨.none, 0, ()⟩ : Parser Unit) () [] (ascii "GET / HTTP/1.1\r") [] :=
  (reqLineRight_iff _ _ _ _ _ (by decide)).2 get_sound

/-- `GET / HTTP/1.1x`, without a CR, is taken for a request line. -/
theorem not_reqLineRight : ¬ ∀ (psr : Parser Unit) (own : Unit) (pre l post : Bytes), LF ∉ l →
    ReqLineRight psr own pre l post := by
  intro h
  have hsound := (h ⟨.none, 0, ()⟩ () [] (ascii "GET / HTTP/1.1x") [] (by decide)).sound (by decide)
  have hcut : CutInto (ascii "GET / HTTP/1.1x") (ascii "GET") (ascii "/") (ascii "HTTP/1.1") 120 :=
    ⟨⟨0, 0, 0, by decide⟩, by decide, by decide, by decide⟩
  obtain ⟨-, -, hcr, -⟩ := hsound.exact _ _ _ _ _ _ hcut (by decide) v11_text
  exact absurd hcr (by decide)

end Plume.Http
