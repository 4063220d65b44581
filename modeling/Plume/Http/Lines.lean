import Plume.Http.Parser
import Mathlib.Data.List.TakeWhile

/-! What the parser makes of one line, as functions of the line's bytes alone.
The in-place scans of `plm_http_parser.c` are shown to compute them, so that
nothing after this file looks at buffer indices inside a line. -/

namespace Plume.Http
open CLib

/-- Cut at the first `c`, dropping it. -/
def cut (c : UInt8) (l : Bytes) : Option (Bytes × Bytes) :=
  if c ∈ l then some (l.takeWhile (· != c), (l.dropWhile (· != c)).tail) else none

theorem cut_none {c : UInt8} {l : Bytes} (h : c ∉ l) : cut c l = none := by simp [cut, h]

theorem cut_some {c : UInt8} {a t : Bytes} (h : c ∉ a) : cut c (a ++ c :: t) = some (a, t) := by
  have ha : ∀ x ∈ a, (x != c) = true := fun x hx => by simpa using ne_of_mem_of_not_mem hx h
  have hc : c ∈ a ++ c :: t := by simp
  rw [cut, if_pos hc, List.takeWhile_append_of_pos ha, List.dropWhile_append_of_pos ha]
  simp

theorem cut_cases (c : UInt8) (l : Bytes) :
    (c ∉ l ∧ cut c l = none) ∨ ∃ a t, l = a ++ c :: t ∧ c ∉ a ∧ cut c l = some (a, t) := by
  by_cases h : c ∈ l
  · obtain ⟨a, t, rfl, ha⟩ := List.eq_append_cons_of_mem h
    exact .inr ⟨a, t, rfl, ha, cut_some ha⟩
  · exact .inl ⟨h, cut_none h⟩

def upToNul (l : Bytes) : Bytes := l.takeWhile (· != 0)

theorem upToNul_no_nul (l : Bytes) : 0 ∉ upToNul l := by
  intro h
  simpa using List.mem_takeWhile_imp h

/-- The text after the NUL that ends a C string, the NUL of the buffer included. -/
theorem upToNul_split (l post : Bytes) :
    ∃ t, l ++ 0 :: post = upToNul l ++ 0 :: t := by
  induction l with
  | nil => exact ⟨post, rfl⟩
  | cons x xs ih =>
    by_cases hx : x = 0
    · exact ⟨xs ++ 0 :: post, by simp [upToNul, hx]⟩
    · obtain ⟨t, ht⟩ := ih
      exact ⟨t, by simpa [upToNul, hx] using ht⟩

def mthdOf (m : Bytes) : Option Mthd :=
  let m := upToNul m
  if m = ascii "CONNECT" then some .connect
  else if m = ascii "DELETE" then some .delete
  else if m = ascii "GET" then some .get
  else if m = ascii "HEAD" then some .head
  else if m = ascii "POST" then some .post
  else if m = ascii "PUT" then some .put
  else if m = ascii "OPTIONS" then some .options
  else if m = ascii "TRACE" then some .trace
  else none

theorem streq_nul (m post lit : Bytes) (h0 : 0 ∉ lit) :
    streq (m ++ 0 :: post) lit = .ok (upToNul m == lit) := by
  induction m generalizing lit with
  | nil =>
    cases lit with
    | nil => rfl
    | cons y ys =>
      have hy : (0 : UInt8) ≠ y := fun h => h0 (by simp [h])
      simp [streq, upToNul, hy]
  | cons x xs ih =>
    cases lit with
    | nil => by_cases hx : x = 0 <;> simp [streq, upToNul, hx]
    | cons y ys =>
      have hys : 0 ∉ ys := fun h => h0 (by simp [h])
      by_cases hxy : x = y
      · subst hxy
        have hx : x ≠ 0 := fun h => h0 (by simp [h])
        simpa [streq, upToNul, hx] using ih ys hys
      · by_cases hx : x = 0 <;> simp [streq, upToNul, hx, hxy]
        simp [hx] at hxy
        simp [hxy]

theorem parseMthd_nul (m post : Bytes) : parseMthd (m ++ 0 :: post) = .ok (mthdOf m) := by
  have lits : ascii "CONNECT" = [67, 79, 78, 78, 69, 67, 84] ∧
    ascii "DELETE" = [68, 69, 76, 69, 84, 69] ∧
      ascii "GET" = [71, 69, 84] ∧ ascii "HEAD" = [72, 69, 65, 68] ∧
        ascii "POST" = [80, 79, 83, 84] ∧
      ascii "PUT" = [80, 85, 84] ∧ ascii "OPTIONS" = [79, 80, 84, 73, 79, 78, 83] ∧
      ascii "TRACE" = [84, 82, 65, 67, 69] := by decide
  obtain ⟨h1, h2, h3, h4, h5, h6, h7, h8⟩ := lits
  cases m with
  | nil => simp [parseMthd, mthdOf, upToNul, h1, h2, h3, h4, h5, h6, h7, h8, pure, Except.pure]
  | cons x xs =>
    have hs : ∀ lit : Bytes, 0 ∉ lit → streq (x :: (xs ++ 0 :: post)) lit = .ok
      (upToNul (x :: xs) == lit) :=
      fun lit h => streq_nul (x :: xs) post lit h
    -- a literal with another first byte cannot be the token
    have hne : ∀ y ys, x ≠ y → upToNul (x :: xs) ≠ y :: ys := by
      intro y ys hxy h
      by_cases hx : x = 0
      · simp [upToNul, hx] at h
      · simp only [upToNul, List.takeWhile_cons] at h
        simp [hx, hxy] at h
    have hok : ∀ (l : Bytes) (r : Mthd), (0 : UInt8) ∉ l →
        (do return if ← streq (x :: (xs ++ 0 :: post)) l then some r else none :
          Except Fault (Option Mthd)) = .ok (if upToNul (x :: xs) = l then some r else none) := by
      intro l r hl
      rw [hs l hl]
      simp [bind, Except.bind, pure, Except.pure]
    simp only [parseMthd, mthdOf, List.cons_append, List.head?_cons, h1, h2, h3, h4, h5, h6, h7, h8]
    generalize hu : upToNul (x :: xs) = u at *
    by_cases c1 : x = 67
    · subst c1; rw [if_pos rfl, hok _ _ (by decide)]; simp [hne]
    by_cases c2 : x = 68
    · subst c2; rw [if_neg c1, if_pos rfl, hok _ _ (by decide)]; simp [hne]
    by_cases c3 : x = 71
    · subst c3; rw [if_neg c1, if_neg c2, if_pos rfl, hok _ _ (by decide)]; simp [hne]
    by_cases c4 : x = 72
    · subst c4; rw [if_neg c1, if_neg c2, if_neg c3, if_pos rfl, hok _ _ (by decide)]; simp [hne]
    by_cases c5 : x = 80
    · subst c5
      rw [if_neg c1, if_neg c2, if_neg c3, if_neg c4, if_pos rfl, hs _ (by decide),
        hs _ (by decide)]
      by_cases hp : u = [80, 79, 83, 84] <;> simp [hne, hp, bind, Except.bind, pure, Except.pure]
    by_cases c6 : x = 79
    · subst c6
      rw [if_neg c1, if_neg c2, if_neg c3, if_neg c4, if_neg c5, if_pos rfl, hok _ _ (by decide)]
      simp [hne]
    by_cases c7 : x = 84
    · subst c7
      rw [if_neg c1, if_neg c2, if_neg c3, if_neg c4, if_neg c5, if_neg c6, if_pos rfl,
        hok _ _ (by decide)]
      simp [hne]
    · simp [hne, c1, c2, c3, c4, c5, c6, c7, pure, Except.pure]

/-- The version that follows `HTTP/` in a version text. -/
def verTokens (x : Bytes) : Option Ver :=
  match cut DOT (upToNul x) with
  | none => none
  | some (maj, min) => if min = [] then none else some (verOf (atoi maj) (atoi min))

def versionOf (v : Bytes) : Option Ver :=
  if v.take 5 = ascii "HTTP/" then verTokens (v.drop 5) else none

theorem parseVer_nul {b pre x post : Bytes} {i : ℕ} (hb : b = pre ++ x ++ 0 :: post)
    (hi : i = pre.length) :
    ∃ x', x'.length = x.length ∧ parseVer b i = .ok (verTokens x, pre ++ x' ++ 0 :: post) := by
  obtain ⟨t, ht⟩ := upToNul_split x post
  have hb' : b = pre ++ (upToNul x ++ 0 :: t) := by rw [hb, ← ht, List.append_assoc]
  have h0 := upToNul_no_nul x
  by_cases hdot : DOT ∈ upToNul x
  · obtain ⟨maj, min, hmm, hmaj⟩ := List.eq_append_cons_of_mem hdot
    rw [hmm] at hb' h0
    have h0maj : 0 ∉ maj := fun h => h0 (by simp [h])
    have h0min : 0 ∉ min := fun h => h0 (by simp [h])
    have hs : strchr b i DOT = .ok (some (pre.length + maj.length)) :=
      strchr_split (by simpa using hb') hi hmaj h0maj
    have hlen : maj.length < x.length := by
      have := (List.takeWhile_prefix (l := x) (· != (0 : UInt8))).length_le
      change (upToNul x).length ≤ _ at this
      rw [hmm] at this
      simp at this
      omega
    have hset : b.set (pre.length + maj.length) 0 = pre ++ x.set maj.length 0 ++ 0 :: post := by
      rw [hb, List.append_assoc, List.set_append_right _ _ (by omega), Nat.add_sub_cancel_left,
        List.set_append_left _ _ hlen, List.append_assoc]
    have hset' : b.set (pre.length + maj.length) 0 = pre ++ maj ++ 0 :: (min ++ 0 :: t) := by
      rw [hb', List.set_append_right _ _ (by omega)]
      simp
    have hst : store b (pre.length + maj.length) 0 = .ok (pre ++ maj ++ 0 :: (min ++ 0 :: t)) :=
      store_split (l := pre ++ maj) (by simpa using hb') (by simp)
    have hmajc : cstr (pre ++ maj ++ 0 :: (min ++ 0 :: t)) i = .ok maj := cstr_split rfl hi h0maj
    refine ⟨x.set maj.length 0, by simp, ?_⟩
    rw [← hset, hset']
    cases min with
    | nil =>
      have hl : load (pre ++ maj ++ 0 :: ([] ++ 0 :: t)) (pre.length + maj.length + 1) = .ok 0 :=
        load_split (l := pre ++ maj ++ [0]) (r := t) (by simp) (by simp; omega)
      simp only [parseVer, hs, ok_bind, hst, hl, if_true, pure_ok, verTokens, hmm, cut_some hmaj]
    | cons y ys =>
      have hy : y ≠ 0 := fun h => h0min (by simp [h])
      have hl : load (pre ++ maj ++ 0 :: (y :: ys ++ 0 :: t))
        (pre.length + maj.length + 1) = .ok y :=
        load_split (l := pre ++ maj ++ [0]) (r := ys ++ 0 :: t) (by simp) (by simp; omega)
      have hminc : cstr (pre ++ maj ++ 0 :: (y :: ys ++ 0 :: t)) (pre.length + maj.length + 1) =
          .ok (y :: ys) :=
        cstr_split (l := pre ++ maj ++ [0]) (r := t) (by simp) (by simp; omega) h0min
      simp only [parseVer, hs, ok_bind, hst, hl, if_neg hy, pure_ok, hmajc, hminc, verTokens, hmm,
        cut_some hmaj, reduceCtorEq, if_false]
  · have hs : strchr b i DOT = .ok none :=
      strchr_absent (by simpa using hb') hi hdot h0 (by decide)
    refine ⟨x, rfl, ?_⟩
    rw [← hb]
    simp only [parseVer, hs, ok_bind, pure_ok, verTokens, cut_none hdot]

theorem dropWhile_spaces {a : ℕ} {t : Bytes} (ht : t.head? ≠ some SP) :
    (List.replicate a SP ++ t).dropWhile (· == SP) = t := by
  rw [List.dropWhile_append_of_pos (by simp)]
  cases t with
  | nil => rfl
  | cons x t => exact List.dropWhile_cons_of_neg (by simpa using ht)

theorem leadingSpaces_drop {b t : Bytes} {i k : ℕ} (hb : b.drop i = List.replicate k SP ++ t)
    (ht : t.head? ≠ some SP) : leadingSpaces b i = k := by
  rw [leadingSpaces, hb, List.takeWhile_append_of_pos (by simp)]
  cases t with
  | nil => simp
  | cons x t => rw [List.takeWhile_cons_of_neg (by simpa using ht)]; simp

theorem leadingSpaces_eq {b pre t : Bytes} {i k : ℕ} (hb : b = pre ++ List.replicate k SP ++ t)
    (hi : i = pre.length) (ht : t.head? ≠ some SP) : leadingSpaces b i = k := by
  subst hb hi
  exact leadingSpaces_drop (by simp) ht

/-- A token up to the first space, and what follows the spaces after it. -/
def token (w : Bytes) : Option (Bytes × Bytes) :=
  (cut SP w).map fun x => (x.1, x.2.dropWhile (· == SP))

theorem token_none {w : Bytes} (h : token w = none) (P r : Bytes) :
    memchr (P ++ w ++ r) P.length SP w.length = .ok none := by
  by_cases hsp : SP ∈ w
  · simp [token, cut, hsp] at h
  · exact memchr_absent rfl rfl hsp rfl

/-- Skipping the spaces behind the NUL that ends a token. -/
theorem skip_token {A t r : Bytes} {a : ℕ} (ht : t.head? ≠ some SP) :
    skip (A ++ 0 :: List.replicate a SP ++ t ++ 0 :: r) (A.length + 1) SP =
      .ok (A ++ 0 :: List.replicate a SP).length := by
  rw [skip_split (l := A ++ [0]) (k := a) (t := t ++ 0 :: r) (by simp) (by simp) (by simp)
    (head?_append_ne ht (by decide))]
  simp
  omega

/-- Cutting a token off in place, in a text that ends in NUL: where the space is
found, the buffer with a NUL over it, and the length of the text after it. -/
theorem token_cut {w m t : Bytes} (h : token w = some (m, t)) (P r : Bytes) :
    ∃ a Q, Q = P ++ m ++ 0 :: List.replicate a SP ∧ t.head? ≠ some SP ∧
      memchr (P ++ w ++ 0 :: r) P.length SP w.length = .ok (some (P.length + m.length)) ∧
      store (P ++ w ++ 0 :: r) (P.length + m.length) 0 = .ok (Q ++ t ++ 0 :: r) ∧
      skip (Q ++ t ++ 0 :: r) (P.length + m.length + 1) SP = .ok Q.length ∧
      Q.length + t.length = P.length + w.length := by
  by_cases hsp : SP ∈ w
  case neg => simp [token, cut_none hsp] at h
  obtain ⟨m, w1, rfl, hm⟩ := List.eq_append_cons_of_mem hsp
  obtain ⟨a, t, rfl, ht⟩ := exists_replicate SP w1
  simp only [token, cut_some hm, Option.map_some, dropWhile_spaces ht, Option.some.injEq,
    Prod.mk.injEq] at h
  obtain ⟨rfl, rfl⟩ := h
  refine ⟨a, _, rfl, ht, ?_, ?_, ?_, ?_⟩
  · exact memchr_split (r := List.replicate a SP ++ t ++ 0 :: r) (by simp) rfl hm (by simp)
  · simpa using store_split (b := P ++ (m ++ SP :: (List.replicate a SP ++ t)) ++ 0 :: r)
      (l := P ++ m) (x := SP) (y := 0) (r := List.replicate a SP ++ t ++ 0 :: r) (by simp) (by simp)
  · simpa using skip_token (A := P ++ m) (a := a) (r := r) ht
  · simp
    omega

/-- The tokens of a request line without its last two bytes: method, URL and
version text. -/
def reqLineHead (w : Bytes) : Option (Mthd × Bytes × Bytes) := do
  let (m, w) ← token w
  let mthd ← mthdOf m
  let (u, v) ← token w
  some (mthd, u, v)

/-- The comparison with `HTTP/` at the start of a version text that ends in NUL. -/
theorem memEq_http {R v r : Bytes} :
    memEq (R ++ v ++ 0 :: LF :: r) R.length (ascii "HTTP/") =
      if v.length + r.length < 3 then .error .bounds
      else .ok (decide (v.take 5 = ascii "HTTP/")) := by
  have hl : (ascii "HTTP/").length = 5 := by decide
  rw [memEq_nul rfl rfl (by decide), hl, List.length_cons]
  split_ifs with h1 h2 h2
  · omega
  · simp [beq_eq_decide]
  · rfl
  · omega

theorem parseVer_http {R v r : Bytes} (h : v.take 5 = ascii "HTTP/") :
    ∃ x', x'.length = v.length ∧
      parseVer (R ++ v ++ 0 :: r) (R.length + 5) = .ok (versionOf v, R ++ x' ++ 0 :: r) := by
  have hl : (ascii "HTTP/").length = 5 := by decide
  have hv : v = ascii "HTTP/" ++ v.drop 5 := by rw [← h, List.take_append_drop]
  have hb : R ++ v ++ 0 :: r = (R ++ ascii "HTTP/") ++ v.drop 5 ++ 0 :: r := by
    rw [← h]; simp
  obtain ⟨x', hx', hver⟩ := parseVer_nul hb (i := R.length + 5) (by simp [hl])
  refine ⟨ascii "HTTP/" ++ x', ?_, ?_⟩
  · rw [List.length_append, hx', ← List.length_append, ← hv]
  · rw [hver, versionOf, if_pos h]
    simp

section ReqLine

variable {δ σ : Type} {hooks : Hooks δ σ} {psr : Parser δ} {s : Input} {own : σ}
  {pre w post : Bytes} {k : ℕ} {c : UInt8}

theorem reqLine_none (h : find (· == LF) s.buf (s.pos + leadingSpaces s.buf s.pos) = none) :
    httpParserReqLine hooks psr s own = .ok ⟨.again, psr, s, own⟩ := by
  simp only [httpParserReqLine, h, pure_ok]

/-- Where a line of at least two bytes that is not all spaces begins and ends. -/
theorem line_find (hb : s.buf = pre ++ List.replicate k SP ++ (w ++ [c]) ++ LF :: post)
    (hp : s.pos = pre.length) (hLF : LF ∉ w ++ [c]) (hhd : (w ++ [c]).head? ≠ some SP) :
    s.pos + leadingSpaces s.buf s.pos = pre.length + k ∧
      find (· == LF) s.buf (pre.length + k) = some (pre.length + k + (w.length + 1)) ∧
      before (pre.length + k + (w.length + 1)) = .ok (pre.length + k + w.length) ∧
      load s.buf (pre.length + k + w.length) = .ok c ∧
      store s.buf (pre.length + k + w.length) 0 =
        .ok (pre ++ List.replicate k SP ++ w ++ 0 :: LF :: post) := by
  refine ⟨?_, ?_, rfl, ?_, ?_⟩
  · rw [leadingSpaces_eq (t := (w ++ [c]) ++ LF :: post) (by simpa using hb) hp
      (by cases w <;> simpa using hhd), hp]
  · have hf := find_split (p := (· == LF)) (m := w ++ [c]) (i := pre.length + k) hb (by simp)
      (fun y hy => beq_false_of_ne (ne_of_mem_of_not_mem hy hLF)) (beq_self_eq_true LF)
    simpa using hf
  · exact load_split (l := pre ++ List.replicate k SP ++ w) (x := c) (r := LF :: post)
      (by simpa using hb) (by simp; omega)
  · exact store_split (l := pre ++ List.replicate k SP ++ w) (x := c) (by simpa using hb)
      (by simp; omega)

variable (hooks psr own pre) in
/-- The request-line parser on a line of at least two bytes that is not all spaces. -/
theorem reqLine_line (hb : s.buf = pre ++ List.replicate k SP ++ (w ++ [c]) ++ LF :: post)
    (hp : s.pos = pre.length) (hLF : LF ∉ w ++ [c]) (hhd : (w ++ [c]).head? ≠ some SP) :
    match reqLineHead w with
    | none => ∃ buf, httpParserReqLine hooks psr s own =
        .ok ⟨.error, psr, { s with buf := buf }, own⟩
    | some (m, u, v) =>
      if v.length + post.length < 3 then httpParserReqLine hooks psr s own = .error .bounds
      else match versionOf v with
        | none => ∃ buf, httpParserReqLine hooks psr s own =
            .ok ⟨.error, psr, { s with buf := buf }, own⟩
        | some ver => ∃ pre', pre'.length = pre.length + k + w.length + 1 ∧
            httpParserReqLine hooks psr s own = (do
              let (rc, data, own) ← hooks.hp_on_req_line m (.ofBytes u) ver psr.hp_data own
              return ⟨if rc = 0 then .done else .brk, ⟨.rlDone, k + w.length + 2, data⟩,
                ⟨pre' ++ LF :: post, pre'.length + 1, s.neg⟩, own⟩) := by
  obtain ⟨hstr, hlf, hbef, -, hst⟩ := line_find hb hp hLF hhd
  set P := pre ++ List.replicate k SP with hP
  have hPl : pre.length + k = P.length := by simp [hP]
  rw [hPl] at hstr hlf hbef hst
  have hlen : ((P.length + (w.length + 1) : ℕ) : ℤ) - 1 - (P.length : ℤ) = (w.length : ℤ) := by
    push_cast; ring
  cases htok : token w with
  | none =>
    have hm := token_none htok P (0 :: LF :: post)
    simp only [reqLineHead, htok, Option.bind_eq_bind, Option.bind_none]
    exact ⟨P ++ w ++ 0 :: LF :: post, by
      simp only [httpParserReqLine, hstr, hlf, hbef, hst, hlen, ok_bind, pure_ok, sizeT_natCast, hm,
        Input.length_natCast]⟩
  | some mt =>
    obtain ⟨m, t⟩ := mt
    obtain ⟨a, Q, hz, -, hm, hst1, hsk, hQ⟩ := token_cut htok P (LF :: post)
    have hlen1 : (w.length : ℤ) - ((Q.length : ℤ) - P.length) = (t.length : ℤ) := by omega
    have hmt : parseMthd ((Q ++ t ++ 0 :: LF :: post).drop P.length) = .ok (mthdOf m) := by
      rw [hz, show (P ++ m ++ 0 :: List.replicate a SP ++ t ++ 0 :: LF :: post).drop P.length =
        m ++ 0 :: (List.replicate a SP ++ t ++ 0 :: LF :: post) by simp]
      exact parseMthd_nul m _
    cases hmthd : mthdOf m with
    | none =>
      simp only [reqLineHead, htok, Option.bind_eq_bind, Option.bind_some, hmthd, Option.bind_none]
      exact ⟨Q ++ t ++ 0 :: LF :: post, by
        simp only [httpParserReqLine, hstr, hlf, hbef, hst, hlen, ok_bind, pure_ok, sizeT_natCast,
          hm, hst1, hmt, hmthd, Input.length_natCast]⟩
    | some mthd =>
      cases htok1 : token t with
      | none =>
        have hm2 := token_none htok1 Q (0 :: LF :: post)
        simp only [reqLineHead, htok, Option.bind_eq_bind, Option.bind_some, hmthd, htok1,
          Option.bind_none]
        exact ⟨Q ++ t ++ 0 :: LF :: post, by
          simp only [httpParserReqLine, hstr, hlf, hbef, hst, hlen, ok_bind, pure_ok, sizeT_natCast,
            hm, hst1, hmt, hmthd, hsk, hlen1, hm2, Input.length_natCast]⟩
      | some uv =>
        obtain ⟨u, v⟩ := uv
        obtain ⟨d, R, hz', -, hm2, hst2, hsk2, hR⟩ := token_cut htok1 Q (LF :: post)
        have hlen2 : (t.length : ℤ) - ((R.length : ℤ) - Q.length) = (v.length : ℤ) := by omega
        have hurl : slice (R ++ v ++ 0 :: LF :: post) Q.length
          (Q.length + u.length - Q.length) = u :=
          slice_split (r := 0 :: List.replicate d SP ++ v ++ 0 :: LF :: post) (by simp [hz']) rfl
            (by omega)
        have hme := memEq_http (R := R) (v := v) (r := post)
        simp only [reqLineHead, htok, Option.bind_eq_bind, Option.bind_some, hmthd, htok1]
        by_cases hshort : v.length + post.length < 3
        · simp only [if_pos hshort] at hme ⊢
          simp only [httpParserReqLine, hstr, hlf, hbef, hst, hlen, ok_bind, sizeT_natCast, hm,
            hst1,
            hmt, hmthd, hsk, hlen1, hm2, hst2, hsk2, hlen2, hme, error_bind, Input.length_natCast]
        simp only [if_neg hshort] at hme ⊢
        by_cases hv5 : v.take 5 = ascii "HTTP/"
        case neg =>
          simp only [versionOf, if_neg hv5]
          exact ⟨R ++ v ++ 0 :: LF :: post, by
            simp only [httpParserReqLine, hstr, hlf, hbef, hst, hlen, ok_bind, pure_ok,
              sizeT_natCast,
              hm, hst1, hmt, hmthd, hsk, hlen1, hm2, hst2, hsk2, hlen2, hme, hv5, decide_false,
              Bool.not_false, if_true, Input.length_natCast]⟩
        obtain ⟨x', hx', hver⟩ := parseVer_http (R := R) (r := LF :: post) hv5
        cases hvo : versionOf v with
        | none =>
          exact ⟨R ++ x' ++ 0 :: LF :: post, by
            simp only [httpParserReqLine, hstr, hlf, hbef, hst, hlen, ok_bind, pure_ok,
              sizeT_natCast,
              hm, hst1, hmt, hmthd, hsk, hlen1, hm2, hst2, hsk2, hlen2, hme, hv5, decide_true,
              Bool.not_true, Bool.false_eq_true, if_false, hver, hvo, Input.length_natCast]⟩
        | some ver =>
          have hl : (R ++ x' ++ [0]).length = P.length + w.length + 1 := by
            simp only [List.length_append, List.length_singleton]
            omega
          have hparsed : P.length + (w.length + 1) + 1 - s.pos = k + w.length + 2 := by omega
          have hpos : s.pos + (k + w.length + 2) = (R ++ x' ++ [0]).length + 1 := by omega
          have hbuf : R ++ x' ++ 0 :: LF :: post = R ++ x' ++ [0] ++ LF :: post := by simp
          refine ⟨R ++ x' ++ [0], by rw [hl, ← hPl], ?_⟩
          simp only [httpParserReqLine, hstr, hlf, hbef, hst, hlen, ok_bind, pure_ok, sizeT_natCast,
            hm, hst1, hmt, hmthd, hsk, hlen1, hm2, hst2, hsk2, hlen2, hme, hv5, decide_true,
            Bool.not_true, Bool.false_eq_true, if_false, hver, hvo, hurl, hparsed, hpos, hbuf,
            Input.length_natCast]

/-- What a status line says behind its version text: version, code and reason. -/
def statusTail (v t : Bytes) : Option (Ver × ℤ × Bytes) := do
  let ver ← versionOf v
  let (code, desc) ← token t
  some (ver, atoi (upToNul code), desc)

theorem statusLine_none (h : find (· == LF) s.buf (s.pos + leadingSpaces s.buf s.pos) = none) :
    httpParserStatusLine hooks psr s own = .ok ⟨.again, psr, s, own⟩ := by
  simp only [httpParserStatusLine, h, pure_ok]

variable (pre) in
theorem statusLine_noCr (hb : s.buf = pre ++ List.replicate k SP ++ (w ++ [c]) ++ LF :: post)
    (hp : s.pos = pre.length) (hLF : LF ∉ w ++ [c]) (hhd : (w ++ [c]).head? ≠ some SP)
    (hc : c ≠ CR) : httpParserStatusLine hooks psr s own = .ok ⟨.error, psr, s, own⟩ := by
  obtain ⟨hstr, hlf, hbef, hld, -⟩ := line_find hb hp hLF hhd
  simp only [httpParserStatusLine, hstr, hlf, hbef, hld, ok_bind, pure_ok, ne_eq, hc,
    not_false_eq_true, if_true]

variable (hooks psr own pre) in
/-- The status-line parser on a line that ends in CR LF and is not all spaces. -/
theorem statusLine_line (hb : s.buf = pre ++ List.replicate k SP ++ (w ++ [CR]) ++ LF :: post)
    (hp : s.pos = pre.length) (hLF : LF ∉ w ++ [CR]) (hhd : (w ++ [CR]).head? ≠ some SP) :
    match token w with
    | none => ∃ buf, httpParserStatusLine hooks psr s own =
        .ok ⟨.error, psr, { s with buf := buf }, own⟩
    | some (v, t) =>
      if w.length + post.length < 3 then httpParserStatusLine hooks psr s own = .error .bounds
      else match statusTail v t with
        | none => ∃ buf, httpParserStatusLine hooks psr s own =
            .ok ⟨.error, psr, { s with buf := buf }, own⟩
        | some (ver, code, desc) => ∃ pre', pre'.length = pre.length + k + w.length + 1 ∧
            httpParserStatusLine hooks psr s own = (do
              let (rc, data, own) ← hooks.hp_on_status_line ver code (.ofBytes desc) psr.hp_data own
              return ⟨if rc = 0 then .done else .brk, ⟨.slDone, k + w.length + 2, data⟩,
                ⟨pre' ++ LF :: post, pre'.length + 1, s.neg⟩, own⟩) := by
  obtain ⟨hstr, hlf, hbef, hld, hst⟩ := line_find hb hp hLF hhd
  set P := pre ++ List.replicate k SP with hP
  have hPl : pre.length + k = P.length := by simp [hP]
  rw [hPl] at hstr hlf hbef hst hld
  have hlen : ((P.length + (w.length + 1) : ℕ) : ℤ) - 1 - (P.length : ℤ) = (w.length : ℤ) := by
    push_cast; ring
  have hcr : (CR ≠ CR) = False := by simp
  cases htok : token w with
  | none =>
    have hm := token_none htok P (0 :: LF :: post)
    exact ⟨P ++ w ++ 0 :: LF :: post, by
      simp only [httpParserStatusLine, hstr, hlf, hbef, hld, hcr, if_false, hst, hlen, ok_bind,
        pure_ok, sizeT_natCast, hm, Input.length_natCast]⟩
  | some vt =>
    obtain ⟨v, t⟩ := vt
    obtain ⟨a, Q, hz, htsp, hm, hst1, -, hQ⟩ := token_cut htok P (LF :: post)
    have hb1 : Q ++ t ++ 0 :: LF :: post =
        P ++ v ++ 0 :: (List.replicate a SP ++ t ++ 0 :: LF :: post) := by simp [hz]
    have hwl : w.length = v.length + 1 + a + t.length := by
      rw [hz] at hQ
      simp at hQ
      omega
    rw [hb1] at hst1
    have hhl : (ascii "HTTP/").length = 5 := by decide
    have hme :=
      memEq_nul (l := P) (m := v) (r := List.replicate a SP ++ t ++ 0 :: LF :: post) rfl rfl
      (show 0 ∉ ascii "HTTP/" by decide)
    simp only [hhl, List.length_append, List.length_cons, List.length_replicate] at hme
    dsimp only
    by_cases hshort : w.length + post.length < 3
    · rw [if_neg (by omega)] at hme
      rw [if_pos hshort]
      simp only [httpParserStatusLine, hstr, hlf, hbef, hld, hcr, if_false, hst, hlen, ok_bind,
        sizeT_natCast, hm, hst1, hme, error_bind, Input.length_natCast]
    rw [if_pos (by omega)] at hme
    rw [if_neg hshort]
    by_cases hv5 : v.take 5 = ascii "HTTP/"
    case neg =>
      simp only [statusTail, versionOf, if_neg hv5, Option.bind_eq_bind, Option.bind_none]
      exact ⟨P ++ v ++ 0 :: (List.replicate a SP ++ t ++ 0 :: LF :: post), by
        simp only [httpParserStatusLine, hstr, hlf, hbef, hld, hcr, if_false, hst, hlen, ok_bind,
          pure_ok, sizeT_natCast, hm, hst1, hme, beq_false_of_ne hv5, Bool.not_false, if_true,
          Input.length_natCast]⟩
    have hht : (v.take 5 == ascii "HTTP/") = true := by simp [hv5]
    obtain ⟨v', hv', hver⟩ := parseVer_http (R := P)
      (r := List.replicate a SP ++ t ++ 0 :: LF :: post) hv5
    cases hvo : versionOf v with
    | none =>
      simp only [statusTail, hvo, Option.bind_eq_bind, Option.bind_none]
      exact ⟨P ++ v' ++ 0 :: (List.replicate a SP ++ t ++ 0 :: LF :: post), by
        simp only [httpParserStatusLine, hstr, hlf, hbef, hld, hcr, if_false, hst, hlen, ok_bind,
          pure_ok, sizeT_natCast, hm, hst1, hme, hht, Bool.not_true, Bool.false_eq_true, hver, hvo,
          Input.length_natCast]⟩
    | some ver =>
      have hsk := skip_token (A := P ++ v') (a := a) (r := LF :: post) htsp
      set Q' := P ++ v' ++ 0 :: List.replicate a SP with hQ'
      have hb2 : P ++ v' ++ 0 :: (List.replicate a SP ++ t ++ 0 :: LF :: post) =
          Q' ++ t ++ 0 :: LF :: post := by simp [hQ']
      have hQl : Q'.length = P.length + v.length + 1 + a := by simp [hQ']; omega
      rw [List.length_append, hv'] at hsk
      rw [hb2] at hver
      have hlen1 : (w.length : ℤ) - ((Q'.length : ℤ) - P.length) = (t.length : ℤ) := by omega
      cases htok1 : token t with
      | none =>
        have hm2 := token_none htok1 Q' (0 :: LF :: post)
        simp only [statusTail, hvo, htok1, Option.bind_eq_bind, Option.bind_some, Option.bind_none]
        exact ⟨Q' ++ t ++ 0 :: LF :: post, by
          simp only [httpParserStatusLine, hstr, hlf, hbef, hld, hcr, if_false, hst, hlen, ok_bind,
            pure_ok, sizeT_natCast, hm, hst1, hme, hht, Bool.not_true, Bool.false_eq_true, hver,
            hvo, hsk, hlen1, hm2, Input.length_natCast]⟩
      | some cd =>
        obtain ⟨ct, desc⟩ := cd
        obtain ⟨d, R, hz', -, hm2, hst2, hsk2, hR⟩ := token_cut htok1 Q' (LF :: post)
        have hlen2 : (t.length : ℤ) - ((R.length : ℤ) - Q'.length) = (desc.length : ℤ) := by omega
        obtain ⟨z, hzc⟩ := upToNul_split ct (List.replicate d SP ++ desc ++ 0 :: LF :: post)
        have hcode : cstr (R ++ desc ++ 0 :: LF :: post) Q'.length = .ok (upToNul ct) :=
          cstr_split (l := Q') (r := z) (by rw [hz']; simpa using hzc) rfl (upToNul_no_nul ct)
        have hdesc : slice (R ++ desc ++ 0 :: LF :: post) R.length desc.length = desc :=
          slice_split rfl rfl rfl
        have hl : (R ++ desc ++ [0]).length = P.length + w.length + 1 := by
          simp only [List.length_append, List.length_singleton]
          omega
        have hparsed : P.length + (w.length + 1) + 1 - s.pos = k + w.length + 2 := by omega
        have hpos : s.pos + (k + w.length + 2) = (R ++ desc ++ [0]).length + 1 := by omega
        have hbuf : R ++ desc ++ 0 :: LF :: post = R ++ desc ++ [0] ++ LF :: post := by simp
        simp only [statusTail, hvo, htok1, Option.bind_eq_bind, Option.bind_some]
        refine ⟨R ++ desc ++ [0], by rw [hl, ← hPl], ?_⟩
        simp only [httpParserStatusLine, hstr, hlf, hbef, hld, hcr, if_false, hst, hlen, ok_bind,
          pure_ok, sizeT_natCast, hm, hst1, hme, hht, Bool.not_true, Bool.false_eq_true, hver, hvo,
          hsk, hlen1, hm2, hst2, hcode, hsk2, hlen2, Input.length_natCast, Int.toNat_natCast, hdesc,
          hparsed, hpos]
        rw [hbuf]
        rfl

end ReqLine

end Plume.Http
