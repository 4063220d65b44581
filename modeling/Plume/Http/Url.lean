import Plume.Http.Lines

/-! The URL splitter `plm_http_parser_url`, a loop over a small state machine. It looks
for a ':' first, wherever one stands, so a path with "://" in it has an authority. -/

namespace Plume.Http
open CLib

abbrev SLASH : UInt8 := 47

/-- `enum plm_url_state` without `PLM_URL_NONE`, which is never entered. -/
inductive UrlState
  | scheme | host | port | path
deriving DecidableEq, Repr

structure Url where
  hu_scheme : PStr
  hu_host : PStr
  hu_port : PStr
  hu_path : PStr
deriving DecidableEq, Repr

def httpParserUrlLoop (b : Bytes) : ℕ → UrlState → ℕ → ℕ → Url → Except Fault (Rc × Url)
  | 0, _, _, _, _ => .error .fuel
  | fuel + 1, state, p, len, out => do
    let next (state : UrlState) (p2 : ℕ) (p len : ℕ) (out : Url) : Except Fault (Rc × Url) :=
      let len := len - (p2 + 1 - p)
      if len > 0 then httpParserUrlLoop b fuel state (p2 + 1) len out else .ok (.done, out)
    match state with
    | .scheme =>
      match ← memchr b p COLON len with
      | none => if len > 0 then httpParserUrlLoop b fuel .path p len out else return (.done, out)
      | some p2 => next .host p2 p len { out with hu_scheme := .ofBytes (slice b p (p2 - p)) }
    | .host =>
      if !(← memEq b p (ascii "//")) then return (.error, out)
      else
        let p := p + 2
        let len := len - 2
        match ← memchr b p COLON len with
        | some p2 => next .port p2 p len { out with hu_host := .ofBytes (slice b p (p2 - p)) }
        | none =>
          match ← memchr b p SLASH len with
          | none => return (.error, out)
          | some p2 => next .path p2 p len { out with hu_host := .ofBytes (slice b p (p2 - p)) }
    | .port =>
      match ← memchr b p SLASH len with
      | none => return (.error, out)
      | some p2 => next .path p2 p len { out with hu_port := .ofBytes (slice b p (p2 - p)) }
    | .path => next .path (p + len - 1) p len { out with hu_path := .ofBytes (slice b p len) }

/-- `plm_http_parser_url`: every round but the last leaves its state for a later one. -/
def httpParserUrl (url : PStr) : Except Fault (Rc × Url) :=
  httpParserUrlLoop url.s_str 5 .scheme 0 (sizeT url.s_len)
    ⟨.ofBytes [], .ofBytes [], .ofBytes [], .ofBytes []⟩

/-- The host and port behind the ':' of a scheme, as functions of the bytes there. -/
def hostPort (b : Bytes) : Bytes × Bytes :=
  if b.take 2 = ascii "//" then
    match cut COLON (b.drop 2) with
    | some (h, d) => (h, ((cut SLASH d).map Prod.fst).getD [])
    | none => (((cut SLASH (b.drop 2)).map Prod.fst).getD [], [])
  else ([], [])

def urlAuthority (u : Bytes) : Bytes × Bytes :=
  match cut COLON u with
  | none => ([], [])
  | some (_, b) => hostPort b

section Authority

variable {b u : Bytes} {p len fuel : ℕ} {out : Url}

variable (b p len fuel out) in
/-- The rest of a URL, whatever it holds, is the path. -/
theorem urlLoop_path : ∃ out', (if len > 0 then httpParserUrlLoop b (fuel + 1) .path p len out
      else .ok (.done, out)) = .ok (.done, out') ∧
    out'.hu_host = out.hu_host ∧ out'.hu_port = out.hu_port := by
  by_cases hlen : len > 0
  · refine ⟨{ out with hu_path := .ofBytes (slice b p len) }, ?_, rfl, rfl⟩
    rw [if_pos hlen, httpParserUrlLoop]
    simp only
    rw [if_neg (by omega)]
  · exact ⟨out, by rw [if_neg hlen], rfl, rfl⟩

variable (p len fuel out) in
/-- The splitter from the bytes behind a host and its ':' on. -/
theorem urlLoop_port (pre d : Bytes) (hb : b = pre ++ d ++ [0]) (hp : p = pre.length)
    (hlen : len = d.length) (hport : out.hu_port = .ofBytes []) :
    ∃ rc out', (if len > 0 then httpParserUrlLoop b (fuel + 2) .port p len out
      else .ok (.done, out)) = .ok (rc, out') ∧ out'.hu_host = out.hu_host ∧
        out'.hu_port = .ofBytes (((cut SLASH d).map Prod.fst).getD []) := by
  subst hp hlen
  by_cases hlen : d.length > 0
  case neg =>
    obtain rfl : d = [] := List.length_eq_zero_iff.1 (by omega)
    exact ⟨.done, out, rfl, rfl, hport⟩
  rw [if_pos hlen, httpParserUrlLoop]
  rcases cut_cases SLASH d with ⟨hno, hcut⟩ | ⟨q, e, rfl, hq, hcut⟩
  · refine ⟨.error, out, ?_, rfl, by simp [hcut, hport]⟩
    simp only [memchr_absent hb rfl hno rfl, ok_bind, pure_ok]
  · have hm : memchr b pre.length SLASH (q ++ SLASH :: e).length = .ok
      (some (pre.length + q.length)) :=
      memchr_split (r := e ++ [0]) (by simpa using hb) rfl hq (by simp)
    have hs : slice b pre.length (pre.length + q.length - pre.length) = q :=
      slice_split (r := SLASH :: e ++ [0]) (by simpa using hb) rfl (by omega)
    simp only [hm, ok_bind, hs]
    obtain ⟨out', h, h1, h2⟩ := urlLoop_path b (pre.length + q.length + 1)
      ((q ++ SLASH :: e).length - (pre.length + q.length + 1 - pre.length)) fuel
      { out with hu_port := .ofBytes q }
    exact ⟨.done, out', h, h1, by rw [h2, hcut]; rfl⟩

variable (p len fuel out) in
/-- The splitter from the bytes behind the first ':' on. -/
theorem urlLoop_host (pre t : Bytes) (hb : b = pre ++ t ++ [0]) (hp : p = pre.length)
    (hlen : len = t.length) (hhost : out.hu_host = .ofBytes [])
    (hport : out.hu_port = .ofBytes []) :
    ∃ rc out', (if len > 0 then httpParserUrlLoop b (fuel + 3) .host p len out
      else .ok (.done, out)) = .ok (rc, out') ∧ out'.hu_host = .ofBytes (hostPort t).1 ∧
        out'.hu_port = .ofBytes (hostPort t).2 := by
  subst hp hlen
  by_cases hlen : t.length > 0
  case neg =>
    obtain rfl : t = [] := List.length_eq_zero_iff.1 (by omega)
    exact ⟨.done, out, rfl, hhost, hport⟩
  have hl : (ascii "//").length = 2 := by decide
  have hme : memEq b pre.length (ascii "//") = .ok (t.take 2 == ascii "//") := by
    rw [memEq_nul (r := []) hb rfl (by decide), hl, if_pos (by simp; omega)]
  rw [if_pos hlen, httpParserUrlLoop, hostPort]
  by_cases ht : t.take 2 = ascii "//"
  case neg =>
    rw [if_neg ht]
    refine ⟨.error, out, ?_, hhost, hport⟩
    simp [hme, ht]
  rw [if_pos ht]
  obtain ⟨c, rfl⟩ : ∃ c, t = ascii "//" ++ c := ⟨t.drop 2, by rw [← ht, List.take_append_drop]⟩
  have hd : (ascii "//" ++ c).drop 2 = c := rfl
  have hpre : (pre ++ ascii "//").length = pre.length + 2 := by rw [List.length_append, hl]
  have hb' : b = pre ++ ascii "//" ++ c ++ [0] := by simpa using hb
  have hclen : (ascii "//" ++ c).length - 2 = c.length := by rw [List.length_append, hl]; omega
  simp only [hme, ht, beq_self_eq_true, Bool.not_true, Bool.false_eq_true, if_false, ok_bind, hd,
    hclen, ← hpre]
  rcases cut_cases COLON c with ⟨hno, hcut⟩ | ⟨h, d, rfl, hh, hcut⟩
  · have hm : memchr b (pre ++ ascii "//").length COLON c.length = .ok none :=
      memchr_absent hb' rfl hno rfl
    simp only [hm, hcut, ok_bind]
    rcases cut_cases SLASH c with ⟨hno', hcut'⟩ | ⟨h, d, rfl, hh, hcut'⟩
    · refine ⟨.error, out, ?_, by simp [hcut', hhost], hport⟩
      simp only [memchr_absent hb' rfl hno' rfl, ok_bind, pure_ok]
    · have hm' : memchr b (pre ++ ascii "//").length SLASH (h ++ SLASH :: d).length =
          .ok (some ((pre ++ ascii "//").length + h.length)) :=
        memchr_split (r := d ++ [0]) (by simpa using hb') rfl hh (by simp)
      have hs : slice b (pre ++ ascii "//").length
          ((pre ++ ascii "//").length + h.length - (pre ++ ascii "//").length) = h :=
        slice_split (r := SLASH :: d ++ [0]) (by simpa using hb') rfl (by omega)
      simp only [hm', ok_bind, hs]
      obtain ⟨out', hr, h1, h2⟩ := urlLoop_path b ((pre ++ ascii "//").length + h.length + 1)
        ((h ++ SLASH :: d).length -
          ((pre ++ ascii "//").length + h.length + 1 - (pre ++ ascii "//").length)) (fuel + 1)
        { out with hu_host := .ofBytes h }
      exact ⟨.done, out', hr, by rw [h1, hcut']; rfl, by rw [h2, hport]⟩
  · have hm : memchr b (pre ++ ascii "//").length COLON (h ++ COLON :: d).length =
        .ok (some ((pre ++ ascii "//").length + h.length)) :=
      memchr_split (r := d ++ [0]) (by simpa using hb') rfl hh (by simp)
    have hs : slice b (pre ++ ascii "//").length
        ((pre ++ ascii "//").length + h.length - (pre ++ ascii "//").length) = h :=
      slice_split (r := COLON :: d ++ [0]) (by simpa using hb') rfl (by omega)
    simp only [hm, hcut, ok_bind, hs]
    obtain ⟨rc, out', hr, h1, h2⟩ := urlLoop_port ((pre ++ ascii "//").length + h.length + 1)
      ((h ++ COLON :: d).length -
        ((pre ++ ascii "//").length + h.length + 1 - (pre ++ ascii "//").length)) fuel
      { out with hu_host := .ofBytes h } (pre ++ ascii "//" ++ h ++ [COLON]) d (by simpa using hb')
      (by simp only [List.length_append, List.length_singleton])
      (by simp only [List.length_append, List.length_cons]; omega) hport
    exact ⟨rc, out', hr, h1, h2⟩

theorem httpParserUrl_authority (u : Bytes) :
    ∃ rc out, httpParserUrl ⟨u ++ [0], u.length⟩ = .ok (rc, out) ∧
      out.hu_host = .ofBytes (urlAuthority u).1 ∧ out.hu_port = .ofBytes (urlAuthority u).2 := by
  rw [httpParserUrl, httpParserUrlLoop, sizeT_natCast, urlAuthority]
  rcases cut_cases COLON u with ⟨hno, hcut⟩ | ⟨a, t, rfl, ha, hcut⟩
  · have hm : memchr (u ++ [0]) 0 COLON u.length = .ok none :=
      memchr_absent (l := []) rfl rfl hno rfl
    obtain ⟨out', hr, h1, h2⟩ := urlLoop_path (u ++ [0]) 0 u.length 3
      ⟨.ofBytes [], .ofBytes [], .ofBytes [], .ofBytes []⟩
    simp only [hm, ok_bind, hcut]
    exact ⟨.done, out', hr, h1, h2⟩
  · have hm : memchr (a ++ COLON :: t ++ [0]) 0 COLON (a ++ COLON :: t).length =
        .ok (some (0 + a.length)) :=
      memchr_split (l := []) (r := t ++ [0]) (by simp) rfl ha (by simp)
    obtain ⟨rc, out', hr, h1, h2⟩ := urlLoop_host (b := a ++ COLON :: t ++ [0]) (0 + a.length + 1)
      ((a ++ COLON :: t).length - (0 + a.length + 1 - 0)) 1
      ⟨.ofBytes (slice (a ++ COLON :: t ++ [0]) 0 (0 + a.length - 0)), .ofBytes [], .ofBytes [],
        .ofBytes []⟩ (a ++ [COLON]) t (by simp) (by simp)
      (by simp only [List.length_append, List.length_cons]; omega) rfl rfl
    simp only [hm, ok_bind, hcut]
    exact ⟨rc, out', hr, h1, h2⟩

end Authority

end Plume.Http
