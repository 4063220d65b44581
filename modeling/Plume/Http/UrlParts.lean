import Mathlib.Data.List.ReduceOption
import Plume.Http.Url

/-! Where the components that `plm_http_parser_url` finds stand in the URL, and every value its
remaining length takes on the way. -/

namespace Plume.Http
open CLib

structure Span where
  off : ℕ
  len : ℕ
deriving DecidableEq, Repr

/-- `struct plm_http_url`, where a component that was not set is `NULL`. -/
structure UrlParts where
  hu_scheme : Option Span
  hu_host : Option Span
  hu_port : Option Span
  hu_path : Option Span
deriving DecidableEq, Repr

/-- What a run of the splitter returns, and the values `len` had, which are not reduced modulo the
size of a `size_t`. -/
structure UrlScan where
  rc : Rc
  out : UrlParts
  lens : List ℤ
deriving DecidableEq, Repr

def UrlScan.noting (n : ℤ) (r : UrlScan) : UrlScan := { r with lens := n :: r.lens }

def urlNext (loop : UrlState → ℕ → ℤ → UrlParts → Except Fault UrlScan) (state : UrlState)
    (p2 p : ℕ) (len : ℤ)
    (out : UrlParts) : Except Fault UrlScan :=
  let len := len - (p2 + 1 - p)
  (if len ≠ 0 then loop state (p2 + 1) len out else .ok ⟨.done, out, []⟩).map (UrlScan.noting len)

def urlScanLoop (b : Bytes) : ℕ → UrlState → ℕ → ℤ → UrlParts → Except Fault UrlScan
  | 0, _, _, _, _ => .error .fuel
  | fuel + 1, .scheme, p, len, out => do
    match ← memchr b p COLON (sizeT len) with
    | none => if len ≠ 0 then urlScanLoop b fuel .path p len out else return ⟨.done, out, []⟩
    | some p2 =>
      urlNext (urlScanLoop b fuel) .host p2 p len { out with hu_scheme := some ⟨p, p2 - p⟩ }
  | fuel + 1, .host, p, len, out => do
    if !(← memEq b p (ascii "//")) then return ⟨.error, out, []⟩
    else
      let p := p + 2
      let len := len - 2
      Except.map (UrlScan.noting len) (do
        match ← memchr b p COLON (sizeT len) with
        | some p2 =>
          urlNext (urlScanLoop b fuel) .port p2 p len { out with hu_host := some ⟨p, p2 - p⟩ }
        | none =>
          match ← memchr b p SLASH (sizeT len) with
          | none => return ⟨.error, out, []⟩
          | some p2 =>
            urlNext (urlScanLoop b fuel) .path p2 p len { out with hu_host := some ⟨p, p2 - p⟩ })
  | fuel + 1, .port, p, len, out => do
    match ← memchr b p SLASH (sizeT len) with
    | none => return ⟨.error, out, []⟩
    | some p2 =>
      urlNext (urlScanLoop b fuel) .path p2 p len { out with hu_port := some ⟨p, p2 - p⟩ }
  | fuel + 1, .path, p, len, out =>
    urlNext (urlScanLoop b fuel) .path (p + sizeT len - 1) p len { out with hu_path := some ⟨p,
      sizeT len⟩ }

/-- `plm_http_parser_url` on a URL that a NUL follows. -/
def urlScan (u : Bytes) : Except Fault UrlScan :=
  urlScanLoop (u ++ [0]) 5 .scheme 0 u.length ⟨none, none, none, none⟩

def Span.read (b : Bytes) : Option Span → PStr
  | none => .ofBytes []
  | some s => .ofBytes (slice b s.off s.len)

def UrlParts.read (b : Bytes) (o : UrlParts) : Url :=
  ⟨Span.read b o.hu_scheme, Span.read b o.hu_host, Span.read b o.hu_port, Span.read b o.hu_path⟩

section Refinement

variable {b : Bytes} {fuel p p2 len : ℕ} {state : UrlState} {out : UrlParts} {r : UrlScan}

theorem map_ok {α β : Type} {f : α → β} {x : Except Fault α} {b : β} (h : x.map f = .ok b) :
    ∃ a, x = .ok a ∧ b = f a := by
  cases x with
  | error e => cases h
  | ok a => exact ⟨a, rfl, (Except.ok.inj h).symm⟩

theorem memchr_ge {i n k : ℕ} {c : UInt8} (h : memchr b i c n = .ok (some k)) : i ≤ k := by
  unfold memchr at h
  split at h
  · cases h
    exact Nat.le_add_right ..
  · split_ifs at h
    cases h

/-- Where no length underflows, the lengths can be natural numbers. -/
theorem urlLoop_of_scan (h : urlScanLoop b fuel state p len out = .ok r)
    (hr : ∀ n ∈ r.lens, 0 ≤ n) :
    httpParserUrlLoop b fuel state p len (out.read b) = .ok (r.rc, r.out.read b) := by
  induction fuel generalizing state p len out r with
  | zero => cases h
  | succ fuel ih =>
    -- the end of a round
    have hnext : ∀ {state p2 p} {len : ℕ} {out r}, urlNext
      (urlScanLoop b fuel) state p2 p len out = .ok r →
        (∀ n ∈ r.lens, 0 ≤ n) → p ≤ p2 + 1 →
        (if len - (p2 + 1 - p) > 0 then httpParserUrlLoop b fuel state (p2 + 1) (len - (p2 + 1 - p))
          (out.read b)
          else .ok (.done, out.read b)) = .ok (r.rc, r.out.read b) := by
      intro state p2 p len out r h hr hp
      obtain ⟨r', h1, rfl⟩ := map_ok h
      have h0 : (0 : ℤ) ≤ len - (p2 + 1 - p) := hr _ (by simp [UrlScan.noting])
      have hrest : ∀ n ∈ r'.lens, 0 ≤ n := fun n hn => hr n (by simp [UrlScan.noting, hn])
      have hcast : (len : ℤ) - (p2 + 1 - p) = ((len - (p2 + 1 - p) : ℕ) : ℤ) := by omega
      rw [hcast] at h1
      split_ifs at h1 with hlen
      · rw [if_pos (by omega)]
        exact ih (r := r') h1 hrest
      · cases h1
        rw [if_neg (by omega)]
        rfl
    cases state with
    | scheme =>
      rw [urlScanLoop, sizeT_natCast] at h
      rw [httpParserUrlLoop]
      simp only
      obtain ⟨m, hm, h⟩ := bind_eq_ok.1 h
      rw [hm, ok_bind]
      cases m with
      | none =>
        simp only at h ⊢
        split_ifs at h with hlen
        · rw [if_pos (by omega)]
          exact ih h hr
        · cases h
          rw [if_neg (by omega)]
          rfl
      | some p2 => exact hnext h hr (Nat.le_succ_of_le (memchr_ge hm))
    | host =>
      rw [urlScanLoop] at h
      rw [httpParserUrlLoop]
      simp only
      obtain ⟨e, he, h⟩ := bind_eq_ok.1 h
      rw [he, ok_bind]
      cases e with
      | false =>
        cases h
        rfl
      | true =>
        simp only [Bool.not_true, Bool.false_eq_true, if_false] at h ⊢
        obtain ⟨r', h1, rfl⟩ := map_ok h
        have h0 : (0 : ℤ) ≤ len - 2 := hr _ (by simp [UrlScan.noting])
        have hr' : ∀ n ∈ r'.lens, 0 ≤ n := fun n hn => hr n (by simp [UrlScan.noting, hn])
        have hcast : (len : ℤ) - 2 = ((len - 2 : ℕ) : ℤ) := by omega
        rw [hcast, sizeT_natCast] at h1
        obtain ⟨m, hm, h1⟩ := bind_eq_ok.1 h1
        rw [hm, ok_bind]
        cases m with
        | some p2 => exact hnext h1 hr' (Nat.le_succ_of_le (memchr_ge hm))
        | none =>
          simp only at h1 ⊢
          obtain ⟨m, hm, h1⟩ := bind_eq_ok.1 h1
          rw [hm, ok_bind]
          cases m with
          | none =>
            cases h1
            rfl
          | some p2 => exact hnext h1 hr' (Nat.le_succ_of_le (memchr_ge hm))
    | port =>
      rw [urlScanLoop, sizeT_natCast] at h
      rw [httpParserUrlLoop]
      simp only
      obtain ⟨m, hm, h⟩ := bind_eq_ok.1 h
      rw [hm, ok_bind]
      cases m with
      | none =>
        cases h
        rfl
      | some p2 => exact hnext h hr (Nat.le_succ_of_le (memchr_ge hm))
    | path =>
      rw [urlScanLoop, sizeT_natCast] at h
      rw [httpParserUrlLoop]
      exact hnext h hr (by omega)

end Refinement

/-- The bytes `d` that are left, if there are any, are the path. -/
def UrlParts.rest (off : ℕ) (d : Bytes) (out : UrlParts) : UrlParts :=
  if d = [] then out else { out with hu_path := some ⟨off, d.length⟩ }

def portParts (off : ℕ) (d : Bytes) (out : UrlParts) : Rc × UrlParts :=
  if d = [] then (.done, out)
  else match cut SLASH d with
    | none => (.error, out)
    | some (q, e) =>
      (.done, { out with hu_port := some ⟨off, q.length⟩ }.rest (off + q.length + 1) e)

def hostParts (off : ℕ) (t : Bytes) (out : UrlParts) : Rc × UrlParts :=
  if t = [] then (.done, out)
  else if t.take 2 ≠ ascii "//" then (.error, out)
  else match cut COLON (t.drop 2) with
    | some (h, d) =>
      portParts (off + 2 + h.length + 1) d { out with hu_host := some ⟨off + 2, h.length⟩ }
    | none => match cut SLASH (t.drop 2) with
      | none => (.error, out)
      | some (h, e) =>
        (.done, { out with hu_host := some ⟨off + 2, h.length⟩ }.rest (off + 2 + h.length + 1) e)

theorem hostParts_slashes (off : ℕ) (c : Bytes) (out : UrlParts) :
    hostParts off (ascii "//" ++ c) out =
    match cut COLON c with
    | some (h, d) =>
      portParts (off + 2 + h.length + 1) d { out with hu_host := some ⟨off + 2, h.length⟩ }
    | none => match cut SLASH c with
      | none => (.error, out)
      | some (h, e) => (.done, { out with hu_host := some ⟨off + 2,
        h.length⟩ }.rest (off + 2 + h.length + 1) e) := by
  have hdrop : (ascii "//" ++ c).drop 2 = c := rfl
  have hne : ascii "//" ++ c ≠ [] := List.cons_ne_nil SLASH (SLASH :: c)
  have htake : (ascii "//" ++ c).take 2 = ascii "//" := rfl
  rw [hostParts, if_neg hne, if_neg (not_not.2 htake), hdrop]

def urlParts (u : Bytes) : Rc × UrlParts :=
  match cut COLON u with
  | none => (.done, UrlParts.rest 0 u ⟨none, none, none, none⟩)
  | some (s, t) => hostParts (s.length + 1) t ⟨some ⟨0, s.length⟩, none, none, none⟩

/-- The run returns this, and `len` does not underflow in it. -/
def Scans (x : Except Fault UrlScan) (res : Rc × UrlParts) : Prop :=
  ∃ lens, x = .ok ⟨res.1, res.2, lens⟩ ∧ ∀ n ∈ lens, 0 ≤ n

section Scans

variable {b pre d : Bytes} {fuel p p2 : ℕ} {state : UrlState} {len : ℤ} {out : UrlParts}
  {res : Rc × UrlParts}

theorem scans_stop (rc : Rc) (out : UrlParts) : Scans (.ok ⟨rc, out, []⟩) (rc, out) :=
  ⟨[], rfl, by simp⟩

theorem Scans.noting {x : Except Fault UrlScan} {n : ℤ} (h : Scans x res) (hn : 0 ≤ n) :
    Scans (x.map (UrlScan.noting n)) res := by
  obtain ⟨lens, rfl, hlens⟩ := h
  exact ⟨n :: lens, rfl, List.forall_mem_cons.2 ⟨hn, hlens⟩⟩

theorem urlNext_scans {loop : UrlState → ℕ → ℤ → UrlParts → Except Fault UrlScan}
    (hlen : len - (p2 + 1 - p) = d.length) (hnil : d = [] → res = (.done, out))
    (hcons : d ≠ [] → Scans (loop state (p2 + 1) d.length out) res) : Scans
    (urlNext loop state p2 p len out) res := by
  unfold urlNext
  simp only [hlen]
  refine Scans.noting ?_ (Int.natCast_nonneg _)
  by_cases hd : d = []
  · rw [if_neg (by simp [hd]), hnil hd]
    exact scans_stop ..
  · rw [if_pos (by simpa using hd)]
    exact hcons hd

theorem scan_path (hd : d ≠ []) :
    Scans (urlScanLoop b (fuel + 1) .path p d.length out) (.done, out.rest p d) := by
  have hpos := List.length_pos_of_ne_nil hd
  rw [urlScanLoop, sizeT_natCast, UrlParts.rest, if_neg hd]
  exact urlNext_scans (d := []) (by simp; omega) (fun _ => rfl) (fun h => absurd rfl h)

theorem urlNext_path (hlen : len - (p2 + 1 - p) = d.length) :
    Scans (urlNext (urlScanLoop b (fuel + 1)) .path p2 p len out) (.done, out.rest (p2 + 1) d) :=
  urlNext_scans hlen (fun h => by rw [UrlParts.rest, if_pos h]) fun h => scan_path h

variable (pre) in
theorem scan_port (hb : b = pre ++ d ++ [0]) (hp : p = pre.length) (hd : d ≠ []) :
    Scans (urlScanLoop b (fuel + 2) .port p d.length out) (portParts p d out) := by
  subst hp
  rw [urlScanLoop, sizeT_natCast, portParts, if_neg hd]
  rcases cut_cases SLASH d with ⟨hno, hcut⟩ | ⟨q, e, rfl, hq, hcut⟩
  · rw [memchr_absent hb rfl hno rfl, hcut]
    exact scans_stop ..
  · have hm : memchr b pre.length SLASH (q ++ SLASH :: e).length = .ok
      (some (pre.length + q.length)) :=
      memchr_split (r := e ++ [0]) (by simpa using hb) rfl hq (by simp)
    have hq' : pre.length + q.length - pre.length = q.length := by omega
    rw [hm, hcut, ok_bind]
    simp only [hq']
    exact urlNext_path (by simp; omega)

variable (pre) in
theorem scan_host (hb : b = pre ++ d ++ [0]) (hp : p = pre.length) (hd : d ≠ []) :
    Scans (urlScanLoop b (fuel + 3) .host p d.length out) (hostParts p d out) := by
  subst hp
  have hl : (ascii "//").length = 2 := by decide
  have hpos := List.length_pos_of_ne_nil hd
  have hme : memEq b pre.length (ascii "//") = .ok (d.take 2 == ascii "//") := by
    rw [memEq_nul (r := []) hb rfl (by decide), hl, if_pos (by simp; omega)]
  rw [urlScanLoop, hme, ok_bind, hostParts, if_neg hd]
  by_cases hd2 : d.take 2 = ascii "//"
  case neg =>
    rw [if_pos hd2, if_pos (by simpa using hd2)]
    exact scans_stop ..
  rw [if_neg (not_not.2 hd2), if_neg (by simp [hd2])]
  obtain ⟨c, rfl⟩ : ∃ c, d = ascii "//" ++ c := ⟨d.drop 2, by rw [← hd2, List.take_append_drop]⟩
  have hdrop : (ascii "//" ++ c).drop 2 = c := rfl
  have hpre : pre.length + 2 = (pre ++ ascii "//").length := by rw [List.length_append, hl]
  have hb' : b = pre ++ ascii "//" ++ c ++ [0] := by simpa using hb
  have hclen : (((ascii "//" ++ c).length : ℕ) : ℤ) - 2 = c.length := by
    rw [List.length_append, hl]; omega
  simp only [hclen, hpre, hdrop, sizeT_natCast]
  refine Scans.noting ?_ (Int.natCast_nonneg _)
  generalize pre ++ ascii "//" = P at hb'
  rcases cut_cases COLON c with ⟨hno, hcut⟩ | ⟨h, e, rfl, hh, hcut⟩
  · rw [memchr_absent hb' rfl hno rfl, hcut, ok_bind]
    rcases cut_cases SLASH c with ⟨hno', hcut'⟩ | ⟨h, e, rfl, hh, hcut'⟩
    · simp only [memchr_absent hb' rfl hno' rfl, hcut', ok_bind]
      exact scans_stop ..
    · have hm : memchr b P.length SLASH (h ++ SLASH :: e).length = .ok
        (some (P.length + h.length)) :=
        memchr_split (r := e ++ [0]) (by simpa using hb') rfl hh (by simp)
      have hh' : P.length + h.length - P.length = h.length := by omega
      simp only [hm, hcut', ok_bind, hh']
      exact urlNext_path (by simp; omega)
  · have hm : memchr b P.length COLON (h ++ COLON :: e).length = .ok (some (P.length + h.length)) :=
      memchr_split (r := e ++ [0]) (by simpa using hb') rfl hh (by simp)
    have hh' : P.length + h.length - P.length = h.length := by omega
    rw [hm, hcut, ok_bind]
    simp only [hh']
    refine urlNext_scans (d := e) (by simp; omega)
      (fun he => by rw [portParts, if_pos he]) fun he => ?_
    exact scan_port (P ++ h ++ [COLON]) (by simpa using hb') (by simp [Nat.add_assoc]) he

theorem urlScan_scans (u : Bytes) : Scans (urlScan u) (urlParts u) := by
  rw [urlScan, urlScanLoop, sizeT_natCast, urlParts]
  rcases cut_cases COLON u with ⟨hno, hcut⟩ | ⟨s, t, rfl, hs, hcut⟩
  · have hm : memchr (u ++ [0]) 0 COLON u.length = .ok none :=
      memchr_absent (l := []) rfl rfl hno rfl
    rw [hm, hcut, ok_bind]
    simp only
    by_cases hu : u = []
    · rw [if_neg (by simp [hu]), UrlParts.rest, if_pos hu]
      exact scans_stop ..
    · rw [if_pos (by simpa using hu)]
      exact scan_path hu
  · have hm : memchr (s ++ COLON :: t ++ [0]) 0 COLON (s ++ COLON :: t).length = .ok
      (some (0 + s.length)) :=
      memchr_split (l := []) (r := t ++ [0]) (by simp) rfl hs (by simp)
    rw [hm, hcut, ok_bind]
    simp only [Nat.zero_add, Nat.sub_zero]
    refine urlNext_scans (d := t) (by simp) (fun ht => by rw [hostParts, if_pos ht]) fun ht => ?_
    exact scan_host (s ++ [COLON]) (by simp) (by simp) ht

theorem httpParserUrl_eq (u : Bytes) :
    httpParserUrl ⟨u ++ [0], u.length⟩ = .ok ((urlParts u).1, (urlParts u).2.read (u ++ [0])) := by
  obtain ⟨lens, hscan, hlens⟩ := urlScan_scans u
  have hloop := urlLoop_of_scan hscan hlens
  rw [httpParserUrl, sizeT_natCast]
  exact hloop

end Scans

def UrlParts.spans (o : UrlParts) : List Span :=
  [o.hu_scheme, o.hu_host, o.hu_port, o.hu_path].reduceOption

/-- A URL as its components and what separates them, with the places of the components. -/
inductive UrlTiled : Bytes → UrlParts → Prop
  | path (p : Bytes) : UrlTiled p (UrlParts.rest 0 p ⟨none, none, none, none⟩)
  | scheme (s : Bytes) : UrlTiled (s ++ ascii ":") ⟨some ⟨0, s.length⟩, none, none, none⟩
  | host (s h : Bytes) : UrlTiled (s ++ ascii ":" ++ ascii "//" ++ h ++ ascii ":")
      ⟨some ⟨0, s.length⟩, some ⟨s.length + 3, h.length⟩, none, none⟩
  | hostPath (s h p : Bytes) : UrlTiled (s ++ ascii ":" ++ ascii "//" ++ h ++ ascii "/" ++ p)
      (UrlParts.rest (s.length + 3 + h.length + 1) p ⟨some ⟨0, s.length⟩,
        some ⟨s.length + 3, h.length⟩, none, none⟩)
  | portPath (s h q p : Bytes) :
      UrlTiled (s ++ ascii ":" ++ ascii "//" ++ h ++ ascii ":" ++ q ++ ascii "/" ++ p)
        (UrlParts.rest (s.length + 3 + h.length + 1 + q.length + 1) p ⟨some ⟨0, s.length⟩,
          some ⟨s.length + 3, h.length⟩, some ⟨s.length + 3 + h.length + 1, q.length⟩, none⟩)

section Tiled

variable {u : Bytes} {o : UrlParts}

/-- The rest of a URL as its path, behind components that end before it. -/
theorem spans_rest {off : ℕ} {p : Bytes} (hp : o.hu_path = none) (hlen : off + p.length = u.length)
    (hpair : o.spans.Pairwise fun s t => s.off + s.len ≤ t.off)
    (hoff : ∀ s ∈ o.spans, s.off + s.len ≤ off) :
    (o.rest off p).spans.Pairwise (fun s t => s.off + s.len ≤ t.off) ∧
      ∀ s ∈ (o.rest off p).spans, s.off + s.len ≤ u.length := by
  unfold UrlParts.rest
  split_ifs with hnil
  · exact ⟨hpair, fun s hs => (hoff s hs).trans (by omega)⟩
  · have hspans : ({ o with hu_path := some ⟨off, p.length⟩ } : UrlParts).spans = o.spans ++ [⟨off,
      p.length⟩] := by
      obtain ⟨s, h, q, _⟩ := o
      cases hp
      cases s <;> cases h <;> cases q <;> rfl
    rw [hspans, List.pairwise_append]
    refine ⟨⟨hpair, List.pairwise_singleton .., fun s hs t ht => ?_⟩, fun s hs => ?_⟩
    · rw [List.mem_singleton.1 ht]
      exact hoff s hs
    · rcases List.mem_append.1 hs with hs | hs
      · exact (hoff s hs).trans (by omega)
      · rw [List.mem_singleton.1 hs, hlen]

/-- The components are disjoint parts of the URL, in their order. -/
theorem UrlTiled.ordered (h : UrlTiled u o) :
    o.spans.Pairwise (fun s t => s.off + s.len ≤ t.off) ∧
      ∀ s ∈ o.spans, s.off + s.len ≤ u.length := by
  have hl1 : (ascii ":").length = 1 := by decide
  have hl2 : (ascii "//").length = 2 := by decide
  have hl3 : (ascii "/").length = 1 := by decide
  cases h with
  | path => exact spans_rest rfl (Nat.zero_add _) List.Pairwise.nil (by simp [UrlParts.spans])
  | scheme s => simp [UrlParts.spans]
  | host s h =>
    simp only [UrlParts.spans, List.reduceOption_cons_of_some, List.reduceOption_cons_of_none,
      List.reduceOption_nil, List.length_append, hl1, hl2]
    refine ⟨by simp, ?_⟩
    simp
    omega
  | hostPath s h p =>
    refine spans_rest rfl ?_ (by simp [UrlParts.spans]) ?_
    · simp only [List.length_append, hl1, hl2, hl3]
    · simp [UrlParts.spans]
      omega
  | portPath s h q p =>
    refine spans_rest rfl ?_ (by simp [UrlParts.spans]; omega) ?_
    · simp only [List.length_append, hl1, hl2, hl3]
    · simp [UrlParts.spans]
      omega

theorem cut_eq_some {c : UInt8} {l a t : Bytes} (h : cut c l = some (a, t)) : l = a ++ c :: t := by
  rcases cut_cases c l with ⟨-, hcut⟩ | ⟨a', t', rfl, -, hcut⟩
  · rw [hcut] at h
    cases h
  · rw [hcut] at h
    cases h
    rfl

/-- What the splitter finds in a URL that it accepts is the URL. -/
theorem urlParts_tiled (h : (urlParts u).1 = .done) : UrlTiled u (urlParts u).2 := by
  have hc : ∀ l : Bytes, COLON :: l = ascii ":" ++ l := fun _ => rfl
  have hs : ∀ l : Bytes, SLASH :: l = ascii "/" ++ l := fun _ => rfl
  unfold urlParts at h ⊢
  cases hu : cut COLON u with
  | none => exact UrlTiled.path u
  | some x =>
    obtain ⟨s, t⟩ := x
    rw [hu] at h
    obtain rfl := cut_eq_some hu
    simp only [hostParts] at h ⊢
    by_cases ht : t = []
    · rw [if_pos ht, ht]
      exact UrlTiled.scheme s
    rw [if_neg ht] at h ⊢
    split_ifs at h ⊢ with h2
    rw [not_not] at h2
    obtain ⟨c, rfl⟩ : ∃ c, t = ascii "//" ++ c := ⟨t.drop 2, by rw [← h2, List.take_append_drop]⟩
    have hdrop : (ascii "//" ++ c).drop 2 = c := rfl
    rw [hdrop] at h ⊢
    cases hcut : cut COLON c with
    | none =>
      rw [hcut] at h
      simp only at h ⊢
      cases hcut' : cut SLASH c with
      | none =>
        rw [hcut'] at h
        cases h
      | some x =>
        obtain ⟨k, e⟩ := x
        obtain rfl := cut_eq_some hcut'
        rw [hc, hs]
        simpa using UrlTiled.hostPath s k e
    | some x =>
      obtain ⟨k, d⟩ := x
      obtain rfl := cut_eq_some hcut
      rw [hcut] at h
      simp only [portParts] at h ⊢
      by_cases hd : d = []
      · have hcolon : ascii ":" = [COLON] := rfl
        rw [if_pos hd, hd]
        simpa [hcolon] using UrlTiled.host s k
      · rw [if_neg hd] at h ⊢
        cases hcut' : cut SLASH d with
        | none =>
          rw [hcut'] at h
          cases h
        | some x =>
          obtain ⟨q, e⟩ := x
          obtain rfl := cut_eq_some hcut'
          rw [hc, hc, hs]
          simpa using UrlTiled.portPath s k q e

end Tiled

/-- For every URL that a NUL follows: the splitter returns, without a look at any other byte, and
its remaining length never underflows. Where it accepts, the components, which are disjoint and in
order, and their separators are the URL, and a URL without a ':' is all path. -/
theorem httpParserUrl_lossless (u : Bytes) : ∃ r, urlScan u = .ok r ∧
    httpParserUrl ⟨u ++ [0], u.length⟩ = .ok (r.rc, r.out.read (u ++ [0])) ∧ (∀ n ∈ r.lens, 0 ≤ n) ∧
    (r.rc = .done → UrlTiled u r.out ∧ r.out.spans.Pairwise (fun s t => s.off + s.len ≤ t.off) ∧
      ∀ s ∈ r.out.spans, s.off + s.len ≤ u.length) ∧
    (COLON ∉ u → r.rc = .done ∧
      r.out.read (u ++ [0]) = ⟨.ofBytes [], .ofBytes [], .ofBytes [], .ofBytes u⟩) := by
  obtain ⟨lens, hscan, hlens⟩ := urlScan_scans u
  refine ⟨_, hscan, httpParserUrl_eq u, hlens,
    fun h => ⟨urlParts_tiled h, (urlParts_tiled h).ordered⟩, fun h => ?_⟩
  rw [urlParts, cut_none h]
  refine ⟨rfl, ?_⟩
  unfold UrlParts.rest
  by_cases hu : u = []
  · rw [if_pos hu, hu]
    rfl
  · rw [if_neg hu, UrlParts.read]
    have hslice : slice (u ++ [0]) 0 u.length = u := slice_split (l := []) (r := [0]) rfl rfl rfl
    simp only [Span.read, hslice]

end Plume.Http
