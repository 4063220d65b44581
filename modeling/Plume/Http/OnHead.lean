import Plume.Http.OnField

/-! The callbacks of one head, from the request line to the end of the fields, and how
`hr_host` and `hr_port` change from one to the next. -/

namespace Plume.Http
open CLib

def onFields : List (Bytes × Bytes) → UserData → Conn → Except Fault Conn
  | [], _, c => .ok c
  | f :: fs, data, c => do
    let (_, c) ← httpOnFieldData (.ofBytes f.1) (.ofBytes f.2) data c
    onFields fs data c

def onLineAndFields (mthd : Mthd) (ver : Ver) (u : Bytes) (fs : List (Bytes × Bytes)) (c : Conn) :
    Except Fault (UserData × Conn) := do
  let (_, data, c) ← httpOnReqline mthd (.ofBytes u) ver .conn c
  return (data, ← onFields fs data c)

def onHead (junk : Option ℕ) (mthd : Mthd) (ver : Ver) (u : Bytes) (fs : List (Bytes × Bytes))
    (c : Conn) : Except Fault Conn := do
  let (data, c) ← onLineAndFields mthd ver u fs c
  let (_, c) ← httpOnHdrDone junk data c
  return c

/-- The counted string `s` is `b`. -/
structure Spells (s : PStr) (b : Bytes) : Prop where
  len : s.s_len = b.length
  str : s.s_str.take b.length = b

theorem Spells.inj {s : PStr} {a b : Bytes} (ha : Spells s a) (hb : Spells s b) : a = b := by
  have hlen : a.length = b.length := by have := ha.len; have := hb.len; omega
  rw [← ha.str, ← hb.str, hlen]

theorem spells_strzassign (s : PStr) (b : Bytes) : Spells (strzassign true s b b.length) b := by
  constructor
  · rfl
  · simp [strzassign, slice, sizeT_natCast]

def urlState (u : Bytes) : Bytes × ℕ :=
  ((urlAuthority u).1, if (urlAuthority u).2 = [] then 0 else portOf (.ofBytes (urlAuthority u).2))

def takenForHost (f : Bytes × Bytes) : Bool := f.1.head? == some 72 || f.1.head? == some 104

def fieldState (s : Bytes × ℕ) (f : Bytes × Bytes) : Bytes × ℕ :=
  if takenForHost f && s.1 == [] then
    ((splitHost f.2).1, ((splitHost f.2).2.map fun p => portOf (.ofBytes p)).getD s.2)
  else s

/-- Host and port behind the fields, before `plm_http_on_hdr_done`. -/
def authorityState (u : Bytes) (fs : List (Bytes × Bytes)) : Bytes × ℕ :=
  fs.foldl fieldState (urlState u)

/-- The port `plm_http_on_hdr_done` leaves in the current request, when it looks at that one. -/
def defaulted (cur : Bool) (port : ℕ) : ℕ := if cur && port == 0 then 80 else port

section Run

variable {f : Bytes × Bytes} {c : Conn} {r : Req}

structure HasAuthority (r : Req) (s : Bytes × ℕ) : Prop where
  host : Spells r.hr_host s.1
  port : r.hr_port = s.2
  fields : HasBuckets r.hr_fields

theorem spells_empty : Spells (.ofBytes []) [] := ⟨rfl, rfl⟩

theorem Spells.eq_nil {s : PStr} {b : Bytes} (h : Spells s b) : s.s_len = 0 ↔ b = [] := by
  rw [h.len, Nat.cast_eq_zero, List.length_eq_zero_iff]

theorem copy_spells (b : Bytes) : ∃ s, Spells s b ∧
    (if (b.length : ℤ) > 0 then (strzassign true (.ofBytes []) b b.length, ([] : List Bool))
      else (.ofBytes [], [])) = (s, []) := by
  split_ifs with hlen
  · exact ⟨_, spells_strzassign _ b, rfl⟩
  · obtain rfl : b = [] := List.length_eq_zero_iff.1 (by omega)
    exact ⟨_, spells_empty, rfl⟩

theorem reqOfLine_ok (mthd : Mthd) (ver : Ver) (u : Bytes) :
    ∃ r, reqOfLine mthd ver ⟨u ++ [0], u.length⟩ [] = .ok (r, []) ∧
      HasAuthority r (urlState u) := by
  obtain ⟨rc, out, hout, hhost, hport⟩ := httpParserUrl_authority u
  obtain ⟨s, hs, hcopy⟩ := copy_spells (urlAuthority u).1
  unfold reqOfLine
  simp only [hout, hhost, hport, ok_bind, pure_ok, palloc_nil, PStr.ofBytes_str, PStr.ofBytes_len,
    hcopy]
  refine ⟨_, rfl, hs, ?_, ?_⟩
  · unfold urlState
    by_cases hnil : (urlAuthority u).2 = []
    · rw [if_pos hnil, if_neg (by simp [hnil])]
    · rw [if_neg hnil, if_pos (by simpa using List.length_pos_of_ne_nil hnil)]
  · exact hasBuckets_init (by decide)

/-- The URL's part: `plm_http_on_reqline` makes the request. -/
theorem httpOnReqline_ok (mthd : Mthd) (ver : Ver) (u : Bytes) (hm : c.mem = []) :
    ∃ r, httpOnReqline mthd (.ofBytes u) ver .conn c =
        .ok (0, .req c.hc_reqs.length, { c with hc_reqs := c.hc_reqs ++ [r] }) ∧
      HasAuthority r (urlState u) := by
  have hu : strzassign true (.ofBytes []) u u.length = ⟨u ++ [0], u.length⟩ := by
    simp [strzassign, slice, sizeT_natCast]
  obtain ⟨r, hr, h⟩ := reqOfLine_ok mthd ver u
  refine ⟨r, ?_, h⟩
  unfold httpOnReqline
  simp [hm, hu, hr]

theorem takenFor_of_host {w : Bytes} (hf : takenForHost f = true)
    (hw : w.head? ≠ some 72 ∧ w.head? ≠ some 104) : takenFor w f.1 = false := by
  unfold takenForHost at hf
  rw [Bool.or_eq_true, beq_iff_eq, beq_iff_eq] at hf
  apply takenFor_of_head_ne
  rcases hf with h | h <;> rw [h]
  · exact hw.1.symm
  · exact hw.2.symm

theorem switchOf_authority {s : Bytes × ℕ} (h : HasAuthority r s) :
    HasAuthority (switchOf f.1 f.2 r []).2.1 (fieldState s f) := by
  have hcond : ((f.1.head? = some 72 ∨ f.1.head? = some 104) ∧ r.hr_host.s_len = 0) ↔
      (takenForHost f && s.1 == []) = true := by
    rw [h.host.eq_nil, takenForHost, Bool.and_eq_true, Bool.or_eq_true, beq_iff_eq, beq_iff_eq,
      beq_iff_eq]
  unfold switchOf fieldState
  by_cases hf : (takenForHost f && s.1 == []) = true
  · have htaken := (Bool.and_eq_true_iff.1 hf).1
    rw [takenFor_of_host htaken (by decide), takenFor_of_host htaken (by decide),
      takenFor_of_host htaken (by decide), if_neg (by decide), if_neg (by decide),
      if_neg (by decide), if_pos (hcond.2 hf), if_pos hf]
    exact ⟨spells_strzassign r.hr_host _, by rw [← h.port], h.fields⟩
  · rw [if_neg (mt hcond.1 hf), if_neg hf]
    split_ifs
    · exact ⟨h.host, h.port, h.fields⟩
    · exact ⟨h.host, h.port, h.fields⟩
    · exact ⟨h.host, h.port, h.fields⟩
    · exact h

/-- The step lemma: one field's callback on the request under construction. -/
theorem httpOnFieldData_ok {reqs : List Req} {s : Bytes × ℕ} (hc : c.hc_reqs = reqs ++ [r])
    (hm : c.mem = []) (h : HasAuthority r s) (f : Bytes × Bytes) :
    ∃ r', httpOnFieldData (.ofBytes f.1) (.ofBytes f.2) (.req reqs.length) c =
        .ok (0, { c with hc_reqs := reqs ++ [r'] }) ∧ HasAuthority r' (fieldState s f) := by
  obtain ⟨fields, -, hb, ho⟩ := httpOnField_ok f.1 f.2 r h.fields
  have hsw := switchOf_authority (f := f) h
  refine ⟨{ (switchOf f.1 f.2 r []).2.1 with hr_fields := fields }, ?_, ⟨hsw.host, hsw.port, hb⟩⟩
  have hget : c.hc_reqs[reqs.length]? = some r := by rw [hc]; simp
  unfold httpOnFieldData
  simp only [hget]
  rw [hm, ho]
  simp [hc]

theorem onFields_ok {reqs : List Req} {s : Bytes × ℕ} (hc : c.hc_reqs = reqs ++ [r])
    (hm : c.mem = []) (h : HasAuthority r s) (fs : List (Bytes × Bytes)) :
    ∃ r', onFields fs (.req reqs.length) c = .ok { c with hc_reqs := reqs ++ [r'] } ∧
      HasAuthority r' (fs.foldl fieldState s) := by
  induction fs generalizing c r s with
  | nil => exact ⟨r, by rw [← hc]; rfl, h⟩
  | cons f fs ih =>
    obtain ⟨r', he, h'⟩ := httpOnFieldData_ok hc hm h f
    obtain ⟨r'', he', h''⟩ := ih (c := { c with hc_reqs := reqs ++ [r'] }) rfl hm h'
    exact ⟨r'', by rw [onFields, he]; exact he', h''⟩

theorem onLineAndFields_ok (hm : c.mem = []) (mthd : Mthd) (ver : Ver) (u : Bytes)
    (fs : List (Bytes × Bytes)) : ∃ r, onLineAndFields mthd ver u fs c =
      .ok (.req c.hc_reqs.length, { c with hc_reqs := c.hc_reqs ++ [r] }) ∧
      HasAuthority r (authorityState u fs) := by
  obtain ⟨r, he, h⟩ := httpOnReqline_ok mthd ver u hm
  obtain ⟨r', he', h'⟩ := onFields_ok (c := { c with hc_reqs := c.hc_reqs ++ [r] }) rfl hm h fs
  refine ⟨r', ?_, h'⟩
  unfold onLineAndFields
  rw [he]
  show (do return (UserData.req c.hc_reqs.length, ← onFields fs _ _)) = _
  rw [he']
  rfl

/-- `plm_http_on_hdr_done` gives the default port to the request its pointer designates. -/
theorem httpOnHdrDone_ok {reqs : List Req} {i : ℕ} (hc : c.hc_reqs = reqs ++ [r])
    (hi : i ≤ reqs.length) (data : UserData) : ∃ c', httpOnHdrDone (some i) data c = .ok
    (some .conn, c') ∧
      c'.hc_reqs[reqs.length]? =
        some { r with hr_port := defaulted (i == reqs.length) r.hr_port } := by
  have hlt : i < c.hc_reqs.length := by rw [hc, List.length_append, List.length_singleton]; omega
  unfold httpOnHdrDone
  simp only [List.getElem?_eq_getElem hlt]
  refine ⟨_, rfl, ?_⟩
  rcases Nat.lt_or_eq_of_le hi with h | rfl
  · have hd : defaulted (i == reqs.length) r.hr_port = r.hr_port := by
      simp [defaulted, beq_eq_false_iff_ne.2 (ne_of_lt h)]
    rw [hd, List.getElem?_set_ne (ne_of_lt h), hc]
    simp
  · have hd : c.hc_reqs[reqs.length] = r := by simp [hc]
    simp only [hd]
    rw [List.getElem?_set_self hlt, defaulted, beq_self_eq_true, Bool.true_and]
    congr 1
    by_cases hp : r.hr_port = 0
    · simp [hp]
    · simp [hp]

end Run

end Plume.Http
