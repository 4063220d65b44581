import Plume.CLib.Run
import Plume.Http.Chunk
import Plume.Http.Framing
import Plume.Http.OnHead
import Plume.Http.Protocol

/-! A stream of request heads through the reads of a connection: which reads lead to the
requests of the stream, each dispatched once and with its own fields. -/

namespace Plume.Http
open CLib

section Stream

structure Head where
  line : ReqLine
  fields : List Field
  fields_ne : fields ≠ []

def Head.text (h : Head) : Bytes := h.line.text ++ fieldsText h.fields ++ crlf

/-- No field announces a body. -/
def Head.Bodyless (h : Head) : Prop :=
  ∀ f ∈ h.fields, named (ascii "Transfer-Encoding") f.name = false ∧
    (named (ascii "Content-Length") f.name = true → decimal f.value = 0)

def stream (hs : List Head) : Bytes := (hs.map Head.text).flatten

/-- The heads that are complete in the first `n` bytes of their stream. -/
def complete : List Head → ℕ → List Head
  | [], _ => []
  | h :: hs, n => if h.text.length ≤ n then h :: complete hs (n - h.text.length) else []

/-- The name a field is entered under: its own, and `Connection` for a `Proxy-Connection`. -/
def EnteredAs (f : Field) (name : PStr) : Prop :=
  name = .ofBytes f.name ∨ named (ascii "Proxy-Connection") f.name = true ∧ name = cs

inductive Entered : List Field → Hash PStr PStr → Prop
  | nil : Entered [] (hashInit true 26)
  | snoc {fs : List Field} {t t' : Hash PStr PStr} {f : Field} {name : PStr} : Entered fs t →
    EnteredAs f name →
      hashInsert httpFieldKey t (stored name) (stored (.ofBytes f.value)) = .ok t' →
    Entered (fs ++ [f]) t'

structure Served (line : ReqLine) (fs : List Field) (r : Req) : Prop where
  mthd : r.hr_mthd = line.mthd
  ver : r.hr_ver = line.ver.ver
  url : Spells r.hr_url line.url
  fields : Entered fs r.hr_fields

/-- A read of some bytes, for which there must be room, with what the uninitialised pointer in
`plm_http_on_hdr_done` holds then. -/
def readStep (st : ConnState) (a : Option ℕ × Bytes) : Option ConnState :=
  if st.reading ∧ a.2 ≠ [] ∧ a.2.length ≤ st.hc_data.length - st.hc_offset then
    (httpReadReq a.1 (.data a.2) st).toOption
  else none

def size (reads : List (Option ℕ × Bytes)) : ℕ := (reads.map fun a => a.2.length).sum

/-- Behind every read the requests dispatched are those whose heads are complete by then, in
their order, each as its head says. -/
def Dispatches (hs : List Head) (buf : Bytes) (reads : List (Option ℕ × Bytes)) : Prop :=
  ∀ pre, pre <+: reads → ∃ st, run readStep (accepted [] buf).st pre = some st ∧
    List.Forall₂ (fun h r => Served h.line h.fields r) (complete hs (size pre)) st.processed

end Stream

section Cut

/-- The code reads the field as it is: its name is not one byte too long for the loop that
looks for spaces, no other name is taken for that of `Proxy-Connection`, and no length but zero
is read in it. -/
structure Field.Plain (f : Field) : Prop where
  whole : f.name.length ≠ 33
  proxy : takenFor (ascii "Proxy-Connection") f.name = true →
    named (ascii "Proxy-Connection") f.name = true
  length : setsLength (f.name, f.value) = true → cntlenOf f.value = 0

/-- A place in the stream where a read may end, with the number of requests made so far. -/
inductive Place
  | start (hs : List Head) (k : ℕ)
  | fields (h : Head) (rest : List Field) (hs : List Head) (k : ℕ)
  | lf (h : Head)
  | ended

/-- A read from one place to another, that the code copes with, and the heads it completes. -/
inductive Move : Place → Option ℕ × Bytes → List Head → Place → Prop
  | line (h hs k j) : Move (.start (h :: hs) k) (j, h.line.text) [] (.fields h h.fields hs (k + 1))
  | lineField (h hs k j) {f : Field} {fs : List Field} : f.Plain → h.fields = f :: fs → fs ≠ [] →
    Move (.start (h :: hs) k) (j, h.line.text ++ f.text) [] (.fields h fs hs (k + 1))
  | field (h hs k j) {f : Field} {fs : List Field} : f.Plain → fs ≠ [] →
    Move (.fields h (f :: fs) hs k) (j, f.text) [] (.fields h fs hs k)
  | twoFields (h hs k j) {f g : Field} {fs : List Field} : f.Plain → g.Plain → fs ≠ [] →
    Move (.fields h (f :: g :: fs) hs k) (j, f.text ++ g.text) [] (.fields h fs hs k)
  | last (h hs k) {f : Field} {i : ℕ} : f.Plain → i < k →
    Move (.fields h [f] hs k) (some i, f.text ++ crlf) [h] (.start hs k)
  | lastCr (h k j) {f : Field} : f.Plain → Move (.fields h [f] [] k) (j, f.text ++ [CR]) [] (.lf h)
  | lastLf (h j) : Move (.lf h) (j, [LF]) [h] .ended

/-- All reads up to the end of the stream are such. -/
inductive Aligned : Place → List (Option ℕ × Bytes) → Prop
  | done (k : ℕ) : Aligned (.start [] k) []
  | ended : Aligned .ended []
  | read {p p' : Place} {a : Option ℕ × Bytes} {hs : List Head} {reads : List (Option ℕ × Bytes)} :
    Move p a hs p' → Aligned p' reads → Aligned p (a :: reads)

end Cut

section Callbacks

variable {junk : Option ℕ} {c c' : Conn} {line : ReqLine} {got : List Field} {reqs : List Req}
  {r : Req}
  {f : Field} {i : ℕ}

/-- Nothing is in the way of the next read: there is memory, and no request has a body to come. -/
structure Clean (c : Conn) : Prop where
  mem : c.mem = []
  body : c.hc_body = none
  cntlen : ∀ r ∈ c.hc_reqs, r.hr_cntlen = 0

structure Making (line : ReqLine) (got : List Field) (r : Req) : Prop where
  served : Served line got r
  cntlen : r.hr_cntlen = 0
  buckets : HasBuckets r.hr_fields

theorem Clean.push (hc : Clean c) (hr : r.hr_cntlen = 0) :
    Clean { c with hc_reqs := c.hc_reqs ++ [r] } := by
  refine ⟨hc.mem, hc.body, fun q hq => ?_⟩
  rcases List.mem_append.1 hq with hq | hq
  · exact hc.cntlen q hq
  · rw [List.mem_singleton.1 hq, hr]

theorem Clean.last {r' : Req} (hc : Clean c) (hreqs : c.hc_reqs = reqs ++ [r])
    (hr : r'.hr_cntlen = 0) :
    Clean { c with hc_reqs := reqs ++ [r'] } := by
  refine Clean.push (c := { c with hc_reqs := reqs }) ⟨hc.mem, hc.body, fun q hq => ?_⟩ hr
  exact hc.cntlen q (by rw [hreqs]; exact List.mem_append_left _ hq)

theorem reqOfLine_frame {m : Mthd} {v : Ver} {u : PStr} {mem : List Bool}
    (h : reqOfLine m v u [] = .ok (r, mem)) :
    r.hr_mthd = m ∧ r.hr_ver = v ∧ r.hr_url = u ∧ r.hr_cntlen = 0 ∧
      r.hr_fields = hashInit true 26 := by
  unfold reqOfLine at h
  obtain ⟨x, -, h⟩ := bind_eq_ok.1 h
  by_cases hlen : x.2.hu_host.s_len > 0
  · simp only [hlen, if_true, palloc_nil] at h
    cases h
    exact ⟨rfl, rfl, rfl, rfl, rfl⟩
  · simp only [hlen, if_false, palloc_nil] at h
    cases h
    exact ⟨rfl, rfl, rfl, rfl, rfl⟩

variable (junk) in
/-- The callback of a request line makes its request. -/
theorem onReqline_making (hc : Clean c) (line : ReqLine) :
    ∃ r, AcceptsLine (connHooks junk) line .conn c (.req c.hc_reqs.length)
      { c with hc_reqs := c.hc_reqs ++ [r] } ∧ Making line [] r := by
  have hu : strzassign true
    (.ofBytes []) line.url line.url.length = ⟨line.url ++ [0], line.url.length⟩ := by
    simp [strzassign, slice, sizeT_natCast]
  obtain ⟨r, hr, -⟩ := reqOfLine_ok line.mthd line.ver.ver line.url
  obtain ⟨hm, hv, hurl, hcl, ht⟩ := reqOfLine_frame hr
  refine ⟨r, ?_, ⟨hm, hv, ?_, ?_⟩, hcl, ?_⟩
  · unfold AcceptsLine connHooks httpOnReqline
    simp [hc.mem, hu, hr]
  · rw [hurl, ← hu]
    exact spells_strzassign _ _
  · rw [ht]
    exact .nil
  · rw [ht]
    exact hasBuckets_init (by decide)

theorem switchOf_frame (k v : Bytes) (r : Req) (mem : List Bool) :
    (switchOf k v r mem).2.1.hr_mthd = r.hr_mthd ∧ (switchOf k v r mem).2.1.hr_ver = r.hr_ver ∧
      (switchOf k v r mem).2.1.hr_url = r.hr_url := by
  unfold switchOf
  split_ifs <;> exact ⟨rfl, rfl, rfl⟩

theorem switchOf_name (hf : f.Plain) (v : Bytes) (r : Req) (mem : List Bool) :
    EnteredAs f (switchOf f.name v r mem).1 := by
  unfold switchOf
  split_ifs with h1 h2 h3 h4
  · exact .inl rfl
  · exact .inl rfl
  · exact .inr ⟨hf.proxy h3, rfl⟩
  · exact .inl rfl
  · exact .inl rfl

theorem Field.Plain.key (hf : f.Plain) : f.key = f.name := f.key_eq_name_iff.2 hf.whole

variable (junk) in
/-- The callback of a field enters it into the request that is being made. -/
theorem onField_making (hc : Clean c) (hreqs : c.hc_reqs = reqs ++ [r]) (hr : Making line got r)
    (hf : f.Plain) : ∃ r', Accepts (connHooks junk) f (.req reqs.length) c
      { c with hc_reqs := reqs ++ [r'] } ∧ Making line (got ++ [f]) r' := by
  obtain ⟨t, ht, hb, ho⟩ := httpOnField_ok f.name f.value r hr.buckets
  obtain ⟨hm, hv, hu⟩ := switchOf_frame f.name f.value r []
  have hcl := (switchOf_framing f.name f.value r []).1
  refine ⟨{ (switchOf f.name f.value r []).2.1 with hr_fields := t }, ?_, ⟨?_, ?_, ?_, ?_⟩, ?_, hb⟩
  · have hget : c.hc_reqs[reqs.length]? = some r := by rw [hreqs]; simp
    unfold Accepts connHooks httpOnFieldData
    simp only [hget, hf.key]
    rw [hc.mem, ho]
    simp [hreqs]
  · exact hm.trans hr.served.mthd
  · exact hv.trans hr.served.ver
  · show Spells (switchOf f.name f.value r []).2.1.hr_url _
    rw [hu]
    exact hr.served.url
  · exact .snoc hr.served.fields (switchOf_name hf _ _ _) ht
  · show (switchOf f.name f.value r []).2.1.hr_cntlen = 0
    rw [hcl]
    split_ifs with hset
    · exact hf.length hset
    · exact hr.cntlen

theorem httpOnHdrDone_clean {x : Option UserData} {data : UserData} (hc : Clean c)
    (h : httpOnHdrDone junk data c = .ok (x, c')) : Clean c' ∧
      c'.hc_reqs.length = c.hc_reqs.length := by
  unfold httpOnHdrDone at h
  rcases junk with _ | i
  · cases h
  cases hi : c.hc_reqs[i]? with
  | none => simp only [hi, reduceCtorEq] at h
  | some q =>
    obtain ⟨hlt, rfl⟩ := List.getElem?_eq_some_iff.1 hi
    have hq := hc.cntlen _ (List.getElem_mem hlt)
    have hq' : (if c.hc_reqs[i].hr_port = 0 then { c.hc_reqs[i] with hr_port := 80 }
        else c.hc_reqs[i]).hr_cntlen = 0 := by split_ifs <;> exact hq
    simp only [hi] at h
    obtain ⟨-, rfl⟩ := Prod.mk.inj (Except.ok.inj h)
    refine ⟨⟨hc.mem, ?_, fun p hp => ?_⟩, List.length_set⟩
    · show (if _ > 0 then _ else _) = _
      rw [hq', if_neg (lt_irrefl 0), hc.body]
    · rcases List.mem_or_eq_of_mem_set hp with hp | rfl
      · exact hc.cntlen p hp
      · exact hq'

/-- At the end of the head its request stays what it is, whichever gets the default port. -/
theorem onHdrDone_making {h : Head} (hc : Clean c) (hreqs : c.hc_reqs = reqs ++ [r])
    (hr : Served h.line h.fields r) (hi : i < c.hc_reqs.length) (data : UserData) :
    ∃ c' r', httpOnHdrDone (some i) data c = .ok (some .conn, c') ∧ Clean c' ∧
      c'.hc_reqs.length = c.hc_reqs.length ∧ c'.hc_reqs.getLast? = some r' ∧
        Served h.line h.fields r' := by
  have hlen : c.hc_reqs.length = reqs.length + 1 := by
    rw [hreqs, List.length_append, List.length_singleton]
  obtain ⟨c', ho, hlast⟩ := httpOnHdrDone_ok (i := i) hreqs (by omega) data
  obtain ⟨hc', hl⟩ := httpOnHdrDone_clean hc ho
  have hget : c'.hc_reqs.getLast? = c'.hc_reqs[reqs.length]? := by
    rw [List.getLast?_eq_getElem?, hl, hlen, Nat.add_sub_cancel]
  exact ⟨c', _, ho, hc', hl, hget.trans hlast, ⟨hr.mthd, hr.ver, hr.url, hr.fields⟩⟩

end Callbacks

section Moves

variable {junk : Option ℕ} {room : ℕ} {st : ConnState} {b : Bytes} {rc : Rc} {pst : PState}
  {data : UserData} {c : Conn}

/-- The connection waits for the next read, with the whole of its buffer free. -/
structure Ready (room : ℕ) (st : ConnState) : Prop where
  reading : st.reading = true
  offset : st.hc_offset = 0
  room : st.hc_data.length = room
  clean : Clean st.conn

/-- A read that the parser takes in to its last byte leaves nothing in the buffer. -/
theorem readStep_consumes (hR : Ready room st) (hne : b ≠ []) (hlen : b.length ≤ room)
    (hc : Consumes (connHooks junk) st.hc_psr b st.conn rc pst data c) (hrc : rc ≠ .error) :
    ∃ d, d.length = room ∧ readStep st (junk, b) = (dispatch rc { st with
      conn := c, hc_psr := ⟨pst, b.length, data⟩, hc_data := d, hc_offset := 0 }).toOption := by
  obtain ⟨s, hs, hcall⟩ := hc
  have hgiven : given st b = b := by
    unfold given
    rw [hR.offset, List.take_zero, List.nil_append, List.take_left]
  have hheld : held st b = st.hc_data.drop b.length := by
    unfold held
    rw [hR.offset, List.take_zero, List.nil_append, List.drop_left, Nat.zero_add]
  rw [← hgiven] at hcall
  refine ⟨s.buf ++ held st b, ?_, ?_⟩
  · rw [List.length_append, hs, hheld, List.length_drop, hR.room]
    omega
  · have hoff : sizeT ((b.length : ℤ) - b.length) = 0 := by
      rw [sub_self]
      rfl
    unfold readStep
    rw [if_pos ⟨hR.reading, hne, by rw [hR.room, hR.offset]; exact hlen⟩,
      httpReadReq_eq hR.clean.body hcall]
    simp only [hgiven, hoff, if_neg hrc]
    rfl

theorem readStep_again (hR : Ready room st) (hne : b ≠ []) (hlen : b.length ≤ room)
    (hc : Consumes (connHooks junk) st.hc_psr b st.conn .again pst data c) (hclean : Clean c) :
    ∃ st', readStep st (junk, b) = some st' ∧ Ready room st' ∧ st'.conn = c ∧
      st'.hc_psr = ⟨pst, b.length, data⟩ ∧ st'.processed = st.processed := by
  obtain ⟨d, hd, hstep⟩ := readStep_consumes hR hne hlen hc (by decide)
  exact ⟨_, hstep, ⟨rfl, rfl, hd, hclean⟩, rfl, rfl, rfl⟩

theorem readStep_done {r : Req} (hR : Ready room st) (hne : b ≠ []) (hlen : b.length ≤ room)
    (hc : Consumes (connHooks junk) st.hc_psr b st.conn .done pst data c) (hclean : Clean c)
    (hlast : c.hc_reqs.getLast? = some r) :
    ∃ st', readStep st (junk, b) = some st' ∧ Ready room st' ∧ st'.conn = c ∧
      st'.hc_psr = ⟨pst, b.length, data⟩ ∧ st'.processed = st.processed ++ [r] := by
  obtain ⟨d, hd, hstep⟩ := readStep_consumes hR hne hlen hc (by decide)
  unfold dispatch at hstep
  simp only [if_true, hlast] at hstep
  exact ⟨_, hstep, ⟨rfl, rfl, hd, hclean⟩, rfl, rfl, rfl⟩

structure AtStart (room k : ℕ) (st : ConnState) : Prop where
  ready : Ready room st
  made : st.conn.hc_reqs.length = k
  parser : ∃ n, st.hc_psr = ⟨.none, n, .conn⟩

structure AtFields (room k : ℕ) (h : Head) (rest : List Field) (st : ConnState) : Prop where
  ready : Ready room st
  made : st.conn.hc_reqs.length = k
  making : ∃ got reqs r n, h.fields = got ++ rest ∧ st.conn.hc_reqs = reqs ++ [r] ∧
    Making h.line got r ∧ st.hc_psr = ⟨.rlDone, n, .req reqs.length⟩

structure AtLf (room : ℕ) (h : Head) (st : ConnState) : Prop where
  ready : Ready room st
  making : ∃ r n d, st.conn.hc_reqs.getLast? = some r ∧ Served h.line h.fields r ∧
    st.hc_psr = ⟨.hdrCr, n, d⟩

def At (room : ℕ) : Place → ConnState → Prop
  | .start _ k, st => AtStart room k st
  | .fields h rest _ k, st => AtFields room k h rest st
  | .lf h, st => AtLf room h st
  | .ended, _ => True

theorem ReqLine.text_ne_nil (l : ReqLine) : l.text ≠ [] := by simp [ReqLine.text, crlf]

theorem Field.text_ne_nil (f : Field) : f.text ≠ [] := by simp [Field.text, crlf]

variable {h : Head} {f g : Field} {rest : List Field} {k i : ℕ}

theorem line_ready (hat : AtStart room k st) (hlen : h.line.text.length ≤ room) :
    ∃ st', readStep st (junk, h.line.text) = some st' ∧ AtFields room (k + 1) h h.fields st' ∧
      st'.processed = st.processed := by
  obtain ⟨hR, hk, n, hpsr⟩ := hat
  obtain ⟨r, hcb, hmk⟩ := onReqline_making junk hR.clean h.line
  obtain ⟨st', hstep, hR', hconn, hpsr', hproc⟩ := readStep_again hR h.line.text_ne_nil hlen
    (by rw [hpsr]; exact consumes_line hcb) (hR.clean.push hmk.cntlen)
  refine ⟨st', hstep, ⟨hR', ?_, [], _, r, _, rfl, by rw [hconn], hmk, hpsr'⟩, hproc⟩
  rw [hconn, List.length_append, hk, List.length_singleton]

theorem lineField_ready (hat : AtStart room k st) (hf : f.Plain) (hfs : h.fields = f :: rest)
    (hlen : (h.line.text ++ f.text).length ≤ room) :
    ∃ st', readStep st (junk, h.line.text ++ f.text) = some st' ∧ AtFields room (k + 1) h rest st' ∧
      st'.processed = st.processed := by
  obtain ⟨hR, hk, n, hpsr⟩ := hat
  obtain ⟨r, hcb, hmk⟩ := onReqline_making junk hR.clean h.line
  have hc := hR.clean.push hmk.cntlen
  obtain ⟨r', hcb', hmk'⟩ := onField_making junk hc rfl hmk hf
  obtain ⟨st', hstep, hR', hconn, hpsr', hproc⟩ :=
    readStep_again hR (by simp [h.line.text_ne_nil]) hlen
    (by rw [hpsr]; exact consumes_lineField hcb hcb') (hc.last rfl hmk'.cntlen)
  refine ⟨st', hstep, ⟨hR', ?_, [f], _, r', _, hfs, by rw [hconn], hmk', hpsr'⟩, hproc⟩
  rw [hconn, List.length_append, hk, List.length_singleton]

theorem field_ready (hat : AtFields room k h (f :: rest) st) (hf : f.Plain)
    (hlen : f.text.length ≤ room) :
    ∃ st', readStep st (junk, f.text) = some st' ∧ AtFields room k h rest st' ∧
      st'.processed = st.processed := by
  obtain ⟨hR, hk, got, reqs, r, n, hfs, hreqs, hmk, hpsr⟩ := hat
  obtain ⟨r', hcb, hmk'⟩ := onField_making junk hR.clean hreqs hmk hf
  obtain ⟨st', hstep, hR', hconn, hpsr', hproc⟩ := readStep_again hR f.text_ne_nil hlen
    (by rw [hpsr]; exact consumes_field hcb) (hR.clean.last hreqs hmk'.cntlen)
  refine ⟨st', hstep, ⟨hR', ?_, got ++ [f], reqs, r', _, ?_, by rw [hconn], hmk', hpsr'⟩, hproc⟩
  · rw [hconn, ← hk, hreqs, List.length_append, List.length_append]
    rfl
  · rw [hfs, List.append_assoc]
    rfl

theorem twoFields_ready (hat : AtFields room k h (f :: g :: rest) st) (hf : f.Plain) (hg : g.Plain)
    (hlen : (f.text ++ g.text).length ≤ room) :
    ∃ st', readStep st (junk, f.text ++ g.text) = some st' ∧ AtFields room k h rest st' ∧
      st'.processed = st.processed := by
  obtain ⟨hR, hk, got, reqs, r, n, hfs, hreqs, hmk, hpsr⟩ := hat
  obtain ⟨r', hcb, hmk'⟩ := onField_making junk hR.clean hreqs hmk hf
  have hc := hR.clean.last hreqs hmk'.cntlen
  obtain ⟨r'', hcb', hmk''⟩ := onField_making junk hc rfl hmk' hg
  obtain ⟨st', hstep, hR', hconn, hpsr', hproc⟩ := readStep_again hR (by simp [f.text_ne_nil]) hlen
    (by rw [hpsr]; exact consumes_twoFields hcb hcb') (hc.last rfl hmk''.cntlen)
  refine
    ⟨st', hstep, ⟨hR', ?_, got ++ [f] ++ [g], reqs, r'', _, ?_, by rw [hconn], hmk'', hpsr'⟩, hproc⟩
  · rw [hconn, ← hk, hreqs, List.length_append, List.length_append]
    rfl
  · rw [hfs, List.append_assoc, List.append_assoc]
    rfl

theorem last_ready (hat : AtFields room k h [f] st) (hf : f.Plain) (hi : i < k)
    (hlen : (f.text ++ crlf).length ≤ room) :
    ∃ st' r, readStep st (some i, f.text ++ crlf) = some st' ∧ AtStart room k st' ∧
      st'.processed = st.processed ++ [r] ∧ Served h.line h.fields r := by
  obtain ⟨hR, hk, got, reqs, r, n, hfs, hreqs, hmk, hpsr⟩ := hat
  obtain ⟨r', hcb, hmk'⟩ := onField_making (some i) hR.clean hreqs hmk hf
  have hc := hR.clean.last hreqs hmk'.cntlen
  have hsame : (reqs ++ [r']).length = k := by
    rw [← hk, hreqs, List.length_append, List.length_append]
    rfl
  have hserved := hmk'.served
  rw [← hfs] at hserved
  obtain ⟨c, r'', hdone, hc', hl, hlast, hserved'⟩ :=
    onHdrDone_making hc rfl hserved (hi.trans_eq hsame.symm) (.req reqs.length)
  obtain ⟨st', hstep, hR', hconn, hpsr', hproc⟩ := readStep_done hR (by simp [f.text_ne_nil]) hlen
    (by rw [hpsr]; exact consumes_last hcb hdone) hc' hlast
  exact ⟨st', r'', hstep, ⟨hR', by rw [hconn, hl]; exact hsame, _, hpsr'⟩, hproc, hserved'⟩

theorem lastCr_ready (hat : AtFields room k h [f] st) (hf : f.Plain)
    (hlen : (f.text ++ [CR]).length ≤ room) :
    ∃ st', readStep st (junk, f.text ++ [CR]) = some st' ∧ AtLf room h st' ∧
      st'.processed = st.processed := by
  obtain ⟨hR, -, got, reqs, r, n, hfs, hreqs, hmk, hpsr⟩ := hat
  obtain ⟨r', hcb, hmk'⟩ := onField_making junk hR.clean hreqs hmk hf
  obtain ⟨st', hstep, hR', hconn, hpsr', hproc⟩ := readStep_again hR (by simp [f.text_ne_nil]) hlen
    (by rw [hpsr]; exact consumes_lastCr hcb) (hR.clean.last hreqs hmk'.cntlen)
  have hserved := hmk'.served
  rw [← hfs] at hserved
  exact ⟨st', hstep, ⟨hR', r', _, _, by rw [hconn, List.getLast?_concat], hserved, hpsr'⟩, hproc⟩

theorem lf_ready (hat : AtLf room h st) (hlen : [LF].length ≤ room) :
    ∃ st' r, readStep st (junk, [LF]) = some st' ∧ st'.processed = st.processed ++ [r] ∧
      Served h.line h.fields r := by
  obtain ⟨hR, r, n, d, hlast, hserved, hpsr⟩ := hat
  have hc : Consumes (connHooks junk) st.hc_psr [LF] st.conn .done .hdrDone d st.conn := by
    rw [hpsr]
    exact consumes_lf
  obtain ⟨st', hstep, -, -, -, hproc⟩ := readStep_done hR (by simp) hlen hc hR.clean hlast
  exact ⟨st', r, hstep, hproc, hserved⟩

/-- The step lemma: a move is made, and the heads it completes are dispatched. -/
theorem readStep_move {p p' : Place} {a : Option ℕ × Bytes} {hs : List Head} (hm : Move p a hs p')
    (hat : At room p st) (hlen : a.2.length ≤ room) :
    ∃ st' rs, readStep st a = some st' ∧ At room p' st' ∧ st'.processed = st.processed ++ rs ∧
      List.Forall₂ (fun h r => Served h.line h.fields r) hs rs := by
  cases hm with
  | line h hs k j =>
    obtain ⟨st', hstep, hat', hproc⟩ := line_ready hat hlen
    exact ⟨st', [], hstep, hat', by rw [hproc, List.append_nil], .nil⟩
  | lineField h hs k j hf hfs _ =>
    obtain ⟨st', hstep, hat', hproc⟩ := lineField_ready hat hf hfs hlen
    exact ⟨st', [], hstep, hat', by rw [hproc, List.append_nil], .nil⟩
  | field h hs k j hf _ =>
    obtain ⟨st', hstep, hat', hproc⟩ := field_ready hat hf hlen
    exact ⟨st', [], hstep, hat', by rw [hproc, List.append_nil], .nil⟩
  | twoFields h hs k j hf hg _ =>
    obtain ⟨st', hstep, hat', hproc⟩ := twoFields_ready hat hf hg hlen
    exact ⟨st', [], hstep, hat', by rw [hproc, List.append_nil], .nil⟩
  | last h hs k hf hi =>
    obtain ⟨st', r, hstep, hat', hproc, hserved⟩ := last_ready hat hf hi hlen
    exact ⟨st', [r], hstep, hat', hproc, .cons hserved .nil⟩
  | lastCr h k j hf =>
    obtain ⟨st', hstep, hat', hproc⟩ := lastCr_ready hat hf hlen
    exact ⟨st', [], hstep, hat', by rw [hproc, List.append_nil], .nil⟩
  | lastLf h j =>
    obtain ⟨st', r, hstep, hproc, hserved⟩ := lf_ready hat hlen
    exact ⟨st', [r], hstep, trivial, hproc, .cons hserved .nil⟩

end Moves

section Arrived

/-- The heads still to be completed, each with the number of its bytes still to come. -/
def ahead : Place → List (ℕ × Head)
  | .start hs _ => hs.map fun h => (h.text.length, h)
  | .fields h rest hs _ =>
    ((fieldsText rest ++ crlf).length, h) :: hs.map fun h => (h.text.length, h)
  | .lf h => [(1, h)]
  | .ended => []

/-- Those of them that `n` bytes complete. -/
def arrived : List (ℕ × Head) → ℕ → List Head
  | [], _ => []
  | x :: l, n => if x.1 ≤ n then x.2 :: arrived l (n - x.1) else []

theorem complete_eq (hs : List Head) (n : ℕ) :
    complete hs n = arrived (hs.map fun h => (h.text.length, h)) n := by
  induction hs generalizing n with
  | nil => rfl
  | cons h hs ih => rw [complete, List.map_cons, arrived, ih]

theorem arrived_skip (m : ℕ) (h : Head) (l : List (ℕ × Head)) (j n : ℕ) :
    arrived ((j + m, h) :: l) (j + n) = arrived ((m, h) :: l) n := by
  simp only [arrived, Nat.add_le_add_iff_left, Nat.add_sub_add_left]

theorem arrived_take (h : Head) (l : List (ℕ × Head)) (m n : ℕ) :
    arrived ((m, h) :: l) (m + n) = h :: arrived l n := by
  rw [arrived, if_pos (Nat.le_add_right m n), Nat.add_sub_cancel_left]

theorem arrived_zero (p : Place) : arrived (ahead p) 0 = [] := by
  have htext : ∀ h : Head, ¬ h.text.length ≤ 0 := by
    intro h
    simp [Head.text, crlf]
  cases p with
  | start hs k =>
    cases hs with
    | nil => rfl
    | cons h hs => rw [ahead, List.map_cons, arrived, if_neg (htext h)]
  | fields h rest hs k => rw [ahead, arrived, if_neg (by simp [crlf])]
  | lf h => rfl
  | ended => rfl

theorem arrived_move {p p' : Place} {a : Option ℕ × Bytes} {hs : List Head} (hm : Move p a hs p')
    (n : ℕ) :
    arrived (ahead p) (a.2.length + n) = hs ++ arrived (ahead p') n := by
  cases hm with
  | line h hs k j =>
    rw [ahead, List.map_cons, Head.text, List.append_assoc, List.length_append, arrived_skip]
    rfl
  | lineField h hs k j hf hfs _ =>
    rw [ahead, List.map_cons, Head.text, hfs, fieldsText_cons, ← List.append_assoc,
      List.append_assoc, List.length_append, arrived_skip]
    rfl
  | field h hs k j hf _ =>
    rw [ahead, fieldsText_cons, List.append_assoc, List.length_append, arrived_skip]
    rfl
  | twoFields h hs k j hf hg _ =>
    rw [ahead, fieldsText_cons, fieldsText_cons, ← List.append_assoc, List.append_assoc,
      List.length_append, arrived_skip]
    rfl
  | @last h hs k f i hf hi =>
    show arrived (((fieldsText [f] ++ crlf).length, h) :: ahead (.start hs k)) _ = _
    rw [fieldsText_cons, fieldsText_nil, List.append_nil, arrived_take]
    rfl
  | @lastCr h k j f hf =>
    show arrived (((fieldsText [f] ++ crlf).length, h) :: []) _ = _
    rw [fieldsText_cons, fieldsText_nil, List.append_nil,
      show f.text ++ crlf = f.text ++ [CR] ++ [LF] by
      simp [crlf], List.length_append, arrived_skip]
    rfl
  | lastLf h j => exact arrived_take h [] 1 n

/-- The run lemma: along reads that are all moves, the requests dispatched are those completed. -/
theorem run_aligned {room : ℕ} {p : Place} {reads pre : List (Option ℕ × Bytes)} {st : ConnState}
    (hal : Aligned p reads) (hfit : ∀ a ∈ reads, a.2.length ≤ room) (hat : At room p st)
    (hpre : pre <+: reads) :
    ∃ st' rs, run readStep st pre = some st' ∧ st'.processed = st.processed ++ rs ∧
      List.Forall₂ (fun h r => Served h.line h.fields r) (arrived (ahead p) (size pre)) rs := by
  induction hal generalizing st pre with
  | done k =>
    obtain rfl := List.prefix_nil.1 hpre
    exact ⟨st, [], rfl, (List.append_nil _).symm, .nil⟩
  | ended =>
    obtain rfl := List.prefix_nil.1 hpre
    exact ⟨st, [], rfl, (List.append_nil _).symm, .nil⟩
  | @read p p' a hs reads hm hal ih =>
    cases pre with
    | nil =>
      refine ⟨st, [], rfl, (List.append_nil _).symm, ?_⟩
      rw [show size [] = 0 from rfl, arrived_zero]
      exact .nil
    | cons x pre =>
      obtain ⟨rfl, hrest⟩ := List.cons_prefix_cons.1 hpre
      obtain ⟨st₁, rs₁, hstep, hat', hproc₁, hserved₁⟩ :=
        readStep_move hm hat (hfit x List.mem_cons_self)
      obtain ⟨st₂, rs₂, hrun, hproc₂, hserved₂⟩ :=
        ih (fun a ha => hfit a (List.mem_cons_of_mem x ha)) hat' hrest
      refine ⟨st₂, rs₁ ++ rs₂, ?_, ?_, ?_⟩
      · rw [run, hstep]
        exact hrun
      · rw [hproc₂, hproc₁, List.append_assoc]
      · have hsize : size (x :: pre) = x.2.length + size pre := by
          rw [size, List.map_cons, List.sum_cons, size]
        rw [hsize, arrived_move hm]
        exact List.rel_append hserved₁ hserved₂

end Arrived

/-- Reads that are cut where the code copes with it dispatch every request of the stream, once
and in order. -/
theorem dispatches_of_aligned (hs : List Head) (buf : Bytes) (reads : List (Option ℕ × Bytes))
    (hfit : ∀ a ∈ reads, a.2.length ≤ buf.length) (hal : Aligned (.start hs 0) reads) :
    Dispatches hs buf reads := by
  intro pre hpre
  have hat : At buf.length (.start hs 0) (accepted [] buf).st :=
    ⟨⟨rfl, rfl, rfl, ⟨rfl, rfl, by simp [accepted]⟩⟩, rfl, 0, rfl⟩
  obtain ⟨st, rs, hrun, hproc, hserved⟩ := run_aligned hal hfit hat hpre
  refine ⟨st, hrun, ?_⟩
  rw [hproc, complete_eq]
  exact hserved

def cookieField : Field :=
  ⟨ascii "Cookie", 1, ascii "b", by decide, by decide, by decide, by decide⟩

def twoHead : Head := ⟨getRoot, [hostField, cookieField], by simp⟩

def rootHead : Head := ⟨getRoot, [hostField], by simp⟩

theorem hostField_plain : hostField.Plain := ⟨by decide, by decide, by decide⟩

theorem cookieField_plain : cookieField.Plain := ⟨by decide, by decide, by decide⟩

def goodReads : List (Option ℕ × Bytes) :=
  [(none, getRoot.text ++ hostField.text), (some 0, cookieField.text ++ crlf), (none, getRoot.text),
    (none, hostField.text ++ [CR]), (none, [LF])]

theorem dispatches_of_aligned_two :
    Dispatches [twoHead, rootHead] (List.replicate 64 0) goodReads := by
  apply dispatches_of_aligned
  · decide
  · apply Aligned.read (Move.lineField twoHead [rootHead] 0 none hostField_plain rfl (by simp))
    apply Aligned.read (Move.last twoHead [rootHead] 1 cookieField_plain Nat.zero_lt_one)
    apply Aligned.read (Move.line rootHead [] 1 none)
    apply Aligned.read (Move.lastCr rootHead 2 none hostField_plain)
    apply Aligned.read (Move.lastLf rootHead none)
    exact Aligned.ended

/-- One read of the shortest head dispatches nothing. -/
theorem not_dispatches : ¬ ∀ (hs : List Head) (buf : Bytes) (reads : List (Option ℕ × Bytes)),
    (∀ h ∈ hs, h.Bodyless) → (∀ a ∈ reads, a.2 ≠ []) → (reads.map Prod.snd).flatten = stream hs →
    (∀ a ∈ reads, a.2.length ≤ buf.length) → Dispatches hs buf reads := by
  intro h
  have hd := h [rootHead] (List.replicate 64 0) [(some 0, rootHead.text)] (by
    intro h hh
    obtain rfl := List.mem_singleton.1 hh
    intro f hf
    obtain rfl := List.mem_singleton.1 hf
    decide) (by decide) rfl (by decide) _ (List.prefix_refl _)
  obtain ⟨st, hrun, hserved⟩ := hd
  have hnone : (run readStep (accepted [] (List.replicate 64 0)).st [(some 0, rootHead.text)]).map
      (·.processed) = some [] := by decide
  rw [hrun] at hnone
  obtain hproc : st.processed = [] := Option.some.inj hnone
  rw [hproc] at hserved
  have hlen := hserved.length_eq
  exact absurd hlen (by decide)

end Plume.Http
