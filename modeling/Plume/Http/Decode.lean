import Plume.Http.Message

/-! Decoding a whole head in one call. The field loop moves its cursor by all the
bytes parsed since the start of the call, so every field skips the length of the
request line once more, and no head is decoded. -/

namespace Plume.Http
open CLib

inductive Call
  | reqLine (mthd : Mthd) (url : PStr) (ver : Ver)
  | statusLine (ver : Ver) (code : ℤ) (desc : PStr)
  | field (key value : PStr)
  | hdrDone
deriving DecidableEq, Repr

/-- Callbacks that return zero and only write down that they were called. -/
def record : Hooks Unit (List Call) where
  hp_on_req_line m u v d log := .ok (0, d, log ++ [.reqLine m u v])
  hp_on_status_line v c r d log := .ok (0, d, log ++ [.statusLine v c r])
  hp_on_field k v _ log := .ok (0, log ++ [.field k v])
  hp_on_hdr_done _ log := .ok (none, log ++ [.hdrDone])

def fresh : Parser Unit := ⟨.none, 0, ()⟩

def whole (b : Bytes) : Input := ⟨b, 0, false⟩

/-- The head of a request as `plm_strappend_field` writes its fields. -/
def encodeHead (l : ReqLine) (fs : List Field) : Bytes :=
  (fs.foldl (fun s f => strappendField true s (.ofBytes f.name) (.ofBytes f.value))
    (.ofBytes l.text)).s_str ++ crlf

/-- One call on the whole head reports the request line, every field and the end of the
head, once each and in order, and consumes exactly the head. -/
def DecodesHead (l : ReqLine) (fs : List Field) : Prop :=
  ∃ st s, httpParserReq record fresh (whole (encodeHead l fs)) [] =
    .ok ⟨.done, ⟨st, (encodeHead l fs).length, ()⟩, s,
      .reqLine l.mthd (.ofBytes l.url) l.ver.ver ::
        (fs.map fun f => .field (.ofBytes f.name) (.ofBytes f.value)) ++ [.hdrDone]⟩

/-- Bytes the loop needs for the fields `cs` when every line moves its cursor `P` bytes too far. -/
def cost (P : ℕ) (cs : List (PStr × PStr)) : ℕ :=
  (cs.map fun c => c.1.s_str.length + c.2.s_str.length + 3 + P).sum

theorem fieldLoop_record_done {fuel P : ℕ} {psr : Parser Unit} {s : Input} {log : List Call}
    {r : Step Unit (List Call)} (h : httpParserFieldLoop record fuel psr s log = .ok r)
    (hr : r.rc = .done) (hP : P ≤ psr.hp_parsed) :
    ∃ cs, r.own = log ++ (cs.map fun c => .field c.1 c.2) ++ [.hdrDone] ∧
      ((∃ c ∈ cs, c.2.s_len < 0) ∨ s.pos + cost P cs + 2 ≤ s.buf.length) := by
  induction fuel generalizing psr s log with
  | zero => simp [httpParserFieldLoop] at h
  | succ fuel ih =>
    obtain ⟨f, hf⟩ | ⟨rc, s', hs, hrc, -⟩ | ⟨key, value, n, s', hn, hle, hpos, hlen, hval, hs⟩ :=
      fieldLoop_cases record fuel psr s log
    · simp [hf] at h
    · rw [hs] at h
      obtain rfl := Except.ok.inj h
      exact absurd hr hrc
    rw [hs] at h
    simp only [record, ok_bind, ne_eq, not_true_eq_false, if_false, fieldNext_eq, hpos] at h
    -- a value read with a negative length, or the bytes of this round
    have hcost : ∀ cs : List (PStr × PStr), s.pos +
      (psr.hp_parsed + n) + cost P cs + 2 ≤ s.buf.length →
        value.s_len < 0 ∨ s.pos + cost P ((.ofBytes key, value) :: cs) + 2 ≤ s.buf.length := by
      intro cs hcs
      refine hval.imp And.left ?_
      rintro ⟨-, v, rfl, hv⟩
      simp only [cost, List.map_cons, List.sum_cons, PStr.ofBytes_str] at hcs ⊢
      omega
    cases hd : s'.buf.drop (s.pos + (psr.hp_parsed + n)) with
    | nil =>
      simp only [hd] at h
      obtain rfl := Except.ok.inj h
      cases hr
    | cons x t =>
      have hlen' := congrArg List.length hd
      simp only [List.length_drop, hlen, List.length_cons] at hlen'
      simp only [hd] at h
      by_cases hx : x = CR
      case neg =>
        rw [if_pos hx] at h
        obtain ⟨cs, hown, hcs⟩ := ih h (Nat.le_add_right_of_le hP)
        refine ⟨(.ofBytes key, value) :: cs, by simp [hown], ?_⟩
        rcases hcs with ⟨c, hc, hneg⟩ | hcs
        · exact .inl ⟨c, List.mem_cons_of_mem _ hc, hneg⟩
        · simp only [hlen] at hcs
          exact (hcost cs hcs).imp_left fun hneg => ⟨_, List.mem_cons_self, hneg⟩
      rw [if_neg (not_not.2 hx)] at h
      split_ifs at h with hlf
      · simp only [pure_ok] at h
        obtain rfl := Except.ok.inj h
        refine ⟨[(.ofBytes key, value)], by simp, ?_⟩
        have ht : 1 ≤ t.length := by
          cases t with
          | nil => simp at hlf
          | cons y t => simp
        exact (hcost [] (by simp only [cost, List.map_nil, List.sum_nil]; omega)).imp_left
          fun hneg => ⟨_, List.mem_cons_self, hneg⟩
      · obtain rfl := Except.ok.inj h
        cases hr

theorem encodeHead_length (l : ReqLine) (fs : List Field) :
    (encodeHead l fs).length =
      l.text.length + (fs.map fun f => f.name.length + f.value.length + 4).sum + 2 := by
  have h : ∀ b : Bytes, (fs.foldl (fun s f => strappendField true s (.ofBytes f.name)
      (.ofBytes f.value)) (.ofBytes b)).s_str.length =
        b.length + (fs.map fun f => f.name.length + f.value.length + 4).sum := by
    induction fs with
    | nil => simp
    | cons f fs ih =>
      intro b
      rw [List.foldl_cons, strappendField_true, ih]
      simp
      omega
  rw [encodeHead, List.length_append, h]
  rfl

theorem encodeHead_prefix (l : ReqLine) (fs : List Field) :
    ∃ post, encodeHead l fs = l.text ++ post := by
  have h : ∀ b : Bytes, ∃ t, (fs.foldl (fun s f => strappendField true s (.ofBytes f.name)
      (.ofBytes f.value)) (.ofBytes b)).s_str = b ++ t := by
    induction fs with
    | nil => exact fun b => ⟨[], by simp⟩
    | cons f fs ih =>
      intro b
      obtain ⟨t, ht⟩ := ih (b ++ f.name ++ [58, 32] ++ f.value ++ [13, 10])
      refine ⟨f.name ++ [58, 32] ++ f.value ++ [13, 10] ++ t, ?_⟩
      rw [List.foldl_cons, strappendField_true, ht]
      simp
  obtain ⟨t, ht⟩ := h l.text
  exact ⟨t ++ crlf, by rw [encodeHead, ht, List.append_assoc]⟩

theorem cost_fields (P : ℕ) (fs : List Field) :
    cost P (fs.map fun f => (.ofBytes f.name, .ofBytes f.value)) + fs.length =
      (fs.map fun f => f.name.length + f.value.length + 4).sum + fs.length * P := by
  induction fs with
  | nil => simp [cost]
  | cons f fs ih =>
    simp only [cost, List.map_cons, List.sum_cons, List.length_cons, PStr.ofBytes_str] at ih ⊢
    rw [Nat.add_mul]
    omega

/-- No head is decoded by one call. -/
theorem not_decodesHead (l : ReqLine) (f : Field) (fs : List Field) :
    ¬ DecodesHead l (f :: fs) := by
  rintro ⟨st, s, h⟩
  obtain ⟨post, hpost⟩ := encodeHead_prefix l (f :: fs)
  obtain ⟨pre, hpre, hline⟩ := reqLine_text record { fresh with hp_parsed := 0 } [] [] (l := l)
    (s := whole (encodeHead l (f :: fs))) hpost rfl
  rw [httpParserReq, httpParser_first rfl hline] at h
  simp only [record, ok_bind, ne_eq, not_true_eq_false, if_false] at h
  split_ifs at h with hlen
  · rw [httpParserField] at h
    obtain ⟨cs, hown, hcs⟩ := fieldLoop_record_done h rfl le_rfl
    obtain rfl : cs = (f :: fs).map fun f => (.ofBytes f.name, .ofBytes f.value) := by
      have hinj : Function.Injective fun c : PStr × PStr => Call.field c.1 c.2 := by
        rintro ⟨k, v⟩ ⟨k', v'⟩ hkv
        simpa using hkv
      rw [List.nil_append, List.singleton_append, List.cons_append, List.cons_append,
        List.cons.injEq, List.append_cancel_right_eq] at hown
      refine List.map_injective_iff.2 hinj ?_
      rw [← hown.2, List.map_map]
      rfl
    rcases hcs with ⟨c, hc, hneg⟩ | hcs
    · obtain ⟨g, -, rfl⟩ := List.mem_map.1 hc
      exact absurd hneg (by simp)
    · have htot := encodeHead_length l (f :: fs)
      have hcost := cost_fields l.text.length (f :: fs)
      have hL : 2 ≤ l.text.length := by simp [ReqLine.text, crlf]
      have hmul := Nat.mul_le_mul_left (f :: fs).length hL
      have hbuf : (pre ++ post).length = l.text.length + post.length := by simp [hpre]
      have hall : (encodeHead l (f :: fs)).length = l.text.length + post.length := by simp [hpost]
      simp only [hbuf, hpre, List.length_nil, List.length_cons] at hcs hcost hmul
      omega
  · simp at h

def getRoot : ReqLine :=
  ⟨.get, ascii "/", .v11, by decide, by decide⟩

def hostField : Field :=
  ⟨ascii "Host", 1, ascii "a", by decide, by decide, by decide, by decide⟩

theorem decodesHead_false : ¬ ∀ l : ReqLine, ∀ fs : List Field, fs ≠ [] → DecodesHead l fs := by
  intro h
  obtain ⟨st, s, h⟩ := h getRoot [hostField] (by simp)
  have hrc : (httpParserReq record fresh (whole (encodeHead getRoot [hostField])) []).map (·.rc) =
      .ok .again := by decide
  rw [h] at hrc
  cases hrc

end Plume.Http
