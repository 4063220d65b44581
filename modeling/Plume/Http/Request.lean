import Plume.Hash
import Plume.Http.Url

/-! The connection side of `plm_http_request.c`: the callbacks that build a request
from what the parser reports, and the read handler that feeds the parser. -/

namespace Plume.Http
open CLib

/-- The next outcome of `plm_mempool_alloc`, from a list of outcomes after whose end
every allocation succeeds. -/
def palloc : List Bool → Bool × List Bool
  | [] => (true, [])
  | b :: mem => (b, mem)

@[simp] theorem palloc_nil : palloc [] = (true, []) := rfl

/-- `struct plm_http_req`, without the members nothing here reads. -/
structure Req where
  hr_mthd : Mthd
  hr_ver : Ver
  hr_url : PStr
  hr_fields : Hash PStr PStr
  hr_cntlen : ℕ
  hr_host : PStr
  hr_port : ℕ
  hr_hdr_kpalv_on : Bool
deriving DecidableEq, Repr

/-- The first byte of a string; behind an empty name stands the NUL written over its ':'. -/
def firstByte (s : PStr) : UInt8 := s.s_str.headD 0

/-- `plm_http_field_key`: the `char` is converted to `uint32_t` before the division. -/
def httpFieldKey (v : PStr) (max : ℕ) : ℕ := ((toChar (firstByte v)) % 2 ^ 32).toNat % max

/-- `hr_port = plm_str2s(port)`, from a `short` to a `uint16_t` -/
def portOf (port : PStr) : ℕ := ((str2s port) % 2 ^ 16).toNat

def reqOfLine (mthd : Mthd) (ver : Ver) (hr_url : PStr) (mem : List Bool) :
    Except Fault (Req × List Bool) := do
  let (_, u) ← httpParserUrl hr_url
  let (hr_host, mem) :=
    if u.hu_host.s_len > 0 then
      let (a, mem) := palloc mem
      (strzassign a (.ofBytes []) u.hu_host.s_str u.hu_host.s_len, mem)
    else (.ofBytes [], mem)
  let hr_port := if u.hu_port.s_len > 0 then portOf u.hu_port else 0
  let (a, mem) := palloc mem
  return (⟨mthd, ver, hr_url, hashInit a 26, 0, hr_host, hr_port, false⟩, mem)

def cs : PStr := .lit "Connection"
def kps : PStr := .lit "keep-alive"
def pcs : PStr := .lit "Proxy-Connection"
def cl : PStr := .lit "Content-Length"

def fieldSwitch (k v : PStr) (r : Req) (mem : List Bool) : Except Fault (PStr × Req × List Bool) :=
  do
  let c := firstByte k
  if c = 67 ∨ c = 99 then
    let isCl : Except Fault (PStr × Req × List Bool) := do
      if (← strcasecmp k cl) =
        0 then return (k, { r with hr_cntlen := (str2ll v % 2 ^ 64).toNat }, mem)
      else return (k, r, mem)
    if (← strcasecmp k cs) = 0 then
      if (← strcasecmp v kps) = 0 then return (k, { r with hr_hdr_kpalv_on := true }, mem) else isCl
    else isCl
  else if c = 80 ∨ c = 112 then
    if (← strcasecmp k pcs) = 0 then
      if (← strcasecmp v kps) ≠ 0 then return (cs, { r with hr_hdr_kpalv_on := true }, mem)
      else return (cs, r, mem)
    else return (k, r, mem)
  else if c = 72 ∨ c = 104 then
    if r.hr_host.s_len = 0 then
      match ← memchr v.s_str 0 COLON (sizeT v.s_len) with
      | some c =>
        let port : PStr := ⟨v.s_str.drop (c + 1), v.s_len - (c + 1)⟩
        let (a, mem) := palloc mem
        return (k, { r with
          hr_port := portOf port
          hr_host := strzassign a r.hr_host v.s_str (v.s_len - port.s_len - 1) }, mem)
      | none =>
        let (a, mem) := palloc mem
        return (k, { r with hr_host := strzassign a r.hr_host v.s_str v.s_len }, mem)
    else return (k, r, mem)
  else return (k, r, mem)

def httpOnField (k v : PStr) (r : Req) (mem : List Bool) : Except Fault (ℤ × Req × List Bool) := do
  let (k, r, mem) ← fieldSwitch k v r mem
  let (a, mem) := palloc mem
  let (b, mem) := palloc mem
  match strzalloc a k, strzalloc b v with
  | some nk, some nv =>
    let (a, mem) := palloc mem
    if a then return (0, { r with hr_fields := ← hashInsert httpFieldKey r.hr_fields nk nv }, mem)
    else return (-1, r, mem)
  | _, _ => return (-1, r, mem)

inductive UserData
  | conn
  | req (i : ℕ)
deriving DecidableEq, Repr

structure Conn where
  /-- every request allocated, the first one first; the front of the list is the last -/
  hc_reqs : List Req
  /-- the request whose body the bytes to come belong to -/
  hc_body : Option ℕ
  mem : List Bool
deriving DecidableEq, Repr

def httpOnReqline (mthd : Mthd) (url : PStr) (ver : Ver) (data : UserData) (c : Conn) :
    Except Fault (ℤ × UserData × Conn) := do
  if data ≠ .conn then .error .wild
  else
    let (a, mem) := palloc c.mem
    if !a then return (-1, data, { c with mem := mem })
    else
      let (a, mem) := palloc mem
      if !a then return (-1, data, { c with mem := mem })
      else
        let (r, mem) ← reqOfLine mthd ver (strzassign a (.ofBytes []) url.s_str url.s_len) mem
        return (0, .req c.hc_reqs.length, { c with hc_reqs := c.hc_reqs ++ [r], mem := mem })

def httpOnFieldData (k v : PStr) (data : UserData) (c : Conn) : Except Fault (ℤ × Conn) :=
  match data with
  | .conn => .error .wild
  | .req i =>
    match c.hc_reqs[i]? with
    | none => .error .wild
    | some r => do
      let (rc, r, mem) ← httpOnField k v r c.mem
      return (rc, { c with hc_reqs := c.hc_reqs.set i r, mem := mem })

/-- `plm_http_on_hdr_done`, which never sets its local `r`: `junk` is the request of the
connection that the pointer happens to designate, `none` when it designates no such request. -/
def httpOnHdrDone (junk : Option ℕ) (_data : UserData) (c : Conn) :
    Except Fault (Option UserData × Conn) :=
  match junk with
  | none => .error .wild
  | some i =>
    match c.hc_reqs[i]? with
    | none => .error .wild
    | some r =>
      let r := if r.hr_port = 0 then { r with hr_port := 80 } else r
      .ok (some .conn, { c with
        hc_reqs := c.hc_reqs.set i r
        hc_body := if r.hr_cntlen > 0 then some i else c.hc_body })

/-- The callbacks of `plm_http_conn_alloc`; `hp_on_status_line` is `NULL` there. -/
def connHooks (junk : Option ℕ) : Hooks UserData Conn where
  hp_on_req_line := httpOnReqline
  hp_on_status_line _ _ _ data c := .ok (0, data, c)
  hp_on_field := httpOnFieldData
  hp_on_hdr_done := httpOnHdrDone junk

/-- A connection with its input buffer and parser, and what its reads led to. -/
structure ConnState where
  conn : Conn
  hc_psr : Parser UserData
  hc_data : Bytes
  hc_offset : ℕ
  hc_eof : Bool
  hc_badreq : Bool
  /-- a read event is posted -/
  reading : Bool
  /-- the calls of `plm_http_req_process`, with the request as it was -/
  processed : List Req
  closed : Bool
deriving DecidableEq, Repr

/-- What `plm_comm_read` returns; `ignore` is the verdict of `plm_comm_ignore`. -/
inductive ReadResult
  | data (b : Bytes)
  | eof
  | error (ignore : Bool)
deriving DecidableEq, Repr

/-- `plm_http_read_req`. The parser is given as many bytes from the start of the buffer
as were read, wherever in the buffer they went. -/
def httpReadReq (junk : Option ℕ) (res : ReadResult) (st : ConnState) : Except Fault ConnState := do
  let st := { st with reading := false }
  match res with
  | .error ignore =>
    return if ignore then { st with reading := true } else { st with closed := true }
  | .eof =>
    return if st.conn.hc_reqs = [] then { st with closed := true } else { st with hc_eof := true }
  | .data b =>
    let n := b.length
    let hc_data := st.hc_data.take st.hc_offset ++ b ++ st.hc_data.drop (st.hc_offset + n)
    if st.conn.hc_body.isSome then return { st with hc_data := hc_data }
    else
      let r ← httpParserReq (connHooks junk) st.hc_psr ⟨hc_data.take n, 0, false⟩ st.conn
      let hc_data := r.s.buf ++ hc_data.drop n
      let st := { st with hc_data := hc_data, hc_psr := r.psr, conn := r.own }
      if r.rc = .error then return { st with hc_badreq := true }
      else
        let parsed := r.psr.hp_parsed
        let hc_offset := sizeT (n - parsed)
        let st := { st with hc_offset := hc_offset }
        let st ←
          if hc_offset = 0 then pure st
          else if parsed + hc_offset ≤ hc_data.length then
            pure { st with hc_data := slice hc_data parsed hc_offset ++ hc_data.drop hc_offset }
          else .error .bounds
        if r.rc = .done then
          match st.conn.hc_reqs.getLast? with
          | none => .error .wild
          | some req => return { st with processed := st.processed ++ [req], reading := true }
        else return { st with reading := true }

section Read

variable {junk : Option ℕ} {res : ReadResult} {st st' : ConnState} {b : Bytes}
  {r : Step UserData Conn}

def held (st : ConnState) (b : Bytes) : Bytes :=
  (st.hc_data.take st.hc_offset ++ b ++ st.hc_data.drop (st.hc_offset + b.length)).drop b.length

/-- The bytes given to the parser: the first of the buffer, as many as were read. -/
def given (st : ConnState) (b : Bytes) : Bytes :=
  (st.hc_data.take st.hc_offset ++ b ++ st.hc_data.drop (st.hc_offset + b.length)).take b.length

/-- The end of `plm_http_read_req`, behind a parse that found no error. -/
def dispatch (rc : Rc) (st : ConnState) : Except Fault ConnState :=
  if rc = .done then
    match st.conn.hc_reqs.getLast? with
    | none => .error .wild
    | some req => .ok { st with processed := st.processed ++ [req], reading := true }
  else .ok { st with reading := true }

theorem httpReadReq_eq (hbody : st.conn.hc_body = none)
    (hr : httpParserReq (connHooks junk) st.hc_psr ⟨given st b, 0, false⟩ st.conn = .ok r) :
    httpReadReq junk (.data b) st =
      let data := r.s.buf ++ held st b
      let off := sizeT (b.length - r.psr.hp_parsed)
      if r.rc = .error then .ok { st with
        conn := r.own, hc_psr := r.psr, hc_data := data, hc_badreq := true, reading := false }
      else if off ≠ 0 ∧ data.length < r.psr.hp_parsed + off then .error .bounds
      else dispatch r.rc { st with
        conn := r.own, hc_psr := r.psr, hc_data := slice data r.psr.hp_parsed off ++ data.drop off
        hc_offset := off } := by
  unfold given at hr
  unfold httpReadReq held
  dsimp only
  rw [if_neg (by simp [hbody]), hr, ok_bind]
  by_cases he : r.rc = .error
  · rw [if_pos he, if_pos he]
    rfl
  rw [if_neg he, if_neg he]
  generalize sizeT (b.length - r.psr.hp_parsed) = off
  by_cases h0 : off = 0
  · subst h0
    rw [if_pos rfl, if_neg (by simp)]
    rfl
  rw [if_neg h0]
  by_cases hlen : r.psr.hp_parsed + off ≤ (r.s.buf ++ (st.hc_data.take st.hc_offset ++ b ++
      st.hc_data.drop (st.hc_offset + b.length)).drop b.length).length
  · rw [if_pos hlen, if_neg (by omega)]
    rfl
  · rw [if_neg hlen, if_pos ⟨h0, by omega⟩]
    rfl

theorem dispatch_ok {rc : Rc} (h : dispatch rc st = .ok st') :
    ∃ processed, st' = { st with processed := processed, reading := true } := by
  unfold dispatch at h
  by_cases hd : rc = .done
  · rw [if_pos hd] at h
    cases hl : st.conn.hc_reqs.getLast? with
    | none => rw [hl] at h; cases h
    | some req =>
      rw [hl] at h
      cases h
      exact ⟨_, rfl⟩
  · rw [if_neg hd] at h
    cases h
    exact ⟨st.processed, rfl⟩

/-- A read that gives its bytes to the parser leaves what the parser left. -/
theorem httpReadReq_parsed (hbody : st.conn.hc_body = none)
    (hr : httpParserReq (connHooks junk) st.hc_psr ⟨given st b, 0, false⟩ st.conn = .ok r)
    (h : httpReadReq junk (.data b) st = .ok st') : st'.conn = r.own ∧ st'.hc_psr = r.psr := by
  rw [httpReadReq_eq hbody hr] at h
  dsimp only at h
  split_ifs at h
  · cases h
    exact ⟨rfl, rfl⟩
  · obtain ⟨processed, rfl⟩ := dispatch_ok h
    exact ⟨rfl, rfl⟩

/-- A read that gives nothing to the parser leaves it, the requests and the place to read to as
they are, and at most adds its bytes to those read before. -/
theorem httpReadReq_unparsed (hres : ∀ b, res = .data b → st.conn.hc_body ≠ none)
    (h : httpReadReq junk res st = .ok st') :
    st'.conn = st.conn ∧ st'.hc_psr = st.hc_psr ∧ st'.hc_offset = st.hc_offset ∧
      (st'.hc_data = st.hc_data ∨ ∃ b, res = .data b ∧ st'.hc_data =
        st.hc_data.take st.hc_offset ++ b ++ st.hc_data.drop (st.hc_offset + b.length)) := by
  unfold httpReadReq at h
  cases res with
  | error ignore => cases ignore <;> cases h <;> exact ⟨rfl, rfl, rfl, .inl rfl⟩
  | eof =>
    dsimp only at h
    split_ifs at h <;> cases h <;> exact ⟨rfl, rfl, rfl, .inl rfl⟩
  | data b =>
    dsimp only at h
    rw [if_pos (Option.isSome_iff_ne_none.2 (hres b rfl))] at h
    cases h
    exact ⟨rfl, rfl, rfl, .inr ⟨b, rfl, rfl⟩⟩

theorem httpReadReq_frame (hres : ∀ b, res = .data b → st.conn.hc_body ≠ none)
    (h : httpReadReq junk res st = .ok st') : st'.conn = st.conn ∧ st'.hc_psr = st.hc_psr :=
  have hframe := httpReadReq_unparsed hres h
  ⟨hframe.1, hframe.2.1⟩

end Read

end Plume.Http
