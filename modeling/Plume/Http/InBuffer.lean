import Plume.Buffer
import Plume.CLib.Run
import Plume.Http.Parsed
import Plume.Http.Protocol

/-! The input buffer of a connection over all its reads: whether there is room in it when
`plm_comm_read` is called. -/

namespace Plume.Http
open CLib

inductive Arrival
  | bytes (b : Bytes) (ne : b ≠ [])
  | closed
  | failed (ignore : Bool)

/-- `plm_comm_read` for `n` bytes, which returns 0 where nothing is asked for. -/
def commRead (n : ℕ) : Arrival → ReadResult
  | .bytes b _ => if n = 0 then .eof else .data (b.take n)
  | .closed => .eof
  | .failed ignore => .error ignore

namespace ConnState

def room (st : ConnState) : ℕ := st.hc_data.length - st.hc_offset

end ConnState

/-- `plm_http_read_req` when a read event is posted, with what the uninitialised pointer of
`plm_http_on_hdr_done` holds then. -/
def connStep (st : ConnState) (a : Option ℕ × Arrival) : Option ConnState :=
  if st.reading then (httpReadReq a.1 (commRead st.room a.2) st).toOption else none

/-- A read that is to come asks for bytes inside the buffer, and comes back with nothing only at
the end of the stream. -/
structure HasRoom (st : ConnState) : Prop where
  room : st.reading = true → st.hc_offset < st.hc_data.length
  eof : st.reading = true → ∀ a, commRead st.room a = .eof → a = .closed

section Stuck

variable {δ σ : Type} {hooks : Hooks δ σ} {psr : Parser δ} {own : σ} {b : Bytes}

end Stuck

section Run

variable {junk : Option ℕ} {st st' : ConnState} {a : Option ℕ × Arrival} {b : Bytes}

/-- The buffer behind a read that gives its bytes to the parser. -/
theorem read_buffer {r : Step UserData Conn} (hbody : st.conn.hc_body = none)
    (hr : httpParserReq (connHooks junk) st.hc_psr ⟨given st b, 0, false⟩ st.conn = .ok r)
    (hfit : st.hc_offset + b.length ≤ st.hc_data.length)
    (h : httpReadReq junk (.data b) st = .ok st') :
    st'.hc_data.length = st.hc_data.length ∧ st'.hc_offset ≤ st'.hc_data.length ∧
      (r.rc = .error ∧ st'.reading = false ∨
        r.rc ≠ .error ∧ st'.reading = true ∧ st'.hc_offset = b.length - r.psr.hp_parsed) := by
  obtain ⟨hsize, hparsed, -⟩ :=
    httpParser_parsed (reqLine_end (connHooks junk)) (Nat.zero_le _) r hr
  dsimp only at hsize hparsed
  rw [given_length] at hsize hparsed
  have hoff : sizeT (b.length - r.psr.hp_parsed) = b.length - r.psr.hp_parsed := by
    rw [← Nat.cast_sub (by omega), sizeT_natCast]
  have hheld : (held st b).length = st.hc_data.length - b.length := by
    simp only [held, List.length_drop, List.length_append, List.length_take]
    omega
  rw [httpReadReq_eq hbody hr] at h
  dsimp only at h
  rw [hoff] at h
  split_ifs at h with herr hbounds
  · cases h
    have hlen : (r.s.buf ++ held st b).length = st.hc_data.length := by
      rw [List.length_append, hsize, hheld]
      omega
    refine ⟨hlen, ?_, .inl ⟨herr, rfl⟩⟩
    dsimp only
    omega
  · obtain ⟨processed, rfl⟩ := dispatch_ok h
    dsimp only
    refine ⟨?_, ?_, .inr ⟨herr, rfl, rfl⟩⟩
    · simp only [slice, List.length_append, List.length_take, List.length_drop, hsize, hheld]
      omega
    · simp only [slice, List.length_append, List.length_take, List.length_drop, hsize, hheld]
      omega

theorem read_frame {res : ReadResult} (hres : ∀ b, res = .data b →
      st.conn.hc_body ≠ none ∧ st.hc_offset + b.length ≤ st.hc_data.length)
    (h : httpReadReq junk res st = .ok st') :
    st'.hc_data.length = st.hc_data.length ∧ st'.hc_offset = st.hc_offset := by
  obtain ⟨-, -, hoffset, hdata | ⟨b, hb, hdata⟩⟩ :=
    httpReadReq_unparsed (fun b hb => (hres b hb).1) h
  · exact ⟨congrArg List.length hdata, hoffset⟩
  · have hfit := (hres b hb).2
    refine ⟨?_, hoffset⟩
    rw [hdata]
    simp only [List.length_append, List.length_take, List.length_drop]
    omega

theorem read_parse (hbody : st.conn.hc_body = none) (h : httpReadReq junk (.data b) st = .ok st') :
    ∃ r, httpParserReq (connHooks junk) st.hc_psr ⟨given st b, 0, false⟩ st.conn = .ok r := by
  unfold httpReadReq at h
  dsimp only at h
  rw [if_neg (by simp [hbody])] at h
  obtain ⟨r, hr, -⟩ := bind_eq_ok.1 h
  exact ⟨r, hr⟩

theorem connStep_eq_some : connStep st a = some st' ↔
    st.reading = true ∧ httpReadReq a.1 (commRead st.room a.2) st = .ok st' := by
  unfold connStep
  cases st.reading with
  | false => simp
  | true => simp [toOption_eq_some]

/-- What `plm_comm_read` stores is not more than it was asked for. -/
theorem commRead_data {n : ℕ} {a : Arrival} (h : commRead n a = .data b) :
    b.length ≤ n ∧ ∃ b' ne, a = .bytes b' ne ∧ b = b'.take n := by
  cases a with
  | bytes b' ne =>
    unfold commRead at h
    split_ifs at h
    cases h
    exact ⟨List.length_take_le n b', b', ne, rfl, rfl⟩
  | closed => cases h
  | failed ignore => cases h

def HeldOver (st : ConnState) (a : Option ℕ × Arrival) (st' : ConnState) : Prop :=
  ∃ b r, commRead st.room a.2 = .data b ∧ st.conn.hc_body = none ∧
    httpParserReq (connHooks a.1) st.hc_psr ⟨given st b, 0, false⟩ st.conn = .ok r ∧
    (r.rc = .error ∧ st'.reading = false ∨
      r.rc ≠ .error ∧ st'.reading = true ∧ st'.hc_offset = b.length - r.psr.hp_parsed)

/-- A step gives the parser nothing, and moves nothing in the buffer, or it holds over what the
parser did not take. -/
theorem step_buffer (hoff : st.hc_offset ≤ st.hc_data.length) (h : connStep st a = some st') :
    st'.hc_data.length = st.hc_data.length ∧ st'.hc_offset ≤ st'.hc_data.length ∧
      ((∀ b, commRead st.room a.2 = .data b → st.conn.hc_body ≠ none) ∧
        st'.hc_offset = st.hc_offset ∨
        HeldOver st a st') := by
  obtain ⟨-, h⟩ := connStep_eq_some.1 h
  have hfit : ∀ b, commRead st.room a.2 = .data b →
    st.hc_offset + b.length ≤ st.hc_data.length := by
    intro b hb
    have hle := (commRead_data hb).1
    unfold ConnState.room at hle
    omega
  by_cases hp : ∃ b, commRead st.room a.2 = .data b ∧ st.conn.hc_body = none
  · obtain ⟨b, hb, hbody⟩ := hp
    rw [hb] at h
    obtain ⟨r, hr⟩ := read_parse hbody h
    obtain ⟨hlen, hle, hoff⟩ := read_buffer hbody hr (hfit b hb) h
    exact ⟨hlen, hle, .inr ⟨b, r, hb, hbody, hr, hoff⟩⟩
  · have hno : ∀ b, commRead st.room a.2 = .data b → st.conn.hc_body ≠ none :=
      fun b hb hbody => hp ⟨b, hb, hbody⟩
    obtain ⟨hlen, hsame⟩ := read_frame (fun b hb => ⟨hno b hb, hfit b hb⟩) h
    exact ⟨hlen, by omega, .inl ⟨hno, hsame⟩⟩

end Run

/-- In no run does a read go past the end of the buffer. -/
theorem offset_le (mem : List Bool) (buf : Bytes) (as : List (Option ℕ × Arrival)) :
    Always connStep (fun st => st.hc_offset ≤ st.hc_data.length) (accepted mem buf).st as :=
  always_of_step connStep as (Nat.zero_le _) fun _ _ _ hle h => (step_buffer hle h).2.1

end Plume.Http
