import Plume.Str

/-! The incremental HTTP head parser of `plm_http_parser.c`. The input is one
buffer of bytes which the parser cuts into tokens in place, by writing NULs
over separators; an access outside that buffer is a fault. -/

namespace Plume.Http
open CLib

abbrev LF : UInt8 := 10
abbrev CR : UInt8 := 13
abbrev SP : UInt8 := 32
abbrev COLON : UInt8 := 58
abbrev DOT : UInt8 := 46

@[simp] theorem lf_ne_cr : LF ≠ CR := by decide
@[simp] theorem lf_ne_sp : LF ≠ SP := by decide
@[simp] theorem lf_ne_colon : LF ≠ COLON := by decide
@[simp] theorem sp_ne_lf : SP ≠ LF := by decide
@[simp] theorem sp_ne_cr : SP ≠ CR := by decide
@[simp] theorem nul_ne_colon : (0 : UInt8) ≠ COLON := by decide
@[simp] theorem nul_ne_sp : (0 : UInt8) ≠ SP := by decide

inductive Rc
  | done | again | error | brk
deriving DecidableEq, Repr

inductive Ver
  | none | v09 | v10 | v11
deriving DecidableEq, Repr

/-- `enum plm_http_mthd` without `PLM_MTHD_NONE`, which ends the parse. -/
inductive Mthd
  | connect | delete | get | head | post | put | options | trace
deriving DecidableEq, Repr

inductive PState
  | none | rlCr | rlLf | rlDone | slCr | slLf | slDone | hdrCr | hdrLf | hdrDone
deriving DecidableEq, Repr

structure Parser (δ : Type) where
  hp_state : PState
  hp_parsed : ℕ
  hp_data : δ
deriving DecidableEq, Repr

/-- The function pointers of the parser, over the state `σ` of their owner. A
nonzero return value breaks the parse. `hp_on_req_line` may replace `hp_data`
and `hp_on_hdr_done` may run `plm_http_parser_init`, as the connection's do. -/
structure Hooks (δ σ : Type) where
  hp_on_req_line : Mthd → PStr → Ver → δ → σ → Except Fault (ℤ × δ × σ)
  hp_on_status_line : Ver → ℤ → PStr → δ → σ → Except Fault (ℤ × δ × σ)
  hp_on_field : PStr → PStr → δ → σ → Except Fault (ℤ × σ)
  hp_on_hdr_done : δ → σ → Except Fault (Option δ × σ)

/-- `plm_string_t *s`: the buffer and the index `s_str` points at. -/
structure Input where
  buf : Bytes
  pos : ℕ
  /-- ghost: some length computed so far was negative -/
  neg : Bool
deriving DecidableEq, Repr

/-- `s_len`: what is left from `s_str` to the end of the buffer, which `s_str +=`
and `s_len -=` keep in step. It is an `int` and goes below zero with `s_str`
past the end. -/
def Input.s_len (s : Input) : ℤ := s.buf.length - s.pos

def Input.length (s : Input) (n : ℤ) : Input := { s with neg := s.neg || decide (n < 0) }

@[simp] theorem Input.length_natCast (s : Input) (n : ℕ) : s.length (n : ℤ) = s := by
  simp [Input.length, show ¬ (n : ℤ) < 0 by omega]

section Parse

variable {δ σ : Type}

/-- What a parse step leaves: its return value, the parser, the input and the owner's state. -/
structure Step (δ σ : Type) where
  rc : Rc
  psr : Parser δ
  s : Input
  own : σ
deriving DecidableEq, Repr

/-- `for (i = 0; i < len && str[i] == ' '; i++)` over what is left of the input -/
def leadingSpaces (b : Bytes) (i : ℕ) : ℕ := ((b.drop i).takeWhile (· == SP)).length

def parseMthd (str : Bytes) : Except Fault (Option Mthd) := do
  match str.head? with
  | none => .error .bounds
  | some c =>
    if c = 67 then return if ← streq str (ascii "CONNECT") then some .connect else none
    else if c = 68 then return if ← streq str (ascii "DELETE") then some .delete else none
    else if c = 71 then return if ← streq str (ascii "GET") then some .get else none
    else if c = 72 then return if ← streq str (ascii "HEAD") then some .head else none
    else if c = 80 then
      if ← streq str (ascii "POST") then return some .post
      else return if ← streq str (ascii "PUT") then some .put else none
    else if c = 79 then return if ← streq str (ascii "OPTIONS") then some .options else none
    else if c = 84 then return if ← streq str (ascii "TRACE") then some .trace else none
    else return none

/-- The versions the parser tells apart, from the two numbers cut to `uint8_t`. -/
def verOf (v1 v2 : ℤ) : Ver :=
  if v1 % 256 = 1 then
    if v2 % 256 = 1 then .v11 else if v2 % 256 = 0 then .v10 else .none
  else if v1 % 256 = 0 ∧ v2 % 256 = 9 then .v09
  else .none

/-- The version numbers behind `HTTP/`, at `maj`; `none` where the code returns
an error. The dot is overwritten. -/
def parseVer (b : Bytes) (maj : ℕ) : Except Fault (Option Ver × Bytes) := do
  match ← strchr b maj DOT with
  | none => return (none, b)
  | some dot =>
    let b ← store b dot 0
    if (← load b (dot + 1)) = 0 then return (none, b)
    else return (some (verOf (atoi (← cstr b maj)) (atoi (← cstr b (dot + 1)))), b)

def httpParserReqLine (hooks : Hooks δ σ) (psr : Parser δ) (s : Input) (own : σ) :
    Except Fault (Step δ σ) := do
  let str := s.pos + leadingSpaces s.buf s.pos
  match find (· == LF) s.buf str with
  | none => return ⟨.again, psr, s, own⟩
  | some lf =>
    let len : ℤ := lf - 1 - str
    let s := s.length len
    -- the byte before the LF is taken for the CR without a look at it
    let s := { s with buf := ← store s.buf (← before lf) 0 }
    match ← memchr s.buf str SP (sizeT len) with
    | none => return ⟨.error, psr, s, own⟩
    | some p =>
      let s := { s with buf := ← store s.buf p 0 }
      match ← parseMthd (s.buf.drop str) with
      | none => return ⟨.error, psr, s, own⟩
      | some mthd =>
        let p ← skip s.buf (p + 1) SP
        let len := len - (p - str)
        let s := s.length len
        let str := p
        match ← memchr s.buf str SP (sizeT len) with
        | none => return ⟨.error, psr, s, own⟩
        | some p =>
          let s := { s with buf := ← store s.buf p 0 }
          let url := slice s.buf str (p - str)
          let p ← skip s.buf (p + 1) SP
          let s := s.length (len - (p - str))
          if !(← memEq s.buf p (ascii "HTTP/")) then return ⟨.error, psr, s, own⟩
          else
            let (ver, buf) ← parseVer s.buf (p + 5)
            let s := { s with buf := buf }
            match ver with
            | none => return ⟨.error, psr, s, own⟩
            | some ver =>
              let parsed := lf + 1 - s.pos
              let s := { s with pos := s.pos + parsed }
              let (rc, data, own) ← hooks.hp_on_req_line mthd (.ofBytes url) ver psr.hp_data own
              return ⟨if rc = 0 then .done else .brk, ⟨.rlDone, parsed, data⟩, s, own⟩

def httpParserStatusLine (hooks : Hooks δ σ) (psr : Parser δ) (s : Input) (own : σ) :
    Except Fault (Step δ σ) := do
  let str := s.pos + leadingSpaces s.buf s.pos
  match find (· == LF) s.buf str with
  | none => return ⟨.again, psr, s, own⟩
  | some lf =>
    if (← load s.buf (← before lf)) ≠ CR then return ⟨.error, psr, s, own⟩
    else
      let len : ℤ := lf - 1 - str
      let s := s.length len
      let s := { s with buf := ← store s.buf (← before lf) 0 }
      match ← memchr s.buf str SP (sizeT len) with
      | none => return ⟨.error, psr, s, own⟩
      | some p =>
        let s := { s with buf := ← store s.buf p 0 }
        if !(← memEq s.buf str (ascii "HTTP/")) then return ⟨.error, psr, s, own⟩
        else
          let (ver, buf) ← parseVer s.buf (str + 5)
          let s := { s with buf := buf }
          match ver with
          | none => return ⟨.error, psr, s, own⟩
          | some ver =>
            let p ← skip s.buf (p + 1) SP
            let len := len - (p - str)
            let s := s.length len
            let str := p
            match ← memchr s.buf str SP (sizeT len) with
            | none => return ⟨.error, psr, s, own⟩
            | some p =>
              let s := { s with buf := ← store s.buf p 0 }
              let code := atoi (← cstr s.buf str)
              let p ← skip s.buf (p + 1) SP
              let len := len - (p - str)
              let s := s.length len
              let desc : PStr := ⟨slice s.buf p len.toNat, len⟩
              let parsed := lf + 1 - s.pos
              let s := { s with pos := s.pos + parsed }
              let (rc, data, own) ← hooks.hp_on_status_line ver code desc psr.hp_data own
              return ⟨if rc = 0 then .done else .brk, ⟨.slDone, parsed, data⟩, s, own⟩

/-- The key's length for a ':' at distance `d`: the loop that should step back over
spaces compares its index, not the byte there, with the space. -/
def keyLen (d : ℕ) : ℕ := if d = 33 then 32 else d

/-- `plm_http_parser_field` behind the field callback. The cursor moves by `hp_parsed`,
which counts from the start of the call, not of this line; at a CR the head is over,
otherwise the loop goes on. -/
def httpParserFieldNext (hooks : Hooks δ σ)
    (loop : Parser δ → Input → σ → Except Fault (Step δ σ)) (psr : Parser δ) (s : Input) (own : σ) :
    Except Fault (Step δ σ) := do
  let s := { s with pos := s.pos + psr.hp_parsed }
  let s := s.length s.s_len
  if s.s_len ≤ 0 then return ⟨.again, psr, s, own⟩
  else if (← load s.buf s.pos) ≠ CR then loop psr s own
  else
    let psr := { psr with hp_parsed := psr.hp_parsed + 1, hp_state := .hdrCr }
    if s.s_len - 1 > 0 then
      if (← load s.buf (s.pos + 1)) = LF then
        let psr := { psr with hp_parsed := psr.hp_parsed + 1, hp_state := .hdrDone }
        let (init, own) ← hooks.hp_on_hdr_done psr.hp_data own
        match init with
        | none => return ⟨.done, psr, s, own⟩
        | some data => return ⟨.done, ⟨.none, psr.hp_parsed, data⟩, s, own⟩
      else return ⟨.again, psr, s, own⟩
    else return ⟨.again, psr, s, own⟩

def httpParserFieldLoop (hooks : Hooks δ σ) :
    ℕ → Parser δ → Input → σ → Except Fault (Step δ σ)
  | 0, _, _, _ => .error .fuel
  | fuel + 1, psr, s, own => do
    let str := s.pos + leadingSpaces s.buf s.pos
    match find (· == LF) s.buf str with
    | none => return ⟨.again, psr, s, own⟩
    | some lf =>
      if (← load s.buf (← before lf)) ≠ CR then return ⟨.error, psr, s, own⟩
      else
        let len : ℤ := lf - 1 - str
        let s := s.length len
        let s := { s with buf := ← store s.buf (← before lf) 0 }
        match ← strchr s.buf str COLON with
        | none => return ⟨.error, psr, s, own⟩
        | some p =>
          let s := { s with buf := ← store s.buf p 0 }
          let key := slice s.buf str (keyLen (p - str))
          let p ← skip s.buf (p + 1) SP
          let vlen := len - (p - str)
          let s := s.length vlen
          let value : PStr := ⟨slice s.buf p vlen.toNat, vlen⟩
          let psr := { psr with hp_parsed := psr.hp_parsed + (lf + 1 - s.pos) }
          let (rc, own) ← hooks.hp_on_field (.ofBytes key) value psr.hp_data own
          if rc ≠ 0 then return ⟨.brk, psr, s, own⟩
          else httpParserFieldNext hooks (httpParserFieldLoop hooks fuel) psr s own

/-- `plm_http_parser_field`: every round consumes a byte, so the length bounds the rounds. -/
def httpParserField (hooks : Hooks δ σ) (psr : Parser δ) (s : Input) (own : σ) :
    Except Fault (Step δ σ) :=
  httpParserFieldLoop hooks (s.s_len.toNat + 1) psr s own

/-- The two parsers `plm_http_parser_req` and `plm_http_parser_resp`, which differ in
the parser of the first line and in the states after it. -/
def httpParser (line : Parser δ → Input → σ → Except Fault (Step δ σ)) (cr done : PState)
    (hooks : Hooks δ σ) (psr : Parser δ) (s : Input) (own : σ) : Except Fault (Step δ σ) := do
  let psr := { psr with hp_parsed := 0 }
  if psr.hp_state = .none then
    let r ← line psr s own
    if r.rc = .done then
      if r.s.s_len > 0 then httpParserField hooks r.psr r.s r.own
      else return { r with rc := .again }
    else return r
  else if psr.hp_state = cr then
    let psr := { psr with hp_parsed := psr.hp_parsed + 1 }
    if (← load s.buf s.pos) = LF then
      let psr := { psr with hp_state := done }
      let s := { s with pos := s.pos + 1 }
      if s.s_len > 0 then httpParserField hooks psr s own
      else return ⟨.again, psr, s, own⟩
    else return ⟨.error, psr, s, own⟩
  else if psr.hp_state = done then httpParserField hooks psr s own
  else if psr.hp_state = .hdrCr then
    let psr := { psr with hp_parsed := psr.hp_parsed + 1 }
    if (← load s.buf s.pos) = LF then
      return ⟨.done, { psr with hp_state := .hdrDone }, { s with pos := s.pos + 1 }, own⟩
    else return ⟨.error, psr, s, own⟩
  else if psr.hp_state = .hdrDone then return ⟨.done, psr, s, own⟩
  else return ⟨.error, psr, s, own⟩

def httpParserReq (hooks : Hooks δ σ) : Parser δ → Input → σ → Except Fault (Step δ σ) :=
  httpParser (httpParserReqLine hooks) .rlCr .rlDone hooks

def httpParserResp (hooks : Hooks δ σ) : Parser δ → Input → σ → Except Fault (Step δ σ) :=
  httpParser (httpParserStatusLine hooks) .slCr .slDone hooks

end Parse

end Plume.Http
