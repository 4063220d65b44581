import Plume.CLib.Scan

/-! The line parser of `plm_conf.c`: directives, blocks and variables. The commands of the
plugins and their callbacks are parameters, over a state `ε` that they work on and contexts
`κ`; allocations succeed. What a local of the parser holds before it is set is an argument. -/

namespace Plume.Conf
open CLib

abbrev LF : UInt8 := 10
abbrev SP : UInt8 := 32
abbrev HASH : UInt8 := 35
abbrev DOLLAR : UInt8 := 36
abbrev ASSIGN : UInt8 := 61
abbrev LBRACE : UInt8 := 123
abbrev RBRACE : UInt8 := 125

inductive Stat
  | null | blockBeg | blockEnd | char | space | var | assign | lineEnd | invalid
deriving DecidableEq, Repr

def confParseStateIns (ch : UInt8) : Stat :=
  if ch = SP then .space
  else if ch = LBRACE then .blockBeg
  else if ch = RBRACE then .blockEnd
  else if ch = DOLLAR then .var
  else .char

def confParseStateVar (ch : UInt8) : Stat :=
  if ch = DOLLAR then .var else if ch = ASSIGN then .assign else .char

/-- `plm_strcmp` returns zero: the strings are equal but for a NUL at the end of one. -/
def strcmp (s1 s2 : Bytes) : Bool := s1 == s2 || s1 == s2 ++ [0] || s2 == s1 ++ [0]

section Variables

/-- The name of a variable: never empty, and without NUL as it was part of a line. -/
abbrev VarName := { name : Bytes // name ≠ [] ∧ 0 ∉ name }

inductive VarElem
  | spec (ve_block_num : ℤ)
  | data (ve_name : VarName) (ve_value : Bytes)

def confGetVarValue : List VarElem → Bytes → Option Bytes
  | [], _ => none
  | .spec _ :: vars, var => confGetVarValue vars var
  | .data name value :: vars, var =>
    if strcmp var name then some value else confGetVarValue vars var

def confSetVarValue (vars : List VarElem) (name : VarName) (value : Bytes) : List VarElem :=
  .data name value :: vars

structure VarLine where
  name : Bytes
  value : Bytes
  last : Stat
  beg : ℕ
  fin : ℕ
  var_link : Bool

/-- `GET_VAR_AND_APPEND`, which looks for the variable under definition. -/
def getVarAndAppend (vars : List VarElem) (s : VarLine) : Except Fault VarLine :=
  match confGetVarValue vars s.name with
  | none => .error .abort
  | some v => .ok { s with value := s.value ++ v }

/-- One turn of the `switch` of `plm_conf_parse_variable`. A copy of negative length asks
`plm_mempool_alloc` for more than it can count to, and is not come back from. -/
def varStep (line : Bytes) (vars : List VarElem) (i : ℕ) (stat : Stat) (s : VarLine) :
    Except Fault VarLine :=
  match stat with
  | .assign =>
    if s.last = .var then .error .abort
    else
      let fin := if s.fin = s.beg then i else s.fin
      if fin < s.beg then .error .fuel
      else .ok { s with fin := fin, name := slice line s.beg (fin - s.beg), last := .assign }
  | .char =>
    .ok { s with beg := if s.last = .var ∨ s.last = .assign then i else s.beg, last := .char }
  | .var =>
    if s.last = .assign then .ok { s with var_link := true, last := .var }
    else if s.last = .char then
      if s.var_link then do
        let s ← getVarAndAppend vars { s with fin := i }
        return { s with last := .var }
      else .error .abort
    else .ok { s with last := .var }
  | .lineEnd =>
    if s.var_link then getVarAndAppend vars { s with fin := i }
    else .ok { s with fin := i, value := slice line s.beg (i - s.beg) }
  | _ => .ok s

/-- The loop of `plm_conf_parse_variable`; behind the last byte comes `CPS_LINE_END`. -/
def varLoop (line : Bytes) (vars : List VarElem) : Bytes → ℕ → VarLine → Except Fault VarLine
  | [], i, s => if i = 1 then .ok s else varStep line vars i .lineEnd s
  | c :: cs, i, s => do
    let s ← varStep line vars i (confParseStateVar c) s
    varLoop line vars cs (i + 1) s

def varEnd (vars : List VarElem) (s : VarLine) : Except Fault (List VarElem) :=
  if h : s.name ≠ [] ∧ 0 ∉ s.name then .ok (confSetVarValue vars ⟨s.name, h⟩ s.value)
  else .error .abort

/-- `plm_conf_parse_variable`, with what it finds in its local `last` -/
def confParseVariable (last : Stat) (vars : List VarElem) (line : Bytes) :
    Except Fault (List VarElem) :=
  varLoop line vars line.tail 1 ⟨[], [], last, 1, 1, false⟩ >>= varEnd vars

end Variables

section Directives

inductive CmdType
  | block | instruction
deriving DecidableEq, Repr

/-- `struct plm_cmd`; the callbacks take a context, `none` for `NULL`, and work on `ε`. -/
structure Cmd (ε κ : Type) where
  c_name : Bytes
  c_type : CmdType
  c_set_cmd : Option (Option κ → List Bytes → ε → ℤ × ε)
  c_create_ctx : Option κ → ε → Option κ × ε

/-- The calls made while a configuration is loaded, and the blocks opened and closed. -/
inductive Call (κ : Type)
  | createCtx (c_name : Bytes) (parent ctx : Option κ)
  | setCmd (c_name : Bytes) (ctx : Option κ) (params : List Bytes)
  | blockBeg
  | blockEnd
deriving DecidableEq, Repr

/-- `struct plm_cmd_line`; a name that was never set may be no string at all. -/
structure CmdLine where
  cl_stat : Bool
  cl_name : Option Bytes
  cl_params : List Bytes

/-- The locals of `plm_conf_parse_ins`, the context it was given, and what its calls did. -/
structure Ins (ε κ : Type) where
  ctx : Option κ
  env : ε
  cl : CmdLine
  last : Stat
  beg : ℕ
  var : Bool
  calls : List (Call κ)

variable {ε κ : Type} (table : ε → List (Cmd ε κ)) (vars : List VarElem)

/-- `plm_plugin_cmd_search`, over the commands of the main plugin and of those loaded -/
def pluginCmdSearch (cmds : List (Cmd ε κ)) (name : Bytes) : Option (Cmd ε κ) :=
  cmds.find? fun cmd => strcmp cmd.c_name name

/-- `plm_conf_cmd_line_push`; on the left what a failure leaves. -/
def confCmdLinePush (token : Bytes) (s : Ins ε κ) : Except (Ins ε κ) (Ins ε κ) :=
  if s.cl.cl_stat then .ok { s with cl := { s.cl with cl_params := s.cl.cl_params ++ [token] } }
  else
    let s := { s with cl := ⟨true, some token, []⟩ }
    match pluginCmdSearch (table s.env) token with
    | none => .error s
    | some cmd =>
      let s :=
        match cmd.c_type with
        | .block =>
          let (ctx, env) := cmd.c_create_ctx s.ctx s.env
          { s with ctx := ctx, env := env, calls := s.calls ++ [.createCtx cmd.c_name s.ctx ctx] }
        | .instruction => s
      if s.ctx.isNone then .error s else .ok s

def insPush (line : Bytes) (i : ℕ) (s : Ins ε κ) : Except (Ins ε κ) (Ins ε κ) :=
  let token := slice line s.beg (i - s.beg)
  if s.var then
    match confGetVarValue vars token with
    | none => .error s
    | some v => (confCmdLinePush table v s).map fun s => { s with var := false }
  else confCmdLinePush table token s

def insStep (line : Bytes) (i : ℕ) (stat : Stat) (s : Ins ε κ) : Except (Ins ε κ) (Ins ε κ) :=
  match stat with
  | .blockBeg =>
    if s.last = .char then (insPush table vars line i s).map fun s => { s with last := .blockBeg }
    else if s.last = .var ∨ s.last = .blockEnd then .error s
    else .ok { s with last := .blockBeg }
  | .blockEnd => if s.last ≠ .null then .error s else .ok { s with last := .blockEnd }
  | .char =>
    if s.last = .blockBeg ∨ s.last = .blockEnd then .error s
    else .ok { s with beg := if s.last = .space ∨ s.last = .var then i else s.beg, last := .char }
  | .space =>
    if s.last = .space ∨ s.last = .blockBeg ∨ s.last = .blockEnd then .ok s
    else if s.last = .var then .error s
    else (insPush table vars line i s).map fun s => { s with last := .space }
  | .var => if s.last ≠ .space then .error s else .ok { s with var := true, last := .var }
  | .lineEnd =>
    if s.last = .char then insPush table vars line i s
    else if s.last = .var then .error s
    else .ok s
  | _ => .ok s

/-- The loop of `plm_conf_parse_ins`; `stat` is the state of the byte before, or whatever
it was when there is none. Behind the last byte comes `CPS_LINE_END`, unless it is a brace. -/
def insLoop (line : Bytes) : Stat → Bytes → ℕ → Ins ε κ → Except (Ins ε κ) (Stat × Ins ε κ)
  | stat, [], i, s =>
    if i = 0 ∨ stat = .blockBeg ∨ stat = .blockEnd then .ok (stat, s)
    else (insStep table vars line i .lineEnd s).map fun s => (.lineEnd, s)
  | _, c :: cs, i, s =>
    match insStep table vars line i (confParseStateIns c) s with
    | .error s => .error s
    | .ok s => insLoop line (confParseStateIns c) cs (i + 1) s

def confSetCmd (s : Ins ε κ) : Except Fault (ℤ × Ins ε κ) :=
  match s.cl.cl_name with
  | none => .error .wild
  | some name =>
    match pluginCmdSearch (table s.env) name with
    | none => .ok (-1, s)
    | some cmd =>
      match cmd.c_set_cmd with
      | none => .ok (0, s)
      | some f =>
        let (rc, env) := f s.ctx s.cl.cl_params s.env
        .ok (rc, { s with env := env, calls := s.calls ++
          [.setCmd cmd.c_name s.ctx s.cl.cl_params] })

def insEnd : Except (Ins ε κ) (Stat × Ins ε κ) → Except Fault (Stat × Ins ε κ)
  | .error s => .ok (.invalid, s)
  | .ok (stat, s) => do
    let (rc, s) ← confSetCmd table s
    if rc ≠ 0 then return (.invalid, s)
    else return (if stat = .blockBeg ∨ stat = .blockEnd then stat else .lineEnd, s)

end Directives

section Line

variable {ε κ : Type} (table : ε → List (Cmd ε κ))

/-- Where an uninitialised pointer may point: to a `struct plm_block_ctx` of the pool, or to
other memory that can be read as one. -/
inductive JunkPtr (κ : Type)
  | null
  | block (i : ℕ)
  | other (bc_data : Option κ)
  | wild

/-- What the locals of the parser hold before they are set: `curr_ctx` of
`plm_conf_parse_line`, `cl` and `stat` of `plm_conf_parse_ins` and `last` of
`plm_conf_parse_variable`. -/
structure Junk (κ : Type) where
  curr_ctx : JunkPtr κ
  cl_name : Option Bytes
  cl_params : List Bytes
  stat : Stat
  last : Stat

def confParseIns (j : Junk κ) (vars : List VarElem) (line : Bytes) (ctx : Option κ) (env : ε) :
    Except Fault (Stat × Ins ε κ) :=
  insEnd table (insLoop table vars line j.stat line 0
    ⟨ctx, env, ⟨false, j.cl_name, j.cl_params⟩, .null, 0, false, []⟩)

structure BlockCtx (κ : Type) where
  ln_next : Option ℕ
  bc_data : Option κ

/-- What `plm_conf_parse_line` works on: the state of the callbacks, `var_stack.vs_stack`, the
block contexts of the pool with the number of those in use, and the current one. -/
structure ConfState (ε κ : Type) where
  env : ε
  vars : List VarElem
  blocks : ℕ → BlockCtx κ
  used : ℕ
  node : Option ℕ

def currCtx (j : Junk κ) (st : ConfState ε κ) : JunkPtr κ :=
  match st.node with
  | some i => .block i
  | none => j.curr_ctx

def bcData (st : ConfState ε κ) : JunkPtr κ → Except Fault (Option κ)
  | .block i => .ok (st.blocks i).bc_data
  | .other d => .ok d
  | _ => .error .wild

def startCtx (st : ConfState ε κ) : JunkPtr κ → Except Fault (Option κ)
  | .null => .ok none
  | curr => bcData st curr

/-- The end of `plm_conf_parse_line`, which makes a block context where there was none. -/
def storeCtx (curr : JunkPtr κ) (s : Ins ε κ) (st : ConfState ε κ) : ConfState ε κ :=
  match curr with
  | .block i => { st with
    env := s.env
    blocks := Function.update st.blocks i { st.blocks i with bc_data := s.ctx }
    node := some i }
  | _ => { st with
    env := s.env
    blocks := Function.update st.blocks st.used { st.blocks st.used with bc_data := s.ctx }
    used := st.used + 1
    node := some st.used }

def confParseLine (j : Junk κ) (line : Bytes) (st : ConfState ε κ) :
    Except Fault (Stat × ConfState ε κ × List (Call κ)) := do
  let curr := currCtx j st
  if line.head? = some DOLLAR then
    let _ ← bcData st curr
    let vars ← confParseVariable j.last st.vars line
    return (.lineEnd, { st with vars := vars }, [])
  else
    let ctx ← startCtx st curr
    let (rc, s) ← confParseIns table j st.vars line ctx st.env
    return (rc, storeCtx curr s st, s.calls)

end Line

end Plume.Conf
