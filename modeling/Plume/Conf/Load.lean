import Plume.Conf.Parser

/-! `plm_conf_load`: the lines of an open configuration file, one by one, with the stack of
the contexts of the open blocks. -/

namespace Plume.Conf
open CLib

section Variables

/-- `plm_conf_var_block_push`, where `vs_block_num` blocks are open; the stack is made anew
for the first. -/
def confVarBlockPush (vs_block_num : ℤ) (vars : List VarElem) : List VarElem :=
  .spec vs_block_num :: if vs_block_num = 0 then [] else vars

def confVarBlockPop : List VarElem → List VarElem
  | [] => []
  | .spec _ :: vars => vars
  | .data _ _ :: vars => confVarBlockPop vars

end Variables

section Lines

/-- The lines `fgets` reads with room for `room` more bytes behind those in `line`, and its
full room for each line after that. -/
def fgets (size room : ℕ) (line : Bytes) : Bytes → List Bytes
  | [] => if line = [] then [] else [line]
  | c :: cs =>
    if c = LF ∨ room ≤ 1 then (line ++ [c]) :: fgets size size [] cs
    else fgets size (room - 1) (line ++ [c]) cs

/-- `strlen(line)`'s bytes, the newline taken off -/
def lineText (line : Bytes) : Bytes := line.takeWhile fun c => c != 0 && c != LF

/-- The loop that trims the end of a line: `n` as it comes out, looking at the NUL first. -/
def trimEnd (line : Bytes) (i : ℕ) : ℕ → ℕ
  | 0 => 0
  | n + 1 => if i < n + 1 ∧ (line ++ [0])[n + 1]?.any isSpace then trimEnd line i n else n + 1

end Lines

variable {ε κ : Type}

/-- What a run of the loop of `plm_conf_load` works on: the state of the line parser with
`curr_ctx_node`, the stack `ctx_stack`, the count `block`, and how many lines have been
parsed. -/
structure LoadState (ε κ : Type) where
  conf : ConfState ε κ
  l_head : Option ℕ
  l_len : ℕ
  block : ℤ
  parsed : ℕ

def ctxPush (i : ℕ) (st : LoadState ε κ) : LoadState ε κ :=
  { st with
    conf := { st.conf with
      blocks := Function.update st.conf.blocks i { st.conf.blocks i with ln_next := st.l_head } }
    l_head := some i
    l_len := st.l_len + 1 }

def ctxPop (st : LoadState ε κ) : Except Fault (LoadState ε κ) :=
  if st.l_len = 0 then .ok st
  else
    match st.l_head with
    | none => .error .wild
    | some i => .ok { st with l_head := (st.conf.blocks i).ln_next, l_len := st.l_len - 1 }

def loadBlockBeg (st : LoadState ε κ) : Except Fault (LoadState ε κ) :=
  match st.conf.node with
  | none => .error .abort
  | some i =>
    let st := ctxPush i st
    .ok { st with
      conf := { st.conf with vars := confVarBlockPush st.block st.conf.vars }
      block := st.block + 1 }

def loadBlockEnd (st : LoadState ε κ) : Except Fault (LoadState ε κ) := do
  let st ← ctxPop st
  return { st with
    conf := { st.conf with
      node := if st.l_len > 0 then st.l_head else none
      vars := confVarBlockPop st.conf.vars }
    block := st.block - 1 }

/-- The `switch` of `plm_conf_load`, with what it adds to the calls. -/
def loadSwitch (stat : Stat) (st : LoadState ε κ) : List (Call κ) × Except Fault (LoadState ε κ) :=
  match stat with
  | .blockBeg => ([.blockBeg], loadBlockBeg st)
  | .blockEnd => ([.blockEnd], loadBlockEnd st)
  | .lineEnd => ([], .ok st)
  | _ => ([], .error .abort)

variable (table : ε → List (Cmd ε κ)) (junk : ℕ → Junk κ)

def loadParse (line : Bytes) (st : LoadState ε κ) : List (Call κ) × Except Fault (LoadState ε κ) :=
  match confParseLine table (junk st.parsed) line st.conf with
  | .error f => ([], .error f)
  | .ok (stat, conf, calls) =>
    let (more, st) := loadSwitch stat { st with conf := conf, parsed := st.parsed + 1 }
    (calls ++ more, st)

/-- The body of the loop of `plm_conf_load`, on a line as `fgets` leaves it. The `k`-th line
parsed finds `junk k` in the uninitialised locals. -/
def loadLine (line : Bytes) (st : LoadState ε κ) : List (Call κ) × Except Fault (LoadState ε κ) :=
  let line := lineText line
  if line = [] ∨ line.head? = some HASH then ([], .ok st)
  else
    let i := (line.takeWhile isSpace).length
    if (line.drop i).head? = some HASH then ([], .ok st)
    else loadParse table junk (slice line i (trimEnd line i line.length - i)) st

def loadLines : List Bytes → LoadState ε κ → List (Call κ) × Except Fault (LoadState ε κ)
  | [], st => ([], .ok st)
  | line :: lines, st =>
    match loadLine table junk line st with
    | (calls, .error f) => (calls, .error f)
    | (calls, .ok st) =>
      let (more, st) := loadLines lines st
      (calls ++ more, st)

def loadEnd (st : LoadState ε κ) : Except Fault ε :=
  if st.block > 0 then .error .abort else .ok st.conf.env

def loadStart (env : ε) : LoadState ε κ :=
  ⟨⟨env, [], fun _ => ⟨none, none⟩, 0, none⟩, none, 0, 0, 0⟩

/-- `plm_conf_load` on a file of the given text: the calls, and the state of the callbacks
behind them if it returns. -/
def confLoad (env : ε) (text : Bytes) : List (Call κ) × Except Fault ε :=
  let (calls, st) := loadLines table junk (fgets 1023 1023 [] text) (loadStart env)
  (calls, st >>= loadEnd)

end Plume.Conf
