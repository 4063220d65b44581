import Plume.CLib.Logged
import Plume.Conf.Forms
import Plume.Conf.Tokens

/-! Configurations as trees, and what a tree means: the calls it stands for, where a line works in
the context of the block it stands in and a variable is known from its definition to the end of the
block that holds it. Behind that, what `plm_conf_load` makes of the same tree. -/

namespace Plume.Conf
open CLib

section Syntax

inductive Value
  | literal (v : { v : Bytes // v ≠ [] ∧ IsText v })
  | refs (vs : { vs : List Bytes // vs ≠ [] ∧ ∀ v ∈ vs, v ≠ [] ∧ IsText v })

/-- The lines of a block; one of them may be a block again. -/
inductive Body
  | done
  | define (x : { x : Bytes // IsName x }) (v : Value) (rest : Body)
  | directive (d : WordLine) (rest : Body)
  | block (head : WordLine) (inner rest : Body)

structure Block where
  head : WordLine
  inner : Body

def Value.text : Value → Bytes
  | literal v => v
  | refs vs => references vs

def brace (opens : Bool) : Bytes := if opens then [LBRACE] else []

def Body.lines : Body → List Bytes
  | done => []
  | define x v rest => definition x v.text :: rest.lines
  | directive d rest => (d.text ++ brace false) :: rest.lines
  | block head inner rest => (head.text ++ brace true) :: (inner.lines ++ [RBRACE] :: rest.lines)

def Block.lines (b : Block) : List Bytes :=
  (b.head.text ++ brace true) :: (b.inner.lines ++ [[RBRACE]])

end Syntax

section Meaning

abbrev Env := Bytes → Option Bytes

/-- What a line works on: the state of the callbacks, and the context it gets. -/
structure World (ε κ : Type) where
  env : ε
  ctx : Option κ

def Word.meaning (ρ : Env) : Word → Option Bytes
  | plain w => some w
  | var x => ρ x

def WordLine.params (ρ : Env) (d : WordLine) : Option (List Bytes) :=
  d.words.mapM fun w => w.2.meaning ρ

def Value.meaning (ρ : Env) : Value → Option Bytes
  | literal v => some v
  | refs vs => (vs.1.mapM ρ).map List.flatten

variable {ε κ : Type} (table : ε → List (Cmd ε κ))

namespace World

def name (cmd_name : Bytes) (w : World ε κ) : Logged (Call κ) Fault (World ε κ) :=
  match pluginCmdSearch (table w.env) cmd_name with
  | none => .fail .abort
  | some cmd =>
    let (ctx, env, calls) := cmd.named w.ctx w.env
    (calls, if ctx.isNone then .error .abort else .ok ⟨env, ctx⟩)

def set (cmd_name : Bytes) (params : List Bytes) (w : World ε κ) :
    Logged (Call κ) Fault (World ε κ) :=
  match pluginCmdSearch (table w.env) cmd_name with
  | none => .fail .abort
  | some cmd =>
    match cmd.c_set_cmd with
    | none => .ok w
    | some f =>
      let (rc, env) := f w.ctx params w.env
      ([.setCmd cmd.c_name w.ctx params], if rc =
        0 then .ok { w with env := env } else .error .abort)

def param (ρ : Env) (d : WordLine) (w : World ε κ) : Logged (Call κ) Fault (World ε κ) :=
  match d.params ρ with
  | none => .fail .abort
  | some params => w.set table d.name params

def directive (ρ : Env) (d : WordLine) (w : World ε κ) : Logged (Call κ) Fault (World ε κ) :=
  (w.name table d.name).bind (param table ρ d)

def opened (ρ : Env) (d : WordLine) (w : World ε κ) : Logged (Call κ) Fault (World ε κ) :=
  (w.directive table ρ d).bind fun w => ([.blockBeg], .ok w)

def back (w w' : World ε κ) : World ε κ := { w' with ctx := w.ctx }

end World

def Body.meaning : Body → Env → World ε κ → Logged (Call κ) Fault (World ε κ)
  | done, _, w => .ok w
  | define x v rest, ρ, w =>
    match v.meaning ρ with
    | none => .fail .abort
    | some u => rest.meaning (Function.update ρ x (some u)) w
  | directive d rest, ρ, w => (w.directive table ρ d).bind fun w' => rest.meaning ρ (w.back w')
  | block head inner rest, ρ, w =>
    (w.opened table ρ head).bind fun w' =>
      (inner.meaning ρ w').bind fun w' => Logged.bind ([.blockEnd], .ok (w.back w'))
      (rest.meaning ρ)

/-- An outermost block: no variable is known there, and there is no context around it. -/
def Block.meaning (b : Block) (env : ε) : Logged (Call κ) Fault (World ε κ) :=
  (Body.block b.head b.inner .done).meaning table (fun _ => none) ⟨env, none⟩

end Meaning

section Loaded

variable {ε κ : Type} (table : ε → List (Cmd ε κ)) (junk : ℕ → Junk κ)

/-- References are looked up under the name that is being defined. -/
def Value.stored (old : Option Bytes) : Value → Option Bytes
  | literal v => some v
  | refs vs => old.map fun u => (List.replicate vs.1.length u).flatten

/-- The `}` of a block, which is the `n`-th line parsed, sets the command that the locals name. -/
def World.closed (n : ℕ) (w : World ε κ) : Logged (Call κ) Fault (World ε κ) :=
  match (junk n).cl_name with
  | none => .fail .wild
  | some name => (w.set table name (junk n).cl_params).bind fun w => ([.blockEnd], .ok w)

/-- What `plm_conf_load` makes of a body from the `n`-th line on: one context is handed from line to
line. -/
def Body.loaded : Body → ℕ → Env → World ε κ → Logged (Call κ) Fault (World ε κ)
  | done, _, _, w => .ok w
  | define x v rest, n, ρ, w =>
    match v.stored (ρ x) with
    | none => .fail .abort
    | some u => rest.loaded (n + 1) (Function.update ρ x (some u)) w
  | directive d rest, n, ρ, w => (w.directive table ρ d).bind (rest.loaded (n + 1) ρ)
  | block head inner rest, n, ρ, w =>
    (w.opened table ρ head).bind fun w =>
      (inner.loaded (n + 1) ρ w).bind fun w =>
        (w.closed table junk (n + 1 + inner.lines.length)).bind
        (rest.loaded (n + 1 + inner.lines.length + 1) ρ)

/-- The context that an outermost block is given, from an uninitialised local. -/
def junkCtx : JunkPtr κ → Except Fault (Option κ)
  | .null => .ok none
  | .other d => .ok d
  | _ => .error .wild

def Block.loaded (b : Block) (n : ℕ) (env : ε) : Logged (Call κ) Fault (World ε κ) :=
  Logged.bind ([], junkCtx (junk n).curr_ctx) fun ctx =>
    (Body.block b.head b.inner .done).loaded table junk n (fun _ => none) ⟨env, ctx⟩

def fileLoaded : List Block → ℕ → ε → Logged (Call κ) Fault ε
  | [], _, env => .ok env
  | b :: bs, n, env =>
    (b.loaded table junk n env).bind fun w => fileLoaded bs (n + b.lines.length) w.env

end Loaded

section Straight

variable {ε κ : Type} (table : ε → List (Cmd ε κ)) (junk : ℕ → Junk κ)

def NoBlock (name : Bytes) : Prop :=
  ∀ env cmd, pluginCmdSearch (table env) name = some cmd → cmd.c_type = .instruction

/-- The locals that are not initialised lead to no context, and name a command that has nothing to
set. -/
structure Harmless : Prop where
  curr_ctx : ∀ k, junkCtx (junk k).curr_ctx = .ok none
  cl_name : ∀ k, ∃ name, (junk k).cl_name = some name ∧
    ∀ env, ∃ cmd, pluginCmdSearch (table env) name = some cmd ∧ cmd.c_set_cmd = none

end Straight

end Plume.Conf
