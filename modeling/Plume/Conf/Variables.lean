import Plume.CLib.Run
import Plume.CLib.Scopes
import Plume.Conf.Load
import Plume.Str

/-! The variables of a configuration: the one stack that holds the definitions of all open blocks,
with a marker below those of each, against lexical scopes. -/

namespace Plume.Conf
open CLib

section Stack

/-- `block` of `plm_conf_load`, which it stores in `vs_block_num` before each line, and
`var_stack.vs_stack`. -/
structure VarStack where
  block : ℤ
  vars : List VarElem

/-- What a line can do to the stack; looking a variable up changes nothing. -/
inductive VarOp
  | blockPush
  | blockPop
  | setVarValue (name : VarName) (value : Bytes)

def varOp (s : VarStack) : VarOp → VarStack
  | .blockPush => ⟨s.block + 1, confVarBlockPush s.block s.vars⟩
  | .blockPop => ⟨s.block - 1, confVarBlockPop s.vars⟩
  | .setVarValue name value => ⟨s.block, confSetVarValue s.vars name value⟩

def VarStack.init : VarStack := ⟨0, []⟩

def varOps (s : VarStack) (ops : List VarOp) : VarStack := ops.foldl varOp s

variable {ε κ : Type} {st st' : LoadState ε κ}

/-- `plm_conf_load` opens and closes a block with these operations. -/
theorem loadBlockBeg_vars (h : loadBlockBeg st = .ok st') :
    (⟨st'.block, st'.conf.vars⟩ : VarStack) = varOp ⟨st.block, st.conf.vars⟩ .blockPush := by
  unfold loadBlockBeg at h
  cases hn : st.conf.node with
  | none => rw [hn] at h; cases h
  | some i =>
    rw [hn] at h
    cases h
    rfl

theorem loadBlockEnd_vars (h : loadBlockEnd st = .ok st') :
    (⟨st'.block, st'.conf.vars⟩ : VarStack) = varOp ⟨st.block, st.conf.vars⟩ .blockPop := by
  obtain ⟨st1, hpop, h⟩ := bind_eq_ok.1 h
  cases h
  unfold ctxPop at hpop
  split_ifs at hpop
  · cases hpop
    rfl
  · cases hn : st.l_head with
    | none => rw [hn] at hpop; cases hpop
    | some i =>
      rw [hn] at hpop
      cases hpop
      rfl

end Stack

section Scopes

/-- The same operations on scopes; without an open block there is none to close or define in. -/
def scopeOp (s : Scopes VarName Bytes) : VarOp → Option (Scopes VarName Bytes)
  | .blockPush => some ([] :: s)
  | .blockPop => s.close
  | .setVarValue name value => s.bind name value

inductive BlockBody : List VarOp → Prop
  | nil : BlockBody []
  | define {ops : List VarOp} (name : VarName) (value : Bytes) :
    BlockBody ops → BlockBody (.setVarValue name value :: ops)
  | block {inner ops : List VarOp} :
    BlockBody inner → BlockBody ops → BlockBody (.blockPush :: inner ++ .blockPop :: ops)

/-- A marker carries the number of the blocks around its own. -/
def stacked : Scopes VarName Bytes → List VarElem
  | [] => []
  | b :: s => b.map (fun d => .data d.1 d.2) ++ .spec s.length :: stacked s

variable {s s' : Scopes VarName Bytes} {op : VarOp} {ops : List VarOp} {x : VarName}

theorem strcmp_name (x name : VarName) : strcmp x name = true ↔ name = x := by
  have hnul : ∀ a b : VarName, a.1 ≠ b.1 ++ [0] := by
    intro a b h
    apply a.2.2
    rw [h]
    simp
  simp only [strcmp, Bool.or_eq_true, beq_iff_eq, hnul, or_false]
  rw [Subtype.ext_iff, eq_comm]

theorem pop_block (b : List (VarName × Bytes)) (n : ℤ) (vars : List VarElem) :
    confVarBlockPop (b.map (fun d => .data d.1 d.2) ++ .spec n :: vars) = vars := by
  induction b with
  | nil => rfl
  | cons d b ih => exact ih

theorem get_block (b : List (VarName × Bytes)) (n : ℤ) (vars : List VarElem) (x : VarName) :
    confGetVarValue (b.map (fun d => .data d.1 d.2) ++ .spec n :: vars) x =
      (Scopes.find x b).or (confGetVarValue vars x) := by
  induction b with
  | nil => rfl
  | cons d b ih =>
    rw [List.map_cons, List.cons_append, confGetVarValue, ih, Scopes.find_cons]
    by_cases hx : d.1 = x
    · rw [if_pos ((strcmp_name x d.1).2 hx), if_pos hx]
      rfl
    · rw [if_neg (mt (strcmp_name x d.1).1 hx), if_neg hx]

theorem get_stacked (s : Scopes VarName Bytes) (x : VarName) :
    confGetVarValue (stacked s) x = s.lookup x := by
  induction s with
  | nil => rfl
  | cons b s ih =>
    rw [stacked, get_block, ih, Scopes.lookup_cons]

theorem varOp_stacked (h : scopeOp s op = some s') :
    varOp ⟨s.length, stacked s⟩ op = ⟨s'.length, stacked s'⟩ := by
  cases op with
  | blockPush =>
    cases h
    have hreset : (if (s.length : ℤ) = 0 then [] else stacked s) = stacked s := by
      split_ifs with h0
      · obtain rfl := List.length_eq_zero_iff.1 (Int.ofNat_eq_zero.1 h0)
        rfl
      · rfl
    rw [varOp, confVarBlockPush, hreset]
    rfl
  | blockPop =>
    cases s with
    | nil => cases h
    | cons b s =>
      cases h
      rw [varOp, stacked, pop_block]
      simp
  | setVarValue name value =>
    cases s with
    | nil => cases h
    | cons b s =>
      cases h
      rfl

theorem varOps_stacked (h : run scopeOp s ops = some s') :
    varOps ⟨s.length, stacked s⟩ ops = ⟨s'.length, stacked s'⟩ := by
  induction ops generalizing s with
  | nil =>
    cases h
    rfl
  | cons op ops ih =>
    obtain ⟨s1, h1, h⟩ := Option.bind_eq_some_iff.1 h
    rw [varOps, List.foldl_cons, varOp_stacked h1]
    exact ih h

/-- What a block holds adds definitions to it and touches no other block. -/
theorem body_scopes (h : BlockBody ops) (b : List (VarName × Bytes)) (s : Scopes VarName Bytes) :
    ∃ b', run scopeOp (b :: s) ops = some ((b' ++ b) :: s) := by
  induction h generalizing b s with
  | nil => exact ⟨[], rfl⟩
  | @define ops name value _ ih =>
    obtain ⟨b', hb⟩ := ih ((name, value) :: b) s
    refine ⟨b' ++ [(name, value)], ?_⟩
    rw [List.append_assoc]
    exact hb
  | @block inner ops _ _ ih1 ih2 =>
    obtain ⟨b1, h1⟩ := ih1 [] (b :: s)
    obtain ⟨b2, h2⟩ := ih2 b s
    refine ⟨b2, ?_⟩
    rw [List.cons_append, run]
    change run scopeOp ([] :: b :: s) (inner ++ .blockPop :: ops) = _
    rw [run_append, h1]
    exact h2

theorem block_scopes {inner : List VarOp} (h : BlockBody inner) (s : Scopes VarName Bytes) :
    run scopeOp s (.blockPush :: inner ++ [.blockPop]) = some s := by
  obtain ⟨b, hb⟩ := body_scopes h [] s
  rw [List.cons_append, run]
  change run scopeOp ([] :: s) (inner ++ [.blockPop]) = _
  rw [run_append, hb]
  rfl

/-- Behind any well-nested operations a variable has the value of its last definition in the
innermost open block that defines it, and none if there is no such block; a block that was
opened and closed has left nothing behind and taken nothing away. -/
theorem variables_scoped (ops : List VarOp) (s : Scopes VarName Bytes)
    (h : run scopeOp [] ops = some s) :
    (∀ (x : VarName) value, confGetVarValue (varOps .init ops).vars x = some value ↔
      s.Visible x value) ∧
      (∀ x : VarName, confGetVarValue (varOps .init ops).vars x = none ↔
        ∀ b ∈ s, ¬ Scopes.Binds x b) ∧
      ∀ inner, BlockBody inner →
        varOps .init (ops ++ (.blockPush :: inner ++ [.blockPop])) = varOps .init ops := by
  have hstack : varOps .init ops = ⟨s.length, stacked s⟩ := varOps_stacked h
  refine ⟨fun x value => ?_, fun x => ?_, fun inner hinner => ?_⟩
  · rw [hstack, get_stacked]
    exact Scopes.lookup_eq_some_iff
  · rw [hstack, get_stacked]
    exact Scopes.lookup_eq_none_iff
  · have hrun : run scopeOp [] (ops ++ (.blockPush :: inner ++ [.blockPop])) = some s := by
      rw [run_append, h]
      exact block_scopes hinner s
    exact (varOps_stacked hrun).trans hstack.symm

def shadowed : List VarOp :=
  [.blockPush, .setVarValue ⟨ascii "a", by decide⟩ [1], .blockPush,
    .setVarValue ⟨ascii "a", by decide⟩ [2],
    .blockPop, .blockPush, .setVarValue ⟨ascii "b", by decide⟩ [3]]

theorem variables_scoped_shadowed :
    confGetVarValue (varOps .init shadowed).vars (ascii "a") = some [1] := by
  have h := variables_scoped shadowed [[(⟨ascii "b", by decide⟩, [3])],
    [(⟨ascii "a", by decide⟩, [1])]] (by rfl)
  refine (h.1 ⟨ascii "a", by decide⟩ [1]).2
    ⟨[[(⟨ascii "b", by decide⟩, [3])]], [], [], [], rfl, ?_, ?_⟩
  · simp [Scopes.Binds, ascii]
  · simp [Scopes.Binds]

end Scopes

end Plume.Conf
