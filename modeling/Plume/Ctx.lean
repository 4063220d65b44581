import Plume.CLib.Forest
import Plume.CLib.Slist

/-! `plm_ctx_register` and `plm_ctx_destroy`: the contexts of the blocks of the configuration, and
the records of the levels that are open. -/

namespace Plume
open CLib

section Model

inductive CtxObj
  | main_ctx
  | ctx_list (cl : ℕ)
deriving DecidableEq, Repr

structure CtxPtr where
  obj : CtxObj
  off : ℤ
deriving DecidableEq, Repr

/-- `offsetof(struct plm_ctx_list, cl_list)`, where pointers have 8 bytes. -/
def offsetofClList : ℤ := 8

def mcCtxs : CtxPtr := ⟨.main_ctx, 64⟩

structure PlmCtx where
  c_free : ℕ
  c_data : ℕ
deriving DecidableEq, Repr

/-- `struct plm_ctx_list`, but for its link. -/
structure CtxList where
  cl_list : Slist ℕ
  cl_data : PlmCtx
  cl_plg : ℕ
deriving DecidableEq, Repr

structure CtxRecordElem where
  cre_list : CtxPtr
  cre_parent : ℕ
  cre_ctx : ℕ
deriving DecidableEq, Repr

inductive CtxEvent
  | c_free (cl : ℕ) (data : PlmCtx)
  | free (node : ℕ)
  | mc_free (fn : ℕ)
deriving DecidableEq, Repr

/-- The contexts, the records, and all there is of both in memory. -/
structure CtxState where
  inited : Bool
  mc_free : Option ℕ
  mc_ctxs : Slist ℕ
  ctx_record : Slist ℕ
  cl : ℕ → Option CtxList
  cl_node : Links ℕ
  cre : ℕ → Option CtxRecordElem
  cre_node : Links ℕ
  mallocs : ℕ
  log : List CtxEvent

structure CtxBlock where
  plg : ℕ
  ctx : ℕ
  ctx_free : ℕ
deriving DecidableEq, Repr

/-- Whether there is memory for the record and for the node. -/
structure CtxMem where
  elem : Bool
  cl : Bool

def ctxInit : CtxState where
  inited := false
  mc_free := none
  mc_ctxs := Slist.init
  ctx_record := Slist.init
  cl := fun _ => none
  cl_node := fun _ => none
  cre := fun _ => none
  cre_node := fun _ => none
  mallocs := 0
  log := []

def ctxRecordPush (mem : Bool) (p c : ℕ) (l : CtxPtr) (s : CtxState) : ℤ × CtxState :=
  if mem then
    let (ctx_record, cre_node) := s.ctx_record.addFront s.mallocs s.cre_node
    let cre := Function.update s.cre s.mallocs (some ⟨l, p, c⟩)
    (0, { s with ctx_record := ctx_record, cre_node := cre_node, cre := cre, mallocs := s.mallocs +
      1 })
  else (-1, s)

def ctxRecordTop (s : CtxState) : Except Fault CtxRecordElem :=
  match s.ctx_record.head.bind s.cre with
  | none => .error .wild
  | some e => .ok e

def ctxRecordPop (s : CtxState) : Except Fault CtxState := do
  let ctx_record ← s.ctx_record.delFront s.cre_node
  match s.ctx_record.head with
  | none => return { s with ctx_record := ctx_record }
  | some e =>
    if (s.cre e).isNone then .error .wild
    else
      let cre_node := Function.update s.cre_node e none
      return { s with ctx_record := ctx_record, cre_node := cre_node, cre :=
        Function.update s.cre e none }

def ctxRecordEmpty (s : CtxState) : Bool := s.ctx_record.len ≤ 0

/-- From the list of a level to that of the level below it. -/
def ctxSubList (list : CtxPtr) : CtxPtr :=
  let cl : CtxPtr := ⟨list.obj, list.off - offsetofClList⟩
  ⟨cl.obj, cl.off + offsetofClList⟩

def ctxFindLevel (mem : Bool) (parent ctx : ℕ) : ℕ → CtxState → Except Fault (ℤ × CtxPtr × CtxState)
  | 0, _ => .error .fuel
  | fuel + 1, s => do
    let e ← ctxRecordTop s
    if parent = e.cre_parent then
      let s ← ctxRecordPop s
      let (ret, s) := ctxRecordPush mem parent ctx e.cre_list s
      return (ret, e.cre_list, s)
    else if parent = e.cre_ctx then
      let list := ctxSubList e.cre_list
      let (ret, s) := ctxRecordPush mem parent ctx list s
      return (ret, list, s)
    else
      let s ← ctxRecordPop s
      ctxFindLevel mem parent ctx fuel s

def ctxLevel (mem : Bool) (parent ctx : ℕ) (s : CtxState) : Except Fault (ℤ × CtxPtr × CtxState) :=
  if ctxRecordEmpty s then
    let (ret, s) := ctxRecordPush mem parent ctx mcCtxs s
    return (ret, mcCtxs, s)
  else ctxFindLevel mem parent ctx (s.ctx_record.len + 1) s

def clAt (cl : ℕ) (s : CtxState) : Except Fault CtxList :=
  match s.cl cl with
  | none => .error .wild
  | some c => .ok c

def ctxListAt (p : CtxPtr) (s : CtxState) : Except Fault (Slist ℕ) :=
  match p.obj with
  | .main_ctx => if p = mcCtxs then .ok s.mc_ctxs else .error .wild
  | .ctx_list n => do
    let cl ← clAt n s
    if p.off = offsetofClList then .ok cl.cl_list else .error .wild

def setCtxList (p : CtxPtr) (l : Slist ℕ) (s : CtxState) : Except Fault CtxState :=
  match p.obj with
  | .main_ctx => if p = mcCtxs then .ok { s with mc_ctxs := l } else .error .wild
  | .ctx_list n => do
    let cl ← clAt n s
    if p.off = offsetofClList then
      .ok { s with cl := Function.update s.cl n (some { cl with cl_list := l }) }
    else .error .wild

def ctxAddNode (list : CtxPtr) (b : CtxBlock) (s : CtxState) : Except Fault CtxState := do
  let cl : CtxList := ⟨Slist.init, ⟨b.ctx_free, b.ctx⟩, b.plg⟩
  let l ← ctxListAt list s
  let (l, cl_node) := l.addFront s.mallocs s.cl_node
  let cls := Function.update s.cl s.mallocs (some cl)
  setCtxList list l { s with cl := cls, cl_node := cl_node, mallocs := s.mallocs + 1 }

def ctxRegister (mem : CtxMem) (parent : ℕ) (b : CtxBlock) (s : CtxState) :
    Except Fault (ℤ × CtxState) :=
  if s.inited = false then
    return (0, { s with mc_ctxs := Slist.init, inited := true, mc_free := some b.ctx_free })
  else do
    let (ret, list, s) ← ctxLevel mem.elem parent b.ctx s
    if ret ≠ 0 then return (-1, s)
    else if mem.cl = false then return (-1, s)
    else
      let s ← ctxAddNode list b s
      return (0, s)

def ctxFree (node : ℕ) (s : CtxState) : Except Fault CtxState := do
  let _ ← clAt node s
  let cl_node := Function.update s.cl_node node none
  return { s with cl := Function.update s.cl node none, cl_node := cl_node, log := s.log ++
    [.free node] }

/-- The loops that take the nodes off `mc_ctxs` and free them, `len` nodes in all. -/
def ctxDrain : ℕ → CtxState → Except Fault CtxState
  | 0, s => .ok s
  | len + 1, s =>
    match s.mc_ctxs.head with
    | none => .error .wild
    | some node => do
      let mc_ctxs ← s.mc_ctxs.delFront s.cl_node
      let s ← ctxFree node { s with mc_ctxs := mc_ctxs }
      ctxDrain len s

/-- `plm_ctx_list_foreach`, where `foreach` goes over the list below the node. -/
def ctxListForeach (foreach : Option ℕ → CtxState → Except Fault CtxState) (n : ℕ) (s : CtxState) :
    Except Fault CtxState := do
  let cl ← clAt n s
  let s ← foreach cl.cl_list.head s
  let s ← ctxDrain s.mc_ctxs.len s
  let cl ← clAt n s
  return { s with log := s.log ++ [.c_free n cl.cl_data] }

def ctxForeach : ℕ → Option ℕ → CtxState → Except Fault CtxState
  | _, none, s => .ok s
  | 0, some _, _ => .error .fuel
  | fuel + 1, some n, s => do
    let s ← ctxListForeach (ctxForeach fuel) n s
    match s.cl_node n with
    | none => .error .wild
    | some next => ctxForeach fuel next s

def ctxDestroy (fuel : ℕ) (s : CtxState) : Except Fault (ℤ × CtxState) := do
  let s ← ctxForeach fuel s.mc_ctxs.head s
  let s ← ctxDrain s.mc_ctxs.len s
  match s.mc_free with
  | none => .error .wild
  | some fn => return (0, { s with log := s.log ++ [.mc_free fn] })

end Model

section Tree

variable {s s' : CtxState} {f : Forest ℕ}

/-- The list of each node in the forest is that of the nodes below it. -/
def SubsLaid (s : CtxState) : Forest ℕ → Prop
  | .nil => True
  | .cons n subs rest =>
    (∃ cl, s.cl n = some cl ∧ cl.cl_list.Holds s.cl_node subs.roots) ∧ SubsLaid s subs ∧
      SubsLaid s rest

structure Laid (s : CtxState) (f : Forest ℕ) : Prop where
  main : s.mc_ctxs.Holds s.cl_node f.roots
  subs : SubsLaid s f
  nodup : f.preorder.Nodup

def blockAt (s : CtxState) (n : ℕ) : Option CtxBlock :=
  (s.cl n).map fun cl => ⟨cl.cl_plg, cl.cl_data.c_data, cl.cl_data.c_free⟩

theorem clAt_some {n : ℕ} {cl : CtxList} (h : s.cl n = some cl) : clAt n s = .ok cl := by
  rw [clAt, h]

theorem SubsLaid.alive (h : SubsLaid s f) : ∀ n ∈ f.preorder, ∃ cl, s.cl n = some cl := by
  induction f with
  | nil => simp [Forest.preorder]
  | cons n subs rest ihs ihr =>
    obtain ⟨⟨cl, hcl, -⟩, hsubs, hrest⟩ := h
    intro m hm
    rcases List.mem_cons.1 hm with rfl | hm
    · exact ⟨cl, hcl⟩
    · exact (List.mem_append.1 hm).elim (ihs hsubs m) (ihr hrest m)

theorem SubsLaid.congr (h : SubsLaid s f) (hcl : ∀ n ∈ f.preorder, s'.cl n = s.cl n)
    (hnode : ∀ n ∈ f.preorder, s'.cl_node n = s.cl_node n) : SubsLaid s' f := by
  induction f with
  | nil => exact trivial
  | cons n subs rest ihs ihr =>
    obtain ⟨⟨cl, hn, hlist⟩, hsubs, hrest⟩ := h
    simp only [Forest.preorder, List.forall_mem_cons, List.forall_mem_append] at hcl hnode
    refine ⟨⟨cl, hcl.1.trans hn, hlist.congr fun a ha => ?_⟩, ihs hsubs hcl.2.1 hnode.2.1,
      ihr hrest hcl.2.2 hnode.2.2⟩
    exact hnode.2.1 a (subs.roots_sublist.subset ha)

end Tree

end Plume
