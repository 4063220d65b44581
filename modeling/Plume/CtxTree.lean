import Plume.Ctx

/-! Registering the contexts of a configuration: the search for the level always finds the parent,
and the lists mirror the blocks if and only if no block below `main` has a block of its own. -/

namespace Plume
open CLib

section Records

variable {s s' : CtxState} {recs : List CtxRecordElem} {e : CtxRecordElem} {ids : List ℕ}
  {id parent ctx : ℕ}

structure SameCtxs (s s' : CtxState) : Prop where
  inited : s'.inited = s.inited
  mc_ctxs : s'.mc_ctxs = s.mc_ctxs
  cl : s'.cl = s.cl
  cl_node : s'.cl_node = s.cl_node
  mallocs : s.mallocs ≤ s'.mallocs

theorem SameCtxs.trans {s1 : CtxState} (h : SameCtxs s s1) (h' : SameCtxs s1 s') : SameCtxs s s' :=
  ⟨h'.1.trans h.1, h'.2.trans h.2, h'.3.trans h.3, h'.4.trans h.4, h.5.trans h'.5⟩

/-- The records on the stack are `recs`, the one on top first; they all lead to `mc_ctxs`. -/
structure Records (s : CtxState) (recs : List CtxRecordElem) (ids : List ℕ) : Prop where
  stack : s.ctx_record.Holds s.cre_node ids
  elems : ids.map s.cre = recs.map some
  fresh : ∀ id ∈ ids, id < s.mallocs
  lists : ∀ e ∈ recs, e.cre_list = mcCtxs

theorem Records.push (h : Records s recs ids) (parent ctx : ℕ) :
    ∃ s', ctxRecordPush true parent ctx mcCtxs s = (0, s') ∧
      Records s' (⟨mcCtxs, parent, ctx⟩ :: recs) (s.mallocs :: ids) ∧
      SameCtxs s s' := by
  have hnew : s.mallocs ∉ ids := fun hmem => lt_irrefl _ (h.fresh _ hmem)
  refine ⟨_, rfl, ⟨h.stack.addFront hnew, ?_, ?_, ?_⟩, rfl, rfl, rfl, rfl, Nat.le_succ _⟩
  · change (s.mallocs :: ids).map (Function.update s.cre s.mallocs _) = _
    rw [List.map_cons, List.map_cons, Function.update_self, map_update hnew, h.elems]
  · exact List.forall_mem_cons.2
      ⟨Nat.lt_succ_self _, fun id hid => (h.fresh id hid).trans (Nat.lt_succ_self _)⟩
  · exact List.forall_mem_cons.2 ⟨rfl, h.lists⟩

theorem Records.split (h : Records s (e :: recs) ids) :
    ∃ id rest, ids = id :: rest ∧ s.cre id = some e ∧
    rest.map s.cre = recs.map some := by
  have helems := h.elems
  cases ids with
  | nil => cases helems
  | cons id rest =>
    rw [List.map_cons, List.map_cons, List.cons.injEq] at helems
    exact ⟨id, rest, rfl, helems⟩

theorem Records.top (h : Records s (e :: recs) ids) : ctxRecordTop s = .ok e := by
  obtain ⟨id, rest, rfl, he, -⟩ := h.split
  rw [ctxRecordTop, h.stack.head_eq, List.head?_cons, Option.bind_some, he]

theorem Records.pop (h : Records s (e :: recs) ids) :
    ∃ s' rest, ctxRecordPop s = .ok s' ∧ Records s' recs rest ∧ SameCtxs s s' := by
  obtain ⟨id, rest, rfl, he, hrest⟩ := h.split
  obtain ⟨l, hdel, hl⟩ := h.stack.delFront
  have hid : id ∉ rest := (List.nodup_cons.1 h.stack.nodup).1
  let s' : CtxState :=
    { s with
      ctx_record := l
      cre_node := Function.update s.cre_node id none
      cre := Function.update s.cre id none }
  refine ⟨s', rest, ?_, ⟨hl.update hid none, ?_, ?_, ?_⟩, rfl, rfl, rfl, rfl, le_rfl⟩
  · unfold ctxRecordPop
    rw [hdel, ok_bind, h.stack.head_eq]
    simp only [List.head?_cons, he, Option.isNone_some, Bool.false_eq_true, if_false]
    rfl
  · rw [← hrest]
    exact map_update hid
  · exact fun a ha => h.fresh a (List.mem_cons_of_mem _ ha)
  · exact fun a ha => h.lists a (List.mem_cons_of_mem _ ha)

theorem Records.empty (h : Records s recs ids) : ctxRecordEmpty s = recs.isEmpty := by
  have hlen : ids.length = recs.length := by simpa using congrArg List.length h.elems
  rw [ctxRecordEmpty, h.stack.2, hlen]
  cases recs <;> simp

/-- Below `mc_ctxs` the pointer arithmetic leads to `mc_ctxs` again. -/
theorem ctxSubList_mcCtxs : ctxSubList mcCtxs = mcCtxs := by decide

end Records

section Levels

variable {s : CtxState} {recs : List CtxRecordElem} {ids path parents parents' : List ℕ}
  {parent ctx : ℕ}

/-- The records that the search leaves, if it finds the parent. -/
def levelOf (parent ctx : ℕ) : List CtxRecordElem → Option (List CtxRecordElem)
  | [] => none
  | e :: recs =>
    if parent = e.cre_parent then some (⟨mcCtxs, parent, ctx⟩ :: recs)
    else if parent = e.cre_ctx then some (⟨mcCtxs, parent, ctx⟩ :: e :: recs)
    else levelOf parent ctx recs

theorem Records.findLevel {recs' : List CtxRecordElem} (h : Records s recs ids)
    (hlevel : levelOf parent ctx recs = some recs')
    {fuel : ℕ} (hfuel : recs.length ≤ fuel) :
    ∃ s' ids', ctxFindLevel true parent ctx fuel s = .ok (0, mcCtxs, s') ∧ Records s' recs' ids' ∧
      SameCtxs s s' := by
  induction recs generalizing s ids fuel with
  | nil => cases hlevel
  | cons e recs ih =>
    obtain ⟨fuel, rfl⟩ := Nat.exists_eq_add_of_le' (Nat.one_le_of_lt hfuel)
    obtain ⟨s1, rest, hpop, h1, hsame1⟩ := h.pop
    have hlist := h.lists e List.mem_cons_self
    rw [ctxFindLevel, h.top, ok_bind, hlist]
    rw [levelOf] at hlevel
    by_cases hp : parent = e.cre_parent
    · rw [if_pos hp] at hlevel
      cases hlevel
      obtain ⟨s2, hpush, h2, hsame2⟩ := h1.push parent ctx
      refine ⟨s2, _, ?_, h2, hsame1.trans hsame2⟩
      rw [if_pos hp, hpop, ok_bind, hpush]
      rfl
    · rw [if_neg hp] at hlevel ⊢
      by_cases hc : parent = e.cre_ctx
      · rw [if_pos hc] at hlevel
        cases hlevel
        obtain ⟨s2, hpush, h2, hsame2⟩ := h.push parent ctx
        refine ⟨s2, _, ?_, h2, hsame2⟩
        simp only [if_pos hc, ctxSubList_mcCtxs, hpush]
        rfl
      · rw [if_neg hc] at hlevel ⊢
        obtain ⟨s2, ids', hfind, h2, hsame2⟩ := ih h1 hlevel (Nat.le_of_succ_le_succ hfuel)
        refine ⟨s2, ids', ?_, h2, hsame1.trans hsame2⟩
        rw [hpop, ok_bind, hfind]

/-- A record is there for each level of the path, the innermost first: the next level is found at it
or below. -/
def Covers : List ℕ → List ℕ → Prop
  | [], _ => True
  | p :: path, parents => ∃ rest, p :: rest <:+ parents ∧ Covers path (p :: rest)

theorem Covers.mono (h : Covers path parents) (hsuf : parents <:+ parents') :
    Covers path parents' := by
  cases path with
  | nil => exact trivial
  | cons p path =>
    obtain ⟨rest, hrest, hc⟩ := h
    exact ⟨rest, hrest.trans hsuf, hc⟩

theorem Covers.tail (h : Covers (parent :: path) parents) : Covers path parents := by
  obtain ⟨rest, hrest, hc⟩ := h
  exact hc.mono hrest

def Opened (ctx parent : ℕ) (path : List ℕ) (recs : List CtxRecordElem) : Prop :=
  ∃ e rest, recs = e :: rest ∧ e.cre_ctx = ctx ∧
    Covers (parent :: path) (recs.map CtxRecordElem.cre_parent)

/-- `parent`, which is in the blocks of `path`, will be found. -/
def Ready (parent : ℕ) (path : List ℕ) (recs : List CtxRecordElem) : Prop :=
  recs = [] ∧ path = [] ∨
    (∃ e rest, recs = e :: rest ∧ e.cre_ctx = parent ∧
      Covers path (recs.map CtxRecordElem.cre_parent)) ∨
    Covers (parent :: path) (recs.map CtxRecordElem.cre_parent)

theorem Opened.ready (h : Opened ctx parent path recs) : Ready ctx (parent :: path) recs :=
  Or.inr (Or.inl h)

theorem Ready.closed (h : Ready ctx (parent :: path) recs) : Ready parent path recs := by
  rcases h with ⟨-, hpath⟩ | ⟨e, rest, -, -, hc⟩ | hc
  · cases hpath
  · exact Or.inr (Or.inr hc)
  · exact Or.inr (Or.inr hc.tail)

theorem covers_self (h : Covers path parents) (hsuf : parents <:+ parent :: parents') :
    Covers (parent :: path) (parent :: parents') :=
  ⟨parents', List.suffix_refl _, h.mono hsuf⟩

theorem Ready.levelOf (h : Ready parent path recs) (hne : recs ≠ []) (ctx : ℕ) :
    ∃ recs', Plume.levelOf parent ctx recs = some recs' ∧ Opened ctx parent path recs' := by
  rcases h with ⟨hnil, -⟩ | ⟨e, rest, rfl, rfl, hc⟩ | hc
  · exact absurd hnil hne
  · rw [Plume.levelOf]
    by_cases hp : e.cre_ctx = e.cre_parent
    · rw [if_pos hp]
      refine ⟨_, rfl, _, _, rfl, rfl, covers_self hc ?_⟩
      rw [List.map_cons, ← hp]
    · rw [if_neg hp, if_pos rfl]
      exact ⟨_, rfl, _, _, rfl, rfl, covers_self hc (List.suffix_cons _ _)⟩
  · induction recs with
    | nil => exact absurd rfl hne
    | cons e recs ih =>
      obtain ⟨rest, hrest, hcov⟩ := hc
      rw [Plume.levelOf]
      by_cases hp : parent = e.cre_parent
      · rw [if_pos hp]
        refine ⟨_, rfl, _, _, rfl, rfl, covers_self hcov ?_⟩
        rwa [List.map_cons, ← hp] at hrest
      · rw [if_neg hp]
        by_cases hctx : parent = e.cre_ctx
        · rw [if_pos hctx]
          exact ⟨_, rfl, _, _, rfl, rfl, covers_self hcov (hrest.trans (List.suffix_cons _ _))⟩
        · rw [if_neg hctx]
          rw [List.map_cons, List.suffix_cons_iff] at hrest
          rcases hrest with heq | hrest
          · exact absurd (List.cons.inj heq).1 hp
          · refine ih ?_ ⟨rest, hrest, hcov⟩
            rintro rfl
            cases List.suffix_nil.1 hrest

/-- The search finds the parent in the records of the program, and never looks at the record below
the last. -/
theorem Records.level (h : Records s recs ids) (hready : Ready parent path recs) (ctx : ℕ) :
    ∃ s' recs' ids', ctxLevel true parent ctx s = .ok (0, mcCtxs, s') ∧ Records s' recs' ids' ∧
      Opened ctx parent path recs' ∧ SameCtxs s s' := by
  unfold ctxLevel
  rw [h.empty]
  cases recs with
  | nil =>
    obtain ⟨s', hpush, h', hsame⟩ := h.push parent ctx
    refine ⟨s', _, _, ?_, h', ⟨_, _, rfl, rfl, [], List.suffix_refl _, ?_⟩, hsame⟩
    · rw [hpush]
      rfl
    · rcases hready with ⟨-, rfl⟩ | ⟨e, rest, hnil, -⟩ | ⟨rest, hrest, -⟩
      · exact trivial
      · cases hnil
      · cases List.suffix_nil.1 hrest
  | cons e recs =>
    obtain ⟨recs', hlevel, hopen⟩ := hready.levelOf (List.cons_ne_nil _ _) ctx
    have hlen : ids.length = (e :: recs).length := by simpa using congrArg List.length h.elems
    have hfuel : (e :: recs).length ≤ s.ctx_record.len + 1 := by
      rw [h.stack.2, hlen]
      exact Nat.le_succ _
    obtain ⟨s', ids', hfind, h', hsame⟩ := h.findLevel hlevel hfuel
    exact ⟨s', recs', ids', hfind, h', hopen, hsame⟩

end Levels

section Nodes

variable {s s' : CtxState} {blocks : List CtxBlock} {b : CtxBlock} {nodes path : List ℕ}
  {parent : ℕ}

def CtxBlock.node (b : CtxBlock) : CtxList := ⟨Slist.init, ⟨b.ctx_free, b.ctx⟩, b.plg⟩

structure Nodes (s : CtxState) (blocks : List CtxBlock) (nodes : List ℕ) : Prop where
  main : s.mc_ctxs.Holds s.cl_node nodes
  content : nodes.map s.cl = blocks.map fun b => some b.node
  fresh : ∀ n ∈ nodes, n < s.mallocs

theorem Nodes.same (h : Nodes s blocks nodes) (hsame : SameCtxs s s') : Nodes s' blocks nodes := by
  refine ⟨?_, ?_, fun n hn => (h.fresh n hn).trans_le hsame.mallocs⟩
  · rw [hsame.mc_ctxs, hsame.cl_node]
    exact h.main
  · rw [hsame.cl]
    exact h.content

structure CtxInv (s : CtxState) (recs : List CtxRecordElem) (blocks : List CtxBlock) : Prop where
  inited : s.inited = true
  records : ∃ ids, Records s recs ids
  nodes : ∃ nodes, Nodes s blocks nodes

theorem CtxInv.addNode {recs : List CtxRecordElem} (h : CtxInv s recs blocks) (b : CtxBlock) :
    ∃ s', ctxAddNode mcCtxs b s = .ok s' ∧ CtxInv s' recs (b :: blocks) := by
  obtain ⟨hinited, ⟨ids, hrec⟩, nodes, hn⟩ := h
  have hnew : s.mallocs ∉ nodes := fun hmem => lt_irrefl _ (hn.fresh _ hmem)
  refine ⟨_, rfl, hinited, ⟨ids, ?_⟩, s.mallocs :: nodes, hn.main.addFront hnew, ?_, ?_⟩
  · exact ⟨hrec.stack, hrec.elems, fun id hid => (hrec.fresh id hid).trans (Nat.lt_succ_self _),
      hrec.lists⟩
  · change (s.mallocs :: nodes).map (Function.update s.cl s.mallocs (some b.node)) = _
    rw [List.map_cons, List.map_cons, Function.update_self, map_update hnew, hn.content]
  · exact List.forall_mem_cons.2
      ⟨Nat.lt_succ_self _, fun n hmem => (hn.fresh n hmem).trans (Nat.lt_succ_self _)⟩

theorem CtxInv.register {recs : List CtxRecordElem} (h : CtxInv s recs blocks)
    (hready : Ready parent path recs)
    (b : CtxBlock) :
    ∃ s' recs', ctxRegister ⟨true, true⟩ parent b s = .ok (0, s') ∧ CtxInv s' recs' (b :: blocks) ∧
      Opened b.ctx parent path recs' := by
  obtain ⟨hinited, ⟨ids, hrec⟩, nodes, hn⟩ := h
  obtain ⟨s1, recs', ids', hlevel, hrec', hopen, hsame⟩ := hrec.level hready b.ctx
  have h1 : CtxInv s1 recs' blocks :=
    ⟨hsame.inited.trans hinited, ⟨ids', hrec'⟩, nodes, hn.same hsame⟩
  obtain ⟨s', hadd, h'⟩ := h1.addNode b
  refine ⟨s', recs', ?_, h', hopen⟩
  unfold ctxRegister
  rw [hinited, if_neg (by decide), hlevel]
  simp only [ok_bind, ne_eq, not_true_eq_false, if_false, Bool.true_eq_false, hadd]
  rfl

end Nodes

section Register

variable {s s' : CtxState} {blocks : List CtxBlock} {path : List ℕ} {recs : List CtxRecordElem}

/-- The blocks as they stand in the file, each with the context of the block it is in. -/
def ctxRegs (parent : ℕ) : Forest CtxBlock → List (ℕ × CtxBlock)
  | .nil => []
  | .cons b subs rest => (parent, b) :: (ctxRegs b.ctx subs ++ ctxRegs parent rest)

/-- Registers one block after the other; there is memory for all of them. -/
def ctxRegisterAll : List (ℕ × CtxBlock) → CtxState → Except Fault CtxState
  | [], s => .ok s
  | (parent, b) :: regs, s => do
    let (_, s) ← ctxRegister ⟨true, true⟩ parent b s
    ctxRegisterAll regs s

theorem ctxRegisterAll_append (regs regs' : List (ℕ × CtxBlock)) (s : CtxState) :
    ctxRegisterAll (regs ++ regs') s = (ctxRegisterAll regs s >>= ctxRegisterAll regs') := by
  induction regs generalizing s with
  | nil => rfl
  | cons reg regs ih =>
    rw [List.cons_append, ctxRegisterAll, ctxRegisterAll]
    cases ctxRegister ⟨true, true⟩ reg.1 reg.2 s with
    | error e => rfl
    | ok p => exact ih p.2

theorem CtxInv.registerAll (f : Forest CtxBlock) {parent : ℕ} (h : CtxInv s recs blocks)
    (hready : Ready parent path recs) :
    ∃ s' recs', ctxRegisterAll (ctxRegs parent f) s = .ok s' ∧
      CtxInv s' recs' (f.preorder.reverse ++ blocks) ∧
      Ready parent path recs' := by
  induction f generalizing s recs blocks parent path with
  | nil => exact ⟨s, recs, rfl, h, hready⟩
  | cons b subs rest ihs ihr =>
    obtain ⟨s1, recs1, hreg, h1, hopen⟩ := h.register hready b
    obtain ⟨s2, recs2, hsubs, h2, hready2⟩ := ihs h1 hopen.ready
    obtain ⟨s3, recs3, hrest, h3, hready3⟩ := ihr h2 hready2.closed
    refine ⟨s3, recs3, ?_, ?_, hready3⟩
    · rw [ctxRegs, ctxRegisterAll, hreg]
      change ctxRegisterAll (ctxRegs b.ctx subs ++ ctxRegs parent rest) s1 = .ok s3
      rw [ctxRegisterAll_append, hsubs, ok_bind, hrest]
    · simpa [Forest.preorder] using h3

/-- The nodes and their lists are the blocks `f`, in whatever order the nodes of a list stand. -/
def Mirrors (s : CtxState) (f : Forest CtxBlock) : Prop :=
  ∃ g, Laid s g ∧ (g.map (blockAt s)).Same (f.map some)

theorem ctxInv_init (m : CtxBlock) (parent : ℕ) :
    ∃ s, ctxRegister ⟨true, true⟩ parent m ctxInit = .ok (0, s) ∧ CtxInv s [] [] := by
  refine
    ⟨_, rfl, rfl, ⟨[], Slist.holds_init _, rfl, ?_, ?_⟩, [], Slist.holds_init _, rfl, ?_⟩ <;> simp

theorem Nodes.laid {nodes : List ℕ} (h : Nodes s blocks nodes) : Laid s (Forest.flat nodes) := by
  refine ⟨?_, ?_, ?_⟩
  · rw [Forest.roots_flat]
    exact h.main
  · have hall : ∀ n ∈ nodes, ∃ b : CtxBlock, s.cl n = some b.node := by
      intro n hn
      have hmem := List.mem_map_of_mem (f := s.cl) hn
      rw [h.content] at hmem
      obtain ⟨b, -, hb⟩ := List.mem_map.1 hmem
      exact ⟨b, hb.symm⟩
    clear h
    induction nodes with
    | nil => exact trivial
    | cons n nodes ih =>
      obtain ⟨⟨b, hb⟩, hall⟩ := List.forall_mem_cons.1 hall
      exact ⟨⟨_, hb, Slist.holds_init _⟩, trivial, ih hall⟩
  · rw [Forest.preorder_flat]
    exact h.main.nodup

theorem Nodes.map_blockAt {nodes : List ℕ} (h : Nodes s blocks nodes) :
    nodes.map (blockAt s) = blocks.map some := by
  have hmap := congrArg (List.map (Option.map fun cl : CtxList =>
    (⟨cl.cl_plg, cl.cl_data.c_data, cl.cl_data.c_free⟩ : CtxBlock))) h.content
  rw [List.map_map, List.map_map] at hmap
  exact hmap

theorem mirrors_iff {nodes : List ℕ} {f : Forest CtxBlock} (h : Nodes s f.preorder.reverse nodes) :
    Mirrors s f ↔ f.Flat := by
  have hlen : nodes.length = f.preorder.length := by simpa using congrArg List.length h.content
  constructor
  · intro ⟨g, hlaid, hsame⟩
    have hroots : g.roots = nodes := seg_unique hlaid.main.1 h.main.1
    have hcount := hsame.length_roots
    rw [Forest.roots_map, Forest.roots_map, List.length_map, List.length_map, hroots] at hcount
    rw [Forest.flat_iff_length, ← hcount, hlen]
  · intro hflat
    refine ⟨Forest.flat nodes, h.laid, ?_⟩
    rw [Forest.map_flat, h.map_blockAt, hflat.eq, Forest.map_flat, Forest.preorder_flat]
    exact Forest.Same.flat (f.roots.reverse_perm.map some)

/-- The context of `main`, and then those of all blocks below it: the search always finds the
parent, and all nodes come into `mc_ctxs`. -/
theorem register_nodes (parent : ℕ) (m : CtxBlock) (f : Forest CtxBlock) :
    ∃ s nodes, ctxRegisterAll ((parent, m) :: ctxRegs m.ctx f) ctxInit = .ok s ∧
      Nodes s f.preorder.reverse nodes := by
  obtain ⟨s0, hmain, h0⟩ := ctxInv_init m parent
  have hready : Ready m.ctx [] [] := Or.inl ⟨rfl, rfl⟩
  obtain ⟨s, recs, hall, ⟨-, -, nodes, hn⟩, -⟩ := h0.registerAll f hready
  rw [List.append_nil] at hn
  refine ⟨s, nodes, ?_, hn⟩
  rw [ctxRegisterAll, hmain]
  exact hall

/-- Registering the contexts goes well, and the lists mirror the blocks if and only if no block
below `main` has a block of its own. -/
theorem contexts_mirror_iff (parent : ℕ) (m : CtxBlock) (f : Forest CtxBlock) :
    ∃ s, ctxRegisterAll ((parent, m) :: ctxRegs m.ctx f) ctxInit = .ok s ∧
      (Mirrors s f ↔ f.Flat) := by
  obtain ⟨s, nodes, hall, hn⟩ := register_nodes parent m f
  exact ⟨s, hall, mirrors_iff hn⟩

def nestedBlocks : Forest CtxBlock := .cons ⟨1, 200, 20⟩ (.cons ⟨1, 300, 30⟩ .nil .nil) .nil

theorem not_contexts_mirror :
    ¬ ∃ s, ctxRegisterAll ((0, ⟨0, 100, 10⟩) :: ctxRegs 100 nestedBlocks) ctxInit = .ok s ∧
      Mirrors s nestedBlocks := by
  intro ⟨s, hall, hmirrors⟩
  obtain ⟨s', nodes, hall', hn⟩ := register_nodes 0 ⟨0, 100, 10⟩ nestedBlocks
  rw [hall] at hall'
  cases hall'
  exact absurd ((mirrors_iff hn).1 hmirrors).1 (by simp)

end Register

end Plume
