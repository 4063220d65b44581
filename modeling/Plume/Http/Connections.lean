import Plume.Buffer
import Plume.CloseHandlers
import Plume.Mempool

/-! What an HTTP connection owns: its `plm_http_conn` from `hc_conn_pool`, an input buffer, and a
memory pool. They are obtained when it is accepted, and given back by the close handler of its
descriptor, the `plm_http_conn` itself excepted. -/

namespace Plume.Http
open CLib

/-- `struct plm_http_conn`, as far as something is owned through it. -/
structure HttpConn where
  hc_pool : PoolState
  hc_data : Option ℕ
  hc_size : ℕ

/-- The connections of a worker. The close handler `hc_cch` has the address of its `plm_http_conn`.
Behind `conns` is what is there for the statements: the connections that are open, with their
descriptors; the memory pools set up and not destroyed; the blocks each of them obtained and did not
free; and what was given back without being held. -/
structure HttpServer where
  comm : Comm
  hc_conn_pool : LlRun
  mem_list : Buffers
  conns : ℕ → Option HttpConn
  opened : List (ℕ × ℕ)
  pools : List ℕ
  blocks : ℕ → List ℕ
  stray : List ℕ

def httpConnFreeFn : ℕ := 0

/-- `struct plm_share_param`, `sizeof(struct plm_http_conn)`, the arguments of `plm_buffer_init`,
and what is in memory. -/
structure HttpParam where
  sp_maxfd : ℕ
  sp_thrdn : ℤ
  sp_tag : UInt32
  sp_tagcheck : ℤ
  sp_zeromem : ℤ
  conn_size : ℕ
  fits : conn_size + llnSize < 2 ^ 64
  thrdsafe : ℤ
  tagchk : ℤ
  zeromem : ℤ
  mem : ℕ → Option LlObj
  buf_mem : MemType → ℕ → Option LlObj

structure ConnMem where
  conn_alloc : Malloc
  conn_junk : Bytes
  buf_alloc : Malloc
  buf_junk : Bytes

section Model

def httpStart (p : HttpParam) : HttpServer where
  comm := zeroTable p.sp_maxfd
  hc_conn_pool := llStart p.sp_maxfd p.conn_size p.sp_tag p.sp_zeromem p.sp_tagcheck
    (if p.sp_thrdn > 1 then 1 else 0) p.mem
  mem_list := bufferInit p.thrdsafe p.tagchk p.zeromem p.buf_mem
  conns := fun _ => none
  opened := []
  pools := []
  blocks := fun _ => []
  stray := []

/-- The `switch` of `plm_http_conn_free`, which leaves `pt` unset for other sizes. -/
def memTypeOf (hc_size : ℕ) : Option MemType :=
  if hc_size = SIZE_1K then some .mem1k
  else if hc_size = SIZE_2K then some .mem2k
  else if hc_size = SIZE_4K then some .mem4k
  else if hc_size = SIZE_8K then some .mem8k
  else none

def strayed (held : List ℕ) (a : ℕ) : List ℕ := if a ∈ held then [] else [a]

def httpConnFree (conn : ℕ) (s : HttpServer) : Except Fault HttpServer :=
  match s.conns conn with
  | none => .error .wild
  | some c =>
    match c.hc_data with
    | none => .ok s
    | some data => do
      let freed ← mempoolDestroy c.hc_pool
      match memTypeOf c.hc_size with
      | none => .error .wild
      | some pt =>
        -- the `plm_http_conn` itself does not go back to `hc_conn_pool`
        return { s with
          mem_list := ← bufferFree pt data s.mem_list
          conns := Function.update s.conns conn (some { c with hc_pool := mempoolInit 0 })
          pools := s.pools.erase conn
          blocks := Function.update s.blocks conn ((s.blocks conn).diff freed)
          stray := s.stray ++ strayed s.pools conn ++ strayed (s.mem_list pt).held data }

def httpConnAlloc (m : ConnMem) (s : HttpServer) : Except Fault (Option ℕ × HttpServer) := do
  let (conn, hc_conn_pool) ← s.hc_conn_pool.alloc m.conn_alloc m.conn_junk
  match conn with
  | none => return (none, { s with hc_conn_pool := hc_conn_pool })
  | some conn =>
    let (data, mem_list) ← bufferAlloc .mem1k m.buf_alloc m.buf_junk s.mem_list
    match data with
    | none =>
      let hc_conn_pool ← hc_conn_pool.free conn
      return (none, { s with hc_conn_pool := hc_conn_pool, mem_list := mem_list })
    | some data =>
      return (some conn, { s with
        comm := s.comm.store conn ⟨none, httpConnFreeFn, conn⟩
        hc_conn_pool := hc_conn_pool
        mem_list := mem_list
        conns := Function.update s.conns conn (some ⟨mempoolInit 512, some data, SIZE_1K⟩)
        pools := conn :: s.pools })

def callHandlers : List (ℕ × ℕ) → HttpServer → Except Fault HttpServer
  | [], s => .ok s
  | (handler, data) :: calls, s => do
    let s ← if handler = httpConnFreeFn then httpConnFree data s else .error .wild
    callHandlers calls s

/-- `plm_comm_close` with its close handlers, which leave the table alone. Its loop ends in the
first round or never. -/
def httpCommClose (fd : ℕ) (s : HttpServer) : Except Fault HttpServer := do
  let comm ← commClose 1 fd s.comm
  let s' ← callHandlers (comm.called.drop s.comm.called.length) { s with comm := comm }
  return { s' with opened := s'.opened.filter fun e => e.1 ≠ fd }

def httpAccept (fd clifd : ℕ) (m : ConnMem) (s : HttpServer) : Except Fault HttpServer := do
  let comm ← commAccept fd clifd s.comm
  let (conn, s) ← httpConnAlloc m { s with comm := comm }
  match conn with
  | none => httpCommClose clifd s
  | some conn =>
    let comm ← commAddCloseHandler clifd conn s.comm
    return { s with comm := comm, opened := (clifd, conn) :: s.opened }

def httpPalloc (conn : ℕ) (m_alloc : Malloc) (n : ℕ) (s : HttpServer) : Except Fault HttpServer :=
  match s.conns conn with
  | none => .error .wild
  | some c => do
    let (_, hc_pool) ← mempoolAlloc m_alloc n c.hc_pool
    let obtained := hc_pool.blocks.take (hc_pool.blocks.length - c.hc_pool.blocks.length)
    return { s with
      conns := Function.update s.conns conn (some { c with hc_pool := hc_pool })
      blocks := Function.update s.blocks conn (obtained.map Region.addr ++ s.blocks conn) }

/-- What happens to the connections: the server is opened, a connection is accepted, one that is
open asks its pool for an object of a size that fits in memory, and a descriptor is closed. -/
inductive HttpOp
  | openServer (fd : ℕ)
  | accept (fd clifd : ℕ) (m : ConnMem)
  | palloc (conn : ℕ) (m_alloc : Malloc) (n : ℕ) (fits : FitsBlock 512 n)
  | close (fd : ℕ)

/-- The kernel returns no descriptor that is in use. -/
def httpExec (s : HttpServer) : HttpOp → Except Fault HttpServer
  | .openServer fd =>
    if fd ∈ s.opened.map Prod.fst then .error .abort
    else do
      let comm ← commOpen PLM_COMM_TCP fd s.comm
      return { s with comm := comm }
  | .accept fd clifd m =>
    if clifd ∈ s.opened.map Prod.fst then .error .abort else httpAccept fd clifd m s
  | .palloc conn m_alloc n _ =>
    if conn ∈ s.opened.map Prod.snd then httpPalloc conn m_alloc n s else .error .abort
  | .close fd => httpCommClose fd s

def httpStep (s : HttpServer) (op : HttpOp) : Option HttpServer := (httpExec s op).toOption

end Model

section Property

def bufOf (s : HttpServer) (conn : ℕ) : Option ℕ := (s.conns conn).bind HttpConn.hc_data

/-- Of buffers and memory pools those of the connections that are open are held, and no others; the
buffers are of the class they came from, and nothing was given back twice. -/
structure BuffersBalanced (s : HttpServer) : Prop where
  buffers : (s.mem_list .mem1k).held.Perm (s.opened.filterMap fun e => bufOf s e.2)
  classes : ∀ t, t ≠ .mem1k → (s.mem_list t).held = []
  pools : s.pools.Perm (s.opened.map Prod.snd)
  blocks : ∀ conn, conn ∉ s.opened.map Prod.snd → s.blocks conn = []
  stray : s.stray = []

structure ConnsBalanced (s : HttpServer) : Prop extends BuffersBalanced s where
  conns : s.hc_conn_pool.held.Perm (s.opened.map Prod.snd)

def LeavesOpen (s : HttpServer) (op : HttpOp) : Prop :=
  ∀ fd, op = .close fd → fd ∉ s.opened.map Prod.fst

end Property

section Opened

variable {l : List (ℕ × ℕ)} {fd conn : ℕ}

theorem filter_fst_eq_self (h : fd ∉ l.map Prod.fst) : l.filter (fun e => e.1 ≠ fd) = l :=
  List.filter_eq_self.2 fun _ he => decide_eq_true fun heq => h (heq ▸ List.mem_map_of_mem he)

/-- Where no descriptor occurs twice, taking one out takes out its connection. -/
theorem perm_filter_fst (hnd : (l.map Prod.fst).Nodup) (h : (fd, conn) ∈ l) :
    l.Perm ((fd, conn) :: l.filter fun e => e.1 ≠ fd) := by
  induction l with
  | nil => cases h
  | cons x l ih =>
    obtain ⟨hx, hnd⟩ := List.nodup_cons.1 hnd
    rcases List.mem_cons.1 h with rfl | h
    · rw [List.filter_cons_of_neg (by simp), filter_fst_eq_self hx]
    · have hne : x.1 ≠ fd := fun heq => hx (heq ▸ List.mem_map_of_mem h)
      rw [List.filter_cons_of_pos (by simpa using hne)]
      exact ((ih hnd h).cons x).trans (List.Perm.swap ..)

theorem diff_self (l : List ℕ) : l.diff l = [] := by
  induction l with
  | nil => rfl
  | cons a l ih => rw [List.diff_cons, List.erase_cons_head, ih]

end Opened

section Inv

structure Entry (s : HttpServer) (fd conn : ℕ) : Prop where
  held : conn ∈ s.hc_conn_pool.held
  slot : slot s.comm fd = some conn
  handler : s.comm.memory conn = some ⟨none, httpConnFreeFn, conn⟩
  conn : ∃ c data, s.conns conn = some c ∧ c.hc_data = some data ∧ c.hc_size = memSize .mem1k ∧
    PoolInv 512 c.hc_pool ∧ s.blocks conn = c.hc_pool.blocks.map Region.addr

structure ServerInv (s : HttpServer) : Prop extends BuffersBalanced s where
  pool : s.hc_conn_pool.Kept
  lists : ∀ t, (s.mem_list t).Kept
  fds : (s.opened.map Prod.fst).Nodup
  addrs : (s.opened.map Prod.snd).Nodup
  entry : ∀ fd conn, (fd, conn) ∈ s.opened → Entry s fd conn
  stale : ∀ fd, openFlag s.comm fd = true → slot s.comm fd ≠ none → fd ∈ s.opened.map Prod.fst

structure SameConns (s s' : HttpServer) : Prop where
  opened : s'.opened = s.opened
  held : s'.hc_conn_pool.held = s.hc_conn_pool.held
  slots : ∀ fd, slot s'.comm fd = slot s.comm fd

inductive Moved (s s' : HttpServer) : HttpOp → Prop
  | stays {op : HttpOp} (leaves : LeavesOpen s op) (same : SameConns s s') : Moved s s' op
  | accepts {fd clifd : ℕ} {m : ConnMem} (conn : ℕ) (opened : s'.opened = (clifd, conn) :: s.opened)
      (held : s'.hc_conn_pool.held = conn :: s.hc_conn_pool.held)
      (slots : ∀ f, slot s'.comm f = if f = clifd then some conn else slot s.comm f) : Moved s s'
      (.accept fd clifd m)
  | closes {fd : ℕ} (conn : ℕ) (mem : (fd, conn) ∈ s.opened)
    (opened : s'.opened = s.opened.filter fun e => e.1 ≠ fd)
      (held : s'.hc_conn_pool.held = s.hc_conn_pool.held) : Moved s s' (.close fd)

/-- The descriptor that is opened has no close handler left over. -/
def FreshNumber (s : HttpServer) : HttpOp → Prop
  | .openServer fd => slot s.comm fd = none
  | .accept _ clifd _ => slot s.comm clifd = none
  | .palloc _ _ _ _ => True
  | .close _ => True

variable {s s' s1 : HttpServer} {fd clifd conn : ℕ} {op : HttpOp} {m : ConnMem}

theorem SameConns.trans (h : SameConns s s1) (h' : SameConns s1 s') : SameConns s s' :=
  ⟨h'.opened.trans h.opened, h'.held.trans h.held, fun fd => (h'.slots fd).trans (h.slots fd)⟩

theorem httpStep_eq_some : httpStep s op = some s' ↔ httpExec s op = .ok s' := by
  unfold httpStep
  cases httpExec s op <;> simp [Except.toOption]

theorem memTypeOf_memSize (t : MemType) : memTypeOf (memSize t) = some t := by
  cases t <;> rfl

/-- Whatever happens to its memory pool, a connection keeps its buffer. -/
theorem bufOf_update {c : HttpConn} (hc : s.conns conn = some c) (hc_pool : PoolState) (a : ℕ) :
    (Function.update s.conns conn (some { c with hc_pool := hc_pool }) a).bind HttpConn.hc_data =
      bufOf s a := by
  rcases eq_or_ne a conn with rfl | ha
  · rw [Function.update_self, bufOf, hc]
    rfl
  · rw [Function.update_of_ne ha, bufOf]

namespace ServerInv

theorem not_mem_fds (h : ServerInv s) (hs : slot s.comm fd = none) :
    fd ∉ s.opened.map Prod.fst := by
  intro hmem
  obtain ⟨⟨f, conn⟩, he, rfl⟩ := List.mem_map.1 hmem
  rw [(h.entry f conn he).slot] at hs
  cases hs

/-- A change to the table that leaves the handlers. -/
theorem withComm (h : ServerInv s) {comm : Comm} (hslots : ∀ fd, slot comm fd = slot s.comm fd)
    (hmem : comm.memory = s.comm.memory)
    (hstale : ∀ fd, openFlag comm fd = true → openFlag s.comm fd = true ∨ slot s.comm fd = none) :
    ServerInv { s with comm := comm } := by
  refine ⟨⟨h.buffers, h.classes, h.pools, h.blocks, h.stray⟩, h.pool, h.lists, h.fds, h.addrs,
    fun fd conn he => ?_, fun fd ho hs => ?_⟩
  · obtain ⟨hheld, hslot, hhandler, hconn⟩ := h.entry fd conn he
    exact ⟨hheld, (hslots fd).trans hslot, (congrFun hmem conn).trans hhandler, hconn⟩
  · have hs' : slot s.comm fd ≠ none := by rwa [← hslots fd]
    exact (hstale fd ho).elim (fun ho => h.stale fd ho hs') fun hnone => absurd hnone hs'

theorem withLists (h : ServerInv s) {r : LlRun} {l : Buffers} (hr : r.Kept)
    (hheld : r.held = s.hc_conn_pool.held)
    (hl : ∀ t, (l t).Kept) (hlheld : ∀ t, (l t).held = (s.mem_list t).held) :
    ServerInv { s with hc_conn_pool := r, mem_list := l } := by
  refine ⟨⟨?_, ?_, h.pools, h.blocks, h.stray⟩, hr, hl, h.fds, h.addrs, ?_, h.stale⟩
  · simp only [hlheld]
    exact h.buffers
  · simp only [hlheld]
    exact h.classes
  · intro fd conn he
    obtain ⟨hmem, hslot, hhandler, hconn⟩ := h.entry fd conn he
    exact ⟨hheld ▸ hmem, hslot, hhandler, hconn⟩

theorem closeTable (h : ServerInv s) {comm : Comm} (hcl : commClose 1 fd s.comm = .ok comm) :
    ServerInv { s with comm := comm } := by
  refine h.withComm (slot_commClose hcl) (memory_commClose hcl) fun f ho => .inl ?_
  rw [openFlag_commClose hcl] at ho
  split_ifs at ho
  exact ho

/-- Closing a descriptor that has no handler changes no connection. -/
theorem closeBare (h : ServerInv s) (hs : slot s.comm fd = none)
    (hc : httpCommClose fd s = .ok s') :
    ServerInv s' ∧ SameConns s s' := by
  obtain ⟨comm, hcl, hc⟩ := bind_eq_ok.1 hc
  have hcalled : comm.called.drop s.comm.called.length = [] := by
    rw [called_commClose_none hcl hs, List.drop_length]
  rw [hcalled, callHandlers, ok_bind, pure_ok, Except.ok.injEq] at hc
  subst hc
  have hsame : s.opened.filter (fun e => e.1 ≠ fd) = s.opened :=
    filter_fst_eq_self (h.not_mem_fds hs)
  refine ⟨?_, hsame, rfl, slot_commClose hcl⟩
  simp only [hsame]
  exact h.closeTable hcl

/-- The close handler of a connection gives back its buffer and its memory pool, each once. -/
theorem connFree (h : ServerInv s) (he : (fd, conn) ∈ s.opened) : ∃ c data r,
    httpConnFree conn s = .ok { s with
      mem_list := Function.update s.mem_list .mem1k r
      conns := Function.update s.conns conn (some { c with hc_pool := mempoolInit 0 })
      pools := s.pools.erase conn
      blocks := Function.update s.blocks conn [] } ∧
    s.conns conn = some c ∧ c.hc_data = some data ∧ data ∈ (s.mem_list .mem1k).held ∧
    (∀ t, (Function.update s.mem_list .mem1k r t).Kept) ∧ r.held =
    (s.mem_list .mem1k).held.erase data := by
  obtain ⟨-, -, -, c, data, hc, hdata, hsize, hpool, hblocks⟩ := h.entry fd conn he
  have hheld : data ∈ (s.mem_list .mem1k).held := by
    refine h.buffers.symm.subset (List.mem_filterMap.2 ⟨_, he, ?_⟩)
    rw [bufOf, hc, Option.bind_some, hdata]
  have hpools : conn ∈ s.pools := h.pools.symm.subset (List.mem_map_of_mem he)
  obtain ⟨r, hr, hkept, hrheld⟩ := bufferFree_spec h.lists hheld
  refine ⟨c, data, r, ?_, hc, hdata, hheld, hkept, hrheld⟩
  have hfreed : mempoolDestroy c.hc_pool = .ok (s.blocks conn) := by
    rw [hblocks]
    exact hpool.list.drain fun _ _ => rfl
  unfold httpConnFree
  simp only [hc, hdata, hfreed, hsize, memTypeOf_memSize, hr, ok_bind, pure_ok, diff_self, strayed,
    if_pos hpools, if_pos hheld, List.append_nil]

/-- Closing the descriptor of a connection gives back all but its `plm_http_conn`. -/
theorem closeOpen (h : ServerInv s) (he : (fd, conn) ∈ s.opened)
    (hc : httpCommClose fd s = .ok s') :
    ServerInv s' ∧ s'.opened = s.opened.filter (fun e => e.1 ≠ fd) ∧
      s'.hc_conn_pool.held = s.hc_conn_pool.held := by
  obtain ⟨comm, hcl, hc⟩ := bind_eq_ok.1 hc
  have h1 : ServerInv { s with comm := comm } := h.closeTable hcl
  have hentry := h.entry fd conn he
  have hcalled : comm.called.drop s.comm.called.length = [(httpConnFreeFn, conn)] := by
    rw [called_commClose_last hcl hentry.slot hentry.handler rfl, List.drop_left]
  obtain ⟨c, data, r, hfree, hcc, hdata, hheld, hkept, hrheld⟩ := h1.connFree he
  simp only [hcalled, callHandlers, if_true, hfree, ok_bind, pure_ok, Except.ok.injEq] at hc
  subst hc
  have hperm := perm_filter_fst h.fds he
  have hsub : ∀ e, e ∈ s.opened.filter (fun e => e.1 ≠ fd) → e ∈ s.opened :=
    fun e he => List.mem_of_mem_filter he
  have hnot : conn ∉ (s.opened.filter fun e => e.1 ≠ fd).map Prod.snd :=
    (List.nodup_cons.1 ((hperm.map Prod.snd).nodup_iff.1 h.addrs)).1
  have hbuf := bufOf_update hcc (mempoolInit 0)
  refine ⟨⟨⟨?_, ?_, ?_, ?_, h.stray⟩, h.pool, hkept, ?_, ?_, ?_, ?_⟩, rfl, rfl⟩
  · simp only [Function.update_self, hrheld, bufOf, hbuf]
    have hbufs := (h.buffers.trans (hperm.filterMap fun e => bufOf s e.2)).erase data
    have hdata' : bufOf s conn = some data := (congrArg (·.bind HttpConn.hc_data) hcc).trans hdata
    rwa [List.filterMap_cons_some (f := fun e : ℕ × ℕ => bufOf s e.2) hdata',
      List.erase_cons_head] at hbufs
  · intro t ht
    simp only [Function.update_of_ne ht]
    exact h.classes t ht
  · have hpools := (h.pools.trans (hperm.map Prod.snd)).erase conn
    rwa [List.map_cons, List.erase_cons_head] at hpools
  · intro a ha
    rcases eq_or_ne a conn with rfl | hne
    · exact Function.update_self ..
    · simp only [Function.update_of_ne hne]
      refine h.blocks a fun hmem => ?_
      have := (hperm.map Prod.snd).subset hmem
      exact (List.mem_cons.1 this).elim hne ha
  · exact h.fds.sublist (List.filter_sublist.map Prod.fst)
  · exact h.addrs.sublist (List.filter_sublist.map Prod.snd)
  · intro f a hfa
    have hne : a ≠ conn := fun heq => hnot (heq ▸ List.mem_map_of_mem hfa)
    obtain ⟨hmem, hslot, hhandler, hconn⟩ := h1.entry f a (hsub _ hfa)
    refine ⟨hmem, hslot, hhandler, ?_⟩
    simp only [Function.update_of_ne hne]
    exact hconn
  · intro f ho hs
    have hf : f ≠ fd := by
      rintro rfl
      rw [openFlag_commClose hcl, if_pos rfl] at ho
      cases ho
    obtain ⟨e, hmem, rfl⟩ := List.mem_map.1 (h1.stale f ho hs)
    exact List.mem_map_of_mem (List.mem_filter.2 ⟨hmem, decide_eq_true hf⟩)

/-- Without memory for both, what was obtained goes back at once. -/
theorem connAlloc (h : ServerInv s) (m : ConnMem) : ∃ o s1, httpConnAlloc m s = .ok (o, s1) ∧
    ((o = none ∧ ServerInv s1 ∧ SameConns s s1) ∨ ∃ conn data r r', o = some conn ∧
      s1 = { s with
        comm := s.comm.store conn ⟨none, httpConnFreeFn, conn⟩
        hc_conn_pool := r
        mem_list := Function.update s.mem_list .mem1k r'
        conns := Function.update s.conns conn (some ⟨mempoolInit 512, some data, SIZE_1K⟩)
        pools := conn :: s.pools } ∧
      r.Kept ∧ r.held = conn :: s.hc_conn_pool.held ∧
      (∀ t, (Function.update s.mem_list .mem1k r' t).Kept) ∧ r'.held = data ::
      (s.mem_list .mem1k).held) := by
  obtain ⟨o, r, hr, hkept, hheld⟩ := h.pool.alloc m.conn_alloc m.conn_junk
  unfold httpConnAlloc
  rw [hr, ok_bind]
  cases o with
  | none =>
    refine ⟨none, _, rfl,
      .inl ⟨rfl, h.withLists hkept hheld h.lists fun _ => rfl, rfl, hheld, fun _ => rfl⟩⟩
  | some conn =>
    obtain ⟨o, r', hr', hkept', hheld'⟩ := bufferAlloc_spec h.lists .mem1k m.buf_alloc m.buf_junk
    simp only [hr', ok_bind]
    cases o with
    | none =>
      obtain ⟨r1, hr1, hkept1, hheld1⟩ := hkept.free (show conn ∈ r.held by rw [hheld]; simp)
      rw [hr1, ok_bind]
      have hback : r1.held = s.hc_conn_pool.held := by
        rw [hheld1, hheld, Option.toList_some, List.singleton_append, List.erase_cons_head]
      refine ⟨none, _, rfl,
        .inl ⟨rfl, h.withLists hkept1 hback hkept' fun t => ?_, rfl, hback, fun _ => rfl⟩⟩
      rcases eq_or_ne t .mem1k with rfl | ht
      · rw [Function.update_self]
        exact hheld'
      · rw [Function.update_of_ne ht]
    | some data =>
      exact ⟨some conn, _, rfl, .inr ⟨conn, data, r, r', rfl, rfl, hkept, hheld, hkept', hheld'⟩⟩

/-- A connection with its close handler on a descriptor that had none. -/
theorem connOpen (h : ServerInv s) (hs : slot s.comm clifd = none) {data : ℕ} {r r' : LlRun}
    {comm : Comm} (hr : r.Kept)
    (hheld : r.held = conn :: s.hc_conn_pool.held)
    (hlists : ∀ t, (Function.update s.mem_list .mem1k r' t).Kept)
    (hheld' : r'.held = data :: (s.mem_list .mem1k).held)
    (hadd : commAddCloseHandler clifd conn (s.comm.store conn ⟨none, httpConnFreeFn,
      conn⟩) = .ok comm) :
    ServerInv { s with
      comm := comm
      hc_conn_pool := r
      mem_list := Function.update s.mem_list .mem1k r'
      conns := Function.update s.conns conn (some ⟨mempoolInit 512, some data, SIZE_1K⟩)
      pools := conn :: s.pools
      opened := (clifd, conn) :: s.opened } ∧
    ∀ f, slot comm f = if f = clifd then some conn else slot s.comm f := by
  obtain ⟨handler, cf, hmem, hg, rfl⟩ := commAddCloseHandler_ok.1 hadd
  have hget : s.comm.get clifd = .ok cf := hg
  obtain rfl : ⟨none, httpConnFreeFn, conn⟩ = handler := by simpa [Comm.store] using hmem
  have hnone : cf.cf_handler = none := by rw [← slot_of_get hget, hs]
  have hslots := slot_commAddCloseHandler hadd
  have hflags := openFlag_commAddCloseHandler hadd
  -- the pool hands out no object that is still held, so none of a connection that is open
  have hnew : conn ∉ s.opened.map Prod.snd := by
    intro hmem
    obtain ⟨⟨f, a⟩, he, rfl⟩ := List.mem_map.1 hmem
    have hnd := hr.nodup
    rw [hheld] at hnd
    exact (List.nodup_cons.1 hnd).1 (h.entry f a he).held
  refine ⟨⟨⟨?_, ?_, h.pools.cons conn, ?_, h.stray⟩, hr, hlists,
    List.nodup_cons.2 ⟨h.not_mem_fds hs, h.fds⟩,
    List.nodup_cons.2 ⟨hnew, h.addrs⟩, ?_, ?_⟩, fun f => hslots f⟩
  · have hbuf : ∀ e ∈ s.opened, (Function.update s.conns conn (some ⟨mempoolInit 512, some data,
      SIZE_1K⟩) e.2).bind
        HttpConn.hc_data = bufOf s e.2 := by
      intro e he
      rw [Function.update_of_ne fun heq => hnew (List.mem_map.2 ⟨e, he, heq⟩), bufOf]
    simp only [Function.update_self, hheld', bufOf]
    rw [List.filterMap_cons_some (by rw [Function.update_self]; rfl), List.filterMap_congr hbuf]
    exact h.buffers.cons data
  · intro t ht
    simp only [Function.update_of_ne ht]
    exact h.classes t ht
  · intro a ha
    exact h.blocks a fun hmem => ha (List.mem_cons_of_mem _ hmem)
  · intro f a hfa
    rcases List.mem_cons.1 hfa with heq | hfa
    · obtain ⟨rfl, rfl⟩ := Prod.mk.inj heq
      refine ⟨by rw [hheld]; exact List.mem_cons_self, (hslots f).trans (if_pos rfl), ?_, ?_⟩
      · simp [Comm.set, Comm.store, hnone]
      · refine ⟨_, data, Function.update_self .., rfl, rfl, poolInv_init 512, ?_⟩
        exact h.blocks a hnew
    · have hne : a ≠ conn := fun heq => hnew (List.mem_map.2 ⟨_, hfa, heq⟩)
      have hf : f ≠ clifd := fun heq => h.not_mem_fds hs (List.mem_map.2 ⟨_, hfa, heq⟩)
      obtain ⟨hmem, hslot, hhandler, hconn⟩ := h.entry f a hfa
      refine ⟨by rw [hheld]; exact List.mem_cons_of_mem _ hmem, ?_, ?_, ?_⟩
      · rw [hslots, if_neg hf]
        exact hslot
      · simpa [Comm.set, Comm.store, hne] using hhandler
      · simp only [Function.update_of_ne hne]
        exact hconn
  · intro f ho hsl
    rw [hflags] at ho
    rw [hslots] at hsl
    split_ifs at ho hsl with hf
    · exact hf ▸ List.mem_cons_self
    · exact List.mem_cons_of_mem _ (h.stale f ho hsl)

/-- An object comes from the pool of a connection, or there is no memory for it. -/
theorem palloc (h : ServerInv s) (he : (fd, conn) ∈ s.opened) {m_alloc : Malloc} {n : ℕ}
    (fits : FitsBlock 512 n)
    (hp : httpPalloc conn m_alloc n s = .ok s') : ServerInv s' ∧ SameConns s s' := by
  obtain ⟨-, -, -, c, data, hc, hdata, hsize, hpool, hblocks⟩ := h.entry fd conn he
  obtain ⟨o, hc_pool, halloc, hpool', hserved⟩ := mempoolAlloc_spec (by decide) fits m_alloc hpool
  simp only [httpPalloc, hc, halloc, ok_bind, pure_ok, Except.ok.injEq] at hp
  subst hp
  obtain ⟨obtained, hobtained⟩ := hserved.blocks
  have htake : hc_pool.blocks.take
    (hc_pool.blocks.length - c.hc_pool.blocks.length) = obtained := by
    rw [← hobtained, List.length_append, Nat.add_sub_cancel, List.take_left]
  have hbuf := bufOf_update hc hc_pool
  refine ⟨⟨⟨?_, h.classes, h.pools, ?_, h.stray⟩, h.pool, h.lists, h.fds, h.addrs, ?_, h.stale⟩,
    rfl, rfl, fun _ => rfl⟩
  · simp only [bufOf, hbuf]
    exact h.buffers
  · intro a ha
    have hne : a ≠ conn := fun heq => ha (List.mem_map.2 ⟨_, he, heq.symm⟩)
    simp only [Function.update_of_ne hne]
    exact h.blocks a ha
  · intro f a hfa
    obtain ⟨hmem, hslot, hhandler, hconn⟩ := h.entry f a hfa
    refine ⟨hmem, hslot, hhandler, ?_⟩
    rcases eq_or_ne a conn with rfl | hne
    · simp only [Function.update_self]
      refine ⟨_, data, rfl, hdata, hsize, hpool', ?_⟩
      rw [htake, hblocks, ← List.map_append, hobtained]
    · simp only [Function.update_of_ne hne]
      exact hconn

/-- A connection that is accepted is open behind it, or all is as it was. -/
theorem accept (h : ServerInv s) (hs : slot s.comm clifd = none)
    (hc : httpAccept fd clifd m s = .ok s') :
    ServerInv s' ∧ Moved s s' (.accept fd clifd m) := by
  obtain ⟨comm, hacc, hc⟩ := bind_eq_ok.1 hc
  have hslots := slot_commAccept hacc
  have h1 : ServerInv { s with comm := comm } := by
    refine h.withComm hslots (memory_commAccept hacc) fun f ho => ?_
    rw [openFlag_commAccept hacc] at ho
    split_ifs at ho with hf
    · exact .inr (hf.1 ▸ hs)
    · exact .inl ho
  have hs1 : slot comm clifd = none := (hslots clifd).trans hs
  obtain ⟨o, s1, halloc,
    ⟨rfl, h2, hsame⟩ | ⟨conn, data, r, r', rfl, rfl, hr, hheld, hlists, hheld'⟩⟩ := h1.connAlloc m
  · rw [halloc, ok_bind] at hc
    obtain ⟨h3, hsame'⟩ := h2.closeBare ((hsame.slots clifd).trans hs1) hc
    have hall := hsame.trans hsame'
    exact ⟨h3, .stays nofun ⟨hall.opened, hall.held, fun f => (hall.slots f).trans (hslots f)⟩⟩
  · rw [halloc, ok_bind] at hc
    obtain ⟨comm', hadd, hc⟩ := bind_eq_ok.1 hc
    obtain rfl := Except.ok.inj hc
    obtain ⟨h3, hslots'⟩ := h1.connOpen hs1 hr hheld hlists hheld' hadd
    refine ⟨h3, .accepts conn rfl hheld fun f => (hslots' f).trans ?_⟩
    rw [← hslots f]

/-- The step lemma, where a descriptor that is opened has no handler left over. -/
theorem step (h : ServerInv s) (hfresh : FreshNumber s op) (hstep : httpStep s op = some s') :
    ServerInv s' ∧ Moved s s' op := by
  have hexec := httpStep_eq_some.1 hstep
  cases op with
  | openServer fd =>
    rw [httpExec] at hexec
    split_ifs at hexec
    obtain ⟨comm, hopen, hexec⟩ := bind_eq_ok.1 hexec
    obtain rfl := Except.ok.inj hexec
    have hslots := slot_commOpen hopen
    refine
      ⟨h.withComm hslots (memory_commOpen hopen) fun f ho => ?_, .stays nofun ⟨rfl, rfl, hslots⟩⟩
    rw [openFlag_commOpen hopen] at ho
    split_ifs at ho with hf
    · exact .inr (hf ▸ hfresh)
    · exact .inl ho
  | accept fd clifd m =>
    rw [httpExec] at hexec
    split_ifs at hexec
    exact h.accept hfresh hexec
  | palloc conn m_alloc n fits =>
    rw [httpExec] at hexec
    split_ifs at hexec with hmem
    obtain ⟨⟨fd, a⟩, he, rfl⟩ := List.mem_map.1 hmem
    obtain ⟨h', hsame⟩ := h.palloc he fits hexec
    exact ⟨h', .stays nofun hsame⟩
  | close fd =>
    by_cases hmem : fd ∈ s.opened.map Prod.fst
    · obtain ⟨⟨f, conn⟩, he, rfl⟩ := List.mem_map.1 hmem
      obtain ⟨h', hopened, hheld⟩ := h.closeOpen he hexec
      exact ⟨h', .closes conn he hopened hheld⟩
    · -- an entry that is open has the handler of a connection, or none
      have hs : slot s.comm fd = none := by
        obtain ⟨comm, hcl, -⟩ := bind_eq_ok.1 hexec
        obtain ⟨cf, c₁, hg, ho, -⟩ := commClose_ok hcl
        by_contra hne
        exact hmem (h.stale fd ((openFlag_of_get hg).trans ho) hne)
      obtain ⟨h', hsame⟩ := h.closeBare hs hexec
      refine ⟨h', .stays ?_ hsame⟩
      rintro _ ⟨⟩
      exact hmem

end ServerInv

end Inv

section Run

variable (p : HttpParam) (ops : List HttpOp)

theorem slot_zeroTable (n fd : ℕ) : slot (zeroTable n) fd = none := by
  unfold slot zeroTable
  rw [List.getElem?_replicate]
  split_ifs <;> rfl

theorem serverInv_start : ServerInv (httpStart p) := by
  refine ⟨⟨List.Perm.nil, fun _ _ => rfl, List.Perm.nil, fun _ _ => rfl, rfl⟩,
    LlRun.kept_start _ p.fits _ _ _ _ _,
    buffers_kept_init _ _ _ _, List.nodup_nil, List.nodup_nil, nofun, fun fd _ hs => ?_⟩
  exact absurd (slot_zeroTable p.sp_maxfd fd) hs

/-- As long as no descriptor is used for a second time, buffers and memory pools balance: those of
the connections that are open are held, and all others were given back once. -/
theorem buffers_balanced
    (hfresh : EachStep httpStep (fun s op _ => FreshNumber s op) (httpStart p) ops) :
    Always httpStep BuffersBalanced (httpStart p) ops :=
  Always.mono (fun _ h => h.toBuffersBalanced)
    (always_of_invariant httpStep (serverInv_start p) (fun _ _ _ h hop hstep =>
      (h.step hop hstep).1) hfresh)

structure Unclosed (s : HttpServer) : Prop where
  inv : ServerInv s
  conns : s.hc_conn_pool.held.Perm (s.opened.map Prod.snd)
  slots : ∀ fd, slot s.comm fd ≠ none → fd ∈ s.opened.map Prod.fst

variable {s s' : HttpServer} {op : HttpOp}

theorem unclosed_start : Unclosed (httpStart p) :=
  ⟨serverInv_start p, List.Perm.nil, fun fd hs => absurd (slot_zeroTable p.sp_maxfd fd) hs⟩

theorem Unclosed.fresh (h : Unclosed s) (hstep : httpStep s op = some s') : FreshNumber s op := by
  have hexec := httpStep_eq_some.1 hstep
  have hnone : ∀ fd, fd ∉ s.opened.map Prod.fst → slot s.comm fd = none := fun fd hmem =>
    not_not.1 fun hs => hmem (h.slots fd hs)
  cases op with
  | openServer fd =>
    rw [httpExec] at hexec
    split_ifs at hexec with hmem
    exact hnone fd hmem
  | accept fd clifd m =>
    rw [httpExec] at hexec
    split_ifs at hexec with hmem
    exact hnone clifd hmem
  | palloc conn m_alloc n fits => trivial
  | close fd => trivial

theorem Unclosed.step (h : Unclosed s) (hop : LeavesOpen s op) (hstep : httpStep s op = some s') :
    Unclosed s' := by
  obtain ⟨h', hmoved⟩ := h.inv.step (h.fresh hstep) hstep
  cases hmoved with
  | stays leaves same =>
    obtain ⟨hopened, hheld, hslots⟩ := same
    refine ⟨h', by rw [hopened, hheld]; exact h.conns, fun fd hs => ?_⟩
    rw [hslots] at hs
    rw [hopened]
    exact h.slots fd hs
  | accepts conn hopened hheld hslots =>
    refine ⟨h', by rw [hopened, hheld]; exact h.conns.cons conn, fun fd hs => ?_⟩
    rw [hslots] at hs
    rw [hopened]
    split_ifs at hs with hf
    · exact hf ▸ List.mem_cons_self
    · exact List.mem_cons_of_mem _ (h.slots fd hs)
  | closes conn he hopened hheld => exact absurd (List.mem_map_of_mem he) (hop _ rfl)

/-- A connection that is closed leaves its `plm_http_conn` behind. -/
theorem Unclosed.leak (h : Unclosed s) (hstep : httpStep s op = some s') (hb : ConnsBalanced s') :
    LeavesOpen s op := by
  rintro fd rfl hmem
  obtain ⟨-, hmoved⟩ := h.inv.step (h.fresh hstep) hstep
  cases hmoved with
  | stays leaves same => exact leaves fd rfl hmem
  | closes conn he hopened hheld =>
    -- as many objects are held as before, for one connection less
    have hbefore := h.conns.length_eq
    have hbehind := hb.conns.length_eq
    have hfilter := (perm_filter_fst h.inv.fds he).length_eq
    rw [hopened, hheld, hbefore, List.length_map, List.length_map, hfilter,
      List.length_cons] at hbehind
    omega

/-- In every run all three balance exactly as long as no connection is closed. -/
theorem connsBalanced_iff : Always httpStep ConnsBalanced (httpStart p) ops ↔
    EachStep httpStep (fun s op _ => LeavesOpen s op) (httpStart p) ops :=
  always_iff_of_invariant httpStep (unclosed_start p) (eachStep_of_mem httpStep fun _ _ => trivial)
    (fun _ h => ⟨h.inv.toBuffersBalanced, h.conns⟩) (fun _ _ _ h _ hstep hb => h.leak hstep hb)
    (fun _ _ _ h _ hstep hop => h.step hop hstep)

/-- With memory for everything, a connection is accepted and closed. -/
theorem not_connsBalanced : ¬ Always httpStep ConnsBalanced
    (httpStart ⟨8, 1, 7, 0, 0, 512, by decide, 0, 0, 0, fun _ => none, fun _ _ => none⟩)
    [.openServer 3, .accept 3 5 ⟨.bump, [], .bump, []⟩, .close 5] := by
  intro h
  have hrun : ∃ s, run httpStep (httpStart ⟨8, 1, 7, 0, 0, 512, by decide, 0, 0, 0, fun _ => none,
    fun _ _ => none⟩)
      [.openServer 3, .accept 3 5 ⟨.bump, [], .bump, []⟩, .close 5] = some s ∧
      s.hc_conn_pool.held = [4112] ∧ s.opened = [] := ⟨_, rfl, rfl, rfl⟩
  obtain ⟨s, hs, hheld, hopened⟩ := hrun
  have hconns := (h.last hs).conns
  rw [hheld, hopened] at hconns
  exact absurd hconns.length_eq (by decide)

end Run

end Plume.Http
