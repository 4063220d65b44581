import Mathlib.Algebra.Order.Floor.Div
import Plume.CLib.Region
import Plume.CLib.Run
import Plume.CLib.Slist

/-! The memory pool of `plm_mempool.c`: blocks from an allocator, and objects carved out of the
current block one behind the other. -/

namespace Plume
open CLib

/-- `sizeof(struct plm_memnode)`, and so where `m_buf` begins. -/
abbrev memnodeSize : ℕ := 8

abbrev ptrSize : ℕ := 8

/-- `struct plm_mempool`; `m_curr` is `none` for `NULL`. -/
structure Mempool where
  m_blk_list : Slist ℕ
  m_curr : Option ℕ
  m_curr_free : ℕ
  m_init_blksz : ℕ
deriving DecidableEq, Repr

/-- A pool with the links in the headers of its blocks. The blocks obtained and the objects
handed out so far are there for the statements. -/
structure PoolState where
  pool : Mempool
  m_node : Links ℕ
  blocks : List Region
  objs : List Region

section Size

def blkszRound (blksz : ℕ) : ℕ :=
  let m := blksz % ptrSize
  if m ≠ 0 then sizeAdd blksz (ptrSize - m) else blksz

/-- The size of the first block: the header counts towards the object. -/
def blkszFirst (init objsz : ℕ) : ℕ :=
  let blksz := sizeAdd init memnodeSize
  blkszRound (if blksz ≥ objsz then blksz else objsz)

/-- `while (blksz < objsz) blksz += pool->m_init_blksz` -/
def blkszGrow (init objsz : ℕ) : ℕ → ℕ → Except Fault ℕ
  | 0, _ => .error .fuel
  | fuel + 1, blksz =>
    if blksz < objsz then blkszGrow init objsz fuel (sizeAdd blksz init) else .ok blksz

/-- The size of a further block: the header comes on top. Each round of the loop that does not
wrap around adds a byte at least. -/
def blkszNext (init objsz : ℕ) : Except Fault ℕ := do
  let blksz ← blkszGrow init objsz (objsz + 1) init
  return blkszRound (sizeAdd blksz memnodeSize)

end Size

section Pool

def mempoolInit (blk_sz : ℕ) : PoolState := ⟨⟨Slist.init, none, 0, blk_sz⟩, fun _ => none, [], []⟩

def mempoolBlock (m_alloc : Malloc) (blksz : ℕ) (s : PoolState) : Option PoolState :=
  (m_alloc.alloc s.blocks blksz).map fun node =>
    let (m_blk_list, m_node) := s.pool.m_blk_list.addFront node s.m_node
    { s with
      pool := { s.pool with
        m_blk_list := m_blk_list
        m_curr := some (node + memnodeSize)
        m_curr_free := sizeT (blksz - memnodeSize) }
      m_node := m_node
      blocks := ⟨node, blksz⟩ :: s.blocks }

def mempoolCarve (objsz : ℕ) (s : PoolState) : Except Fault (Option ℕ × PoolState) :=
  match s.pool.m_curr with
  | none => .error .wild
  | some data => .ok (some data, { s with
      pool := { s.pool with
        m_curr := some (data + objsz)
        m_curr_free := sizeT (s.pool.m_curr_free - objsz) }
      objs := ⟨data, objsz⟩ :: s.objs })

def mempoolFit (m_alloc : Malloc) (objsz : ℕ) (s : PoolState) :
    Except Fault (Option ℕ × PoolState) :=
  if objsz > s.pool.m_curr_free then do
    let blksz ← blkszNext s.pool.m_init_blksz objsz
    match mempoolBlock m_alloc blksz s with
    | none => return (none, s)
    | some s => mempoolCarve objsz s
  else mempoolCarve objsz s

def mempoolAlloc (m_alloc : Malloc) (objsz : ℕ) (s : PoolState) :
    Except Fault (Option ℕ × PoolState) :=
  if s.pool.m_curr = none then
    match mempoolBlock m_alloc (blkszFirst s.pool.m_init_blksz objsz) s with
    | none => .ok (none, s)
    | some s => mempoolFit m_alloc objsz s
  else mempoolFit m_alloc objsz s

/-- `plm_mempool_destroy`: the blocks it gives to `m_free`. -/
def mempoolDestroy (s : PoolState) : Except Fault (List ℕ) :=
  s.pool.m_blk_list.drain (fun _ => .ok ()) s.m_node s.pool.m_blk_list.len

end Pool

section Size

variable {init objsz n : ℕ}

/-- The least multiple of the initial size that holds the object, one block at least. -/
def blkszWanted (init objsz : ℕ) : ℕ := init * max 1 (objsz ⌈/⌉ init)

/-- The size fits a `size_t` together with the header and the rounding. -/
def FitsBlock (init objsz : ℕ) : Prop :=
  blkszWanted init objsz + memnodeSize + (ptrSize - 1) < 2 ^ 64

theorem le_blkszRound (h : n + (ptrSize - 1) < 2 ^ 64) :
    n ≤ blkszRound n ∧ blkszRound n < 2 ^ 64 := by
  have hrest : n % ptrSize < ptrSize := Nat.mod_lt _ (by decide)
  unfold blkszRound
  simp only
  split_ifs with h0
  · rw [sizeAdd_eq (by omega)]
    omega
  · omega

theorem init_le_blkszWanted (init objsz : ℕ) : init ≤ blkszWanted init objsz :=
  Nat.le_mul_of_pos_right _ (Nat.lt_of_lt_of_le Nat.zero_lt_one (Nat.le_max_left ..))

theorem objsz_le_blkszWanted (hinit : 0 < init) (objsz : ℕ) : objsz ≤ blkszWanted init objsz :=
  ((ceilDiv_le_iff_le_mul hinit).1 le_rfl).trans (Nat.mul_le_mul_left _ (Nat.le_max_right ..))

theorem blkszFirst_spec (hinit : 0 < init) (h : FitsBlock init objsz) :
    memnodeSize ≤ blkszFirst init objsz ∧ blkszFirst init objsz < 2 ^ 64 := by
  have hi := init_le_blkszWanted init objsz
  have ho := objsz_le_blkszWanted hinit objsz
  unfold FitsBlock at h
  have hmax : (if init + memnodeSize ≥ objsz then init + memnodeSize else objsz) +
    (ptrSize - 1) < 2 ^ 64 ∧
      memnodeSize ≤ if init + memnodeSize ≥ objsz then init + memnodeSize else objsz := by
    split_ifs <;> omega
  unfold blkszFirst
  simp only
  rw [sizeAdd_eq (by omega)]
  obtain ⟨hge, hlt⟩ := le_blkszRound hmax.1
  exact ⟨hmax.2.trans hge, hlt⟩

theorem mul_lt_objsz_iff {k : ℕ} (hinit : 0 < init) (hk : 1 ≤ k) :
    init * k < objsz ↔ k < max 1 (objsz ⌈/⌉ init) := by
  rw [← Nat.not_le, ← ceilDiv_le_iff_le_mul hinit, Nat.not_le, lt_max_iff]
  omega

/-- The loop goes up to the multiple that is wanted and stops there. -/
theorem blkszGrow_spec (hinit : 0 < init) (h : blkszWanted init objsz < 2 ^ 64) {k fuel : ℕ}
    (hk : 1 ≤ k)
    (hle : k ≤ max 1 (objsz ⌈/⌉ init)) (hfuel : objsz - init * k < fuel) :
    blkszGrow init objsz fuel (init * k) = .ok (blkszWanted init objsz) := by
  induction fuel generalizing k with
  | zero => exact absurd hfuel (Nat.not_lt_zero _)
  | succ fuel ih =>
    rw [blkszGrow]
    split_ifs with hlt
    · have hk' : k + 1 ≤ max 1 (objsz ⌈/⌉ init) := (mul_lt_objsz_iff hinit hk).1 hlt
      have hnext : init * k + init = init * (k + 1) := (Nat.mul_succ ..).symm
      have hwant : init * (k + 1) ≤ blkszWanted init objsz := Nat.mul_le_mul_left _ hk'
      rw [sizeAdd_eq (by omega), hnext]
      exact ih (Nat.le_succ_of_le hk) hk' (by omega)
    · have hge : max 1 (objsz ⌈/⌉ init) ≤ k :=
        Nat.le_of_not_lt fun hc => hlt ((mul_lt_objsz_iff hinit hk).2 hc)
      rw [blkszWanted, Nat.le_antisymm hle hge]

/-- The loop returns, and the block holds the object behind its header. -/
theorem blkszNext_spec (hinit : 0 < init) (h : FitsBlock init objsz) :
    ∃ n, blkszNext init objsz = .ok n ∧ objsz + memnodeSize ≤ n ∧ n < 2 ^ 64 := by
  unfold FitsBlock at h
  have hgrow : blkszGrow init objsz (objsz + 1) (init * 1) = .ok (blkszWanted init objsz) :=
    blkszGrow_spec hinit (by omega) le_rfl (Nat.le_max_left ..) (by omega)
  rw [Nat.mul_one] at hgrow
  obtain ⟨hge, hlt⟩ := le_blkszRound (n := blkszWanted init objsz + memnodeSize) h
  have ho := objsz_le_blkszWanted hinit objsz
  refine ⟨blkszRound (blkszWanted init objsz + memnodeSize), ?_, by omega, hlt⟩
  rw [blkszNext, hgrow, ok_bind, sizeAdd_eq (by omega)]
  rfl

end Size

section Safety

/-- The part of a block behind its header, `m_buf`. -/
def blkBuf (blk : Region) : Region := ⟨blk.addr + memnodeSize, blk.size - memnodeSize⟩

structure PoolInv (init : ℕ) (s : PoolState) : Prop where
  init_eq : s.pool.m_init_blksz = init
  list : s.pool.m_blk_list.Holds s.m_node (s.blocks.map Region.addr)
  apart : s.blocks.Pairwise Region.Apart
  sizes : ∀ b ∈ s.blocks, memnodeSize ≤ b.size
  inside : ∀ o ∈ s.objs, ∃ b ∈ s.blocks, o.Inside (blkBuf b)
  objs : s.objs.Pairwise Region.Apart
  /-- The free part is the end of one of the blocks. -/
  curr : ∀ c, s.pool.m_curr = some c → ∃ b ∈ s.blocks, b.addr + memnodeSize ≤ c ∧
    c + s.pool.m_curr_free = b.fin ∧ b.fin < 2 ^ 64
  free : ∀ c, s.pool.m_curr = some c → ∀ o ∈ s.objs, o.Apart ⟨c, s.pool.m_curr_free⟩

/-- What a call leaves: an object behind all the others' memory, or the objects there were. -/
structure Served (objsz : ℕ) (r : Option ℕ) (s s' : PoolState) : Prop where
  blocks : s.blocks <:+ s'.blocks
  some : ∀ a, r = some a → s'.objs = ⟨a, objsz⟩ :: s.objs ∧
    (∃ b ∈ s'.blocks, (⟨a, objsz⟩ : Region).Inside (blkBuf b)) ∧
      ∀ o ∈ s.objs, Region.Apart ⟨a, objsz⟩ o
  none : r = none → s'.objs = s.objs

variable {init objsz blksz : ℕ} {m_alloc : Malloc} {s s' : PoolState}

theorem poolInv_init (init : ℕ) : PoolInv init (mempoolInit init) where
  init_eq := rfl
  list := Slist.holds_init _
  apart := List.Pairwise.nil
  sizes := by simp [mempoolInit]
  inside := by simp [mempoolInit]
  objs := List.Pairwise.nil
  curr := by simp [mempoolInit]
  free := by simp [mempoolInit]

theorem inside_block {o b : Region} (h : o.Inside (blkBuf b)) (hsz : memnodeSize ≤ b.size) :
    o.Inside b :=
  h.trans (Region.inside_drop hsz)

/-- A block is apart from the others, so from all objects, and it is free. -/
theorem mempoolBlock_inv (h : PoolInv init s) (hsz : memnodeSize ≤ blksz)
    (hb : mempoolBlock m_alloc blksz s = some s') :
    PoolInv init s' ∧ s'.objs = s.objs ∧ s.blocks <:+ s'.blocks ∧ s'.pool.m_curr ≠ none ∧
      s'.pool.m_curr_free = blksz - memnodeSize := by
  obtain ⟨node, halloc, rfl⟩ := Option.map_eq_some_iff.1 hb
  obtain ⟨hfin, hapart⟩ := m_alloc.fresh _ _ _ halloc
  have hfree : sizeT ((blksz : ℤ) - memnodeSize) = blksz - memnodeSize := sizeT_sub hsz
  have hnew : node ∉ s.blocks.map Region.addr := by
    rw [List.mem_map]
    rintro ⟨b, hb, heq⟩
    have hbsz : 0 < b.size := Nat.lt_of_lt_of_le (by decide) (h.sizes b hb)
    exact (hapart b hb).addr_ne (Nat.lt_of_lt_of_le (by decide) hsz) hbsz heq.symm
  have hbuf : ∀ o ∈ s.objs, o.Apart ⟨node + memnodeSize, blksz - memnodeSize⟩ := by
    intro o ho
    obtain ⟨b, hb, hin⟩ := h.inside o ho
    exact (hapart b hb).symm.mono (inside_block hin (h.sizes b hb)) (Region.inside_drop hsz)
  refine ⟨⟨h.init_eq, ?_, List.pairwise_cons.2 ⟨hapart, h.apart⟩, ?_, ?_, h.objs, ?_, ?_⟩, rfl,
    List.suffix_cons _ _, by simp, hfree⟩
  · exact h.list.addFront hnew
  · exact List.forall_mem_cons.2 ⟨hsz, h.sizes⟩
  · intro o ho
    obtain ⟨b, hb, hin⟩ := h.inside o ho
    exact ⟨b, List.mem_cons_of_mem _ hb, hin⟩
  · rintro c hc
    obtain rfl := Option.some.inj hc
    refine ⟨_, List.mem_cons_self, le_rfl, ?_, hfin⟩
    simp only [hfree, Region.fin]
    omega
  · rintro c hc
    obtain rfl := Option.some.inj hc
    simp only [hfree]
    exact hbuf

/-- What is carved off is the front of the free part. -/
theorem mempoolCarve_spec (h : PoolInv init s) (hcurr : s.pool.m_curr ≠ none)
    (hle : objsz ≤ s.pool.m_curr_free) :
    ∃ r s', mempoolCarve objsz s = .ok (r, s') ∧ PoolInv init s' ∧ Served objsz r s s' := by
  obtain ⟨c, hc⟩ := Option.ne_none_iff_exists'.1 hcurr
  obtain ⟨b, hb, hge, hfin, hlt⟩ := h.curr c hc
  have hapart := h.free c hc
  have hfree : sizeT ((s.pool.m_curr_free : ℤ) - objsz) = s.pool.m_curr_free - objsz :=
    sizeT_sub hle
  have hin : (⟨c, objsz⟩ : Region).Inside (blkBuf b) := by
    have := h.sizes b hb
    simp only [Region.Inside, Region.fin, blkBuf] at hfin ⊢
    omega
  have hnew : ∀ o ∈ s.objs, Region.Apart ⟨c, objsz⟩ o := fun o ho =>
    ((hapart o ho).mono (Region.Inside.refl o) (Region.inside_take hle)).symm
  refine ⟨some c,
    ⟨⟨s.pool.m_blk_list, some (c + objsz), s.pool.m_curr_free - objsz, s.pool.m_init_blksz⟩,
    s.m_node, s.blocks, ⟨c, objsz⟩ :: s.objs⟩, ?_,
    ⟨h.init_eq, h.list, h.apart, h.sizes, ?_, ?_, ?_, ?_⟩, List.suffix_refl _, ?_, by simp⟩
  · rw [mempoolCarve, hc]
    simp only [hfree]
  · exact List.forall_mem_cons.2 ⟨⟨b, hb, hin⟩, h.inside⟩
  · exact List.pairwise_cons.2 ⟨hnew, h.objs⟩
  · rintro c' hc'
    obtain rfl := Option.some.inj hc'
    exact ⟨b, hb, by omega, by simp only; omega, hlt⟩
  · rintro c' hc'
    obtain rfl := Option.some.inj hc'
    exact List.forall_mem_cons.2 ⟨Or.inl le_rfl, fun o ho =>
      (hapart o ho).mono (Region.Inside.refl o) (Region.inside_drop hle)⟩
  · rintro a ha
    obtain rfl := Option.some.inj ha
    exact ⟨rfl, ⟨b, hb, hin⟩, hnew⟩

/-- Getting a block first makes no difference to what a call leaves. -/
theorem Served.behind {r : Option ℕ} {s1 : PoolState} (h : Served objsz r s1 s')
    (hobjs : s1.objs = s.objs)
    (hblocks : s.blocks <:+ s1.blocks) : Served objsz r s s' := by
  refine ⟨hblocks.trans h.blocks, ?_, ?_⟩
  · rw [← hobjs]
    exact h.some
  · rw [← hobjs]
    exact h.none

theorem mempoolFit_spec (hinit : 0 < init) (hfit : FitsBlock init objsz) (m_alloc : Malloc)
    (h : PoolInv init s) (hcurr : s.pool.m_curr ≠ none) :
    ∃ r s', mempoolFit m_alloc objsz s = .ok (r, s') ∧ PoolInv init s' ∧ Served objsz r s s' := by
  unfold mempoolFit
  split_ifs with hbig
  · obtain ⟨n, hn, hge, -⟩ := blkszNext_spec hinit hfit
    rw [h.init_eq, hn, ok_bind]
    cases hb : mempoolBlock m_alloc n s with
    | none => exact ⟨none, s, rfl, h, List.suffix_refl _, by simp, fun _ => rfl⟩
    | some s1 =>
      obtain ⟨h1, hobjs, hblocks, hcurr1, hfree⟩ := mempoolBlock_inv h (by omega) hb
      have hle : objsz ≤ s1.pool.m_curr_free := by omega
      obtain ⟨r, s2, hcarve, h2, hserved⟩ := mempoolCarve_spec h1 hcurr1 hle
      exact ⟨r, s2, hcarve, h2, hserved.behind hobjs hblocks⟩
  · exact mempoolCarve_spec h hcurr (Nat.le_of_not_lt hbig)

/-- A call returns, whether there is memory or not. -/
theorem mempoolAlloc_spec (hinit : 0 < init) (hfit : FitsBlock init objsz) (m_alloc : Malloc)
    (h : PoolInv init s) :
    ∃ r s', mempoolAlloc m_alloc objsz s = .ok (r, s') ∧ PoolInv init s' ∧ Served objsz r s s' := by
  unfold mempoolAlloc
  split_ifs with hcurr
  · rw [h.init_eq]
    cases hb : mempoolBlock m_alloc (blkszFirst init objsz) s with
    | none => exact ⟨none, s, rfl, h, List.suffix_refl _, by simp, fun _ => rfl⟩
    | some s1 =>
      obtain ⟨h1, hobjs, hblocks, hcurr1, -⟩ := mempoolBlock_inv h (blkszFirst_spec hinit hfit).1 hb
      obtain ⟨r, s2, hfitted, h2, hserved⟩ := mempoolFit_spec hinit hfit m_alloc h1 hcurr1
      exact ⟨r, s2, hfitted, h2, hserved.behind hobjs hblocks⟩
  · exact mempoolFit_spec hinit hfit m_alloc h hcurr

structure PoolCall where
  m_alloc : Malloc
  objsz : ℕ

def mempoolAllocs : List PoolCall → PoolState → Except Fault PoolState
  | [], s => .ok s
  | c :: calls, s => do
    let (_, s) ← mempoolAlloc c.m_alloc c.objsz s
    mempoolAllocs calls s

theorem mempoolAllocs_inv (hinit : 0 < init) {calls : List PoolCall}
    (hfit : ∀ c ∈ calls, FitsBlock init c.objsz)
    (h : PoolInv init s) : ∃ s', mempoolAllocs calls s = .ok s' ∧ PoolInv init s' := by
  induction calls generalizing s with
  | nil => exact ⟨s, rfl, h⟩
  | cons c calls ih =>
    obtain ⟨hc, hcalls⟩ := List.forall_mem_cons.1 hfit
    obtain ⟨r, s1, hs1, h1, -⟩ := mempoolAlloc_spec hinit hc c.m_alloc h
    obtain ⟨s2, hs2, h2⟩ := ih hcalls h1
    refine ⟨s2, ?_, h2⟩
    rw [mempoolAllocs, hs1]
    exact hs2

/-- Behind any calls all objects lie apart in the buffers of the blocks, and destroying the pool
frees each block once. One more call returns too: with an object of the size asked for, in the
buffer of a block and apart from all objects before, or with `NULL`, and all is as it was. -/
theorem mempool_safe (init : ℕ) (hinit : 0 < init) (calls : List PoolCall)
    (hfit : ∀ c ∈ calls, FitsBlock init c.objsz) :
    ∃ s, mempoolAllocs calls (mempoolInit init) = .ok s ∧
      s.blocks.Pairwise Region.Apart ∧ s.objs.Pairwise Region.Apart ∧
      (∀ o ∈ s.objs, ∃ b ∈ s.blocks, o.Inside (blkBuf b)) ∧
      mempoolDestroy s = .ok (s.blocks.map Region.addr) ∧ (s.blocks.map Region.addr).Nodup ∧
      ∀ (m_alloc : Malloc) (objsz : ℕ), FitsBlock init objsz →
        ∃ r s', mempoolAlloc m_alloc objsz s = .ok (r, s') ∧ Served objsz r s s' := by
  obtain ⟨s, hs, h⟩ := mempoolAllocs_inv hinit hfit (poolInv_init init)
  refine ⟨s, hs, h.apart, h.objs, h.inside, h.list.drain fun _ _ => rfl, h.list.nodup,
    fun m_alloc objsz hobj => ?_⟩
  obtain ⟨r, s', hr, -, hserved⟩ := mempoolAlloc_spec hinit hobj m_alloc h
  exact ⟨r, s', hr, hserved⟩

/-- A small object, a large one for which there is no memory, and then there is. -/
theorem mempool_safe_grown : ∃ s,
    mempoolAllocs [⟨.bump, 8⟩, ⟨.fails, 100⟩, ⟨.bump, 100⟩] (mempoolInit 16) = .ok s ∧
      s.objs.Pairwise Region.Apart ∧ s.objs = [⟨4128, 100⟩, ⟨4104, 8⟩] ∧
        mempoolDestroy s = .ok [4120, 4096] := by
  have hfit : ∀ c ∈ [(⟨.bump, 8⟩ : PoolCall), ⟨.fails, 100⟩,
    ⟨.bump, 100⟩], FitsBlock 16 c.objsz := by
    simp [FitsBlock, blkszWanted, Nat.ceilDiv_eq_add_pred_div, memnodeSize]
  obtain ⟨s, hs, -, hobjs, -⟩ := mempool_safe 16 (by decide) _ hfit
  refine ⟨s, hs, hobjs, ?_⟩
  cases hs
  exact ⟨rfl, rfl⟩

end Safety

end Plume
