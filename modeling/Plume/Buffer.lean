import Plume.Conservation

/-! The buffers of `plm_buffer.c`, a lookaside list for each of four sizes, and lookaside lists with
what their clients hold of them. -/

namespace Plume
open CLib

section Client

variable {r : LlRun} {obj : ℕ}

def LlRun.alloc (ll_alloc : Malloc) (junk : Bytes) (r : LlRun) : Except Fault (Option ℕ × LlRun) :=
  do
  let (obj, st) ← lookasideListAlloc ll_alloc junk none r.st
  return (obj, ⟨st, obj.toList ++ r.held⟩)

def LlRun.free (obj : ℕ) (r : LlRun) : Except Fault LlRun := do
  let st ← lookasideListFree obj none r.st
  return ⟨st, r.held.erase obj⟩

/-- What is held has been handed out and not been taken back. -/
def LlRun.Kept (r : LlRun) : Prop := ∃ cached, Conserved r.st r.held cached

theorem LlRun.kept_start (high_level : ℤ) {obj_sz : ℕ} (hsz : obj_sz + llnSize < 2 ^ 64)
    (tag : UInt32)
    (zero_memory tag_check thrdsafe : ℤ) (mem : ℕ → Option LlObj) :
    (llStart high_level obj_sz tag zero_memory tag_check thrdsafe mem).Kept :=
  ⟨[], conserved_start high_level hsz tag zero_memory tag_check thrdsafe mem⟩

theorem LlRun.Kept.nodup (h : r.Kept) : r.held.Nodup := by
  obtain ⟨cached, h⟩ := h
  exact List.Nodup.of_map _ (List.nodup_append.1 h.inv.nodup).1

theorem LlRun.Kept.alloc (h : r.Kept) (ll_alloc : Malloc) (junk : Bytes) : ∃ obj r',
    r.alloc ll_alloc junk = .ok (obj, r') ∧ r'.Kept ∧ r'.held = obj.toList ++ r.held := by
  obtain ⟨cached, h⟩ := h
  obtain ⟨obj, st, cached', hst, h'⟩ := h.alloc ll_alloc junk none
  exact ⟨obj, ⟨st, obj.toList ++ r.held⟩, by rw [LlRun.alloc, hst]; rfl, ⟨cached', h'⟩, rfl⟩

theorem LlRun.Kept.free (h : r.Kept) (hobj : obj ∈ r.held) : ∃ r',
    r.free obj = .ok r' ∧ r'.Kept ∧ r'.held = r.held.erase obj := by
  obtain ⟨cached, h⟩ := h
  obtain ⟨st, cached', hst, h'⟩ := h.free hobj none
  exact ⟨⟨st, r.held.erase obj⟩, by rw [LlRun.free, hst]; rfl, ⟨cached', h'⟩, rfl⟩

end Client

section Buffer

inductive MemType
  | mem8k | mem4k | mem2k | mem1k
deriving DecidableEq, Repr

abbrev SIZE_8K : ℕ := 8192
abbrev SIZE_4K : ℕ := 4096
abbrev SIZE_2K : ℕ := 2048
abbrev SIZE_1K : ℕ := 1024

def memSize : MemType → ℕ
  | .mem8k => SIZE_8K
  | .mem4k => SIZE_4K
  | .mem2k => SIZE_2K
  | .mem1k => SIZE_1K

abbrev Buffers := MemType → LlRun

/-- `plm_buffer_init`; there may be anything in memory. -/
def bufferInit (thrdsafe tagchk zeromem : ℤ) (mem : MemType → ℕ → Option LlObj) : Buffers :=
  fun type => llStart (-1) (memSize type) (-1) zeromem tagchk thrdsafe (mem type)

def bufferAlloc (type : MemType) (ll_alloc : Malloc) (junk : Bytes) (mem_list : Buffers) :
    Except Fault (Option ℕ × Buffers) := do
  let (buf, r) ← (mem_list type).alloc ll_alloc junk
  return (buf, Function.update mem_list type r)

def bufferFree (type : MemType) (buf : ℕ) (mem_list : Buffers) : Except Fault Buffers := do
  let r ← (mem_list type).free buf
  return Function.update mem_list type r

variable {mem_list : Buffers} {type : MemType} {buf : ℕ}

theorem buffers_kept_init (thrdsafe tagchk zeromem : ℤ) (mem : MemType → ℕ → Option LlObj)
    (type : MemType) :
    (bufferInit thrdsafe tagchk zeromem mem type).Kept :=
  LlRun.kept_start (-1) (by cases type <;> decide) (-1) zeromem tagchk thrdsafe (mem type)

/-- A change to one list keeps all of them if it keeps that one. -/
theorem buffers_kept_update {r : LlRun} (h : ∀ t, (mem_list t).Kept) (hr : r.Kept) (t : MemType) :
    (Function.update mem_list type r t).Kept := by
  rcases eq_or_ne t type with rfl | ht
  · rwa [Function.update_self]
  · rw [Function.update_of_ne ht]
    exact h t

theorem bufferAlloc_spec (h : ∀ t, (mem_list t).Kept) (type : MemType) (ll_alloc : Malloc)
    (junk : Bytes) :
    ∃ buf r, bufferAlloc type ll_alloc junk mem_list = .ok (buf, Function.update mem_list type r) ∧
      (∀ t, (Function.update mem_list type r t).Kept) ∧ r.held = buf.toList ++
      (mem_list type).held := by
  obtain ⟨buf, r, hr, hkept, hheld⟩ := (h type).alloc ll_alloc junk
  exact ⟨buf, r, by rw [bufferAlloc, hr]; rfl, buffers_kept_update h hkept, hheld⟩

theorem bufferFree_spec (h : ∀ t, (mem_list t).Kept) (hbuf : buf ∈ (mem_list type).held) :
    ∃ r, bufferFree type buf mem_list = .ok (Function.update mem_list type r) ∧
      (∀ t, (Function.update mem_list type r t).Kept) ∧ r.held =
      (mem_list type).held.erase buf := by
  obtain ⟨r, hr, hkept, hheld⟩ := (h type).free hbuf
  exact ⟨r, by rw [bufferFree, hr]; rfl, buffers_kept_update h hkept, hheld⟩

end Buffer

end Plume
