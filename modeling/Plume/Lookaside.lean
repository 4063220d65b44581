import Plume.CLib.Region
import Plume.CLib.Run
import Plume.CLib.Slist

/-! The lookaside list of `plm_lookaside_list.c`: objects of one size, kept in a list when they are
freed and taken from it again, and the calls of a client. -/

namespace Plume
open CLib

section List

abbrev llnSize : ℕ := 16

structure LlMisc where
  ll_alloc_times : ℤ
  ll_free_times : ℤ
  ll_alloc_times_from_list : ℤ
  ll_free_times_to_list : ℤ
  ll_alloc_failed_times : ℤ
deriving DecidableEq, Repr

/-- `ll_onoff` is a union of three bit-fields, which are all the same bit. -/
structure LlOnoff where
  bit : Bool
deriving DecidableEq, Repr

namespace LlOnoff

def ll_zero_memory (u : LlOnoff) : Bool := u.bit

def ll_tag_check (u : LlOnoff) : Bool := u.bit

def ll_thrdsafe (u : LlOnoff) : Bool := u.bit

/-- An `int` stored in a bit-field of width one. -/
def store (_ : LlOnoff) (n : ℤ) : LlOnoff := ⟨n % 2 = 1⟩

end LlOnoff

structure LookasideList where
  ll_obj_sz : ℕ
  ll_high_level : ℤ
  ll_tag : UInt32
  ll_list : Slist ℕ
  ll_misc : LlMisc
  ll_onoff : LlOnoff
deriving DecidableEq, Repr

def lookasideListInit (high_level : ℤ) (obj_sz : ℕ) (tag : UInt32) : LookasideList :=
  ⟨obj_sz, high_level, tag, Slist.init, ⟨0, 0, 0, 0, 0⟩, ⟨false⟩⟩

def lookasideListEnable (list : LookasideList) (zero_memory tag_check thrdsafe : ℤ) :
    LookasideList :=
  let list := { list with ll_onoff := list.ll_onoff.store tag_check }
  let list := { list with ll_onoff := list.ll_onoff.store zero_memory }
  { list with ll_onoff := list.ll_onoff.store thrdsafe }

end List

section State

/-- An object in memory: the tag in its header, and the bytes behind the header. -/
structure LlObj where
  lln_tag : UInt32
  obj : Bytes
deriving DecidableEq, Repr

/-- What happens to `ll_lock`, and that the free list or the counters change. -/
inductive LlEvent
  | lock
  | unlock
  | change
deriving DecidableEq, Repr

/-- A list with the objects in memory, by the addresses of their headers. The objects that come
from `ll_alloc` and were not given to `ll_free` are there for the statements, as is the log. -/
structure LlState where
  list : LookasideList
  lln_node : Links ℕ
  mem : ℕ → Option LlObj
  owned : List ℕ
  log : List LlEvent

namespace LlState

/-- What is asked for and given back, header and all. -/
def region (s : LlState) (obj_hdr : ℕ) : Region := ⟨obj_hdr, sizeAdd s.list.ll_obj_sz llnSize⟩

def logs (s : LlState) (e : LlEvent) : LlState := { s with log := s.log ++ [e] }

def lock (s : LlState) : LlState := if s.list.ll_onoff.ll_thrdsafe then s.logs .lock else s

def unlock (s : LlState) : LlState := if s.list.ll_onoff.ll_thrdsafe then s.logs .unlock else s

def tagCheck (s : LlState) (obj_hdr : ℕ) : Except Fault Unit :=
  if s.list.ll_onoff.ll_tag_check then
    match s.mem obj_hdr with
    | none => .error .wild
    | some o => if o.lln_tag ≠ s.list.ll_tag then .error .abort else .ok ()
  else .ok ()

/-- A write to the bytes of an object, by the client, by its `inlock_handler` or by `memset`. -/
def write (s : LlState) (obj_hdr : ℕ) (f : Bytes → Bytes) : Except Fault LlState :=
  match s.mem obj_hdr with
  | none => .error .wild
  | some o => .ok { s with mem := Function.update s.mem obj_hdr (some { o with obj := f o.obj }) }

def handle (s : LlState) (obj_hdr : ℕ) : Option (Bytes → Bytes) → Except Fault LlState
  | none => .ok s
  | some inlock_handler => s.write obj_hdr inlock_handler

def zero (s : LlState) (obj_hdr : ℕ) : Except Fault LlState :=
  if s.list.ll_onoff.ll_zero_memory then s.write obj_hdr fun _ => List.replicate s.list.ll_obj_sz 0
    else .ok s

end LlState

end State

section Alloc

def llFromList (s : LlState) : Except Fault (Option ℕ × LlState) :=
  match s.list.ll_list.head with
  | none => .error .wild
  | some obj_hdr => do
    let ll_list ← s.list.ll_list.delFront s.lln_node
    let misc := s.list.ll_misc
    let misc := { misc with ll_alloc_times_from_list := misc.ll_alloc_times_from_list + 1 }
    let s :=
      LlState.logs { s with list := { s.list with ll_list := ll_list, ll_misc := misc } } .change
    s.tagCheck obj_hdr
    return (some obj_hdr, s)

/-- Asks `ll_alloc` for an object; `junk` is what its bytes happen to be. -/
def llFromSystem (ll_alloc : Malloc) (junk : Bytes) (s : LlState) : Option ℕ × LlState :=
  match ll_alloc.alloc (s.owned.map s.region) (sizeAdd s.list.ll_obj_sz llnSize) with
  | none => (none, s)
  | some obj_hdr => (some obj_hdr, { s with
      mem := Function.update s.mem obj_hdr (some ⟨s.list.ll_tag, junk⟩)
      owned := obj_hdr :: s.owned })

def llTake (ll_alloc : Malloc) (junk : Bytes) (s : LlState) : Except Fault (Option ℕ × LlState) :=
  if s.list.ll_list.len > 0 then llFromList s else .ok (llFromSystem ll_alloc junk s)

def llCountAlloc (obj_hdr : Option ℕ) (s : LlState) : LlState :=
  let misc := s.list.ll_misc
  let misc := { misc with ll_alloc_times := misc.ll_alloc_times + 1 }
  let misc := if obj_hdr =
    none then { misc with ll_alloc_failed_times := misc.ll_alloc_failed_times + 1 } else misc
  LlState.logs { s with list := { s.list with ll_misc := misc } } .change

def llHandOut (inlock_handler : Option (Bytes → Bytes)) (s : LlState) :
    Option ℕ → Except Fault (Option ℕ × LlState)
  | none => .ok (none, s.unlock)
  | some obj_hdr => do
    let s ← s.handle obj_hdr inlock_handler
    let s ← s.unlock.zero obj_hdr
    return (some (obj_hdr + llnSize), s)

def lookasideListAlloc (ll_alloc : Malloc) (junk : Bytes) (inlock_handler : Option (Bytes → Bytes))
    (s : LlState) :
    Except Fault (Option ℕ × LlState) := do
  let (obj_hdr, s) ← llTake ll_alloc junk s.lock
  llHandOut inlock_handler (llCountAlloc obj_hdr s) obj_hdr

end Alloc

section Free

def llToSystem (obj_hdr : ℕ) (s : LlState) : LlState :=
  { s with
    lln_node := Function.update s.lln_node obj_hdr none
    mem := Function.update s.mem obj_hdr none
    owned := s.owned.erase obj_hdr }

def llToList (obj_hdr : ℕ) (s : LlState) : Except Fault LlState :=
  match s.mem obj_hdr with
  | none => .error .wild
  | some _ =>
    let (ll_list, lln_node) := s.list.ll_list.addFront obj_hdr s.lln_node
    let misc := s.list.ll_misc
    let misc := { misc with ll_free_times_to_list := misc.ll_free_times_to_list + 1 }
    .ok (LlState.logs
      { s with list := { s.list with ll_list := ll_list, ll_misc := misc }, lln_node := lln_node }
      .change)

/-- Into the list, unless it is above its high water level. -/
def llPutBack (obj_hdr : ℕ) (s : LlState) : Except Fault LlState :=
  if s.list.ll_high_level < s.list.ll_list.len then .ok (llToSystem obj_hdr s)
    else llToList obj_hdr s

def llCountFree (s : LlState) : LlState :=
  let misc := s.list.ll_misc
  let misc := { misc with ll_free_times := misc.ll_free_times + 1 }
  LlState.logs { s with list := { s.list with ll_misc := misc } } .change

def lookasideListFree (obj : ℕ) (inlock_handler : Option (Bytes → Bytes)) (s : LlState) :
    Except Fault LlState := do
  let obj_hdr := obj - llnSize
  s.tagCheck obj_hdr
  let s ← s.lock.handle obj_hdr inlock_handler
  let s ← llPutBack obj_hdr s
  return (llCountFree s).unlock

/-- `plm_lookaside_list_destroy`: the objects given to `ll_free`, and the state without the list,
of which nothing is left to use. -/
def lookasideListDestroy (s : LlState) : Except Fault (List ℕ × LlState) := do
  let s := s.lock
  let freed ← s.list.ll_list.drain s.tagCheck s.lln_node s.list.ll_list.len
  let s := { s with log := s.log ++ List.replicate freed.length LlEvent.change }
  return (freed, s.unlock)

end Free

section Write

/-- Nothing differs but the bytes of objects and the log. -/
structure SameLists (s s' : LlState) : Prop where
  list : s'.list = s.list
  lln_node : s'.lln_node = s.lln_node
  owned : s'.owned = s.owned
  tags : ∀ a, (s'.mem a).map LlObj.lln_tag = (s.mem a).map LlObj.lln_tag

variable {s s' : LlState} {a : ℕ} {t : UInt32} {f : Bytes → Bytes}
  {inlock_handler : Option (Bytes → Bytes)}

theorem SameLists.refl (s : LlState) : SameLists s s := ⟨rfl, rfl, rfl, fun _ => rfl⟩

theorem SameLists.trans {s1 : LlState} (h : SameLists s s1) (h' : SameLists s1 s') :
    SameLists s s' :=
  ⟨h'.list.trans h.list, h'.lln_node.trans h.lln_node, h'.owned.trans h.owned,
    fun a => (h'.tags a).trans (h.tags a)⟩

theorem sameLists_lock (s : LlState) : SameLists s s.lock := by
  unfold LlState.lock
  split_ifs <;> exact ⟨rfl, rfl, rfl, fun _ => rfl⟩

theorem sameLists_unlock (s : LlState) : SameLists s s.unlock := by
  unfold LlState.unlock
  split_ifs <;> exact ⟨rfl, rfl, rfl, fun _ => rfl⟩

/-- What a write does, if the object is in memory. -/
theorem write_cases (h : s.write a f = .ok s') : SameLists s s' ∧ s'.log = s.log ∧
    ∃ o, s.mem a = some o ∧ s'.mem a = some ⟨o.lln_tag, f o.obj⟩ := by
  unfold LlState.write at h
  cases ho : s.mem a with
  | none =>
    rw [ho] at h
    cases h
  | some o =>
    rw [ho] at h
    cases h
    refine ⟨⟨rfl, rfl, rfl, fun b => ?_⟩, rfl, o, rfl, Function.update_self ..⟩
    rcases eq_or_ne b a with rfl | hb
    · simp only [Function.update_self, ho, Option.map_some]
    · simp only [Function.update_of_ne hb]

theorem handle_cases (h : s.handle a inlock_handler = .ok s') :
    SameLists s s' ∧ s'.log = s.log := by
  cases inlock_handler with
  | none =>
    cases h
    exact ⟨SameLists.refl s, rfl⟩
  | some f =>
    obtain ⟨hsame, hlog, -⟩ := write_cases h
    exact ⟨hsame, hlog⟩

theorem zero_cases (h : s.zero a = .ok s') : SameLists s s' ∧ s'.log = s.log ∧
    (s.list.ll_onoff.ll_zero_memory = true →
      (s'.mem a).map LlObj.obj = some (List.replicate s.list.ll_obj_sz 0)) := by
  unfold LlState.zero at h
  split_ifs at h with hz
  · obtain ⟨hsame, hlog, o, -, ho⟩ := write_cases h
    exact ⟨hsame, hlog, fun _ => by rw [ho]; rfl⟩
  · cases h
    exact ⟨SameLists.refl s, rfl, fun h => absurd h hz⟩

theorem write_ok (h : (s.mem a).map LlObj.lln_tag = some t) (f : Bytes → Bytes) :
    ∃ s', s.write a f = .ok s' := by
  obtain ⟨o, ho, -⟩ := Option.map_eq_some_iff.1 h
  rw [LlState.write, ho]
  exact ⟨_, rfl⟩

theorem handle_ok (h : (s.mem a).map LlObj.lln_tag = some t)
    (inlock_handler : Option (Bytes → Bytes)) :
    ∃ s', s.handle a inlock_handler = .ok s' := by
  cases inlock_handler with
  | none => exact ⟨s, rfl⟩
  | some f => exact write_ok h f

theorem zero_ok (h : (s.mem a).map LlObj.lln_tag = some t) : ∃ s', s.zero a = .ok s' := by
  unfold LlState.zero
  split_ifs
  · exact write_ok h _
  · exact ⟨s, rfl⟩

/-- An object with the right tag passes the check, and no other does where there is a check. -/
theorem tagCheck_ok (h : (s.mem a).map LlObj.lln_tag = some s.list.ll_tag) :
    s.tagCheck a = .ok () := by
  obtain ⟨o, ho, htag⟩ := Option.map_eq_some_iff.1 h
  unfold LlState.tagCheck
  split_ifs
  · simp only [ho, htag, ne_eq, not_true_eq_false, if_false]
  · rfl

theorem tagCheck_spec (h : s.tagCheck a = .ok ()) (hcheck : s.list.ll_onoff.ll_tag_check = true) :
    (s.mem a).map LlObj.lln_tag = some s.list.ll_tag := by
  unfold LlState.tagCheck at h
  rw [if_pos hcheck] at h
  cases ho : s.mem a with
  | none =>
    rw [ho] at h
    cases h
  | some o =>
    simp only [ho] at h
    split_ifs at h with htag
    rw [Option.map_some, not_not.1 htag]

end Write

section Client

structure LlRun where
  st : LlState
  held : List ℕ

inductive LlOp
  | alloc (ll_alloc : Malloc) (junk : Bytes) (inlock_handler : Option (Bytes → Bytes))
  | write (obj : ℕ) (f : Bytes → Bytes)
  | free (obj : ℕ) (inlock_handler : Option (Bytes → Bytes))

def llStart (high_level : ℤ) (obj_sz : ℕ) (tag : UInt32) (zero_memory tag_check thrdsafe : ℤ)
    (mem : ℕ → Option LlObj) : LlRun :=
  ⟨⟨lookasideListEnable (lookasideListInit high_level obj_sz tag) zero_memory tag_check thrdsafe,
    fun _ => none, mem, [], []⟩, []⟩

def llStep (r : LlRun) : LlOp → Option LlRun
  | .alloc ll_alloc junk inlock_handler =>
    match lookasideListAlloc ll_alloc junk inlock_handler r.st with
    | .error _ => none
    | .ok (obj, st) => some ⟨st, obj.toList ++ r.held⟩
  | .write obj f =>
    match r.st.write (obj - llnSize) f with
    | .error _ => none
    | .ok st => some ⟨st, r.held⟩
  | .free obj inlock_handler =>
    match lookasideListFree obj inlock_handler r.st with
    | .error _ => none
    | .ok st => some ⟨st, r.held.erase obj⟩

end Client

end Plume
