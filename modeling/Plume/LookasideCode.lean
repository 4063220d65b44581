import Plume.CLib.Prog
import Plume.Conservation

/-! What `plm_lookaside_list_alloc` and `plm_lookaside_list_free` do between taking `ll_lock` and
giving it back, access by access: each `++` is a read and a write, as are the changes of the list.
-/

namespace Plume
open CLib

section Code

abbrev LlProg := Prog LlState (Option ℕ)

def LlState.setList (s : LlState) (l : Slist ℕ) : LlState :=
  { s with list := { s.list with ll_list := l } }

def LlState.setMisc (s : LlState) (misc : LlMisc) : LlState :=
  { s with list := { s.list with ll_misc := misc } }

def countCode (get : LlMisc → ℤ) (set : LlMisc → ℤ → LlMisc) (p : LlProg) : LlProg :=
  .read (fun s => get s.list.ll_misc) fun n => .write
    (fun s => s.setMisc (set s.list.ll_misc (n + 1))) p

def delFrontCode (p : LlProg) : LlProg :=
  .read (fun s => s.list.ll_list.len) fun len =>
    if len = 0 then p
    else
      .read (fun s => s.list.ll_list.head.bind s.lln_node) fun next =>
        match next with
        | none => .wild none
        | some ln_next =>
          .write (fun s => s.setList { s.list.ll_list with head := ln_next }) <|
            .read (fun s => s.list.ll_list.len) fun len =>
              .write (fun s => s.setList { s.list.ll_list with len := len - 1 }) p

def addFrontCode (obj_hdr : ℕ) (p : LlProg) : LlProg :=
  .read (fun s => s.list.ll_list.head) fun head =>
    .act (fun s =>
      match s.mem obj_hdr with
      | none => .error .wild
      | some _ =>
        .ok { s with lln_node := Function.update s.lln_node obj_hdr (some head) }) fun _ =>
      .write (fun s => s.setList { s.list.ll_list with head := some obj_hdr }) <|
        .read (fun s => s.list.ll_list.len) fun len =>
          .write (fun s => s.setList { s.list.ll_list with len := len + 1 }) p

def tagCheckCode (obj_hdr : ℕ) (p : LlProg) : LlProg :=
  .act (fun s => (s.tagCheck obj_hdr).map fun _ => s) fun _ => p

def handleCode (obj_hdr : ℕ) (inlock_handler : Option (Bytes → Bytes)) (p : LlProg) : LlProg :=
  .act (fun s => s.handle obj_hdr inlock_handler) fun _ => p

def takenCode (obj_hdr : ℕ) (p : LlProg) : LlProg :=
  delFrontCode <|
    countCode LlMisc.ll_alloc_times_from_list
      (fun m n => { m with ll_alloc_times_from_list := n }) <|
      tagCheckCode obj_hdr p

def frontCode (k : Option ℕ → LlProg) : Option ℕ → LlProg
  | none => .wild none
  | some obj_hdr => takenCode obj_hdr (k (some obj_hdr))

/-- The object that is handed out, from the list or from `ll_alloc`, which threads may call
together. -/
def takeCode (ll_alloc : Malloc) (junk : Bytes) (k : Option ℕ → LlProg) : LlProg :=
  .read (fun s => s.list.ll_list.len) fun len =>
    if len > 0 then .read (fun s => s.list.ll_list.head) (frontCode k)
    else .act (fun s => .ok (llFromSystem ll_alloc junk s).2) fun s => k
      (llFromSystem ll_alloc junk s).1

def handOutCode (inlock_handler : Option (Bytes → Bytes)) (obj_hdr : Option ℕ) : LlProg :=
  countCode LlMisc.ll_alloc_times (fun m n => { m with ll_alloc_times := n }) <|
    match obj_hdr with
    | none =>
      countCode LlMisc.ll_alloc_failed_times (fun m n => { m with ll_alloc_failed_times := n })
        (.ret none)
    | some obj_hdr => handleCode obj_hdr inlock_handler (.ret (some obj_hdr))

def allocCode (ll_alloc : Malloc) (junk : Bytes) (inlock_handler : Option (Bytes → Bytes)) :
    LlProg :=
  takeCode ll_alloc junk (handOutCode inlock_handler)

def countFreeCode : LlProg :=
  countCode LlMisc.ll_free_times (fun m n => { m with ll_free_times := n }) (.ret none)

def putBackCode (obj_hdr : ℕ) (p : LlProg) : LlProg :=
  .read (fun s => (s.list.ll_list.len, s.list.ll_high_level)) fun l =>
    if l.2 < l.1 then .write (llToSystem obj_hdr) p
    else
      addFrontCode obj_hdr <|
        countCode LlMisc.ll_free_times_to_list (fun m n => { m with ll_free_times_to_list := n }) p

def freeCode (obj_hdr : ℕ) (inlock_handler : Option (Bytes → Bytes)) : LlProg :=
  handleCode obj_hdr inlock_handler (putBackCode obj_hdr countFreeCode)

end Code

section Alone

variable {s s' : LlState} {p : LlProg} {obj_hdr : ℕ} {inlock_handler : Option (Bytes → Bytes)}

def Unlogged (s s' : LlState) : Prop := { s with log := [] } = { s' with log := [] }

theorem Unlogged.same (h : Unlogged s s') : SameLists s s' := by
  obtain ⟨list, node, mem, owned, log⟩ := s
  obtain ⟨list', node', mem', owned', log'⟩ := s'
  cases h
  exact ⟨rfl, rfl, rfl, fun _ => rfl⟩

theorem countCode_exec (get : LlMisc → ℤ) (set : LlMisc → ℤ → LlMisc) (p : LlProg) (s : LlState) :
    (countCode get set p).exec s = p.exec
    (s.setMisc (set s.list.ll_misc (get s.list.ll_misc + 1))) := rfl

theorem delFrontCode_exec {l : Slist ℕ} (h : s.list.ll_list.delFront s.lln_node = .ok l)
    (p : LlProg) :
    (delFrontCode p).exec s = p.exec (s.setList l) := by
  unfold Slist.delFront at h
  unfold delFrontCode
  rw [Prog.exec_read]
  split_ifs at h ⊢ with hlen
  · cases h
    rfl
  · rw [Prog.exec_read]
    cases hnext : s.list.ll_list.head.bind s.lln_node with
    | none =>
      rw [hnext] at h
      cases h
    | some r =>
      rw [hnext] at h
      cases h
      rfl

theorem addFrontCode_exec {o : LlObj} (h : s.mem obj_hdr = some o) (p : LlProg) :
    (addFrontCode obj_hdr p).exec s =
      p.exec { s with
        list := { s.list with ll_list := (s.list.ll_list.addFront obj_hdr s.lln_node).1 }
        lln_node := (s.list.ll_list.addFront obj_hdr s.lln_node).2 } := by
  unfold addFrontCode
  rw [Prog.exec_read, Prog.exec, h]
  rfl

theorem tagCheckCode_exec {u : Unit} (h : s.tagCheck obj_hdr = .ok u) (p : LlProg) :
    (tagCheckCode obj_hdr p).exec s = p.exec s := by
  refine Prog.exec_act ?_
  rw [h]
  rfl

theorem handleCode_exec (h : s.handle obj_hdr inlock_handler = .ok s') (p : LlProg) :
    (handleCode obj_hdr inlock_handler p).exec s = p.exec s' := Prog.exec_act h

theorem takenCode_exec {l : Slist ℕ} {u : Unit} (hdel : s.list.ll_list.delFront s.lln_node = .ok l)
    (hcheck : s.tagCheck obj_hdr = .ok u) (p : LlProg) : (takenCode obj_hdr p).exec s =
      p.exec ((s.setList l).setMisc { s.list.ll_misc with
        ll_alloc_times_from_list := s.list.ll_misc.ll_alloc_times_from_list + 1 }) := by
  rw [takenCode, delFrontCode_exec hdel, countCode_exec]
  refine tagCheckCode_exec (u := u) ?_ p
  exact hcheck

theorem takeCode_exec {ll_alloc : Malloc} {junk : Bytes} {r : Option ℕ}
    (h : llTake ll_alloc junk s = .ok (r, s'))
    (k : Option ℕ → LlProg) : ∃ s₁, (takeCode ll_alloc junk k).exec s =
    (k r).exec s₁ ∧ Unlogged s' s₁ := by
  unfold llTake at h
  unfold takeCode
  rw [Prog.exec_read]
  split_ifs at h ⊢ with hlen
  · unfold llFromList at h
    rw [Prog.exec_read]
    cases hhead : s.list.ll_list.head with
    | none =>
      rw [hhead] at h
      cases h
    | some a =>
      rw [hhead] at h
      dsimp only at h
      obtain ⟨l, hdel, h⟩ := bind_eq_ok.1 h
      obtain ⟨u, hcheck, h⟩ := bind_eq_ok.1 h
      cases h
      have hcheck' : s.tagCheck a = .ok u := hcheck
      exact ⟨_, takenCode_exec hdel hcheck' (k (some a)), rfl⟩
  · have hsystem : llFromSystem ll_alloc junk s = (r, s') := Except.ok.inj h
    refine ⟨s', ?_, rfl⟩
    change (k (llFromSystem ll_alloc junk s).1).exec (llFromSystem ll_alloc junk s).2 = _
    rw [hsystem]

/-- The objects `inhand` are out, the objects `cached` are in the list, and the counters say so. -/
structure LlWhole (s : LlState) (inhand cached : List ℕ) : Prop where
  inv : LlInv s inhand cached
  count : HeldCount s.list.ll_misc inhand.length

variable {inhand cached : List ℕ}

theorem LlWhole.same (h : LlWhole s inhand cached) (hs : SameLists s s') :
    LlWhole s' inhand cached :=
  ⟨h.inv.same hs, hs.list ▸ h.count⟩

theorem LlWhole.perm {inhand' : List ℕ} (h : LlWhole s inhand cached) (hp : inhand'.Perm inhand) :
    LlWhole s inhand' cached := ⟨h.inv.perm hp, hp.length_eq ▸ h.count⟩

theorem handOutCode_exec (r : Option ℕ) (h : LlInv s (r.toList ++ inhand) cached) :
    ∃ s₁, (handOutCode inlock_handler r).exec s = .ok (r, s₁) ∧
      SameLists (llCountAlloc r s) s₁ := by
  unfold handOutCode
  rw [countCode_exec]
  cases r with
  | none =>
    dsimp only
    rw [countCode_exec]
    exact ⟨_, rfl, Unlogged.same rfl⟩
  | some a =>
    set s₁ := s.setMisc { s.list.ll_misc with ll_alloc_times := s.list.ll_misc.ll_alloc_times + 1 }
    have hinv : LlInv s₁ (a :: inhand) cached := ⟨h.size, h.list, h.owned, h.apart, h.tags, h.count⟩
    have hcounted : SameLists (llCountAlloc (some a) s) s₁ := Unlogged.same rfl
    obtain ⟨s₂, hs₂⟩ := handle_ok hinv.tag_inhand inlock_handler
    refine ⟨s₂, ?_, hcounted.trans (handle_cases hs₂).1⟩
    exact handleCode_exec hs₂ (.ret (some a))

theorem allocCode_exec (h : LlWhole s inhand cached) (ll_alloc : Malloc) (junk : Bytes)
    (inlock_handler : Option (Bytes → Bytes)) : ∃ r s₁ cached',
      (allocCode ll_alloc junk inlock_handler).exec s = .ok (r, s₁) ∧ LlWhole s₁
      (r.toList ++ inhand) cached' := by
  obtain ⟨r, s', cached', htake, hinv, hcount⟩ := llTake_inv h.inv h.count ll_alloc junk
  obtain ⟨s₁, hexec, hlog⟩ := takeCode_exec htake (handOutCode inlock_handler)
  obtain ⟨s₂, hs₂, hcounted⟩ := handOutCode_exec r (hinv.same hlog.same)
  have hwhole : LlWhole (llCountAlloc r s₁) (r.toList ++ inhand) cached' := by
    refine ⟨llCountAlloc_inv r (hinv.same hlog.same), ?_⟩
    rw [List.length_append]
    refine llCountAlloc_held r ?_
    rw [hlog.same.list]
    exact hcount
  exact ⟨r, s₂, cached', by rw [allocCode, hexec, hs₂], hwhole.same hcounted⟩

theorem putBackCode_exec (h : llPutBack obj_hdr s = .ok s') (p : LlProg) :
    ∃ s₁, (putBackCode obj_hdr p).exec s = p.exec s₁ ∧ Unlogged s' s₁ := by
  unfold llPutBack at h
  unfold putBackCode
  rw [Prog.exec_read]
  dsimp only
  split_ifs at h ⊢
  · cases h
    exact ⟨_, rfl, rfl⟩
  · unfold llToList at h
    cases ho : s.mem obj_hdr with
    | none =>
      rw [ho] at h
      cases h
    | some o =>
      rw [ho] at h
      cases h
      rw [addFrontCode_exec ho, countCode_exec]
      exact ⟨_, rfl, rfl⟩

theorem freeCode_exec (h : LlWhole s (obj_hdr :: inhand) cached)
    (inlock_handler : Option (Bytes → Bytes)) :
    ∃ s₁ cached', (freeCode obj_hdr inlock_handler).exec s = .ok (none, s₁) ∧
      LlWhole s₁ inhand cached' := by
  obtain ⟨s₁, hs₁⟩ := handle_ok h.inv.tag_inhand inlock_handler
  have h₁ := h.same (handle_cases hs₁).1
  obtain ⟨s₂, cached', hs₂, hinv, hcount⟩ := llPutBack_inv h₁.inv h₁.count
  obtain ⟨s₃, hexec, hlog⟩ := putBackCode_exec hs₂ countFreeCode
  refine ⟨s₃.setMisc { s₃.list.ll_misc with ll_free_times := s₃.list.ll_misc.ll_free_times + 1 },
    cached', ?_, ?_⟩
  · rw [freeCode, handleCode_exec hs₁, hexec]
    rfl
  · have hcount₃ : HeldCount s₃.list.ll_misc (inhand.length + 1) := by
      rw [hlog.same.list]
      exact hcount
    have hwhole : LlWhole (llCountFree s₃) inhand cached' :=
      ⟨llCountFree_inv (hinv.same hlog.same), llCountFree_held hcount₃⟩
    exact hwhole.same (Unlogged.same rfl)

end Alone

section Alike

variable {s s' t : LlState} {p : LlProg} {obj_hdr : ℕ} {inlock_handler : Option (Bytes → Bytes)}

theorem SameLists.setList (h : SameLists s s') (f : Slist ℕ → Slist ℕ) :
    SameLists (s.setList (f s.list.ll_list)) (s'.setList (f s'.list.ll_list)) := by
  refine ⟨?_, h.lln_node, h.owned, h.tags⟩
  simp only [LlState.setList, h.list]

theorem SameLists.setMisc (h : SameLists s s') (f : LlMisc → LlMisc) :
    SameLists (s.setMisc (f s.list.ll_misc)) (s'.setMisc (f s'.list.ll_misc)) := by
  refine ⟨?_, h.lln_node, h.owned, h.tags⟩
  simp only [LlState.setMisc, h.list]

theorem SameLists.mem_some (h : SameLists s s') {a : ℕ} {o : LlObj} (ho : s.mem a = some o) :
    ∃ o', s'.mem a = some o' := by
  have htag := h.tags a
  rw [ho] at htag
  obtain ⟨o', ho', -⟩ := Option.map_eq_some_iff.1 htag
  exact ⟨o', ho'⟩

theorem SameLists.update (h : SameLists s s') (a : ℕ) {o o' : Option LlObj}
    (ho : o'.map LlObj.lln_tag = o.map LlObj.lln_tag) (b : ℕ) :
    (Function.update s'.mem a o' b).map LlObj.lln_tag =
    (Function.update s.mem a o b).map LlObj.lln_tag := by
  rcases eq_or_ne b a with rfl | hb
  · simp only [Function.update_self, ho]
  · simp only [Function.update_of_ne hb, h.tags b]

theorem SameLists.write {f : Bytes → Bytes} (h : SameLists s s') (hw : s.write obj_hdr f = .ok t) :
    ∃ t', s'.write obj_hdr f = .ok t' ∧ SameLists t t' := by
  unfold LlState.write at hw
  cases ho : s.mem obj_hdr with
  | none =>
    rw [ho] at hw
    cases hw
  | some o =>
    rw [ho] at hw
    cases hw
    obtain ⟨o', ho'⟩ := h.mem_some ho
    have htag := h.tags obj_hdr
    rw [ho, ho'] at htag
    refine ⟨{ s' with mem := Function.update s'.mem obj_hdr (some ⟨o'.lln_tag, f o'.obj⟩) },
      by rw [LlState.write, ho'], h.list, h.lln_node, h.owned, h.update obj_hdr ?_⟩
    exact htag

theorem SameLists.handle (h : SameLists s s') (hh : s.handle obj_hdr inlock_handler = .ok t) :
    ∃ t', s'.handle obj_hdr inlock_handler = .ok t' ∧ SameLists t t' := by
  cases inlock_handler with
  | none =>
    cases hh
    exact ⟨s', rfl, h⟩
  | some f => exact h.write hh

theorem SameLists.tagCheck (h : SameLists s s') (a : ℕ) : s'.tagCheck a = s.tagCheck a := by
  unfold LlState.tagCheck
  rw [h.list]
  have htag := h.tags a
  cases ho : s.mem a with
  | none =>
    rw [ho] at htag
    rw [Option.map_eq_none_iff.1 htag]
  | some o =>
    rw [ho] at htag
    obtain ⟨o', ho', heq⟩ := Option.map_eq_some_iff.1 htag
    simp only [ho', heq]

theorem SameLists.region (h : SameLists s s') : s'.region = s.region := by
  unfold LlState.region
  rw [h.list]

theorem SameLists.fromSystem (h : SameLists s s') (ll_alloc : Malloc) (junk : Bytes) :
    (llFromSystem ll_alloc junk s').1 = (llFromSystem ll_alloc junk s).1 ∧
      SameLists (llFromSystem ll_alloc junk s).2 (llFromSystem ll_alloc junk s').2 := by
  have halloc : ll_alloc.alloc (s'.owned.map s'.region) (sizeAdd s'.list.ll_obj_sz llnSize) =
      ll_alloc.alloc (s.owned.map s.region) (sizeAdd s.list.ll_obj_sz llnSize) := by
        rw [h.owned, h.region, h.list]
  unfold llFromSystem
  rw [halloc]
  cases ll_alloc.alloc (s.owned.map s.region) (sizeAdd s.list.ll_obj_sz llnSize) with
  | none => exact ⟨rfl, h⟩
  | some a =>
    refine ⟨rfl, h.list, h.lln_node, congrArg (List.cons a) h.owned, h.update a ?_⟩
    simp only [Option.map_some, h.list]

theorem SameLists.toSystem (h : SameLists s s') :
    SameLists (llToSystem obj_hdr s) (llToSystem obj_hdr s') := by
  refine ⟨h.list, ?_, ?_, h.update obj_hdr rfl⟩
  · change Function.update s'.lln_node obj_hdr none = Function.update s.lln_node obj_hdr none
    rw [h.lln_node]
  · change s'.owned.erase obj_hdr = s.owned.erase obj_hdr
    rw [h.owned]

theorem countCode_respects (get : LlMisc → ℤ) (set : LlMisc → ℤ → LlMisc)
    (hp : p.Respects SameLists) :
    (countCode get set p).Respects SameLists := by
  refine Prog.respects_read (fun s s' h => by rw [h.list]) fun n => ?_
  exact Prog.respects_write (fun s s' h => h.setMisc fun m => set m (n + 1)) hp

theorem delFrontCode_respects (hp : p.Respects SameLists) :
    (delFrontCode p).Respects SameLists := by
  refine Prog.respects_read (fun s s' h => by rw [h.list]) fun len => ?_
  split_ifs
  · exact hp
  · refine Prog.respects_read (fun s s' h => by rw [h.list, h.lln_node]) fun next => ?_
    cases next with
    | none => exact Prog.respects_wild none
    | some r =>
      refine Prog.respects_write (fun s s' h => h.setList fun l => { l with head := r }) ?_
      refine Prog.respects_read (fun s s' h => by rw [h.list]) fun len => ?_
      exact Prog.respects_write (fun s s' h => h.setList fun l => { l with len := len - 1 }) hp

theorem addFrontCode_respects (hp : p.Respects SameLists) :
    (addFrontCode obj_hdr p).Respects SameLists := by
  refine Prog.respects_read (fun s s' h => by rw [h.list]) fun head => ⟨fun s s' t h ht => ?_,
    fun s => ⟨fun _ _ => rfl, ?_⟩⟩
  · cases ho : s.mem obj_hdr with
    | none =>
      simp only [ho] at ht
      cases ht
    | some o =>
      simp only [ho] at ht
      cases ht
      obtain ⟨o', ho'⟩ := h.mem_some ho
      refine ⟨{ s' with lln_node := Function.update s'.lln_node obj_hdr (some head) },
        by simp only [ho'], h.list, ?_, h.owned, h.tags⟩
      change Function.update s'.lln_node obj_hdr (some head) = Function.update s.lln_node obj_hdr
        (some head)
      rw [h.lln_node]
  · refine Prog.respects_write (fun s s' h => h.setList fun l => { l with head := some obj_hdr }) ?_
    refine Prog.respects_read (fun s s' h => by rw [h.list]) fun len => ?_
    exact Prog.respects_write (fun s s' h => h.setList fun l => { l with len := len + 1 }) hp

theorem tagCheck_same (h : ((s.tagCheck obj_hdr).map fun _ => s) = .ok t) : t = s := by
  cases hc : s.tagCheck obj_hdr with
  | error e =>
    rw [hc] at h
    cases h
  | ok u =>
    rw [hc] at h
    cases h
    rfl

theorem tagCheckCode_respects (hp : p.Respects SameLists) :
    (tagCheckCode obj_hdr p).Respects SameLists := by
  refine ⟨fun s s' t h ht => ⟨s', ?_, tagCheck_same ht ▸ h⟩, fun s => ⟨fun _ _ => rfl, hp⟩⟩
  obtain rfl := tagCheck_same ht
  change ((s'.tagCheck obj_hdr).map fun _ => s') = _
  rw [h.tagCheck]
  cases hc : t.tagCheck obj_hdr with
  | error e =>
    simp only [hc] at ht
    cases ht
  | ok u => rfl

theorem handleCode_respects (hp : p.Respects SameLists) :
    (handleCode obj_hdr inlock_handler p).Respects SameLists :=
  ⟨fun _ _ _ h ht => h.handle ht, fun _ => ⟨fun _ _ => rfl, hp⟩⟩

theorem allocCode_respects (ll_alloc : Malloc) (junk : Bytes)
    (inlock_handler : Option (Bytes → Bytes)) :
    (allocCode ll_alloc junk inlock_handler).Respects SameLists := by
  have hk : ∀ r, (handOutCode inlock_handler r).Respects SameLists := by
    intro r
    refine countCode_respects _ _ ?_
    cases r with
    | none => exact countCode_respects _ _ trivial
    | some a => exact handleCode_respects trivial
  unfold allocCode takeCode
  refine Prog.respects_read (fun s s' h => by rw [h.list]) fun len => ?_
  split_ifs
  · refine Prog.respects_read (fun s s' h => by rw [h.list]) fun head => ?_
    cases head with
    | none => exact Prog.respects_wild none
    | some a =>
      exact delFrontCode_respects (countCode_respects _ _ (tagCheckCode_respects (hk (some a))))
  · refine ⟨fun s s' t h ht => ?_, fun s => ⟨fun s' h => ?_, hk _⟩⟩
    · cases ht
      exact ⟨_, rfl, (h.fromSystem ll_alloc junk).2⟩
    · exact congrArg (handOutCode inlock_handler) (h.fromSystem ll_alloc junk).1.symm

theorem freeCode_respects (obj_hdr : ℕ) (inlock_handler : Option (Bytes → Bytes)) :
    (freeCode obj_hdr inlock_handler).Respects SameLists := by
  have hcount : countFreeCode.Respects SameLists := countCode_respects _ _ trivial
  unfold freeCode putBackCode
  refine handleCode_respects (Prog.respects_read (fun s s' h => by rw [h.list]) fun l => ?_)
  split_ifs
  · exact Prog.respects_write (fun s s' h => h.toSystem) hcount
  · exact addFrontCode_respects (countCode_respects _ _ hcount)

end Alike

section Keeps

variable {s s' : LlState} {p : LlProg} {A : ℕ → Prop} {onoff : LlOnoff} {obj_hdr : ℕ}

/-- The features are as they were set, and the objects that `A` is true of are in memory, with their
tags. -/
structure Tagged (onoff : LlOnoff) (A : ℕ → Prop) (s : LlState) : Prop where
  onoff : s.list.ll_onoff = onoff
  owned : ∀ a, A a → a ∈ s.owned
  tag : ∀ a, A a → (s.mem a).map LlObj.lln_tag = some s.list.ll_tag

theorem Tagged.same (h : Tagged onoff A s) (hs : SameLists s s') : Tagged onoff A s' := by
  refine ⟨hs.list ▸ h.onoff, fun a ha => hs.owned ▸ h.owned a ha, fun a ha => ?_⟩
  rw [hs.tags, hs.list]
  exact h.tag a ha

theorem Tagged.mono {B : ℕ → Prop} (h : Tagged onoff A s) (hB : ∀ a, B a → A a) :
    Tagged onoff B s :=
  ⟨h.onoff, fun a ha => h.owned a (hB a ha), fun a ha => h.tag a (hB a ha)⟩

theorem Tagged.update (h : Tagged onoff A s) {o : Option LlObj}
    (ho : A obj_hdr → o.map LlObj.lln_tag = some s.list.ll_tag) (a : ℕ) (ha : A a) :
    (Function.update s.mem obj_hdr o a).map LlObj.lln_tag = some s.list.ll_tag := by
  rcases eq_or_ne a obj_hdr with rfl | hne
  · rw [Function.update_self]
    exact ho ha
  · rw [Function.update_of_ne hne]
    exact h.tag a ha

theorem countCode_keeps (get : LlMisc → ℤ) (set : LlMisc → ℤ → LlMisc)
    (hp : p.Keeps (Tagged onoff A)) :
    (countCode get set p).Keeps (Tagged onoff A) :=
  Prog.keeps_read fun _ => Prog.keeps_write (fun _ h => ⟨h.onoff, h.owned, h.tag⟩) hp

theorem delFrontCode_keeps (hp : p.Keeps (Tagged onoff A)) :
    (delFrontCode p).Keeps (Tagged onoff A) := by
  refine Prog.keeps_read fun len => ?_
  split_ifs
  · exact hp
  · refine Prog.keeps_read fun next => ?_
    cases next with
    | none => exact Prog.keeps_wild none
    | some r =>
      refine Prog.keeps_write (fun _ h => ⟨h.onoff, h.owned, h.tag⟩) (Prog.keeps_read fun len => ?_)
      exact Prog.keeps_write (fun _ h => ⟨h.onoff, h.owned, h.tag⟩) hp

theorem addFrontCode_keeps (hp : p.Keeps (Tagged onoff A)) :
    (addFrontCode obj_hdr p).Keeps (Tagged onoff A) := by
  refine Prog.keeps_read fun head => fun s hs => ⟨fun s' hs' => ?_, ?_⟩
  · cases ho : s.mem obj_hdr with
    | none =>
      simp only [ho] at hs'
      cases hs'
    | some o =>
      simp only [ho] at hs'
      cases hs'
      exact ⟨hs.onoff, hs.owned, hs.tag⟩
  · refine Prog.keeps_write (fun _ h => ⟨h.onoff, h.owned, h.tag⟩) (Prog.keeps_read fun len => ?_)
    exact Prog.keeps_write (fun _ h => ⟨h.onoff, h.owned, h.tag⟩) hp

theorem tagCheckCode_keeps (hp : p.Keeps (Tagged onoff A)) :
    (tagCheckCode obj_hdr p).Keeps (Tagged onoff A) :=
  fun _ hs => ⟨fun _ hs' => tagCheck_same hs' ▸ hs, hp⟩

theorem handleCode_keeps {inlock_handler : Option (Bytes → Bytes)} (hp : p.Keeps (Tagged onoff A)) :
    (handleCode obj_hdr inlock_handler p).Keeps (Tagged onoff A) :=
  fun _ hs => ⟨fun _ hs' => hs.same (handle_cases hs').1, hp⟩

theorem fromSystem_keeps (ll_alloc : Malloc) (junk : Bytes) (h : Tagged onoff A s) :
    Tagged onoff A (llFromSystem ll_alloc junk s).2 := by
  unfold llFromSystem
  cases ll_alloc.alloc (s.owned.map s.region) (sizeAdd s.list.ll_obj_sz llnSize) with
  | none => exact h
  | some a =>
    exact ⟨h.onoff, fun b hb => List.mem_cons_of_mem _ (h.owned b hb), h.update fun _ => rfl⟩

theorem allocCode_keeps (ll_alloc : Malloc) (junk : Bytes)
    (inlock_handler : Option (Bytes → Bytes)) :
    (allocCode ll_alloc junk inlock_handler).Keeps (Tagged onoff A) := by
  have hk : ∀ r, (handOutCode inlock_handler r).Keeps (Tagged onoff A) := by
    intro r
    refine countCode_keeps _ _ ?_
    cases r with
    | none => exact countCode_keeps _ _ trivial
    | some a => exact handleCode_keeps trivial
  unfold allocCode takeCode
  refine Prog.keeps_read fun len => ?_
  split_ifs
  · refine Prog.keeps_read fun head => ?_
    cases head with
    | none => exact Prog.keeps_wild none
    | some a => exact delFrontCode_keeps (countCode_keeps _ _ (tagCheckCode_keeps (hk (some a))))
  · refine fun s hs => ⟨fun s' hs' => ?_, hk _⟩
    cases hs'
    exact fromSystem_keeps ll_alloc junk hs

theorem freeCode_keeps (hA : ¬ A obj_hdr) (inlock_handler : Option (Bytes → Bytes)) :
    (freeCode obj_hdr inlock_handler).Keeps (Tagged onoff A) := by
  have hcount : countFreeCode.Keeps (Tagged onoff A) := countCode_keeps _ _ trivial
  unfold freeCode putBackCode
  refine handleCode_keeps (Prog.keeps_read fun l => ?_)
  split_ifs
  · refine Prog.keeps_write
      (fun s hs => ⟨hs.onoff, fun a ha => ?_, hs.update fun h => absurd h hA⟩) hcount
    have hne : a ≠ obj_hdr := by
      rintro rfl
      exact hA ha
    exact (List.mem_erase_of_ne hne).2 (hs.owned a ha)
  · exact addFrontCode_keeps (countCode_keeps _ _ hcount)

end Keeps

end Plume
