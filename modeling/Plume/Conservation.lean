import Plume.Lookaside

/-! A client of a lookaside list that frees only what it holds: where its objects are, and what the
counters say of them. -/

namespace Plume
open CLib

section Inv

/-- The objects `inhand` are not in the list, the objects `cached` are, and there are no others. -/
structure LlInv (s : LlState) (inhand cached : List ℕ) : Prop where
  size : 0 < sizeAdd s.list.ll_obj_sz llnSize
  list : s.list.ll_list.Holds s.lln_node cached
  owned : (inhand ++ cached).Perm s.owned
  apart : s.owned.Pairwise fun a b => (s.region a).Apart (s.region b)
  tags : ∀ a ∈ s.owned, (s.mem a).map LlObj.lln_tag = some s.list.ll_tag
  count : (cached.length : ℤ) =
    s.list.ll_misc.ll_free_times_to_list - s.list.ll_misc.ll_alloc_times_from_list

def HeldCount (misc : LlMisc) (n : ℕ) : Prop :=
  (n : ℤ) = misc.ll_alloc_times - misc.ll_alloc_failed_times - misc.ll_free_times

variable {s s' : LlState} {inhand cached : List ℕ} {a n : ℕ}

theorem llFromSystem_list (s : LlState) (ll_alloc : Malloc) (junk : Bytes) :
    (llFromSystem ll_alloc junk s).2.list = s.list := by
  unfold llFromSystem
  cases ll_alloc.alloc (s.owned.map s.region) (sizeAdd s.list.ll_obj_sz llnSize) <;> rfl

namespace LlInv

theorem same (h : LlInv s inhand cached) (hs : SameLists s s') : LlInv s' inhand cached := by
  obtain ⟨hlist, hnode, howned, htags⟩ := hs
  refine ⟨hlist ▸ h.size, ?_, howned ▸ h.owned, ?_, ?_, hlist ▸ h.count⟩
  · rw [hlist, hnode]
    exact h.list
  · have hregion : s'.region = s.region := by
      unfold LlState.region
      rw [hlist]
    rw [howned, hregion]
    exact h.apart
  · intro a ha
    rw [htags, hlist]
    exact h.tags a (howned ▸ ha)

theorem perm {inhand' : List ℕ} (h : LlInv s inhand cached) (hp : inhand'.Perm inhand) :
    LlInv s inhand' cached :=
  ⟨h.size, h.list, (hp.append_right cached).trans h.owned, h.apart, h.tags, h.count⟩

theorem nodup (h : LlInv s inhand cached) : (inhand ++ cached).Nodup :=
  h.owned.nodup_iff.2 (h.apart.imp fun hapart => hapart.addr_ne h.size h.size)

theorem tag_inhand (h : LlInv s (a :: inhand) cached) :
    (s.mem a).map LlObj.lln_tag = some s.list.ll_tag :=
  h.tags a (h.owned.subset List.mem_cons_self)

/-- The object at the front of the list goes over to the caller. -/
theorem fromList (h : LlInv s inhand (a :: cached)) : ∃ s', llFromList s = .ok (some a, s') ∧
    LlInv s' (a :: inhand) cached ∧ (HeldCount s.list.ll_misc n → HeldCount s'.list.ll_misc n) := by
  obtain ⟨ll_list, hdel, hlist⟩ := h.list.delFront
  have htag : (s.mem a).map LlObj.lln_tag = some s.list.ll_tag :=
    h.tags a (h.owned.subset (by simp))
  unfold llFromList
  rw [h.list.head_eq]
  simp only [List.head?_cons, hdel, ok_bind]
  rw [tagCheck_ok (by exact htag)]
  refine ⟨_, rfl, ⟨h.size, hlist, List.perm_middle.symm.trans h.owned, h.apart, h.tags, ?_⟩, id⟩
  have hcount := h.count
  rw [List.length_cons] at hcount
  simp only [LlState.logs]
  omega

theorem fromSystem (h : LlInv s inhand []) (ll_alloc : Malloc) (junk : Bytes) :
    LlInv (llFromSystem ll_alloc junk s).2
      ((llFromSystem ll_alloc junk s).1.toList ++ inhand) [] := by
  unfold llFromSystem
  cases halloc : ll_alloc.alloc (s.owned.map s.region) (sizeAdd s.list.ll_obj_sz llnSize) with
  | none => exact h
  | some a =>
    obtain ⟨-, hfresh⟩ := ll_alloc.fresh _ _ _ halloc
    refine
      ⟨h.size, h.list, h.owned.cons a, List.pairwise_cons.2 ⟨fun b hb => ?_, h.apart⟩, ?_, h.count⟩
    · exact hfresh (s.region b) (List.mem_map_of_mem hb)
    · intro b hb
      rcases eq_or_ne b a with rfl | hne
      · simp only [Function.update_self, Option.map_some]
      · simp only [Function.update_of_ne hne]
        exact h.tags b (List.mem_of_ne_of_mem hne hb)

theorem toSystem (h : LlInv s (a :: inhand) cached) : LlInv (llToSystem a s) inhand cached := by
  obtain ⟨hmem, -⟩ := List.nodup_cons.1 h.nodup
  have howned : (inhand ++ cached).Perm (s.owned.erase a) := by
    have hp := h.owned.erase a
    rwa [List.cons_append, List.erase_cons_head] at hp
  refine ⟨h.size, h.list.update (fun hc => hmem (List.mem_append_right _ hc)) none, howned,
    h.apart.sublist List.erase_sublist, ?_, h.count⟩
  intro b hb
  have hne : b ≠ a := by
    rintro rfl
    exact hmem (howned.symm.subset hb)
  simp only [llToSystem, Function.update_of_ne hne]
  exact h.tags b (List.mem_of_mem_erase hb)

theorem toList (h : LlInv s (a :: inhand) cached) :
    ∃ s', llToList a s = .ok s' ∧ LlInv s' inhand (a :: cached) ∧
    s'.list.ll_misc = { s.list.ll_misc with ll_free_times_to_list :=
      s.list.ll_misc.ll_free_times_to_list + 1 } := by
  obtain ⟨o, ho, -⟩ := Option.map_eq_some_iff.1 h.tag_inhand
  obtain ⟨hmem, -⟩ := List.nodup_cons.1 h.nodup
  rw [llToList, ho]
  refine ⟨_, rfl, ⟨h.size, ?_, List.perm_middle.trans h.owned, h.apart, h.tags, ?_⟩, rfl⟩
  · exact h.list.addFront fun hc => hmem (List.mem_append_right _ hc)
  · have hcount := h.count
    rw [List.length_cons]
    simp only [LlState.logs]
    omega

end LlInv

end Inv

section Calls

variable {s : LlState} {inhand cached : List ℕ} {a n : ℕ}

/-- An object comes from the list, or from the system if the list is empty. -/
theorem llTake_inv (h : LlInv s inhand cached) (hn : HeldCount s.list.ll_misc n) (ll_alloc : Malloc)
    (junk : Bytes) :
    ∃ obj_hdr s' cached', llTake ll_alloc junk s = .ok (obj_hdr, s') ∧
      LlInv s' (obj_hdr.toList ++ inhand) cached' ∧ HeldCount s'.list.ll_misc n := by
  unfold llTake
  rw [h.list.2]
  cases cached with
  | nil =>
    rw [List.length_nil, if_neg (lt_irrefl 0)]
    refine ⟨_, (llFromSystem ll_alloc junk s).2, [], rfl, h.fromSystem ll_alloc junk, ?_⟩
    rw [llFromSystem_list]
    exact hn
  | cons a cached =>
    rw [if_pos (List.length_pos_of_ne_nil (List.cons_ne_nil a cached))]
    obtain ⟨s', hs', h', hcount⟩ := h.fromList
    exact ⟨some a, s', cached, hs', h', hcount hn⟩

theorem llCountAlloc_inv (obj_hdr : Option ℕ) (h : LlInv s inhand cached) :
    LlInv (llCountAlloc obj_hdr s) inhand cached := by
  refine ⟨h.size, h.list, h.owned, h.apart, h.tags, ?_⟩
  have hcount := h.count
  unfold llCountAlloc LlState.logs
  split_ifs <;> exact hcount

/-- A call that gives an object counts one more held, and one that fails counts as that. -/
theorem llCountAlloc_held (obj_hdr : Option ℕ) (h : HeldCount s.list.ll_misc n) :
    HeldCount (llCountAlloc obj_hdr s).list.ll_misc (obj_hdr.toList.length + n) := by
  unfold HeldCount at h ⊢
  cases obj_hdr with
  | none =>
    simp only [llCountAlloc, LlState.logs, if_true, Option.toList_none, List.length_nil]
    omega
  | some a =>
    simp only [llCountAlloc, LlState.logs, reduceCtorEq, if_false, Option.toList_some,
      List.length_singleton]
    omega

/-- The handler and `memset` write to an object in memory. -/
theorem llHandOut_ok (inlock_handler : Option (Bytes → Bytes)) (obj_hdr : Option ℕ)
    (h : LlInv s (obj_hdr.toList ++ inhand) cached) :
    ∃ s', llHandOut inlock_handler s obj_hdr = .ok (obj_hdr.map (· + llnSize), s') ∧
      SameLists s s' := by
  cases obj_hdr with
  | none => exact ⟨s.unlock, rfl, sameLists_unlock s⟩
  | some a =>
    obtain ⟨s1, hs1⟩ := handle_ok h.tag_inhand inlock_handler
    have h2 := (handle_cases hs1).1.trans (sameLists_unlock s1)
    obtain ⟨s2, hs2⟩ := zero_ok (h.same h2).tag_inhand
    refine ⟨s2, ?_, h2.trans (zero_cases hs2).1⟩
    rw [llHandOut, hs1, ok_bind, hs2]
    rfl

/-- An object goes into the list, or back to the system if there are enough in it. -/
theorem llPutBack_inv (h : LlInv s (a :: inhand) cached) (hn : HeldCount s.list.ll_misc n) :
    ∃ s' cached', llPutBack a s = .ok s' ∧ LlInv s' inhand cached' ∧
      HeldCount s'.list.ll_misc n := by
  unfold llPutBack
  split_ifs
  · exact ⟨_, cached, rfl, h.toSystem, hn⟩
  · obtain ⟨s', hs', h', hmisc⟩ := h.toList
    refine ⟨s', a :: cached, hs', h', ?_⟩
    rw [hmisc]
    exact hn

theorem llCountFree_inv (h : LlInv s inhand cached) : LlInv (llCountFree s) inhand cached :=
  ⟨h.size, h.list, h.owned, h.apart, h.tags, h.count⟩

theorem llCountFree_held (h : HeldCount s.list.ll_misc (n + 1)) :
    HeldCount (llCountFree s).list.ll_misc n := by
  unfold HeldCount at h ⊢
  simp only [llCountFree, LlState.logs]
  omega

end Calls

section Client

def headers (held : List ℕ) : List ℕ := held.map (· - llnSize)

structure Conserved (s : LlState) (held cached : List ℕ) : Prop where
  inv : LlInv s (headers held) cached
  count : HeldCount s.list.ll_misc held.length

def HoldsObj (r : LlRun) : LlOp → Prop
  | .alloc _ _ _ => True
  | .write obj _ => obj ∈ r.held
  | .free obj _ => obj ∈ r.held

variable {s s' : LlState} {held cached : List ℕ} {obj : ℕ}

theorem headers_erase (h : obj ∈ held) :
    ((obj - llnSize) :: headers (held.erase obj)).Perm (headers held) := by
  unfold headers
  exact ((List.perm_cons_erase h).map (· - llnSize)).symm

theorem conserved_start (high_level : ℤ) {obj_sz : ℕ} (hsz : obj_sz + llnSize < 2 ^ 64)
    (tag : UInt32)
    (zero_memory tag_check thrdsafe : ℤ) (mem : ℕ → Option LlObj) :
    Conserved (llStart high_level obj_sz tag zero_memory tag_check thrdsafe mem).st [] [] := by
  have hpos : 0 < sizeAdd obj_sz llnSize := by
    rw [sizeAdd_eq hsz]
    exact Nat.succ_pos _
  exact ⟨⟨hpos, Slist.holds_init _, List.Perm.nil, List.Pairwise.nil, by simp [llStart], rfl⟩, rfl⟩

namespace Conserved

theorem same (h : Conserved s held cached) (hs : SameLists s s') : Conserved s' held cached :=
  ⟨h.inv.same hs, hs.list ▸ h.count⟩

theorem tag (h : Conserved s held cached) (hobj : obj ∈ held) :
    (s.mem (obj - llnSize)).map LlObj.lln_tag = some s.list.ll_tag :=
  (h.inv.perm (headers_erase hobj)).tag_inhand

theorem alloc (h : Conserved s held cached) (ll_alloc : Malloc) (junk : Bytes)
    (inlock_handler : Option (Bytes → Bytes)) : ∃ obj s' cached',
      lookasideListAlloc ll_alloc junk inlock_handler s = .ok (obj, s') ∧
      Conserved s' (obj.toList ++ held) cached' := by
  have hlock := h.same (sameLists_lock s)
  obtain ⟨obj_hdr, s1, cached', hs1, h1, hcount⟩ := llTake_inv hlock.inv hlock.count ll_alloc junk
  obtain ⟨s2, hs2, h2⟩ := llHandOut_ok inlock_handler obj_hdr (llCountAlloc_inv obj_hdr h1)
  refine ⟨obj_hdr.map (· + llnSize), s2, cached', ?_, ?_⟩
  · rw [lookasideListAlloc, hs1]
    exact hs2
  · have h3 : Conserved (llCountAlloc obj_hdr s1)
      ((obj_hdr.map (· + llnSize)).toList ++ held) cached' := by
      have hinv := llCountAlloc_inv obj_hdr h1
      have hheld := llCountAlloc_held obj_hdr hcount
      cases obj_hdr with
      | none => exact ⟨hinv, by simpa using hheld⟩
      | some a => exact ⟨by simpa [headers] using hinv, by simpa [Nat.add_comm] using hheld⟩
    exact h3.same h2

theorem free (h : Conserved s held cached) (hobj : obj ∈ held)
    (inlock_handler : Option (Bytes → Bytes)) :
    ∃ s' cached', lookasideListFree obj inlock_handler s = .ok s' ∧
      Conserved s' (held.erase obj) cached' := by
  have hlock := h.same (sameLists_lock s)
  obtain ⟨s1, hs1⟩ := handle_ok (hlock.tag hobj) inlock_handler
  have h2 := hlock.same (handle_cases hs1).1
  obtain ⟨s2, cached', hs2, hinv, hcount⟩ :=
    llPutBack_inv (h2.inv.perm (headers_erase hobj)) h2.count
  have hlen : held.length = (held.erase obj).length + 1 := (List.length_erase_add_one hobj).symm
  rw [hlen] at hcount
  have h3 : Conserved (llCountFree s2) (held.erase obj) cached' :=
    ⟨llCountFree_inv hinv, llCountFree_held hcount⟩
  refine ⟨_, cached', ?_, h3.same (sameLists_unlock _)⟩
  rw [lookasideListFree, tagCheck_ok (h.tag hobj), ok_bind, hs1, ok_bind, hs2]
  rfl

/-- The step lemma: no call of such a client faults or aborts. -/
theorem step {r : LlRun} (h : ∃ cached, Conserved r.st r.held cached) (op : LlOp)
    (hop : HoldsObj r op) :
    ∃ r', llStep r op = some r' ∧ ∃ cached, Conserved r'.st r'.held cached := by
  obtain ⟨cached, h⟩ := h
  cases op with
  | alloc ll_alloc junk inlock_handler =>
    obtain ⟨obj, s', cached', hs', h'⟩ := h.alloc ll_alloc junk inlock_handler
    exact ⟨⟨s', obj.toList ++ r.held⟩, by rw [llStep, hs'], cached', h'⟩
  | write obj f =>
    obtain ⟨s', hs'⟩ := write_ok (h.tag hop) f
    exact ⟨⟨s', r.held⟩, by rw [llStep, hs'], cached, h.same (write_cases hs').1⟩
  | free obj inlock_handler =>
    obtain ⟨s', cached', hs', h'⟩ := h.free hop inlock_handler
    exact ⟨⟨s', r.held.erase obj⟩, by rw [llStep, hs'], cached', h'⟩

theorem destroy (h : Conserved s held cached) :
    ∃ s', lookasideListDestroy s = .ok (cached, s') := by
  have hlock := h.same (sameLists_lock s)
  have hdrain := hlock.inv.list.drain fun a ha =>
    tagCheck_ok (hlock.inv.tags a (hlock.inv.owned.subset (List.mem_append_right _ ha)))
  exact ⟨_, by rw [lookasideListDestroy]; simp only [hdrain, ok_bind]; rfl⟩

end Conserved

/-- A client that frees only what it holds gets through, whatever it does. The objects it holds and
those in the list are all different and lie apart, with the right tags on those in the list; the
counters count them; and destroying the list frees each object in it once. -/
theorem lookaside_conserved (high_level : ℤ) (obj_sz : ℕ) (hsz : obj_sz + llnSize < 2 ^ 64)
    (tag : UInt32)
    (zero_memory tag_check thrdsafe : ℤ) (mem : ℕ → Option LlObj) (ops : List LlOp)
    (hops : Meets llStep HoldsObj
      (llStart high_level obj_sz tag zero_memory tag_check thrdsafe mem) ops) :
    ∃ r cached, run llStep
      (llStart high_level obj_sz tag zero_memory tag_check thrdsafe mem) ops = some r ∧
      r.st.list.ll_list.Holds r.st.lln_node cached ∧
      (headers r.held ++ cached).Nodup ∧
      (headers r.held ++ cached).Pairwise (fun a b => (r.st.region a).Apart (r.st.region b)) ∧
      (∀ a ∈ cached, (r.st.mem a).map LlObj.lln_tag = some r.st.list.ll_tag) ∧
      (r.st.list.ll_list.len : ℤ) =
        r.st.list.ll_misc.ll_free_times_to_list - r.st.list.ll_misc.ll_alloc_times_from_list ∧
      (r.held.length : ℤ) =
        r.st.list.ll_misc.ll_alloc_times - r.st.list.ll_misc.ll_alloc_failed_times -
        r.st.list.ll_misc.ll_free_times ∧
      ∃ st, lookasideListDestroy r.st = .ok (cached, st) := by
  obtain ⟨r, hr, cached, h⟩ :=
    run_of_invariant llStep (I := fun r => ∃ cached, Conserved r.st r.held cached)
    ⟨[], conserved_start high_level hsz tag zero_memory tag_check thrdsafe mem⟩
    (fun _ op h hop => Conserved.step h op hop) hops
  refine ⟨r, cached, hr, h.inv.list, h.inv.nodup, ?_, fun a ha => ?_, ?_, h.count, h.destroy⟩
  · exact h.inv.owned.symm.pairwise h.inv.apart fun hab => hab.symm
  · exact h.inv.tags a (h.inv.owned.subset (List.mem_append_right _ ha))
  · rw [h.inv.list.2]
    exact h.inv.count

def reused : List LlOp :=
  [.alloc .bump [1] none, .free 4112 none, .alloc .fails [] none, .alloc .fails [] none,
    .free 4112 none]

theorem lookaside_conserved_reused : ∃ r cached,
    run llStep (llStart 1 8 7 0 1 1 fun _ => none) reused = some r ∧ r.held = [] ∧
      r.st.list.ll_list.len = 1 ∧
      cached.Nodup ∧ ∃ st, lookasideListDestroy r.st = .ok (cached, st) := by
  have hops : Meets llStep HoldsObj (llStart 1 8 7 0 1 1 fun _ => none) reused := by
    refine (meets_cons _).2 ⟨trivial, fun _ h => ?_⟩
    cases h
    refine (meets_cons _).2 ⟨List.mem_cons_self, fun _ h => ?_⟩
    cases h
    refine (meets_cons _).2 ⟨trivial, fun _ h => ?_⟩
    cases h
    refine (meets_cons _).2 ⟨trivial, fun _ h => ?_⟩
    cases h
    refine (meets_cons _).2 ⟨List.mem_cons_self, fun _ h => ?_⟩
    exact meets_nil _ _ _
  obtain ⟨r, cached, hr, -, hnodup, -, -, -, -, hdestroy⟩ :=
    lookaside_conserved 1 8 (by decide) 7 0 1 1 _ reused hops
  refine ⟨r, cached, hr, ?_, ?_, (List.nodup_append.1 hnodup).2.1, hdestroy⟩
  all_goals
    cases hr
    rfl

end Client

end Plume
