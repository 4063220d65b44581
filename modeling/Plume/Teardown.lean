import Plume.CtxTree

/-! `plm_ctx_destroy`: as soon as one context is registered below `main`, a node is read that has
been freed. -/

namespace Plume
open CLib

section Drain

variable {s s1 s' : CtxState} {tops : List ℕ} {n : ℕ}

structure Emptied (tops : List ℕ) (s s' : CtxState) : Prop where
  mc_ctxs : s'.mc_ctxs = Slist.init
  mc_free : s'.mc_free = s.mc_free
  freed : ∀ n ∈ tops, s'.cl n = none
  cl : ∀ n, n ∉ tops → s'.cl n = s.cl n
  cl_node : ∀ n, n ∉ tops → s'.cl_node n = s.cl_node n

/-- What happens behind it when there is nothing left in `mc_ctxs`. -/
theorem Emptied.trans (h : Emptied tops s s1) (h' : Emptied [] s1 s') : Emptied tops s s' where
  mc_ctxs := h'.mc_ctxs
  mc_free := h'.mc_free.trans h.mc_free
  freed := fun n hn => (h'.cl n (List.not_mem_nil)).trans (h.freed n hn)
  cl := fun n hn => (h'.cl n (List.not_mem_nil)).trans (h.cl n hn)
  cl_node := fun n hn => (h'.cl_node n (List.not_mem_nil)).trans (h.cl_node n hn)

theorem Emptied.nothing (h : s.mc_ctxs = Slist.init) : Emptied [] s s :=
  ⟨h, rfl, by simp, fun _ _ => rfl, fun _ _ => rfl⟩

theorem drain_emptied (hlist : s.mc_ctxs.Holds s.cl_node tops)
    (halive : ∀ n ∈ tops, ∃ cl, s.cl n = some cl) :
    ∃ s', ctxDrain s.mc_ctxs.len s = .ok s' ∧ Emptied tops s s' := by
  induction tops generalizing s with
  | nil =>
    refine ⟨s, ?_, Emptied.nothing ?_⟩
    · rw [hlist.2]
      rfl
    · exact congrArg₂ Slist.mk hlist.1 hlist.2
  | cons n tops ih =>
    obtain ⟨⟨cl, hcl⟩, halive⟩ := List.forall_mem_cons.1 halive
    obtain ⟨l, hdel, hl⟩ := hlist.delFront
    have hn : n ∉ tops := (List.nodup_cons.1 hlist.nodup).1
    let s1 : CtxState :=
      { s with
        mc_ctxs := l
        cl := Function.update s.cl n none
        cl_node := Function.update s.cl_node n none
        log := s.log ++ [.free n] }
    have halive1 : ∀ m ∈ tops, ∃ cl, s1.cl m = some cl := by
      intro m hm
      obtain ⟨c, hc⟩ := halive m hm
      exact ⟨c, (Function.update_of_ne (ne_of_mem_of_not_mem hm hn) ..).trans hc⟩
    obtain ⟨s', hdrain, h'⟩ := ih (s := s1) (hl.update hn none) halive1
    refine ⟨s', ?_, ⟨h'.mc_ctxs, h'.mc_free, ?_, ?_, ?_⟩⟩
    · have hlen : s1.mc_ctxs.len = tops.length := hl.2
      rw [hlist.2, List.length_cons, ctxDrain, hlist.head_eq]
      simp only [List.head?_cons, hdel, ok_bind]
      unfold ctxFree
      rw [clAt_some (s := { s with mc_ctxs := l }) hcl]
      rw [hlen] at hdrain
      exact hdrain
    · intro m hm
      rcases List.mem_cons.1 hm with rfl | hm
      · exact (h'.cl m hn).trans (Function.update_self ..)
      · exact h'.freed m hm
    · intro m hm
      obtain ⟨hne, hm⟩ := not_or.1 (mt List.mem_cons.2 hm)
      exact (h'.cl m hm).trans (Function.update_of_ne hne ..)
    · intro m hm
      obtain ⟨hne, hm⟩ := not_or.1 (mt List.mem_cons.2 hm)
      exact (h'.cl_node m hm).trans (Function.update_of_ne hne ..)

/-- The loop behind a walk that may have emptied `mc_ctxs` already. -/
theorem drain_behind {walked : Prop} (hlist : s.mc_ctxs.Holds s.cl_node tops)
    (halive : ∀ n ∈ tops, ∃ cl, s.cl n = some cl) (h : walked ∧ s1 = s ∨ Emptied tops s s1) :
    ∃ s2, ctxDrain s1.mc_ctxs.len s1 = .ok s2 ∧ Emptied tops s s2 := by
  rcases h with ⟨-, rfl⟩ | h1
  · exact drain_emptied hlist halive
  · refine ⟨s1, ?_, h1⟩
    rw [h1.mc_ctxs]
    rfl

end Drain

section Foreach

variable {s s' : CtxState} {tops : List ℕ} {f rest subs : Forest ℕ} {n : ℕ} {p : Option ℕ}

theorem foreach_some {fuel : ℕ} {cl : CtxList} {next : Option ℕ} {s1 s2 : CtxState}
    (hcl : s.cl n = some cl)
    (hwalk : ctxForeach fuel cl.cl_list.head s = .ok s1)
    (hdrain : ctxDrain s1.mc_ctxs.len s1 = .ok s2)
    (hcl2 : s2.cl n = some cl) (hnext : s2.cl_node n = some next) :
    ctxForeach (fuel + 1)
      (some n) s = ctxForeach fuel next { s2 with log := s2.log ++ [.c_free n cl.cl_data] } := by
  rw [ctxForeach, ctxListForeach, clAt_some hcl, ok_bind, hwalk, ok_bind, hdrain, ok_bind,
    clAt_some hcl2, ok_bind, pure_ok, ok_bind]
  simp only [hnext]

/-- A walk over contexts that are not in `mc_ctxs` returns. Where there are any, all nodes of
`mc_ctxs` are freed behind it. -/
theorem foreach_emptied (f : Forest ℕ) (hlist : s.mc_ctxs.Holds s.cl_node tops)
    (halive : ∀ n ∈ tops, ∃ cl, s.cl n = some cl) (hseg : Seg s.cl_node p f.roots none)
    (hsubs : SubsLaid s f)
    (happart : ∀ n ∈ f.preorder, n ∉ tops) :
    ∃ k s', (∀ fuel, k ≤ fuel → ctxForeach fuel p s = .ok s') ∧
      (f = .nil ∧ s' = s ∨ Emptied tops s s') := by
  induction f generalizing s p tops with
  | nil =>
    refine ⟨0, s, fun fuel _ => ?_, Or.inl ⟨rfl, rfl⟩⟩
    rw [show p = none from hseg]
    cases fuel <;> rfl
  | cons n subs rest ihs ihr =>
    obtain ⟨⟨cl, hcl, hsub⟩, hsubs, hrest⟩ := hsubs
    obtain ⟨rfl, next, hnext, hseg⟩ := hseg
    simp only [Forest.preorder, List.forall_mem_cons, List.forall_mem_append] at happart
    obtain ⟨hn, hasubs, harest⟩ := happart
    obtain ⟨k1, s1, hwalk1, hs1⟩ := ihs hlist halive hsub.1 hsubs hasubs
    -- the nodes of `mc_ctxs` are freed here, if a context below has not done so
    obtain ⟨s2, hdrain, h2⟩ := drain_behind hlist halive hs1
    let s3 : CtxState := { s2 with log := s2.log ++ [.c_free n cl.cl_data] }
    have h3 : Emptied tops s s3 := ⟨h2.mc_ctxs, h2.mc_free, h2.freed, h2.cl, h2.cl_node⟩
    have hlist3 : s3.mc_ctxs.Holds s3.cl_node [] := by
      rw [h3.mc_ctxs]
      exact Slist.holds_init _
    have hseg3 : Seg s3.cl_node next rest.roots none :=
      (seg_congr fun m hm => h3.cl_node m (harest m (rest.roots_sublist.subset hm))).2 hseg
    have hrest3 : SubsLaid s3 rest :=
      hrest.congr (fun m hm => h3.cl m (harest m hm)) fun m hm => h3.cl_node m (harest m hm)
    obtain ⟨k2, s4, hwalk2, hs4⟩ := ihr hlist3 (by simp) hseg3 hrest3 (by simp)
    refine ⟨max k1 k2 + 1, s4, fun fuel hfuel => ?_, Or.inr ?_⟩
    · obtain ⟨fuel, rfl⟩ := Nat.exists_eq_add_of_le' (Nat.one_le_of_lt hfuel)
      rw [foreach_some hcl (hwalk1 fuel (by omega)) hdrain ((h2.cl n hn).trans hcl)
        ((h2.cl_node n hn).trans hnext)]
      exact hwalk2 fuel (by omega)
    · rcases hs4 with ⟨-, rfl⟩ | h4
      · exact h3
      · exact h3.trans h4

/-- The first context in `mc_ctxs` is freed before its function to free it is looked up. -/
theorem foreach_faults (h : Laid s (.cons n subs rest)) :
    ∃ k, ∀ fuel, k ≤ fuel → ctxForeach fuel s.mc_ctxs.head s = .error .wild := by
  obtain ⟨hlist, hlaid, hnodup⟩ := h
  have halive := hlaid.alive
  obtain ⟨⟨cl, hcl, hsub⟩, hsubs, -⟩ := hlaid
  have hroots : ∀ m ∈ (Forest.cons n subs rest).roots, ∃ cl, s.cl m = some cl :=
    fun m hm => halive m ((Forest.roots_sublist _).subset hm)
  have hapart : ∀ m ∈ subs.preorder, m ∉ (Forest.cons n subs rest).roots := by
    obtain ⟨hn, hrest⟩ := List.nodup_cons.1 hnodup
    intro m hm hroot
    rcases List.mem_cons.1 hroot with rfl | hroot
    · exact hn (List.mem_append_left _ hm)
    · exact (List.nodup_append.1 hrest).2.2 m hm m (rest.roots_sublist.subset hroot) rfl
  obtain ⟨k, s1, hwalk, hs1⟩ := foreach_emptied subs hlist hroots hsub.1 hsubs hapart
  obtain ⟨s2, hdrain, h2⟩ := drain_behind hlist hroots hs1
  have hfreed : s2.cl n = none := h2.freed n List.mem_cons_self
  refine ⟨k + 1, fun fuel hfuel => ?_⟩
  obtain ⟨fuel, rfl⟩ := Nat.exists_eq_add_of_le' (Nat.one_le_of_lt hfuel)
  rw [hlist.1.1, ctxForeach, ctxListForeach, clAt_some hcl, ok_bind, hwalk fuel (by omega), ok_bind,
    hdrain, ok_bind, clAt, hfreed]
  rfl

end Foreach

section Destroy

variable {s s' : CtxState} {f : Forest ℕ} {fn : ℕ}

def CtxEvent.called : CtxEvent → Option (ℕ × PlmCtx)
  | .c_free cl data => some (cl, data)
  | _ => none

def CtxEvent.freed : CtxEvent → Option ℕ
  | .free node => some node
  | _ => none

/-- The contexts as they are registered: `f` below `main`, and the context of `main`. -/
structure Registered (s : CtxState) (f : Forest ℕ) (fn : ℕ) : Prop where
  laid : Laid s f
  mc_free : s.mc_free = some fn
  log : s.log = []

structure TornDown (s s' : CtxState) (f : Forest ℕ) (fn : ℕ) : Prop where
  called : (s'.log.filterMap CtxEvent.called).Perm
    (f.preorder.filterMap fun n => (s.cl n).map fun cl => (n, cl.cl_data))
  order : ∀ e ∈ f.edges, [e.2, e.1].Sublist ((s'.log.filterMap CtxEvent.called).map Prod.fst)
  freed : (s'.log.filterMap CtxEvent.freed).Perm f.preorder
  main : ∃ log, s'.log = log ++ [.mc_free fn] ∧ .mc_free fn ∉ log
  empty : s'.mc_ctxs = Slist.init

theorem destroy_nil (h : Registered s .nil fn) :
    ∃ s', (∀ fuel, ctxDestroy fuel s = .ok (0, s')) ∧ TornDown s s' .nil fn := by
  have hempty : s.mc_ctxs = Slist.init := congrArg₂ Slist.mk h.laid.main.1 h.laid.main.2
  refine ⟨{ s with log := s.log ++ [.mc_free fn] }, fun fuel => ?_, ?_⟩
  · have hwalk : ctxForeach fuel s.mc_ctxs.head s = .ok s := by
      rw [hempty]
      cases fuel <;> rfl
    have hdrain : ctxDrain s.mc_ctxs.len s = .ok s := by
      rw [hempty]
      rfl
    rw [ctxDestroy, hwalk, ok_bind, hdrain, ok_bind, h.mc_free]
    rfl
  · constructor
    · rw [h.log]
      exact List.Perm.refl _
    · simp [Forest.edges]
    · rw [h.log]
      exact List.Perm.refl _
    · exact ⟨[], by rw [h.log], by simp⟩
    · exact hempty

theorem destroy_faults (h : Laid s f) (hne : f ≠ .nil) :
    ∃ k, ∀ fuel, k ≤ fuel → ctxDestroy fuel s = .error .wild := by
  cases f with
  | nil => exact absurd rfl hne
  | cons n subs rest =>
    obtain ⟨k, hk⟩ := foreach_faults h
    refine ⟨k, fun fuel hfuel => ?_⟩
    rw [ctxDestroy, hk fuel hfuel]
    rfl

/-- Of any configuration with blocks below `main`, a node is read that has been freed. -/
theorem register_destroy (parent : ℕ) (m : CtxBlock) {blocks : Forest CtxBlock}
    (hne : blocks ≠ .nil) :
    ∃ s, ctxRegisterAll ((parent, m) :: ctxRegs m.ctx blocks) ctxInit = .ok s ∧
      ∃ k, ∀ fuel, k ≤ fuel → ctxDestroy fuel s = .error .wild := by
  obtain ⟨s, nodes, hall, hn⟩ := register_nodes parent m blocks
  refine ⟨s, hall, destroy_faults hn.laid ?_⟩
  have hlen : nodes.length = blocks.preorder.length := by
    simpa using congrArg List.length hn.content
  cases blocks with
  | nil => exact absurd rfl hne
  | cons b subs rest =>
    cases nodes with
    | nil => cases hlen
    | cons n nodes =>
      rw [Forest.flat]
      simp

/-- `plm_ctx_destroy` frees what was registered if and only if no context is registered below
`main`; if there is one, a node is read that has been freed. -/
theorem contexts_torn_down_iff (h : Registered s f fn) :
    ((∃ s', (∃ k, ∀ fuel, k ≤ fuel → ctxDestroy fuel s = .ok (0, s')) ∧ TornDown s s' f fn) ↔
      f = .nil) ∧
      (f ≠ .nil → ∃ k, ∀ fuel, k ≤ fuel → ctxDestroy fuel s = .error .wild) := by
  have hfault := destroy_faults h.laid
  refine ⟨⟨fun ⟨s', ⟨k, hk⟩, _⟩ => ?_, ?_⟩, hfault⟩
  · by_contra hne
    obtain ⟨k', hk'⟩ := hfault hne
    have hboth := (hk (max k k') (le_max_left ..)).symm.trans (hk' (max k k') (le_max_right ..))
    cases hboth
  · rintro rfl
    obtain ⟨s', hall, hdown⟩ := destroy_nil h
    exact ⟨s', ⟨0, fun fuel _ => hall fuel⟩, hdown⟩

def oneContext : CtxState :=
  { ctxInit with
    inited := true
    mc_free := some 10
    mc_ctxs := ⟨some 0, 1⟩
    cl := Function.update (fun _ => none) 0 (some ⟨Slist.init, ⟨20, 200⟩, 1⟩)
    cl_node := Function.update (fun _ => none) 0 (some none) }

theorem registered_one : Registered oneContext (.cons 0 .nil .nil) 10 where
  laid := ⟨⟨⟨rfl, none, rfl, rfl⟩, rfl⟩, ⟨⟨_, rfl, Slist.holds_init _⟩, trivial, trivial⟩,
    List.nodup_singleton 0⟩
  mc_free := rfl
  log := rfl

theorem contexts_torn_down_iff_one :
    ∃ k, ∀ fuel, k ≤ fuel → ctxDestroy fuel oneContext = .error .wild :=
  (contexts_torn_down_iff registered_one).2 (by simp)

theorem not_contexts_torn_down : ¬ ∀ s f fn, Registered s f fn →
    ∃ s', (∃ k, ∀ fuel, k ≤ fuel → ctxDestroy fuel s = .ok (0, s')) ∧ TornDown s s' f fn := by
  intro h
  obtain ⟨s', ⟨k, hk⟩, -⟩ := h oneContext _ _ registered_one
  have hfault : ctxDestroy (k + 2) oneContext = .error .wild := rfl
  rw [hk (k + 2) (Nat.le_add_right ..)] at hfault
  cases hfault

end Destroy

end Plume
