import Plume.Lookaside

/-! The features of a lookaside list: zeroed memory, the tag check and the lock share one bit, and
which settings give what was asked for all the same. -/

namespace Plume
open CLib

section Lock

def lockHeld (log : List LlEvent) : Bool :=
  log.foldl (fun held e => match e with | .lock => true | .unlock => false | .change => held) false

def Guarded (log : List LlEvent) : Prop := ∀ pre, pre ++ [.change] <+: log → lockHeld pre = true

/-- What one call does to the lock, if it makes `n` changes. -/
def bracket (thrdsafe : Bool) (n : ℕ) : List LlEvent :=
  if thrdsafe then .lock :: List.replicate n .change ++ [.unlock] else List.replicate n .change

/-- The lock between the calls: it is free, or it was never touched. -/
def LockInv (thrdsafe : Bool) (log : List LlEvent) : Prop :=
  if thrdsafe then lockHeld log = false ∧ Guarded log else ∀ e ∈ log, e = .change

variable {log : List LlEvent} {e : LlEvent} {n : ℕ}

theorem guarded_nil : Guarded [] := by
  intro pre hpre
  exact absurd (List.prefix_nil.1 hpre) (by simp)

theorem guarded_snoc (h : Guarded log) (he : e = .change → lockHeld log = true) :
    Guarded (log ++ [e]) := by
  intro pre hpre
  rcases List.prefix_concat_iff.1 hpre with heq | hpre
  · obtain ⟨rfl, hlast⟩ := List.append_inj' heq rfl
    exact he (List.singleton_inj.1 hlast).symm
  · exact h pre hpre

theorem lockHeld_changes (log : List LlEvent) (n : ℕ) :
    lockHeld (log ++ List.replicate n .change) = lockHeld log := by
  induction n with
  | zero => rw [List.replicate_zero, List.append_nil]
  | succ n ih =>
    rw [List.replicate_succ', ← List.append_assoc, lockHeld, List.foldl_append]
    exact ih

theorem guarded_changes (h : Guarded log) (hheld : lockHeld log = true) (n : ℕ) :
    Guarded (log ++ List.replicate n .change) := by
  induction n with
  | zero => rwa [List.replicate_zero, List.append_nil]
  | succ n ih =>
    rw [List.replicate_succ', ← List.append_assoc]
    exact guarded_snoc ih fun _ => (lockHeld_changes log n).trans hheld

theorem lockInv_bracket {thrdsafe : Bool} (h : LockInv thrdsafe log) (n : ℕ) :
    LockInv thrdsafe (log ++ bracket thrdsafe n) := by
  cases thrdsafe with
  | false =>
    simp only [LockInv, bracket, Bool.false_eq_true, if_false] at h ⊢
    intro e he
    rcases List.mem_append.1 he with he | he
    · exact h e he
    · exact List.eq_of_mem_replicate he
  | true =>
    simp only [LockInv, bracket, if_true] at h ⊢
    have hlocked : lockHeld (log ++ [.lock]) = true := by
      rw [lockHeld, List.foldl_append]
      rfl
    have hguarded : Guarded (log ++ [.lock] ++ List.replicate n .change) :=
      guarded_changes (guarded_snoc h.2 (by simp)) hlocked n
    have hsplit : log ++ (LlEvent.lock :: List.replicate n LlEvent.change ++ [LlEvent.unlock]) =
        log ++ [LlEvent.lock] ++ List.replicate n LlEvent.change ++ [LlEvent.unlock] := by
      rw [List.cons_append, List.append_cons log, List.append_assoc (log ++ [LlEvent.lock])]
    rw [hsplit]
    refine ⟨?_, guarded_snoc hguarded (by simp)⟩
    rw [lockHeld, List.foldl_append]
    rfl

end Lock

section Calls

def Linked (s : LlState) : Prop := ∀ a, s.mem a = none → s.lln_node a = none

structure SameSetup (s s' : LlState) : Prop where
  ll_obj_sz : s'.list.ll_obj_sz = s.list.ll_obj_sz
  ll_tag : s'.list.ll_tag = s.list.ll_tag
  ll_onoff : s'.list.ll_onoff = s.list.ll_onoff
  linked : Linked s → Linked s'

structure Works (n : ℕ) (s s' : LlState) : Prop where
  setup : SameSetup s s'
  log : s'.log = s.log ++ List.replicate n .change

variable {s s1 s' : LlState} {a m n : ℕ} {obj : Option ℕ} {ll_alloc : Malloc} {junk : Bytes}
  {inlock_handler : Option (Bytes → Bytes)}

theorem SameSetup.trans (h : SameSetup s s1) (h' : SameSetup s1 s') : SameSetup s s' :=
  ⟨h'.1.trans h.1, h'.2.trans h.2, h'.3.trans h.3, fun hlinked => h'.4 (h.4 hlinked)⟩

theorem SameLists.setup (h : SameLists s s') : SameSetup s s' := by
  obtain ⟨hlist, hnode, -, htags⟩ := h
  refine ⟨by rw [hlist], by rw [hlist], by rw [hlist], fun hlinked a ha => ?_⟩
  have htag := htags a
  rw [ha, Option.map_none, eq_comm, Option.map_eq_none_iff] at htag
  rw [hnode, hlinked a htag]

theorem works_same (h : SameLists s s') (hlog : s'.log = s.log) : Works 0 s s' :=
  ⟨h.setup, by rw [hlog, List.replicate_zero, List.append_nil]⟩

theorem Works.trans (h : Works m s s1) (h' : Works n s1 s') : Works (m + n) s s' :=
  ⟨h.setup.trans h'.setup, by rw [h'.log, h.log, List.append_assoc,
    List.replicate_append_replicate]⟩

/-- The object taken is in memory, and has the right tag if tags are checked. -/
theorem llTake_cases (h : llTake ll_alloc junk s = .ok (obj, s')) : (∃ n, Works n s s') ∧
    ∀ a, obj = some a → (Linked s → s'.mem a ≠ none) ∧
      (s.list.ll_onoff.ll_tag_check = true →
        (s'.mem a).map LlObj.lln_tag = some s'.list.ll_tag) := by
  unfold llTake at h
  split_ifs at h
  · unfold llFromList at h
    cases hhead : s.list.ll_list.head with
    | none =>
      rw [hhead] at h
      cases h
    | some a =>
      simp only [hhead] at h
      obtain ⟨l, hdel, h⟩ := bind_eq_ok.1 h
      obtain ⟨⟨⟩, hcheck, h⟩ := bind_eq_ok.1 h
      cases h
      refine ⟨⟨1, ⟨rfl, rfl, rfl, id⟩, rfl⟩, fun b hb => ?_⟩
      obtain rfl := Option.some.inj hb
      refine ⟨fun hlinked hmem => ?_, tagCheck_spec hcheck⟩
      have hnode := hlinked a hmem
      rw [Slist.delFront, if_neg (by omega), hhead, Option.bind_some, hnode] at hdel
      cases hdel
  · unfold llFromSystem at h
    cases halloc : ll_alloc.alloc (s.owned.map s.region) (sizeAdd s.list.ll_obj_sz llnSize) with
    | none =>
      rw [halloc] at h
      cases h
      exact ⟨⟨0, works_same (SameLists.refl s) rfl⟩, by simp⟩
    | some a =>
      rw [halloc] at h
      cases h
      refine
        ⟨⟨0, ⟨rfl, rfl, rfl, fun hlinked b hb => ?_⟩, (List.append_nil _).symm⟩, fun b hb => ?_⟩
      · rcases eq_or_ne b a with rfl | hne
        · simp at hb
        · exact hlinked b (by simpa [hne] using hb)
      · obtain rfl := Option.some.inj hb
        simp

theorem llCountAlloc_works (obj : Option ℕ) (s : LlState) : Works 1 s (llCountAlloc obj s) :=
  ⟨⟨rfl, rfl, rfl, id⟩, rfl⟩

theorem llPutBack_works (h : llPutBack a s = .ok s') : ∃ n, Works n s s' := by
  unfold llPutBack at h
  split_ifs at h
  · cases h
    refine ⟨0, ⟨rfl, rfl, rfl, fun hlinked b hb => ?_⟩, (List.append_nil _).symm⟩
    rcases eq_or_ne b a with rfl | hne
    · exact Function.update_self ..
    · simp only [llToSystem, Function.update_of_ne hne] at hb ⊢
      exact hlinked b hb
  · unfold llToList at h
    cases ho : s.mem a with
    | none =>
      rw [ho] at h
      cases h
    | some o =>
      rw [ho] at h
      cases h
      refine ⟨1, ⟨rfl, rfl, rfl, fun hlinked b hb => ?_⟩, rfl⟩
      have hne : b ≠ a := by
        rintro rfl
        rw [show s.mem b = none from hb] at ho
        cases ho
      exact (Function.update_of_ne hne ..).trans (hlinked b hb)

theorem works_bracket (h : Works n s.lock s') :
    s'.unlock.log = s.log ++ bracket s.list.ll_onoff.ll_thrdsafe n ∧ SameSetup s s'.unlock := by
  have hon : s'.list.ll_onoff = s.list.ll_onoff :=
    h.setup.ll_onoff.trans (sameLists_lock s).setup.ll_onoff
  refine ⟨?_, (sameLists_lock s).setup.trans (h.setup.trans (sameLists_unlock s').setup)⟩
  have hlog := h.log
  unfold LlState.lock at hlog
  unfold LlState.unlock bracket
  rw [hon]
  split_ifs with hsafe
  · simp only [hsafe, if_true, LlState.logs] at hlog
    simp only [LlState.logs, hlog, List.append_assoc, List.cons_append, List.nil_append]
  · simp only [hsafe, Bool.false_eq_true, if_false] at hlog
    exact hlog

/-- What a call of `plm_lookaside_list_alloc` did, if it came back. -/
theorem lookasideListAlloc_cases
    (h : lookasideListAlloc ll_alloc junk inlock_handler s = .ok (obj, s')) :
    (∃ n, s'.log = s.log ++ bracket s.list.ll_onoff.ll_thrdsafe n) ∧ SameSetup s s' ∧
      ∀ p, obj = some p → (Linked s → s'.mem (p - llnSize) ≠ none) ∧
        (s.list.ll_onoff.ll_tag_check = true →
          (s'.mem (p - llnSize)).map LlObj.lln_tag = some s'.list.ll_tag) ∧
        (s.list.ll_onoff.ll_zero_memory = true →
          (s'.mem (p - llnSize)).map LlObj.obj = some (List.replicate s'.list.ll_obj_sz 0)) := by
  obtain ⟨⟨obj_hdr, s1⟩, htake, h⟩ := bind_eq_ok.1 h
  obtain ⟨⟨n, hworks⟩, htag⟩ := llTake_cases htake
  have hcount := hworks.trans (llCountAlloc_works obj_hdr s1)
  cases obj_hdr with
  | none =>
    cases h
    obtain ⟨hlog, hsetup⟩ := works_bracket hcount
    exact ⟨⟨_, hlog⟩, hsetup, by simp⟩
  | some a =>
    obtain ⟨s2, hs2, h⟩ := bind_eq_ok.1 h
    obtain ⟨s3, hs3, h⟩ := bind_eq_ok.1 h
    cases h
    obtain ⟨hsame2, hlog2⟩ := handle_cases hs2
    obtain ⟨hsame3, hlog3, hzero⟩ := zero_cases hs3
    obtain ⟨hlog, hsetup⟩ := works_bracket (hcount.trans (works_same hsame2 hlog2))
    have hall := hsetup.trans hsame3.setup
    refine ⟨⟨_, hlog3.trans hlog⟩, hall, fun p hp => ?_⟩
    obtain rfl := Option.some.inj hp
    rw [Nat.add_sub_cancel]
    have hsame := (hsame2.trans (sameLists_unlock s2)).trans hsame3
    have htags := hsame.tags a
    obtain ⟨hmem, htag⟩ := htag a rfl
    refine ⟨fun hlinked hnone => ?_, fun hon => ?_, fun hon => ?_⟩
    · rw [hnone, Option.map_none, eq_comm, Option.map_eq_none_iff] at htags
      exact hmem ((sameLists_lock s).setup.linked hlinked) htags
    · rw [htags, hsame.list]
      exact htag ((sameLists_lock s).setup.ll_onoff ▸ hon)
    · rw [hsame3.list]
      exact hzero (hsetup.ll_onoff ▸ hon)

theorem lookasideListFree_cases {p : ℕ} (h : lookasideListFree p inlock_handler s = .ok s') :
    (∃ n, s'.log = s.log ++ bracket s.list.ll_onoff.ll_thrdsafe n) ∧ SameSetup s s' ∧
      s.tagCheck (p - llnSize) = .ok () := by
  obtain ⟨⟨⟩, hcheck, h⟩ := bind_eq_ok.1 h
  obtain ⟨s1, hs1, h⟩ := bind_eq_ok.1 h
  obtain ⟨s2, hs2, h⟩ := bind_eq_ok.1 h
  cases h
  obtain ⟨hsame, hlog⟩ := handle_cases hs1
  obtain ⟨n, hput⟩ := llPutBack_works hs2
  have hcount : Works 1 s2 (llCountFree s2) := ⟨⟨rfl, rfl, rfl, id⟩, rfl⟩
  obtain ⟨hlog', hsetup⟩ := works_bracket (((works_same hsame hlog).trans hput).trans hcount)
  exact ⟨⟨_, hlog'⟩, hsetup, hcheck⟩

theorem lookasideListDestroy_cases {freed : List ℕ} (h : lookasideListDestroy s = .ok (freed, s')) :
    (∃ n, s'.log = s.log ++ bracket s.list.ll_onoff.ll_thrdsafe n) ∧ ∀ a ∈ freed, s.tagCheck a = .ok
    () := by
  obtain ⟨freed', hdrain, h⟩ := bind_eq_ok.1 h
  cases h
  have hcheck : s.lock.tagCheck = s.tagCheck := by
    unfold LlState.lock
    split_ifs <;> rfl
  have hworks : Works freed.length s.lock
      { s.lock with log := s.lock.log ++ List.replicate freed.length .change } :=
        ⟨⟨rfl, rfl, rfl, id⟩, rfl⟩
  exact ⟨⟨_, (works_bracket hworks).1⟩, hcheck ▸ Slist.drain_checked hdrain⟩

end Calls

section Features

/-- What was asked for holds of the next call, whatever it is, and of the locking so far. -/
structure Honours (zero_memory tag_check thrdsafe : ℤ) (s : LlState) : Prop where
  zeroed : zero_memory ≠ 0 → ∀ ll_alloc junk inlock_handler obj s',
    lookasideListAlloc ll_alloc junk inlock_handler s = .ok (some obj, s') →
      ∃ o, s'.mem (obj - llnSize) = some o ∧ ∀ b ∈ o.obj.take s'.list.ll_obj_sz, b = 0
  tagAlloc : tag_check ≠ 0 → ∀ ll_alloc junk inlock_handler obj s',
    lookasideListAlloc ll_alloc junk inlock_handler s = .ok (some obj, s') →
      (s'.mem (obj - llnSize)).map LlObj.lln_tag = some s'.list.ll_tag
  tagFree : tag_check ≠ 0 →
    ∀ obj inlock_handler s', lookasideListFree obj inlock_handler s = .ok s' →
    (s.mem (obj - llnSize)).map LlObj.lln_tag = some s.list.ll_tag
  tagDestroy : tag_check ≠ 0 → ∀ freed s', lookasideListDestroy s = .ok (freed, s') →
    ∀ a ∈ freed, (s.mem a).map LlObj.lln_tag = some s.list.ll_tag
  locked : thrdsafe ≠ 0 → Guarded s.log ∧ ∀ freed s', lookasideListDestroy s = .ok (freed, s') →
    Guarded s'.log
  untouched : thrdsafe = 0 → (∀ e ∈ s.log, e = .change) ∧
    ∀ freed s', lookasideListDestroy s = .ok (freed, s') → ∀ e ∈ s'.log, e = .change

variable {r r' : LlRun} {op : LlOp} {high_level : ℤ} {obj_sz : ℕ} {tag : UInt32}
  {zero_memory tag_check thrdsafe : ℤ} {mem : ℕ → Option LlObj}

structure SetUp (obj_sz : ℕ) (tag : UInt32) (on : Bool) (s : LlState) : Prop where
  ll_obj_sz : s.list.ll_obj_sz = obj_sz
  ll_tag : s.list.ll_tag = tag
  ll_onoff : s.list.ll_onoff = ⟨on⟩
  linked : Linked s
  lock : LockInv on s.log

theorem SetUp.call {on : Bool} {s s' : LlState} (h : SetUp obj_sz tag on s) (hs : SameSetup s s')
    (hlog : ∃ n, s'.log = s.log ++
      bracket s.list.ll_onoff.ll_thrdsafe n) : SetUp obj_sz tag on s' := by
  obtain ⟨n, hlog⟩ := hlog
  refine ⟨hs.ll_obj_sz.trans h.ll_obj_sz, hs.ll_tag.trans h.ll_tag, hs.ll_onoff.trans h.ll_onoff,
    hs.linked h.linked, ?_⟩
  rw [hlog, h.ll_onoff]
  exact lockInv_bracket h.lock n

theorem SetUp.step {on : Bool} (h : SetUp obj_sz tag on r.st) (hstep : llStep r op = some r') :
    SetUp obj_sz tag on r'.st := by
  cases op with
  | alloc ll_alloc junk inlock_handler =>
    rw [llStep] at hstep
    cases hcall : lookasideListAlloc ll_alloc junk inlock_handler r.st with
    | error e =>
      rw [hcall] at hstep
      cases hstep
    | ok p =>
      rw [hcall] at hstep
      cases hstep
      obtain ⟨hlog, hsetup, -⟩ := lookasideListAlloc_cases hcall
      exact h.call hsetup hlog
  | write obj f =>
    rw [llStep] at hstep
    cases hcall : r.st.write (obj - llnSize) f with
    | error e =>
      rw [hcall] at hstep
      cases hstep
    | ok s' =>
      rw [hcall] at hstep
      cases hstep
      obtain ⟨hsame, hlog, -⟩ := write_cases hcall
      have hsetup := hsame.setup
      exact ⟨hsetup.ll_obj_sz.trans h.ll_obj_sz, hsetup.ll_tag.trans h.ll_tag,
        hsetup.ll_onoff.trans h.ll_onoff, hsetup.linked h.linked, hlog ▸ h.lock⟩
  | free obj inlock_handler =>
    rw [llStep] at hstep
    cases hcall : lookasideListFree obj inlock_handler r.st with
    | error e =>
      rw [hcall] at hstep
      cases hstep
    | ok s' =>
      rw [hcall] at hstep
      cases hstep
      obtain ⟨hlog, hsetup, -⟩ := lookasideListFree_cases hcall
      exact h.call hsetup hlog

/-- The run lemma; the bit is that of `thrdsafe`, which is stored last. -/
theorem setUp_run {ops : List LlOp}
    (h : run llStep (llStart high_level obj_sz tag zero_memory tag_check thrdsafe mem) ops =
      some r) :
    SetUp obj_sz tag (thrdsafe % 2 = 1) r.st := by
  have hinv : Always llStep (fun r => SetUp obj_sz tag (thrdsafe % 2 = 1) r.st)
      (llStart high_level obj_sz tag zero_memory tag_check thrdsafe mem) ops := by
    refine always_of_step llStep ops
      ⟨rfl, rfl, rfl, fun _ _ => rfl, ?_⟩ fun _ _ _ h hstep => h.step hstep
    unfold LockInv
    split_ifs
    · exact ⟨rfl, guarded_nil⟩
    · simp [llStart]
  exact hinv.last h

/-- With the bit set everything is done, asked for or not. -/
theorem honours_on {s : LlState} (h : SetUp obj_sz tag true s) (hsafe : thrdsafe ≠ 0) :
    Honours zero_memory tag_check thrdsafe s where
  zeroed := by
    intro _ ll_alloc junk inlock_handler obj s' hcall
    obtain ⟨-, -, hobj⟩ := lookasideListAlloc_cases hcall
    have hzero := (hobj obj rfl).2.2 (congrArg LlOnoff.bit h.ll_onoff)
    obtain ⟨o, ho, hobj⟩ := Option.map_eq_some_iff.1 hzero
    refine ⟨o, ho, fun b hb => ?_⟩
    rw [hobj] at hb
    exact List.eq_of_mem_replicate (List.mem_of_mem_take hb)
  tagAlloc := by
    intro _ ll_alloc junk inlock_handler obj s' hcall
    obtain ⟨-, -, hobj⟩ := lookasideListAlloc_cases hcall
    exact (hobj obj rfl).2.1 (congrArg LlOnoff.bit h.ll_onoff)
  tagFree := by
    intro _ obj inlock_handler s' hcall
    exact tagCheck_spec (lookasideListFree_cases hcall).2.2 (congrArg LlOnoff.bit h.ll_onoff)
  tagDestroy := by
    intro _ freed s' hcall a ha
    exact tagCheck_spec ((lookasideListDestroy_cases hcall).2 a ha)
      (congrArg LlOnoff.bit h.ll_onoff)
  locked := by
    intro _
    refine ⟨h.lock.2, fun freed s' hcall => ?_⟩
    obtain ⟨⟨n, hlog⟩, -⟩ := lookasideListDestroy_cases hcall
    have hinv := lockInv_bracket h.lock n
    rw [hlog, h.ll_onoff]
    exact hinv.2
  untouched := fun h0 => absurd h0 hsafe

/-- With the bit clear nothing is done, which is right where nothing was asked for. -/
theorem honours_off {s : LlState} (h : SetUp obj_sz tag false s)
    (hzero : zero_memory = 0 ∨ obj_sz = 0) :
    Honours zero_memory 0 0 s where
  zeroed := by
    intro hne ll_alloc junk inlock_handler obj s' hcall
    obtain ⟨-, hsetup, hobj⟩ := lookasideListAlloc_cases hcall
    obtain ⟨o, ho⟩ := Option.ne_none_iff_exists'.1 ((hobj obj rfl).1 h.linked)
    refine ⟨o, ho, ?_⟩
    rw [hsetup.ll_obj_sz, h.ll_obj_sz, hzero.resolve_left hne, List.take_zero]
    simp
  tagAlloc := fun h0 => absurd rfl h0
  tagFree := fun h0 => absurd rfl h0
  tagDestroy := fun h0 => absurd rfl h0
  locked := fun h0 => absurd rfl h0
  untouched := by
    intro _
    refine ⟨h.lock, fun freed s' hcall => ?_⟩
    obtain ⟨⟨n, hlog⟩, -⟩ := lookasideListDestroy_cases hcall
    have hinv := lockInv_bracket h.lock n
    rw [hlog, h.ll_onoff]
    exact hinv

def FeaturesKept (high_level : ℤ) (obj_sz : ℕ) (tag : UInt32) (zero_memory tag_check thrdsafe : ℤ) :
    Prop :=
  ∀ mem ops r, run llStep
    (llStart high_level obj_sz tag zero_memory tag_check thrdsafe mem) ops = some r →
    Honours zero_memory tag_check thrdsafe r.st

/-- With the bit clear the first call counts without the lock. -/
theorem FeaturesKept.thrdsafe_zero
    (h : FeaturesKept high_level obj_sz tag zero_memory tag_check thrdsafe)
    (hoff : ¬ thrdsafe % 2 = 1) : thrdsafe = 0 := by
  by_contra hsafe
  have hrun : run llStep
    (llStart high_level obj_sz tag zero_memory tag_check thrdsafe fun _ => none)
      [.alloc .fails [] none] = some
        ⟨llCountAlloc none (llStart high_level obj_sz tag zero_memory tag_check thrdsafe
        fun _ => none).st, []⟩ := by
    simp [run, llStep, lookasideListAlloc, llTake, llFromSystem, Malloc.fails, llHandOut,
      LlState.lock, LlState.unlock,
      LlOnoff.ll_thrdsafe, llStart, lookasideListEnable, lookasideListInit, LlOnoff.store,
      Slist.init, hoff, llCountAlloc, LlState.logs]
  obtain ⟨hguarded, -⟩ := (h _ _ _ hrun).locked hsafe
  exact absurd (hguarded [] (List.prefix_refl _)) (by decide)

/-- With the bit clear an object with a wrong tag is freed. -/
theorem FeaturesKept.tag_check_zero
    (h : FeaturesKept high_level obj_sz tag zero_memory tag_check thrdsafe)
    (hoff : ¬ thrdsafe % 2 = 1) : tag_check = 0 := by
  by_contra htag
  obtain ⟨t, ht⟩ : ∃ t : UInt32, t ≠ tag := by
    rcases eq_or_ne tag 0 with rfl | hne
    · exact ⟨1, by decide⟩
    · exact ⟨0, hne.symm⟩
  have hfree : ∃ s', lookasideListFree 16 none
    (llStart high_level obj_sz tag zero_memory tag_check thrdsafe
      fun _ => some ⟨t, []⟩).st = .ok s' := by
    by_cases hhigh : high_level < 0 <;>
      simp [lookasideListFree, LlState.tagCheck, LlOnoff.ll_tag_check, LlState.lock,
        LlOnoff.ll_thrdsafe,
        LlState.handle, llPutBack, llToList, llStart, lookasideListEnable, lookasideListInit,
        LlOnoff.store, Slist.init, hoff, hhigh]
  obtain ⟨s', hfree⟩ := hfree
  have hbad := (h (fun _ => some ⟨t, []⟩) [] _ rfl).tagFree htag 16 none s' hfree
  exact ht (Option.some.inj hbad)

/-- With the bit clear an object from the system is handed out with what is in it. -/
theorem FeaturesKept.zero_memory_zero
    (h : FeaturesKept high_level obj_sz tag zero_memory tag_check thrdsafe)
    (hoff : ¬ thrdsafe % 2 = 1) : zero_memory = 0 ∨ obj_sz = 0 := by
  by_contra hzero
  obtain ⟨hzero, hsz⟩ := not_or.1 hzero
  have htop : Malloc.top.alloc [] (sizeAdd obj_sz llnSize) = some
    (2 ^ 64 - 1 - sizeAdd obj_sz llnSize) :=
    if_pos ⟨rfl, Nat.mod_lt _ (by decide)⟩
  have halloc : ∃ obj s', lookasideListAlloc .top [1] none
    (llStart high_level obj_sz tag zero_memory tag_check
      thrdsafe fun _ => none).st = .ok (some obj, s') ∧ s'.mem (obj - llnSize) = some ⟨tag, [1]⟩ ∧
        s'.list.ll_obj_sz = obj_sz := by
    refine ⟨2 ^ 64 - 1 - sizeAdd obj_sz llnSize + llnSize, ?_⟩
    simp [lookasideListAlloc, llTake, llFromSystem, htop, llHandOut, LlState.lock, LlState.unlock,
      LlState.handle,
      LlState.zero, LlOnoff.ll_zero_memory, LlOnoff.ll_thrdsafe, llStart, lookasideListEnable,
      lookasideListInit, LlOnoff.store, Slist.init, hoff, llCountAlloc, LlState.logs]
  obtain ⟨obj, s', hs', hmem, hobj⟩ := halloc
  obtain ⟨o, ho, hbytes⟩ := (h _ [] _ rfl).zeroed hzero _ _ _ obj s' hs'
  rw [hmem] at ho
  cases ho
  rw [hobj, List.take_of_length_le (Nat.one_le_iff_ne_zero.2 hsz)] at hbytes
  exact absurd (hbytes 1 List.mem_cons_self) (by decide)

/-- Exactly these setups give what they were asked for: those with the lock, and those that ask for
nothing, or for objects without bytes to be zero. -/
theorem features_kept_iff (high_level : ℤ) (obj_sz : ℕ) (tag : UInt32)
    (zero_memory tag_check thrdsafe : ℤ) :
    FeaturesKept high_level obj_sz tag zero_memory tag_check thrdsafe ↔
      thrdsafe % 2 = 1 ∨ thrdsafe = 0 ∧ tag_check = 0 ∧ (zero_memory = 0 ∨ obj_sz = 0) := by
  constructor
  · intro h
    by_cases hon : thrdsafe % 2 = 1
    · exact Or.inl hon
    · exact Or.inr ⟨h.thrdsafe_zero hon, h.tag_check_zero hon, h.zero_memory_zero hon⟩
  · intro h mem ops r hrun
    have hsetup := setUp_run hrun
    rcases h with hon | ⟨rfl, rfl, hzero⟩
    · rw [decide_eq_true hon] at hsetup
      exact honours_on hsetup (by omega)
    · exact honours_off hsetup hzero

/-- Zeroed memory and checked tags without the lock: an object that was written to and freed comes
back as it is. -/
theorem not_features_kept : ¬ FeaturesKept 1 1 7 1 1 0 := by
  intro h
  have hhonours :=
    h (fun _ => none) [.alloc .bump [0] none, .write 4112 fun _ => [1], .free 4112 none] _ rfl
  obtain ⟨o, ho, hbytes⟩ := hhonours.zeroed (by decide) .fails [] none 4112 _ rfl
  cases ho
  exact absurd (hbytes 1 List.mem_cons_self) (by decide)

end Features

end Plume
