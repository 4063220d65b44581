import Plume.CLib.Hands
import Plume.CLib.Lock
import Plume.LookasideCode

/-! Threads that share a lookaside list. Any of them may be stopped at any access to the list while
others go on; the tag check of a free, `memset` and the writes of the client are outside the lock.
-/

namespace Plume
open CLib

section Model

inductive LlCall
  | alloc (ll_alloc : Malloc) (junk : Bytes) (inlock_handler : Option (Bytes → Bytes))
  | free (obj_hdr : ℕ) (inlock_handler : Option (Bytes → Bytes))

namespace LlCall

def code : LlCall → LlProg
  | alloc ll_alloc junk inlock_handler => allocCode ll_alloc junk inlock_handler
  | free obj_hdr inlock_handler => freeCode obj_hdr inlock_handler

def obj : LlCall → Option ℕ
  | alloc _ _ _ => none
  | free obj_hdr _ => some obj_hdr

end LlCall

/-- Where a thread is: in front of the lock, behind it with the rest of the code to do, or at the
`memset` behind that. -/
inductive LlPoint
  | outside
  | waiting (call : LlCall)
  | inside (call : LlCall) (rest : LlProg)
  | zeroing (obj_hdr : ℕ)

namespace LlPoint

def obj : LlPoint → Option ℕ
  | outside => none
  | waiting call => call.obj
  | inside call _ => call.obj
  | zeroing obj_hdr => some obj_hdr

def isInside : LlPoint → Bool
  | inside _ _ => true
  | _ => false

end LlPoint

structure Sharing (ι : Type) where
  st : LlState
  ll_lock : Lock ι
  point : ι → LlPoint
  held : List ℕ

inductive ShareAct (ι : Type)
  | call (t : ι) (call : LlCall)
  | enter (t : ι)
  | step (t : ι)
  | leave (t : ι)
  | zero (t : ι)
  | write (obj_hdr : ℕ) (f : Bytes → Bytes)

variable {ι : Type} [DecidableEq ι]

def Sharing.at (x : Sharing ι) (t : ι) (p : LlPoint) : Sharing ι :=
  { x with point := Function.update x.point t p }

/-- One step of a thread, `none` when it cannot be made, or is one to a fault. The client frees what
it holds, which no other thread is then freeing. -/
def shareStep (x : Sharing ι) : ShareAct ι → Option (Sharing ι)
  | .call t call =>
    match x.point t with
    | .outside =>
      match call.obj with
      | none => some (x.at t (.waiting call))
      | some obj_hdr =>
        if obj_hdr ∈ x.held then
          match x.st.tagCheck obj_hdr with
          | .error _ => none
          | .ok _ => some { x.at t (.waiting call) with held := x.held.erase obj_hdr }
        else none
    | _ => none
  | .enter t =>
    match x.point t with
    | .waiting call =>
      if x.st.list.ll_onoff.ll_thrdsafe then
        if x.ll_lock = .free then some { x.at t (.inside call call.code) with ll_lock := .held t }
          else none
      else some (x.at t (.inside call call.code))
    | _ => none
  | .step t =>
    match x.point t with
    | .inside call (.act f k) =>
      match f x.st with
      | .error _ => none
      | .ok st => some { x.at t (.inside call (k x.st)) with st := st }
    | _ => none
  | .leave t =>
    match x.point t with
    | .inside _ (.ret obj_hdr) =>
      some { x.at t (obj_hdr.elim .outside .zeroing) with
        ll_lock := if x.st.list.ll_onoff.ll_thrdsafe then .free else x.ll_lock }
    | _ => none
  | .zero t =>
    match x.point t with
    | .zeroing obj_hdr =>
      match x.st.zero obj_hdr with
      | .error _ => none
      | .ok st => some { x.at t .outside with st := st, held := obj_hdr :: x.held }
    | _ => none
  | .write obj_hdr f =>
    if obj_hdr ∈ x.held then
      match x.st.write obj_hdr f with
      | .error _ => none
      | .ok st => some { x with st := st }
    else none

def shareStart (ι : Type) (high_level : ℤ) (obj_sz : ℕ) (tag : UInt32)
    (zero_memory tag_check thrdsafe : ℤ)
    (mem : ℕ → Option LlObj) : Sharing ι :=
  ⟨(llStart high_level obj_sz tag zero_memory tag_check thrdsafe mem).st, .free, fun _ => .outside,
    []⟩

end Model

section Inv

variable {ι : Type} {x x' : Sharing ι} {t u : ι} {a : ℕ} {p : LlPoint} {call : LlCall}
  {rest : LlProg} {onoff : LlOnoff}

def Sharing.hands (x : Sharing ι) (t : ι) : Option ℕ := (x.point t).obj

/-- The object is not in the list: a thread or the client has it. -/
def Sharing.Out (x : Sharing ι) (a : ℕ) : Prop := Placed x.hands x.held a

/-- The thread behind the lock has begun where the list was whole; nobody else changes it since. -/
structure ShareInv (onoff : LlOnoff) (x : Sharing ι) : Prop where
  guards : x.ll_lock.Guards fun t => (x.point t).isInside = true
  apartness : Hands x.hands x.held
  tagged : Tagged onoff (fun a => x.Out a ∧ ∀ t call rest, x.point t = .inside call rest →
    call.obj ≠ some a) x.st
  base : ∃ s₀ inhand cached, LlWhole s₀ inhand cached ∧ (∀ a, a ∈ inhand ↔ x.Out a) ∧
    ((∀ t call rest, x.point t ≠ .inside call rest) → SameLists s₀ x.st) ∧
    ∀ t call rest, x.point t = .inside call rest → Prog.Doing SameLists call.code rest s₀ x.st ∧
      rest.Keeps (Tagged onoff fun a => x.Out a ∧ call.obj ≠ some a)

theorem isInside_iff : p.isInside = true ↔ ∃ call rest, p = .inside call rest := by
  cases p <;> simp [LlPoint.isInside]

theorem ShareInv.alone (h : ShareInv onoff x) (ht : x.point t = .inside call rest) {call' : LlCall}
    {rest' : LlProg}
    (hu : x.point u = .inside call' rest') : u = t :=
  h.guards.exclusive (isInside_iff.2 ⟨_, _, hu⟩) (isInside_iff.2 ⟨_, _, ht⟩)

theorem ShareInv.nobody (h : ShareInv onoff x) (hlock : x.ll_lock = .free) :
    x.point t ≠ .inside call rest := by
  intro ht
  have hheld := (h.guards t).1 (isInside_iff.2 ⟨_, _, ht⟩)
  rw [hlock] at hheld
  cases hheld

/-- A step outside the lock, which leaves all objects out that were out. -/
theorem ShareInv.quiet (h : ShareInv onoff x) (hs : SameLists x.st x'.st)
    (hlock : x'.ll_lock = x.ll_lock)
    (hin : ∀ t call rest, x'.point t = .inside call rest ↔ x.point t = .inside call rest)
    (hout : ∀ a, x'.Out a ↔ x.Out a) (hapart : Hands x'.hands x'.held) : ShareInv onoff x' := by
  obtain ⟨s₀, inhand, cached, hwhole, hinhand, hfree, hdoing⟩ := h.base
  refine ⟨?_, hapart, ?_, s₀, inhand, cached, hwhole, fun a => (hinhand a).trans (hout a).symm,
    fun hn => ?_, ?_⟩
  · rw [hlock]
    refine h.guards.same fun t => ?_
    simp only [isInside_iff, hin]
  · refine (h.tagged.same hs).mono fun a ha => ⟨(hout a).1 ha.1,
      fun t call rest ht => ha.2 t call rest ((hin t call rest).2 ht)⟩
  · exact (hfree fun t call rest ht => hn t call rest ((hin t call rest).2 ht)).trans hs
  · intro t call rest ht
    obtain ⟨hd, hk⟩ := hdoing t call rest ((hin t call rest).1 ht)
    refine ⟨hd.other (fun _ _ _ => SameLists.trans) hs, ?_⟩
    simp only [hout]
    exact hk

theorem out_congr (hheld : x'.held = x.held) (hhands : x'.hands = x.hands) (a : ℕ) :
    x'.Out a ↔ x.Out a := by
  unfold Sharing.Out
  rw [hheld, hhands]

variable [DecidableEq ι]

theorem at_self (x : Sharing ι) (t : ι) (p : LlPoint) : (x.at t p).point t = p :=
  Function.update_self ..

theorem at_other (hu : u ≠ t) : (x.at t p).point u = x.point u := Function.update_of_ne hu ..

/-- A thread that is outside before and behind a step makes no difference to who is inside. -/
theorem at_inside (ht : (x.point t).isInside = false) (hp : p.isInside = false) :
    (x.at t p).point u = .inside call rest ↔ x.point u = .inside call rest := by
  rcases eq_or_ne u t with rfl | hu
  · rw [at_self]
    constructor
    · rintro rfl
      cases hp
    · intro h
      rw [h] at ht
      cases ht
  · rw [at_other hu]

theorem hands_at (x : Sharing ι) (t : ι) (p : LlPoint) :
    (x.at t p).hands = Function.update x.hands t p.obj := by
  funext u
  rcases eq_or_ne u t with rfl | hu
  · rw [Sharing.hands, at_self, Function.update_self]
  · rw [Sharing.hands, at_other hu, Function.update_of_ne hu, Sharing.hands]

theorem hands_same (hobj : p.obj = (x.point t).obj) : (x.at t p).hands = x.hands := by
  rw [hands_at, hobj]
  exact Function.update_eq_self t x.hands

end Inv

section Step

variable {ι : Type} [DecidableEq ι] {x x' : Sharing ι} {t : ι} {a : ℕ} {call : LlCall}
  {onoff : LlOnoff}

/-- What each step asks for and what it leaves behind. -/
theorem shareStep_cases {act : ShareAct ι} (h : shareStep x act = some x') :
    match act with
    | .call t call => x.point t = .outside ∧
        (call.obj = none ∧ x' = x.at t (.waiting call) ∨
          ∃ a, call.obj = some a ∧ a ∈ x.held ∧
            x' = { x.at t (.waiting call) with held := x.held.erase a })
    | .enter t => ∃ call, x.point t = .waiting call ∧
        (x.st.list.ll_onoff.ll_thrdsafe = true ∧ x.ll_lock = .free ∧
            x' = { x.at t (.inside call call.code) with ll_lock := .held t } ∨
          x.st.list.ll_onoff.ll_thrdsafe = false ∧ x' = x.at t (.inside call call.code))
    | .step t => ∃ call f k st, x.point t = .inside call (.act f k) ∧ f x.st = .ok st ∧
        x' = { x.at t (.inside call (k x.st)) with st := st }
    | .leave t =>
      ∃ call r, x.point t = .inside call (.ret r) ∧ x' = { x.at t (r.elim .outside .zeroing) with
        ll_lock := if x.st.list.ll_onoff.ll_thrdsafe then .free else x.ll_lock }
    | .zero t => ∃ a st, x.point t = .zeroing a ∧ x.st.zero a = .ok st ∧
        x' = { x.at t .outside with st := st, held := a :: x.held }
    | .write a f => ∃ st, x.st.write a f = .ok st ∧ x' = { x with st := st } := by
  cases act with
  | call t call =>
    simp only [shareStep] at h
    split at h
    next ht =>
      refine ⟨ht, ?_⟩
      split at h
      next hobj => exact .inl ⟨hobj, (Option.some.inj h).symm⟩
      next a hobj =>
        split_ifs at h with ha
        split at h
        · cases h
        · exact .inr ⟨a, hobj, ha, (Option.some.inj h).symm⟩
    next => cases h
  | enter t =>
    simp only [shareStep] at h
    split at h
    next call ht =>
      refine ⟨call, ht, ?_⟩
      split_ifs at h with hsafe hlock
      · exact .inl ⟨hsafe, hlock, (Option.some.inj h).symm⟩
      · exact .inr ⟨Bool.eq_false_of_not_eq_true hsafe, (Option.some.inj h).symm⟩
    next => cases h
  | step t =>
    simp only [shareStep] at h
    split at h
    next call f k ht =>
      split at h
      next => cases h
      next st hf => exact ⟨call, f, k, st, ht, hf, (Option.some.inj h).symm⟩
    next => cases h
  | leave t =>
    simp only [shareStep] at h
    split at h
    next call r ht => exact ⟨call, r, ht, (Option.some.inj h).symm⟩
    next => cases h
  | zero t =>
    simp only [shareStep] at h
    split at h
    next a ht =>
      split at h
      next => cases h
      next st hst => exact ⟨a, st, ht, hst, (Option.some.inj h).symm⟩
    next => cases h
  | write a f =>
    rw [shareStep] at h
    split_ifs at h
    split at h
    next => cases h
    next st hst => exact ⟨st, hst, (Option.some.inj h).symm⟩

/-- A call without other threads: what it hands out is new, and what it frees is not out any
more. -/
theorem LlCall.code_exec {s : LlState} {inhand cached : List ℕ} (h : LlWhole s inhand cached)
    (hobj : ∀ a, call.obj = some a → a ∈ inhand) : ∃ r s₁ inhand' cached', call.code.exec s = .ok
    (r, s₁) ∧
      LlWhole s₁ inhand' cached' ∧
        (∀ b, b ∈ inhand' ↔ r = some b ∨ b ∈ inhand ∧ call.obj ≠ some b) ∧
      ∀ b, r = some b → b ∉ inhand := by
  cases call with
  | alloc ll_alloc junk inlock_handler =>
    obtain ⟨r, s₁, cached', hexec, hwhole⟩ := allocCode_exec h ll_alloc junk inlock_handler
    refine ⟨r, s₁, _, cached', hexec, hwhole, fun b => ?_, fun b hb => ?_⟩
    · rw [List.mem_append, Option.mem_toList]
      simp [LlCall.obj]
    · subst hb
      have hnodup := (List.nodup_append.1 hwhole.inv.nodup).1
      exact (List.nodup_cons.1 hnodup).1
  | free obj_hdr inlock_handler =>
    have hmem : obj_hdr ∈ inhand := hobj obj_hdr rfl
    obtain ⟨s₁, cached', hexec, hwhole⟩ :=
      freeCode_exec (h.perm (List.perm_cons_erase hmem).symm) inlock_handler
    refine ⟨none, s₁, _, cached', hexec, hwhole, fun b => ?_, by simp⟩
    rw [(List.nodup_append.1 h.inv.nodup).1.mem_erase_iff, LlCall.obj]
    simp [and_comm, eq_comm]

theorem LlCall.code_respects (call : LlCall) : call.code.Respects SameLists := by
  cases call with
  | alloc ll_alloc junk inlock_handler => exact allocCode_respects ll_alloc junk inlock_handler
  | free obj_hdr inlock_handler => exact freeCode_respects obj_hdr inlock_handler

theorem LlCall.code_keeps {A : ℕ → Prop} (hA : ∀ a, call.obj = some a → ¬ A a) :
    call.code.Keeps (Tagged onoff A) := by
  cases call with
  | alloc ll_alloc junk inlock_handler => exact allocCode_keeps ll_alloc junk inlock_handler
  | free obj_hdr inlock_handler => exact freeCode_keeps (hA obj_hdr rfl) inlock_handler

namespace ShareInv

theorem enter (h : ShareInv onoff x) (ht : x.point t = .waiting call) (hlock : x.ll_lock = .free) :
    ShareInv onoff { x.at t (.inside call call.code) with ll_lock := .held t } := by
  obtain ⟨s₀, inhand, cached, hwhole, hinhand, hfree, -⟩ := h.base
  set x' : Sharing ι := { x.at t (.inside call call.code) with ll_lock := .held t }
  have hhands : x'.hands = x.hands := hands_same (by rw [ht]; rfl)
  have hout : ∀ a, x'.Out a ↔ x.Out a := out_congr rfl hhands
  have hmine : ∀ a, call.obj = some a → a ∈ inhand := by
    intro a ha
    refine (hinhand a).2 (.inr ⟨t, ?_⟩)
    rw [Sharing.hands, ht]
    exact ha
  refine ⟨?_, hhands.symm ▸ h.apartness, ?_, s₀, inhand, cached, hwhole,
    fun a => (hinhand a).trans (hout a).symm,
    fun hn => absurd (at_self x t _) (hn t _ _), fun u call' rest hu => ?_⟩
  · have hguards := h.guards
    rw [hlock] at hguards
    refine hguards.acquire ?_ fun u hu => ?_
    · rw [at_self]
      rfl
    · rw [at_other hu]
  · exact h.tagged.mono fun a ha => ⟨(hout a).1 ha.1,
      fun u call' rest hu => absurd hu (h.nobody hlock)⟩
  · by_cases hut : u = t
    · subst hut
      rw [at_self] at hu
      cases hu
      obtain ⟨r, s₁, inhand', cached', hexec, -⟩ := LlCall.code_exec hwhole hmine
      exact ⟨.begun call.code_respects (hfree fun _ _ _ => h.nobody hlock) hexec,
        LlCall.code_keeps fun a ha hA => hA.2 ha⟩
    · rw [at_other hut] at hu
      exact absurd hu (h.nobody hlock)

theorem step {f : LlState → Except Fault LlState} {k : LlState → LlProg} {st : LlState}
    (h : ShareInv onoff x)
    (ht : x.point t = .inside call (.act f k)) (hf : f x.st = .ok st) :
    ShareInv onoff { x.at t (.inside call (k x.st)) with st := st } := by
  obtain ⟨s₀, inhand, cached, hwhole, hinhand, -, hdoing⟩ := h.base
  obtain ⟨hd, hk⟩ := hdoing t call _ ht
  obtain ⟨st', hf', hd⟩ := hd.step
  rw [hf] at hf'
  cases hf'
  set x' : Sharing ι := { x.at t (.inside call (k x.st)) with st := st }
  have hhands : x'.hands = x.hands := hands_same (by rw [ht]; rfl)
  have hout : ∀ a, x'.Out a ↔ x.Out a := out_congr rfl hhands
  have htagged : Tagged onoff (fun a => x.Out a ∧ call.obj ≠ some a) x.st := by
    refine h.tagged.mono fun a ha => ⟨ha.1, fun u call' rest hu => ?_⟩
    obtain rfl := h.alone ht hu
    rw [ht] at hu
    cases hu
    exact ha.2
  obtain ⟨hst, hk⟩ := hk x.st htagged
  refine ⟨?_, hhands.symm ▸ h.apartness, ?_, s₀, inhand, cached, hwhole,
    fun a => (hinhand a).trans (hout a).symm,
    fun hn => absurd (at_self x t _) (hn t _ _), fun u call' rest hu => ?_⟩
  · refine h.guards.same fun u => ?_
    by_cases hut : u = t
    · subst hut
      rw [at_self, ht]
      rfl
    · rw [at_other hut]
  · exact (hst st hf).mono fun a ha => ⟨(hout a).1 ha.1, ha.2 t call (k x.st) (at_self x t _)⟩
  · by_cases hut : u = t
    · subst hut
      rw [at_self] at hu
      cases hu
      simp only [hout]
      exact ⟨hd, hk⟩
    · rw [at_other hut] at hu
      exact absurd (h.alone ht hu) hut

theorem elim_obj (r : Option ℕ) : (r.elim LlPoint.outside LlPoint.zeroing).obj = r := by
  cases r <;> rfl

theorem elim_inside (r : Option ℕ) : (r.elim LlPoint.outside LlPoint.zeroing).isInside = false := by
  cases r <;> rfl

/-- The thread behind the lock gives it back: the list is whole again. -/
theorem leave {r : Option ℕ} (h : ShareInv onoff x) (ht : x.point t = .inside call (.ret r)) :
    ShareInv onoff { x.at t (r.elim .outside .zeroing) with ll_lock := .free } := by
  set x' : Sharing ι := { x.at t (r.elim .outside .zeroing) with ll_lock := .free }
  obtain ⟨s₀, inhand, cached, hwhole, hinhand, -, hdoing⟩ := h.base
  obtain ⟨s₁, hexec, hs₁⟩ := (hdoing t call _ ht).1.ended
  have hcall : x.hands t = call.obj := by rw [Sharing.hands, ht]; rfl
  have hmine : ∀ a, call.obj = some a → a ∈ inhand :=
    fun a ha => (hinhand a).2 (.inr ⟨t, hcall.trans ha⟩)
  obtain ⟨r', s₁', inhand', cached', hexec', hwhole', hinhand', hnew⟩ :=
    LlCall.code_exec hwhole hmine
  rw [hexec] at hexec'
  cases hexec'
  have hhands : x'.hands = Function.update x.hands t r := (hands_at x t _).trans (by rw [elim_obj])
  have hnobody : ∀ u call' rest, x'.point u ≠ .inside call' rest := by
    intro u call' rest hu
    by_cases hut : u = t
    · subst hut
      have hin := elim_inside r
      rw [← at_self x u (r.elim .outside .zeroing)] at hin
      change (x'.point u).isInside = false at hin
      rw [hu] at hin
      cases hin
    · rw [show x'.point u = x.point u from at_other hut] at hu
      exact hut (h.alone ht hu)
  have hout : ∀ a, a ∈ inhand' ↔ x'.Out a := by
    intro a
    rw [hinhand', hinhand, ← hcall]
    change _ ↔ Placed x'.hands x.held a
    rw [hhands]
    exact h.apartness.placed_renew.symm
  have hapart : Hands x'.hands x'.held := by
    rw [hhands]
    exact h.apartness.renew fun a ha hout => hnew a ha ((hinhand a).2 hout)
  refine ⟨?_, hapart, ?_, s₁, inhand', cached', hwhole', hout, fun _ => hs₁,
    fun u call' rest hu => absurd hu (hnobody u call' rest)⟩
  · exact Lock.Guards.of_free fun u hu => by
      obtain ⟨call', rest, hu⟩ := isInside_iff.1 hu
      exact hnobody u call' rest hu
  · have howned : ∀ a, x'.Out a → a ∈ s₁.owned :=
      fun a ha => hwhole'.inv.owned.subset (List.mem_append_left _ ((hout a).2 ha))
    refine ⟨h.tagged.onoff, fun a ha => ?_, fun a ha => ?_⟩
    · change a ∈ x.st.owned
      rw [hs₁.owned]
      exact howned a ha.1
    · change (x.st.mem a).map LlObj.lln_tag = some x.st.list.ll_tag
      rw [hs₁.tags, hs₁.list]
      exact hwhole'.inv.tags a (howned a ha.1)

theorem call_alloc (h : ShareInv onoff x) (ht : x.point t = .outside) (hnone : call.obj = none) :
    ShareInv onoff (x.at t (.waiting call)) := by
  have hhands : (x.at t (.waiting call)).hands = x.hands := hands_same (by rw [ht]; exact hnone)
  exact h.quiet (SameLists.refl _) rfl (fun u c rest => at_inside (by rw [ht]; rfl) rfl)
    (out_congr rfl hhands)
    (hhands.symm ▸ h.apartness)

theorem call_free (h : ShareInv onoff x) (ht : x.point t = .outside) (hsome : call.obj = some a)
    (ha : a ∈ x.held) :
    ShareInv onoff { x.at t (.waiting call) with held := x.held.erase a } := by
  set x' : Sharing ι := { x.at t (.waiting call) with held := x.held.erase a }
  have hnone : x.hands t = none := by rw [Sharing.hands, ht]; rfl
  have hhands : x'.hands = Function.update x.hands t (some a) := by
    rw [← hsome]
    exact hands_at x t _
  have hout : ∀ b, x'.Out b ↔ x.Out b := by
    intro b
    change Placed x'.hands (x.held.erase a) b ↔ Placed x.hands x.held b
    rw [hhands]
    exact h.apartness.placed_take ha hnone
  exact h.quiet (SameLists.refl _) rfl (fun u c rest => at_inside (by rw [ht]; rfl) rfl) hout
    (hhands.symm ▸ h.apartness.take ha)

theorem zero {st : LlState} (h : ShareInv onoff x) (ht : x.point t = .zeroing a)
    (hst : x.st.zero a = .ok st) :
    ShareInv onoff { x.at t .outside with st := st, held := a :: x.held } := by
  set x' : Sharing ι := { x.at t .outside with st := st, held := a :: x.held }
  have hobj : x.hands t = some a := by rw [Sharing.hands, ht]; rfl
  have hhands : x'.hands = Function.update x.hands t none := hands_at x t _
  have hout : ∀ b, x'.Out b ↔ x.Out b := by
    intro b
    change Placed x'.hands (a :: x.held) b ↔ Placed x.hands x.held b
    rw [hhands]
    exact placed_give hobj
  exact h.quiet (zero_cases hst).1 rfl (fun u c rest => at_inside (by rw [ht]; rfl) rfl) hout
    (hhands.symm ▸ h.apartness.give hobj)

omit [DecidableEq ι] in
theorem write {st : LlState} {f : Bytes → Bytes} (h : ShareInv onoff x)
    (hst : x.st.write a f = .ok st) :
    ShareInv onoff { x with st := st } :=
  h.quiet (write_cases hst).1 rfl (fun _ _ _ => Iff.rfl) (fun _ => Iff.rfl) h.apartness

end ShareInv

theorem shareStep_inv (hsafe : onoff.ll_thrdsafe = true) (h : ShareInv onoff x) {act : ShareAct ι}
    (hstep : shareStep x act = some x') : ShareInv onoff x' := by
  have hon : x.st.list.ll_onoff.ll_thrdsafe = true := by rw [h.tagged.onoff, hsafe]
  cases act with
  | call t call =>
    obtain ⟨ht, ⟨hobj, rfl⟩ | ⟨a, hobj, ha, rfl⟩⟩ := shareStep_cases hstep
    · exact h.call_alloc ht hobj
    · exact h.call_free ht hobj ha
  | enter t =>
    obtain ⟨call, ht, ⟨-, hlock, rfl⟩ | ⟨hoff, -⟩⟩ := shareStep_cases hstep
    · exact h.enter ht hlock
    · rw [hon] at hoff
      cases hoff
  | step t =>
    obtain ⟨call, f, k, st, ht, hf, rfl⟩ := shareStep_cases hstep
    exact h.step ht hf
  | leave t =>
    obtain ⟨call, r, ht, rfl⟩ := shareStep_cases hstep
    rw [if_pos hon]
    exact h.leave ht
  | zero t =>
    obtain ⟨a, st, ht, hst, rfl⟩ := shareStep_cases hstep
    exact h.zero ht hst
  | write a f =>
    obtain ⟨st, hst, rfl⟩ := shareStep_cases hstep
    exact h.write hst

end Step

section Safe

variable {ι : Type} {x : Sharing ι} {t : ι} {a : ℕ} {onoff : LlOnoff}

/-- No access of a thread or of the client is one to a fault, and no tag is wrong. -/
structure Faultless (x : Sharing ι) : Prop where
  inside : ∀ t call f k, x.point t = .inside call (.act f k) → ∃ st, f x.st = .ok st
  zeroing : ∀ t a, x.point t = .zeroing a → ∃ st, x.st.zero a = .ok st
  held : ∀ a ∈ x.held, x.st.tagCheck a = .ok () ∧ ∀ f, ∃ st, x.st.write a f = .ok st

/-- One thread is at the list at a time, and no object is with two: neither with two threads, nor
with the client twice, nor with a thread and the client. While no thread is at it the list is whole,
all objects are in memory apart from each other, and the counters are right. -/
structure SharedSafe (x : Sharing ι) : Prop where
  exclusive : ∀ t u, (x.point t).isInside = true → (x.point u).isInside = true → t = u
  apart : Hands x.hands x.held
  faultless : Faultless x
  whole : (∀ t, (x.point t).isInside = false) →
    ∃ inhand cached, LlWhole x.st inhand cached ∧ ∀ a, a ∈ inhand ↔ x.Out a

theorem ShareInv.tag (h : ShareInv onoff x) (ha : x.Out a)
    (hfree : ∀ t call rest, x.point t = .inside call rest →
    call.obj ≠ some a) : (x.st.mem a).map LlObj.lln_tag = some x.st.list.ll_tag :=
      h.tagged.tag a ⟨ha, hfree⟩

theorem ShareInv.safe (h : ShareInv onoff x) : SharedSafe x := by
  obtain ⟨s₀, inhand, cached, hwhole, hinhand, hfree, hdoing⟩ := h.base
  refine ⟨fun t u => h.guards.exclusive, h.apartness,
    ⟨fun t call f k ht => ?_, fun t a ht => ?_, fun a ha => ?_⟩, ?_⟩
  · obtain ⟨st, hf, -⟩ := (hdoing t call _ ht).1.step
    exact ⟨st, hf⟩
  · have hobj : x.hands t = some a := by rw [Sharing.hands, ht]; rfl
    refine zero_ok (h.tag (.inr ⟨t, hobj⟩) fun u call rest hu hc => ?_)
    obtain rfl := h.apartness.once t u a hobj (by rw [Sharing.hands, hu]; exact hc)
    rw [ht] at hu
    cases hu
  · have htag := h.tag (.inl ha) fun u call rest hu hc => h.apartness.apart u a
      (by rw [Sharing.hands, hu]; exact hc) ha
    exact ⟨tagCheck_ok htag, fun f => write_ok htag f⟩
  · intro hout
    refine ⟨inhand, cached, hwhole.same (hfree fun t call rest ht => ?_), hinhand⟩
    have hin := hout t
    rw [ht] at hin
    cases hin

theorem shareInv_start [DecidableEq ι] (high_level : ℤ) {obj_sz : ℕ}
    (hsz : obj_sz + llnSize < 2 ^ 64) (tag : UInt32)
    (zero_memory tag_check thrdsafe : ℤ) (mem : ℕ → Option LlObj) :
    ShareInv ⟨decide (thrdsafe % 2 = 1)⟩
      (shareStart ι high_level obj_sz tag zero_memory tag_check thrdsafe mem) := by
  have hout :
      ∀ a, ¬ (shareStart ι high_level obj_sz tag zero_memory tag_check thrdsafe mem).Out a := by
    rintro a (ha | ⟨t, ht⟩)
    · cases ha
    · cases ht
  have hwhole := conserved_start high_level hsz tag zero_memory tag_check thrdsafe mem
  refine ⟨Lock.Guards.of_free fun t ht => (by cases ht),
    ⟨List.nodup_nil, fun t a ht => (by cases ht), fun t u a ht => (by cases ht)⟩,
    ⟨rfl, fun a ha => absurd ha.1 (hout a), fun a ha => absurd ha.1 (hout a)⟩, _, [], [],
    ⟨hwhole.inv, hwhole.count⟩, fun a => ?_,
    fun _ => SameLists.refl _, fun t call rest ht => (by cases ht)⟩
  exact iff_of_false (by simp) (hout a)

end Safe

section Race

variable {ι : Type} [DecidableEq ι] {x : Sharing ι} {t u : ι} {a : ℕ} {call : LlCall}
  {rest : LlProg} {r : Option ℕ}
  {s : LlState}

theorem at_again (x : Sharing ι) (t : ι) (p q : LlPoint) : (x.at t p).at t q = x.at t q := by
  unfold Sharing.at
  rw [Function.update_idem]

theorem at_stay {p : LlPoint} (ht : x.point t = p) : x.at t p = x := by
  unfold Sharing.at
  rw [← ht, Function.update_eq_self]

/-- A thread that is not interrupted gets to the end of its code. -/
theorem reaches_alone (ht : x.point t = .inside call rest) (h : rest.exec x.st = .ok (r, s)) :
    Reaches shareStep x { x.at t (.inside call (.ret r)) with st := s } := by
  induction rest generalizing x with
  | ret b =>
    cases h
    rw [at_stay ht]
    exact .refl x
  | act f k ih =>
    obtain ⟨st, hf, h⟩ := bind_eq_ok.1 h
    have hstep : shareStep x (.step t) = some { x.at t (.inside call (k x.st)) with st := st } := by
      simp only [shareStep, ht, hf]
    have hrest := ih x.st (x := { x.at t (.inside call (k x.st)) with st := st }) (at_self x t _) h
    refine (Reaches.refl x |>.next hstep).trans ?_
    simpa only [Sharing.at, Function.update_idem] using hrest

theorem tagCheck_off (hoff : s.list.ll_onoff.bit = false) (a : ℕ) : s.tagCheck a = .ok () := by
  unfold LlState.tagCheck
  exact if_neg (by rw [show s.list.ll_onoff.ll_tag_check = false from hoff]; simp)

section Unlocked

variable (hoff : x.st.list.ll_onoff.bit = false)
include hoff

theorem enter_unlocked (ht : x.point t = .waiting call) :
    shareStep x (.enter t) = some (x.at t (.inside call call.code)) := by
  have hsafe : x.st.list.ll_onoff.ll_thrdsafe = false := hoff
  simp only [shareStep, ht, hsafe, Bool.false_eq_true, if_false]

theorem leave_unlocked (ht : x.point t = .inside call (.ret (some a))) :
    shareStep x (.leave t) = some (x.at t (.zeroing a)) := by
  have hsafe : x.st.list.ll_onoff.ll_thrdsafe = false := hoff
  simp only [shareStep, ht, hsafe, Bool.false_eq_true, if_false]
  rfl

theorem zero_unlocked (ht : x.point t = .zeroing a) :
    shareStep x (.zero t) = some { x.at t .outside with held := a :: x.held } := by
  have hzero : x.st.zero a = .ok x.st := by
    unfold LlState.zero
    exact if_neg (by rw [show x.st.list.ll_onoff.ll_zero_memory = false from hoff]; simp)
  simp only [shareStep, ht, hzero]
  rfl

/-- An allocation that is not interrupted, up to the object that it returns. -/
theorem alloc_handed {ll_alloc : Malloc} {junk : Bytes} (ht : x.point t = .outside)
    (h : (allocCode ll_alloc junk none).exec x.st = .ok (some a, s))
    (hs : s.list.ll_onoff = x.st.list.ll_onoff) :
    Reaches shareStep x { x.at t (.zeroing a) with st := s } := by
  set call : LlCall := .alloc ll_alloc junk none
  have hcall : shareStep x (.call t call) = some (x.at t (.waiting call)) := by
    simp only [shareStep, ht, call, LlCall.obj]
  have henter : shareStep (x.at t (.waiting call)) (.enter t) = some
    (x.at t (.inside call call.code)) := by
    rw [enter_unlocked (by exact hoff) (at_self x t _), at_again]
  have halone := reaches_alone (x := x.at t (.inside call call.code)) (at_self x t _) h
  rw [at_again] at halone
  have hleave := leave_unlocked (x := { x.at t (.inside call (.ret (some a))) with st := s })
    (by rw [hs]; exact hoff)
    (at_self x t _)
  have hall := (((Reaches.refl x).next hcall |>.next henter).trans halone).next hleave
  simpa only [Sharing.at, Function.update_idem] using hall

theorem alloc_unlocked {ll_alloc : Malloc} {junk : Bytes} (ht : x.point t = .outside)
    (h : (allocCode ll_alloc junk none).exec x.st = .ok (some a, s))
    (hs : s.list.ll_onoff = x.st.list.ll_onoff) :
    Reaches shareStep x { x with st := s, held := a :: x.held } := by
  have hzero := zero_unlocked (x := { x.at t (.zeroing a) with st := s }) (by rw [hs]; exact hoff)
    (at_self x t _)
  have hall := (alloc_handed hoff ht h hs).next hzero
  simpa only [Sharing.at, Function.update_idem, ← ht, Function.update_eq_self] using hall

theorem free_unlocked (ht : x.point t = .outside) (ha : a ∈ x.held)
    (h : (freeCode a none).exec x.st = .ok (none, s))
    (hs : s.list.ll_onoff = x.st.list.ll_onoff) : Reaches shareStep x
    { x with st := s, held := x.held.erase a } := by
  set call : LlCall := .free a none
  set x₁ : Sharing ι := { x.at t (.waiting call) with held := x.held.erase a }
  have hcheck := tagCheck_off hoff a
  have hcall : shareStep x (.call t call) = some x₁ := by
    simp only [shareStep, ht, call, LlCall.obj, hcheck, if_pos ha]
    rfl
  have henter : shareStep x₁ (.enter t) = some (x₁.at t (.inside call call.code)) :=
    enter_unlocked (by exact hoff) (at_self x t _)
  have halone := reaches_alone (x := x₁.at t (.inside call call.code)) (at_self x₁ t _) h
  rw [at_again] at halone
  have hsafe : s.list.ll_onoff.ll_thrdsafe = false := by
    rw [hs]
    exact hoff
  have hleave : shareStep { x₁.at t (.inside call (.ret none)) with st := s } (.leave t) =
      some { x₁.at t .outside with st := s } := by
    simp only [shareStep, at_self, hsafe]
    simp only [Sharing.at, Function.update_idem]
    rfl
  have hall := ((((Reaches.refl x).next hcall).next henter).trans halone).next hleave
  simpa only [x₁, Sharing.at, Function.update_idem, ← ht, Function.update_eq_self] using hall

end Unlocked

section Exec

variable {ll_alloc : Malloc}

theorem allocCode_first (junk : Bytes) (hlen : s.list.ll_list.len = 0)
    (halloc : ll_alloc.alloc (s.owned.map s.region) (sizeAdd s.list.ll_obj_sz llnSize) = some a) :
    ∃ s₁, (allocCode ll_alloc junk none).exec s = .ok (some a, s₁) ∧
      s₁.list.ll_list = s.list.ll_list ∧
      s₁.list.ll_onoff = s.list.ll_onoff ∧ s₁.list.ll_high_level = s.list.ll_high_level ∧
        ∃ o, s₁.mem a = some o := by
  have hsystem : llFromSystem ll_alloc junk s = (some a, { s with
      mem := Function.update s.mem a (some ⟨s.list.ll_tag, junk⟩), owned := a :: s.owned }) := by
    unfold llFromSystem
    rw [halloc]
  unfold allocCode takeCode
  rw [Prog.exec_read, hlen, if_neg (lt_irrefl 0)]
  change ∃ s₁, (handOutCode none (llFromSystem ll_alloc junk s).1).exec
    (llFromSystem ll_alloc junk s).2 = _ ∧ _
  rw [hsystem]
  exact ⟨_, rfl, rfl, rfl, rfl, _, Function.update_self ..⟩

theorem freeCode_first {o : LlObj} (hlist : s.list.ll_list = ⟨none, 0⟩) (ho : s.mem a = some o)
    (hhigh : 0 ≤ s.list.ll_high_level) :
    ∃ s₁, (freeCode a none).exec s = .ok (none, s₁) ∧ s₁.list.ll_list = ⟨some a, 1⟩ ∧
      s₁.list.ll_onoff = s.list.ll_onoff ∧ s₁.lln_node a = some none := by
  have hput : ¬ s.list.ll_high_level < (s.list.ll_list.len : ℤ) := by
    rw [hlist]
    exact not_lt.2 hhigh
  have hhandle : s.handle a none = .ok s := rfl
  rw [freeCode, handleCode_exec hhandle, putBackCode, Prog.exec_read, if_neg hput,
    addFrontCode_exec ho, countCode_exec]
  refine ⟨_, rfl, ?_, rfl, ?_⟩
  · change (s.list.ll_list.addFront a s.lln_node).1 = _
    rw [hlist]
    rfl
  · change (s.list.ll_list.addFront a s.lln_node).2 a = _
    rw [hlist]
    exact Function.update_self ..

/-- An object is taken off, where the list may have been emptied since it was read. -/
theorem takenCode_first (hoff : s.list.ll_onoff.bit = false) {l : Slist ℕ}
    (hdel : s.list.ll_list.delFront s.lln_node = .ok l) : ∃ s₁,
      (takenCode a (handOutCode none (some a))).exec s = .ok (some a, s₁) ∧ s₁.list.ll_list = l ∧
        s₁.list.ll_onoff = s.list.ll_onoff := by
  refine ⟨_, (takenCode_exec hdel (tagCheck_off hoff a) _).trans rfl, rfl, rfl⟩

theorem allocCode_listed (hlist : s.list.ll_list = ⟨some a, 1⟩) (ll_alloc : Malloc) (junk : Bytes) :
    (allocCode ll_alloc junk none).exec s = (takenCode a (handOutCode none (some a))).exec s := by
  unfold allocCode takeCode
  rw [Prog.exec_read, hlist, if_pos Nat.one_pos, Prog.exec_read, hlist]
  rfl

end Exec

/-- Two steps into an allocation the front of the list has been read. -/
theorem reaches_read {ll_alloc : Malloc} {junk : Bytes} (hlist : x.st.list.ll_list = ⟨some a, 1⟩)
    (ht : x.point t = .inside call (allocCode ll_alloc junk none)) :
    Reaches shareStep x (x.at t (.inside call (takenCode a (handOutCode none (some a))))) := by
  set front : LlProg := .read (fun s => s.list.ll_list.head) (frontCode (handOutCode none))
  have hlen : shareStep x (.step t) = some (x.at t (.inside call front)) := by
    simp only [shareStep, ht, allocCode, takeCode, Prog.read, hlist, if_pos Nat.one_pos]
    rfl
  have hfront : shareStep (x.at t (.inside call front)) (.step t) =
      some (x.at t (.inside call (frontCode (handOutCode none) x.st.list.ll_list.head))) := by
    simp only [shareStep, at_self, front, Prog.read, at_again]
    rw [← at_again x t (.inside call front)]
    rfl
  rw [hlist] at hfront
  exact ((Reaches.refl x).next hlen).next hfront

/-- A thread is stopped where it has read the front of the list, and another one is given that
object. -/
theorem reaches_twice (high_level : ℤ) (hhigh : 0 ≤ high_level) (obj_sz : ℕ) (tag : UInt32)
    (zero_memory tag_check thrdsafe : ℤ) (hoff : ¬ thrdsafe % 2 = 1) (mem : ℕ → Option LlObj)
    (htu : t ≠ u) :
    ∃ x a, Reaches shareStep
      (shareStart ι high_level obj_sz tag zero_memory tag_check thrdsafe mem) x ∧
      x.point t = .zeroing a ∧ x.point u = .zeroing a := by
  set x₀ := shareStart ι high_level obj_sz tag zero_memory tag_check thrdsafe mem
  have hoff₀ : x₀.st.list.ll_onoff.bit = false := decide_eq_false hoff
  obtain ⟨a, halloc⟩ : ∃ a, Malloc.top.alloc (x₀.st.owned.map x₀.st.region)
    (sizeAdd x₀.st.list.ll_obj_sz llnSize) = some a :=
    ⟨_, if_pos ⟨rfl, Nat.mod_lt _ (by decide)⟩⟩
  -- the list comes to hold an object
  obtain ⟨s₁, h₁, hlist₁, honoff₁, hhigh₁, o, ho⟩ := allocCode_first [] rfl halloc
  have hreach₁ := alloc_unlocked (t := t) hoff₀ rfl h₁ honoff₁
  obtain ⟨s₂, h₂, hlist₂, honoff₂, hnext⟩ := freeCode_first (hlist₁.trans rfl) ho (hhigh₁ ▸ hhigh)
  have hreach₂ := free_unlocked (x := { x₀ with st := s₁, held := [a] }) (t := t)
    (honoff₁ ▸ hoff₀) rfl List.mem_cons_self h₂ honoff₂
  rw [List.erase_cons_head] at hreach₂
  have hoff₂ : s₂.list.ll_onoff.bit = false := by
    rw [honoff₂, honoff₁]
    exact hoff₀
  set x₂ : Sharing ι := { x₀ with st := s₂, held := [] }
  set call : LlCall := .alloc .fails [] none
  set x₃ : Sharing ι := x₂.at t (.inside call (takenCode a (handOutCode none (some a))))
  have hreach₃ : Reaches shareStep x₂ x₃ := by
    have hcall : shareStep x₂ (.call t call) = some (x₂.at t (.waiting call)) := rfl
    have henter := enter_unlocked (x := x₂.at t (.waiting call)) (by exact hoff₂) (at_self x₂ t _)
    have hread :=
      reaches_read (x := x₂.at t (.inside call call.code)) (by exact hlist₂) (at_self x₂ t _)
    rw [at_again] at henter hread
    exact (((Reaches.refl x₂).next hcall).next henter).trans hread
  -- the other thread takes it
  have hdel : s₂.list.ll_list.delFront s₂.lln_node = .ok ⟨none, 0⟩ := by
    rw [hlist₂, Slist.delFront, if_neg Nat.one_ne_zero, Option.bind_some, hnext]
    rfl
  obtain ⟨s₃, h₃, hlist₃, honoff₃⟩ := takenCode_first (a := a) hoff₂ hdel
  have hreach₄ := alloc_handed (x := x₃) (t := u) (by exact hoff₂) ((at_other htu.symm).trans rfl)
    ((allocCode_listed hlist₂ .fails []).trans h₃) honoff₃
  have hoff₃ : s₃.list.ll_onoff.bit = false := by
    rw [honoff₃]
    exact hoff₂
  -- and the first one goes on with what it has read
  have hempty : s₃.list.ll_list.delFront s₃.lln_node = .ok ⟨none, 0⟩ := by
    rw [hlist₃]
    rfl
  obtain ⟨s₄, h₄, -, honoff₄⟩ := takenCode_first (a := a) hoff₃ hempty
  set x₄ : Sharing ι := { x₃.at u (.zeroing a) with st := s₃ }
  have hreach₅ := reaches_alone (x := x₄) ((at_other htu).trans (at_self x₂ t _)) h₄
  have hleave := leave_unlocked (x := { x₄.at t (.inside call (.ret (some a))) with st := s₄ })
    (by rw [honoff₄]; exact hoff₃) (at_self x₄ t _)
  refine ⟨_, a, (((((hreach₁.trans hreach₂).trans hreach₃).trans hreach₄).trans hreach₅).next
    hleave), at_self _ t _, ?_⟩
  exact (at_other htu.symm).trans ((at_other htu.symm).trans (at_self x₃ u _))

end Race

section Unkept

variable {ι : Type} [DecidableEq ι] {x x' : Sharing ι} {t : ι} {a : ℕ} {call : LlCall} {p : LlProg}
  {o : Option ℕ}
  {s s' : LlState}

structure Unkept (s : LlState) : Prop where
  empty : s.list.ll_list.len = 0
  high : s.list.ll_high_level < 0
  size : s.list.ll_obj_sz + llnSize < 2 ^ 64

theorem Unkept.same (h : Unkept s) (hs : SameLists s s') : Unkept s' :=
  ⟨hs.list ▸ h.empty, hs.list ▸ h.high, hs.list ▸ h.size⟩

theorem Unkept.fromSystem (h : Unkept s) (ll_alloc : Malloc) (junk : Bytes) :
    Unkept (llFromSystem ll_alloc junk s).2 ∧
    ((llFromSystem ll_alloc junk s).1 = none ∧ (llFromSystem ll_alloc junk s).2.owned = s.owned ∨
      ∃ a, (llFromSystem ll_alloc junk s).1 = some a ∧ a ∉ s.owned ∧
        (llFromSystem ll_alloc junk s).2.owned = a :: s.owned) := by
  unfold llFromSystem
  cases halloc : ll_alloc.alloc (s.owned.map s.region) (sizeAdd s.list.ll_obj_sz llnSize) with
  | none => exact ⟨h, .inl ⟨rfl, rfl⟩⟩
  | some a =>
    refine ⟨⟨h.empty, h.high, h.size⟩, .inr ⟨a, rfl, fun ha => ?_, rfl⟩⟩
    have hpos : 0 < sizeAdd s.list.ll_obj_sz llnSize := by
      rw [sizeAdd_eq h.size]
      exact Nat.succ_pos _
    have hapart := (ll_alloc.fresh _ _ _ halloc).2 (s.region a) (List.mem_map_of_mem ha)
    exact hapart.addr_ne hpos hpos rfl

theorem countCode_carries (get : LlMisc → ℤ) (set : LlMisc → ℤ → LlMisc)
    (hp : p.Carries Unkept LlState.owned o) :
    (countCode get set p).Carries Unkept LlState.owned o :=
  Prog.carries_read fun _ _ => Prog.carries_write (fun _ h => ⟨⟨h.empty, h.high, h.size⟩, rfl⟩) hp

theorem handleCode_carries {obj_hdr : ℕ} {inlock_handler : Option (Bytes → Bytes)}
    (hp : p.Carries Unkept LlState.owned o) :
    (handleCode obj_hdr inlock_handler p).Carries Unkept LlState.owned o :=
  Prog.carries_act (fun _ _ h hs => ⟨h.same (handle_cases hs).1, (handle_cases hs).1.owned⟩) hp

theorem handOutCode_carries (inlock_handler : Option (Bytes → Bytes)) (o : Option ℕ) :
    (handOutCode inlock_handler o).Carries Unkept LlState.owned o := by
  refine countCode_carries _ _ ?_
  cases o with
  | none => exact countCode_carries _ _ rfl
  | some a => exact handleCode_carries rfl

/-- An allocation comes with empty hands and leaves with a new object, if with any. -/
theorem allocCode_carries (ll_alloc : Malloc) (junk : Bytes)
    (inlock_handler : Option (Bytes → Bytes)) :
    (allocCode ll_alloc junk inlock_handler).Carries Unkept LlState.owned none := by
  have hout := handOutCode_carries inlock_handler
  unfold allocCode takeCode
  refine Prog.carries_read fun s hs => ?_
  rw [hs.empty, if_neg (lt_irrefl 0)]
  intro s s' hs hok
  cases hok
  obtain ⟨hs', ⟨hnone, howned⟩ | ⟨a, hsome, hnew, howned⟩⟩ := hs.fromSystem ll_alloc junk
  · exact ⟨hs', .inl ⟨howned, hnone.symm ▸ hout none⟩⟩
  · exact ⟨hs', .inr (.inl ⟨rfl, a, hnew, howned, hsome.symm ▸ hout (some a)⟩)⟩

theorem freeCode_carries (obj_hdr : ℕ) (inlock_handler : Option (Bytes → Bytes)) :
    (freeCode obj_hdr inlock_handler).Carries Unkept LlState.owned (some obj_hdr) := by
  unfold freeCode putBackCode
  refine handleCode_carries (Prog.carries_read fun s hs => ?_)
  have hhigh : s.list.ll_high_level < (s.list.ll_list.len : ℤ) := by
    rw [hs.empty]
    exact hs.high
  rw [if_pos hhigh]
  intro s s' hs hok
  cases hok
  exact ⟨⟨hs.empty, hs.high, hs.size⟩, .inr (.inr ⟨obj_hdr, rfl, rfl, countCode_carries _ _ rfl⟩)⟩

theorem LlCall.code_carries (call : LlCall) : call.code.Carries Unkept LlState.owned call.obj := by
  cases call with
  | alloc ll_alloc junk inlock_handler => exact allocCode_carries ll_alloc junk inlock_handler
  | free obj_hdr inlock_handler => exact freeCode_carries obj_hdr inlock_handler

def LlPoint.Has : LlPoint → Option ℕ → Prop
  | inside _ rest, o => rest.Carries Unkept LlState.owned o
  | p, o => p.obj = o

/-- What every step keeps, with the lock or without it: no object is in two hands. -/
structure UnkeptInv (hand : ι → Option ℕ) (x : Sharing ι) : Prop where
  unkept : Unkept x.st
  has : ∀ t, (x.point t).Has (hand t)
  hands : Hands hand x.held
  owned : ∀ a, Placed hand x.held a → a ∈ x.st.owned

variable {hand : ι → Option ℕ}

theorem has_at {q : LlPoint} (h : ∀ u, (x.point u).Has (hand u)) (hq : q.Has o) (u : ι) :
    ((x.at t q).point u).Has (Function.update hand t o u) := by
  rcases eq_or_ne u t with rfl | hu
  · rwa [at_self, Function.update_self]
  · rw [at_other hu, Function.update_of_ne hu]
    exact h u

namespace UnkeptInv

theorem goes {q : LlPoint} {st : LlState} {l : Lock ι} (h : UnkeptInv hand x) (hst : Unkept st)
    (howned : st.owned = x.st.owned) (hq : q.Has (hand t)) :
    UnkeptInv hand { x.at t q with st := st, ll_lock := l } := by
  refine ⟨hst, fun u => ?_, h.hands, fun a ha => howned.symm ▸ h.owned a ha⟩
  have hu := has_at (t := t) h.has hq u
  rwa [Function.update_eq_self t hand] at hu

theorem step {f : LlState → Except Fault LlState} {k : LlState → LlProg} {st : LlState}
    (h : UnkeptInv hand x)
    (ht : x.point t = .inside call (.act f k)) (hf : f x.st = .ok st) :
    ∃ hand, UnkeptInv hand { x.at t (.inside call (k x.st)) with st := st } := by
  have hhas : (Prog.act f k).Carries Unkept LlState.owned (hand t) := by
    have hhas := h.has t
    rwa [ht] at hhas
  obtain ⟨hst, ⟨howned, hk⟩ | ⟨hnone, a, hnew, howned, hk⟩ | ⟨a, ha, howned, hk⟩⟩ :=
    hhas x.st st h.unkept hf
  · exact ⟨hand, h.goes hst howned hk⟩
  · refine ⟨Function.update hand t (some a), hst, has_at h.has hk,
      h.hands.renew fun b hb hplaced => ?_, fun b hb => ?_⟩
    · cases hb
      exact hnew (h.owned a hplaced)
    · change b ∈ st.owned
      rw [howned]
      obtain hab | ⟨hplaced, -⟩ := h.hands.placed_renew.1 hb
      · cases hab
        exact List.mem_cons_self
      · exact List.mem_cons_of_mem a (h.owned b hplaced)
  · refine ⟨Function.update hand t none, hst, has_at h.has hk, h.hands.renew nofun, fun b hb => ?_⟩
    change b ∈ st.owned
    rw [howned]
    obtain hab | ⟨hplaced, hne⟩ := h.hands.placed_renew.1 hb
    · cases hab
    · refine (List.mem_erase_of_ne ?_).2 (h.owned b hplaced)
      rintro rfl
      exact hne ha

theorem leave {r : Option ℕ} {l : Lock ι} (h : UnkeptInv hand x)
    (ht : x.point t = .inside call (.ret r)) :
    UnkeptInv hand { x.at t (r.elim .outside .zeroing) with ll_lock := l } := by
  have hr : r = hand t := by
    have hhas := h.has t
    rwa [ht] at hhas
  refine h.goes h.unkept rfl ?_
  rw [← hr]
  cases r <;> rfl

theorem call_free (h : UnkeptInv hand x) (ht : x.point t = .outside) (hobj : call.obj = some a)
    (ha : a ∈ x.held) :
    UnkeptInv
      (Function.update hand t (some a)) { x.at t (.waiting call) with held := x.held.erase a } := by
  have hnone : hand t = none := by
    have hhas := h.has t
    rw [ht] at hhas
    exact hhas.symm
  exact ⟨h.unkept, has_at h.has hobj, h.hands.take ha,
    fun b hb => h.owned b ((h.hands.placed_take ha hnone).1 hb)⟩

theorem zero {st : LlState} (h : UnkeptInv hand x) (ht : x.point t = .zeroing a)
    (hst : x.st.zero a = .ok st) :
    ∃ hand, UnkeptInv hand { x.at t .outside with st := st, held := a :: x.held } := by
  have ha : hand t = some a := by
    have hhas := h.has t
    rw [ht] at hhas
    exact hhas.symm
  have hsame := (zero_cases hst).1
  refine ⟨Function.update hand t none, h.unkept.same hsame, has_at h.has rfl, h.hands.give ha,
    fun b hb => ?_⟩
  change b ∈ st.owned
  rw [hsame.owned]
  exact h.owned b ((placed_give ha).1 hb)

end UnkeptInv

theorem shareStep_unkept (h : UnkeptInv hand x) {act : ShareAct ι}
    (hstep : shareStep x act = some x') :
    ∃ hand, UnkeptInv hand x' := by
  have hhas : ∀ {t : ι} {q : LlPoint}, x.point t = q → q.Has (hand t) := fun ht => ht ▸ h.has _
  cases act with
  | call t call =>
    obtain ⟨ht, ⟨hobj, rfl⟩ | ⟨a, hobj, ha, rfl⟩⟩ := shareStep_cases hstep
    · have hnone : none = hand t := hhas ht
      exact ⟨hand, h.goes h.unkept rfl (hobj.trans hnone)⟩
    · exact ⟨_, h.call_free ht hobj ha⟩
  | enter t =>
    obtain ⟨call, ht, hent⟩ := shareStep_cases hstep
    have hobj : call.obj = hand t := hhas ht
    have hcode : (LlPoint.inside call call.code).Has (hand t) := hobj ▸ call.code_carries
    obtain ⟨-, -, rfl⟩ | ⟨-, rfl⟩ := hent
    · exact ⟨hand, h.goes h.unkept rfl hcode⟩
    · exact ⟨hand, h.goes h.unkept rfl hcode⟩
  | step t =>
    obtain ⟨call, f, k, st, ht, hf, rfl⟩ := shareStep_cases hstep
    exact h.step ht hf
  | leave t =>
    obtain ⟨call, r, ht, rfl⟩ := shareStep_cases hstep
    exact ⟨hand, h.leave ht⟩
  | zero t =>
    obtain ⟨a, st, ht, hst, rfl⟩ := shareStep_cases hstep
    exact h.zero ht hst
  | write a f =>
    obtain ⟨st, hst, rfl⟩ := shareStep_cases hstep
    have hsame := (write_cases hst).1
    exact ⟨hand, h.unkept.same hsame, h.has, h.hands, fun b hb => hsame.owned.symm ▸ h.owned b hb⟩

omit [DecidableEq ι] in
theorem unkeptInv_start {high_level : ℤ} (hhigh : high_level < 0) {obj_sz : ℕ}
    (hsz : obj_sz + llnSize < 2 ^ 64) (tag : UInt32)
    (zero_memory tag_check thrdsafe : ℤ) (mem : ℕ → Option LlObj) :
    UnkeptInv (fun _ => none)
      (shareStart ι high_level obj_sz tag zero_memory tag_check thrdsafe mem) := by
  refine ⟨⟨rfl, hhigh, hsz⟩, fun _ => rfl, ⟨List.nodup_nil, nofun, nofun⟩, ?_⟩
  rintro a (ha | ⟨t, ht⟩)
  · cases ha
  · cases ht

end Unkept

section Shared

variable {ι : Type} [DecidableEq ι]

/-- For any number of threads that allocate and free, stopped anywhere in between: with `thrdsafe`
whatever they do is safe, and two of them can be given the same object if and only if the list was
set up without it and keeps objects at all. -/
theorem lookaside_shared_iff (t u : ι) (htu : t ≠ u) (high_level : ℤ) (obj_sz : ℕ)
    (hsz : obj_sz + llnSize < 2 ^ 64)
    (tag : UInt32) (zero_memory tag_check thrdsafe : ℤ) (mem : ℕ → Option LlObj) :
    (thrdsafe % 2 = 1 → ∀ acts x,
      run shareStep (shareStart ι high_level obj_sz tag zero_memory tag_check thrdsafe mem) acts =
        some x → SharedSafe x) ∧
    ((∃ acts x a, run shareStep
      (shareStart ι high_level obj_sz tag zero_memory tag_check thrdsafe mem) acts = some x ∧
      x.point t = .zeroing a ∧ x.point u = .zeroing a) ↔ ¬ thrdsafe % 2 = 1 ∧ 0 ≤ high_level) := by
  have hsafe : thrdsafe % 2 = 1 → ∀ acts x,
      run shareStep (shareStart ι high_level obj_sz tag zero_memory tag_check thrdsafe mem) acts =
        some x → SharedSafe x := by
    intro hon acts x hrun
    have hinv := always_of_step shareStep acts
      (shareInv_start (ι := ι) high_level hsz tag zero_memory tag_check thrdsafe mem)
      fun x act x' h hstep => shareStep_inv (decide_eq_true hon) h hstep
    exact (hinv.last hrun).safe
  refine ⟨hsafe, ?_, ?_⟩
  · rintro ⟨acts, x, a, hrun, ht, hu⟩
    constructor
    · intro hon
      refine htu ((hsafe hon acts x hrun).apart.once t u a ?_ ?_)
      · rw [Sharing.hands, ht]
        rfl
      · rw [Sharing.hands, hu]
        rfl
    · by_contra hhigh
      have h0 :=
        unkeptInv_start (ι := ι) (not_le.1 hhigh) hsz tag zero_memory tag_check thrdsafe mem
      have hall : Always shareStep (fun x => ∃ hand, UnkeptInv hand x) _ acts :=
        always_of_step shareStep acts ⟨_,
          h0⟩ fun _ _ _ h hs => h.elim fun _ h => shareStep_unkept h hs
      obtain ⟨hand, h⟩ := hall.last hrun
      have hthas := h.has t
      have huhas := h.has u
      rw [ht] at hthas
      rw [hu] at huhas
      exact htu (h.hands.once t u a hthas.symm huhas.symm)
  · rintro ⟨hoff, hhigh⟩
    obtain ⟨x, a, ⟨acts, hrun⟩, ht, hu⟩ :=
      reaches_twice high_level hhigh obj_sz tag zero_memory tag_check thrdsafe hoff mem htu
    exact ⟨acts, x, a, hrun, ht, hu⟩

theorem lookaside_shared_iff_two :
    (∀ acts x, run shareStep (shareStart Bool 4 32 7 1 1 1 fun _ => none) acts = some x →
      SharedSafe x) ∧
    ∃ acts x a, run shareStep (shareStart Bool 4 32 7 1 1 0 fun _ => none) acts = some x ∧
      x.point false = .zeroing a ∧ x.point true = .zeroing a :=
  ⟨(lookaside_shared_iff false true (by decide) 4 32 (by decide) 7 1 1 1 fun _ =>
    none).1 (by decide),
    (lookaside_shared_iff false true (by decide) 4 32 (by decide) 7 1 1 0 fun _ => none).2.2
    (by decide)⟩

end Shared

end Plume
