import Plume.Slots

/-! Which thread `plm_threads_set_cpu_affinity` sets the affinity of: `tm_thread_id` is filled
in the order in which the threads are made, and read with the number a thread got by the order
in which it passed the start event. -/

namespace Plume
open CLib

section Mask

theorem mem_cpuSetLoop {fuel mask : ℕ} (h : mask < 2 ^ fuel) (i k : ℕ) :
    k ∈ cpuSetLoop fuel i mask ↔ i ≤ k ∧ mask.testBit (k - i) = true := by
  induction fuel generalizing mask i with
  | zero =>
    obtain rfl : mask = 0 := by omega
    simp [cpuSetLoop]
  | succ fuel ih =>
    have hhalf : mask / 2 < 2 ^ fuel := by omega
    have hrest : i < k → (mask.testBit (k - i) = (mask / 2).testBit (k - (i + 1))) := by
      intro hlt
      rw [show k - i = k - (i + 1) + 1 by omega, Nat.testBit_succ]
    have hnot : ¬ i < k → i ≤ k → k = i := by omega
    rw [cpuSetLoop]
    split_ifs with h0 hodd
    · simp [h0]
    · rw [List.mem_cons, ih hhalf]
      rcases lt_trichotomy i k with hlt | rfl | hgt
      · rw [hrest hlt]
        simp [hlt.ne', hlt.le, Nat.succ_le_of_lt hlt]
      · simp [Nat.testBit_zero, hodd]
      · simp [hgt.ne, show ¬ i + 1 ≤ k by omega, show ¬ i ≤ k by omega]
    · rw [ih hhalf]
      rcases lt_trichotomy i k with hlt | rfl | hgt
      · rw [hrest hlt]
        simp [hlt.le, Nat.succ_le_of_lt hlt]
      · simp [Nat.testBit_zero, hodd]
      · simp [show ¬ i + 1 ≤ k by omega, show ¬ i ≤ k by omega]

/-- The set holds the positions of the bits that are set. -/
theorem mem_cpuSet (mask : UInt64) (k : ℕ) : k ∈ cpuSet mask ↔ mask.toNat.testBit k = true := by
  rw [cpuSet, mem_cpuSetLoop mask.toNat_lt]
  simp

theorem cpuSet_inj {a b : UInt64} : cpuSet a = cpuSet b ↔ a = b := by
  constructor
  · intro h
    apply UInt64.toNat_inj.1
    apply Nat.eq_of_testBit_eq
    intro k
    rw [Bool.eq_iff_iff, ← mem_cpuSet, h, mem_cpuSet]
  · rintro rfl
    rfl

end Mask

/-- Every thread sets its own affinity, to the mask of the parameter its slot selects. -/
structure OwnAffinity (s : Threads) : Prop where
  target : ∀ c ∈ s.calls, c.target = some c.caller
  mask : ∀ c ∈ s.calls, ∀ cpu, s.mc_cpu_affinity = some cpu → c.cpus = cpuSet (cpu.param c.slot)

/-- A thread that sets an affinity passed the start event as the one it was made as, and the
mask it is to have goes through an `int`. -/
def inOrder (s : Threads) (a : ThreadAct) (_ : Threads) : Bool :=
  match a, s.mc_cpu_affinity with
  | .thrdInit t _, some cpu =>
    s.curr_slot t = t && cpu.arg (s.curr_slot t) = cpu.param (s.curr_slot t)
  | _, _ => true

section Step

variable {s s' : Threads}

def affinityCall (s : Threads) (t : ℕ) (cpu : CpuAffinity) : AffinityCall where
  caller := t
  slot := s.curr_slot t
  target := if s.curr_slot t = 0 then some t else s.tm_thread_id (s.curr_slot t)
  cpus := cpuSet (cpu.arg (s.curr_slot t))

theorem setCpuAffinity_calls (s : Threads) (t : ℕ) :
    (s.setCpuAffinity t).calls = s.calls ++ (s.mc_cpu_affinity.map (affinityCall s t)).toList := by
  unfold Threads.setCpuAffinity
  cases s.mc_cpu_affinity with
  | none => exact (List.append_nil s.calls).symm
  | some cpu => rfl

theorem threadStep_calls {a : ThreadAct} (hs : threadStep s a = some s') :
    s'.mc_cpu_affinity = s.mc_cpu_affinity ∧
    ((s'.calls = s.calls ∧ ∀ t ok, a ≠ .thrdInit t ok) ∨ ∃ t ok, a = .thrdInit t ok ∧
      s.point t = .thrdInit ∧
        s'.calls = s.calls ++ (s.mc_cpu_affinity.map (affinityCall s t)).toList) := by
  refine ⟨(threadStep_frame hs).cpu, ?_⟩
  cases a with
  | thrdInit t ok =>
    obtain ⟨hp, rfl | rfl⟩ := threadStep_cases hs
    · exact .inr ⟨t, ok, rfl, hp, setCpuAffinity_calls s t⟩
    · exact .inr ⟨t, ok, rfl, hp, setCpuAffinity_calls s t⟩
  | _ => exact .inl ⟨(threadStep_frame hs).calls (by simp), by simp⟩

end Step

/-- The call a thread makes is for itself, with the mask of its parameter, if and only if it
is in order. -/
theorem inOrder_iff {s s' : Threads} {t : ℕ} {ok : Bool} (hseats : Seats s) (hmade : Created s)
    (hp : s.point t = .thrdInit) :
    inOrder s (.thrdInit t ok) s' = true ↔ ∀ cpu, s.mc_cpu_affinity = some cpu →
      (affinityCall s t cpu).target = some t ∧
      (affinityCall s t cpu).cpus = cpuSet (cpu.param (s.curr_slot t)) := by
  unfold inOrder
  cases hcpu : s.mc_cpu_affinity with
  | none => simp
  | some cpu =>
    have htarget : s.curr_slot t = t ↔ (affinityCall s t cpu).target = some t := by
      unfold affinityCall
      rcases eq_or_ne t 0 with rfl | ht
      · simp [hseats.main.1]
      · have hslot := (hseats.range t ht (by rw [hp]; rfl)).1
        simp only [if_neg (show s.curr_slot t ≠ 0 by omega)]
        constructor
        · intro h
          rw [h]
          exact hmade.id_of_made ht (by simp [hp])
        · intro h
          exact (hmade.self _ _ h).symm
    have hmask : cpu.arg (s.curr_slot t) = cpu.param (s.curr_slot t) ↔
        (affinityCall s t cpu).cpus = cpuSet (cpu.param (s.curr_slot t)) := cpuSet_inj.symm
    simp only [Bool.and_eq_true, decide_eq_true_eq, Option.some.injEq, forall_eq']
    exact and_congr htarget hmask

/-- In every run, each thread sets its own affinity to the mask of its parameter if and only
if every thread that sets one is in order. -/
theorem ownAffinity_iff (thrdn : ℕ) (cpu : Option CpuAffinity) (as : List ThreadAct) :
    Always threadStep OwnAffinity (threadsBoot thrdn cpu) as ↔
      EachStep threadStep (fun s a s' => inOrder s a s' = true) (threadsBoot thrdn cpu) as := by
  have hinv : Always threadStep (fun s => Created s ∧ Seats s) (threadsBoot thrdn cpu) as :=
    always_of_step threadStep as ⟨created_boot thrdn cpu, seats_boot thrdn cpu⟩
      fun _ _ _ h hs => ⟨h.1.step hs, h.2.step h.1 hs⟩
  constructor
  · intro h pre a hpre s s' hs ha
    have hs' : run threadStep (threadsBoot thrdn cpu) (pre ++ [a]) = some s' := by
      rw [run_snoc, hs]
      exact ha
    obtain ⟨hmade, hseats⟩ := hinv pre (prefix_snoc hpre) s hs
    have hown := h _ hpre s' hs'
    obtain ⟨hmc, ⟨-, hno⟩ | ⟨t, ok, rfl, hp, hcalls⟩⟩ := threadStep_calls ha
    · unfold inOrder
      split
      next t ok cpu _ => exact absurd rfl (hno t ok)
      next => rfl
    · refine (inOrder_iff hseats hmade hp).2 fun cpu hcpu => ?_
      have hmem : affinityCall s t cpu ∈ s'.calls := by
        rw [hcalls, hcpu]
        simp
      exact ⟨hown.target _ hmem, hown.mask _ hmem cpu (hmc.trans hcpu)⟩
  · intro h
    have hboth : EachStep threadStep (fun s a s' => inOrder s a s' = true ∧ Created s ∧ Seats s)
        (threadsBoot thrdn cpu) as :=
      eachStep_of_always threadStep hinv h fun s a s' hI hD _ _ => ⟨hD, hI⟩
    refine always_of_invariant threadStep ⟨by simp [threadsBoot], by simp [threadsBoot]⟩ ?_ hboth
    rintro s a s' hown ⟨hord, hmade, hseats⟩ hs
    obtain ⟨hmc, ⟨hcalls, -⟩ | ⟨t, ok, rfl, hp, hcalls⟩⟩ := threadStep_calls hs
    · exact ⟨hcalls ▸ hown.target, by rw [hcalls, hmc]; exact hown.mask⟩
    · have hnew := (inOrder_iff hseats hmade hp).1 hord
      have hcase : ∀ c ∈ s'.calls, c ∈ s.calls ∨
          ∃ cpu, s.mc_cpu_affinity = some cpu ∧ c = affinityCall s t cpu := by
        intro c hc
        rw [hcalls, List.mem_append, Option.mem_toList, Option.map_eq_some_iff] at hc
        exact hc.imp_right fun ⟨cpu, hcpu, hx⟩ => ⟨cpu, hcpu, hx.symm⟩
      refine ⟨fun c hc => ?_, fun c hc cpu hcpu => ?_⟩
      · rcases hcase c hc with hc | ⟨cpu, hcpu, rfl⟩
        · exact hown.target c hc
        · exact (hnew cpu hcpu).1
      · rw [hmc] at hcpu
        rcases hcase c hc with hc | ⟨cpu', hcpu', rfl⟩
        · exact hown.mask c hc cpu hcpu
        · obtain rfl := Option.some.inj (hcpu.symm.trans hcpu')
          exact (hnew cpu hcpu).2

def threeMasks : CpuAffinity := ⟨[1, 2, 4], by decide, by decide⟩

/-- Of two workers the second one made passes the start event first. -/
def secondFirst : List ThreadAct :=
  [.boot, .create true, .create true, .create true, .store, .poll, .wait 2, .inc 2, .check 2,
    .openLog 2 true, .thrdInit 2 true]

theorem not_ownAffinity :
    ¬ ∀ thrdn cpu as, Always threadStep OwnAffinity (threadsBoot thrdn cpu) as := by
  intro h
  have hrun : ((run threadStep (threadsBoot 3 (some threeMasks)) secondFirst).map fun s =>
      s.calls.map fun c => (c.caller, c.target)) = some [(2, some 1)] := rfl
  obtain ⟨s, hs, hcalls⟩ := Option.map_eq_some_iff.1 hrun
  obtain ⟨c, hc, hct⟩ : ∃ c ∈ s.calls, (c.caller, c.target) = (2, some 1) := by
    rw [← List.mem_map, hcalls]
    simp
  obtain ⟨hcaller, htarget⟩ := Prod.mk.inj hct
  have hown := (h 3 (some threeMasks) secondFirst secondFirst (List.prefix_refl _) s hs).target c hc
  rw [htarget, hcaller] at hown
  simp at hown

end Plume
