import Plume.Affinity
import Plume.Str

/-! The parameters of `work_thread_cpu_affinity` in `plm_plugin_base.c`: strings of binary
digits made into masks, and the array they are stored in, until a thread gets its mask. -/

namespace Plume
open CLib

/-- The members of `main_ctx` that `work_thread_cpu_affinity` sets. An element of the array
never written to is `none`. -/
structure MainCtx where
  mc_cpu_affinity_id : Option (List (Option UInt64))
  mc_cpu_affinity_id_num : Int8
deriving DecidableEq, Repr

structure AffinitySet where
  rc : ℤ
  ctx : MainCtx
  writes : List ℤ
deriving DecidableEq, Repr

section Model

/-- The loop of `plm_bitset2int64` from the last digit on. The `1` it shifts is an `int`, for
which a count of 32 has no meaning. -/
def bitsetLoop : ℕ → Int64 → Bytes → Option Int64
  | _, v, [] => some v
  | k, v, c :: cs =>
    if c ≠ 49 then bitsetLoop (k + 1) v cs
    else if k < 32 then bitsetLoop (k + 1) (v ||| ((1 : Int32) <<< Int32.ofNat k).toInt64) cs
    else none

def bitset2int64 (s : PStr) : Option Int64 := bitsetLoop 0 0 s.counted.reverse

/-- The loop of `plm_work_thread_cpu_affinity_set`. The index is an `int8_t`; a write
outside the array leaves the array as it is. -/
def affinityLoop : Int8 → List (Option UInt64) → List PStr → Option (List (Option UInt64) × List ℤ)
  | _, ids, [] => some (ids, [])
  | i, ids, p :: params => do
    let v ← bitset2int64 p
    let ids := if i.toInt < 0 then ids else ids.set i.toInt.toNat (some v.toUInt64)
    let (ids, writes) ← affinityLoop (i + 1) ids params
    some (ids, i.toInt :: writes)

/-- `plm_work_thread_cpu_affinity_set`; `mem` says whether `malloc` had memory. -/
def workThreadCpuAffinitySet (mem : Bool) (params : List PStr) (ctx : MainCtx) :
    Option AffinitySet :=
  let n := Int8.ofNat params.length
  if n = 0 then some ⟨-1, ctx, []⟩
  else
    let n := if n.toInt < 0 then 127 else n
    if !mem then some ⟨-1, { ctx with mc_cpu_affinity_id := none }, []⟩
    else do
      let (ids, writes) ← affinityLoop 0 (List.replicate n.toInt.toNat none) params
      some ⟨0, ⟨some ids, n⟩, writes⟩

def HasOne (s : PStr) (k : ℕ) : Prop := s.counted.reverse[k]? = some 49

instance (s : PStr) (k : ℕ) : Decidable (HasOne s k) := inferInstanceAs (Decidable (_ = _))

def MainCtx.Holds (ctx : MainCtx) (cpu : CpuAffinity) : Prop :=
  ctx.mc_cpu_affinity_id = some (cpu.mc_cpu_affinity_id.map some) ∧
    ctx.mc_cpu_affinity_id_num.toInt = cpu.mc_cpu_affinity_id.length

/-- A string given to `work_thread_cpu_affinity` puts every thread on the CPUs whose digits
are `1`. -/
def CpusRight (s : PStr) : Prop :=
  ∀ ctx, ∃ r cpu, workThreadCpuAffinitySet true [s] ctx = some r ∧ r.rc = 0 ∧ r.ctx.Holds cpu ∧
    ∀ slot k, k ∈ cpuSet (cpu.arg slot) ↔ HasOne s k

/-- The masks of a list of parameters are stored in an array they fit in, or nothing changes. -/
structure AffinityKept (params : List PStr) (ctx : MainCtx) (r : AffinitySet) : Prop where
  inside : ∀ i ∈ r.writes, 0 ≤ i ∧ i < r.ctx.mc_cpu_affinity_id_num.toInt
  stored : r.rc = 0 →
    0 < r.ctx.mc_cpu_affinity_id_num.toInt ∧ ∃ ids, r.ctx.mc_cpu_affinity_id = some ids ∧
    ids.length = r.ctx.mc_cpu_affinity_id_num.toInt ∧
    ∀ i < ids.length, ∃ p v, params[i]? = some p ∧ bitset2int64 p = some v ∧
      ids[i]? = some (some v.toUInt64)
  failed : r.rc ≠ 0 → r.ctx = ctx

end Model

section Bits

/-- The bits of `1 << k`, widened: bit 31 is the sign. -/
theorem shifted_bit {j k : ℕ} (hk : k < 32) (hj : j < 64) :
    ((1 : Int32) <<< Int32.ofNat k).toInt64.toBitVec.getLsbD j = true ↔
      j = k ∨ k = 31 ∧ 31 ≤ j := by
  have hsh : ((1 : Int32) <<< Int32.ofNat k).toInt64.toBitVec = ((1#32) <<< k).signExtend 64 := by
    interval_cases k <;> rfl
  rw [hsh, BitVec.getLsbD_signExtend, BitVec.msb_shiftLeft, BitVec.getMsbD,
    BitVec.getLsbD_shiftLeft, BitVec.getLsbD_one, BitVec.getLsbD_one]
  by_cases h31 : j < 32
  · simp [h31, hj]
    omega
  · simp [h31, hj, hk]
    omega

theorem bitsetLoop_isSome (b : Bytes) (k : ℕ) (v : Int64) :
    (bitsetLoop k v b).isSome ↔ ∀ i, b[i]? = some 49 → k + i < 32 := by
  induction b generalizing k v with
  | nil => simp [bitsetLoop]
  | cons c cs ih =>
    have htail : (∀ i, (c :: cs)[i]? = some 49 → k + i < 32) ↔
        (c = 49 → k < 32) ∧ ∀ i, cs[i]? = some 49 → k + 1 + i < 32 := by
      constructor
      · intro h
        refine ⟨fun hc => by simpa [hc] using h 0, fun i hi => ?_⟩
        have := h (i + 1) (by simpa using hi)
        omega
      · rintro ⟨h0, h⟩ i hi
        cases i with
        | zero => simpa using h0 (by simpa using hi)
        | succ i =>
          have := h i (by simpa using hi)
          omega
    rw [bitsetLoop, htail]
    split_ifs with hc hk
    · simp [ih, hc]
    · simp [ih, hk]
    · simp only [ne_eq, not_not] at hc
      simp [hc, hk]

theorem bitsetLoop_bit {b : Bytes} {k j : ℕ} {v w : Int64} (h : bitsetLoop k v b = some w)
    (hj : j < 64) :
    w.toBitVec.getLsbD j = true ↔ v.toBitVec.getLsbD j = true ∨
      ∃ i, b[i]? = some 49 ∧ (j = k + i ∨ k + i = 31 ∧ 31 ≤ j) := by
  induction b generalizing k v with
  | nil =>
    obtain rfl := Option.some.inj h
    simp
  | cons c cs ih =>
    have htail : (∃ i, (c :: cs)[i]? = some 49 ∧ (j = k + i ∨ k + i = 31 ∧ 31 ≤ j)) ↔
        (c = 49 ∧ (j = k ∨ k = 31 ∧ 31 ≤ j)) ∨
          ∃ i, cs[i]? = some 49 ∧ (j = k + 1 + i ∨ k + 1 + i = 31 ∧ 31 ≤ j) := by
      constructor
      · rintro ⟨i, hi, hj⟩
        cases i with
        | zero => exact .inl ⟨by simpa using hi, by simpa using hj⟩
        | succ i => exact .inr ⟨i, by simpa using hi, by omega⟩
      · rintro (⟨hc, hj⟩ | ⟨i, hi, hj⟩)
        · exact ⟨0, by simp [hc], by simpa using hj⟩
        · exact ⟨i + 1, by simpa using hi, by omega⟩
    rw [bitsetLoop] at h
    rw [htail]
    split_ifs at h with hc hk
    · rw [ih h]
      simp [hc]
    · simp only [ne_eq, not_not] at hc
      rw [ih h, Int64.toBitVec_or, BitVec.getLsbD_or, Bool.or_eq_true, shifted_bit hk hj, or_assoc]
      simp [hc]

/-- Between the array and the CPUs a mask goes through an `int`, whose sign is bit 31. -/
theorem mem_cpuSet_arg (cpu : CpuAffinity) (slot k : ℕ) :
    k ∈ cpuSet (cpu.arg slot) ↔ k < 64 ∧ (cpu.param slot).toBitVec.getLsbD (min k 31) = true := by
  have harg : (cpu.arg slot).toBitVec = ((cpu.param slot).toBitVec.setWidth 32).signExtend 64 := rfl
  have hbit : (cpu.arg slot).toNat.testBit k = (cpu.arg slot).toBitVec.getLsbD k := rfl
  rw [mem_cpuSet, hbit, harg, BitVec.getLsbD_signExtend, BitVec.getLsbD_setWidth,
    BitVec.msb_setWidth]
  by_cases h32 : k < 32
  · rw [min_eq_left (by omega)]
    simp [h32]
  · rw [min_eq_right (by omega)]
    simp [h32]

end Bits

section Mask

variable {s : PStr}

theorem bitset2int64_isSome : (bitset2int64 s).isSome ↔ ∀ k, HasOne s k → k < 32 := by
  unfold bitset2int64 HasOne
  rw [bitsetLoop_isSome]
  simp

theorem bitset2int64_bit {v : Int64} {j : ℕ} (h : bitset2int64 s = some v) (hj : j < 64) :
    v.toBitVec.getLsbD j = true ↔ HasOne s j ∨ HasOne s 31 ∧ 31 ≤ j := by
  rw [bitsetLoop_bit h hj]
  constructor
  · rintro (h0 | ⟨i, hi, hij⟩)
    · simp at h0
    · rw [Nat.zero_add] at hij
      rcases hij with rfl | ⟨rfl, hj31⟩
      · exact .inl hi
      · exact .inr ⟨hi, hj31⟩
  · rintro (hi | ⟨hi, hj31⟩)
    · exact .inr ⟨j, hi, .inl (by omega)⟩
    · exact .inr ⟨31, hi, .inr ⟨rfl, hj31⟩⟩

/-- One parameter alone makes an array of one mask, the mask of every thread. -/
theorem workThreadCpuAffinitySet_one (s : PStr) (ctx : MainCtx) :
    workThreadCpuAffinitySet true [s] ctx =
    (bitset2int64 s).map fun v => ⟨0, ⟨some [some v.toUInt64], 1⟩, [0]⟩ := by
  unfold workThreadCpuAffinitySet affinityLoop affinityLoop
  cases bitset2int64 s <;> rfl

theorem param_one {cpu : CpuAffinity} {m : UInt64} (h : cpu.mc_cpu_affinity_id = [m]) (slot : ℕ) :
    cpu.param slot = m := by
  obtain ⟨ids, pos, num⟩ := cpu
  obtain rfl : ids = [m] := h
  unfold CpuAffinity.param
  simp [Nat.mod_one]

/-- The CPUs of a thread whose mask was made of a string. -/
theorem mem_cpuSet_string {cpu : CpuAffinity} {v : Int64} (hv : bitset2int64 s = some v)
    (hcpu : cpu.mc_cpu_affinity_id = [v.toUInt64]) (slot k : ℕ) :
    k ∈ cpuSet (cpu.arg slot) ↔ k < 64 ∧ HasOne s (min k 31) := by
  rw [mem_cpuSet_arg, param_one hcpu]
  refine and_congr_right fun _ => (bitset2int64_bit hv (by omega)).trans ⟨?_, .inl⟩
  rintro (h | ⟨h, hle⟩)
  · exact h
  · rwa [show min k 31 = 31 by omega]

/-- No digit from the 31st place on comes out right. -/
theorem cpusRight_place {s : PStr} {k : ℕ} (h : CpusRight s) (hk : HasOne s k) : k < 31 := by
  obtain ⟨r, cpu, hr, -, hholds, hcpus⟩ := h ⟨none, 0⟩
  rw [workThreadCpuAffinitySet_one, Option.map_eq_some_iff] at hr
  obtain ⟨v, hv, rfl⟩ := hr
  have hmap : [some v.toUInt64] = cpu.mc_cpu_affinity_id.map some := Option.some.inj hholds.1
  have hids : cpu.mc_cpu_affinity_id = [v.toUInt64] :=
    List.map_injective_iff.2 (Option.some_injective _) hmap.symm
  have hshift := bitset2int64_isSome.1 (by rw [hv]; rfl)
  by_contra hge
  -- the digit at place 31 sets CPU 32 too, for which no digit may stand
  obtain rfl : k = 31 := by
    have := hshift k hk
    omega
  have h32 : 32 ∈ cpuSet (cpu.arg 0) := (mem_cpuSet_string hv hids 0 32).2 ⟨by decide, hk⟩
  exact absurd (hshift 32 ((hcpus 0 32).1 h32)) (by decide)

/-- The mask of a string reaches the CPUs as it is written if and only if its digits from the
31st place on are not `1`. -/
theorem cpusRight_iff (s : PStr) : CpusRight s ↔ ∀ k, HasOne s k → k < 31 := by
  constructor
  · intro h k hk
    exact cpusRight_place h hk
  · intro h ctx
    obtain ⟨v, hv⟩ :=
      Option.isSome_iff_exists.1 (bitset2int64_isSome.2 fun k hk => (h k hk).trans (by decide))
    refine ⟨_, ⟨[v.toUInt64], by simp, by simp⟩, by rw [workThreadCpuAffinitySet_one, hv]; rfl, rfl,
      ⟨rfl, rfl⟩, fun slot k => ?_⟩
    rw [mem_cpuSet_string hv rfl]
    constructor
    · rintro ⟨-, hk⟩
      have := h _ hk
      rwa [show min k 31 = k by omega] at hk
    · intro hk
      have := h k hk
      exact ⟨by omega, by rwa [show min k 31 = k by omega]⟩

/-- A `1` for CPU 31 sets CPU 32 as well. -/
theorem not_cpusRight :
    ¬ ∀ b : Bytes, (∀ c ∈ b, c = 48 ∨ c = 49) → b.length ≤ 64 → CpusRight (.ofBytes b) := by
  intro h
  have hright := h (49 :: List.replicate 31 48) (by simp) (by simp)
  exact absurd (cpusRight_place (k := 31) hright (by decide)) (by decide)

end Mask

section List

variable {params : List PStr} {ctx : MainCtx} {ids ids' : List (Option UInt64)} {writes : List ℤ}
  {j : ℕ}

theorem ofNat_succ (j : ℕ) : Int8.ofNat j + 1 = Int8.ofNat (j + 1) := (Int8.ofNat_add j 1).symm

/-- The loop follows the list: it writes once for each parameter, wherever its index points. -/
theorem affinityLoop_cases (params : List PStr) (j : ℕ) (ids : List (Option UInt64)) :
    (∃ p ∈ params, bitset2int64 p = none) ∧ affinityLoop (Int8.ofNat j) ids params = none ∨
    (∀ p ∈ params, (bitset2int64 p).isSome) ∧ ∃ ids', ids'.length = ids.length ∧
      affinityLoop (Int8.ofNat j) ids params =
        some (ids', (List.range' j params.length).map fun i => (Int8.ofNat i).toInt) := by
  induction params generalizing j ids with
  | nil => exact .inr ⟨by simp, ids, rfl, rfl⟩
  | cons p params ih =>
    rw [affinityLoop]
    cases hv : bitset2int64 p with
    | none => exact .inl ⟨⟨p, by simp, hv⟩, rfl⟩
    | some v =>
      simp only [Option.bind_eq_bind, Option.bind_some, ofNat_succ]
      set ids1 := if (Int8.ofNat j).toInt < 0 then ids
        else ids.set (Int8.ofNat j).toInt.toNat (some v.toUInt64)
        with hids1
      have hlen : ids1.length = ids.length := by
        rw [hids1]
        split_ifs
        · rfl
        · exact List.length_set
      rcases ih (j + 1) ids1 with ⟨⟨q, hq, hn⟩, hl⟩ | ⟨hall, ids', hlen', hl⟩
      · exact .inl ⟨⟨q, by simp [hq], hn⟩, by rw [hl]; rfl⟩
      · refine .inr ⟨by simpa [hv] using hall, ids', hlen'.trans hlen, ?_⟩
        rw [hl]
        rfl

/-- While the index is not negative, each parameter's mask stays where it was put. -/
theorem affinityLoop_stored (hlen : j + params.length ≤ ids.length) (hmax : ids.length ≤ 128)
    (h : affinityLoop (Int8.ofNat j) ids params = some (ids', writes)) :
    (∀ i < j, ids'[i]? = ids[i]?) ∧ ∀ i p, params[i]? = some p →
      ∃ v, bitset2int64 p = some v ∧ ids'[j + i]? = some (some v.toUInt64) := by
  induction params generalizing j ids writes with
  | nil =>
    obtain ⟨rfl, -⟩ := by simpa [affinityLoop] using h
    simp
  | cons p params ih =>
    rw [List.length_cons] at hlen
    have hj : (Int8.ofNat j).toInt = j := Int8.toInt_ofNat_of_lt (by omega)
    rw [affinityLoop] at h
    simp only [hj, ofNat_succ, Option.bind_eq_bind, Option.bind_eq_some_iff, Option.some.injEq,
      Prod.mk.injEq, Int.toNat_natCast] at h
    obtain ⟨v, hv, ⟨ids2, ws⟩, h, rfl, -⟩ := h
    rw [if_neg (by omega)] at h
    obtain ⟨hlow, hrest⟩ := ih (by rw [List.length_set]; omega) (by rwa [List.length_set]) h
    refine ⟨fun i hi => ?_, fun i q hq => ?_⟩
    · rw [hlow i (by omega), List.getElem?_set_ne (by omega)]
    · cases i with
      | zero =>
        obtain rfl : p = q := by simpa using hq
        refine ⟨v, hv, ?_⟩
        rw [Nat.add_zero, hlow j (by omega), List.getElem?_set_self (by omega)]
      | succ i =>
        obtain ⟨w, hw, hi⟩ := hrest i q (by simpa using hq)
        exact ⟨w, hw, by rw [← hi]; congr 1; omega⟩

/-- The count as an `int8_t`, with which the code goes on where it is not zero. -/
theorem count_le (n : Int8) (h : n ≠ 0) : let m := if n.toInt < 0 then 127 else n
    0 < m.toInt ∧ m.toInt ≤ 127 := by
  have hlt := n.toInt_lt
  have h0 : n.toInt ≠ 0 := fun h0 => h (Int8.toInt_inj.1 h0)
  dsimp only
  split_ifs
  · decide
  · omega

theorem count_eq_zero (n : ℕ) : Int8.ofNat n = 0 ↔ n % 256 = 0 := by
  rw [← Int8.toInt_inj, Int8.toInt_ofNat', Int8.toInt_zero, show Int8.size = 256 from rfl,
    ← Int.dvd_iff_bmod_eq_zero]
  omega

/-- Writes inside an array of at most 127 masks are those of fewer than 128 parameters. -/
theorem lt_of_inside {n : Int8} (hle : n.toInt ≤ 127)
    (hin : ∀ i ∈ (List.range' 0 params.length).map fun i => (Int8.ofNat i).toInt, 0 ≤ i ∧
      i < n.toInt) :
    params.length < 128 := by
  by_contra hge
  have hmem : (127 : ℤ) ∈ (List.range' 0 params.length).map fun i => (Int8.ofNat i).toInt :=
    List.mem_map.2 ⟨127, List.mem_range'_1.2 (by omega), rfl⟩
  have hlt : (127 : ℤ) < n.toInt := (hin 127 hmem).2
  omega

/-- With memory for `n` masks the list fits if and only if `n` has not been narrowed. -/
theorem affinityKept_filled (ctx : MainCtx) {n : Int8} (hpos : 0 < n.toInt) (hle : n.toInt ≤ 127)
    (hn : params.length < 128 → n.toInt = params.length)
    (hlen : ids'.length = (List.replicate n.toInt.toNat (none : Option UInt64)).length)
    (hl : affinityLoop (Int8.ofNat 0) (List.replicate n.toInt.toNat none) params =
      some (ids', (List.range' 0 params.length).map fun i => (Int8.ofNat i).toInt)) :
    AffinityKept params ctx ⟨0, ⟨some ids', n⟩,
      (List.range' 0 params.length).map fun i => (Int8.ofNat i).toInt⟩ ↔
      params.length < 128 := by
  rw [List.length_replicate] at hlen
  constructor
  · exact fun h => lt_of_inside hle h.inside
  · intro hlt
    have hn := hn hlt
    refine ⟨fun i hi => ?_, fun _ => ⟨hpos, ids', rfl, ?_, fun i hi => ?_⟩, fun h => absurd rfl h⟩
    · obtain ⟨j, hj, rfl⟩ := List.mem_map.1 hi
      rw [List.mem_range'_1] at hj
      rw [Int8.toInt_ofNat_of_lt (by omega)]
      exact ⟨Int.natCast_nonneg j, by rw [hn]; omega⟩
    · rw [hlen]
      exact Int.toNat_of_nonneg hpos.le
    · obtain ⟨-, hst⟩ := affinityLoop_stored (by rw [List.length_replicate]; omega)
        (by rw [List.length_replicate]; omega) hl
      have hi : i < params.length := by omega
      obtain ⟨v, hv, hiv⟩ := hst i params[i] (List.getElem?_eq_getElem hi)
      rw [Nat.zero_add] at hiv
      exact ⟨params[i], v, List.getElem?_eq_getElem hi, hv, hiv⟩

/-- With memory, a number of parameters that does not wrap to zero. -/
theorem affinityKept_mem (ctx : MainCtx) (h0 : ¬ params.length % 256 = 0) :
    (∃ r, workThreadCpuAffinitySet true params ctx = some r ∧ AffinityKept params ctx r) ↔
      params.length < 128 ∧ ∀ p ∈ params, (bitset2int64 p).isSome := by
  have hn0 := fun h => h0 ((count_eq_zero _).1 h)
  obtain ⟨hpos, hle⟩ := count_le (Int8.ofNat params.length) hn0
  have hnlt : params.length < 128 → (if (Int8.ofNat params.length).toInt < 0 then (127 : Int8)
      else Int8.ofNat params.length).toInt = params.length := by
    intro hlt
    have hcast : (Int8.ofNat params.length).toInt = params.length := Int8.toInt_ofNat_of_lt hlt
    rw [if_neg (by omega), hcast]
  unfold workThreadCpuAffinitySet
  rw [if_neg hn0]
  set n := if (Int8.ofNat params.length).toInt < 0 then 127 else Int8.ofNat params.length
  simp only [Bool.not_true, Bool.false_eq_true, if_false]
  rcases affinityLoop_cases params 0 (List.replicate n.toInt.toNat none) with
    ⟨⟨p, hp, hv⟩, hl⟩ | ⟨hall, ids', hlen, hl⟩
  · have hno : ¬ ∀ p ∈ params, (bitset2int64 p).isSome := fun h => by simpa [hv] using h p hp
    refine iff_of_false ?_ fun h => hno h.2
    rw [show Int8.ofNat 0 = 0 from rfl] at hl
    rw [hl]
    rintro ⟨r, hr, -⟩
    cases hr
  · rw [and_iff_left hall, ← affinityKept_filled ctx hpos hle hnlt hlen hl]
    rw [show Int8.ofNat 0 = 0 from rfl] at hl
    rw [hl]
    simp only [Option.bind_eq_bind, Option.bind_some, Option.some.injEq, exists_eq_left']

/-- The command keeps to its array if and only if it does nothing, or has fewer parameters than
an `int8_t` can count and no digit that its shift cannot reach. -/
theorem affinityKept_iff (mem : Bool) (params : List PStr) (ctx : MainCtx) :
    (∃ r, workThreadCpuAffinitySet mem params ctx = some r ∧ AffinityKept params ctx r) ↔
      params.length % 256 = 0 ∨ (mem = false ∧ ctx.mc_cpu_affinity_id = none) ∨
        (mem = true ∧ params.length < 128 ∧ ∀ p ∈ params, ∀ k, HasOne p k → k < 32) := by
  by_cases h0 : params.length % 256 = 0
  · unfold workThreadCpuAffinitySet
    rw [if_pos ((count_eq_zero _).2 h0)]
    exact iff_of_true ⟨_, rfl, by simp, by simp, fun _ => rfl⟩ (.inl h0)
  cases mem with
  | false =>
    have hn0 := fun h => h0 ((count_eq_zero _).1 h)
    obtain ⟨ids, num⟩ := ctx
    unfold workThreadCpuAffinitySet
    rw [if_neg hn0]
    simp only [h0, false_or, Bool.not_false, if_true, Option.some.injEq, exists_eq_left', true_and,
      reduceCtorEq, false_and, or_false]
    constructor
    · intro h
      exact (congrArg MainCtx.mc_cpu_affinity_id (h.failed (by simp))).symm
    · rintro rfl
      exact ⟨by simp, by simp, fun _ => rfl⟩
  | true =>
    have hshift : (∀ p ∈ params, ∀ k, HasOne p k → k < 32) ↔
      ∀ p ∈ params, (bitset2int64 p).isSome := by
      simp only [bitset2int64_isSome]
    simp only [affinityKept_mem ctx h0, h0, hshift, false_or, reduceCtorEq, false_and, true_and]

/-- As many parameters as make the count negative. -/
theorem not_affinityKept : ¬ ∀ (mem : Bool) (params : List PStr) (ctx : MainCtx),
    ∃ r, workThreadCpuAffinitySet mem params ctx = some r ∧ AffinityKept params ctx r := by
  intro h
  have hlen : (List.replicate 128 (PStr.ofBytes [49])).length = 128 := List.length_replicate
  have hk := (affinityKept_mem ⟨none, 0⟩ (by rw [hlen]; decide)).1
    (h true (List.replicate 128 (.ofBytes [49])) _)
  exact absurd hk.1 (by rw [hlen]; decide)

end List

end Plume
