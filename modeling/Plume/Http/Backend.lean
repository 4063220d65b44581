import Mathlib.Order.Interval.Finset.Nat
import Mathlib.Tactic

/-! The choice of a backend in `plm_http_backend.c`: a signed counter of the selections made,
reduced by the number of backends. -/

namespace Plume.Http

/-- The statics of `plm_http_backend.c`. -/
structure Backends (α : Type) where
  curr : Int32
  num : Int32
  backend_addr : Option (List α)
deriving DecidableEq, Repr

section Select

variable {α : Type}

/-- `plm_http_backend_init`; `mem` says whether `malloc` had memory for the table. -/
def httpBackendInit (mem : Bool) (hc_backends : List α) (t : Backends α) : ℤ × Backends α :=
  let n := hc_backends.length
  if n = 0 then (-1, t)
  else if mem then (0, ⟨0, Int32.ofNat n, some hc_backends⟩)
  else (-1, { t with curr := 0, backend_addr := none })

/-- `plm_http_backend_select`: the index whose entry `hr_backend` points to. -/
def httpBackendSelect (t : Backends α) : Int32 × Backends α :=
  (t.curr % t.num, { t with curr := t.curr + 1 })

def selections : ℕ → Backends α → List ℤ × Backends α
  | 0, t => ([], t)
  | k + 1, t =>
    let (m, t) := httpBackendSelect t
    let (ms, t) := selections k t
    (m.toInt :: ms, t)

/-- After `n` selections, as many more as there are backends stay inside the table and pick
each backend once. -/
structure RoundRobin (num n : ℕ) (t : Backends α) : Prop where
  inside : ∀ m ∈ (selections num (selections n t).2).1, 0 ≤ m ∧ m < num
  once : ∀ i < num, (selections num (selections n t).2).1.count (i : ℤ) = 1

/-- The counter does not go below zero, where the remainders do, in `num` selections behind
`n`, unless it does so at the last of them and is a multiple of `num` there. -/
def InPhase (num n : ℕ) : Prop :=
  num = 1 ∨ n % 2 ^ 32 + num ≤ 2 ^ 31 ∨ (n % 2 ^ 32 + num = 2 ^ 31 + 1 ∧ num ∣ 2 ^ 31)

instance (num n : ℕ) : Decidable (InPhase num n) := inferInstanceAs (Decidable (_ ∨ _ ∨ _ ∧ _))

theorem selections_snd (k : ℕ) (t : Backends α) :
    (selections k t).2 = { t with curr := t.curr + Int32.ofNat k } := by
  induction k generalizing t with
  | zero => simp [selections]
  | succ k ih =>
    simp only [selections, httpBackendSelect, ih, Int32.ofNat_add]
    rw [Int32.add_assoc, Int32.add_comm 1]
    rfl

/-- What a run picks: the counter, wrapped, reduced by the number of backends. -/
theorem selections_fst (k : ℕ) (t : Backends α) :
    (selections k t).1 = (List.range k).map fun j : ℕ =>
      ((t.curr.toInt + j).bmod (2 ^ 32)).tmod t.num.toInt := by
  induction k generalizing t with
  | zero => rfl
  | succ k ih =>
    rw [List.range_succ_eq_map, List.map_cons, List.map_map, selections]
    simp only [httpBackendSelect, ih, Int32.toInt_mod]
    congr 1
    · simp
    · refine List.map_congr_left fun j _ => ?_
      simp only [Int32.toInt_add, Function.comp_apply, Nat.cast_succ, Int32.toInt_one]
      rw [Int.bmod_add_bmod, add_assoc, add_comm 1]

end Select

section Phase

variable {num n j : ℕ}

def pick (num n j : ℕ) : ℤ := (((n + j : ℕ) : ℤ).bmod (2 ^ 32)).tmod num

/-- While the counter is not negative the remainder is that of the natural numbers. -/
theorem pick_nonneg (h : n % 2 ^ 32 + j < 2 ^ 31) :
    pick num n j = ((n % 2 ^ 32 + j) % num : ℕ) := by
  have hmod : (n + j) % 2 ^ 32 = n % 2 ^ 32 + j := by omega
  have hb : ((n + j : ℕ) : ℤ).bmod (2 ^ 32) = ((n % 2 ^ 32 + j : ℕ) : ℤ) := by
    rw [Int.bmod_eq_emod_of_lt (by omega), ← hmod]
    norm_cast
  unfold pick
  rw [hb, Int.ofNat_tmod]

/-- Where the counter is `w` below zero, the remainder is that of `w` with its sign changed. -/
theorem pick_neg {w : ℕ} (h : n % 2 ^ 32 + j + w = 2 ^ 32) (h0 : 0 < w) (hw : w ≤ 2 ^ 31) :
    pick num n j = -((w % num : ℕ) : ℤ) := by
  have hmod : (n + j) % 2 ^ 32 + w = 2 ^ 32 := by omega
  have hb : ((n + j : ℕ) : ℤ).bmod (2 ^ 32) = -(w : ℤ) := by
    rw [Int.bmod_neg _ _ (by omega)]
    omega
  unfold pick
  rw [hb, Int.neg_tmod, Int.ofNat_tmod]

theorem pick_inPhase (h : InPhase num n) (hj : j < num) :
    pick num n j = ((n % 2 ^ 32 + j) % num : ℕ) := by
  rcases h with rfl | h | ⟨h, hdvd⟩
  · unfold pick
    rw [Nat.cast_one, Int.tmod_one, Nat.mod_one, Nat.cast_zero]
  · exact pick_nonneg (by omega)
  · rcases Nat.lt_or_ge (n % 2 ^ 32 + j) (2 ^ 31) with hlt | hge
    · exact pick_nonneg hlt
    · -- the last selection, with the counter at its least value
      have hlast : n % 2 ^ 32 + j = 2 ^ 31 := by omega
      rw [hlast, pick_neg (w := 2 ^ 31) (by omega) (by decide) le_rfl, Nat.mod_eq_zero_of_dvd hdvd]
      rfl

theorem pick_lt_zero {w : ℕ} (hn : n % 2 ^ 32 + j + w = 2 ^ 32) (hw0 : 0 < w) (hw : w ≤ 2 ^ 31)
    (hdvd : ¬ num ∣ w) : pick num n j < 0 := by
  rw [pick_neg hn hw0 hw]
  have hpos := Nat.pos_of_ne_zero fun h => hdvd (Nat.dvd_of_mod_eq_zero h)
  omega

/-- Two selections in a row with a negative counter: `num` divides one of its values at most. -/
theorem exists_pick_lt_zero (hmax : num < 2 ^ 31) (h : ¬ InPhase num n) (hnum : 0 < num) :
    ∃ j < num, pick num n j < 0 := by
  unfold InPhase at h
  have hc : n % 2 ^ 32 < 2 ^ 32 := Nat.mod_lt n (by decide)
  obtain ⟨w, j, hj, hw, hn, hlast⟩ : ∃ w j, j < num ∧ (0 < w ∧ w ≤ 2 ^ 31) ∧
    n % 2 ^ 32 + j + w = 2 ^ 32 ∧
      (num ∣ w → 1 < w ∧ j + 1 < num) := by
    rcases Nat.lt_or_ge (n % 2 ^ 32) (2 ^ 31) with hlt | hge
    · refine
        ⟨2 ^ 31, 2 ^ 31 - n % 2 ^ 32, by omega, by omega, by omega, fun hdvd => ⟨by decide, ?_⟩⟩
      have hne : n % 2 ^ 32 + num ≠ 2 ^ 31 + 1 := fun he => h (.inr (.inr ⟨he, hdvd⟩))
      omega
    · refine ⟨2 ^ 32 - n % 2 ^ 32, 0, hnum, by omega, by omega, fun hdvd => ⟨?_, by omega⟩⟩
      have hle := Nat.le_of_dvd (by omega) hdvd
      omega
  by_cases hdvd : num ∣ w
  · obtain ⟨hw1, hj1⟩ := hlast hdvd
    refine ⟨j + 1, hj1, pick_lt_zero (w := w - 1) (by omega) (by omega) (by omega) fun h1 => ?_⟩
    have hone := Nat.dvd_sub hdvd h1
    rw [show w - (w - 1) = 1 by omega, Nat.dvd_one] at hone
    omega
  · exact ⟨j, hj, pick_lt_zero hn hw.1 hw.2 hdvd⟩

end Phase

section Rotation

variable {α : Type} {hc_backends : List α} {num n : ℕ}

variable (hc_backends n) in
/-- What is picked behind `n` selections from the backends of a configuration. -/
theorem picks_eq (hpos : 0 < hc_backends.length) (hmax : hc_backends.length < 2 ^ 31)
    (t : Backends α) :
    (selections num (selections n (httpBackendInit true hc_backends t).2).2).1 =
      (List.range num).map (pick hc_backends.length n) := by
  rw [httpBackendInit, if_neg hpos.ne', if_pos rfl, selections_snd, selections_fst]
  refine List.map_congr_left fun j _ => ?_
  unfold pick
  simp only [Int32.zero_add, Int32.toInt_ofNat', Int32.toInt_ofNat_of_lt hmax]
  rw [show Int32.size = 2 ^ 32 from rfl, Int.bmod_add_bmod, Nat.cast_add]

/-- A whole turn of consecutive numbers has each remainder once. -/
theorem count_turn (c : ℕ) {i : ℕ} (hi : i < num) :
    ((List.range num).map fun j => (((c + j) % num : ℕ) : ℤ)).count (i : ℤ) = 1 := by
  have hturn : (↑((List.range num).map fun j => (c + j) % num) : Multiset ℕ) =
    Multiset.range num := by
    have hIco : Multiset.Ico c (c + num) = ↑(List.range' c (c + num - c)) := rfl
    rw [← Nat.multiset_Ico_map_mod c num, hIco, Multiset.map_coe, Nat.add_sub_cancel_left,
      List.range'_eq_map_range, List.map_map]
    rfl
  have hmap : (List.range num).map (fun j => (((c + j) % num : ℕ) : ℤ)) =
      ((List.range num).map fun j => (c + j) % num).map Nat.cast := by
    rw [List.map_map]
    rfl
  rw [hmap, List.count_map_of_injective _ _ Nat.cast_injective, ← Multiset.coe_count, hturn]
  exact Multiset.count_eq_one_of_mem (Multiset.nodup_range num) (Multiset.mem_range.2 hi)

/-- Any `num` selections in a row stay inside the table and pick each backend once if and only
if the counter is in phase. -/
theorem roundRobin_iff (hpos : 0 < hc_backends.length) (hmax : hc_backends.length < 2 ^ 31) (n : ℕ)
    (t : Backends α) :
    RoundRobin hc_backends.length n (httpBackendInit true hc_backends t).2 ↔
      InPhase hc_backends.length n := by
  constructor
  · intro h
    by_contra hphase
    obtain ⟨j, hj, hlt⟩ := exists_pick_lt_zero hmax hphase hpos
    have hin := h.inside (pick hc_backends.length n j)
      (by rw [picks_eq hc_backends n hpos hmax]; exact List.mem_map_of_mem (List.mem_range.2 hj))
    omega
  · intro h
    have hpicks : (List.range hc_backends.length).map (pick hc_backends.length n) =
        (List.range hc_backends.length).map fun j =>
        (((n % 2 ^ 32 + j) % hc_backends.length : ℕ) : ℤ) :=
      List.map_congr_left fun j hj => pick_inPhase h (List.mem_range.1 hj)
    refine ⟨fun m hm => ?_, fun i hi => ?_⟩
    · rw [picks_eq hc_backends n hpos hmax, hpicks] at hm
      obtain ⟨j, -, rfl⟩ := List.mem_map.1 hm
      exact ⟨Int.natCast_nonneg _, by exact_mod_cast Nat.mod_lt _ hpos⟩
    · rw [picks_eq hc_backends n hpos hmax, hpicks, count_turn _ hi]

/-- Four backends, with the last of four selections made where the counter has wrapped. -/
theorem roundRobin_iff_four :
    RoundRobin [1, 2, 3,
      4].length (2 ^ 31 - 3) (httpBackendInit true [1, 2, 3, 4] ⟨0, 0, none⟩).2 :=
  (roundRobin_iff (by decide) (by decide) (2 ^ 31 - 3) ⟨0, 0, none⟩).2 (by decide)

/-- Three backends and a counter that has wrapped: the index is negative. -/
theorem not_roundRobin :
    ¬ ∀ (hc_backends : List ℕ) (n : ℕ) (t : Backends ℕ), 0 < hc_backends.length →
    hc_backends.length < 2 ^ 31 →
      RoundRobin hc_backends.length n (httpBackendInit true hc_backends t).2 := by
  intro h
  have hr := h [1, 2, 3] (2 ^ 31) ⟨0, 0, none⟩ (by decide) (by decide)
  have hin := hr.inside (pick 3 (2 ^ 31) 0) (by
    rw [picks_eq _ _ (by decide) (by decide)]
    exact List.mem_map_of_mem (by decide))
  exact absurd hin.1 (by decide)

end Rotation

end Plume.Http
