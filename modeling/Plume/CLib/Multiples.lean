import Mathlib.Data.Finset.Card
import Mathlib.Data.Int.GCD
import Mathlib.Data.Nat.ModEq

/-! The multiples of a number modulo another: what a sum comes to that is grown by the same number
again and again, and wraps around. -/

namespace CLib

variable {m n : ℕ}

theorem mul_mod_le (m k : ℕ) (hn : 0 < n) : m * k % n ≤ n - m.gcd n := by
  have hmod : m.gcd n ∣ m * k % n :=
    (Nat.dvd_mod_iff (Nat.gcd_dvd_right m n)).2 ((Nat.gcd_dvd_left m n).mul_right k)
  have hlt : m * k % n < n := Nat.mod_lt _ hn
  have hle : m.gcd n ≤ n - m * k % n :=
    Nat.le_of_dvd (Nat.sub_pos_of_lt hlt) (Nat.dvd_sub (Nat.gcd_dvd_right m n) hmod)
  omega

theorem exists_mul_mod_eq (m : ℕ) (hn : 0 < n) : ∃ k, m * k % n = n - m.gcd n := by
  have hpos : 0 < m.gcd n := Nat.gcd_pos_of_pos_right m hn
  rcases Nat.lt_or_ge (m.gcd n) n with hg | hg
  · obtain ⟨j, -, hj⟩ := Nat.exists_mul_mod_eq_gcd hg
    have hmul : m.gcd n * (n / m.gcd n - 1) = n - m.gcd n := by
      rw [Nat.mul_sub, Nat.mul_div_cancel' (Nat.gcd_dvd_right m n), Nat.mul_one]
    refine ⟨j * (n / m.gcd n - 1), ?_⟩
    rw [← Nat.mul_assoc, Nat.mul_mod, hj, ← Nat.mul_mod_mod, Nat.mod_mod, Nat.mul_mod_mod, hmul,
      Nat.mod_eq_of_lt (by omega)]
  · exact ⟨0, by rw [Nat.mul_zero, Nat.zero_mod]; omega⟩

/-- Among more numbers than there are values below `b`, two multiples leave the same rest. -/
theorem exists_dvd_mul {b : ℕ} (h : ∀ i < b + 1, m * (i + 1) % n < b) :
    ∃ d, 0 < d ∧ d ≤ b ∧ n ∣ m * d := by
  have hcard : (Finset.range b).card < (Finset.range (b + 1)).card := by simp
  obtain ⟨i, hi, j, hj, hne, heq⟩ := Finset.exists_ne_map_eq_of_card_lt_of_maps_to hcard
    (fun i hi =>
      Finset.mem_coe.2 (Finset.mem_range.2 (h i (Finset.mem_range.1 (Finset.mem_coe.1 hi)))))
  rw [Finset.mem_range] at hi hj
  have hsub : ∀ {i j : ℕ}, i < j → m * (i + 1) % n = m * (j + 1) % n → n ∣ m * (j - i) := by
    intro i j hij heq
    have hd : n ∣ m * (j + 1) - m * (i + 1) :=
      (Nat.modEq_iff_dvd' (Nat.mul_le_mul_left m (by omega))).1 heq
    rwa [← Nat.mul_sub, Nat.add_sub_add_right] at hd
  rcases Nat.lt_or_gt_of_ne hne with hlt | hlt
  · exact ⟨j - i, by omega, by omega, hsub hlt heq⟩
  · exact ⟨i - j, by omega, by omega, hsub hlt heq.symm⟩

/-- A bound that a multiple reaches is reached by one of the first. -/
theorem exists_le_mul_mod {b : ℕ} (m : ℕ) (hn : 0 < n) (hb : b ≤ n - m.gcd n) :
    ∃ i < b + 1, b ≤ m * (i + 1) % n := by
  by_contra hno
  have hbelow : ∀ i < b + 1, m * (i + 1) % n < b := by
    intro i hi
    exact Nat.lt_of_not_le fun hge => hno ⟨i, hi, hge⟩
  obtain ⟨d, hd0, hd, c, hc⟩ := exists_dvd_mul hbelow
  obtain ⟨k, hk⟩ := exists_mul_mod_eq m hn
  -- the multiples repeat with `d`, so the largest is among the first
  have hred : m * k % n = m * (k % d) % n := by
    conv_lhs => rw [← Nat.mod_add_div k d, Nat.mul_add, ← Nat.mul_assoc, hc, Nat.mul_assoc]
    exact Nat.add_mul_mod_self_left ..
  have hkd : k % d < d := Nat.mod_lt k hd0
  rw [hk] at hred
  rcases Nat.eq_zero_or_pos (k % d) with h0 | hpos
  · have h1 := hbelow 0 (Nat.succ_pos _)
    rw [h0, Nat.mul_zero, Nat.zero_mod] at hred
    omega
  · have h1 := hbelow (k % d - 1) (by omega)
    rw [Nat.sub_add_cancel hpos] at h1
    omega

end CLib
