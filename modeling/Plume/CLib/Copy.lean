import Plume.CLib.Scan

/-! Writing bytes into one object. Copies that follow each other fill it from its start. -/

namespace CLib

def memcpy (dst : Bytes) (i : ℕ) (src : Bytes) (n : ℕ) : Except Fault Bytes :=
  if i + n ≤ dst.length ∧ n ≤ src.length then .ok (dst.take i ++ src.take n ++ dst.drop (i + n))
    else .error .bounds

/-- `p[i] = c`, where `i` may be negative. -/
def storeAt (p : Bytes) (i : ℤ) (c : UInt8) : Except Fault Bytes :=
  if 0 ≤ i then store p i.toNat c else .error .bounds

section Copies

variable {dst written rest src : Bytes} {i n : ℕ} {c : UInt8}

theorem memcpy_append (hi : i = written.length) (hn : n ≤ rest.length) (hs : n ≤ src.length) :
    memcpy (written ++ rest) i src n = .ok (written ++ src.take n ++ rest.drop n) := by
  subst hi
  unfold memcpy
  rw [if_pos ⟨by rw [List.length_append]; omega, hs⟩, List.take_left, List.drop_length_add_append]

theorem memcpy_start (hn : n ≤ dst.length) (hs : n ≤ src.length) :
    memcpy dst 0 src n = .ok (src.take n ++ dst.drop n) := by
  have hzero : 0 = ([] : Bytes).length := rfl
  exact memcpy_append hzero hn hs

theorem storeAt_append (hlen : 0 < rest.length) :
    storeAt (written ++ rest) written.length c = .ok (written ++ [c] ++ rest.drop 1) := by
  obtain ⟨x, rest, rfl⟩ := List.exists_cons_of_length_pos hlen
  rw [storeAt, if_pos (Int.natCast_nonneg _), Int.toNat_natCast, store_split rfl rfl,
    List.append_cons]
  rfl

theorem storeAt_last (hlen : rest.length = 1) :
    storeAt (written ++ rest) written.length c = .ok (written ++ [c]) := by
  rw [storeAt_append (by omega), List.drop_of_length_le hlen.le, List.append_nil]

theorem memcpy_outside (h : dst.length < i + n) : memcpy dst i src n = .error .bounds :=
  if_neg fun hin => absurd hin.1 (not_le.2 h)

/-- The text at the start of an object ends at its first NUL. -/
theorem cstr_takeWhile (x r : Bytes) : cstr (x ++ 0 :: r) 0 = .ok (x.takeWhile (· != 0)) := by
  have hfree : 0 ∉ x.takeWhile (· != 0) := by
    intro hmem
    have := List.all_eq_true.1 (List.all_takeWhile (l := x) (p := (· != 0))) 0 hmem
    simp at this
  cases hrest : x.dropWhile (· != 0) with
  | nil =>
    have hx : x.takeWhile (· != 0) = x := by
      have := List.takeWhile_append_dropWhile (p := (· != 0)) (l := x)
      rwa [hrest, List.append_nil] at this
    rw [hx]
    exact cstr_split (l := []) (r := r) rfl rfl (hx ▸ hfree)
  | cons c t =>
    have hc : c = 0 := by
      have := List.head?_dropWhile_not (p := (· != 0)) (l := x)
      rw [hrest] at this
      simpa using this
    have hx := List.takeWhile_append_dropWhile (p := (· != 0)) (l := x)
    rw [hrest, hc] at hx
    have hsplit : x ++ 0 :: r = [] ++ x.takeWhile (· != 0) ++ 0 :: (t ++ 0 :: r) := by
      rw [List.nil_append, ← List.cons_append, ← List.append_assoc, hx]
    exact cstr_split hsplit rfl hfree

theorem cstr_unended {b : Bytes} (h : 0 ∉ b) : cstr b 0 = .error .bounds := by
  have hnone : b.findIdx? (· == 0) = none := by
    rw [List.findIdx?_eq_none_iff]
    intro y hy
    simpa using ne_of_mem_of_not_mem hy h
  unfold cstr find
  rw [List.drop_zero, hnone]
  rfl

end Copies

end CLib
