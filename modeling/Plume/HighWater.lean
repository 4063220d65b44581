import Plume.Lookaside

/-! The high water level of a lookaside list. `plm_lookaside_list_free` compares the length with it
before it puts the object in, so a list that is exactly full takes one more. -/

namespace Plume
open CLib

abbrev LlState.len (s : LlState) : ℤ := s.list.ll_list.len

/-- A freed object is at the front of the list, and was not given to `ll_free`. -/
structure KeptFree (obj_hdr : ℕ) (s s' : LlState) : Prop where
  front : s'.list.ll_list.head = some obj_hdr
  len : s'.len = s.len + 1
  owned : s'.owned = s.owned

/-- An object that is freed while the list is below its level is kept. -/
def KeepsBelow (r : LlRun) (op : LlOp) (r' : LlRun) : Prop :=
  match op with
  | .free obj _ => r.st.len < r.st.list.ll_high_level → KeptFree (obj - llnSize) r.st r'.st
  | _ => True

def NotFull (r : LlRun) (op : LlOp) (_ : LlRun) : Prop :=
  match op with
  | .free _ _ => r.st.len ≠ r.st.list.ll_high_level
  | _ => True

section Calls

variable {s s' : LlState} {obj : ℕ} {p : Option ℕ} {ll_alloc : Malloc} {junk : Bytes}
  {inlock_handler : Option (Bytes → Bytes)}

/-- The list and its level do not depend on the bytes of the objects. -/
theorem SameLists.level (h : SameLists s s') :
    s'.len = s.len ∧ s'.list.ll_high_level = s.list.ll_high_level := by
  rw [LlState.len, LlState.len, h.list]
  exact ⟨rfl, rfl⟩

/-- What the list gives is taken off it, and its level stays. -/
theorem llTake_level {s1 : LlState} {obj_hdr : Option ℕ}
    (h : llTake ll_alloc junk s = .ok (obj_hdr, s1)) :
    s1.len ≤ s.len ∧ s1.list.ll_high_level = s.list.ll_high_level := by
  unfold llTake at h
  split_ifs at h with hpos
  · unfold llFromList at h
    cases hhead : s.list.ll_list.head with
    | none => simp [hhead] at h
    | some a =>
      simp only [hhead] at h
      obtain ⟨l, hdel, h⟩ := bind_eq_ok.1 h
      obtain ⟨⟨⟩, -, h⟩ := bind_eq_ok.1 h
      cases h
      rw [Slist.delFront, if_neg (by omega)] at hdel
      split at hdel
      · cases hdel
      · obtain rfl := Except.ok.inj hdel
        refine ⟨?_, rfl⟩
        exact Int.ofNat_le.2 (Nat.sub_le _ 1)
  · unfold llFromSystem at h
    split at h <;> cases h <;> exact ⟨le_rfl, rfl⟩

/-- Allocating takes at most one object from the list. -/
theorem alloc_level (h : lookasideListAlloc ll_alloc junk inlock_handler s = .ok (p, s')) :
    s'.len ≤ s.len ∧ s'.list.ll_high_level = s.list.ll_high_level := by
  obtain ⟨⟨obj_hdr, s1⟩, htake, h⟩ := bind_eq_ok.1 h
  obtain ⟨hlen, hhigh⟩ := (sameLists_lock s).level
  have h1 : s1.len ≤ s.len ∧ s1.list.ll_high_level = s.list.ll_high_level := by
    rw [← hlen, ← hhigh]
    exact llTake_level htake
  have h2 : (llCountAlloc obj_hdr s1).len ≤ s.len ∧
      (llCountAlloc obj_hdr s1).list.ll_high_level = s.list.ll_high_level := h1
  have hsame : SameLists (llCountAlloc obj_hdr s1) s' := by
    cases obj_hdr with
    | none =>
      cases h
      exact sameLists_unlock _
    | some a =>
      obtain ⟨s2, hs2, h⟩ := bind_eq_ok.1 h
      obtain ⟨s3, hs3, h⟩ := bind_eq_ok.1 h
      cases h
      exact ((handle_cases hs2).1.trans (sameLists_unlock s2)).trans (zero_cases hs3).1
  rw [hsame.level.1, hsame.level.2]
  exact h2

/-- Freeing puts the object into the list, unless the list is above its level. -/
theorem free_level (h : lookasideListFree obj inlock_handler s = .ok s') :
    s'.list.ll_high_level = s.list.ll_high_level ∧
      if s.list.ll_high_level < s.len then s'.len = s.len else KeptFree (obj - llnSize) s s' := by
  obtain ⟨⟨⟩, -, h⟩ := bind_eq_ok.1 h
  obtain ⟨s1, hs1, h⟩ := bind_eq_ok.1 h
  obtain ⟨s2, hs2, h⟩ := bind_eq_ok.1 h
  cases h
  have hsame := (sameLists_lock s).trans (handle_cases hs1).1
  have hunlock := sameLists_unlock (llCountFree s2)
  obtain ⟨hlen, hhigh⟩ := hsame.level
  unfold llPutBack at hs2
  rw [hunlock.level.2, ← hlen, ← hhigh]
  split_ifs at hs2 ⊢ with habove
  · cases hs2
    exact ⟨rfl, hunlock.level.1⟩
  · unfold llToList at hs2
    split at hs2
    · exact absurd hs2 nofun
    · cases hs2
      refine ⟨rfl, ⟨by rw [hunlock.list]; rfl, ?_, by rw [hunlock.owned]; exact hsame.owned⟩⟩
      rw [hunlock.level.1, ← hlen]
      exact Nat.cast_succ _

/-- What a call does to a list that is not above its level. -/
theorem llStep_level {r r' : LlRun} {op : LlOp} (h : llStep r op = some r')
    (hle : r.st.len ≤ r.st.list.ll_high_level) :
    r'.st.list.ll_high_level = r.st.list.ll_high_level ∧ KeepsBelow r op r' ∧
      (r'.st.len ≤ r'.st.list.ll_high_level ↔ NotFull r op r') := by
  unfold llStep at h
  cases op with
  | alloc ll_alloc junk inlock_handler =>
    simp only at h
    split at h
    · exact absurd h nofun
    · next halloc =>
      obtain rfl := Option.some.inj h
      obtain ⟨hlen, hhigh⟩ := alloc_level halloc
      exact ⟨hhigh, trivial, iff_of_true (by rw [hhigh]; exact hlen.trans hle) trivial⟩
  | write obj f =>
    simp only at h
    split at h
    · exact absurd h nofun
    · next hwrite =>
      obtain rfl := Option.some.inj h
      obtain ⟨hlen, hhigh⟩ := (write_cases hwrite).1.level
      exact ⟨hhigh, trivial, iff_of_true (by rw [hhigh]; exact hlen.le.trans hle) trivial⟩
  | free obj inlock_handler =>
    simp only at h
    split at h
    · exact absurd h nofun
    · next st hfree =>
      obtain rfl := Option.some.inj h
      obtain ⟨hhigh, hkept⟩ := free_level hfree
      rw [if_neg (not_lt.2 hle)] at hkept
      refine ⟨hhigh, fun _ => hkept, ?_⟩
      have hlen := hkept.len
      change st.len ≤ st.list.ll_high_level ↔ r.st.len ≠ r.st.list.ll_high_level
      constructor <;> intro _ <;> omega

end Calls

section HighWater

variable (high_level obj_sz : ℕ) (tag : UInt32) (zero_memory tag_check thrdsafe : ℤ)
  (mem : ℕ → Option LlObj)
  (ops : List LlOp)

/-- Along a run the list never holds more objects than its level, and keeps those that are freed
below it. -/
def HighWater : Prop :=
  Always llStep (fun r => r.st.len ≤ r.st.list.ll_high_level)
      (llStart high_level obj_sz tag zero_memory tag_check thrdsafe mem) ops ∧
    EachStep llStep KeepsBelow
      (llStart high_level obj_sz tag zero_memory tag_check thrdsafe mem) ops

/-- The level holds along a run exactly where no object is freed while the list is full. -/
theorem highWater_iff : HighWater high_level obj_sz tag zero_memory tag_check thrdsafe mem ops ↔
    EachStep llStep NotFull
      (llStart high_level obj_sz tag zero_memory tag_check thrdsafe mem) ops := by
  have htrue : EachStep llStep (fun _ _ _ => True)
      (llStart high_level obj_sz tag zero_memory tag_check thrdsafe mem) ops :=
    eachStep_of_mem llStep (p := fun _ => True) fun _ _ => trivial
  have halways : Always llStep (fun r => r.st.len ≤ r.st.list.ll_high_level)
        (llStart high_level obj_sz tag zero_memory tag_check thrdsafe mem) ops ↔
      EachStep llStep NotFull
        (llStart high_level obj_sz tag zero_memory tag_check thrdsafe mem) ops :=
    always_iff_of_invariant llStep (I := fun r => r.st.len ≤ r.st.list.ll_high_level)
      (Int.natCast_nonneg high_level) htrue (fun _ h => h)
      (fun _ _ _ hle _ h hle' => (llStep_level h hle).2.2.1 hle')
      (fun _ _ _ hle _ h hfull => (llStep_level h hle).2.2.2 hfull)
  unfold HighWater
  rw [← halways]
  refine and_iff_left_of_imp fun h => ?_
  exact eachStep_of_always llStep h htrue fun _ _ _ hle _ hstep _ => (llStep_level hstep hle).2.1

/-- With level 0 the first object that is freed is put into the list. -/
theorem not_highWater :
    ¬ HighWater 0 8 7 0 0 0 (fun _ => none) [.alloc .bump [1] none, .free 4112 none] := by
  rintro ⟨h, -⟩
  obtain ⟨r, hr, hlen⟩ : ∃ r, run llStep (llStart 0 8 7 0 0 0 fun _ => none) [.alloc .bump [1] none,
    .free 4112 none] =
      some r ∧ ¬ r.st.len ≤ r.st.list.ll_high_level := ⟨_, rfl, by decide⟩
  exact hlen (h.last hr)

end HighWater

end Plume
