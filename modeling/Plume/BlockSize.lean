import Plume.CLib.Multiples
import Plume.Mempool

/-! The block sizes of the memory pool next to `SIZE_MAX`. A size is grown by adding the initial
block size again and again, then the header and the rounding come on top, and `size_t` wraps around
in any of the sums. -/

namespace Plume
open CLib

section Grow

variable {init objsz n r fuel : ℕ}

inductive GrowAt (init objsz : ℕ) : ℕ → Prop
  | start : GrowAt init objsz init
  | next {n : ℕ} : GrowAt init objsz n → n < objsz → GrowAt init objsz (sizeAdd n init)

theorem blkszGrow_ok (h : blkszGrow init objsz fuel n = .ok r) (hn : GrowAt init objsz n) :
    GrowAt init objsz r ∧ objsz ≤ r := by
  induction fuel generalizing n with
  | zero => exact absurd h nofun
  | succ fuel ih =>
    rw [blkszGrow] at h
    split_ifs at h with hlt
    · exact ih h (hn.next hlt)
    · obtain rfl := Except.ok.inj h
      exact ⟨hn, Nat.le_of_not_lt hlt⟩

theorem blkszGrow_error {e : Fault} (h : blkszGrow init objsz fuel n = .error e) (hn : n < 2 ^ 64) :
    ∀ i < fuel, (n + init * i) % 2 ^ 64 < objsz := by
  induction fuel generalizing n with
  | zero => exact fun i hi => absurd hi (Nat.not_lt_zero i)
  | succ fuel ih =>
    rw [blkszGrow] at h
    split_ifs at h with hlt
    intro i hi
    cases i with
    | zero => rwa [Nat.mul_zero, Nat.add_zero, Nat.mod_eq_of_lt hn]
    | succ i =>
      have hi' := ih h (Nat.mod_lt _ (by decide)) i (Nat.lt_of_succ_lt_succ hi)
      rwa [sizeAdd, Nat.mod_add_mod, Nat.add_assoc, Nat.add_comm init, ← Nat.mul_succ] at hi'

theorem GrowAt.mod (h : GrowAt init objsz n) (hlt : init < 2 ^ 64) :
    ∃ k, n = init * k % 2 ^ 64 := by
  induction h with
  | start => exact ⟨1, by rw [Nat.mul_one, Nat.mod_eq_of_lt hlt]⟩
  | next _ _ ih =>
    obtain ⟨k, rfl⟩ := ih
    exact ⟨k + 1, by rw [sizeAdd, Nat.mod_add_mod, Nat.mul_succ]⟩

/-- When the loop ends. The sizes it comes to are the multiples of the initial size modulo the word;
behind `objsz + 1` rounds below the object's size it goes in a circle. -/
theorem blkszGrow_ends_iff (hlt : init < 2 ^ 64) :
    (∃ n, blkszGrow init objsz (objsz + 1) init = .ok n) ↔ objsz ≤ 2 ^ 64 - init.gcd (2 ^ 64) := by
  constructor
  · rintro ⟨n, hn⟩
    obtain ⟨hat, hle⟩ := blkszGrow_ok hn .start
    obtain ⟨k, rfl⟩ := hat.mod hlt
    exact hle.trans (mul_mod_le init k (by decide))
  · intro hle
    cases hgrow : blkszGrow init objsz (objsz + 1) init with
    | ok n => exact ⟨n, rfl⟩
    | error e =>
      obtain ⟨i, hi, hge⟩ := exists_le_mul_mod init (by decide) hle
      have hbelow := blkszGrow_error hgrow hlt i hi
      rw [Nat.mul_succ, Nat.add_comm] at hge
      exact absurd hge (Nat.not_le.2 hbelow)

end Grow

section Sums

variable {init objsz n : ℕ}

/-- A sum of two sizes does not wrap around, or not to something smaller than what is asked for. -/
def SumKept (objsz a b : ℕ) : Prop := a + b < 2 ^ 64 ∨ objsz ≤ sizeAdd a b

inductive FirstSum (init objsz : ℕ) : ℕ → ℕ → Prop
  | header : FirstSum init objsz init memnodeSize
  | round {n : ℕ} : n = max (sizeAdd init memnodeSize) objsz → n % ptrSize ≠ 0 →
    FirstSum init objsz n (ptrSize - n % ptrSize)

inductive NextSum (init objsz : ℕ) : ℕ → ℕ → Prop
  | grow {n : ℕ} : GrowAt init objsz n → n < objsz → NextSum init objsz n init
  | header {n : ℕ} : GrowAt init objsz n → objsz ≤ n → NextSum init objsz n memnodeSize
  | round {n m : ℕ} : GrowAt init objsz n → objsz ≤ n → m = sizeAdd n memnodeSize →
    m % ptrSize ≠ 0 →
    NextSum init objsz m (ptrSize - m % ptrSize)

/-- The first block's size fits a `size_t` together with the header and the rounding. -/
def FitsFirst (init objsz : ℕ) : Prop := max (init + memnodeSize) objsz + (ptrSize - 1) < 2 ^ 64

/-- The header or the rounding wraps around, and what is left is no smaller than the object: a few
bytes. -/
def FitsWrapped (init objsz : ℕ) : Prop :=
  2 ^ 64 ≤ init + memnodeSize + (ptrSize - 1) ∧ objsz ≤ init + memnodeSize - 2 ^ 64

theorem firstSum_kept_iff (hlt : init < 2 ^ 64) (hobj : objsz < 2 ^ 64) :
    (∀ a b, FirstSum init objsz a b → SumKept objsz a b) ↔
      FitsFirst init objsz ∨ FitsWrapped init objsz := by
  constructor
  · intro h
    have hhead := h _ _ .header
    have hrest := fun hm => h _ _ (.round rfl hm)
    unfold SumKept sizeAdd memnodeSize at hhead
    unfold SumKept sizeAdd memnodeSize ptrSize at hrest
    unfold FitsFirst FitsWrapped memnodeSize ptrSize
    omega
  · intro h a b hsum
    unfold FitsFirst FitsWrapped memnodeSize ptrSize at h
    cases hsum with
    | header =>
      unfold SumKept sizeAdd memnodeSize
      omega
    | round hn hm =>
      unfold sizeAdd memnodeSize at hn
      unfold ptrSize at hm
      unfold SumKept sizeAdd ptrSize
      omega

theorem blkszWanted_lt (hinit : 0 < init) (hobj : 0 < objsz) :
    blkszWanted init objsz < objsz + init := by
  unfold blkszWanted
  rcases Nat.lt_or_ge 1 (max 1 (objsz ⌈/⌉ init)) with h1 | h1
  · have hk : init * (max 1 (objsz ⌈/⌉ init) - 1) < objsz :=
      (mul_lt_objsz_iff hinit (by omega)).2 (by omega)
    rw [Nat.mul_sub, Nat.mul_one] at hk
    omega
  · have hmul := Nat.mul_le_mul_left init h1
    omega

theorem blkszWanted_of_le (hinit : 0 < init) (h : objsz ≤ init) :
    blkszWanted init objsz = init := by
  have hone : objsz ⌈/⌉ init ≤ 1 := (ceilDiv_le_iff_le_mul hinit).2 (by rwa [Nat.mul_one])
  rw [blkszWanted, Nat.max_eq_left hone, Nat.mul_one]

/-- As long as the wanted size fits, the loop comes to the multiples up to it. -/
theorem GrowAt.mul (h : GrowAt init objsz n) (hinit : 0 < init)
    (hfit : blkszWanted init objsz < 2 ^ 64) :
    init ≤ n ∧ n ≤ blkszWanted init objsz ∧ (n < objsz → n + init ≤ blkszWanted init objsz) := by
  suffices hmul : ∃ k, 1 ≤ k ∧ k ≤ max 1 (objsz ⌈/⌉ init) ∧ n = init * k by
    obtain ⟨k, hk, hle, rfl⟩ := hmul
    refine ⟨Nat.le_mul_of_pos_right _ hk, Nat.mul_le_mul_left init hle, fun hlt => ?_⟩
    rw [← Nat.mul_succ]
    exact Nat.mul_le_mul_left init ((mul_lt_objsz_iff hinit hk).1 hlt)
  induction h with
  | start => exact ⟨1, le_rfl, Nat.le_max_left .., (Nat.mul_one init).symm⟩
  | next _ hlt ih =>
    obtain ⟨k, hk, hle, rfl⟩ := ih
    have hk' := (mul_lt_objsz_iff hinit hk).1 hlt
    have hmul : init * (k + 1) ≤ blkszWanted init objsz := Nat.mul_le_mul_left init hk'
    refine ⟨k + 1, Nat.le_succ_of_le hk, hk', ?_⟩
    rw [Nat.mul_succ] at hmul ⊢
    exact sizeAdd_eq (by omega)

/-- Below the object's size, a sum that wraps around is smaller than the object. -/
theorem SumKept.lt {a : ℕ} (h : SumKept objsz a init) (ha : a < objsz) (hlt : init < 2 ^ 64)
    (hobj : objsz < 2 ^ 64) : a + init < 2 ^ 64 := by
  unfold SumKept sizeAdd at h
  omega

/-- If no sum of the loop wraps around, then it comes to the wanted size. -/
theorem growAt_wanted (hinit : 0 < init) (hlt : init < 2 ^ 64) (hobj : objsz < 2 ^ 64)
    (h : ∀ n, GrowAt init objsz n → n < objsz → SumKept objsz n init) :
    GrowAt init objsz (blkszWanted init objsz) ∧ blkszWanted init objsz < 2 ^ 64 := by
  suffices hmul : ∀ k, 1 ≤ k → k ≤ max 1 (objsz ⌈/⌉ init) →
      GrowAt init objsz (init * k) ∧ init * k < 2 ^ 64 from hmul _ (Nat.le_max_left ..) le_rfl
  intro k hk
  induction k, hk using Nat.le_induction with
  | base =>
    rw [Nat.mul_one]
    exact fun _ => ⟨.start, hlt⟩
  | succ k hk ih =>
    intro hle
    obtain ⟨hat, -⟩ := ih (Nat.le_of_succ_le hle)
    have hbelow : init * k < objsz := (mul_lt_objsz_iff hinit hk).2 hle
    have hsum := (h _ hat hbelow).lt hbelow hlt hobj
    rw [Nat.mul_succ, ← sizeAdd_eq hsum]
    exact ⟨hat.next hbelow, Nat.mod_lt _ (by decide)⟩

theorem nextSum_kept_iff (hinit : 0 < init) (hlt : init < 2 ^ 64) (hpos : 0 < objsz)
    (hobj : objsz < 2 ^ 64) :
    (∀ a b, NextSum init objsz a b → SumKept objsz a b) ↔
      FitsBlock init objsz ∨ FitsWrapped init objsz := by
  constructor
  · intro h
    obtain ⟨hat, hfit⟩ := growAt_wanted hinit hlt hobj fun n hn hbelow => h _ _ (.grow hn hbelow)
    have hle := objsz_le_blkszWanted hinit objsz
    have hwant := blkszWanted_lt hinit hpos
    have hone : objsz ≤ init → blkszWanted init objsz = init := blkszWanted_of_le hinit
    have hhead := h _ _ (.header hat hle)
    have hrest := fun hm => h _ _ (.round hat hle rfl hm)
    unfold SumKept sizeAdd memnodeSize at hhead
    unfold SumKept sizeAdd memnodeSize ptrSize at hrest
    unfold FitsBlock FitsWrapped memnodeSize ptrSize
    omega
  · intro h a b hsum
    unfold FitsBlock FitsWrapped memnodeSize ptrSize at h
    have hone : objsz ≤ init → blkszWanted init objsz = init := blkszWanted_of_le hinit
    have hfit : blkszWanted init objsz < 2 ^ 64 := by omega
    cases hsum with
    | grow hn hbelow =>
      obtain ⟨-, -, hnext⟩ := hn.mul hinit hfit
      have hsum := hnext hbelow
      exact Or.inl (by omega)
    | header hn hle =>
      obtain ⟨hge, hwant, -⟩ := hn.mul hinit hfit
      unfold SumKept sizeAdd memnodeSize
      omega
    | round hn hle hm hrest =>
      obtain ⟨hge, hwant, -⟩ := hn.mul hinit hfit
      unfold sizeAdd memnodeSize at hm
      unfold ptrSize at hrest
      unfold SumKept sizeAdd ptrSize
      omega

end Sums

section Calls

variable {init objsz a b : ℕ} {r : Option ℕ} {m_alloc : Malloc} {s s1 s' : PoolState}

/-- The first part of `plm_mempool_alloc`: the pool with a current block. -/
def mempoolReady (m_alloc : Malloc) (objsz : ℕ) (s : PoolState) : Option PoolState :=
  if s.pool.m_curr = none then mempoolBlock m_alloc (blkszFirst s.pool.m_init_blksz objsz) s
    else some s

theorem mempoolAlloc_ready : mempoolAlloc m_alloc objsz s = match mempoolReady m_alloc objsz s with
    | none => .ok (none, s)
    | some s1 => mempoolFit m_alloc objsz s1 := by
  unfold mempoolAlloc mempoolReady
  split_ifs <;> rfl

inductive BlkszSum (m_alloc : Malloc) (objsz : ℕ) (s : PoolState) : ℕ → ℕ → Prop
  | first {a b : ℕ} : s.pool.m_curr = none → FirstSum s.pool.m_init_blksz objsz a b →
    BlkszSum m_alloc objsz s a b
  | next {s1 : PoolState} {a b : ℕ} : mempoolReady m_alloc objsz s = some s1 →
    s1.pool.m_curr_free < objsz →
    NextSum s1.pool.m_init_blksz objsz a b → BlkszSum m_alloc objsz s a b

/-- The bytes of the object are in one of the blocks, behind its header. -/
def HasRoom (objsz : ℕ) (s : PoolState) (a : ℕ) : Prop :=
  ∃ b ∈ s.blocks, b.addr + memnodeSize ≤ a ∧ a + objsz ≤ b.fin

/-- A call returns, with `NULL` or with room for the object, and no size on the way wraps around to
something smaller than the object. -/
structure AllocRight (m_alloc : Malloc) (objsz : ℕ) (s : PoolState) : Prop where
  returns : ∃ r s', mempoolAlloc m_alloc objsz s = .ok (r, s') ∧ ∀ a, r = some a →
    HasRoom objsz s' a
  kept : ∀ a b, BlkszSum m_alloc objsz s a b → SumKept objsz a b

structure NextRight (m_alloc : Malloc) (objsz : ℕ) (s : PoolState) : Prop where
  returns : ∃ r s', mempoolFit m_alloc objsz s = .ok (r, s') ∧ ∀ a, r = some a → HasRoom objsz s' a
  kept : s.pool.m_curr_free < objsz → ∀ a b, NextSum s.pool.m_init_blksz objsz a b →
    SumKept objsz a b

/-- When a call on a pool with a current block is right: the object is in the rest of it, or a
block's size fits. Where the size wraps around, it is all right as long as there is no memory for
what is left of it. -/
def NextFits (m_alloc : Malloc) (objsz : ℕ) (s : PoolState) : Prop :=
  objsz ≤ s.pool.m_curr_free ∨ FitsBlock s.pool.m_init_blksz objsz ∨
    FitsWrapped s.pool.m_init_blksz objsz ∧ m_alloc.alloc s.blocks ptrSize = none

/-- When a call on a pool without a block is right: the first block's size fits, and so does a
further one's if there is memory for the first and the rounded initial size is too small for the
object. -/
def FirstFits (m_alloc : Malloc) (objsz : ℕ) (s : PoolState) : Prop :=
  FitsFirst s.pool.m_init_blksz objsz ∧
      (m_alloc.alloc s.blocks (blkszFirst s.pool.m_init_blksz objsz) = none ∨
        objsz ≤ blkszRound s.pool.m_init_blksz ∨ FitsBlock s.pool.m_init_blksz objsz) ∨
    FitsWrapped s.pool.m_init_blksz objsz ∧
      ∀ node, m_alloc.alloc s.blocks (blkszFirst s.pool.m_init_blksz objsz) = some node →
        2 ^ 64 < s.pool.m_init_blksz + memnodeSize ∧
          (objsz = 0 ∨ m_alloc.alloc (⟨node, ptrSize⟩ :: s.blocks) ptrSize = none)

def AllocFits (m_alloc : Malloc) (objsz : ℕ) (s : PoolState) : Prop :=
  if s.pool.m_curr = none then FirstFits m_alloc objsz s else NextFits m_alloc objsz s

/-- The pools that calls come to which all meet the condition. -/
inductive PoolReach (init : ℕ) : PoolState → Prop
  | start : PoolReach init (mempoolInit init)
  | call {m_alloc : Malloc} {objsz : ℕ} {s s' : PoolState} {r : Option ℕ} : PoolReach init s →
    objsz < 2 ^ 64 →
    AllocFits m_alloc objsz s → mempoolAlloc m_alloc objsz s = .ok (r, s') → PoolReach init s'

theorem hasRoom_of_served (h : Served objsz r s s') (hinv : PoolInv init s') :
    ∀ a, r = some a → HasRoom objsz s' a := by
  intro a ha
  obtain ⟨-, ⟨b, hb, hge, hle⟩, -⟩ := h.some a ha
  have hsz := hinv.sizes b hb
  refine ⟨b, hb, hge, ?_⟩
  unfold blkBuf Region.fin at hle
  unfold Region.fin
  simp only at hle
  omega

theorem blkszRound_small {n : ℕ} (hpos : 0 < n) (hlt : n < ptrSize) : blkszRound n = ptrSize := by
  have hsum : n + (ptrSize - n) = ptrSize := Nat.add_sub_of_le hlt.le
  unfold blkszRound
  simp only [Nat.mod_eq_of_lt hlt]
  rw [if_pos hpos.ne', sizeAdd_eq (by rw [hsum]; decide), hsum]

theorem FitsWrapped.rest (h : FitsWrapped init objsz) (hlt : init < 2 ^ 64)
    (hwrap : 2 ^ 64 < init + memnodeSize) :
    objsz ≤ sizeAdd init memnodeSize ∧ 0 < sizeAdd init memnodeSize ∧
      sizeAdd init memnodeSize < ptrSize := by
  unfold FitsWrapped memnodeSize ptrSize at h
  unfold memnodeSize at hwrap
  unfold sizeAdd memnodeSize ptrSize
  omega

/-- The word that is left when the size of a further block wraps around. -/
theorem blkszNext_wrapped (hlt : init < 2 ^ 64) (hpos : 0 < objsz) (h : FitsWrapped init objsz) :
    blkszNext init objsz = .ok ptrSize := by
  have hwrap : 2 ^ 64 < init + memnodeSize ∧ objsz ≤ init := by
    unfold FitsWrapped memnodeSize ptrSize at h
    unfold memnodeSize
    omega
  obtain ⟨-, h0, h8⟩ := h.rest hlt hwrap.1
  have hgrow : blkszGrow init objsz (objsz + 1) init = .ok init := by
    rw [blkszGrow, if_neg (Nat.not_lt.2 hwrap.2)]
  rw [blkszNext, hgrow, ok_bind, blkszRound_small h0 h8]
  rfl

/-- Without a block there is no room for an object at its end. -/
theorem not_hasRoom {node : ℕ} (hpos : 0 < objsz)
    (hapart : ∀ b ∈ s.blocks, Region.Apart ⟨node, ptrSize⟩ b)
    (hblocks : s'.blocks = ⟨node, ptrSize⟩ :: s.blocks) : ¬ HasRoom objsz s'
    (node + memnodeSize) := by
  rintro ⟨b, hb, hge, hle⟩
  rw [hblocks] at hb
  rcases List.mem_cons.1 hb with rfl | hb
  · simp only [Region.fin, memnodeSize, ptrSize] at hle
    omega
  · have h := hapart b hb
    simp only [Region.Apart, Region.fin, memnodeSize, ptrSize] at h hge hle
    omega

/-- A call that is right keeps the invariant of the pool. -/
theorem mempoolFit_fits (hinit : 0 < init) (hlt : init < 2 ^ 64) (h : PoolInv init s)
    (hcurr : s.pool.m_curr ≠ none)
    (hfits : NextFits m_alloc objsz s) : ∃ r s', mempoolFit m_alloc objsz s = .ok
    (r, s') ∧ PoolInv init s' ∧
      ∀ a, r = some a → HasRoom objsz s' a := by
  rcases Nat.lt_or_ge s.pool.m_curr_free objsz with hbig | hle
  · rcases hfits with hle | hfit | ⟨hwrap, hnone⟩
    · exact absurd hbig (Nat.not_lt.2 hle)
    · rw [h.init_eq] at hfit
      obtain ⟨r, s', hr, hinv, hserved⟩ := mempoolFit_spec hinit hfit m_alloc h hcurr
      exact ⟨r, s', hr, hinv, hasRoom_of_served hserved hinv⟩
    · rw [h.init_eq] at hwrap
      refine ⟨none, s, ?_, h, nofun⟩
      rw [mempoolFit, if_pos hbig, h.init_eq, blkszNext_wrapped hlt (by omega) hwrap, ok_bind,
        mempoolBlock, hnone]
      rfl
  · obtain ⟨r, s', hr, hinv, hserved⟩ := mempoolCarve_spec h hcurr hle
    refine ⟨r, s', ?_, hinv, hasRoom_of_served hserved hinv⟩
    rw [mempoolFit, if_neg (Nat.not_lt.2 hle), hr]

theorem nextRight_iff (hinit : 0 < init) (hlt : init < 2 ^ 64) (hobj : objsz < 2 ^ 64)
    (h : PoolInv init s)
    (hcurr : s.pool.m_curr ≠ none) : NextRight m_alloc objsz s ↔ NextFits m_alloc objsz s := by
  constructor
  · rintro ⟨⟨r, s', hr, hroom⟩, hkept⟩
    rw [h.init_eq] at hkept
    rw [NextFits, h.init_eq]
    rcases Nat.lt_or_ge s.pool.m_curr_free objsz with hbig | hle
    · have hpos : 0 < objsz := Nat.zero_lt_of_lt hbig
      rcases (nextSum_kept_iff hinit hlt hpos hobj).1 (hkept hbig) with hfit | hwrap
      · exact Or.inr (Or.inl hfit)
      · refine Or.inr (Or.inr ⟨hwrap, ?_⟩)
        rw [mempoolFit, if_pos hbig, h.init_eq, blkszNext_wrapped hlt hpos hwrap, ok_bind,
          mempoolBlock] at hr
        cases halloc : m_alloc.alloc s.blocks ptrSize with
        | none => rfl
        | some node =>
          rw [halloc] at hr
          cases hr
          exact absurd (hroom _ rfl) (not_hasRoom hpos (m_alloc.fresh _ _ _ halloc).2 rfl)
    · exact Or.inl hle
  · intro hfits
    obtain ⟨r, s', hr, -, hroom⟩ := mempoolFit_fits hinit hlt h hcurr hfits
    refine ⟨⟨r, s', hr, hroom⟩, fun hbig => ?_⟩
    rw [NextFits, h.init_eq] at hfits
    rw [h.init_eq]
    refine (nextSum_kept_iff hinit hlt (Nat.zero_lt_of_lt hbig) hobj).2 ?_
    rcases hfits with hle | hfit | ⟨hwrap, -⟩
    · exact absurd hbig (Nat.not_lt.2 hle)
    · exact Or.inl hfit
    · exact Or.inr hwrap

theorem blkszRound_eq {n : ℕ} (h : n + (ptrSize - 1) < 2 ^ 64) :
    blkszRound n = n + (ptrSize - n % ptrSize) % ptrSize := by
  unfold blkszRound
  simp only
  split_ifs with h0
  · have hrest : (ptrSize - n % ptrSize) % ptrSize = ptrSize - n % ptrSize :=
      Nat.mod_eq_of_lt (Nat.sub_lt (by decide) (Nat.pos_of_ne_zero h0))
    rw [hrest, sizeAdd_eq (by omega)]
  · have h0' : n % ptrSize = 0 := Decidable.not_not.1 h0
    rw [h0', Nat.sub_zero, Nat.mod_self, Nat.add_zero]

/-- The first block holds the header, and the object if that is no larger than the rounded initial
size. -/
theorem FitsFirst.free (h : FitsFirst init objsz) : memnodeSize ≤ blkszFirst init objsz ∧
    (objsz ≤ blkszFirst init objsz - memnodeSize ↔ objsz ≤ blkszRound init) := by
  unfold FitsFirst at h
  have hinit : init + (ptrSize - 1) < 2 ^ 64 := by omega
  have hsum : init + memnodeSize < 2 ^ 64 := by omega
  unfold blkszFirst
  simp only [sizeAdd_eq hsum]
  split_ifs with hle
  · have hround : init + memnodeSize + (ptrSize - 1) < 2 ^ 64 := by omega
    rw [blkszRound_eq hround, blkszRound_eq hinit]
    unfold memnodeSize ptrSize
    omega
  · have hround : objsz + (ptrSize - 1) < 2 ^ 64 := by omega
    rw [blkszRound_eq hround, blkszRound_eq hinit]
    unfold memnodeSize ptrSize
    unfold memnodeSize at hle
    omega

/-- The first block when the header wraps around: there is no room behind it. -/
theorem blkszFirst_wrapped (hlt : init < 2 ^ 64) (h : FitsWrapped init objsz)
    (hwrap : 2 ^ 64 < init + memnodeSize) :
    blkszFirst init objsz = ptrSize := by
  obtain ⟨hle, h0, h8⟩ := h.rest hlt hwrap
  unfold blkszFirst
  simp only
  rw [if_pos hle, blkszRound_small h0 h8]

/-- The first block when nothing is left of the size. -/
theorem blkszFirst_zero (h : FitsWrapped init objsz) (hwrap : init + memnodeSize ≤ 2 ^ 64) :
    objsz = 0 ∧ blkszFirst init objsz = 0 := by
  unfold FitsWrapped at h
  obtain rfl : objsz = 0 := by omega
  refine ⟨rfl, ?_⟩
  unfold blkszFirst
  simp only
  rw [if_pos (Nat.zero_le _)]
  rcases Nat.lt_or_ge (init + memnodeSize) (2 ^ 64) with hlt | hge
  · have hrest : (init + memnodeSize) % ptrSize ≠ 0 ∧
        init + memnodeSize + (ptrSize - (init + memnodeSize) % ptrSize) = 2 ^ 64 := by
      unfold memnodeSize ptrSize at *
      omega
    rw [sizeAdd_eq hlt]
    unfold blkszRound
    simp only
    rw [if_pos hrest.1, sizeAdd, hrest.2, Nat.mod_self]
  · rw [sizeAdd, Nat.le_antisymm hwrap hge, Nat.mod_self]
    rfl

theorem not_fitsFirst (h : FitsWrapped init objsz) : ¬ FitsFirst init objsz := by
  unfold FitsWrapped at h
  unfold FitsFirst
  omega

theorem not_fitsBlock (h : FitsWrapped init objsz) : ¬ FitsBlock init objsz := by
  have hle := init_le_blkszWanted init objsz
  unfold FitsWrapped at h
  unfold FitsBlock
  omega

/-- Behind the first block the condition is the one for a pool with a block. -/
theorem firstFits_iff_next (hlt : init < 2 ^ 64) (h : PoolInv init s)
    (hfirst : FitsFirst init objsz ∨ FitsWrapped init objsz ∧ 2 ^ 64 < init + memnodeSize)
    (hb : mempoolBlock m_alloc (blkszFirst init objsz) s = some s1) :
    PoolInv init s1 ∧ s1.pool.m_curr ≠ none ∧
      (FirstFits m_alloc objsz s ↔ NextFits m_alloc objsz s1) := by
  have hsz : memnodeSize ≤ blkszFirst init objsz := by
    rcases hfirst with hfit | ⟨hwrap, hover⟩
    · exact hfit.free.1
    · rw [blkszFirst_wrapped hlt hwrap hover]
  obtain ⟨h1, -, -, hcurr, hfree⟩ := mempoolBlock_inv h hsz hb
  refine ⟨h1, hcurr, ?_⟩
  obtain ⟨node, halloc, hs1⟩ := Option.map_eq_some_iff.1 hb
  have hblocks : s1.blocks = ⟨node, blkszFirst init objsz⟩ :: s.blocks := by rw [← hs1]
  unfold FirstFits NextFits
  rw [h.init_eq, h1.init_eq, hfree, hblocks, halloc]
  rcases hfirst with hfit | ⟨hwrap, hover⟩
  · have hnot : ¬ FitsWrapped init objsz := fun hwrap => not_fitsFirst hwrap hfit
    simp only [hfit, hnot, hfit.free.2, true_and, false_and, or_false, reduceCtorEq, false_or]
  · rw [blkszFirst_wrapped hlt hwrap hover]
    simp only [hwrap, hover, not_fitsFirst hwrap, not_fitsBlock hwrap, true_and, false_and,
      false_or, Option.some.injEq, forall_eq']
    exact or_congr_left Nat.le_zero.symm

/-- A call that is right keeps the invariant of the pool. -/
theorem mempoolAlloc_fits (hinit : 0 < init) (hlt : init < 2 ^ 64) (h : PoolInv init s)
    (hfits : AllocFits m_alloc objsz s) : ∃ r s', mempoolAlloc m_alloc objsz s = .ok
    (r, s') ∧ PoolInv init s' ∧
      ∀ a, r = some a → HasRoom objsz s' a := by
  rw [mempoolAlloc_ready, mempoolReady]
  rw [AllocFits] at hfits
  split_ifs at hfits ⊢ with hcurr
  · rw [h.init_eq]
    cases hb : mempoolBlock m_alloc (blkszFirst init objsz) s with
    | none => exact ⟨none, s, rfl, h, nofun⟩
    | some s1 =>
      have hfirst : FitsFirst init objsz ∨
        FitsWrapped init objsz ∧ 2 ^ 64 < init + memnodeSize := by
        obtain ⟨node, halloc, -⟩ := Option.map_eq_some_iff.1 hb
        rw [FirstFits, h.init_eq] at hfits
        rcases hfits with ⟨hfit, -⟩ | ⟨hwrap, hnode⟩
        · exact Or.inl hfit
        · exact Or.inr ⟨hwrap, (hnode node halloc).1⟩
      obtain ⟨h1, hcurr1, hiff⟩ := firstFits_iff_next hlt h hfirst hb
      exact mempoolFit_fits hinit hlt h1 hcurr1 (hiff.1 hfits)
  · exact mempoolFit_fits hinit hlt h hcurr hfits

/-- Only a call that fails at once leaves a pool without a block. -/
theorem mempoolAlloc_curr (hcall : mempoolAlloc m_alloc objsz s = .ok (r, s'))
    (hcurr : s'.pool.m_curr = none) :
    s' = s := by
  have hcarve : ∀ s1 : PoolState, mempoolCarve objsz s1 ≠ .ok (r, s') := by
    intro s1 h
    unfold mempoolCarve at h
    split at h
    · exact absurd h nofun
    · cases h
      exact absurd hcurr nofun
  have hfit : ∀ s1 : PoolState, s1.pool.m_curr ≠ none → mempoolFit m_alloc objsz s1 ≠ .ok
    (r, s') := by
    intro s1 h1 h
    unfold mempoolFit at h
    split_ifs at h
    · obtain ⟨blksz, -, h⟩ := bind_eq_ok.1 h
      split at h
      · cases h
        exact h1 hcurr
      · exact hcarve _ h
    · exact hcarve _ h
  unfold mempoolAlloc at hcall
  split_ifs at hcall with h0
  · split at hcall
    · cases hcall
      rfl
    · rename_i s1 hb
      obtain ⟨node, -, rfl⟩ := Option.map_eq_some_iff.1 hb
      exact absurd hcall (hfit _ nofun)
  · exact absurd hcall (hfit s h0)

theorem PoolReach.inv (h : PoolReach init s) (hinit : 0 < init) (hlt : init < 2 ^ 64) :
    PoolInv init s ∧ (s.pool.m_curr = none → s.blocks = []) := by
  induction h with
  | start => exact ⟨poolInv_init init, fun _ => rfl⟩
  | call _ _ hfits hcall ih =>
    obtain ⟨r, s', hr, hinv, -⟩ := mempoolAlloc_fits hinit hlt ih.1 hfits
    rw [hr] at hcall
    cases hcall
    refine ⟨hinv, fun hcurr => ?_⟩
    obtain rfl := mempoolAlloc_curr hr hcurr
    exact ih.2 hcurr

/-- A block of no bytes: the object of no bytes that is carved out of it lies behind it. -/
theorem not_nextRight_zero (hblocks : s.blocks = []) (hb : mempoolBlock m_alloc 0 s = some s1) :
    ¬ NextRight m_alloc 0 s1 := by
  rintro ⟨⟨r, s', hr, hroom⟩, -⟩
  obtain ⟨node, -, rfl⟩ := Option.map_eq_some_iff.1 hb
  simp only [mempoolFit, gt_iff_lt, Nat.not_lt_zero, if_false, mempoolCarve] at hr
  cases hr
  obtain ⟨b, hb, -, hle⟩ := hroom _ rfl
  rw [hblocks, List.mem_singleton] at hb
  rw [hb] at hle
  simp only [Region.fin, memnodeSize] at hle
  omega

theorem allocRight_iff_parts : AllocRight m_alloc objsz s ↔
    (s.pool.m_curr = none → ∀ a b, FirstSum s.pool.m_init_blksz objsz a b → SumKept objsz a b) ∧
      ∀ s1, mempoolReady m_alloc objsz s = some s1 → NextRight m_alloc objsz s1 := by
  constructor
  · rintro ⟨hreturns, hkept⟩
    refine ⟨fun hcurr a b hsum => hkept a b (.first hcurr hsum), fun s1 hs1 => ⟨?_, ?_⟩⟩
    · rwa [mempoolAlloc_ready, hs1] at hreturns
    · exact fun hbig a b hsum => hkept a b (.next hs1 hbig hsum)
  · rintro ⟨hfirst, hnext⟩
    constructor
    · rw [mempoolAlloc_ready]
      cases hs1 : mempoolReady m_alloc objsz s with
      | none => exact ⟨none, s, rfl, nofun⟩
      | some s1 => exact (hnext s1 hs1).returns
    · intro a b hsum
      cases hsum with
      | first hcurr hsum => exact hfirst hcurr a b hsum
      | next hs1 hbig hsum => exact (hnext _ hs1).kept hbig a b hsum

theorem firstRight_iff (hinit : 0 < init) (hlt : init < 2 ^ 64) (hobj : objsz < 2 ^ 64)
    (h : PoolInv init s)
    (hcurr : s.pool.m_curr = none) (hblocks : s.blocks = []) :
    AllocRight m_alloc objsz s ↔ FirstFits m_alloc objsz s := by
  have hready : mempoolReady m_alloc objsz s = mempoolBlock m_alloc (blkszFirst init objsz) s := by
    rw [mempoolReady, if_pos hcurr, h.init_eq]
  rw [allocRight_iff_parts, hready, h.init_eq]
  simp only [hcurr, forall_const, firstSum_kept_iff hlt hobj]
  cases hb : mempoolBlock m_alloc (blkszFirst init objsz) s with
  | none =>
    have halloc : m_alloc.alloc s.blocks (blkszFirst init objsz) = none :=
      Option.map_eq_none_iff.1 hb
    simp only [FirstFits, h.init_eq, halloc, reduceCtorEq, true_or, and_true, false_implies,
      implies_true]
  | some s1 =>
    simp only [Option.some.injEq, forall_eq']
    by_cases hfirst : FitsFirst init objsz ∨ FitsWrapped init objsz ∧ 2 ^ 64 < init + memnodeSize
    · obtain ⟨h1, hcurr1, hiff⟩ := firstFits_iff_next hlt h hfirst hb
      rw [hiff, nextRight_iff hinit hlt hobj h1 hcurr1]
      exact and_iff_right (hfirst.imp_right And.left)
    · obtain ⟨hnot, hwrap⟩ := not_or.1 hfirst
      constructor
      · rintro ⟨hfit | hover, hnext⟩
        · exact absurd hfit hnot
        · obtain ⟨rfl, hzero⟩ :=
            blkszFirst_zero hover (Nat.le_of_not_lt fun hlt => hwrap ⟨hover, hlt⟩)
          rw [hzero] at hb
          exact absurd hnext (not_nextRight_zero hblocks hb)
      · intro hfits
        obtain ⟨node, halloc, -⟩ := Option.map_eq_some_iff.1 hb
        rw [FirstFits, h.init_eq] at hfits
        rcases hfits with ⟨hfit, -⟩ | ⟨hover, hnode⟩
        · exact absurd hfit hnot
        · exact absurd ⟨hover, (hnode node halloc).1⟩ hwrap

/-- When a call is right. -/
theorem allocRight_iff (hinit : 0 < init) (hlt : init < 2 ^ 64) (h : PoolReach init s)
    (m_alloc : Malloc)
    (hobj : objsz < 2 ^ 64) : AllocRight m_alloc objsz s ↔ AllocFits m_alloc objsz s := by
  obtain ⟨hinv, hempty⟩ := h.inv hinit hlt
  rw [AllocFits]
  split_ifs with hcurr
  · exact firstRight_iff hinit hlt hobj hinv hcurr (hempty hcurr)
  · rw [allocRight_iff_parts, mempoolReady, if_neg hcurr, ← nextRight_iff hinit hlt hobj hinv hcurr]
    simp only [hcurr, false_implies, true_and, Option.some.injEq, forall_eq']

/-- A new pool, and an object that fits into the first block. -/
theorem allocRight_iff_new : AllocRight .bump 100 (mempoolInit 1024) := by
  have hfits : AllocFits .bump 100 (mempoolInit 1024) := by
    refine (if_pos rfl).mpr ?_
    exact Or.inl ⟨by unfold FitsFirst; decide, Or.inr (Or.inl (by decide))⟩
  exact (allocRight_iff (by decide) (by decide) .start .bump (by decide)).2 hfits

/-- Where the loop does not end, the call does not return. -/
theorem not_nextRight_loop (hlt : s.pool.m_init_blksz < 2 ^ 64) (hbig : s.pool.m_curr_free < objsz)
    (hgcd : 2 ^ 64 - s.pool.m_init_blksz.gcd (2 ^ 64) < objsz) : ¬ NextRight m_alloc objsz s := by
  rintro ⟨⟨r, s', hr, -⟩, -⟩
  rw [mempoolFit, if_pos hbig] at hr
  obtain ⟨blksz, hnext, -⟩ := bind_eq_ok.1 hr
  obtain ⟨n, hgrow, -⟩ := bind_eq_ok.1 hnext
  exact absurd ((blkszGrow_ends_iff hlt).1 ⟨n, hgrow⟩) (Nat.not_le.2 hgcd)

/-- A length of `-1`, as `size_t`, in a new pool: the first block is one of no bytes, and the loop
goes through the multiples of 1024 without end. -/
theorem not_allocRight : ¬ AllocRight .bump (2 ^ 64 - 1) (mempoolInit 1024) := by
  intro hright
  have hblock : mempoolReady .bump (2 ^ 64 - 1) (mempoolInit 1024) = mempoolBlock .bump 0
    (mempoolInit 1024) := rfl
  cases hb : mempoolBlock .bump 0 (mempoolInit 1024) with
  | none => exact absurd hb (by decide)
  | some s1 =>
    obtain ⟨node, -, rfl⟩ := Option.map_eq_some_iff.1 hb
    have hfree : sizeT ((0 : ℕ) - memnodeSize) < 2 ^ 64 - 1 := by decide
    have hgcd : 2 ^ 64 - Nat.gcd 1024 (2 ^ 64) < 2 ^ 64 - 1 := by decide
    have hnext := (allocRight_iff_parts.1 hright).2 _ (hblock.trans hb)
    exact not_nextRight_loop (show 1024 < 2 ^ 64 by decide) hfree hgcd hnext

end Calls

end Plume
