import Plume.Moves

/-! The slots of the threads. A number of the counter can come twice, since threads that are
through give theirs back, but none does before the shutdown, and behind it no thread enters
`tm_proc` any more. -/

namespace Plume
open CLib

def InProc (s : Threads) (t : ℕ) : Prop := (s.point t).inProc = true

/-- A thread that has its number and has not given it back. -/
def Point.counted : Point → Bool
  | .check | .dec => true
  | p => p.inProc

/-- A thread that has had a number. -/
def Point.seated (p : Point) : Bool := p.counted || p = .done

/-- No two threads inside `tm_proc` share a slot; the slots of the workers lie between 1 and
`tm_thrdn - 1`. -/
structure SlotsExclusive (s : Threads) : Prop where
  distinct : ∀ t u, InProc s t → InProc s u → s.curr_slot t = s.curr_slot u → t = u
  range : ∀ i, i ≠ 0 → (s.point i).seated = true →
    1 ≤ s.curr_slot i ∧ s.curr_slot i ≤ s.tm_thrdn - 1

def crew (s : Threads) : Finset ℕ :=
  (Finset.range s.tm_thrdn).filter fun i => i ≠ 0 ∧ (s.point i).counted = true

/-- A thread whose slot no other one may have. -/
def Holds (s : Threads) (i : ℕ) : Prop :=
  (s.point i).inProc = true ∨ (s.tm_status ≠ .shutdown ∧ (s.point i).counted = true)

/-- The points of `plm_thread_proc`, where the main thread never is. -/
def Point.worker : Point → Bool
  | .wait | .inc | .check | .dec => true
  | _ => false

structure Seats (s : Threads) : Prop where
  main : s.curr_slot 0 = 0 ∧ (s.point 0).worker = false
  exist : ∀ i, i ≠ 0 → s.point i ≠ .absent → i < s.tm_thrdn
  early : (s.point 0).early = true → s.e_signaled = false
  start : s.e_signaled = false → ∀ i, i ≠ 0 → s.point i = .absent ∨ s.point i = .wait
  count : s.tm_active_thrdn = (crew s).card
  last : s.tm_status ≠ .shutdown → ∀ i, i ≠ 0 → s.point i ≠ .dec ∧ s.point i ≠ .done
  below : s.tm_status ≠ .shutdown → ∀ i, i ≠ 0 → (s.point i).counted = true →
    s.curr_slot i ≤ s.tm_active_thrdn
  range : ∀ i, i ≠ 0 → (s.point i).seated = true →
    1 ≤ s.curr_slot i ∧ s.curr_slot i ≤ s.tm_thrdn - 1
  distinct : ∀ i j, i ≠ 0 → j ≠ 0 → Holds s i → Holds s j → s.curr_slot i = s.curr_slot j → i = j

theorem Point.counted_of_inProc {p : Point} (h : p.inProc = true) : p.counted = true := by
  cases p <;> simp_all [Point.inProc, Point.counted]

theorem Seats.exclusive {s : Threads} (h : Seats s) : SlotsExclusive s where
  range := h.range
  distinct t u ht hu heq := by
    have hseat : ∀ v, InProc s v → v ≠ 0 → 1 ≤ s.curr_slot v := by
      intro v hv hv0
      exact (h.range v hv0 (by simp [Point.seated, Point.counted_of_inProc hv])).1
    rcases eq_or_ne t 0 with rfl | ht0
    · rcases eq_or_ne u 0 with rfl | hu0
      · rfl
      · have := hseat u hu hu0
        rw [← heq, h.main.1] at this
        omega
    · rcases eq_or_ne u 0 with rfl | hu0
      · have := hseat t ht ht0
        rw [heq, h.main.1] at this
        omega
      · exact h.distinct t u ht0 hu0 (.inl ht) (.inl hu) heq

theorem seats_boot (thrdn : ℕ) (cpu : Option CpuAffinity) : Seats (threadsBoot thrdn cpu) := by
  have habs : ∀ i, i ≠ 0 → (threadsBoot thrdn cpu).point i = .absent := fun i hi => if_neg hi
  refine ⟨⟨rfl, rfl⟩, fun i hi h => absurd (habs i hi) h, fun _ => rfl,
    fun _ i hi => .inl (habs i hi), ?_,
    fun _ i hi => by simp [habs i hi], fun _ i hi hc => ?_, fun i hi hc => ?_, fun i j hi _ hh =>
      ?_⟩
  · symm
    refine Finset.card_eq_zero.2 (Finset.filter_eq_empty_iff.2 fun i _ h => ?_)
    rw [habs i h.1] at h
    simp [Point.counted, Point.inProc] at h
  · simp [habs i hi, Point.counted, Point.inProc] at hc
  · simp [habs i hi, Point.seated, Point.counted, Point.inProc] at hc
  · simp [Holds, habs i hi, Point.counted, Point.inProc] at hh

section Step

variable {s s' : Threads}

/-- A step that leaves the numbers alone. A worker only goes into `tm_proc` while there is no
shutdown, and where the shutdown is taken back there are no workers with a number yet. -/
theorem Seats.same (h : Seats s) (hn : s'.tm_thrdn = s.tm_thrdn)
    (ha : s'.tm_active_thrdn = s.tm_active_thrdn)
    (hslot : s'.curr_slot = s.curr_slot) (hmain : (s'.point 0).worker = false)
    (hexist : ∀ i, i ≠ 0 → s'.point i ≠ .absent → i < s.tm_thrdn)
    (hearly : (s'.point 0).early = true → s'.e_signaled = false)
    (hstart : s'.e_signaled = false → ∀ i, i ≠ 0 → s'.point i = .absent ∨ s'.point i = .wait)
    (hcounted : ∀ i, i ≠ 0 → (s'.point i).counted = (s.point i).counted)
    (hdone : ∀ i, i ≠ 0 → s'.point i = .done → s.point i = .done)
    (hlast : s'.tm_status ≠ .shutdown → ∀ i, i ≠ 0 → s'.point i ≠ .dec ∧ s'.point i ≠ .done)
    (hback : s'.tm_status ≠ .shutdown → s.tm_status ≠ .shutdown ∨ ∀ i, i ≠ 0 →
      (s.point i).counted = false)
    (hproc : ∀ i, i ≠ 0 → (s'.point i).inProc = true → Holds s i) : Seats s' := by
  have hholds : ∀ i, i ≠ 0 → Holds s' i → Holds s i := by
    rintro i hi (hp | ⟨hst, hc⟩)
    · exact hproc i hi hp
    · rw [hcounted i hi] at hc
      rcases hback hst with hb | hb
      · exact .inr ⟨hb, hc⟩
      · exact absurd (hb i hi) (by simp [hc])
  have hcrew : crew s' = crew s := by
    unfold crew
    rw [hn]
    refine Finset.filter_congr fun i _ => ?_
    rcases eq_or_ne i 0 with rfl | hi
    · simp
    · rw [hcounted i hi]
  refine ⟨⟨hslot ▸ h.main.1, hmain⟩, hn ▸ hexist, hearly, hstart, by rw [ha, hcrew, h.count], hlast,
    ?_, ?_, ?_⟩
  · intro hst i hi hc
    rw [hcounted i hi] at hc
    rw [hslot, ha]
    rcases hback hst with hb | hb
    · exact h.below hb i hi hc
    · exact absurd (hb i hi) (by simp [hc])
  · intro i hi hs
    rw [hslot, hn]
    refine h.range i hi ?_
    simp only [Point.seated, Bool.or_eq_true, decide_eq_true_eq] at hs ⊢
    rw [hcounted i hi] at hs
    exact hs.imp_right (hdone i hi)
  · intro i j hi hj hhi hhj heq
    rw [hslot] at heq
    exact h.distinct i j hi hj (hholds i hi hhi) (hholds j hj hhj) heq

/-- The parts of the state that have nothing to do with slots. -/
theorem Seats.congr (h : Seats s) (hn : s'.tm_thrdn = s.tm_thrdn)
    (ha : s'.tm_active_thrdn = s.tm_active_thrdn)
    (hst : s'.tm_status = s.tm_status) (he : s'.e_signaled = s.e_signaled)
    (hslot : s'.curr_slot = s.curr_slot) (hp : s'.point = s.point) : Seats s' :=
  h.same hn ha hslot (hp ▸ h.main.2) (hp ▸ h.exist) (by rw [hp, he]; exact h.early)
    (by rw [hp, he]; exact h.start)
    (fun i _ => by rw [hp]) (fun i _ hd => by rwa [hp] at hd) (by rw [hp, hst]; exact h.last)
    (fun hb => .inl (hst ▸ hb)) fun i _ hi => .inl (hp ▸ hi)

theorem Seats.main_goto (h : Seats s) (p : Point) (hw : p.worker = false)
    (he : p.early = true → s.e_signaled = false) :
    Seats (s.goto 0 p) := by
  have hp : ∀ i, i ≠ 0 → (s.goto 0 p).point i = s.point i := fun i hi => if_neg hi
  refine h.same rfl rfl rfl hw (fun i hi hx => h.exist i hi (hp i hi ▸ hx)) he (fun hsig i hi => ?_)
    (fun i hi => by rw [hp i hi]) (fun i hi hd => by rwa [hp i hi] at hd) (fun hst i hi => ?_) .inl
    fun i hi hx => .inl (hp i hi ▸ hx)
  · rw [hp i hi]
    exact h.start hsig i hi
  · rw [hp i hi]
    exact h.last hst i hi

/-- A worker moves on, on the same side of the counter. -/
theorem Seats.worker_goto {t : ℕ} {p : Point} (h : Seats s) (ht : t ≠ 0) (hlt : t < s.tm_thrdn)
    (hsig : s.e_signaled = false → p = .wait) (hc : p.counted = (s.point t).counted)
    (hd : p ≠ .done)
    (hdec : p = .dec → s.tm_status = .shutdown) (hin : p.inProc = true → Holds s t) :
    Seats (s.goto t p) := by
  have hself : (s.goto t p).point t = p := if_pos rfl
  have hother : ∀ i, i ≠ t → (s.goto t p).point i = s.point i := fun i hi => if_neg hi
  refine h.same rfl rfl rfl (hother 0 ht.symm ▸ h.main.2) (fun i hi hx => ?_) (fun he => ?_)
    (fun hs i hi => ?_) (fun i hi => ?_)
    (fun i hi hx => ?_) (fun hst i hi => ?_) .inl fun i hi hx => ?_
  · rcases eq_or_ne i t with rfl | hit
    · exact hlt
    · exact h.exist i hi (hother i hit ▸ hx)
  · exact h.early (hother 0 ht.symm ▸ he)
  · rcases eq_or_ne i t with rfl | hit
    · exact .inr (hself.trans (hsig hs))
    · rw [hother i hit]
      exact h.start hs i hi
  · rcases eq_or_ne i t with rfl | hit
    · rw [hself, hc]
    · rw [hother i hit]
  · rcases eq_or_ne i t with rfl | hit
    · exact absurd (hself.symm.trans hx) hd
    · exact hother i hit ▸ hx
  · rcases eq_or_ne i t with rfl | hit
    · rw [hself]
      exact ⟨fun hp => hst (hdec hp), hd⟩
    · rw [hother i hit]
      exact h.last hst i hi
  · rcases eq_or_ne i t with rfl | hit
    · exact hin (hself ▸ hx)
    · exact .inl (hother i hit ▸ hx)

/-- A thread inside `plm_thread_proc` is not the main thread. -/
theorem Seats.worker_ne_zero (h : Seats s) {i : ℕ} (hi : (s.point i).worker = true) : i ≠ 0 := by
  rintro rfl
  exact absurd (hi.symm.trans h.main.2) (by simp)

theorem Seats.lt (h : Seats s) {i : ℕ} (hi : i ≠ 0) {p : Point} (hp : s.point i = p)
    (hne : p ≠ .absent) :
    i < s.tm_thrdn := h.exist i hi (by rw [hp]; exact hne)

theorem Seats.signaled (h : Seats s) {i : ℕ} (hi : i ≠ 0) {p : Point} (hp : s.point i = p)
    (h1 : p ≠ .absent) (h2 : p ≠ .wait) : s.e_signaled = true := by
  by_contra hs
  rcases h.start (by simpa using hs) i hi with ha | hw
  · exact h1 (hp.symm.trans ha)
  · exact h2 (hp.symm.trans hw)

/-- `plm_disp_proc` goes on, in a worker or in the main thread. -/
theorem Seats.proc_goto {t : ℕ} {p p₀ : Point} (h : Seats s) (hp₀ : s.point t = p₀)
    (h₀ : p₀.inProc = true)
    (hp : p.inProc = true) : Seats (s.goto t p) := by
  have hne : ∀ q : Point, q.inProc = false → p₀ ≠ q := by
    rintro q hq rfl
    simp [hq] at h₀
  have hnp : ∀ q : Point, q.inProc = false → p ≠ q := by
    rintro q hq rfl
    simp [hq] at hp
  rcases eq_or_ne t 0 with rfl | ht
  · refine h.main_goto p ?_ fun he => ?_
    all_goals cases p <;> simp_all [Point.early, Point.inProc, Point.worker]
  · have hsig := h.signaled ht hp₀ (hne .absent rfl) (hne .wait rfl)
    refine h.worker_goto ht (h.lt ht hp₀ (hne .absent rfl)) (fun hs => ?_) ?_ (hnp .done rfl)
      (fun hd => absurd hd (hnp .dec rfl)) fun _ => .inl (by rw [hp₀, h₀])
    · rw [hsig] at hs
      exact absurd hs (by simp)
    · rw [hp₀, Point.counted_of_inProc h₀, Point.counted_of_inProc hp]

theorem Seats.leave {t : ℕ} {p₀ : Point} (h : Seats s) (hp₀ : s.point t = p₀)
    (h₀ : p₀.inProc = true) :
    Seats (s.leave t) := by
  have hne : ∀ q : Point, q.inProc = false → p₀ ≠ q := by
    rintro q hq rfl
    simp [hq] at h₀
  unfold Threads.leave
  rcases eq_or_ne t 0 with rfl | ht
  · exact h.main_goto .exit rfl (by simp [Point.early])
  · rw [if_neg ht]
    have hsig := h.signaled ht hp₀ (hne .absent rfl) (hne .wait rfl)
    refine h.worker_goto ht (h.lt ht hp₀ (hne .absent rfl)) (fun hs => ?_) ?_ (by simp) (by simp)
      (by simp [Point.inProc])
    · rw [hsig] at hs
      exact absurd hs (by simp)
    · rw [hp₀, Point.counted_of_inProc h₀]
      rfl

theorem mem_crew {i : ℕ} : i ∈ crew s ↔ i < s.tm_thrdn ∧ i ≠ 0 ∧ (s.point i).counted = true := by
  rw [crew, Finset.mem_filter, Finset.mem_range]

theorem crew_insert {i : ℕ} (hn : s'.tm_thrdn = s.tm_thrdn)
    (hp : ∀ x, x ≠ i → s'.point x = s.point x)
    (hi : i ≠ 0) (hlt : i < s.tm_thrdn) (hc : (s'.point i).counted = true) :
    crew s' = insert i (crew s) := by
  ext x
  rw [Finset.mem_insert, mem_crew, mem_crew, hn]
  rcases eq_or_ne x i with rfl | hx
  · simp [hi, hlt, hc]
  · rw [hp x hx]
    simp [hx]

theorem crew_erase {i : ℕ} (hn : s'.tm_thrdn = s.tm_thrdn)
    (hp : ∀ x, x ≠ i → s'.point x = s.point x)
    (hc : (s'.point i).counted = false) : crew s' = (crew s).erase i := by
  ext x
  rw [Finset.mem_erase, mem_crew, mem_crew, hn]
  rcases eq_or_ne x i with rfl | hx
  · simp [hc]
  · rw [hp x hx]
    simp [hx]

theorem card_crew_le (s : Threads) : (crew s).card ≤ s.tm_thrdn - 1 := by
  have hsub : crew s ⊆ (Finset.range s.tm_thrdn).erase 0 := by
    intro i hi
    rw [mem_crew] at hi
    exact Finset.mem_erase.2 ⟨hi.2.1, Finset.mem_range.2 hi.1⟩
  refine (Finset.card_le_card hsub).trans ?_
  rcases Nat.eq_zero_or_pos s.tm_thrdn with h0 | hpos
  · simp [h0]
  · rw [Finset.card_erase_of_mem (Finset.mem_range.2 hpos), Finset.card_range]

/-- A thread gets its number, which no thread that may come into `tm_proc` has. -/
theorem Seats.inc {i : ℕ} (h : Seats s) (hi : s.point i = .inc)
    (hn : s'.tm_thrdn = s.tm_thrdn) (ha : s'.tm_active_thrdn = s.tm_active_thrdn + 1)
    (hst : s'.tm_status = s.tm_status) (he : s'.e_signaled = s.e_signaled)
    (hnew : s'.curr_slot i = s.tm_active_thrdn + 1)
    (hold : ∀ x, x ≠ i → s'.curr_slot x = s.curr_slot x)
    (hself : s'.point i = .check) (hother : ∀ x, x ≠ i → s'.point x = s.point x) : Seats s' := by
  have hi0 : i ≠ 0 := h.worker_ne_zero (by rw [hi]; rfl)
  have hlt := h.lt hi0 hi (by simp)
  have hsig := h.signaled hi0 hi (by simp) (by simp)
  have hcard : (crew s').card = s.tm_active_thrdn + 1 := by
    rw [crew_insert hn hother hi0 hlt (by rw [hself]; rfl), h.count, Finset.card_insert_of_notMem]
    rw [mem_crew, hi]
    simp [Point.counted, Point.inProc]
  have hmax : s.tm_active_thrdn + 1 ≤ s'.tm_thrdn - 1 := hcard ▸ card_crew_le s'
  have hbelow : ∀ j, j ≠ 0 → j ≠ i → Holds s' j → s.tm_status ≠ .shutdown →
      s.curr_slot j < s.tm_active_thrdn + 1 := by
    intro j hj hji hh hs
    refine Nat.lt_succ_of_le (h.below hs j hj ?_)
    rw [← hother j hji]
    exact hh.elim Point.counted_of_inProc And.right
  have hstill : ∀ j, j ≠ i → Holds s' j → Holds s j := by
    intro j hji hh
    unfold Holds at hh
    rwa [hother j hji, hst] at hh
  refine ⟨⟨?_, hother 0 hi0.symm ▸ h.main.2⟩, fun j hj hx => ?_, fun hx => ?_, fun hs => ?_,
    ha.trans hcard.symm,
    fun hs j hj => ?_, fun hs j hj hc => ?_, fun j hj hc => ?_, fun j k hj hk hhj hhk heq => ?_⟩
  · rw [hold 0 hi0.symm, h.main.1]
  · rw [hn]
    rcases eq_or_ne j i with rfl | hji
    · exact hlt
    · exact h.exist j hj (hother j hji ▸ hx)
  · exact he.trans (h.early (hother 0 hi0.symm ▸ hx))
  · rw [he, hsig] at hs
    exact absurd hs (by simp)
  · rcases eq_or_ne j i with rfl | hji
    · simp [hself]
    · rw [hother j hji]
      exact h.last (hst ▸ hs) j hj
  · rw [ha]
    rcases eq_or_ne j i with rfl | hji
    · exact hnew.le
    · rw [hold j hji]
      rw [hother j hji] at hc
      exact (h.below (hst ▸ hs) j hj hc).trans (Nat.le_succ _)
  · rcases eq_or_ne j i with rfl | hji
    · rw [hnew]
      exact ⟨Nat.succ_pos _, hmax⟩
    · rw [hold j hji, hn]
      exact h.range j hj (hother j hji ▸ hc)
  · -- a thread at `check` holds its slot only while there is no shutdown
    have hopen : Holds s' i → s.tm_status ≠ .shutdown := by
      rintro (hp | ⟨hs, -⟩)
      · simp [hself, Point.inProc] at hp
      · exact hst ▸ hs
    rcases eq_or_ne j i with rfl | hji
    · rcases eq_or_ne k j with rfl | hkj
      · rfl
      · have := hbelow k hk hkj hhk (hopen hhj)
        rw [hnew, hold k hkj] at heq
        omega
    · rcases eq_or_ne k i with rfl | hki
      · have := hbelow j hj hji hhj (hopen hhk)
        rw [hnew, hold j hji] at heq
        omega
      · rw [hold j hji, hold k hki] at heq
        exact h.distinct j k hj hk (hstill j hji hhj) (hstill k hki hhk) heq

/-- A thread that is through gives its number back, behind the shutdown. -/
theorem Seats.dec {i : ℕ} (h : Seats s) (hi : s.point i = .dec)
    (hn : s'.tm_thrdn = s.tm_thrdn) (ha : s'.tm_active_thrdn = s.tm_active_thrdn - 1)
    (hst : s'.tm_status = s.tm_status) (he : s'.e_signaled = s.e_signaled)
    (hslot : s'.curr_slot = s.curr_slot) (hself : s'.point i = .done)
    (hother : ∀ x, x ≠ i → s'.point x = s.point x) : Seats s' := by
  have hi0 : i ≠ 0 := h.worker_ne_zero (by rw [hi]; rfl)
  have hlt := h.lt hi0 hi (by simp)
  have hsig := h.signaled hi0 hi (by simp) (by simp)
  have hdown : s.tm_status = .shutdown := by
    by_contra hs
    exact (h.last hs i hi0).1 hi
  have hmem : i ∈ crew s := mem_crew.2 ⟨hlt, hi0, by rw [hi]; rfl⟩
  have hcard : (crew s').card = s.tm_active_thrdn - 1 := by
    rw [crew_erase hn hother (by rw [hself]; rfl), Finset.card_erase_of_mem hmem, h.count]
  have hstill : ∀ j, Holds s' j → j ≠ i ∧ Holds s j := by
    rintro j hh
    rcases eq_or_ne j i with rfl | hji
    · rcases hh with hp | ⟨hs, -⟩
      · simp [hself, Point.inProc] at hp
      · exact absurd (hst.trans hdown) hs
    · refine ⟨hji, ?_⟩
      unfold Holds at hh
      rwa [hother j hji, hst] at hh
  refine ⟨⟨hslot ▸ h.main.1, hother 0 hi0.symm ▸ h.main.2⟩, fun j hj hx => ?_, fun hx => ?_,
    fun hs => ?_,
    ha.trans hcard.symm,
    fun hs => absurd (hst.trans hdown) hs, fun hs => absurd (hst.trans hdown) hs,
    fun j hj hc => ?_, fun j k hj hk hhj hhk heq => ?_⟩
  · rw [hn]
    rcases eq_or_ne j i with rfl | hji
    · exact hlt
    · exact h.exist j hj (hother j hji ▸ hx)
  · exact he.trans (h.early (hother 0 hi0.symm ▸ hx))
  · rw [he, hsig] at hs
    exact absurd hs (by simp)
  · rw [hslot, hn]
    rcases eq_or_ne j i with rfl | hji
    · exact h.range j hj (by rw [hi]; rfl)
    · exact h.range j hj (hother j hji ▸ hc)
  · rw [hslot] at heq
    exact h.distinct j k hj hk (hstill j hhj).2 (hstill k hhk).2 heq

/-- Before the start event there is no thread with a number. -/
theorem Seats.none_counted (h : Seats s) (he : (s.point 0).early = true) (i : ℕ) (hi : i ≠ 0) :
    s.point i = .absent ∨ s.point i = .wait := h.start (h.early he) i hi

theorem Seats.create {i : ℕ} {ok : Bool} (h : Seats s) (hp : s.point 0 = .create i)
    (hlt : i < s.tm_thrdn) :
    Seats ((s.createThread i ok).goto 0 (.create (i + 1))) := by
  have hsig : s.e_signaled = false := h.early (by rw [hp]; rfl)
  have hids : ∀ ids, Seats { s with tm_thread_id := ids } :=
    fun ids => h.congr rfl rfl rfl rfl rfl rfl
  cases ok with
  | false => exact (hids _).main_goto (.create (i + 1)) rfl fun _ => hsig
  | true =>
    rcases eq_or_ne i 0 with rfl | hi
    · refine ((hids _).main_goto (.create 1) rfl fun _ => hsig).congr rfl rfl rfl rfl rfl ?_
      funext x
      rcases eq_or_ne x 0 with rfl | hx
      · rfl
      · simp [Threads.createThread, Threads.goto, hx]
    · refine Seats.main_goto ?_ (.create (i + 1)) rfl fun _ => hsig
      refine (hids _).worker_goto hi hlt (fun _ => rfl) ?_ (by simp) (by simp)
        (by simp [Point.inProc])
      rcases h.start hsig i hi with ha | hw
      · simp [ha, Point.counted, Point.inProc]
      · simp [hw]

/-- The status is written while no thread has a number, or it is the shutdown. -/
theorem Seats.status (h : Seats s) (st : TmStatus)
    (hst : st = .shutdown ∨ (s.point 0).early = true) :
    Seats { s with tm_status := st } := by
  refine h.same rfl rfl rfl h.main.2 h.exist h.early h.start (fun _ _ => rfl) (fun _ _ => id)
    (fun hs i hi => ?_)
    (fun hs => ?_) fun i _ hx => .inl hx
  · have hw := h.none_counted (hst.resolve_left hs) i hi
    rcases hw with hw | hw <;> simp [hw]
  · refine .inr fun i hi => ?_
    have hw := h.none_counted (hst.resolve_left hs) i hi
    rcases hw with hw | hw <;> simp [hw, Point.counted, Point.inProc]

theorem Seats.signal (h : Seats s) (hp : (s.point 0).early = false) :
    Seats { s with e_signaled := true } :=
  h.same rfl rfl rfl h.main.2 h.exist (fun he => absurd he (by simp [hp]))
    (fun hs => absurd hs (by simp))
    (fun _ _ => rfl) (fun _ _ => id) h.last .inl fun _ _ hx => .inl hx

theorem Seats.init (h : Seats s) (hp : s.point 0 = .boot) : Seats { s with
    tm_active_thrdn :=
      0, tm_status := .init, e_signaled := false, tm_thread_id := fun _ => none } := by
  have hearly : (s.point 0).early = true := by rw [hp]; rfl
  have hzero : s.tm_active_thrdn = 0 := by
    rw [h.count, Finset.card_eq_zero]
    ext i
    rw [mem_crew]
    simp only [Finset.notMem_empty, iff_false]
    rintro ⟨-, hi, hc⟩
    rcases h.none_counted hearly i hi with hw | hw <;> simp [hw, Point.counted, Point.inProc] at hc
  exact (h.status .init (.inr hearly)).congr rfl hzero.symm rfl (h.early hearly).symm rfl rfl

/-- `thrd_mgr` is not set up, and says that there are no threads. -/
theorem Seats.unset (h : Seats s) (hc : Created s) (hp : s.point 0 = .boot) :
    Seats { s with tm_thrdn := 0 } := by
  have habs := hc.boot hp
  have hcrew : crew s = crew { s with tm_thrdn := 0 } := by
    ext i
    rw [mem_crew, mem_crew]
    refine iff_of_false (fun hi => ?_) fun hi => absurd hi.1 (Nat.not_lt_zero i)
    rw [habs i hi.2.1] at hi
    cases hi.2.2
  refine ⟨h.main, fun i hi hx => absurd (habs i hi) hx, h.early, h.start,
    h.count.trans (congrArg Finset.card hcrew), h.last, h.below, fun i hi hx => ?_, h.distinct⟩
  rw [show ({ s with tm_thrdn := 0 } : Threads).point i = .absent from habs i hi] at hx
  cases hx

theorem Seats.step {a : ThreadAct} (h : Seats s) (hc : Created s) (hs : threadStep s a = some s') :
    Seats s' := by
  cases a with
  | boot =>
    obtain ⟨hp, rfl⟩ := threadStep_cases hs
    exact (h.init hp).main_goto (.create 1) rfl fun _ => rfl
  | bootFails e =>
    obtain ⟨hp, -, ⟨-, rfl⟩ | ⟨-, rfl⟩⟩ := threadStep_cases hs
    · exact (h.init hp).main_goto .openLog rfl nofun
    · exact (h.unset hc hp).main_goto .openLog rfl nofun
  | create ok =>
    obtain ⟨i, hp, ⟨hlt, rfl⟩ | rfl | rfl⟩ := threadStep_cases hs
    · exact h.create hp hlt
    · exact h.main_goto .store rfl fun _ => h.early (by rw [hp]; rfl)
    · exact h.main_goto .openLog rfl (by simp [Point.early])
  | store =>
    obtain ⟨hp, rfl⟩ := threadStep_cases hs
    exact (h.status .run (.inr (by rw [hp]; rfl))).main_goto .poll rfl (by simp [Point.early])
  | poll =>
    obtain ⟨hp, rfl | rfl⟩ := threadStep_cases hs
    · exact h.main_goto .openLog rfl (by simp [Point.early])
    · exact h.signal (by rw [hp]; rfl)
  | wait i =>
    obtain ⟨hp, hsig, rfl⟩ := threadStep_cases hs
    have hi := h.worker_ne_zero (by rw [hp]; rfl)
    refine h.worker_goto hi (h.lt hi hp (by simp)) (fun he => ?_) (by rw [hp]; rfl) (by simp)
      (by simp)
      (by simp [Point.inProc])
    exact absurd (hsig.symm.trans he) (by simp)
  | inc i =>
    obtain ⟨hp, rfl⟩ := threadStep_cases hs
    exact h.inc hp rfl rfl rfl rfl (if_pos rfl) (fun x hx => if_neg hx)
      (if_pos rfl) fun x hx => if_neg hx
  | check i =>
    obtain ⟨hp, hnext⟩ := threadStep_cases hs
    have hi := h.worker_ne_zero (by rw [hp]; rfl)
    have hlt := h.lt hi hp (by simp)
    have hsig : s.e_signaled ≠ false := by
      rw [h.signaled hi hp (by simp) (by simp)]
      simp
    obtain ⟨hst, rfl⟩ | ⟨hst, rfl⟩ := hnext
    · exact h.worker_goto hi hlt (fun he => absurd he hsig) (by rw [hp]; rfl) (by simp)
        (fun _ => hst)
        (by simp [Point.inProc])
    · exact h.worker_goto hi hlt (fun he => absurd he hsig) (by rw [hp]; rfl) (by simp) (by simp)
        (fun _ => .inr ⟨hst, by rw [hp]; rfl⟩)
  | dec i =>
    obtain ⟨hp, rfl⟩ := threadStep_cases hs
    exact h.dec hp rfl rfl rfl rfl rfl (if_pos rfl) fun x hx => if_neg hx
  | openLog t ok =>
    obtain ⟨hp, rfl | rfl⟩ := threadStep_cases hs
    · exact h.proc_goto hp rfl rfl
    · exact h.leave hp rfl
  | thrdInit t ok =>
    obtain ⟨hp, hnext⟩ := threadStep_cases hs
    obtain ⟨calls, hcalls⟩ := setCpuAffinity_eq s t
    have h' : Seats { s with calls := calls } := h.congr rfl rfl rfl rfl rfl rfl
    rw [hcalls] at hnext
    obtain rfl | rfl := hnext
    · exact h'.proc_goto hp rfl rfl
    · exact h'.leave hp rfl
  | cas t =>
    obtain ⟨hp, rfl⟩ := threadStep_cases hs
    exact Seats.proc_goto (h.congr rfl rfl rfl rfl rfl rfl) hp rfl rfl
  | loop t =>
    obtain ⟨hp, rfl | rfl⟩ := threadStep_cases hs
    · exact h.leave hp rfl
    · exact h
  | exit =>
    obtain ⟨-, rfl⟩ := threadStep_cases hs
    have h' : Seats { s with disp_status := .shutdown } := h.congr rfl rfl rfl rfl rfl rfl
    exact h'.main_goto .endThreads rfl (by simp [Point.early])
  | endThreads =>
    obtain ⟨-, rfl⟩ := threadStep_cases hs
    exact (h.status .shutdown (.inl rfl)).main_goto .done rfl (by simp [Point.early])
  | notifyThreads =>
    obtain rfl : s' = _ := threadStep_cases hs
    exact (h.status .shutdown (.inl rfl)).congr rfl rfl rfl rfl rfl rfl
  | notifyDisp =>
    obtain ⟨-, rfl⟩ := threadStep_cases hs
    exact h.congr rfl rfl rfl rfl rfl rfl

end Step

/-- The threads of a worker process, in any order of their steps and with a shutdown at any
moment. -/
theorem slots_exclusive (thrdn : ℕ) (cpu : Option CpuAffinity) (as : List ThreadAct) :
    Always threadStep SlotsExclusive (threadsBoot thrdn cpu) as := by
  have hinv : Always threadStep (fun s => Seats s ∧ Created s) (threadsBoot thrdn cpu) as :=
    always_of_step threadStep as ⟨seats_boot thrdn cpu, created_boot thrdn cpu⟩
      fun _ _ _ h hs => ⟨h.1.step h.2 hs, h.2.step hs⟩
  exact hinv.mono fun _ h => h.1.exclusive

end Plume
