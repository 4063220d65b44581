import Plume.Http.OnField

/-! Looking a header field up in `hr_fields`. A name has its bucket by its first byte as it is, and
`plm_strcasecmp` ends at the first byte that agrees, so the case of the first letter counts, and the
bytes behind it mostly do not. -/

namespace Plume.Http
open CLib

def fieldName (k : Bytes) : PStr := if takenFor (ascii "Proxy-Connection") k then cs else .ofBytes k

def fieldNode (f : Bytes × Bytes) : PStr × PStr := (stored (fieldName f.1), stored (.ofBytes f.2))

/-- `plm_http_on_field` on one field after the other: those it stores, the newest first. -/
def storeFields (newest : List (Bytes × Bytes)) (r : Req) (mem : List Bool) :
    List (Bytes × Bytes) → Except Fault (List (Bytes × Bytes) × Req × List Bool)
  | [] => .ok (newest, r, mem)
  | f :: fs => do
    let (rc, r, mem) ← httpOnField (.ofBytes f.1) (.ofBytes f.2) r mem
    storeFields (if rc = 0 then f :: newest else newest) r mem fs

/-- The name a string stands for; a NUL that it counts at its end does not belong to it. -/
def nameOf (s : PStr) : Bytes :=
  if s.counted.getLast? = some 0 then s.counted.dropLast else s.counted

/-- Two strings are the same name, ignoring ASCII case. -/
def sameName (a b : PStr) : Bool := named (nameOf a) (nameOf b)

def takenAs (a b : PStr) : Bool := decide (httpFieldKey a 26 = httpFieldKey b 26) && alike a b

/-- A name to look for, as a string constant or as a text that a NUL follows. -/
def spell (n : Bytes) (const : Bool) : PStr :=
  if const then .ofBytes (n ++ [0]) else ⟨n ++ [0], n.length⟩

def FindsNewest (hash : Hash PStr PStr) (nodes : List (PStr × PStr)) (key : PStr) : Prop :=
  hashFind httpFieldKey strcasecmp hash key = .ok (nodes.find? fun a => sameName a.1 key)

/-- The newest node that has the name or is taken for it has the name, and its first byte is the
very same one. -/
def Unmistaken (nodes : List (PStr × PStr)) (key : PStr) : Prop :=
  ∀ a, nodes.find? (fun a => sameName a.1 key || takenAs a.1 key) = some a →
    sameName a.1 key = true ∧ firstByte a.1 = firstByte key

section Search

variable {α : Type} {p q : α → Bool} {l : List α}

/-- Two searches find the same where the first element that either finds is found by both. -/
theorem find?_eq_find?_iff : l.find? p = l.find? q ↔
    ∀ a, l.find? (fun x => p x || q x) = some a → p a = true ∧ q a = true := by
  induction l with
  | nil => simp
  | cons x l ih =>
    rw [List.find?_cons, List.find?_cons, List.find?_cons]
    cases hp : p x <;> cases hq : q x
    · simpa using ih
    · simp only [Bool.or_true]
      refine iff_of_false (fun h => ?_) fun h => by simpa [hp] using h x rfl
      have := List.find?_some h
      simp [hp] at this
    · simp only [Bool.or_false]
      refine iff_of_false (fun h => ?_) fun h => by simpa [hq] using h x rfl
      have := List.find?_some h.symm
      simp [hq] at this
    · simp [hp, hq]

end Search

/-- A string with its bytes, and with a NUL where it counts none. -/
structure Ended (s : PStr) : Prop where
  readable : s.Readable
  empty : s.s_len = 0 → firstByte s = 0

section Names

variable {a b : PStr} {c d : UInt8} {k : Bytes}

theorem ended_stored (b : Bytes) : Ended (stored (.ofBytes b)) := by
  have hstr : stored (.ofBytes b) = ⟨b ++ [0], b.length⟩ := by
    rw [stored, PStr.ofBytes_len, sizeT_natCast, slice, PStr.ofBytes_str, List.drop_zero,
      List.take_length]
  rw [hstr]
  refine ⟨⟨Int.natCast_nonneg _, by simp⟩, fun h => ?_⟩
  obtain rfl : b = [] := List.length_eq_zero_iff.1 (Int.natCast_eq_zero.1 h)
  rfl

theorem ended_fieldName (k : Bytes) : Ended (stored (fieldName k)) := by
  unfold fieldName
  split_ifs
  · exact ⟨⟨by decide, by decide⟩, by decide⟩
  · exact ended_stored k

theorem ended_spell (n : Bytes) (const : Bool) : Ended (spell n const) := by
  cases const with
  | true => exact ⟨PStr.readable_ofBytes _, fun h => by simp [spell, PStr.ofBytes] at h; omega⟩
  | false =>
    refine ⟨⟨Int.natCast_nonneg _, by simp [spell]⟩, fun h => ?_⟩
    obtain rfl : n = [] := List.length_eq_zero_iff.1 (Int.natCast_eq_zero.1 h)
    rfl

theorem caseEq_letter (n : Fin 26) :
    caseEq (UInt8.ofNat (65 + n)) (UInt8.ofNat (65 + n) + 32) = true ∧
    caseEq (UInt8.ofNat (65 + n) + 32) (UInt8.ofNat (65 + n)) = true := by
  decide +revert

/-- Letters that agree in lower case agree for `CASECMP`. -/
theorem caseEq_of_lower (h : lower c = lower d) : caseEq c d = true := by
  have hrefl : ∀ x : UInt8, caseEq x x = true := fun x => by simp [caseEq]
  have hletter : ∀ x : UInt8, 65 ≤ x ∧ x ≤ 90 → ∃ n : Fin 26, x = UInt8.ofNat (65 + n) := by
    rintro x ⟨hlo, hhi⟩
    rw [UInt8.le_iff_toNat_le] at hlo hhi
    have hlo : 65 ≤ x.toNat := hlo
    have hhi : x.toNat ≤ 90 := hhi
    refine ⟨⟨x.toNat - 65, by omega⟩, ?_⟩
    rw [Nat.add_sub_cancel' hlo, UInt8.ofNat_toNat]
  unfold lower at h
  split_ifs at h with hc hd hd
  · obtain rfl : c = d := by simpa using h
    exact hrefl c
  · obtain ⟨n, rfl⟩ := hletter c hc
    rw [← h]
    exact (caseEq_letter n).1
  · obtain ⟨n, rfl⟩ := hletter d hd
    rw [h]
    exact (caseEq_letter n).2
  · rw [h]
    exact hrefl d

theorem firstByte_of_counted (h : a.counted = c :: k) : firstByte a = c := by
  unfold PStr.counted at h
  unfold firstByte
  cases hs : a.s_str with
  | nil => simp [hs] at h
  | cons x s =>
    cases hn : a.s_len.toNat with
    | zero => simp [hn] at h
    | succ n =>
      rw [hs, hn, List.take_succ_cons] at h
      exact (List.cons.inj h).1

/-- A string is its name, or counts a NUL behind it. -/
theorem counted_cases (s : PStr) : s.counted = nameOf s ∨ s.counted = nameOf s ++ [0] := by
  unfold nameOf
  split_ifs with h
  · exact .inr (List.dropLast_append_getLast? 0 h).symm
  · exact .inl rfl

theorem Ended.firstByte_nil (h : Ended a) (hn : nameOf a = []) : firstByte a = 0 := by
  rcases counted_cases a with hc | hc
  · rw [hn] at hc
    have hlen := h.readable.length
    rw [hc] at hlen
    exact h.empty hlen.symm
  · rw [hn] at hc
    exact firstByte_of_counted hc

theorem firstByte_cons (hn : nameOf a = c :: k) : firstByte a = c := by
  rcases counted_cases a with hc | hc
  · exact firstByte_of_counted (hc.trans hn)
  · exact firstByte_of_counted (k := k ++ [0]) (by rw [hc, hn]; rfl)

theorem lensFit_of_names (h : (nameOf a).length = (nameOf b).length) :
    lensFit a.counted b.counted = true := by
  unfold lensFit
  rcases counted_cases a with ha | ha <;> rcases counted_cases b with hb | hb <;> rw [ha,
    hb] <;> simp [h]

/-- Of the strings with one name those with the same first byte are taken for each other. -/
theorem takenAs_iff (ha : Ended a) (hb : Ended b) (h : sameName a b = true) :
    takenAs a b = true ↔ firstByte a = firstByte b := by
  have hmap : (nameOf a).map lower = (nameOf b).map lower := (eq_of_beq h).symm
  have hfit := lensFit_of_names (by simpa using congrArg List.length hmap)
  have hkey : firstByte a = firstByte b → httpFieldKey a 26 = httpFieldKey b 26 := fun hf => by
    rw [httpFieldKey, httpFieldKey, hf]
  cases hna : nameOf a with
  | nil =>
    have hnb : nameOf b = [] := by simpa [hna] using hmap.symm
    have hfirst : firstByte a = firstByte b :=
      (ha.firstByte_nil hna).trans (hb.firstByte_nil hnb).symm
    have hloose : loose a.counted b.counted = true := by
      rcases counted_cases a with hca | hca <;> rcases counted_cases b with hcb | hcb <;> rw [hca,
        hcb, hna, hnb] <;> rfl
    simp [takenAs, alike, hkey hfirst, hfit, hloose, hfirst]
  | cons c k =>
    cases hnb : nameOf b with
    | nil => simp [hna, hnb] at hmap
    | cons d l =>
      have hcd : caseEq c d = true := by
        rw [hna, hnb, List.map_cons, List.map_cons] at hmap
        exact caseEq_of_lower (List.cons.inj hmap).1
      -- the comparison ends at the first bytes, which agree up to case
      have hloose : loose a.counted b.counted = (c == d) := by
        rcases counted_cases a with hca | hca <;> rcases counted_cases b with hcb | hcb <;> rw [hca,
          hcb, hna, hnb] <;>
          simp only [List.cons_append, loose_cons, hcd, if_true]
      have hfa := firstByte_cons hna
      have hfb := firstByte_cons hnb
      rw [takenAs, alike, hfit, hloose, Bool.true_and, Bool.and_eq_true, decide_eq_true_eq,
        beq_iff_eq, hfa, hfb]
      exact and_iff_right_of_imp fun hf => hkey (by rw [hfa, hfb, hf])

end Names

section Store

variable {k v : Bytes} {r : Req} {mem : List Bool} {nodes : List (PStr × PStr)}

theorem httpFieldKey_below (k : PStr) : httpFieldKey k 26 < 26 := httpFieldKey_lt k (by decide)

theorem switchOf_fieldName (k v : Bytes) (r : Req) (mem : List Bool) :
    (switchOf k v r mem).1 = fieldName k := by
  have hhead : ∀ w : Bytes, w.head? = some 67 → takenFor w k = true → takenFor
    (ascii "Proxy-Connection") k = false := by
    intro w hw h
    refine takenFor_of_head_ne ?_
    rw [(takenFor_head h).1, hw]
    decide
  unfold switchOf fieldName
  split_ifs with hcl hpc hcs hpc
  · exact absurd hpc (Bool.eq_false_iff.1 (hhead (ascii "Content-Length") (by decide) hcl))
  · rfl
  · exact absurd hpc (Bool.eq_false_iff.1 (hhead (ascii "Connection") (by decide) hcs))
  all_goals rfl

/-- A field is stored, or memory runs out and the table stays as it is. -/
theorem httpOnField_stores (h : Filled httpFieldKey 26 r.hr_fields nodes) (mem : List Bool)
    (f : Bytes × Bytes) :
    ∃ rc r' mem', httpOnField (.ofBytes f.1) (.ofBytes f.2) r mem = .ok (rc, r', mem') ∧
      Filled httpFieldKey 26 r'.hr_fields (if rc = 0 then fieldNode f :: nodes else nodes) := by
  obtain ⟨mem', hon | hon⟩ := httpOnField_cases f.1 f.2 r mem
  · refine ⟨-1, _, mem', hon, ?_⟩
    rw [if_neg (by decide), switchOf_fields]
    exact h
  · rw [switchOf_fieldName] at hon
    obtain ⟨fields, hins, hfill⟩ :=
      h.insert httpFieldKey_below (stored (fieldName f.1)) (stored (.ofBytes f.2))
    exact ⟨0, _, mem', by rw [hon, hins]; rfl, hfill⟩

/-- Fields that are stored one after the other fill the table, the newest in front. -/
theorem storeFields_filled (fs newest : List (Bytes × Bytes)) (mem : List Bool)
    (h : Filled httpFieldKey 26 r.hr_fields (newest.map fieldNode)) : ∃ newest' r' mem',
    storeFields newest r mem fs = .ok (newest', r', mem') ∧
      Filled httpFieldKey 26 r'.hr_fields (newest'.map fieldNode) := by
  induction fs generalizing newest r mem with
  | nil => exact ⟨newest, r, mem, rfl, h⟩
  | cons f fs ih =>
    obtain ⟨rc, r', mem', hon, hfill⟩ := httpOnField_stores h mem f
    rw [storeFields, hon, ok_bind]
    refine ih _ _ ?_
    split_ifs with hrc
    · rwa [if_pos hrc] at hfill
    · rwa [if_neg hrc] at hfill

/-- Without buckets a field makes the insertion fault, unless memory runs out first. -/
theorem httpOnField_bare (h : r.hr_fields.h_bucket = none) (mem : List Bool) (f : Bytes × Bytes) :
    httpOnField (.ofBytes f.1) (.ofBytes f.2) r mem = .error .wild ∨ ∃ rc r' mem',
      httpOnField (.ofBytes f.1) (.ofBytes f.2) r mem = .ok (rc, r', mem') ∧
        r'.hr_fields.h_bucket = none := by
  obtain ⟨mem', hon | hon⟩ := httpOnField_cases f.1 f.2 r mem
  · exact .inr ⟨-1, _, mem', hon, by rwa [switchOf_fields]⟩
  · rw [hashInsert, h] at hon
    exact .inl hon

theorem storeFields_bare (fs newest : List (Bytes × Bytes)) (h : r.hr_fields.h_bucket = none)
    {newest' : List (Bytes × Bytes)} {r' : Req} {mem' : List Bool}
    (hrun : storeFields newest r mem fs = .ok (newest', r', mem')) : r'.hr_fields.h_bucket =
      none := by
  induction fs generalizing newest r mem with
  | nil =>
    obtain ⟨-, rfl, -⟩ := Prod.ext_iff.1 (Except.ok.inj hrun)
    exact h
  | cons f fs ih =>
    rw [storeFields] at hrun
    rcases httpOnField_bare h mem f with hon | ⟨rc, r1, mem1, hon, h1⟩
    · rw [hon] at hrun
      exact absurd hrun nofun
    · rw [hon, ok_bind] at hrun
      exact ih _ h1 hrun

end Store

section Lookup

variable (a : Bool) (r : Req) (mem : List Bool) (fs : List (Bytes × Bytes)) (n : Bytes)
  (const : Bool)

/-- A request, with memory for its buckets or without, takes the fields and then finds the name. -/
def LookupRight : Prop := ∃ newest r' mem',
  storeFields [] { r with hr_fields := hashInit a 26 } mem fs = .ok (newest, r', mem') ∧
    FindsNewest r'.hr_fields (newest.map fieldNode) (spell n const)

/-- In a table that has been filled, the name is found unless a field is mistaken. -/
theorem findsNewest_iff {hash : Hash PStr PStr} {newest : List (Bytes × Bytes)}
    (h : Filled httpFieldKey 26 hash (newest.map fieldNode)) :
    FindsNewest hash (newest.map fieldNode) (spell n const) ↔
      Unmistaken (newest.map fieldNode) (spell n const) := by
  have hkey := ended_spell n const
  have hended : ∀ a ∈ newest.map fieldNode, Ended a.1 := by
    intro a ha
    obtain ⟨f, -, rfl⟩ := List.mem_map.1 ha
    exact ended_fieldName f.1
  have hfind := h.find httpFieldKey_below (fun k => alike k (spell n const)) fun a ha =>
    strcasecmp_readable (hended a ha).readable hkey.readable
  unfold FindsNewest Unmistaken
  rw [hfind, Except.ok.injEq, eq_comm, find?_eq_find?_iff]
  refine forall_congr' fun a => imp_congr_right fun ha => and_congr_right fun hsame => ?_
  exact takenAs_iff (hended a (List.mem_of_find?_eq_some ha)) hkey hsame

/-- After any fields, looking up a name finds the newest field of that name exactly where there were
buckets, and the newest field that has the name or is taken for it has it with the same first
byte. -/
theorem lookupRight_iff : LookupRight a r mem fs n const ↔ a = true ∧ ∀ newest r' mem',
    storeFields [] { r with hr_fields := hashInit a 26 } mem fs = .ok (newest, r', mem') →
      Unmistaken (newest.map fieldNode) (spell n const) := by
  cases a with
  | false =>
    refine iff_of_false ?_ (by simp)
    rintro ⟨newest, r', mem', hrun, hfound⟩
    have hbare := storeFields_bare fs [] rfl hrun
    rw [FindsNewest, hashFind, hbare] at hfound
    exact absurd hfound nofun
  | true =>
    obtain ⟨newest, r', mem', hrun, hfill⟩ :=
      storeFields_filled (r := { r with hr_fields := hashInit true 26 })
      fs [] mem (filled_init httpFieldKey 26)
    unfold LookupRight
    rw [hrun]
    simp only [Except.ok.injEq, Prod.mk.injEq]
    constructor
    · rintro ⟨_, _, _, ⟨rfl, rfl, rfl⟩, hfound⟩
      refine ⟨trivial, ?_⟩
      rintro _ _ _ ⟨rfl, rfl, rfl⟩
      exact (findsNewest_iff n const hfill).1 hfound
    · rintro ⟨-, h⟩
      exact ⟨newest, r', mem', ⟨rfl, rfl, rfl⟩,
        (findsNewest_iff n const hfill).2 (h _ _ _ ⟨rfl, rfl, rfl⟩)⟩

/-- A field "Host" is not found as "host", which has another bucket. -/
theorem not_lookupRight : ¬ LookupRight true
    ⟨.get, .v11, .ofBytes (ascii "/"), hashInit true 26, 0, .ofBytes [], 0,
      false⟩ [] [(ascii "Host", ascii "a")] (ascii "host") false := by
  rintro ⟨newest, r', mem', hrun, hfound⟩
  obtain ⟨rfl, rfl, rfl⟩ : _ ∧ _ ∧ _ := by simpa using Except.ok.inj hrun
  revert hfound
  unfold FindsNewest
  decide

end Lookup

end Plume.Http
