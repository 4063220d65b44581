import Plume.CLib.Run
import Plume.Http.OnField

/-! Which header fields decide where a message ends and whether the connection stays
open. What a request should learn from its fields is read off their names up to case;
`plm_http_on_field` reads it off the first byte and the length. The two agree on a list
of fields as long as every field on which they differ tells them nothing new. -/

namespace Plume.Http
open CLib

/-- The length the last `Content-Length` field gives, 0 without one. -/
def contentLength (fs : List (Bytes × Bytes)) : ℕ :=
  fs.foldl (fun n f => if named (ascii "Content-Length") f.1 then decimal f.2 else n) 0

def keepsAlive (f : Bytes × Bytes) : Bool :=
  (named (ascii "Connection") f.1 || named (ascii "Proxy-Connection") f.1) &&
    named (ascii "keep-alive") f.2

def unrelated (f : Bytes × Bytes) : Bool :=
  !named (ascii "Content-Length") f.1 && !named (ascii "Connection") f.1 &&
    !named (ascii "Proxy-Connection") f.1

/-- The lengths given are decimal and fit a `long long`. -/
def LengthsAreNumerals (fs : List (Bytes × Bytes)) : Prop :=
  ∀ f ∈ fs, named (ascii "Content-Length") f.1 = true → Numeral f.2 ∧ decimal f.2 < 2 ^ 63

/-- A request `plm_http_on_reqline` has just made, with memory for its table. -/
structure FreshReq (r : Req) : Prop where
  cntlen : r.hr_cntlen = 0
  kpalv : r.hr_hdr_kpalv_on = false
  fields : HasBuckets r.hr_fields

def feedFields : List (Bytes × Bytes) → Req → List Bool → Except Fault (Req × List Bool)
  | [], r, mem => .ok (r, mem)
  | f :: fs, r, mem => do
    let (_, r, mem) ← httpOnField (.ofBytes f.1) (.ofBytes f.2) r mem
    feedFields fs r mem

/-- After every field the request knows what the fields so far say, and an unrelated
field changes nothing. -/
@[mk_iff framingKept_def]
structure FramingKept (r : Req) (mem : List Bool) (fs : List (Bytes × Bytes)) : Prop where
  known : ∀ pre, pre <+: fs → ∃ r' mem', feedFields pre r mem = .ok (r', mem') ∧
    r'.hr_cntlen = contentLength pre ∧ r'.hr_hdr_kpalv_on = pre.any keepsAlive
  frame : ∀ pre f, pre ++ [f] <+: fs → unrelated f = true → ∃ r₁ m₁ r₂ m₂,
    feedFields pre r mem = .ok (r₁, m₁) ∧ feedFields (pre ++ [f]) r mem = .ok (r₂, m₂) ∧
    r₂.hr_cntlen = r₁.hr_cntlen ∧ r₂.hr_hdr_kpalv_on = r₁.hr_hdr_kpalv_on

def setsLength (f : Bytes × Bytes) : Bool := takenFor (ascii "Content-Length") f.1

def setsKeepAlive (f : Bytes × Bytes) : Bool :=
  takenFor (ascii "Connection") f.1 && likeKeepAlive f.2 ||
    takenFor (ascii "Proxy-Connection") f.1 && !likeKeepAlive f.2

/-- Behind the fields `pre`, what the code reads in `f` is what `f` says or nothing new. -/
structure ReadRight (pre : List (Bytes × Bytes)) (f : Bytes × Bytes) : Prop where
  /-- a field taken for a length has that name, or repeats the length known -/
  taken : setsLength f = true →
    named (ascii "Content-Length") f.1 = true ∨ cntlenOf f.2 = contentLength pre
  /-- a length is taken for one, or repeats the length known -/
  missed : named (ascii "Content-Length") f.1 = true →
    setsLength f = true ∨ decimal f.2 = contentLength pre
  /-- the flag is set by a keep-alive, or behind one -/
  set : setsKeepAlive f = true → keepsAlive f = true ∨ pre.any keepsAlive = true
  /-- a keep-alive sets the flag, or stands behind another -/
  unset : keepsAlive f = true → setsKeepAlive f = true ∨ pre.any keepsAlive = true

section Run

variable {r r' : Req} {mem mem' : List Bool} {fs pre : List (Bytes × Bytes)} {f : Bytes × Bytes}

theorem takenFor_disjoint {v w k : Bytes} (hv : v.head? ≠ w.head?) (h : takenFor v k = true) :
    takenFor w k = false := by
  apply takenFor_of_head_ne
  rw [(takenFor_head h).1]
  exact hv

/-- What one field does to the two members, as the `switch` has it. -/
theorem switchOf_framing (k v : Bytes) (r : Req) (mem : List Bool) :
    (switchOf k v r mem).2.1.hr_cntlen = (if setsLength (k, v) then cntlenOf v else r.hr_cntlen) ∧
    (switchOf k v r mem).2.1.hr_hdr_kpalv_on = (r.hr_hdr_kpalv_on || setsKeepAlive (k, v)) := by
  unfold switchOf setsLength setsKeepAlive
  split_ifs with h1 h2 h3 h4
  · rw [takenFor_connection h1, takenFor_disjoint (by decide) h1]
    simp
  · rw [h2, takenFor_disjoint (by decide) h2]
    simp
  · rw [h3, Bool.eq_false_iff.2 h2]
    simp
  · rw [Bool.eq_false_iff.2 h2, Bool.eq_false_iff.2 h3]
    simp
  · rw [Bool.eq_false_iff.2 h2, Bool.eq_false_iff.2 h3]
    simp

theorem feedFields_append (fs gs : List (Bytes × Bytes)) (r : Req) (mem : List Bool) :
    feedFields (fs ++ gs) r mem = (do let (r, mem) ← feedFields fs r mem; feedFields gs r mem) := by
  induction fs generalizing r mem with
  | nil => rfl
  | cons f fs ih =>
    rw [List.cons_append, feedFields, feedFields]
    cases h : httpOnField (.ofBytes f.1) (.ofBytes f.2) r mem with
    | error e => rfl
    | ok x => exact ih _ _

variable (mem) in
/-- The run lemma: the table keeps its buckets, and the two members are what the `switch`
made of each field. -/
theorem feedFields_ok (h : HasBuckets r.hr_fields) (fs : List (Bytes × Bytes)) :
    ∃ r' mem', feedFields fs r mem = .ok (r', mem') ∧ HasBuckets r'.hr_fields := by
  induction fs generalizing r mem with
  | nil => exact ⟨r, mem, rfl, h⟩
  | cons f fs ih =>
    obtain ⟨rc, fields, m, he, hb⟩ := httpOnField_switch f.1 f.2 r mem h
    rw [feedFields, he]
    exact ih (r := { (switchOf f.1 f.2 r mem).2.1 with hr_fields := fields }) _ hb

theorem feedFields_snoc (he : feedFields pre r mem = .ok (r', mem'))
    (hb : HasBuckets r'.hr_fields) (f : Bytes × Bytes) :
    ∃ r'' mem'', feedFields (pre ++ [f]) r mem = .ok (r'', mem'') ∧
      r''.hr_cntlen = (if setsLength f then cntlenOf f.2 else r'.hr_cntlen) ∧
      r''.hr_hdr_kpalv_on = (r'.hr_hdr_kpalv_on || setsKeepAlive f) := by
  obtain ⟨rc, fields, m, hs, -⟩ := httpOnField_switch f.1 f.2 r' mem' hb
  refine ⟨{ (switchOf f.1 f.2 r' mem').2.1 with hr_fields := fields }, m, ?_,
    switchOf_framing f.1 f.2 r' mem'⟩
  rw [feedFields_append, he]
  show (do let (_, r, mem) ← httpOnField _ _ r' mem'; feedFields [] r mem) = _
  rw [hs]
  rfl

theorem contentLength_snoc (pre : List (Bytes × Bytes)) (f : Bytes × Bytes) :
    contentLength (pre ++ [f]) =
      if named (ascii "Content-Length") f.1 then decimal f.2 else contentLength pre := by
  unfold contentLength
  rw [List.foldl_append]
  rfl

theorem any_snoc (p : Bytes × Bytes → Bool) (pre : List (Bytes × Bytes)) (f : Bytes × Bytes) :
    (pre ++ [f]).any p = (pre.any p || p f) := by
  rw [List.any_append, List.any_cons, List.any_nil, Bool.or_false]

theorem unrelated_iff : unrelated f = true ↔ named (ascii "Content-Length") f.1 = false ∧
    named (ascii "Connection") f.1 = false ∧ named (ascii "Proxy-Connection") f.1 = false := by
  unfold unrelated
  simp only [Bool.and_eq_true, Bool.not_eq_true', and_assoc]

/-- On fields that are right so far, the members stay right just when the next is read right. -/
theorem readRight_iff
    (hn : named (ascii "Content-Length") f.1 = true → cntlenOf f.2 = decimal f.2) :
    ReadRight pre f ↔
      (if setsLength f then cntlenOf f.2 else contentLength pre) = contentLength (pre ++ [f]) ∧
      (pre.any keepsAlive || setsKeepAlive f) = (pre ++ [f]).any keepsAlive := by
  rw [contentLength_snoc, any_snoc]
  constructor
  · intro ⟨h1, h2, h3, h4⟩
    constructor
    · split_ifs with hs hc hc
      · exact hn hc
      · exact (h1 hs).resolve_left hc
      · exact ((h2 hc).resolve_left hs).symm
      · rfl
    · cases ha : pre.any keepsAlive with
      | true => rfl
      | false =>
        rw [Bool.false_or, Bool.false_or, Bool.eq_iff_iff]
        exact ⟨fun h => (h3 h).resolve_right (by simp [ha]),
          fun h => (h4 h).resolve_right (by simp [ha])⟩
  · intro ⟨hl, hk⟩
    refine ⟨fun hs => ?_, fun hc => ?_, fun hs => ?_, fun hc => ?_⟩
    · rw [if_pos hs] at hl
      split_ifs at hl with hc
      · exact .inl hc
      · exact .inr hl
    · rw [if_pos hc] at hl
      split_ifs at hl with hs
      · exact .inl hs
      · exact .inr hl.symm
    · rw [hs, Bool.or_true, eq_comm, Bool.or_eq_true] at hk
      exact hk.symm
    · rw [hc, Bool.or_true, Bool.or_eq_true] at hk
      exact hk.symm

end Run

/-- For all fields fed to a fresh request, with any memory: the request knows after every
field what the fields so far say, and unrelated fields change nothing, just when every
field is read right. -/
theorem framingKept_iff {r : Req} {mem : List Bool} {fs : List (Bytes × Bytes)} (hr : FreshReq r)
    (hl : LengthsAreNumerals fs) :
    FramingKept r mem fs ↔ ∀ pre f, pre ++ [f] <+: fs → ReadRight pre f := by
  rw [framingKept_def]
  apply forall_prefix_iff
  · exact ⟨r, mem, rfl, hr.cntlen, hr.kpalv⟩
  · intro pre f hpre ⟨r', mem', he, hc, hk⟩
    obtain ⟨r₁, m₁, he₁, hb⟩ := feedFields_ok mem hr.fields pre
    obtain ⟨rfl, rfl⟩ := Prod.mk.inj (Except.ok.inj (he₁.symm.trans he))
    obtain ⟨r₂, m₂, he₂, hc₂, hk₂⟩ := feedFields_snoc he hb f
    have hmem : f ∈ fs := hpre.subset (by simp)
    rw [readRight_iff (fun h => cntlenOf_numeral (hl f hmem h).1 (hl f hmem h).2), ← hc, ← hk,
      ← hc₂, ← hk₂]
    constructor
    · rintro ⟨⟨r₃, m₃, he₃, h⟩, -⟩
      obtain ⟨rfl, rfl⟩ := Prod.mk.inj (Except.ok.inj (he₂.symm.trans he₃))
      exact h
    · intro ⟨hlen, hflag⟩
      refine ⟨⟨r₂, m₂, he₂, hlen, hflag⟩, fun hu => ⟨r₁, m₁, r₂, m₂, he, he₂, ?_, ?_⟩⟩
      · rw [hlen, hc, contentLength_snoc, (unrelated_iff.1 hu).1]
        rfl
      · rw [hflag, hk, any_snoc, keepsAlive, (unrelated_iff.1 hu).2.1, (unrelated_iff.1 hu).2.2]
        simp

def rootReq : Req :=
  ⟨.get, .v11, .ofBytes (ascii "/"), hashInit true 26, 0, .ofBytes [], 0, false⟩

theorem rootReq_fresh : FreshReq rootReq := ⟨rfl, rfl, hasBuckets_init (by decide)⟩

theorem framingKept_length :
    FramingKept rootReq [] [(ascii "Host", ascii "a"), (ascii "Content-Length", ascii "5"),
    (ascii "Connection", ascii "keep-alive")] := by
  refine (framingKept_iff rootReq_fresh ?_).2 ?_
  · simp only [LengthsAreNumerals, List.forall_mem_cons]
    decide
  · refine forall_snoc_prefix_cons.2 ⟨⟨by decide, by decide, by decide, by decide⟩, ?_⟩
    refine forall_snoc_prefix_cons.2 ⟨⟨by decide, by decide, by decide, by decide⟩, ?_⟩
    exact forall_snoc_prefix_cons.2
      ⟨⟨by decide, by decide, by decide, by decide⟩, forall_snoc_prefix_nil⟩

/-- A lower-case "content-length: 5" is not taken for a length. -/
theorem framingKept_false : LengthsAreNumerals [(ascii "content-length", ascii "5")] ∧
    ¬ FramingKept rootReq [] [(ascii "content-length", ascii "5")] := by
  constructor
  · intro f hf _
    obtain rfl := List.mem_singleton.1 hf
    decide
  · intro h
    obtain ⟨r, mem, he, hc, -⟩ := h.known _ (List.prefix_refl _)
    obtain ⟨r', mem', he',
      hc'⟩ : ∃ r' mem', feedFields [(ascii "content-length", ascii "5")] rootReq [] =
        .ok (r', mem') ∧ r'.hr_cntlen = 0 := ⟨_, _, rfl, rfl⟩
    obtain ⟨rfl, -⟩ := Prod.mk.inj (Except.ok.inj (he.symm.trans he'))
    rw [hc'] at hc
    exact absurd hc (by decide)

end Plume.Http
