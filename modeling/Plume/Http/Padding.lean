import Plume.Http.Decode
import Plume.Http.Rules

/-! Field lines with spaces before the colon. `plm_http_parser_field` means to step back over them
and does so at one length alone. -/

namespace Plume.Http
open CLib

structure PaddedField where
  name : Bytes
  pad : ℕ
  gap : ℕ
  value : Bytes
  name_ne : name ≠ []
  name_free : Free [COLON, CR, LF, 0] name
  name_head : name.head? ≠ some SP
  name_last : name.getLast? ≠ some SP
  value_free : Free [CR, LF, 0] value
  value_head : value.head? ≠ some SP

namespace PaddedField

def line (f : PaddedField) : Bytes :=
  f.name ++ List.replicate f.pad SP ++ COLON :: (List.replicate f.gap SP ++ f.value)

def text (f : PaddedField) : Bytes := f.line ++ crlf

def key (f : PaddedField) : Bytes :=
  (f.name ++ List.replicate f.pad SP).take (keyLen (f.name.length + f.pad))

theorem line_lf (f : PaddedField) : LF ∉ f.line ++ [CR] := by
  simp [line, f.name_free LF (by decide), f.value_free LF (by decide)]

theorem line_head (f : PaddedField) : (f.line ++ [CR]).head? ≠ some SP := by
  obtain ⟨x, t, hx⟩ := List.exists_cons_of_ne_nil f.name_ne
  have h := f.name_head
  rw [hx] at h
  rw [line, hx]
  exact h

theorem fieldOf_line (f : PaddedField) : fieldOf f.line = some (f.key, f.value) := by
  have h0 : 0 ∉ f.line := by
    simp [line, f.name_free 0 (by decide), f.value_free 0 (by decide)]
  have hcol : COLON ∉ f.name ++ List.replicate f.pad SP := by
    rw [List.mem_append, not_or]
    exact ⟨f.name_free COLON (by decide), fun h => absurd (List.eq_of_mem_replicate h) (by decide)⟩
  have hdrop : f.line.drop ((f.name ++ List.replicate f.pad SP).length + 1) =
      List.replicate f.gap SP ++ f.value := by
    rw [line, ← List.drop_drop, List.drop_left]
    rfl
  have hcut : cut COLON f.line =
      some (f.name ++ List.replicate f.pad SP, List.replicate f.gap SP ++ f.value) := cut_some hcol
  rw [fieldOf, upToNul_of_free h0, hcut, Option.map_some, hdrop, dropWhile_spaces f.value_head, key,
    List.length_append, List.length_replicate]

/-- The key is the name where the loop that looks for spaces takes off what was added. -/
theorem key_eq_name_iff (f : PaddedField) :
    f.key = f.name ↔ f.pad = 0 ∧ f.name.length ≠ 33 ∨ f.pad = 1 ∧ f.name.length = 32 := by
  have hlen : f.key.length = keyLen (f.name.length + f.pad) := by
    have hle : keyLen (f.name.length + f.pad) ≤ f.name.length + f.pad := by
      unfold keyLen
      split <;> omega
    simpa [key] using hle
  have hkey : f.key = f.name ↔ keyLen (f.name.length + f.pad) = f.name.length := by
    constructor
    · intro h
      rw [← hlen, h]
    · intro h
      rw [key, h, List.take_left]
  rw [hkey]
  unfold keyLen
  split <;> omega

end PaddedField

section Reports

variable {δ : Type} {psr : Parser δ} {s : Input} {key key' value value' pre w post : Bytes} {k : ℕ}

/-- The line at the cursor has the callback called with this key and value, whatever the callbacks
are, and the rest of the loop comes behind that call. -/
def Reports (psr : Parser δ) (s : Input) (key value : Bytes) : Prop :=
  ∃ n s', ∀ (σ : Type) (hooks : Hooks δ σ) (own : σ), httpParserField hooks psr s own =
    fieldCall s.s_len.toNat (.ofBytes key, .ofBytes value, n, s') δ σ hooks psr own

def firstOnly : Hooks δ (Option (PStr × PStr)) where
  hp_on_req_line _ _ _ d own := .ok (0, d, own)
  hp_on_status_line _ _ _ d own := .ok (0, d, own)
  hp_on_field k v _ _ := .ok (1, some (k, v))
  hp_on_hdr_done _ own := .ok (none, own)

theorem fieldCall_first (psr : Parser δ) (fuel : ℕ) (x : PStr × PStr × ℕ × Input) :
    ∃ psr', fieldCall fuel x δ _ firstOnly psr none = .ok ⟨.brk, psr', x.2.2.2,
      some (x.1, x.2.1)⟩ :=
  ⟨_, rfl⟩

theorem ofBytes_inj (h : PStr.ofBytes key = .ofBytes key') : key = key' := congrArg PStr.s_str h

theorem reports_unique (h : Reports psr s key value) (h' : Reports psr s key' value') :
    key = key' ∧ value = value' := by
  obtain ⟨n, s₁, h⟩ := h
  obtain ⟨n', s₂, h'⟩ := h'
  have heq := (h _ firstOnly none).symm.trans (h' _ firstOnly none)
  obtain ⟨p, hp⟩ := fieldCall_first psr s.s_len.toNat (.ofBytes key, .ofBytes value, n, s₁)
  obtain ⟨p', hp'⟩ := fieldCall_first psr s.s_len.toNat (.ofBytes key', .ofBytes value', n', s₂)
  rw [hp, hp'] at heq
  injection heq with heq
  injection heq with _ _ _ hown
  injection hown with hown
  injection hown with hk hv
  exact ⟨ofBytes_inj hk, ofBytes_inj hv⟩

variable (psr) in
theorem firstOnly_line (hb : s.buf = pre ++ List.replicate k SP ++ (w ++ [CR]) ++ LF :: post)
    (hp : s.pos = pre.length) (hLF : LF ∉ w ++ [CR]) (hhd : (w ++ [CR]).head? ≠ some SP)
    (hf : fieldOf w = some (key, value)) :
    ∃ psr' s', httpParserField firstOnly psr s none =
      .ok ⟨.brk, psr', s', some (.ofBytes key, .ofBytes value)⟩ := by
  have h := fieldLoop_line firstOnly psr none pre s.s_len.toNat hb hp hLF hhd
  simp only [hf] at h
  obtain ⟨pre', -, h⟩ := h
  exact ⟨_, _, h⟩

theorem reports_line (hb : s.buf = pre ++ List.replicate k SP ++ (w ++ [CR]) ++ LF :: post)
    (hp : s.pos = pre.length) (hLF : LF ∉ w ++ [CR]) (hhd : (w ++ [CR]).head? ≠ some SP)
    (hf : fieldOf w = some (key, value)) : Reports psr s key value := by
  obtain ⟨p₁, s₁, h⟩ := firstOnly_line psr hb hp hLF hhd hf
  obtain ⟨f, hs⟩ | ⟨rc, s₂, hrc, hs⟩ | ⟨⟨key', value', n, s₂⟩, hs⟩ :=
    fieldLoop_split s.s_len.toNat s
  · have hsame := h.symm.trans (hs δ _ firstOnly psr none)
    cases hsame
  · have hsame := h.symm.trans (hs δ _ firstOnly psr none)
    rcases hrc with rfl | rfl <;> cases hsame
  · have hsame := h.symm.trans (hs δ _ firstOnly psr none)
    obtain ⟨p₂, hp₂⟩ := fieldCall_first psr s.s_len.toNat (key', value', n, s₂)
    rw [hp₂] at hsame
    injection hsame with hsame
    injection hsame with _ _ _ hown
    injection hown with hown
    injection hown with hk hv
    subst hk hv
    exact ⟨n, s₂, fun σ hooks own => hs δ σ hooks psr own⟩

theorem PaddedField.reports_key (f : PaddedField) (psr : Parser δ)
    (hb : s.buf = pre ++ f.text ++ post)
    (hp : s.pos = pre.length) : Reports psr s f.key f.value := by
  have hb' : s.buf = pre ++ List.replicate 0 SP ++ (f.line ++ [CR]) ++ LF :: post := by
    simpa [text, crlf] using hb
  exact reports_line hb' hp f.line_lf f.line_head f.fieldOf_line

end Reports

/-- The callback gets the name and the value of the line exactly where no space is before the colon
and the name is not 33 bytes long, or one space is there behind a name of 32 bytes. -/
theorem field_reports_iff {δ : Type} (f : PaddedField) (psr : Parser δ) (s : Input)
    (pre post : Bytes)
    (hb : s.buf = pre ++ f.text ++ post) (hp : s.pos = pre.length) :
    Reports psr s f.name f.value ↔
      f.pad = 0 ∧ f.name.length ≠ 33 ∨ f.pad = 1 ∧ f.name.length = 32 := by
  have hkey := f.reports_key psr hb hp
  rw [← f.key_eq_name_iff]
  constructor
  · intro h
    exact (reports_unique hkey h).1
  · intro h
    rwa [h] at hkey

def paddedHost (pad : ℕ) : PaddedField :=
  ⟨ascii "Host", pad, 1, ascii "a:80", hostField.name_ne, by decide, by decide, by decide,
    by decide, by decide⟩

theorem field_reports_iff_host :
    Reports fresh (whole (paddedHost 0).text) (paddedHost 0).name (paddedHost 0).value :=
  (field_reports_iff (paddedHost 0) fresh (whole (paddedHost 0).text) [] [] (by decide) rfl).2
    (.inl ⟨rfl, by decide⟩)

theorem field_reports_false :
    ¬ ∀ (f : PaddedField) (psr : Parser Unit) (s : Input) (pre post : Bytes),
    s.buf = pre ++ f.text ++ post → s.pos = pre.length → Reports psr s f.name f.value := by
  intro h
  have hb : (whole (paddedHost 1).text).buf = [] ++ (paddedHost 1).text ++ [] := by decide
  have hname := h (paddedHost 1) fresh (whole (paddedHost 1).text) [] [] hb rfl
  have hkey := (paddedHost 1).reports_key fresh hb rfl
  exact absurd (reports_unique hkey hname).1 (by decide)

end Plume.Http
