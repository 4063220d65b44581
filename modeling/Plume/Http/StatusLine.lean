import Plume.Http.FirstLine

/-! The status line: `plm_http_parser_status_line` reads back what such a line says, with any
number of spaces between its parts. -/

namespace Plume.Http
open CLib

def verText : Ver → Bytes
  | .none => []
  | .v09 => ascii "HTTP/0.9"
  | .v10 => ascii "HTTP/1.0"
  | .v11 => ascii "HTTP/1.1"

/-- A status line in its parts. The reason may hold any byte but LF. -/
structure StatusParts where
  ver : Ver
  code : Bytes
  reason : Bytes
  ver_ne : ver ≠ .none
  code_numeral : Numeral code
  code_lt : decimal code < 2 ^ 31
  reason_lf : LF ∉ reason
  reason_head : reason.head? ≠ some SP

namespace StatusParts

variable (x : StatusParts) (a b : ℕ)

def line : Bytes :=
  verText x.ver ++ SP ::
    (List.replicate a SP ++ (x.code ++ SP :: (List.replicate b SP ++ x.reason)))

def text : Bytes := x.line a b ++ crlf

theorem verText_spec : (verText x.ver).length = 8 ∧ SP ∉ verText x.ver ∧ LF ∉ verText x.ver ∧
    versionOf (verText x.ver) = some x.ver := by
  have hne := x.ver_ne
  cases hv : x.ver with
  | none => exact absurd hv hne
  | v09 => decide
  | v10 => decide
  | v11 => decide

theorem code_free {c : UInt8} (hc : isDigit c = false) : c ∉ x.code :=
  numeral_free x.code_numeral hc

theorem token_line :
    token (x.line a b) = some
      (verText x.ver, x.code ++ SP :: (List.replicate b SP ++ x.reason)) := by
  obtain ⟨-, hsp, -, -⟩ := x.verText_spec
  exact token_some a hsp (head?_ne_of_free x.code_numeral.1 (x.code_free (by decide)))

theorem atoi_code : atoi x.code = decimal x.code := by
  have hlt := x.code_lt
  rw [atoi, strtol_numeral x.code_numeral, min_eq_right (by omega)]
  exact Int.bmod_eq_of_le (by omega) (by omega)

theorem tail_line : statusTail (verText x.ver) (x.code ++ SP :: (List.replicate b SP ++ x.reason)) =
    some (x.ver, (decimal x.code : ℤ), x.reason) := by
  obtain ⟨-, -, -, hver⟩ := x.verText_spec
  have hcode := token_some b (x.code_free (c := SP) (by decide)) x.reason_head
  have hnul := upToNul_of_free (x.code_free (c := 0) (by decide))
  simp only [statusTail, hver, hcode, hnul, x.atoi_code, Option.bind_eq_bind, Option.bind_some]

theorem line_lf : LF ∉ x.line a b ++ [CR] := by
  obtain ⟨-, -, hlf, -⟩ := x.verText_spec
  simp [line, hlf, x.code_free (c := LF) (by decide), x.reason_lf]

theorem line_head : (x.line a b ++ [CR]).head? ≠ some SP := by
  obtain ⟨hlen, hsp, -, -⟩ := x.verText_spec
  rw [line, List.append_assoc]
  exact head?_ne_of_free (List.ne_nil_of_length_pos (by omega)) hsp

end StatusParts

section Parse

variable {δ σ : Type} {hooks : Hooks δ σ} {psr : Parser δ} {s : Input} {own : σ} {pre post : Bytes}

variable (hooks psr own) in
theorem statusLine_parts (x : StatusParts) (a b : ℕ) (hb : s.buf = pre ++ x.text a b ++ post)
    (hp : s.pos = pre.length) :
    ∃ s' : Input, s'.buf.drop s'.pos = post ∧ s'.pos = s.pos + (x.text a b).length ∧
      httpParserStatusLine hooks psr s own = (do
        let (rc, data, own) ← hooks.hp_on_status_line x.ver (decimal x.code)
          (.ofBytes x.reason) psr.hp_data own
        return ⟨if rc = 0 then .done else .brk, ⟨.slDone, (x.text a b).length, data⟩, s',
          own⟩) := by
  have hb' : s.buf = pre ++ List.replicate 0 SP ++ (x.line a b ++ [CR]) ++ LF :: post := by
    simpa [StatusParts.text, crlf] using hb
  have h := statusLine_line hooks psr own pre hb' hp (x.line_lf a b) (x.line_head a b)
  have hlong : ¬ (x.line a b).length + post.length < 3 := by
    obtain ⟨hlen, -, -, -⟩ := x.verText_spec
    simp only [StatusParts.line, List.length_append, hlen]
    omega
  have htext : (x.text a b).length = (x.line a b).length + 2 := by simp [StatusParts.text, crlf]
  simp only [x.token_line a b, if_neg hlong, x.tail_line b, Nat.zero_add] at h
  obtain ⟨pre', hpre', h⟩ := h
  refine ⟨_, ?_, ?_, by rw [htext]; exact h⟩
  · rw [← List.drop_drop, List.drop_left]
    rfl
  · rw [htext, hp]
    dsimp only
    omega

/-- Whatever the callback does, it is called once, with the parts of the line, and what follows
the line is left to be parsed. Without a whole line nothing happens. -/
theorem statusLine_roundTrip (hooks : Hooks δ σ) (psr : Parser δ) (s : Input) (own : σ) :
    (∀ (x : StatusParts) (a b : ℕ) (pre post : Bytes), s.buf = pre ++ x.text a b ++ post →
      s.pos = pre.length →
      ∃ s' : Input, s'.buf.drop s'.pos = post ∧ s'.pos = s.pos + (x.text a b).length ∧
        httpParserStatusLine hooks psr s own = (do
          let (rc, data, own) ← hooks.hp_on_status_line x.ver (decimal x.code)
            (.ofBytes x.reason) psr.hp_data own
          return ⟨if rc = 0 then .done else .brk, ⟨.slDone, (x.text a b).length, data⟩, s', own⟩)) ∧
    (LF ∉ s.buf.drop s.pos → httpParserStatusLine hooks psr s own = .ok ⟨.again, psr, s, own⟩) :=
  ⟨fun x a b _ _ hb hp => statusLine_parts hooks psr own x a b hb hp,
    fun h => statusLine_none (cursor_noLf h)⟩

def notFound : StatusParts :=
  ⟨.v09, ascii "0404", [], by decide, by decide, by decide, by decide, by decide⟩

theorem statusLine_roundTrip_notFound : ∃ s' : Input, s'.buf.drop s'.pos = [65] ∧
    s'.pos = (notFound.text 2 0).length ∧
    httpParserStatusLine record fresh (whole (notFound.text 2 0 ++ [65])) [] =
      .ok ⟨.done, ⟨.slDone, (notFound.text 2 0).length, ()⟩, s',
        [.statusLine .v09 404 (.ofBytes [])]⟩ := by
  obtain ⟨h, -⟩ := statusLine_roundTrip record fresh (whole (notFound.text 2 0 ++ [65])) []
  obtain ⟨s', h1, h2, h3⟩ := h notFound 2 0 [] [65] rfl rfl
  exact ⟨s', h1, by rw [h2]; exact Nat.zero_add _, h3⟩

end Parse

end Plume.Http
