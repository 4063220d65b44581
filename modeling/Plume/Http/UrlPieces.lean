import Plume.Http.UrlParts

/-! Absolute URLs and what `plm_http_parser_url` makes of them. It looks for the ':' of a port, and
for the '/' of a path, in all of the rest of the URL. -/

namespace Plume.Http
open CLib

/-- The parts of an absolute URL, each of them without the separators that end it. -/
structure UrlPieces where
  scheme : Bytes
  host : Bytes
  port : Option Bytes
  path : Bytes
  scheme_free : COLON ∉ scheme
  host_free : COLON ∉ host ∧ SLASH ∉ host
  host_ne : host ≠ []
  port_digits : ∀ q ∈ port, Numeral q
  path_slash : path = [] ∨ path.head? = some SLASH

def UrlPieces.text (a : UrlPieces) : Bytes :=
  a.scheme ++ ascii ":" ++ ascii "//" ++ a.host ++ a.port.elim [] (ascii ":" ++ ·) ++ a.path

/-- The splitter finds these parts in the URL, the path without its '/'. -/
def Decomposed (a : UrlPieces) : Prop :=
  httpParserUrl ⟨a.text ++ [0], a.text.length⟩ =
    .ok (.done, ⟨.ofBytes a.scheme, .ofBytes a.host, .ofBytes (a.port.getD []),
      .ofBytes a.path.tail⟩)

section Decomposed

variable {u : Bytes} {a : UrlPieces}

theorem urlParts_text (a : UrlPieces) : urlParts a.text = hostParts (a.scheme.length + 1)
    (ascii "//" ++ (a.host ++ (a.port.elim [] (ascii ":" ++ ·) ++ a.path))) ⟨some ⟨0,
      a.scheme.length⟩, none, none, none⟩ := by
  have htext : a.text = a.scheme ++ COLON ::
    (ascii "//" ++ (a.host ++ (a.port.elim [] (ascii ":" ++ ·) ++ a.path))) := by
    have hcolon : ascii ":" = [COLON] := rfl
    unfold UrlPieces.text
    simp [hcolon]
  rw [htext, urlParts, cut_some a.scheme_free]

theorem decomposed_iff_parts : Decomposed a ↔ (urlParts a.text).1 = .done ∧
    (urlParts a.text).2.read (a.text ++ [0]) =
      ⟨.ofBytes a.scheme, .ofBytes a.host, .ofBytes (a.port.getD []), .ofBytes a.path.tail⟩ := by
  rw [Decomposed, httpParserUrl_eq]
  simp

/-- The pieces of the text as the strings at their places. -/
theorem read_piece {b m : Bytes} {off n : ℕ} (pre post : Bytes) (hb : b = pre ++ m ++ post)
    (hoff : off = pre.length)
    (hn : n = m.length) : Span.read b (some ⟨off, n⟩) = .ofBytes m := by
  rw [Span.read, slice_split hb hoff hn]

theorem read_rest {b pre d : Bytes} {off : ℕ} {o : UrlParts} (hb : b = pre ++ d ++ [0])
    (hoff : off = pre.length)
    (ho : o.hu_path = none) : (o.rest off d).read b = { o.read b with hu_path := .ofBytes d } := by
  unfold UrlParts.rest
  split_ifs with hd
  · rw [UrlParts.read, ho, hd]
    rfl
  · simp only [UrlParts.read, read_piece pre [0] hb hoff rfl]

theorem read_authority {b s h : Bytes} (post : Bytes)
    (hb : b = s ++ ascii ":" ++ ascii "//" ++ h ++ post) :
    Span.read b (some ⟨0, s.length⟩) = .ofBytes s ∧
      Span.read b (some ⟨s.length + 1 + 2, h.length⟩) = .ofBytes h := by
  have hl : (ascii ":").length = 1 ∧ (ascii "//").length = 2 := by decide
  constructor
  · exact read_piece [] (ascii ":" ++ ascii "//" ++ h ++ post) (by simpa using hb) rfl rfl
  · exact read_piece (s ++ ascii ":" ++ ascii "//") post hb (by simp [hl.1, hl.2]) rfl

/-- With a port, just a path that is there is wanted. -/
theorem decomposed_port {q : Bytes} (hq : a.port = some q) : Decomposed a ↔ a.path ≠ [] := by
  have hnum := a.port_digits q hq
  have hcut : cut COLON (a.host ++ (ascii ":" ++ q ++ a.path)) = some (a.host, q ++ a.path) :=
    cut_some a.host_free.1
  have hne : q ++ a.path ≠ [] := fun h => hnum.1 (List.append_eq_nil_iff.1 h).1
  have hslash := numeral_free hnum (show isDigit SLASH = false by decide)
  rw [decomposed_iff_parts, urlParts_text, hostParts_slashes, hq, Option.elim_some, hcut]
  simp only
  rw [portParts, if_neg hne]
  rcases a.path_slash with hpath | hpath
  · rw [hpath, List.append_nil, cut_none hslash]
    simp
  · obtain ⟨p, hp⟩ : ∃ p, a.path = SLASH :: p := List.head?_eq_some_iff.1 hpath
    have hs : ascii "/" = [SLASH] := rfl
    have hl : (ascii ":").length = 1 ∧ (ascii "//").length = 2 := by decide
    have htext : a.text ++ [0] =
        a.scheme ++ ascii ":" ++ ascii "//" ++ a.host ++ ascii ":" ++ q ++ ascii "/" ++ p ++
          [0] := by
      unfold UrlPieces.text
      simp [hq, hp, hs]
    obtain ⟨hscheme, hhost⟩ :=
      read_authority (ascii ":" ++ q ++ ascii "/" ++ p ++ [0]) (by simpa using htext)
    have hport : Span.read (a.text ++ [0])
      (some ⟨a.scheme.length + 1 + 2 + a.host.length + 1, q.length⟩) = .ofBytes q :=
      read_piece (a.scheme ++ ascii ":" ++ ascii "//" ++ a.host ++ ascii ":")
        (ascii "/" ++ p ++ [0])
        (by simpa using htext) (by simp [hl.1, hl.2]; omega) rfl
    rw [hp, cut_some hslash]
    refine iff_of_true ⟨rfl, ?_⟩ (List.cons_ne_nil _ _)
    simp only
    rw [read_rest htext (by simp [hl.1, hl.2, hs]; omega) rfl]
    simp only [UrlParts.read, Option.getD_some, List.tail_cons, hscheme, hhost, hport]

theorem portParts_host (off : ℕ) (d : Bytes) (out : UrlParts) :
    (portParts off d out).2.hu_host = out.hu_host := by
  unfold portParts UrlParts.rest
  split_ifs
  · rfl
  · cases cut SLASH d with
    | none => rfl
    | some x =>
      simp only
      split_ifs <;> rfl

/-- Without a port, the path is to be there and to have no ':'. -/
theorem decomposed_noPort (hq : a.port = none) : Decomposed a ↔ a.path ≠ [] ∧ COLON ∉ a.path := by
  rw [decomposed_iff_parts, urlParts_text, hostParts_slashes, hq, Option.elim_none, List.nil_append]
  rcases a.path_slash with hpath | hpath
  · rw [hpath, List.append_nil, cut_none a.host_free.1]
    simp only
    rw [cut_none a.host_free.2]
    simp
  obtain ⟨p, hp⟩ : ∃ p, a.path = SLASH :: p := List.head?_eq_some_iff.1 hpath
  have hs : ascii "/" = [SLASH] := rfl
  have hl : (ascii ":").length = 1 ∧ (ascii "//").length = 2 := by decide
  have htext : a.text ++ [0] = a.scheme ++ ascii ":" ++ ascii "//" ++ a.host ++ ascii "/" ++ p ++
    [0] := by
    unfold UrlPieces.text
    simp [hq, hp, hs]
  have hne : a.path ≠ [] := by simp [hp]
  rw [and_iff_right hne]
  by_cases hcolon : COLON ∈ p
  · -- the host ends at the ':'
    obtain ⟨x, y, rfl, hx⟩ := List.eq_append_cons_of_mem hcolon
    have hno : COLON ∉ a.host ++ SLASH :: x := by
      simp [a.host_free.1, hx, (by decide : COLON ≠ SLASH)]
    have hcut : cut COLON (a.host ++ a.path) = some (a.host ++ SLASH :: x, y) := by
      rw [hp, show a.host ++ SLASH :: (x ++ COLON :: y) = (a.host ++ SLASH :: x) ++ COLON ::
        y by simp, cut_some hno]
    rw [hcut]
    simp only
    refine iff_of_false (fun h => ?_) (by simp [hp])
    obtain ⟨-, hhost⟩ :=
      read_authority (b := a.text ++ [0]) (s := a.scheme) (h := a.host ++ SLASH :: x)
      (COLON :: y ++ [0]) (by rw [htext]; simp [hs])
    have hread := congrArg Url.hu_host h.2
    simp only [UrlParts.read, portParts_host, hhost] at hread
    have hstr := congrArg PStr.s_str hread
    rw [PStr.ofBytes_str, PStr.ofBytes_str, List.append_right_eq_self] at hstr
    cases hstr
  · have hno : COLON ∉ a.host ++ a.path := by
      simp [hp, a.host_free.1, hcolon, (by decide : COLON ≠ SLASH)]
    obtain ⟨hscheme, hhost⟩ := read_authority (ascii "/" ++ p ++ [0]) (by simpa using htext)
    rw [cut_none hno]
    simp only
    rw [hp, cut_some a.host_free.2]
    refine iff_of_true ⟨rfl, ?_⟩ (by simp [hcolon, (by decide : COLON ≠ SLASH)])
    simp only
    rw [read_rest htext (by simp [hl.1, hl.2, hs]; omega) rfl]
    simp only [UrlParts.read, Option.getD_none, List.tail_cons, hscheme, hhost]
    rfl

end Decomposed

/-- For every absolute URL: its parts are found just when it has a path, and without a port no ':'
in it. -/
theorem decomposed_iff (a : UrlPieces) :
    Decomposed a ↔ a.path ≠ [] ∧ (a.port = none → COLON ∉ a.path) := by
  cases hq : a.port with
  | none => simp [decomposed_noPort hq]
  | some q => simp [decomposed_port hq]

def urlWithColon : UrlPieces where
  scheme := ascii "http"
  host := ascii "h"
  port := none
  path := ascii "/a:b"
  scheme_free := by decide
  host_free := by decide
  host_ne := by decide
  port_digits := by simp
  path_slash := .inr (by decide)

/-- Its host comes out as `h/a`, its port as `b`. -/
theorem not_decomposed : ¬ ∀ a, Decomposed a :=
  fun h => absurd (h urlWithColon) (by unfold Decomposed; decide)

end Plume.Http
