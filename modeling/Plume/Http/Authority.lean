import Plume.CLib.Run
import Plume.Http.OnHead

/-! Where `hr_host` and `hr_port` come from. A URL that names a server decides both,
any other leaves them to the first `Host` field. `plm_http_parser_url` looks for a ':'
wherever one stands, `plm_http_on_field` takes every name that begins with an 'H' for
`Host` as long as the host is empty, and `plm_http_on_hdr_done` sets the default port of
whatever request its local variable happens to designate. -/

namespace Plume.Http
open CLib

/-- A URL with an authority: scheme://host[:port]/path. -/
structure AbsUrl where
  scheme : Bytes
  host : Bytes
  port : Option Bytes
  path : Bytes
  scheme_ne : scheme ≠ []
  scheme_free : COLON ∉ scheme ∧ SLASH ∉ scheme
  host_ne : host ≠ []
  host_free : COLON ∉ host ∧ SLASH ∉ host
  port_free : ∀ p ∈ port, SLASH ∉ p

def AbsUrl.tail (a : AbsUrl) : Bytes :=
  (match a.port with
    | some p => COLON :: p
    | none => []) ++ SLASH :: a.path

def AbsUrl.text (a : AbsUrl) : Bytes := a.scheme ++ COLON :: (ascii "//" ++ a.host ++ a.tail)

/-- The number a port text stands for: 80 without one. A text that is no numeral says nothing. -/
structure PortIs (text : Option Bytes) (port : ℕ) : Prop where
  default : text.getD [] = [] → port = 80
  number : Numeral (text.getD []) → port = decimal (text.getD [])

def isHost (f : Bytes × Bytes) : Bool := named (ascii "Host") f.1

/-- The authority of the first `Host` field. -/
def hostOf (fs : List (Bytes × Bytes)) : Bytes × Option Bytes :=
  match fs.find? isHost with
  | some f => splitHost f.2
  | none => ([], none)

structure AuthorityIs (u : Bytes) (fs : List (Bytes × Bytes)) (host : Bytes) (port : ℕ) : Prop where
  origin : u.head? = some SLASH → host = (hostOf fs).1 ∧ PortIs (hostOf fs).2 port
  absolute : ∀ a : AbsUrl, u = a.text → host = a.host ∧ PortIs a.port port
  default : COLON ∉ u → (∀ f ∈ fs, isHost f = true → COLON ∉ f.2) → port = 80

/-- For the head with these fields and every head with fewer: the callbacks give the
request its host and port, and a field that is no `Host` leaves both alone. -/
@[mk_iff authorityKept_def]
structure AuthorityKept (junk : Option ℕ) (mthd : Mthd) (ver : Ver) (u : Bytes)
    (fs : List (Bytes × Bytes)) (c : Conn) : Prop where
  known : ∀ pre, pre <+: fs → ∃ c' r host, onHead junk mthd ver u pre c = .ok c' ∧
    c'.hc_reqs[c.hc_reqs.length]? = some r ∧ Spells r.hr_host host ∧
      AuthorityIs u pre host r.hr_port
  frame : ∀ pre f, pre ++ [f] <+: fs → isHost f = false → ∃ d₁ c₁ r₁ d₂ c₂ r₂,
    onLineAndFields mthd ver u pre c = .ok (d₁, c₁) ∧ c₁.hc_reqs[c.hc_reqs.length]? = some r₁ ∧
    onLineAndFields mthd ver u (pre ++ [f]) c = .ok (d₂, c₂) ∧
    c₂.hc_reqs[c.hc_reqs.length]? = some r₂ ∧ r₂.hr_port = r₁.hr_port ∧
    ∃ host, Spells r₁.hr_host host ∧ Spells r₂.hr_host host

section Run

variable {c : Conn}

/-- Whole heads: the pointer must designate a request, and then host and port are as computed. -/
theorem onHead_iff (hm : c.mem = []) (junk : Option ℕ) (mthd : Mthd) (ver : Ver) (u : Bytes)
    (pre : List (Bytes × Bytes)) {P : Bytes → ℕ → Prop} :
    (∃ c' r host, onHead junk mthd ver u pre c = .ok c' ∧ c'.hc_reqs[c.hc_reqs.length]? = some r ∧
      Spells r.hr_host host ∧ P host r.hr_port) ↔
    ∃ i ≤ c.hc_reqs.length, junk = some i ∧ P (authorityState u pre).1
      (defaulted (i == c.hc_reqs.length) (authorityState u pre).2) := by
  obtain ⟨r, he, h⟩ := onLineAndFields_ok hm mthd ver u pre
  have hrun : onHead junk mthd ver u pre c =
      (httpOnHdrDone junk (.req c.hc_reqs.length) { c with hc_reqs := c.hc_reqs ++
        [r] } >>= fun p => pure p.2) := by
    unfold onHead
    rw [he]
    rfl
  constructor
  · rintro ⟨c', r', host, ho, hr', hs, hP⟩
    cases junk with
    | none => rw [hrun] at ho; simp [httpOnHdrDone] at ho
    | some i =>
      by_cases hi : i ≤ c.hc_reqs.length
      · refine ⟨i, hi, rfl, ?_⟩
        obtain ⟨c₁, hd, hget⟩ :=
          httpOnHdrDone_ok (c := { c with hc_reqs := c.hc_reqs ++ [r] }) rfl hi
          (.req c.hc_reqs.length)
        rw [hrun, hd, ok_bind] at ho
        obtain rfl : c₁ = c' := Except.ok.inj ho
        obtain rfl := Option.some.inj (hget.symm.trans hr')
        rw [hs.inj h.host] at hP
        rw [← h.port]
        exact hP
      · rw [hrun] at ho
        have hnone : (c.hc_reqs ++ [r])[i]? = none := by
          rw [List.getElem?_eq_none_iff, List.length_append, List.length_singleton]
          omega
        simp [httpOnHdrDone, hnone] at ho
  · rintro ⟨i, hi, rfl, hP⟩
    obtain ⟨c₁, hd, hget⟩ := httpOnHdrDone_ok (c := { c with hc_reqs := c.hc_reqs ++ [r] }) rfl hi
      (.req c.hc_reqs.length)
    refine ⟨c₁, _, _, ?_, hget, h.host, ?_⟩
    · rw [hrun, hd]
      rfl
    · rw [h.port]
      exact hP

/-- A field leaves host and port alone just when the computed pair stays. -/
theorem frame_iff (hm : c.mem = []) (mthd : Mthd) (ver : Ver) (u : Bytes)
    (pre : List (Bytes × Bytes))
    (f : Bytes × Bytes) :
    (∃ d₁ c₁ r₁ d₂ c₂ r₂, onLineAndFields mthd ver u pre c = .ok (d₁, c₁) ∧
      c₁.hc_reqs[c.hc_reqs.length]? = some r₁ ∧
      onLineAndFields mthd ver u (pre ++ [f]) c = .ok (d₂, c₂) ∧
      c₂.hc_reqs[c.hc_reqs.length]? = some r₂ ∧ r₂.hr_port = r₁.hr_port ∧
      ∃ host, Spells r₁.hr_host host ∧ Spells r₂.hr_host host) ↔
    fieldState (authorityState u pre) f = authorityState u pre := by
  obtain ⟨r₁, he₁, h₁⟩ := onLineAndFields_ok hm mthd ver u pre
  obtain ⟨r₂, he₂, h₂⟩ := onLineAndFields_ok hm mthd ver u (pre ++ [f])
  have hstep : authorityState u (pre ++ [f]) = fieldState (authorityState u pre) f := by
    unfold authorityState
    rw [List.foldl_append]
    rfl
  rw [hstep] at h₂
  constructor
  · rintro ⟨d₁, c₁, r₁', d₂, c₂, r₂', ho₁, hg₁, ho₂, hg₂, hp, host, hs₁, hs₂⟩
    obtain ⟨-, rfl⟩ := Prod.mk.inj (Except.ok.inj (he₁.symm.trans ho₁))
    obtain ⟨-, rfl⟩ := Prod.mk.inj (Except.ok.inj (he₂.symm.trans ho₂))
    obtain rfl : r₁ = r₁' := by simpa using hg₁
    obtain rfl : r₂ = r₂' := by simpa using hg₂
    refine Prod.ext ?_ ?_
    · rw [← hs₂.inj h₂.host, hs₁.inj h₁.host]
    · rw [← h₂.port, hp, h₁.port]
  · intro h
    rw [h] at h₂
    refine ⟨_, _, r₁, _, _, r₂, he₁, by simp, he₂, by simp, ?_, _, h₁.host, h₂.host⟩
    rw [h₂.port, h₁.port]

end Run

theorem lower_eq_h {c : UInt8} (h : lower c = 104) : c = 72 ∨ c = 104 := by
  unfold lower at h
  split_ifs at h with hc
  · left
    have h' : (c.toNat + 32) % 2 ^ 8 = 104 := by
      simpa [UInt8.toNat_add] using congrArg UInt8.toNat h
    have hlt := c.toNat_lt
    exact UInt8.toNat_inj.1 (show c.toNat = 72 by omega)
  · exact .inr h

theorem takenForHost_of_isHost {f : Bytes × Bytes} (h : isHost f = true) :
    takenForHost f = true := by
  unfold isHost named at h
  unfold takenForHost
  have hhost : (ascii "Host").map lower = [104, 111, 115, 116] := by decide
  rw [beq_iff_eq, hhost] at h
  obtain ⟨c, hc, k, hk⟩ : ∃ c, lower c = 104 ∧ ∃ k, f.1 = c :: k := by
    cases hf : f.1 with
    | nil => rw [hf] at h; exact absurd h (by decide)
    | cons c k => rw [hf] at h; exact ⟨c, (List.cons.inj h).1, k, rfl⟩
  rw [hk]
  rcases lower_eq_h hc with rfl | rfl <;> rfl

/-- A port text that reads as what it says, the default port included. -/
structure PortFits (cur : Bool) (p : Bytes) : Prop where
  default : p = [] → cur = true
  number : Numeral p → decimal p < 65536 ∧ (decimal p = 0 → cur = false)

theorem portOf_nil : portOf (.ofBytes []) = 0 := by decide

theorem portIs_some (cur : Bool) (p : Bytes) :
    PortIs (some p) (defaulted cur (portOf (.ofBytes p))) ↔ PortFits cur p := by
  have hnum : ∀ d : ℕ, defaulted cur (d % 65536) = d ↔ d < 65536 ∧ (d = 0 → cur = false) := by
    intro d
    unfold defaulted
    cases cur
    · simp
    · simp only [Bool.true_and, beq_iff_eq, Bool.true_eq_false, imp_false]
      split_ifs with h <;> omega
  constructor
  · intro ⟨hd, hn⟩
    refine ⟨fun hp => ?_, fun hp => ?_⟩
    · subst hp
      have := hd rfl
      rw [portOf_nil] at this
      cases cur with
      | true => rfl
      | false => exact absurd this (by decide)
    · have := hn hp
      rw [portOf_numeral hp] at this
      exact (hnum _).1 this
  · intro ⟨hd, hn⟩
    refine ⟨fun hp => ?_, fun hp => ?_⟩
    · obtain rfl : p = [] := hp
      rw [portOf_nil, hd rfl]
      rfl
    · rw [portOf_numeral (v := p) hp]
      exact (hnum _).2 (hn hp)


theorem hostPort_slashes (b : Bytes) : hostPort (ascii "//" ++ b) = match cut COLON b with
    | some (h, d) => (h, ((cut SLASH d).map Prod.fst).getD [])
    | none => (((cut SLASH b).map Prod.fst).getD [], []) := by
  unfold hostPort
  rw [if_pos (by rfl)]
  rfl

theorem urlAuthority_text (a : AbsUrl) :
    urlAuthority a.text = hostPort (ascii "//" ++ (a.host ++ a.tail)) := by
  unfold urlAuthority AbsUrl.text
  rw [cut_some a.scheme_free.1, List.append_assoc]

theorem urlAuthority_port {a : AbsUrl} {p : Bytes} (hp : a.port = some p) :
    urlAuthority a.text = (a.host, p) := by
  have htail : a.host ++ a.tail = a.host ++ COLON :: (p ++ SLASH :: a.path) := by
    unfold AbsUrl.tail
    rw [hp]
    rfl
  rw [urlAuthority_text, hostPort_slashes, htail, cut_some a.host_free.1]
  simp only [cut_some (a.port_free p hp)]
  rfl

theorem urlAuthority_noPort {a : AbsUrl} (hp : a.port = none) (hpath : COLON ∉ a.path) :
    urlAuthority a.text = (a.host, []) := by
  have htail : a.host ++ a.tail = a.host ++ SLASH :: a.path := by
    unfold AbsUrl.tail
    rw [hp]
    rfl
  have hno : COLON ∉ a.host ++ SLASH :: a.path := by
    simp [a.host_free.1, hpath, (by decide : COLON ≠ SLASH)]
  rw [urlAuthority_text, hostPort_slashes, htail, cut_none hno]
  simp only [cut_some a.host_free.2]
  rfl

/-- A ':' in the path is taken for the one in front of a port. -/
theorem urlAuthority_path {a : AbsUrl} (hp : a.port = none) (hpath : COLON ∈ a.path) :
    (urlAuthority a.text).1 ≠ a.host := by
  obtain ⟨x, t, hx, hxno⟩ := List.eq_append_cons_of_mem hpath
  have htail : a.host ++ a.tail = (a.host ++ SLASH :: x) ++ COLON :: t := by
    unfold AbsUrl.tail
    rw [hp, hx]
    simp
  have hno : COLON ∉ a.host ++ SLASH :: x := by
    simp [a.host_free.1, hxno, (by decide : COLON ≠ SLASH)]
  rw [urlAuthority_text, hostPort_slashes, htail, cut_some hno]
  intro h
  have := congrArg List.length h
  simp at this


/-- A URL from which the code takes the authority there is, and no other. -/
structure UrlRight (cur : Bool) (u : Bytes) : Prop where
  /-- in a path, no "://" with a host behind it and no port but the default one -/
  origin : u.head? = some SLASH → (urlAuthority u).1 = [] ∧ defaulted cur (urlState u).2 = 80
  /-- without a port, no ':' in the path -/
  absolute : ∀ a : AbsUrl, u = a.text →
    (a.port = none → COLON ∉ a.path) ∧ PortFits cur (a.port.getD [])
  default : COLON ∉ u → cur = true

structure FieldRight (cur : Bool) (u : Bytes) (pre : List (Bytes × Bytes)) (f : Bytes × Bytes) :
    Prop where
  /-- another name beginning with an 'H' finds the host set, or has no host in its value and
  no port but the one known -/
  other : isHost f = false → takenForHost f = true → (authorityState u pre).1 = [] →
    (splitHost f.2).1 = [] ∧ ∀ p ∈ (splitHost f.2).2, portOf (.ofBytes p) = (authorityState u pre).2
  /-- the port of the first `Host` field is one -/
  first : u.head? = some SLASH → isHost f = true → pre.find? isHost = none →
    ∀ p ∈ (splitHost f.2).2, PortFits cur p
  /-- a further `Host` field finds the host set, or has no host and no other port -/
  later : u.head? = some SLASH → isHost f = true →
    ∀ g ∈ pre.find? isHost, (authorityState u pre).1 = [] →
    (splitHost f.2).1 = [] ∧
      ∀ p ∈ (splitHost f.2).2, PortIs (splitHost g.2).2 (defaulted cur (portOf (.ofBytes p)))

section Conditions

variable {u : Bytes} {pre : List (Bytes × Bytes)} {f : Bytes × Bytes} {cur : Bool}

theorem urlState_port (u : Bytes) : (urlState u).2 = portOf (.ofBytes (urlAuthority u).2) := by
  unfold urlState
  split_ifs with h
  · rw [h, portOf_nil]
  · rfl

theorem portIs_congr {s t : Option Bytes} (h : s.getD [] = t.getD []) (port : ℕ) :
    PortIs s port ↔ PortIs t port :=
  ⟨fun ⟨h1, h2⟩ => ⟨h ▸ h1, h ▸ h2⟩, fun ⟨h1, h2⟩ => ⟨h ▸ h1, h ▸ h2⟩⟩

theorem defaulted_zero : defaulted cur 0 = 80 ↔ cur = true := by
  unfold defaulted
  cases cur <;> simp

/-- Before any field, host and port are right just when the URL is. -/
theorem urlRight_iff :
    AuthorityIs u [] (urlState u).1 (defaulted cur (urlState u).2) ↔ UrlRight cur u := by
  have hnone : ∀ port, PortIs none port ↔ port = 80 := fun port =>
    ⟨fun h => h.default rfl, fun h => ⟨fun _ => h, fun hn => absurd rfl hn.1⟩⟩
  have habs : ∀ a : AbsUrl, u = a.text →
      ((urlState u).1 = a.host ∧ PortIs a.port (defaulted cur (urlState u).2) ↔
        (a.port = none → COLON ∉ a.path) ∧ PortFits cur (a.port.getD [])) := by
    rintro a rfl
    rw [urlState_port, urlState]
    cases hp : a.port with
    | some p =>
      rw [urlAuthority_port hp]
      simp [portIs_some]
    | none =>
      by_cases hpath : COLON ∈ a.path
      · simp [hpath, urlAuthority_path hp hpath]
      · rw [urlAuthority_noPort hp hpath]
        show a.host = a.host ∧ PortIs none (defaulted cur (portOf (.ofBytes []))) ↔ _
        rw [portIs_congr (s := none) (t := some []) rfl, portIs_some]
        simp [hpath]
  have hno : COLON ∉ u → (urlState u).2 = 0 := by
    intro h
    rw [urlState_port, urlAuthority, cut_none h]
    exact portOf_nil
  constructor
  · rintro ⟨h1, h2, h3⟩
    refine ⟨fun ho => ?_, fun a ha => (habs a ha).1 (h2 a ha), fun hc => ?_⟩
    · exact ⟨(h1 ho).1, (hnone _).1 (h1 ho).2⟩
    · have := h3 hc (by simp)
      rwa [hno hc, defaulted_zero] at this
  · rintro ⟨h1, h2, h3⟩
    refine ⟨fun ho => ?_, fun a ha => (habs a ha).2 (h2 a ha), fun hc _ => ?_⟩
    · exact ⟨(h1 ho).1, (hnone _).2 (h1 ho).2⟩
    · rw [hno hc, defaulted_zero]
      exact h3 hc

theorem authorityState_snoc (u : Bytes) (pre : List (Bytes × Bytes)) (f : Bytes × Bytes) :
    authorityState u (pre ++ [f]) = fieldState (authorityState u pre) f := by
  unfold authorityState
  rw [List.foldl_append]
  rfl

theorem fieldState_eq_self {s : Bytes × ℕ} :
    fieldState s f = s ↔ (takenForHost f = true → s.1 = [] →
    (splitHost f.2).1 = [] ∧ ∀ p ∈ (splitHost f.2).2, portOf (.ofBytes p) = s.2) := by
  unfold fieldState
  split_ifs with h
  · obtain ⟨ht, hs⟩ := Bool.and_eq_true_iff.1 h
    rw [beq_iff_eq] at hs
    simp only [ht, hs, true_implies]
    cases hp : (splitHost f.2).2 <;> simp [Prod.ext_iff, hs]
  · simp only [true_iff]
    intro ht hs
    exact absurd (by simp [ht, hs]) h

theorem hostOf_snoc (pre : List (Bytes × Bytes)) (f : Bytes × Bytes) :
    hostOf (pre ++ [f]) = match pre.find? isHost with
      | some g => splitHost g.2
      | none => if isHost f then splitHost f.2 else ([], none) := by
  unfold hostOf
  rw [List.find?_append]
  cases pre.find? isHost with
  | some g => rfl
  | none =>
    cases hf : isHost f <;> simp [hf]

theorem splitHost_none {v : Bytes} (h : COLON ∉ v) : splitHost v = (v, none) := by
  unfold splitHost
  rw [cut_none h]

/-- Under a URL of a path, a `Host` field keeps host and port right just when it is the first
and gives a port, or changes nothing. -/
theorem origin_iff (ho : u.head? = some SLASH) (hf : isHost f = true)
    (h : AuthorityIs u pre (authorityState u pre).1 (defaulted cur (authorityState u pre).2)) :
    ((fieldState (authorityState u pre) f).1 = (hostOf (pre ++ [f])).1 ∧
      PortIs (hostOf (pre ++ [f])).2 (defaulted cur (fieldState (authorityState u pre) f).2)) ↔
    (pre.find? isHost = none → ∀ p ∈ (splitHost f.2).2, PortFits cur p) ∧
    ∀ g ∈ pre.find? isHost, (authorityState u pre).1 = [] → (splitHost f.2).1 = [] ∧
      ∀ p ∈ (splitHost f.2).2, PortIs (splitHost g.2).2 (defaulted cur (portOf (.ofBytes p))) := by
  obtain ⟨hhost, hport⟩ := h.origin ho
  have ht := takenForHost_of_isHost hf
  rw [hostOf_snoc, hf]
  unfold fieldState
  rw [hostOf] at hhost hport
  rw [ht]
  cases hg : pre.find? isHost with
  | none =>
    rw [hg] at hhost hport
    have hs : (authorityState u pre).1 = [] := hhost
    rw [hs]
    cases hp : (splitHost f.2).2 with
    | none => simpa [hp] using hport
    | some p => simp [hp, portIs_some]
  | some g =>
    rw [hg] at hhost hport
    by_cases hs : (authorityState u pre).1 = []
    · have hg1 : (splitHost g.2).1 = [] := hhost.symm.trans hs
      rw [hs]
      cases hp : (splitHost f.2).2 with
      | none => simp [hg1, hport]
      | some p => simp [hg1]
    · rw [if_neg (by simp [hs])]
      exact ⟨fun _ => ⟨fun hn => absurd hn (by simp), fun _ _ h0 => absurd h0 hs⟩,
        fun _ => ⟨hhost, hport⟩⟩

theorem fieldRight_iff
    (h : AuthorityIs u pre (authorityState u pre).1 (defaulted cur (authorityState u pre).2)) :
    AuthorityIs u (pre ++ [f]) (authorityState u (pre ++ [f])).1
        (defaulted cur (authorityState u (pre ++ [f])).2) ∧
      (isHost f = false → fieldState (authorityState u pre) f = authorityState u pre) ↔
    FieldRight cur u pre f := by
  rw [authorityState_snoc]
  cases hf : isHost f with
  | false =>
    have hhost : hostOf (pre ++ [f]) = hostOf pre := by
      rw [hostOf_snoc, hf, hostOf]
      cases pre.find? isHost <;> rfl
    constructor
    · intro ⟨_, hframe⟩
      refine ⟨fun _ => fieldState_eq_self.1 (hframe rfl), ?_, ?_⟩
      · intro _ hf'; exact absurd (hf.symm.trans hf') (by decide)
      · intro _ hf'; exact absurd (hf.symm.trans hf') (by decide)
    · intro hr
      have hframe := fieldState_eq_self.2 (hr.other hf)
      rw [hframe]
      refine ⟨⟨?_, h.absolute, fun hc hfs => ?_⟩, fun _ => rfl⟩
      · rw [hhost]; exact h.origin
      · exact h.default hc fun g hg => hfs g (by simp [hg])
  | true =>
    have habs : ∀ a : AbsUrl, u = a.text →
        fieldState (authorityState u pre) f = authorityState u pre := by
      intro a ha
      apply fieldState_eq_self.2
      intro _ hs
      exact absurd ((h.absolute a ha).1.symm.trans hs) a.host_ne
    have hdef : COLON ∉ f.2 →
      (fieldState (authorityState u pre) f).2 = (authorityState u pre).2 := by
      intro hc
      unfold fieldState
      split_ifs
      · rw [splitHost_none hc]; rfl
      · rfl
    constructor
    · intro ⟨hr, _⟩
      refine ⟨fun hf' => absurd (hf.symm.trans hf') (by decide), fun ho _ => ?_, fun ho _ => ?_⟩
      · exact ((origin_iff ho hf h).1 (hr.origin ho)).1
      · exact ((origin_iff ho hf h).1 (hr.origin ho)).2
    · intro hr
      refine ⟨⟨fun ho => ?_, fun a ha => ?_, fun hc hfs => ?_⟩, fun hf' => absurd hf' (by decide)⟩
      · exact (origin_iff ho hf h).2 ⟨hr.first ho hf, hr.later ho hf⟩
      · rw [habs a ha]
        exact h.absolute a ha
      · rw [hdef (hfs f (by simp) hf)]
        exact h.default hc fun g hg => hfs g (by simp [hg])

end Conditions

/-- The inputs on which the code takes the authority from where it should: the pointer of
`plm_http_on_hdr_done` designates a request, the URL is right, and so is every field. -/
structure AuthorityRight (junk : Option ℕ) (n : ℕ) (u : Bytes) (fs : List (Bytes × Bytes)) :
    Prop where
  pointer : ∃ i ≤ n, junk = some i
  url : UrlRight (junk == some n) u
  fields : ∀ pre f, pre ++ [f] <+: fs → FieldRight (junk == some n) u pre f

/-- For every URL and all fields, on a connection with any requests before: host and port
come from the authority just when the pointer, the URL and the fields are right. -/
theorem authorityKept_iff (junk : Option ℕ) (mthd : Mthd) (ver : Ver) (u : Bytes)
    (fs : List (Bytes × Bytes)) (reqs : List Req) (body : Option ℕ) :
    AuthorityKept junk mthd ver u fs ⟨reqs, body, []⟩ ↔ AuthorityRight junk reqs.length u fs := by
  rw [authorityKept_def]
  simp only [onHead_iff (c := ⟨reqs, body, []⟩) rfl junk mthd ver u,
    frame_iff (c := ⟨reqs, body, []⟩) rfl mthd ver u]
  by_cases hj : ∃ i ≤ reqs.length, junk = some i
  case neg =>
    constructor
    · intro ⟨h, _⟩
      obtain ⟨i, hi, he, _⟩ := h [] (List.nil_prefix ..)
      exact absurd ⟨i, hi, he⟩ hj
    · exact fun h => absurd h.pointer hj
  obtain ⟨i, hi, rfl⟩ := hj
  have hcur : (some i == some reqs.length) = (i == reqs.length) := rfl
  have hone : ∀ P : ℕ → Prop, (∃ j ≤ reqs.length, some i = some j ∧ P j) ↔ P i := fun P =>
    ⟨fun ⟨j, _, hj, h⟩ => Option.some.inj hj ▸ h, fun h => ⟨i, hi, rfl, h⟩⟩
  simp only [hone]
  by_cases hu : UrlRight (i == reqs.length) u
  case neg =>
    constructor
    · intro ⟨h, _⟩
      exact absurd (urlRight_iff.1 (h [] (List.nil_prefix ..))) hu
    · exact fun h => absurd h.url hu
  have hsteps := forall_prefix_iff (l := fs) (C := FieldRight (i == reqs.length) u)
    (P := fun pre => AuthorityIs u pre (authorityState u pre).1
      (defaulted (i == reqs.length) (authorityState u pre).2)) (urlRight_iff.2 hu)
    (fun pre f _ h => fieldRight_iff h)
  exact ⟨fun h => ⟨⟨i, hi, rfl⟩, hu, hsteps.1 h⟩, fun h => hsteps.2 h.fields⟩

/-- A request with "://" in its query takes its host from there, whatever `Host` says. -/
theorem authorityKept_false : ¬ AuthorityKept (some 0) .get .v11 (ascii "/?u=http://evil/x")
    [(ascii "Host", ascii "a")] ⟨[], none, []⟩ := by
  intro h
  obtain ⟨c', r, host, ho, hr, hs, ha⟩ := h.known _ (List.prefix_refl _)
  obtain ⟨c₁, r₁, ho₁, hr₁, hs₁⟩ : ∃ c₁ r₁, onHead (some 0) .get .v11 (ascii "/?u=http://evil/x")
      [(ascii "Host", ascii "a")] ⟨[], none, []⟩ = .ok c₁ ∧ c₁.hc_reqs[0]? = some r₁ ∧
      Spells r₁.hr_host (ascii "evil") := ⟨_, _, rfl, rfl, rfl, rfl⟩
  obtain rfl : c₁ = c' := Except.ok.inj (ho₁.symm.trans ho)
  obtain rfl : r₁ = r := Option.some.inj (hr₁.symm.trans hr)
  obtain rfl := hs₁.inj hs
  exact absurd (ha.origin rfl).1 (by decide)

end Plume.Http
