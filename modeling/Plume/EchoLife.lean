import Plume.Echo

/-! The life of an echo connection: its descriptor and the client's object from `blk_list` are to
end together. Where registering an event fails, the callbacks close the descriptor alone, or do
nothing. -/

namespace Plume
open CLib

/-- Descriptor and object are released once at most, no callback uses what has been released, and
when no event is pending any more both are released. -/
structure EchoLifecycle (s : EchoConn) : Prop where
  closed : s.io.count .close ≤ 1
  freed : s.io.count .free ≤ 1
  unused : ∀ a e, echoExec s a = .error e → e = .fuel
  ended : s.pending = none → s.cf_open = false ∧ s.cli = none

/-- The callback registers no event in vain. -/
def Registers (s : EchoConn) (_ : Answers) (s' : EchoConn) : Prop :=
  ∀ flag, EchoIo.register flag true ∈ s'.io → EchoIo.register flag true ∈ s.io

def EchoIo.plain : EchoIo → Bool
  | .register _ failed => !failed
  | .close | .free => false
  | _ => true

structure Held (s : EchoConn) : Prop where
  isOpen : s.cf_open = true
  client : s.cli ≠ none
  plain : ∀ e ∈ s.io, e.plain = true

structure Gone (s : EchoConn) : Prop where
  closed : s.cf_open = false
  client : s.cli = none
  pending : s.pending = none
  once : s.io.count .close ≤ 1 ∧ s.io.count .free ≤ 1

/-- How a callback can leave the connection that it finds held: waiting for an event, released, or
without an event after a registration that failed. -/
def Left (s : EchoConn) : Prop :=
  (Held s ∧ s.pending ≠ none) ∨ (Gone s ∧ ∀ flag, EchoIo.register flag true ∉ s.io) ∨
    (s.pending = none ∧ s.cli ≠ none ∧ ∃ flag, EchoIo.register flag true ∈ s.io)

def Returns (r : Except Fault EchoConn) (P : EchoConn → Prop) : Prop :=
  r = .error .fuel ∨ ∃ s, r = .ok s ∧ P s

section Callback

variable {s : EchoConn} {a : Answers} {io : List EchoIo} {refuse : Bool} {flag : Dir}

theorem Held.log (h : Held s) (io : List EchoIo) (hio : ∀ e ∈ io, e.plain = true) :
    Held (s.log io) :=
  ⟨h.isOpen, h.client, fun e he => (List.mem_append.1 he).elim (h.plain e) (hio e)⟩

theorem Held.count_eq_zero (h : Held s) {e : EchoIo} (he : e.plain = false) : s.io.count e = 0 :=
  List.count_eq_zero.2 fun hmem => by simp [h.plain e hmem] at he

theorem Held.not_failed (h : Held s) (flag : Dir) : EchoIo.register flag true ∉ s.io :=
  fun hmem => by simpa [EchoIo.plain] using h.plain _ hmem

/-- Closing the descriptor and returning the object. -/
theorem Held.release (h : Held s) (hp : s.pending = none) :
    ∃ s', s.release = .ok s' ∧ Left s' := by
  obtain ⟨cli, hcli⟩ := Option.ne_none_iff_exists'.1 h.client
  have hclosed := h.count_eq_zero (e := .close) rfl
  have hfreed := h.count_eq_zero (e := .free) rfl
  have hfailed := h.not_failed
  refine ⟨_, EchoConn.release_ok h.isOpen hcli, .inr (.inl ⟨⟨rfl, rfl, hp, ?_⟩, ?_⟩)⟩
  · simp [EchoConn.released, EchoConn.log, hclosed, hfreed]
  · simp [EchoConn.released, EchoConn.log, hfailed]

theorem Held.register (h : Held s) (flag : Dir) : Left (s.register flag false) :=
  .inl ⟨⟨h.isOpen, h.client, (h.log [.register flag false] (by simp [EchoIo.plain])).plain⟩,
    by simp [EchoConn.register]⟩

theorem Held.registerOrClose (h : Held s) (hp : s.pending = none) (flag : Dir) (refuse : Bool) :
    ∃ s', s.registerOrClose flag refuse = .ok s' ∧ Left s' := by
  cases refuse with
  | false => exact ⟨_, rfl, h.register flag⟩
  | true => exact ⟨_, if_pos h.isOpen,
    .inr (.inr ⟨hp, h.client, flag, by simp [EchoConn.register, EchoConn.log]⟩)⟩

theorem echoSend_plain (shut : Bool) (buf : Bytes) (len nsend : ℕ) (writes : List (SysRet ℕ)) :
    echoSend shut buf len nsend writes = .error .fuel ∨
      ∃ n io, echoSend shut buf len nsend writes = .ok (n, io) ∧ ∀ e ∈ io, e.plain = true := by
  induction writes generalizing nsend with
  | nil =>
    rw [echoSend]
    split_ifs
    · exact .inl rfl
    · exact .inr ⟨_, _, rfl, by simp⟩
  | cons w writes ih =>
    rw [echoSend]
    split_ifs
    case neg => exact .inr ⟨_, _, rfl, by simp⟩
    cases echoPut shut w (len - nsend) with
    | failed errno => exact .inr ⟨_, _, rfl, by simp [EchoIo.plain]⟩
    | value rc =>
      simp only
      split_ifs
      · exact .inr ⟨_, _, rfl, by simp [EchoIo.plain]⟩
      · rcases ih (nsend + rc) with herr | ⟨n, io, hok, hio⟩
        · exact .inl (by rw [herr]; rfl)
        · exact .inr ⟨_, _, by rw [hok]; rfl, List.forall_mem_cons.2 ⟨rfl, hio⟩⟩

theorem echoEatLoop_plain (count : ℤ) (reads : List (SysRet Bytes)) :
    echoEatLoop count reads = .error .fuel ∨
      ∃ n io, echoEatLoop count reads = .ok (n, io) ∧ ∀ e ∈ io, e.plain = true := by
  induction reads generalizing count with
  | nil => exact .inl rfl
  | cons r reads ih =>
    cases r with
    | failed errno => exact .inr ⟨_, _, rfl, by simp [EchoIo.plain]⟩
    | value b =>
      rw [echoEatLoop]
      simp only
      split_ifs
      · exact .inr ⟨_, _, rfl, by simp [EchoIo.plain]⟩
      · rcases ih ((count + (b.take 512).length).bmod (2 ^ 32)) with herr | ⟨n, io, hok, hio⟩
        · exact .inl (by rw [herr]; rfl)
        · exact .inr ⟨_, _, by rw [hok]; rfl, List.forall_mem_cons.2 ⟨rfl, hio⟩⟩

theorem Held.fill (h : Held s) (r : SysRet Bytes) (cli : EchoClient) :
    Held (echoFill r cli s).2 ∧ (echoFill r cli s).2.pending = s.pending := by
  cases r with
  | failed errno =>
    exact ⟨⟨h.isOpen, by simp [echoFill],
      (h.log [.read (.failed errno)] (by simp [EchoIo.plain])).plain⟩, rfl⟩
  | value b =>
    exact ⟨⟨h.isOpen, by simp [echoFill],
      (h.log [.read (.value (b.take cli.ec_bufn))] (by simp [EchoIo.plain])).plain⟩, rfl⟩

theorem Held.readContent (h : Held s) (a : Answers) : echoReadContent a s = .error .fuel ∨
    ∃ n s', echoReadContent a s = .ok (n, s') ∧ Held s' ∧ s'.pending = s.pending := by
  obtain ⟨cli, hcli⟩ := Option.ne_none_iff_exists'.1 h.client
  unfold echoReadContent EchoConn.client
  simp only [hcli, ok_bind]
  split
  · exact .inr ⟨_, _, rfl, h, rfl⟩
  · exact .inr ⟨_, _, rfl, h.fill _ _⟩
  · exact .inr ⟨_, _, rfl, h.fill _ _⟩
  · exact .inl rfl

theorem Held.input (h : Held s) (a : Answers) : echoInput a s = .error .fuel ∨
    ∃ n s', echoInput a s = .ok (n, s') ∧ Held s' ∧ s'.pending = s.pending := by
  unfold echoInput
  split_ifs
  · rcases echoEatLoop_plain 0 a.reads with herr | ⟨n, io, hok, hio⟩
    · exact .inl (by rw [echoEat, herr]; rfl)
    · exact .inr ⟨n, s.log io, by rw [echoEat, hok]; rfl, h.log _ hio, rfl⟩
  · exact h.readContent a

theorem Held.read (h : Held s) (hp : s.pending = none) (a : Answers) :
    Returns (echoRead a s) Left := by
  obtain ⟨cli, hcli⟩ := Option.ne_none_iff_exists'.1 h.client
  rcases h.input a with herr | ⟨⟨n, errno⟩, s', hok, h', hp'⟩
  · exact .inl (by rw [echoRead, EchoConn.client, hcli, herr]; rfl)
  · rw [echoRead_of_input hcli hok]
    split_ifs
    · exact .inr (h'.registerOrClose (hp'.trans hp) .write a.refuse)
    · exact .inr (h'.release (hp'.trans hp))
    · refine .inr ⟨_, rfl, ?_⟩
      cases a.refuse with
      | false => exact h'.register .read
      | true => exact .inr (.inr ⟨hp'.trans hp, h'.client, .read,
        by simp [EchoConn.register, EchoConn.log]⟩)
    · exact .inr (h'.release (hp'.trans hp))

theorem Held.write (h : Held s) (hp : s.pending = none) (a : Answers) :
    Returns (echoWrite a s) Left := by
  obtain ⟨cli, hcli⟩ := Option.ne_none_iff_exists'.1 h.client
  have hclient : s.client = .ok cli := by rw [EchoConn.client, hcli]
  rw [echoWrite, hclient, ok_bind]
  obtain ⟨⟨len, buf⟩, hmsg⟩ : ∃ msg, echoMsg cli s = msg := ⟨_, rfl⟩
  simp only [hmsg]
  rcases echoSend_plain s.shut buf len 0 a.writes with herr | ⟨n, io, hok, hio⟩
  · exact .inl (by rw [herr]; rfl)
  · have hlog := h.log _ hio
    rw [hok, ok_bind]
    simp only
    split_ifs
    · have hshut : Held (s.log io).shutdown :=
        ⟨hlog.isOpen, hlog.client, (hlog.log [.shutdown] (by simp [EchoIo.plain])).plain⟩
      exact .inr (hshut.registerOrClose hp .read a.refuse)
    · exact hlog.read hp a
    · exact .inr (hlog.registerOrClose hp .read a.refuse)

end Callback

section Run

variable {s s' : EchoConn} {a : Answers}

def EchoInv (s : EchoConn) : Prop := (Held s ∧ s.pending ≠ none) ∨ Gone s

theorem EchoInv.exec (h : EchoInv s) (a : Answers) : Returns (echoExec s a) Left := by
  rcases h with ⟨h, hp⟩ | h
  · obtain ⟨flag, hflag⟩ := Option.ne_none_iff_exists'.1 hp
    have hheld : Held { s with pending := none } := ⟨h.isOpen, h.client, h.plain⟩
    rw [echoExec, hflag]
    cases flag with
    | read => exact hheld.read rfl a
    | write => exact hheld.write rfl a
  · exact .inl (by rw [echoExec, h.pending])

theorem EchoInv.lifecycle (h : EchoInv s) : EchoLifecycle s := by
  have hunused : ∀ a e, echoExec s a = .error e → e = .fuel := by
    intro a e he
    rcases h.exec a with herr | ⟨s', hok, -⟩
    · exact (Except.error.inj (herr.symm.trans he)).symm
    · rw [hok] at he
      cases he
  rcases h with ⟨h, hp⟩ | h
  · have hclosed := h.count_eq_zero (e := .close) rfl
    have hfreed := h.count_eq_zero (e := .free) rfl
    exact ⟨by omega, by omega, hunused, fun hnone => absurd hnone hp⟩
  · exact ⟨h.once.1, h.once.2, hunused, fun _ => ⟨h.closed, h.client⟩⟩

theorem EchoInv.left (h : EchoInv s) (hs : echoStep s a = some s') : Left s' := by
  rcases h.exec a with herr | ⟨s'', hok, hleft⟩
  · rw [echoStep, herr] at hs
    cases hs
  · rw [echoStep, hok] at hs
    cases hs
    exact hleft

/-- Accepting a connection releases everything again if it fails. -/
theorem echoAccept_inv (ec_echostr : Bytes) (alloc refuse : Bool) :
    ∃ s, echoAccept ec_echostr alloc refuse = .ok s ∧ EchoInv s := by
  unfold echoAccept
  cases alloc with
  | false => exact ⟨_, rfl, .inr ⟨rfl, rfl, rfl, by simp [EchoConn.log]⟩⟩
  | true =>
    cases refuse with
    | false =>
      exact ⟨_, rfl, .inl ⟨⟨rfl, by simp [EchoConn.register, EchoConn.log],
        by simp [EchoConn.register, EchoConn.log, EchoIo.plain]⟩, by simp [EchoConn.register]⟩⟩
    | true => exact ⟨_, rfl, .inr ⟨rfl, rfl, rfl, by simp [EchoConn.register, EchoConn.log]⟩⟩

end Run

/-- For every connection that is accepted, in both modes, and every run of its callbacks, whatever
the calls in them answer: the lifecycle is kept in all states just when no callback fails to
register an event. -/
theorem echo_lifecycle_iff (ec_echostr : Bytes) (alloc refuse : Bool) (as : List Answers) :
    ∃ s, echoAccept ec_echostr alloc refuse = .ok s ∧
      (Always echoStep EchoLifecycle s as ↔ EachStep echoStep Registers s as) := by
  obtain ⟨s, hs, hinv⟩ := echoAccept_inv ec_echostr alloc refuse
  refine ⟨s, hs, always_iff_of_invariant echoStep hinv (eachStep_of_mem echoStep fun _ _ => trivial)
    (fun _ => EchoInv.lifecycle) ?_ ?_⟩
  · intro s a s' hi _ ha hlife
    rcases hi.left ha with ⟨hheld, -⟩ | ⟨-, hfine⟩ | ⟨hp, hcli, -⟩
    · exact fun flag hmem => absurd hmem (hheld.not_failed flag)
    · exact fun flag hmem => absurd hmem (hfine flag)
    · exact absurd (hlife.ended hp).2 hcli
  · intro s a s' hi _ ha hreg
    rcases hi.left ha with hheld | ⟨hgone, -⟩ | ⟨hp, hcli, flag, hmem⟩
    · exact .inl hheld
    · exact .inr hgone
    · rcases hi with ⟨hheld, -⟩ | hgone
      · exact absurd (hreg flag hmem) (hheld.not_failed flag)
      · rw [echoStep, echoExec, hgone.pending] at ha
        cases ha

/-- Bytes are read, and the write cannot be registered: the descriptor is closed, the object
stays. -/
theorem not_echo_lifecycle : ¬ ∀ (ec_echostr : Bytes) (alloc refuse : Bool) (as : List Answers) s,
    echoAccept ec_echostr alloc refuse = .ok s → Always echoStep EchoLifecycle s as := by
  intro h
  have hrun :=
    h [] true false [⟨[.value [1]], [], .value (), true⟩] _ rfl _ (List.prefix_refl _) _ rfl
  exact absurd (hrun.ended rfl).2 (by decide)

end Plume
