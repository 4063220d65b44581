import Plume.Echo

/-! What the echo plugin writes against what it reads, in echo mode. A write that would block ends
the output of the connection, and the rest of the bytes read is dropped. -/

namespace Plume
open CLib

def gots (io : List EchoIo) : Bytes :=
  io.flatMap fun
    | .read (.value b) => b
    | _ => []

def puts (io : List EchoIo) : Bytes :=
  io.flatMap fun
    | .write (.value b) => b
    | _ => []

/-- At every moment the bytes written are a prefix of those read, and when the connection does not
wait to write any more, they are all of them. -/
structure Faithful (s : EchoConn) : Prop where
  moments : ∀ pre, pre <+: s.io → puts pre <+: gots pre
  whole : s.pending ≠ some .write → puts s.io = gots s.io

/-- No call fails but for want of data or of room. -/
structure NoError (a : Answers) : Prop where
  reads : ∀ r ∈ a.reads, (∃ b, r = .value b) ∨ r = .failed EAGAIN
  writes : ∀ w ∈ a.writes, (∃ n, 0 < n ∧ w = .value n) ∨ w = .failed EAGAIN
  memory : a.memory = .value ()
  refuse : a.refuse = false

def NoBlock (io : List EchoIo) : Prop := ∀ errno, EchoIo.write (.failed errno) ∉ io

section Trace

variable {io io' : List EchoIo} {a : Answers}

theorem gots_append (io io' : List EchoIo) : gots (io ++ io') = gots io ++ gots io' :=
  List.flatMap_append ..

theorem puts_append (io io' : List EchoIo) : puts (io ++ io') = puts io ++ puts io' :=
  List.flatMap_append ..

theorem puts_front (h : io <+: io') : puts io <+: puts io' := by
  obtain ⟨t, rfl⟩ := h
  rw [puts_append]
  exact List.prefix_append ..

/-- What was read covers all that is written in the calls that follow. -/
theorem moments_append (h : ∀ pre, pre <+: io → puts pre <+: gots pre)
    (hio : puts (io ++ io') <+: gots io) :
    ∀ pre, pre <+: io ++ io' → puts pre <+: gots pre := by
  intro pre hpre
  rcases List.prefix_or_prefix_of_prefix hpre (List.prefix_append io io') with hp | ⟨t, rfl⟩
  · exact h pre hp
  · rw [gots_append]
    exact ((puts_front hpre).trans hio).trans (List.prefix_append ..)

/-- The loop of `plm_echo_write` sends bytes from `nsend` on in their order, all of them unless a
write would block. -/
theorem echoSend_spec (buf : Bytes) (len nsend : ℕ) (writes : List (SysRet ℕ)) (hle : nsend ≤ len)
    (hw : ∀ w ∈ writes, (∃ n, 0 < n ∧ w = .value n) ∨ w = .failed EAGAIN) :
    echoSend false buf len nsend writes = .error .fuel ∨
      ∃ n io, echoSend false buf len nsend writes = .ok (n, io) ∧
      nsend ≤ n ∧ n ≤ len ∧ puts io = slice buf nsend (n - nsend) ∧ gots io = [] ∧
        (n = len ↔ NoBlock io) := by
  induction writes generalizing nsend with
  | nil =>
    rw [echoSend]
    split_ifs
    · exact .inl rfl
    · have heq : nsend = len := by omega
      exact .inr
        ⟨_, _, rfl, le_rfl, hle, by simp [puts, slice], rfl, iff_of_true heq (by simp [NoBlock])⟩
  | cons w writes ih =>
    obtain ⟨hw0, hws⟩ := List.forall_mem_cons.1 hw
    rw [echoSend]
    split_ifs with hlt
    case neg =>
      have heq : nsend = len := by omega
      exact .inr
        ⟨_, _, rfl, le_rfl, hle, by simp [puts, slice], rfl, iff_of_true heq (by simp [NoBlock])⟩
    rcases hw0 with ⟨k, hk, rfl⟩ | rfl
    · have hput : echoPut false (.value k) (len - nsend) = .value (min k (len - nsend)) := rfl
      obtain ⟨rc, hrc⟩ : ∃ rc, rc = min k (len - nsend) := ⟨_, rfl⟩
      rw [hput, ← hrc]
      simp only
      rw [if_neg (by omega)]
      rcases ih (nsend + rc) (by omega) hws with herr | ⟨n, io, hok, hn, hlen, hputs, hgots, hblock⟩
      · exact .inl (by rw [herr]; rfl)
      · refine .inr ⟨n, .write (.value (slice buf nsend rc)) :: io, by rw [hok]; rfl, by omega,
          hlen, ?_, hgots, ?_⟩
        · have hcons : puts
            (.write (.value (slice buf nsend rc)) :: io) = slice buf nsend rc ++ puts io := rfl
          rw [hcons, hputs]
          unfold slice
          rw [← List.drop_drop, ← List.take_add]
          congr 1
          omega
        · rw [hblock]
          simp [NoBlock]
    · refine .inr
        ⟨nsend, [.write (.failed EAGAIN)], rfl, le_rfl, hle, by simp [puts, slice], rfl, ?_⟩
      exact iff_of_false (by omega) fun h => h EAGAIN (by simp)

end Trace

structure Echoing (s : EchoConn) : Prop where
  echo : s.ec_echostr = []
  shut : s.shut = false
  moments : ∀ pre, pre <+: s.io → puts pre <+: gots pre
  noBlock : NoBlock s.io

structure Idle (s : EchoConn) : Prop where
  isOpen : s.cf_open = true
  client : ∃ cli, s.cli = some cli ∧ (cli.ec_buf ≠ none → 0 < cli.ec_bufn)
  whole : puts s.io = gots s.io

structure Full (s : EchoConn) : Prop where
  isOpen : s.cf_open = true
  client : ∃ cli buf, s.cli = some cli ∧ cli.ec_buf = some buf ∧ 0 < cli.ec_bufn ∧
    0 < cli.ec_bytes_read ∧
    cli.ec_bytes_read ≤ buf.length ∧ gots s.io = puts s.io ++ buf.take cli.ec_bytes_read

structure EchoBuf (s : EchoConn) : Prop where
  echoing : Echoing s
  state : match s.pending with
    | none => puts s.io = gots s.io
    | some .read => Idle s
    | some .write => Full s

section Step

variable {s s' : EchoConn} {a : Answers} {io : List EchoIo}

/-- Calls that write nothing, behind which nothing more need be written at once. -/
theorem Echoing.log (h : Echoing s) (hio : puts (s.io ++ io) <+: gots s.io) (hblock : NoBlock io) :
    Echoing (s.log io) := by
  refine ⟨h.echo, h.shut, moments_append h.moments hio, fun errno hmem => ?_⟩
  exact (List.mem_append.1 hmem).elim (h.noBlock errno) (hblock errno)

variable (io) in
theorem Echoing.quiet (h : Echoing s) (hputs : puts io = []) (hblock : NoBlock io) :
    Echoing (s.log io) := by
  refine h.log ?_ hblock
  rw [puts_append, hputs, List.append_nil]
  exact h.moments _ (List.prefix_refl _)

variable (io) in
theorem Full.log (h : Full s) (hputs : puts io = []) (hgots : gots io = []) : Full (s.log io) := by
  obtain ⟨hopen, cli, buf, hcli, hbuf, hn, hk, hlen, heq⟩ := h
  refine ⟨hopen, cli, buf, hcli, hbuf, hn, hk, hlen, ?_⟩
  rw [EchoConn.log, gots_append, puts_append, hputs, hgots, List.append_nil, List.append_nil, heq]

/-- A read that brings bytes fills the buffer with them. -/
theorem Idle.fill {b : Bytes} {cli : EchoClient} (h : Idle s) (hbuf : cli.ec_buf ≠ none)
    (hn : 0 < cli.ec_bufn)
    (hb : 0 < (b.take cli.ec_bufn).length) : Full (echoFill (.value b) cli s).2 := by
  obtain ⟨buf, hbuf⟩ := Option.ne_none_iff_exists'.1 hbuf
  simp only [echoFill, hb, if_true]
  generalize b.take cli.ec_bufn = b at hb
  refine ⟨h.isOpen, cli.got b, b ++ buf.drop b.length, rfl, ?_, hn, hb, ?_, ?_⟩
  · simp [EchoClient.got, hbuf]
  · simp [EchoClient.got]
  · rw [EchoConn.log, gots_append, puts_append, h.whole]
    simp [gots, puts, EchoClient.got]

theorem Echoing.fill (h : Echoing s) (r : SysRet Bytes) (cli : EchoClient) :
    Echoing (echoFill r cli s).2 := by
  cases r with
  | failed errno =>
    have hlog := h.quiet [.read (.failed errno)] rfl (by simp [NoBlock])
    exact ⟨hlog.echo, hlog.shut, hlog.moments, hlog.noBlock⟩
  | value b =>
    have hlog := h.quiet [.read (.value (b.take cli.ec_bufn))] rfl (by simp [NoBlock])
    exact ⟨hlog.echo, hlog.shut, hlog.moments, hlog.noBlock⟩

theorem Echoing.register (h : Echoing s) (flag : Dir) : Echoing (s.register flag false) := by
  have hlog := h.quiet [.register flag false] rfl (by simp [NoBlock])
  exact ⟨hlog.echo, hlog.shut, hlog.moments, hlog.noBlock⟩

theorem Echoing.released (h : Echoing s) : Echoing s.released := by
  have hclose := h.quiet [.close] rfl (by simp [NoBlock])
  have hfree := hclose.quiet [.free] rfl (by simp [NoBlock])
  exact ⟨hfree.echo, hfree.shut, hfree.moments, hfree.noBlock⟩

theorem Full.register (h : Full s) (flag : Dir) : Full (s.register flag false) := by
  have hlog := h.log [.register flag false] rfl rfl
  exact ⟨hlog.isOpen, hlog.client⟩

/-- The buffer is there for a read, or comes to be. -/
theorem Idle.input (h : Idle s) (hecho : s.ec_echostr = []) (ha : NoError a) :
    ∃ cli : EchoClient, cli.ec_buf ≠ none ∧ 0 < cli.ec_bufn ∧ echoInput a s = match a.reads with
      | [] => .error .fuel
      | r :: _ => .ok (echoFill r cli s) := by
  obtain ⟨cli, hcli, hroom⟩ := h.client
  unfold echoInput echoReadContent EchoConn.client
  simp only [hecho, hcli, ok_bind, ha.memory, List.length_nil, lt_irrefl, if_false]
  cases hbuf : cli.ec_buf with
  | none =>
    refine
      ⟨{ cli with ec_buf := some (List.replicate 512 0), ec_bufn := 512 }, Option.some_ne_none _,
      Nat.succ_pos _, ?_⟩
    cases a.reads <;> rfl
  | some buf =>
    refine ⟨cli, by simp [hbuf], hroom (by simp [hbuf]), ?_⟩
    cases a.reads <;> rfl

/-- The read callback, on a connection on which everything read is written. -/
theorem EchoBuf.read (h : Echoing s) (hidle : Idle s) (hp : s.pending = none) (ha : NoError a) :
    echoRead a s = .error .fuel ∨ ∃ s', echoRead a s = .ok s' ∧ EchoBuf s' := by
  obtain ⟨cli, hcli, hroom⟩ := hidle.client
  obtain ⟨cli', hbuf', hn', hinput⟩ := hidle.input h.echo ha
  cases hreads : a.reads with
  | nil =>
    rw [hreads] at hinput
    exact .inl (by rw [echoRead, EchoConn.client, hcli, hinput]; rfl)
  | cons r reads =>
    rw [hreads] at hinput
    right
    have hfill := h.fill r cli'
    rw [echoRead_of_input hcli hinput, ha.refuse]
    rcases ha.reads r (by simp [hreads]) with ⟨b, rfl⟩ | rfl
    · by_cases hpos : 0 < (b.take cli'.ec_bufn).length
      · have hn : (echoFill (.value b) cli' s).1.1 > 0 := Int.natCast_pos.2 hpos
        rw [if_pos hn]
        exact ⟨_, rfl, hfill.register .write, (hidle.fill hbuf' hn' hpos).register .write⟩
      · have hn : (echoFill (.value b) cli' s).1.1 = 0 :=
          Int.natCast_eq_zero.2 (Nat.eq_zero_of_not_pos hpos)
        rw [hn, if_neg (lt_irrefl 0), if_pos rfl]
        refine ⟨_, EchoConn.release_ok hidle.isOpen rfl, hfill.released, ?_⟩
        have hpend : (echoFill (.value b) cli' s).2.released.pending = none := hp
        rw [hpend]
        have hnil : b.take cli'.ec_bufn = [] :=
          List.length_eq_zero_iff.1 (Nat.eq_zero_of_not_pos hpos)
        have hio : (echoFill (.value b) cli' s).2.released.io = s.io ++ [.read (.value []), .close,
          .free] := by
          simp [echoFill, EchoConn.released, EchoConn.log, hnil]
        rw [hio, puts_append, gots_append, hidle.whole]
        rfl
    · have hio : ((echoFill (.failed EAGAIN) cli' s).2.register .read false).io =
          s.io ++ [.read (.failed EAGAIN), .register .read false] := by
        simp [echoFill, EchoConn.register, EchoConn.log]
      refine ⟨_, rfl, hfill.register .read, hidle.isOpen, ⟨cli', rfl, fun _ => hn'⟩, ?_⟩
      rw [hio, puts_append, gots_append, hidle.whole]
      rfl

/-- The write callback: with all writes going through it goes on as a read callback, and otherwise
bytes are lost. -/
theorem EchoBuf.write (h : Echoing s) (hfull : Full s) (hp : s.pending = none) (ha : NoError a) :
    echoWrite a s = .error .fuel ∨ ∃ s', echoWrite a s = .ok s' ∧
      (EchoBuf s' ∨ (¬ Faithful s' ∧ ¬ NoBlock s'.io)) := by
  obtain ⟨hopen, cli, buf, hcli, hbuf, hn, hk, hlen, hgots⟩ := hfull
  have hmsg : echoMsg cli s = (cli.ec_bytes_read, buf) := by
    simp [echoMsg, h.echo, hbuf]
  have hwrite : echoWrite a s = (echoSend false buf cli.ec_bytes_read 0 a.writes) >>= fun r =>
      if r.1 ≠ cli.ec_bytes_read then (s.log r.2).shutdown.registerOrClose .read a.refuse
      else echoRead a (s.log r.2) := by
    rw [echoWrite, EchoConn.client, hcli]
    simp only [ok_bind, hmsg, h.shut, hn, if_true]
  rw [hwrite]
  rcases echoSend_spec buf cli.ec_bytes_read 0 a.writes (Nat.zero_le _) ha.writes with
    herr | ⟨n, io, hok, -, hle, hputs, hgots', hblock⟩
  · exact .inl (by rw [herr]; rfl)
  rw [hok, ok_bind]
  simp only
  have hputs : puts io = buf.take n := hputs
  split_ifs with hne
  · rw [ha.refuse]
    refine .inr
      ⟨_, rfl, .inr ⟨fun hgood => ?_, fun hno => hne (hblock.2 fun errno hmem => hno errno ?_)⟩⟩
    · -- fewer bytes went out than came in, and the connection waits to read
      have hwhole := congrArg List.length (hgood.whole (by simp [EchoConn.register]))
      have hio : ((s.log io).shutdown.register .read false).io = s.io ++ io ++ [.shutdown,
        .register .read false] := by
        simp [EchoConn.register, EchoConn.shutdown, EchoConn.log]
      rw [hio, puts_append, puts_append, gots_append, gots_append, hgots, hputs, hgots'] at hwhole
      simp [puts, gots] at hwhole
      omega
    · simp [EchoConn.register, EchoConn.shutdown, EchoConn.log, hmem]
  · obtain rfl := not_not.1 hne
    have hall : puts (s.io ++ io) = gots (s.io ++ io) := by
      rw [puts_append, gots_append, hputs, hgots', hgots, List.append_nil]
    have hlog : Echoing (s.log io) := by
      refine h.log ?_ (hblock.1 rfl)
      rw [puts_append, hputs, hgots]
    have hidle : Idle (s.log io) := ⟨hopen, ⟨cli, hcli, fun _ => hn⟩, hall⟩
    rcases EchoBuf.read hlog hidle hp ha with herr | ⟨s', hs', hinv⟩
    · exact .inl herr
    · exact .inr ⟨s', hs', .inl hinv⟩

theorem EchoBuf.faithful (h : EchoBuf s) : Faithful s := by
  refine ⟨h.echoing.moments, fun hp => ?_⟩
  have hstate := h.state
  cases hpend : s.pending with
  | none => rwa [hpend] at hstate
  | some flag =>
    rw [hpend] at hstate
    cases flag with
    | read => exact hstate.whole
    | write => exact absurd hpend hp

theorem EchoBuf.step (h : EchoBuf s) (ha : NoError a) (hs : echoStep s a = some s') :
    EchoBuf s' ∨ (¬ Faithful s' ∧ ¬ NoBlock s'.io) := by
  have hexec := toOption_eq_some.1 hs
  have hecho : Echoing { s with pending := none } :=
    ⟨h.echoing.echo, h.echoing.shut, h.echoing.moments, h.echoing.noBlock⟩
  have hstate := h.state
  rw [echoExec] at hexec
  cases hpend : s.pending with
  | none =>
    rw [hpend] at hexec
    cases hexec
  | some flag =>
    rw [hpend] at hexec hstate
    cases flag with
    | read =>
      have hidle : Idle { s with pending := none } := ⟨hstate.isOpen, hstate.client, hstate.whole⟩
      rcases EchoBuf.read hecho hidle rfl ha with herr | ⟨s'', hok, hinv⟩
      · cases herr.symm.trans hexec
      · cases hok.symm.trans hexec
        exact .inl hinv
    | write =>
      have hfull : Full { s with pending := none } := ⟨hstate.isOpen, hstate.client⟩
      rcases EchoBuf.write hecho hfull rfl ha with herr | ⟨s'', hok, hinv⟩
      · cases herr.symm.trans hexec
      · cases hok.symm.trans hexec
        exact hinv

end Step

/-- For every run of the callbacks in which nothing fails but for want of data or of room, whatever
the bytes and however they are split into reads and writes: the output is faithful in all states
just when no write would have blocked. -/
theorem echo_fidelity_iff (as : List Answers) (has : ∀ a ∈ as, NoError a) :
    ∃ s, echoAccept [] true false = .ok s ∧
      (Always echoStep Faithful s as ↔ EachStep echoStep (fun _ _ s' => NoBlock s'.io) s as) := by
  have hclient : Echoing ⟨[], true, some ⟨none, 0, 0⟩, none, false, []⟩ := by
    refine ⟨rfl, rfl, fun pre hpre => ?_, by simp [NoBlock]⟩
    rw [List.prefix_nil.1 hpre]
    exact List.prefix_refl _
  have hinit : EchoBuf
    (EchoConn.register .read false ⟨[], true, some ⟨none, 0, 0⟩, none, false, []⟩) :=
    ⟨hclient.register .read, rfl, ⟨_, rfl, fun h => absurd rfl h⟩, rfl⟩
  refine ⟨_, rfl, always_iff_of_invariant echoStep hinit (eachStep_of_mem echoStep has)
    (fun _ => EchoBuf.faithful) ?_ ?_⟩
  · intro s a s' hi ha hs hgood
    rcases hi.step ha hs with hinv | ⟨hbad, -⟩
    · exact hinv.echoing.noBlock
    · exact absurd hgood hbad
  · intro s a s' hi ha hs hno
    rcases hi.step ha hs with hinv | ⟨-, hblock⟩
    · exact hinv
    · exact absurd hno hblock

/-- Three bytes read and sent back by two writes. -/
theorem echo_fidelity_iff_short : ∃ s, echoAccept [] true false = .ok s ∧
    (Always echoStep Faithful s [⟨[.value [1, 2, 3]], [], .value (), false⟩,
        ⟨[.failed EAGAIN], [.value 2, .value 1], .value (), false⟩] ↔
      EachStep echoStep (fun _ _ s' => NoBlock s'.io) s [⟨[.value [1, 2, 3]], [], .value (), false⟩,
        ⟨[.failed EAGAIN], [.value 2, .value 1], .value (), false⟩]) := by
  refine echo_fidelity_iff _ fun a ha => ?_
  rcases List.mem_pair.1 ha with rfl | rfl
  · exact ⟨by simp, by simp, rfl, rfl⟩
  · exact ⟨by simp, by simp, rfl, rfl⟩

/-- Five bytes are read, three are written, and the write of the rest would block: the output ends,
and the rest is dropped. -/
theorem not_echo_fidelity : ¬ ∀ (as : List Answers), (∀ a ∈ as, NoError a) → ∀ s,
    echoAccept [] true false = .ok s → Always echoStep Faithful s as := by
  intro h
  have hrun := h [⟨[.value [1, 2, 3, 4, 5]], [], .value (), false⟩,
    ⟨[], [.value 3, .failed EAGAIN], .value (), false⟩] (by
    intro a ha
    rcases List.mem_pair.1 ha with rfl | rfl
    · exact ⟨by simp, by simp, rfl, rfl⟩
    · exact ⟨by simp, by simp, rfl, rfl⟩) _ rfl _ (List.prefix_refl _) _ rfl
  exact absurd (hrun.whole (by decide)) (by decide)

end Plume
