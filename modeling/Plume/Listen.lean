import Plume.Http.Backend
import Plume.Str

/-! The port of a listening socket, from the directive that gives it to the call of `bind` in
`plm_comm_open_socket`. -/

namespace Plume
open CLib

structure SocketCall where
  port : ℤ
  addr : Option Bytes
  backlog : ℤ
  reuseaddr : Bool
deriving DecidableEq, Repr

structure SocketSys where
  socket : ℤ
  setsockopt : ℤ
  bind : ℤ
  listen : ℤ
deriving DecidableEq, Repr

/-- The descriptor returned, with the port its socket is bound to and whether it listens. A
socket that listens without having been bound is on a port the system chose. -/
structure Listener where
  fd : ℤ
  bound : Option ℕ
  listening : Bool
deriving DecidableEq, Repr

/-- `htons` takes an `int` for a `uint16_t`. -/
def htons (port : ℤ) : ℕ := (port % 2 ^ 16).toNat

def commOpenSocket (sys : SocketSys) (c : SocketCall) : Listener :=
  let failed : Listener := ⟨-1, none, false⟩
  if sys.socket < 0 then failed
  else if c.reuseaddr ∧ sys.setsockopt < 0 then failed
  else if c.port > 0 ∧ sys.bind ≠ 0 then failed
  else if c.backlog > 0 ∧ sys.listen ≠ 0 then failed
  else ⟨sys.socket, if c.port > 0 then some (htons c.port) else none, c.backlog > 0⟩

section Echo

structure EchoConf where
  ec_echostr : PStr
  ec_port : Int16
deriving DecidableEq, Repr

/-- `plm_echo_port_set`, which takes it that there is a parameter. -/
def echoPortSet (params : List PStr) (conf : EchoConf) : Except Fault (ℤ × EchoConf) :=
  match params with
  | [] => .error .wild
  | param :: _ => .ok (0, { conf with ec_port := Int16.ofInt (str2s param) })

def echoOnWorkProcStart (conf : EchoConf) : SocketCall := ⟨conf.ec_port.toInt, none, 100, true⟩

end Echo

section Http

structure SockaddrIn where
  sin_port : UInt16
  sin_addr : UInt32
deriving DecidableEq, Repr

/-- `struct plm_http_ctx`, without its pool of connections. -/
structure HttpCtx where
  hc_addr : Option Bytes
  hc_port : Int32
  hc_backlog : Int32
  hc_backends : List SockaddrIn
deriving DecidableEq, Repr

/-- `plm_strzdup`: the copy, without a NUL the string may end in, or `NULL`. -/
def strzdup (mem : Bool) (s : PStr) : Except Fault (Option Bytes) :=
  match s.counted.getLast? with
  | none => .error .bounds
  | some c =>
    let str := if c = 0 then s.counted.dropLast else s.counted
    .ok (if mem then some str else none)

/-- `plm_http_listen_set`; the text is an address where `inet_addr` does not return -1. -/
def httpListenSet (inet_addr : Bytes → ℤ) (mem : Bool) (params : List PStr) (ctx : HttpCtx) :
    Except Fault (ℤ × HttpCtx) := do
  let n := params.length
  if n ≠ 2 ∧ n ≠ 3 then return (-1, ctx)
  else
    match params with
    | addr :: port :: rest =>
      match ← strzdup mem addr with
      | none => return (-1, { ctx with hc_addr := none })
      | some str =>
        if inet_addr (str.takeWhile (· != 0)) = -1 then return (-1, { ctx with hc_addr := none })
        else
          let ctx := { ctx with hc_addr := some str, hc_port := (Int16.ofInt (str2s port)).toInt32 }
          match rest with
          | [] => return (0, ctx)
          | backlog :: _ => return (0, { ctx with hc_backlog := Int32.ofInt (str2si 32 backlog) })
    | _ => return (-1, ctx)

def httpOpenServer (mem : Bool) (ctx : HttpCtx) (t : Http.Backends SockaddrIn) :
    Option SocketCall :=
  if (Http.httpBackendInit mem ctx.hc_backends t).1 ≠ 0 then none
  else some ⟨ctx.hc_port.toInt, ctx.hc_addr, ctx.hc_backlog.toInt, true⟩

end Http

section Bound

structure BindsTo (v : ℕ) (c : SocketCall) : Prop where
  positive : 0 < c.port
  port : c.port = v
  bound : ∀ sys, 0 ≤ (commOpenSocket sys c).fd → (commOpenSocket sys c).bound = some v

/-- An `echo_port` with this text makes the plugin listen on the port it denotes. -/
def EchoBinds (text : Bytes) : Prop :=
  ∀ rest conf conf', echoPortSet (.ofBytes text :: rest) conf = .ok (0, conf') →
    BindsTo (decimal text) (echoOnWorkProcStart conf')

/-- So does an `http_listen` with this text in the place of the port. -/
def HttpBinds (text : Bytes) : Prop :=
  ∀ inet_addr mem addr rest ctx ctx',
    httpListenSet inet_addr mem (addr :: .ofBytes text :: rest) ctx = .ok (0, ctx') →
      ∀ mem t c, httpOpenServer mem ctx' t = some c → BindsTo (decimal text) c

theorem commOpenSocket_bound {sys : SocketSys} {c : SocketCall}
    (h : 0 ≤ (commOpenSocket sys c).fd) :
    (commOpenSocket sys c).bound = if c.port > 0 then some (htons c.port) else none := by
  unfold commOpenSocket at h ⊢
  dsimp only at h ⊢
  split_ifs at h ⊢ <;> first | rfl | exact absurd h (by decide)

variable {text : Bytes}

theorem bindsTo_iff {c : SocketCall} (hport : c.port = (decimal text : ℤ).bmod (2 ^ 16))
    (hpos : 1 ≤ decimal text)
    (hmax : decimal text ≤ 65535) : BindsTo (decimal text) c ↔ decimal text < 2 ^ 15 := by
  constructor
  · intro h
    have hp := h.port
    rw [hport] at hp
    have hlt := Int.bmod_lt (x := decimal text) (m := 2 ^ 16) (by decide)
    rw [hp] at hlt
    omega
  · intro h
    have hp : c.port = decimal text := by rw [hport, Int.bmod_eq_of_le (by omega) (by omega)]
    refine ⟨by omega, hp, fun sys hfd => ?_⟩
    rw [commOpenSocket_bound hfd, if_pos (by omega), hp, htons]
    congr 1
    omega

theorem toInt_str2s (htext : Numeral text) :
    (Int16.ofInt (str2s (.ofBytes text))).toInt = (decimal text : ℤ).bmod (2 ^ 16) := by
  rw [Int16.toInt_ofInt, str2s, str2si_numeral 16 htext]
  exact Int.bmod_bmod

theorem echoBinds_iff (htext : Numeral text) (hpos : 1 ≤ decimal text)
    (hmax : decimal text ≤ 65535) :
    EchoBinds text ↔ decimal text < 2 ^ 15 := by
  constructor
  · intro h
    exact (bindsTo_iff (toInt_str2s htext) hpos hmax).1 (h [] ⟨.ofBytes [], 0⟩ _ rfl)
  · intro h rest conf conf' hset
    obtain ⟨-, rfl⟩ := Prod.mk.inj (Except.ok.inj hset)
    exact (bindsTo_iff (toInt_str2s htext) hpos hmax).2 h

theorem httpListenSet_port {inet_addr : Bytes → ℤ} {mem : Bool} {addr port : PStr}
    {rest : List PStr}
    {ctx ctx' : HttpCtx}
    (h : httpListenSet inet_addr mem (addr :: port :: rest) ctx = .ok (0, ctx')) :
    ctx'.hc_port = (Int16.ofInt (str2s port)).toInt32 := by
  unfold httpListenSet at h
  dsimp only at h
  split_ifs at h with hn
  · cases h
  obtain ⟨o, -, h⟩ := bind_eq_ok.1 h
  cases o with
  | none => cases h
  | some str =>
    dsimp only at h
    split_ifs at h
    · cases h
    · cases rest <;> cases h <;> rfl

theorem httpBinds_iff (htext : Numeral text) (hpos : 1 ≤ decimal text)
    (hmax : decimal text ≤ 65535) :
    HttpBinds text ↔ decimal text < 2 ^ 15 := by
  have hport : (Int16.ofInt (str2s (.ofBytes text))).toInt32.toInt = (decimal text : ℤ).bmod
    (2 ^ 16) := by
    rw [Int16.toInt_toInt32, toInt_str2s htext]
  constructor
  · intro h
    have hb :=
      h (fun _ => 0) true (.ofBytes [48]) [] ⟨none, 0, 5, [⟨0, 0⟩]⟩ _ rfl true ⟨0, 0, none⟩ _ rfl
    exact (bindsTo_iff hport hpos hmax).1 hb
  · intro h inet_addr mem addr rest ctx ctx' hset mem' t c hopen
    unfold httpOpenServer at hopen
    split_ifs at hopen
    obtain rfl := Option.some.inj hopen
    refine (bindsTo_iff ?_ hpos hmax).2 h
    rw [httpListenSet_port hset, hport]

/-- A port is listened on, whichever of the two directives gives it, if and only if it is
positive as a `short`. -/
theorem port_bound_iff (text : Bytes) (htext : Numeral text) (hpos : 1 ≤ decimal text)
    (hmax : decimal text ≤ 65535) :
    (HttpBinds text ↔ decimal text < 2 ^ 15) ∧ (EchoBinds text ↔ decimal text < 2 ^ 15) :=
  ⟨httpBinds_iff htext hpos hmax, echoBinds_iff htext hpos hmax⟩

theorem port_bound_iff_eighty : (HttpBinds (ascii "0080") ↔ decimal (ascii "0080") < 2 ^ 15) ∧
    (EchoBinds (ascii "0080") ↔ decimal (ascii "0080") < 2 ^ 15) :=
  port_bound_iff (ascii "0080") (by decide) (by decide) (by decide)

/-- 40000 is -25536 as a `short`. -/
theorem not_port_bound : ¬ ∀ text, Numeral text → 1 ≤ decimal text → decimal text ≤ 65535 →
    HttpBinds text ∧ EchoBinds text := by
  intro h
  obtain ⟨-, hecho⟩ := h (ascii "40000") (by decide) (by decide) (by decide)
  exact absurd ((echoBinds_iff (by decide) (by decide) (by decide)).1 hecho) (by decide)

end Bound

end Plume
