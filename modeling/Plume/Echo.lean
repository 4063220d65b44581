import Plume.CLib.Run
import Plume.Event

/-! One connection of the echo plugin, `plm_echo.c`: two callbacks that hand the client's object to
each other, directly or through the poller. What the system answers to the calls of a callback
comes in as lists. -/

namespace Plume
open CLib

/-- `struct plm_echo_client` without its context and its pool. -/
structure EchoClient where
  ec_buf : Option Bytes
  ec_bufn : ℕ
  ec_bytes_read : ℕ
deriving DecidableEq, Repr

inductive EchoIo
  | read (r : SysRet Bytes)
  | write (r : SysRet Bytes)
  | register (flag : Dir) (failed : Bool)
  | shutdown
  | close
  | free
deriving DecidableEq, Repr

/-- The answers to the calls of one callback. A read or a write that transfers anything transfers
no more than it was asked to; `memory` answers `plm_mempool_alloc`, `refuse` tells whether
registering an event fails. -/
structure Answers where
  reads : List (SysRet Bytes)
  writes : List (SysRet ℕ)
  memory : SysRet Unit
  refuse : Bool
deriving DecidableEq, Repr

structure EchoConn where
  /-- `ec_echostr` of the configuration -/
  ec_echostr : Bytes
  cf_open : Bool
  /-- the object from `blk_list`, until it is returned -/
  cli : Option EchoClient
  /-- the event the poller waits for -/
  pending : Option Dir
  /-- no more writes are possible -/
  shut : Bool
  /-- the calls the callbacks made so far -/
  io : List EchoIo
deriving DecidableEq, Repr

namespace EchoConn

def log (s : EchoConn) (io : List EchoIo) : EchoConn := { s with io := s.io ++ io }

/-- `plm_comm_close` of the descriptor, which asserts that it is open. -/
def close (s : EchoConn) : Except Fault EchoConn :=
  if s.cf_open then .ok { s.log [.close] with cf_open := false } else .error .abort

def shutdown (s : EchoConn) : EchoConn := { s.log [.shutdown] with shut := true }

def free (s : EchoConn) : Except Fault EchoConn :=
  match s.cli with
  | none => .error .wild
  | some _ => .ok { s.log [.free] with cli := none }

def register (flag : Dir) (refuse : Bool) (s : EchoConn) : EchoConn :=
  { s.log [.register flag refuse] with pending := if refuse then s.pending else some flag }

def registerOrClose (flag : Dir) (refuse : Bool) (s : EchoConn) : Except Fault EchoConn :=
  let s := s.register flag refuse
  if refuse then s.close else .ok s

def release (s : EchoConn) : Except Fault EchoConn := do
  let s ← s.close
  s.free

def client (s : EchoConn) : Except Fault EchoClient :=
  match s.cli with
  | none => .error .wild
  | some cli => .ok cli

end EchoConn

abbrev EPIPE : ℤ := 32

def echoPut (shut : Bool) (w : SysRet ℕ) (n : ℕ) : SysRet ℕ :=
  match w with
  | .failed errno => .failed errno
  | .value k => if shut then .failed EPIPE else .value (min k n)

/-- The loop of `plm_echo_write` over `len` bytes of `buf`: how many of them it sent, and its
calls. -/
def echoSend (shut : Bool) (buf : Bytes) (len : ℕ) :
    ℕ → List (SysRet ℕ) → Except Fault (ℕ × List EchoIo)
  | nsend, [] => if nsend < len then .error .fuel else .ok (nsend, [])
  | nsend, w :: writes =>
    if nsend < len then
      match echoPut shut w (len - nsend) with
      | .failed errno => .ok (nsend, [.write (.failed errno)])
      | .value rc =>
        if rc = 0 then .ok (nsend, [.write (.value [])])
        else do
          let (sent, io) ← echoSend shut buf len (nsend + rc) writes
          return (sent, .write (.value (slice buf nsend rc)) :: io)
    else .ok (nsend, [])

/-- The loop of `plm_echo_eat`: what it returns, with `errno`, and its calls. -/
def echoEatLoop : ℤ → List (SysRet Bytes) → Except Fault ((ℤ × ℤ) × List EchoIo)
  | _, [] => .error .fuel
  | count, r :: reads =>
    match r with
    | .failed errno => .ok ((if count = 0 then -1 else count, errno), [.read (.failed errno)])
    | .value b =>
      let n := (b.take 512).length
      if n = 0 then .ok ((count, 0), [.read (.value [])])
      else do
        let (n, io) ← echoEatLoop ((count + n).bmod (2 ^ 32)) reads
        return (n, .read (.value (b.take 512)) :: io)

def echoEat (a : Answers) (s : EchoConn) : Except Fault ((ℤ × ℤ) × EchoConn) := do
  let (n, io) ← echoEatLoop 0 a.reads
  return (n, s.log io)

def EchoClient.got (cli : EchoClient) (b : Bytes) : EchoClient :=
  { cli with ec_buf := cli.ec_buf.map fun buf => b ++ buf.drop b.length, ec_bytes_read := b.length }

def echoFill (r : SysRet Bytes) (cli : EchoClient) (s : EchoConn) : (ℤ × ℤ) × EchoConn :=
  match r with
  | .failed errno => ((-1, errno), { s.log [.read r] with cli := some cli })
  | .value b =>
    let b := b.take cli.ec_bufn
    ((b.length, 0), { s.log [.read
      (.value b)] with cli := some (if b.length > 0 then cli.got b else cli) })

def echoReadContent (a : Answers) (s : EchoConn) : Except Fault ((ℤ × ℤ) × EchoConn) := do
  let cli ← s.client
  match cli.ec_buf, a.memory, a.reads with
  | none, .failed errno, _ => return ((-1, errno), s)
  | none, .value _, r :: _ =>
    return echoFill r { cli with ec_buf := some (List.replicate 512 0), ec_bufn := 512 } s
  | some _, _, r :: _ => return echoFill r cli s
  | _, _, [] => .error .fuel

def echoReply (refuse : Bool) (s : EchoConn) : Except Fault EchoConn :=
  s.registerOrClose .write refuse

def echoInput (a : Answers) (s : EchoConn) : Except Fault ((ℤ × ℤ) × EchoConn) :=
  if s.ec_echostr.length > 0 then echoEat a s else echoReadContent a s

def echoRead (a : Answers) (s : EchoConn) : Except Fault EchoConn := do
  let _ ← s.client
  let ((n, errno), s) ← echoInput a s
  if n > 0 then echoReply a.refuse s
  else if n = 0 then s.release
  else if errno = EAGAIN then return s.register .read a.refuse
  else s.release

def echoMsg (cli : EchoClient) (s : EchoConn) : ℕ × Bytes :=
  if s.ec_echostr.length > 0 then (s.ec_echostr.length, s.ec_echostr)
  else (cli.ec_bytes_read, cli.ec_buf.getD [])

def echoWrite (a : Answers) (s : EchoConn) : Except Fault EchoConn := do
  let cli ← s.client
  let (len, buf) := echoMsg cli s
  let (nsend, io) ← echoSend s.shut buf len 0 a.writes
  let s := s.log io
  if nsend ≠ len then s.shutdown.registerOrClose .read a.refuse
  else if cli.ec_bufn > 0 then echoRead a s
  else s.registerOrClose .read a.refuse

def echoExec (s : EchoConn) (a : Answers) : Except Fault EchoConn :=
  match s.pending with
  | none => .error .fuel
  | some .read => echoRead a { s with pending := none }
  | some .write => echoWrite a { s with pending := none }

def echoStep (s : EchoConn) (a : Answers) : Option EchoConn := (echoExec s a).toOption

/-- The body of `plm_echo_accept` for the descriptor it accepted: `alloc` tells whether there is an
object in `blk_list`, `refuse` whether registering the read fails. -/
def echoAccept (ec_echostr : Bytes) (alloc refuse : Bool) : Except Fault EchoConn :=
  let s : EchoConn := ⟨ec_echostr, true, none, none, false, []⟩
  if alloc then
    let s := { s with cli := some ⟨none, 0, 0⟩ }.register .read refuse
    if refuse then do
      let s ← s.free
      s.close
    else .ok s
  else s.close

def EchoConn.released (s : EchoConn) : EchoConn :=
  { (s.log [.close]).log [.free] with cf_open := false, cli := none }

section Callbacks

variable {s : EchoConn} {cli : EchoClient} {a : Answers}

theorem EchoConn.release_ok (ho : s.cf_open = true) (hcli : s.cli = some cli) :
    s.release = .ok s.released := by
  have hclose : s.close = .ok { s.log [.close] with cf_open := false } := if_pos ho
  rw [EchoConn.release, hclose, ok_bind, EchoConn.free]
  simp only [EchoConn.log, hcli, EchoConn.released]

/-- What a read callback does with what it has read. -/
theorem echoRead_of_input {res : (ℤ × ℤ) × EchoConn} (hcli : s.cli = some cli)
    (hin : echoInput a s = .ok res) :
    echoRead a s = if res.1.1 > 0 then res.2.registerOrClose .write a.refuse
      else if res.1.1 = 0 then res.2.release
      else if res.1.2 = EAGAIN then .ok (res.2.register .read a.refuse) else res.2.release := by
  rw [echoRead, EchoConn.client, hcli, hin]
  rfl

end Callbacks

end Plume
