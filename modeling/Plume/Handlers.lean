import Plume.Compare
import Plume.CpuMask
import Plume.Listen
import Plume.LogFile

/-! The handlers of the directives, on any list of parameters. They take their parameters by
position; some look at their number first, and some at none. -/

namespace Plume
open CLib

structure MainConf where
  mc_work_thread_num : ℤ
  mc_maxfd : ℤ
  mc_tag : ℤ
  mc_tagcheck : ℤ
  mc_zeromem : ℤ
deriving DecidableEq, Repr

/-- What the handlers find outside: whether `malloc` has memory, call by call, the loader of
plugins, and the two variables of `plm_memtag_set` that nothing sets. -/
structure Outside where
  mem : List Bool
  inet_addr : Bytes → ℤ
  dlopen : Bytes → Bool
  dlsym : Bytes → Bytes → Option ℕ
  tag : ℤ
  err : ℤ

section Main

/-- The first parameter, which is followed whether there is one or not. -/
def frontParam : List PStr → Except Fault PStr
  | [] => .error .wild
  | param :: _ => .ok param

variable (params : List PStr) (ctx : MainConf)

def intSet (put : ℤ → MainConf) : Except Fault (ℤ × MainConf) := do
  let param ← frontParam params
  return (0, put (str2i param))

def workThreadNumSet : Except Fault (ℤ × MainConf) :=
  intSet params fun n => { ctx with mc_work_thread_num := n }

def maxfdSet : Except Fault (ℤ × MainConf) := intSet params fun n => { ctx with mc_maxfd := n }

def onOffSet (put : ℤ → MainConf) : Except Fault (ℤ × MainConf) :=
  if params.length ≠ 1 then .ok (-1, ctx)
  else do
    let param ← frontParam params
    let rc ← strcmp param (.lit "on")
    return (0, put (if rc = 0 then 1 else 0))

def tagcheckSet : Except Fault (ℤ × MainConf) :=
  onOffSet params ctx fun on => { ctx with mc_tagcheck := on }

def zeromemSet : Except Fault (ℤ × MainConf) :=
  onOffSet params ctx fun on => { ctx with mc_zeromem := on }

/-- `plm_memtag_set`: `plm_hex2i` is empty, so neither the tag nor `err` is ever set. -/
def memtagSet (tag err : ℤ) : Except Fault (ℤ × MainConf) :=
  if params.length ≠ 1 then .ok (-1, ctx)
  else do
    let _ ← frontParam params
    return (err, { ctx with mc_tag := tag })

def loadPlugin (dlopen : Bytes → Bool) (dlsym : Bytes → Bytes → Option ℕ) (path syb : PStr) :
    Except Fault (Option ℕ) := do
  let filepath ← memcpy (List.replicate MAX_PATH 0) 0 path.s_str (sizeT path.s_len)
  let symbol ← memcpy (List.replicate MAX_PATH 0) 0 syb.s_str (sizeT syb.s_len)
  let filepath ← cstr filepath 0
  if dlopen filepath then do
    let symbol ← cstr symbol 0
    return dlsym filepath symbol
  else return none

def loadPluginSet (mem : Bool) (dlopen : Bytes → Bool) (dlsym : Bytes → Bytes → Option ℕ)
    (plugins : List ℕ) :
    Except Fault (ℤ × List ℕ) := do
  match params with
  | [] => .error .wild
  | filename :: rest =>
    if !mem then return (-1, plugins)
    else
      -- `rest` may be empty, and is followed all the same
      let sybname ← frontParam rest
      match ← loadPlugin dlopen dlsym filename sybname with
      | none => return (-1, plugins)
      | some plg => return (0, plugins ++ [plg])

end Main

section Plugins

def echoStrSet (mem : Bool) (params : List PStr) (conf : EchoConf) : Except Fault (ℤ × EchoConf) :=
  do
  let param ← frontParam params
  let len := param.s_len
  if mem then do
    let str ← memcpy (List.replicate (sizeT len) 0) 0 param.s_str (sizeT len)
    return (0, { conf with ec_echostr := ⟨str, len⟩ })
  else return (0, conf)

/-- `plm_http_backend_set`. The copy of the address is not looked at before `inet_addr` reads it. -/
def httpBackendSet (inet_addr : Bytes → ℤ) (mem : List Bool) (params : List PStr) (ctx : HttpCtx) :
    Except Fault (ℤ × HttpCtx) := do
  if params.length ≠ 3 then return (-1, ctx)
  else
    match params with
    | addr :: port :: _ =>
      match ← strzdup (mem.headD true) addr with
      | none => .error .wild
      | some ip =>
        let s_addr := inet_addr (ip.takeWhile (· != 0))
        if s_addr = -1 then return (-1, ctx)
        else if !mem.tail.headD true then return (-1, ctx)
        else
          let backend := ⟨UInt16.ofNat (htons (str2s port)), UInt32.ofInt s_addr⟩
          return (0, { ctx with hc_backends := backend :: ctx.hc_backends })
    | _ => return (-1, ctx)

end Plugins

inductive Directive
  | workThreadNum
  | logpath
  | loadPlugin
  | maxfd
  | workThreadCpuAffinity
  | memtag
  | tagcheck
  | zeromem
  | echoStr
  | echoPort
  | httpListen
  | httpBackend
deriving DecidableEq, Repr

structure Contexts where
  log : LogConf
  cpu : MainCtx
  main : MainConf
  plugins : List ℕ
  echo : EchoConf
  http : HttpCtx

section Tolerates

def ComesBack {α : Type} (call : Except Fault (ℤ × α)) : Prop := ∃ rc ctx, call = .ok (rc, ctx)

/-- The handler comes back, and has read and written nothing that it may not. -/
def Directive.Tolerates (o : Outside) (params : List PStr) (c : Contexts) : Directive → Prop
  | .workThreadNum => ComesBack (workThreadNumSet params c.main)
  | .logpath => ComesBack (logpathSet o.mem params c.log)
  | .loadPlugin => ComesBack (loadPluginSet params (o.mem.headD true) o.dlopen o.dlsym c.plugins)
  | .maxfd => ComesBack (maxfdSet params c.main)
  | .workThreadCpuAffinity =>
    ∃ r, workThreadCpuAffinitySet (o.mem.headD true) params c.cpu = some r ∧
      ∀ i ∈ r.writes, 0 ≤ i ∧ i < r.ctx.mc_cpu_affinity_id_num.toInt
  | .memtag => ComesBack (memtagSet params c.main o.tag o.err)
  | .tagcheck => ComesBack (tagcheckSet params c.main)
  | .zeromem => ComesBack (zeromemSet params c.main)
  | .echoStr => ComesBack (echoStrSet (o.mem.headD true) params c.echo)
  | .echoPort => ComesBack (echoPortSet params c.echo)
  | .httpListen => ComesBack (httpListenSet o.inet_addr (o.mem.headD true) params c.http)
  | .httpBackend => ComesBack (httpBackendSet o.inet_addr o.mem params c.http)

/-- A path and a symbol that `plm_load_plugin` copies into its buffers, with a NUL behind what is
read. -/
def Loads (dlopen : Bytes → Bool) (path syb : CText) : Prop :=
  path.bytes.length < MAX_PATH ∧ syb.bytes.length ≤ MAX_PATH ∧
    (dlopen path.bytes = true → syb.bytes.length < MAX_PATH)

def Directive.Needs (o : Outside) (params : List CText) : Directive → Prop
  | .workThreadNum | .maxfd | .echoStr | .echoPort => params ≠ []
  | .logpath | .memtag | .tagcheck | .zeromem | .httpListen => True
  | .loadPlugin =>
    params ≠ [] ∧ (o.mem.headD true = true → ∃ path syb rest, params = path :: syb :: rest ∧
      Loads o.dlopen path syb)
  | .workThreadCpuAffinity => params.length % 256 = 0 ∨ o.mem.headD true = false ∨
      (params.length < 128 ∧ ∀ p ∈ params, ∀ k, HasOne (.ofBytes p.bytes) k → k < 32)
  | .httpBackend => params.length = 3 → o.mem.headD true = true

end Tolerates

section Calls

variable {o : Outside} {params : List CText}

def texts (params : List CText) : List PStr := params.map fun p => .ofBytes p.bytes

theorem frontParam_iff : (∃ p, frontParam (texts params) = .ok p) ↔ params ≠ [] := by
  cases params with
  | nil => exact iff_of_false (fun ⟨_, h⟩ => absurd h nofun) fun h => h rfl
  | cons p params => exact iff_of_true ⟨_, rfl⟩ nofun

theorem intSet_iff (put : ℤ → MainConf) : ComesBack (intSet (texts params) put) ↔ params ≠ [] := by
  rw [← frontParam_iff]
  unfold intSet ComesBack
  constructor
  · rintro ⟨rc, ctx, h⟩
    obtain ⟨p, hp, -⟩ := bind_eq_ok.1 h
    exact ⟨p, hp⟩
  · rintro ⟨p, hp⟩
    rw [hp]
    exact ⟨_, _, rfl⟩

/-- Handlers that want one parameter look whether there is one. -/
theorem onOffSet_comesBack (params : List CText) (ctx : MainConf) (put : ℤ → MainConf) :
    ComesBack (onOffSet (texts params) ctx put) := by
  unfold onOffSet
  split_ifs with hlen
  · exact ⟨_, _, rfl⟩
  · obtain ⟨p, rfl⟩ := List.length_eq_one_iff.1 (by simpa [texts] using hlen)
    have hcmp : strcmp (.ofBytes p.bytes) (.lit "on") = .ok _ := strcmp_ofBytes _ _
    simp only [texts, List.map_cons, frontParam, ok_bind, hcmp]
    exact ⟨_, _, rfl⟩

theorem memtagSet_comesBack (params : List CText) (ctx : MainConf) (tag err : ℤ) :
    ComesBack (memtagSet (texts params) ctx tag err) := by
  unfold memtagSet
  split_ifs with hlen
  · exact ⟨_, _, rfl⟩
  · obtain ⟨p, rfl⟩ := List.length_eq_one_iff.1 (by simpa [texts] using hlen)
    exact ⟨_, _, rfl⟩

theorem logpathLoop_ok (mem : List Bool) (logpath loglevel : PStr) (params : List CText) :
    ∃ r, logpathLoop mem logpath loglevel (texts params) = .ok r := by
  induction params generalizing mem logpath loglevel with
  | nil => exact ⟨_, rfl⟩
  | cons p params ih =>
    change ∃ r, logpathLoop mem logpath loglevel (.ofBytes p.bytes :: texts params) = .ok r
    rw [logpathLoop]
    split_ifs
    · cases mem.headD true with
      | true =>
        rw [strdup_ofBytes, ok_bind]
        exact ih ..
      | false =>
        rw [show strdup false logpath (.ofBytes p.bytes) = .ok logpath from rfl, ok_bind]
        exact ih ..
    · exact ih ..
    · exact ih ..

theorem logpathSet_comesBack (mem : List Bool) (params : List CText) (ctx : LogConf) :
    ComesBack (logpathSet mem (texts params) ctx) := by
  obtain ⟨r, hr⟩ := logpathLoop_ok mem stringNull stringNull params
  unfold logpathSet
  rw [hr]
  exact ⟨_, _, rfl⟩

theorem echoStrSet_iff (mem : Bool) (conf : EchoConf) :
    ComesBack (echoStrSet mem (texts params) conf) ↔ params ≠ [] := by
  cases params with
  | nil => exact iff_of_false (fun ⟨_, _, h⟩ => absurd h nofun) fun h => h rfl
  | cons p params =>
    refine iff_of_true ?_ nofun
    unfold echoStrSet
    simp only [texts, List.map_cons, frontParam, ok_bind, PStr.ofBytes_str, PStr.ofBytes_len,
      sizeT_natCast]
    cases mem with
    | true =>
      rw [if_pos rfl, memcpy_whole p.bytes rfl]
      exact ⟨_, _, rfl⟩
    | false => exact ⟨_, _, rfl⟩

theorem echoPortSet_iff (conf : EchoConf) :
    ComesBack (echoPortSet (texts params) conf) ↔ params ≠ [] := by
  cases params with
  | nil => exact iff_of_false (fun ⟨_, _, h⟩ => absurd h nofun) fun h => h rfl
  | cons p params => exact iff_of_true ⟨_, _, rfl⟩ nofun

theorem strzdup_ofBytes (mem : Bool) (p : CText) :
    strzdup mem (.ofBytes p.bytes) = .ok (if mem then some p.bytes else none) := by
  unfold strzdup
  rw [PStr.counted_ofBytes, List.getLast?_eq_some_getLast p.ne]
  have hne : p.bytes.getLast p.ne ≠ 0 := fun h0 => p.free (h0 ▸ List.getLast_mem p.ne)
  simp only [hne, if_false]

theorem httpListenSet_comesBack (inet_addr : Bytes → ℤ) (mem : Bool) (params : List CText)
    (ctx : HttpCtx) :
    ComesBack (httpListenSet inet_addr mem (texts params) ctx) := by
  have hlen : (texts params).length = params.length := List.length_map _
  unfold httpListenSet
  simp only [hlen]
  split_ifs with hn
  · exact ⟨_, _, rfl⟩
  · match params with
    | [] => exact ⟨_, _, rfl⟩
    | [_] => exact ⟨_, _, rfl⟩
    | addr :: port :: rest =>
      simp only [texts, List.map_cons, strzdup_ofBytes, ok_bind]
      cases mem with
      | false => exact ⟨_, _, rfl⟩
      | true =>
        simp only [if_true]
        split_ifs
        · exact ⟨_, _, rfl⟩
        · cases rest <;> exact ⟨_, _, rfl⟩

/-- Three parameters are taken, and the first is read in a copy that has to be there. -/
theorem httpBackendSet_iff (inet_addr : Bytes → ℤ) (mem : List Bool) (ctx : HttpCtx) :
    ComesBack (httpBackendSet inet_addr mem (texts params) ctx) ↔
      (params.length = 3 → mem.headD true = true) := by
  have hlen : (texts params).length = params.length := List.length_map _
  unfold httpBackendSet
  rw [hlen]
  by_cases hn : params.length = 3
  · obtain ⟨addr, port, weight, rfl⟩ := List.length_eq_three.1 hn
    rw [if_neg (not_not.2 hn)]
    simp only [texts, List.map_cons, strzdup_ofBytes, ok_bind, hn, true_imp_iff]
    cases mem.headD true with
    | false => exact iff_of_false (fun ⟨_, _, h⟩ => absurd h nofun) nofun
    | true =>
      refine iff_of_true ?_ rfl
      simp only [if_true]
      split_ifs <;> exact ⟨_, _, rfl⟩
  · rw [if_pos hn]
    exact iff_of_true ⟨_, _, rfl⟩ fun h => absurd h hn

/-- A text that is copied into a buffer of `MAX_PATH` zeros, if it is not longer. -/
theorem copied {t : CText} (h : t.bytes.length ≤ MAX_PATH) :
    memcpy (List.replicate MAX_PATH 0) 0 (PStr.ofBytes t.bytes).s_str
      (sizeT (PStr.ofBytes t.bytes).s_len) =
      .ok (t.bytes ++ List.replicate (MAX_PATH - t.bytes.length) 0) := by
  rw [PStr.ofBytes_str, PStr.ofBytes_len, sizeT_natCast, memcpy_start (by simpa using h) le_rfl,
    List.take_length, List.drop_replicate]

theorem not_copied {t : CText} (h : ¬ t.bytes.length ≤ MAX_PATH) :
    memcpy (List.replicate MAX_PATH 0) 0 (PStr.ofBytes t.bytes).s_str
      (sizeT (PStr.ofBytes t.bytes).s_len) =
      .error .bounds := by
  rw [PStr.ofBytes_len, sizeT_natCast]
  exact memcpy_outside (by simpa using h)

/-- What is read of the buffer ends where the text does, if a zero is left. -/
theorem cstr_copied {t : CText} (h : t.bytes.length ≤ MAX_PATH) :
    cstr (t.bytes ++ List.replicate (MAX_PATH - t.bytes.length) 0) 0 =
      if t.bytes.length < MAX_PATH then .ok t.bytes else .error .bounds := by
  split_ifs with hlt
  · obtain ⟨n, hn⟩ : ∃ n, MAX_PATH - t.bytes.length = n + 1 :=
      ⟨MAX_PATH - t.bytes.length - 1, by omega⟩
    rw [hn, List.replicate_succ]
    exact cstr_split (l := []) rfl rfl t.free
  · rw [show MAX_PATH - t.bytes.length = 0 by omega, List.replicate_zero, List.append_nil]
    exact cstr_unended t.free

theorem loadPlugin_iff (dlopen : Bytes → Bool) (dlsym : Bytes → Bytes → Option ℕ)
    (path syb : CText) :
    (∃ r, loadPlugin dlopen dlsym (.ofBytes path.bytes) (.ofBytes syb.bytes) = .ok r) ↔
      Loads dlopen path syb := by
  unfold loadPlugin Loads
  by_cases hpath : path.bytes.length ≤ MAX_PATH
  swap
  · rw [not_copied hpath]
    exact iff_of_false (fun ⟨_, h⟩ => absurd h nofun) fun h => hpath h.1.le
  by_cases hsyb : syb.bytes.length ≤ MAX_PATH
  swap
  · rw [copied hpath, ok_bind, not_copied hsyb]
    exact iff_of_false (fun ⟨_, h⟩ => absurd h nofun) fun h => hsyb h.2.1
  rw [copied hpath, ok_bind, copied hsyb, ok_bind, cstr_copied hpath, and_iff_right hsyb]
  by_cases hlt : path.bytes.length < MAX_PATH
  swap
  · rw [if_neg hlt]
    exact iff_of_false (fun ⟨_, h⟩ => absurd h nofun) fun h => hlt h.1
  rw [if_pos hlt, ok_bind, and_iff_right hlt]
  cases dlopen path.bytes with
  | false => exact iff_of_true ⟨_, rfl⟩ nofun
  | true =>
    rw [if_pos rfl, cstr_copied hsyb]
    simp only [true_imp_iff]
    by_cases hlt' : syb.bytes.length < MAX_PATH
    · rw [if_pos hlt']
      exact iff_of_true ⟨_, rfl⟩ hlt'
    · rw [if_neg hlt']
      exact iff_of_false (fun ⟨_, h⟩ => absurd h nofun) hlt'

/-- Two parameters are followed as soon as there is memory, and one even without. -/
theorem loadPluginSet_iff (mem : Bool) (dlopen : Bytes → Bool) (dlsym : Bytes → Bytes → Option ℕ)
    (plugins : List ℕ) :
    ComesBack (loadPluginSet (texts params) mem dlopen dlsym plugins) ↔
      params ≠ [] ∧
        (mem = true → ∃ path syb rest, params = path :: syb :: rest ∧ Loads dlopen path syb) := by
  unfold loadPluginSet
  cases mem with
  | false =>
    cases params with
    | nil => exact iff_of_false (fun ⟨_, _, h⟩ => absurd h nofun) fun h => h.1 rfl
    | cons path params => exact iff_of_true ⟨_, _, rfl⟩ ⟨nofun, nofun⟩
  | true =>
    match params with
    | [] => exact iff_of_false (fun ⟨_, _, h⟩ => absurd h nofun) fun h => h.1 rfl
    | [path] =>
      refine iff_of_false (fun ⟨_, _, h⟩ => absurd h nofun) ?_
      rintro ⟨-, h⟩
      obtain ⟨_, _, _, h, -⟩ := h rfl
      simp at h
    | path :: syb :: rest =>
      have hneeds : (path :: syb :: rest ≠ [] ∧
          (true = true → ∃ p s r, path :: syb :: rest = p :: s :: r ∧ Loads dlopen p s)) ↔
            Loads dlopen path syb := by
        refine ⟨fun h => ?_, fun h => ⟨nofun, fun _ => ⟨path, syb, rest, rfl, h⟩⟩⟩
        obtain ⟨p, s, r, heq, hl⟩ := h.2 rfl
        simp only [List.cons.injEq] at heq
        obtain ⟨rfl, rfl, -⟩ := heq
        exact hl
      rw [hneeds, ← loadPlugin_iff dlopen dlsym]
      simp only [texts, List.map_cons, Bool.not_true, Bool.false_eq_true, if_false, frontParam,
        ok_bind]
      constructor
      · rintro ⟨rc, ctx, h⟩
        obtain ⟨r, hr, -⟩ := bind_eq_ok.1 h
        exact ⟨r, hr⟩
      · rintro ⟨r, hr⟩
        rw [hr]
        cases r <;> exact ⟨_, _, rfl⟩

theorem affinity_inside_iff (mem : Bool) (params : List PStr) (ctx : MainCtx) :
    (∃ r, workThreadCpuAffinitySet mem params ctx = some r ∧
      ∀ i ∈ r.writes, 0 ≤ i ∧ i < r.ctx.mc_cpu_affinity_id_num.toInt) ↔
    params.length % 256 = 0 ∨ mem = false ∨
      (params.length < 128 ∧ ∀ p ∈ params, ∀ k, HasOne p k → k < 32) := by
  by_cases h0 : params.length % 256 = 0
  · unfold workThreadCpuAffinitySet
    rw [if_pos ((count_eq_zero _).2 h0)]
    exact iff_of_true ⟨_, rfl, by simp⟩ (.inl h0)
  have hn0 := fun h => h0 ((count_eq_zero _).1 h)
  cases mem with
  | false =>
    unfold workThreadCpuAffinitySet
    rw [if_neg hn0]
    exact iff_of_true ⟨_, rfl, by simp⟩ (.inr (.inl rfl))
  | true =>
    have hshift : (∀ p ∈ params, ∀ k, HasOne p k → k < 32) ↔
      ∀ p ∈ params, (bitset2int64 p).isSome := by
      simp only [bitset2int64_isSome]
    simp only [h0, hshift, false_or, reduceCtorEq]
    constructor
    · rintro ⟨r, hr, hin⟩
      obtain ⟨-, hle⟩ := count_le (Int8.ofNat params.length) hn0
      unfold workThreadCpuAffinitySet at hr
      rw [if_neg hn0] at hr
      set n := if (Int8.ofNat params.length).toInt < 0 then 127 else Int8.ofNat params.length
      simp only [Bool.not_true, Bool.false_eq_true, if_false] at hr
      rcases affinityLoop_cases params 0 (List.replicate n.toInt.toNat none) with ⟨-, hl⟩ |
        ⟨hall, ids', hlen, hl⟩
      all_goals
        rw [show Int8.ofNat 0 = 0 from rfl] at hl
        rw [hl] at hr
      · cases hr
      · obtain rfl := Option.some.inj hr
        exact ⟨lt_of_inside hle hin, hall⟩
    · intro h
      obtain ⟨r, hr, hkept⟩ := (affinityKept_mem ctx h0).2 h
      exact ⟨r, hr, hkept.inside⟩

/-- A handler tolerates a list of parameters exactly where it has what it needs. -/
theorem tolerates_iff (d : Directive) (o : Outside) (params : List CText) (c : Contexts) :
    d.Tolerates o (texts params) c ↔ d.Needs o params := by
  cases d with
  | workThreadNum => exact intSet_iff _
  | logpath => exact iff_of_true (logpathSet_comesBack ..) trivial
  | loadPlugin => exact loadPluginSet_iff ..
  | maxfd => exact intSet_iff _
  | workThreadCpuAffinity =>
    unfold Directive.Tolerates Directive.Needs
    rw [affinity_inside_iff]
    simp [texts]
  | memtag => exact iff_of_true (memtagSet_comesBack ..) trivial
  | tagcheck => exact iff_of_true (onOffSet_comesBack ..) trivial
  | zeromem => exact iff_of_true (onOffSet_comesBack ..) trivial
  | echoStr => exact echoStrSet_iff ..
  | echoPort => exact echoPortSet_iff _
  | httpListen => exact iff_of_true (httpListenSet_comesBack ..) trivial
  | httpBackend => exact httpBackendSet_iff ..

def ready : Outside := ⟨[], fun _ => 0, fun _ => true, fun _ _ => some 0, 0, 0⟩

/-- The contexts as they are created, but for the path of the log. -/
def created : Contexts :=
  ⟨⟨stringNull, 1⟩, ⟨none, 0⟩, ⟨1, 1024, 2 ^ 32 - 1, 1, 1⟩, [], ⟨stringNull, 0⟩, ⟨none, 0, 5, []⟩⟩

/-- An `echo_port` without a parameter follows a `NULL`, as does a `load_plugin` with one. -/
theorem not_tolerates : ¬ Directive.echoPort.Tolerates ready (texts []) created ∧
    ¬ Directive.loadPlugin.Tolerates ready (texts [⟨ascii "a.so", by decide,
      by decide⟩]) created := by
  refine ⟨?_, ?_⟩
  · rintro ⟨_, _, h⟩
    exact absurd h nofun
  · rintro ⟨_, _, h⟩
    exact absurd h nofun

end Calls

end Plume
