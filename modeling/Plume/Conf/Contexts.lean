import Plume.Conf.Meaning
import Plume.Teardown

/-! What a configuration leaves in `main_ctx`. The loader registers each context it creates, with
the one it created before as the parent, so that every block is taken for a block of the one
before it; and the search for the level of a block ends at `mc_ctxs` for all of them. -/

namespace Plume.Conf
open CLib

section Chain

variable {ε : Type} {table : ε → List (Cmd ε ℕ)} {junk : ℕ → Junk ℕ} (plg free : Bytes → ℕ)
  {w : World ε ℕ} {ρ : Env}
  {c : ℕ}

/-- The calls of `plm_ctx_register`: the command says which plugin the context is of and what
frees it, and a missing context is `NULL`. -/
def ctxRegCalls : List (Call ℕ) → List (ℕ × CtxBlock) :=
  List.filterMap fun
    | .createCtx name parent ctx => some (parent.getD 0, ⟨plg name, ctx.getD 0, free name⟩)
    | _ => none

/-- From the context `c` on, each block is registered below the one before it. -/
inductive Handed : ℕ → List (ℕ × CtxBlock) → ℕ → Prop
  | nil (c : ℕ) : Handed c [] c
  | cons (c : ℕ) (b : CtxBlock) {regs : List (ℕ × CtxBlock)} {e : ℕ} : Handed b.ctx regs e →
    Handed c ((c, b) :: regs) e

theorem Handed.append {regs regs' : List (ℕ × CtxBlock)} {e e' : ℕ} (h : Handed c regs e)
    (h' : Handed e regs' e') :
    Handed c (regs ++ regs') e' := by
  induction h with
  | nil c => exact h'
  | cons c b _ ih => exact .cons c b (ih h')

def Hands (c : ℕ) (m : Logged (Call ℕ) Fault (World ε ℕ)) : Prop :=
  ∀ log w', m = (log, .ok w') → ∃ c', w'.ctx.getD 0 = c' ∧ Handed c (ctxRegCalls plg free log) c'

variable {plg free}

theorem Hands.bind {m : Logged (Call ℕ) Fault (World ε ℕ)}
    {k : World ε ℕ → Logged (Call ℕ) Fault (World ε ℕ)}
    (h : Hands plg free c m) (hk : ∀ w' c', w'.ctx.getD 0 = c' → Hands plg free c' (k w')) :
    Hands plg free c (m.bind k) := by
  intro log w' hm
  obtain ⟨l₁, w₁, l₂, hm₁, hk₁, rfl⟩ := Logged.bind_through hm
  obtain ⟨c₁, hc₁, h₁⟩ := h l₁ w₁ hm₁
  obtain ⟨c₂, hc₂, h₂⟩ := hk w₁ c₁ hc₁ l₂ w' hk₁
  refine ⟨c₂, hc₂, ?_⟩
  rw [ctxRegCalls, List.filterMap_append]
  exact h₁.append h₂

theorem hands_same {m : Logged (Call ℕ) Fault (World ε ℕ)} (hc : w.ctx.getD 0 = c)
    (h : ∀ log w', m = (log, .ok w') →
      w'.ctx = w.ctx ∧ ctxRegCalls plg free log = []) : Hands plg free c m := by
  intro log w' hm
  obtain ⟨hctx, hlog⟩ := h log w' hm
  refine ⟨c, (congrArg (Option.getD · 0) hctx).trans hc, ?_⟩
  rw [hlog]
  exact .nil c

theorem hands_name (hc : w.ctx.getD 0 = c) (cmd_name : Bytes) :
    Hands plg free c (w.name table cmd_name) := by
  intro log w' hm
  unfold World.name at hm
  split at hm
  · cases hm
  next cmd _ =>
    dsimp only at hm
    split_ifs at hm
    · cases hm
    · cases hm
      unfold Cmd.named
      cases cmd.c_type with
      | instruction => exact ⟨c, hc, .nil c⟩
      | block =>
        subst hc
        exact ⟨_, rfl, .cons _ ⟨_, _, _⟩ (.nil _)⟩

theorem hands_set (hc : w.ctx.getD 0 = c) (cmd_name : Bytes) (params : List Bytes) :
    Hands plg free c (w.set table cmd_name params) := by
  refine hands_same hc fun log w' hm => ?_
  unfold World.set at hm
  split at hm
  · cases hm
  split at hm
  · cases hm
    exact ⟨rfl, rfl⟩
  · dsimp only at hm
    split_ifs at hm
    · cases hm
      exact ⟨rfl, rfl⟩
    · cases hm

theorem hands_directive (hc : w.ctx.getD 0 = c) (ρ : Env) (d : WordLine) :
    Hands plg free c (w.directive table ρ d) := by
  refine (hands_name hc d.name).bind fun w₁ c₁ hc₁ => ?_
  unfold World.param
  cases d.params ρ with
  | none => exact fun log w' hm => by cases hm
  | some params => exact hands_set hc₁ d.name params

theorem hands_opened (hc : w.ctx.getD 0 = c) (ρ : Env) (d : WordLine) :
    Hands plg free c (w.opened table ρ d) := by
  refine (hands_directive hc ρ d).bind fun w₁ c₁ hc₁ => hands_same hc₁ fun log w' hm => ?_
  cases hm
  exact ⟨rfl, rfl⟩

theorem hands_closed (hc : w.ctx.getD 0 = c) (n : ℕ) :
    Hands plg free c (w.closed table junk n) := by
  unfold World.closed
  split
  · exact fun log w' hm => by cases hm
  · refine (hands_set hc _ _).bind fun w₁ c₁ hc₁ => hands_same hc₁ fun log w' hm => ?_
    cases hm
    exact ⟨rfl, rfl⟩

/-- In a block each context is created in the one created before it, wherever that was closed. -/
theorem hands_body (b : Body) (hc : w.ctx.getD 0 = c) (n : ℕ) (ρ : Env) :
    Hands plg free c (b.loaded table junk n ρ w) := by
  induction b generalizing c w n ρ with
  | done =>
    refine hands_same hc fun log w' hm => ?_
    cases hm
    exact ⟨rfl, rfl⟩
  | define x v rest ih =>
    rw [Body.loaded]
    cases v.stored (ρ x) with
    | none => exact fun log w' hm => by cases hm
    | some u => exact ih hc _ _
  | directive d rest ih => exact (hands_directive hc ρ d).bind fun w₁ c₁ hc₁ => ih hc₁ _ ρ
  | block head inner rest ihi ihr =>
    refine (hands_opened hc ρ head).bind fun w₁ c₁ hc₁ => ?_
    refine (ihi hc₁ _ ρ).bind fun w₂ c₂ hc₂ => ?_
    exact (hands_closed hc₂ _).bind fun w₃ c₃ hc₃ => ihr hc₃ _ ρ

theorem block_handed {b : Block} {n : ℕ} {env : ε} {log : List (Call ℕ)} {w' : World ε ℕ}
    (h : b.loaded table junk n env = (log, .ok w')) : ∃ c e, Handed c
    (ctxRegCalls plg free log) e := by
  obtain ⟨l₁, ctx, l₂, hctx, hblock, rfl⟩ := Logged.bind_through h
  obtain ⟨rfl, -⟩ := Prod.mk.inj hctx
  obtain ⟨e, -, he⟩ :=
    hands_body (c := ctx.getD 0) (.block b.head b.inner .done) rfl n (fun _ => none) l₂ w' hblock
  exact ⟨_, e, he⟩

end Chain

section Registered

variable {s : CtxState}

/-- Blocks that are in each other, the first one outside. -/
def chain : List CtxBlock → Forest CtxBlock
  | [] => .nil
  | b :: bs => .cons b (chain bs) .nil

theorem preorder_chain (bs : List CtxBlock) : (chain bs).preorder = bs := by
  induction bs with
  | nil => rfl
  | cons b bs ih => rw [chain, Forest.preorder, ih, Forest.preorder, List.append_nil]

theorem Handed.eq_chain {c e : ℕ} {regs : List (ℕ × CtxBlock)} (h : Handed c regs e) :
    regs = ctxRegs c (chain (regs.map Prod.snd)) := by
  induction h with
  | nil c => rfl
  | cons c b _ ih => rw [List.map_cons, chain, ctxRegs, ctxRegs, List.append_nil, ← ih]

/-- What registering `regs` leaves: a node for each context but the first, which is `main_ctx`, the
last one first. They are all freed by `plm_ctx_destroy` only where there are none. -/
structure Kept (regs : List (ℕ × CtxBlock)) (s : CtxState) : Prop where
  nodes : ∃ nodes, Nodes s (regs.map Prod.snd).tail.reverse nodes
  destroyed : (∃ k s', ∀ fuel, k ≤ fuel → ctxDestroy fuel s = .ok (0, s')) ↔ regs.length = 1

theorem Handed.registered {c e : ℕ} {regs : List (ℕ × CtxBlock)} (h : Handed c regs e) :
    ∃ s, ctxRegisterAll regs ctxInit = .ok s ∧ Kept regs s := by
  cases h with
  | nil c =>
    refine ⟨ctxInit, rfl, ⟨[], Slist.holds_init _, rfl, by simp⟩, ⟨fun ⟨k, s', hk⟩ => ?_, nofun⟩⟩
    have hwild : ctxDestroy k ctxInit = .error .wild := by cases k <;> rfl
    rw [hk k le_rfl] at hwild
    cases hwild
  | @cons c b regs e h =>
    obtain ⟨s, nodes, hall, hn⟩ := register_nodes c b (chain (regs.map Prod.snd))
    rw [← h.eq_chain] at hall
    rw [preorder_chain] at hn
    refine ⟨s, hall, ⟨nodes, hn⟩, ?_⟩
    cases regs with
    | nil =>
      cases hall
      exact ⟨fun _ => rfl, fun _ => ⟨0, _, fun fuel _ => by cases fuel <;> rfl⟩⟩
    | cons reg regs =>
      refine ⟨fun ⟨k, s', hk⟩ => ?_, fun hlen => absurd hlen (by simp)⟩
      have hne : chain ((reg :: regs).map Prod.snd) ≠ .nil := nofun
      obtain ⟨s₂, hall₂, k₂, hk₂⟩ := register_destroy c b hne
      rw [← h.eq_chain, hall] at hall₂
      cases hall₂
      have hwild := hk₂ (k + k₂) (Nat.le_add_left ..)
      rw [hk (k + k₂) (Nat.le_add_right ..)] at hwild
      cases hwild

/-- Of a file of one outermost block that is loaded, all contexts are registered; and
`plm_ctx_destroy` can free them only if the block is the only one that has a context. -/
theorem confLoad_contexts {ε : Type} (table : ε → List (Cmd ε ℕ)) (junk : ℕ → Junk ℕ)
    (plg free : Bytes → ℕ)
    (env env' : ε) (b : Block) (ls : List Bytes) (calls : List (Call ℕ)) (hfit : ∀ l ∈ ls, Fits l)
    (hls : parsedLines ls = b.lines) (hjunk : ∀ k i, (junk k).curr_ctx ≠ .block i)
    (hload : confLoad table junk env (fileText ls) = (calls, .ok env')) :
    ∃ s, ctxRegisterAll (ctxRegCalls plg free calls) ctxInit = .ok s ∧
      Kept (ctxRegCalls plg free calls) s := by
  have hlines : parsedLines ls = [b].flatMap Block.lines := by rw [hls, List.flatMap_singleton]
  rw [confLoad_loaded table env hfit hlines hjunk, fileLoaded] at hload
  obtain ⟨l₁, w, l₂, hblock, hrest, rfl⟩ := Logged.bind_through hload
  obtain ⟨rfl, -⟩ := Prod.mk.inj hrest
  rw [List.append_nil]
  obtain ⟨c, e, hhanded⟩ := block_handed hblock
  exact hhanded.registered

theorem word_http : ascii "http" ≠ [] ∧ Plain (ascii "http") := by decide

def nestedBlock : Block where
  head := ⟨⟨ascii "main", word_main⟩, [], 1⟩
  inner := .block ⟨⟨ascii "http", word_http⟩, [], 1⟩ .done .done

def ctxCmd (name : Bytes) (ctx : ℕ) : Cmd Unit ℕ :=
  ⟨name ++ [0], .block, none, fun _ env => (some ctx, env)⟩

theorem confLoad_contexts_main :
    ∃ s, ctxRegisterAll [(0, ⟨7, 100, 8⟩), (100, ⟨7, 200, 8⟩)] ctxInit = .ok s ∧
    Kept [(0, ⟨7, 100, 8⟩), (100, ⟨7, 200, 8⟩)] s :=
  confLoad_contexts (fun _ => [ctxCmd (ascii "main") 100, ctxCmd (ascii "http") 200])
    (fun _ => ⟨.null, some (ascii "main"), [], .null, .null⟩) (fun _ => 7) (fun _ => 8) ()
    () nestedBlock
    [ascii "main \x7b", ascii "  http \x7b", [RBRACE], [RBRACE]] _ (by decide) (by decide)
    (by simp) rfl

end Registered

end Plume.Conf
