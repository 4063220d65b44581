import Plume.CLib.Slist

/-! Doubly linked lists whose links lie in the nodes. -/

namespace CLib

variable {α : Type}

structure DNode (α : Type) where
  dn_next : Option α
  dn_prev : Option α
deriving DecidableEq, Repr

/-- The length is an `int` in C: the model is one of lists of fewer than 2 ^ 31 nodes. -/
structure Dlist (α : Type) where
  d_head : Option α
  d_tail : Option α
  d_len : ℕ
deriving DecidableEq, Repr

abbrev DLinks (α : Type) := α → Option (DNode α)

/-- From `p`, behind `prev`, the links lead through the nodes `as`, of which `last` is the last,
and then to `q`. -/
def DSeg (links : DLinks α) : Option α → Option α → List α → Option α → Option α → Prop
  | prev, p, [], last, q => p = q ∧ prev = last
  | prev, p, a :: as, last, q =>
    p = some a ∧ ∃ r, links a = some ⟨r, prev⟩ ∧ DSeg links (some a) r as last q

section Seg

variable {links links' : DLinks α} {prev p last q : Option α} {as bs : List α} {a : α}

theorem dseg_append : DSeg links prev p (as ++ bs) last q ↔
    ∃ m r, DSeg links prev p as m r ∧ DSeg links m r bs last q := by
  induction as generalizing prev p with
  | nil => exact ⟨fun h => ⟨prev, p, ⟨rfl, rfl⟩, h⟩, fun ⟨_, _, ⟨rfl, rfl⟩, h⟩ => h⟩
  | cons a as ih =>
    simp only [List.cons_append, DSeg, ih]
    constructor
    · rintro ⟨hp, r, hr, m, s, hs, h⟩
      exact ⟨m, s, ⟨hp, r, hr, hs⟩, h⟩
    · rintro ⟨m, s, ⟨hp, r, hr, hs⟩, h⟩
      exact ⟨hp, r, hr, m, s, hs, h⟩

theorem dseg_congr (h : ∀ a ∈ as, links' a = links a) :
    DSeg links' prev p as last q ↔ DSeg links prev p as last q := by
  induction as generalizing prev p with
  | nil => rfl
  | cons b as ih =>
    obtain ⟨hb, has⟩ := List.forall_mem_cons.1 h
    simp only [DSeg, hb, ih has]

theorem dseg_update [DecidableEq α] (h : a ∉ as) (v : Option (DNode α)) :
    DSeg (Function.update links a v) prev p as last q ↔ DSeg links prev p as last q :=
  dseg_congr fun _ hb => Function.update_of_ne (ne_of_mem_of_not_mem hb h) ..

theorem dseg_seg (h : DSeg links prev p as last q) :
    Seg (fun a => (links a).map DNode.dn_next) p as q := by
  induction as generalizing prev p with
  | nil => exact h.1
  | cons a as ih =>
    obtain ⟨hp, r, hr, h⟩ := h
    exact ⟨hp, r, by simp only [hr, Option.map_some], ih h⟩

end Seg

namespace Dlist

/-- The list is `as`. -/
def Holds (links : DLinks α) (l : Dlist α) (as : List α) : Prop :=
  DSeg links none l.d_head as l.d_tail none ∧ l.d_len = as.length

def init : Dlist α := ⟨none, none, 0⟩

section Ops

variable [DecidableEq α]

def setNext (links : DLinks α) (node v : Option α) : Except Fault (DLinks α) :=
  match node with
  | none => .ok links
  | some a =>
    match links a with
    | none => .error .wild
    | some n => .ok (Function.update links a (some { n with dn_next := v }))

def setPrev (links : DLinks α) (node v : Option α) : Except Fault (DLinks α) :=
  match node with
  | none => .ok links
  | some a =>
    match links a with
    | none => .error .wild
    | some n => .ok (Function.update links a (some { n with dn_prev := v }))

def addFront (l : Dlist α) (node : α) (links : DLinks α) : Except Fault (Dlist α × DLinks α) := do
  let links := Function.update links node (some ⟨l.d_head, none⟩)
  let links ← setPrev links l.d_head (some node)
  return (⟨some node, if l.d_tail = none then some node else l.d_tail, l.d_len + 1⟩, links)

def addBack (l : Dlist α) (node : α) (links : DLinks α) : Except Fault (Dlist α × DLinks α) := do
  let links := Function.update links node (some ⟨none, l.d_tail⟩)
  let links ← setNext links l.d_tail (some node)
  return (⟨if l.d_head = none then some node else l.d_head, some node, l.d_len + 1⟩, links)

def delFront (l : Dlist α) (links : DLinks α) : Except Fault (Dlist α × DLinks α) :=
  if l.d_len = 0 then .ok (l, links)
  else
    match l.d_head.bind links with
    | none => .error .wild
    | some n => do
      let links ← setPrev links n.dn_next none
      return (⟨n.dn_next, if l.d_len = 1 then none else l.d_tail, l.d_len - 1⟩, links)

def delBack (l : Dlist α) (links : DLinks α) : Except Fault (Dlist α × DLinks α) :=
  if l.d_len = 0 then .ok (l, links)
  else
    match l.d_tail.bind links with
    | none => .error .wild
    | some n => do
      let links ← setNext links n.dn_prev none
      return (⟨if l.d_len = 1 then none else l.d_head, n.dn_prev, l.d_len - 1⟩, links)

/-- Inserts `new` behind `old`. -/
def insertBack (l : Dlist α) (old new : α) (links : DLinks α) : Except Fault (Dlist α × DLinks α) :=
  match links old with
  | none => .error .wild
  | some o => do
    let links ← setPrev links o.dn_next (some new)
    let links := Function.update links new (some ⟨o.dn_next, some old⟩)
    let links ← setNext links (some old) (some new)
    return (⟨l.d_head, if l.d_tail = some old then some new else l.d_tail, l.d_len + 1⟩, links)

/-- Inserts `new` in front of `old`. -/
def insertFront (l : Dlist α) (old new : α) (links : DLinks α) :
    Except Fault (Dlist α × DLinks α) :=
  match links old with
  | none => .error .wild
  | some o => do
    let links ← setNext links o.dn_prev (some new)
    let links := Function.update links new (some ⟨some old, o.dn_prev⟩)
    let links ← setPrev links (some old) (some new)
    return (⟨if l.d_head = some old then some new else l.d_head, l.d_tail, l.d_len + 1⟩, links)

def remove (l : Dlist α) (node : α) (links : DLinks α) : Except Fault (Dlist α × DLinks α) :=
  match links node with
  | none => .error .wild
  | some n => do
    let links ← setNext links n.dn_prev n.dn_next
    let links ← setPrev links n.dn_next n.dn_prev
    return (⟨if l.d_head = some node then n.dn_next else l.d_head,
      if l.d_tail = some node then n.dn_prev else l.d_tail, l.d_len - 1⟩, links)

def search (p : α → Bool) (fuel : ℕ) (l : Dlist α) (links : DLinks α) : Except Fault (Option α) :=
  Slist.search p (fun a => (links a).map DNode.dn_next) fuel l.d_head

def removeIf (p : α → Bool) (fuel : ℕ) (l : Dlist α) (links : DLinks α) :
    Except Fault (Dlist α × DLinks α) := do
  match ← search p fuel l links with
  | none => return (l, links)
  | some target => remove l target links

def forward (fuel : ℕ) (l : Dlist α) (links : DLinks α) : Except Fault (List α) :=
  Slist.walk (fun a => (links a).map DNode.dn_next) fuel l.d_head

def backward (fuel : ℕ) (l : Dlist α) (links : DLinks α) : Except Fault (List α) :=
  Slist.walk (fun a => (links a).map DNode.dn_prev) fuel l.d_tail

end Ops

variable {links : DLinks α} {l : Dlist α} {as pre : List α} {a old : α}

theorem holds_init (links : DLinks α) : (init : Dlist α).Holds links [] := ⟨⟨rfl, rfl⟩, rfl⟩

theorem Holds.nodup (h : l.Holds links as) : as.Nodup := seg_nodup (dseg_seg h.1)

theorem Holds.head_eq (h : l.Holds links as) : l.d_head = as.head? := by
  cases as with
  | nil => exact h.1.1
  | cons a as => exact h.1.1

/-- Storing the link behind the nodes `as`, which is the link of the last of them or the start. -/
theorem dseg_setNext [DecidableEq α] {p m q : Option α} (h : DSeg links none p as m q)
    (hnodup : as.Nodup)
    (v : Option α) : ∃ links', setNext links m v = .ok links' ∧ (∀ b ∉ as, links' b = links b) ∧
      DSeg links' none (if as = [] then v else p) as m v := by
  rcases List.eq_nil_or_concat as with rfl | ⟨as, c, rfl⟩
  · obtain ⟨rfl, rfl⟩ := h
    exact ⟨links, rfl, fun _ _ => rfl, rfl, rfl⟩
  · rw [List.concat_eq_append] at *
    obtain ⟨m', r, hpre, rfl, s, hc, rfl, rfl⟩ := dseg_append.1 h
    have hmem : c ∉ as := fun hc => (List.nodup_append.1 hnodup).2.2 c hc c List.mem_cons_self rfl
    rw [setNext, hc]
    refine ⟨_, rfl, fun b hb => Function.update_of_ne (by rintro rfl; simp at hb) .., ?_⟩
    rw [if_neg (by simp)]
    exact dseg_append.2
      ⟨m', some c, (dseg_update hmem _).2 hpre, rfl, v, Function.update_self .., rfl, rfl⟩

theorem Holds.addBack [DecidableEq α] (h : l.Holds links as) (ha : a ∉ as) :
    ∃ l' links', l.addBack a links = .ok (l', links') ∧ l'.Holds links' (as ++ [a]) := by
  have hseg := (dseg_update (a := a) (v := some ⟨none, l.d_tail⟩) ha).2 h.1
  obtain ⟨links', hset, hframe, hseg'⟩ := dseg_setNext hseg h.nodup (some a)
  rw [Dlist.addBack, hset]
  refine ⟨_, _, rfl, dseg_append.2 ⟨l.d_tail, some a, ?_, rfl, none, ?_, rfl, rfl⟩, ?_⟩
  · have hhead : (if l.d_head = none then some a else l.d_head) = if as = [] then some a
      else l.d_head := by
      simp only [h.head_eq, List.head?_eq_none_iff]
    simp only [hhead]
    exact hseg'
  · rw [hframe a ha, Function.update_self]
  · rw [List.length_append, ← h.2]
    rfl

theorem Holds.insertFront [DecidableEq α] (h : l.Holds links (pre ++ old :: as))
    (ha : a ∉ pre ++ old :: as) :
    ∃ l' links', l.insertFront old a links = .ok (l', links') ∧
      l'.Holds links' (pre ++ a :: old :: as) := by
  have hnodup := h.nodup
  obtain ⟨m, p, hpre, rfl, r, hold, has⟩ := dseg_append.1 h.1
  obtain ⟨hnpre, hntail, hdisj⟩ := List.nodup_append.1 hnodup
  obtain ⟨holdas, -⟩ := List.nodup_cons.1 hntail
  have holdpre : old ∉ pre := fun hmem => hdisj old hmem old List.mem_cons_self rfl
  simp only [List.mem_append, List.mem_cons, not_or] at ha
  obtain ⟨hapre, haold, haas⟩ := ha
  obtain ⟨links', hset, hframe, hpre'⟩ := dseg_setNext hpre hnpre (some a)
  have hold' : links' old = some ⟨r, m⟩ := (hframe old holdpre).trans hold
  have hasframe : ∀ b ∈ as, links' b = links b := fun b hb =>
    hframe b fun hmem => hdisj b hmem b (List.mem_cons_of_mem _ hb) rfl
  rw [Dlist.insertFront, hold]
  simp only [hset, ok_bind, setPrev, Function.update_of_ne (Ne.symm haold), hold', pure_ok]
  refine ⟨_, _, rfl, ?_, ?_⟩
  · have hhead : (if l.d_head = some old then some a else l.d_head) = if pre = [] then some a
      else l.d_head := by
      rw [h.head_eq]
      cases pre with
      | nil => simp
      | cons c pre => simp [ne_of_mem_of_not_mem List.mem_cons_self holdpre]
    simp only [hhead]
    refine dseg_append.2 ⟨m, some a, ?_, rfl, some old, ?_, rfl, r, Function.update_self .., ?_⟩
    · exact (dseg_update holdpre _).2 ((dseg_update hapre _).2 hpre')
    · rw [Function.update_of_ne haold, Function.update_self]
    · exact (dseg_update holdas _).2 ((dseg_update haas _).2 ((dseg_congr hasframe).2 has))
  · simp only [h.2, List.length_append, List.length_cons]
    rfl

theorem Holds.delFront [DecidableEq α] (h : l.Holds links (a :: as)) :
    ∃ l' links', l.delFront links = .ok (l', links') ∧ l'.Holds links' as := by
  obtain ⟨hmem, hnodup⟩ := List.nodup_cons.1 h.nodup
  obtain ⟨⟨hhead, r, ha, hseg⟩, hlen⟩ := h
  rw [Dlist.delFront, if_neg (by rw [hlen]; exact Nat.succ_ne_zero _), hhead, Option.bind_some, ha]
  cases as with
  | nil =>
    obtain ⟨rfl, -⟩ := hseg
    refine ⟨_, _, rfl, ⟨rfl, ?_⟩, by rw [hlen]; rfl⟩
    rw [hlen]
    rfl
  | cons b as =>
    obtain ⟨rfl, s, hb, hseg⟩ := hseg
    obtain ⟨hbas, -⟩ := List.nodup_cons.1 hnodup
    simp only [setPrev, hb, ok_bind, pure_ok]
    refine ⟨_, _, rfl, ⟨rfl, s, Function.update_self .., ?_⟩, by rw [hlen]; rfl⟩
    rw [if_neg (by rw [hlen]; simp)]
    exact (dseg_update hbas _).2 hseg

section Mirror

def mirror (l : Dlist α) : Dlist α := ⟨l.d_tail, l.d_head, l.d_len⟩

def swapped (links : DLinks α) : DLinks α := fun a => (links a).map fun n => ⟨n.dn_prev, n.dn_next⟩

def turned (s : Dlist α × DLinks α) : Dlist α × DLinks α := (s.1.mirror, swapped s.2)

theorem swapped_of_eq {next prev : Option α} (h : links a = some ⟨next, prev⟩) :
    swapped links a = some ⟨prev, next⟩ := by
  rw [swapped, h]
  rfl

@[simp] theorem swapped_swapped (links : DLinks α) : swapped (swapped links) = links := by
  funext a
  cases ha : links a <;> simp [swapped, ha]

@[simp] theorem turned_turned (s : Dlist α × DLinks α) : turned (turned s) = s := by
  simp [turned, mirror]

theorem dseg_swapped {prev p last q : Option α} (h : DSeg links prev p as last q) :
    DSeg (swapped links) q last as.reverse p prev := by
  induction as generalizing prev p with
  | nil => exact ⟨h.2.symm, h.1.symm⟩
  | cons a as ih =>
    obtain ⟨rfl, r, ha, hseg⟩ := h
    rw [List.reverse_cons]
    exact dseg_append.2 ⟨r, some a, ih hseg, rfl, prev, swapped_of_eq ha, rfl, rfl⟩

/-- Read from its tail on, the list is the reverse. -/
theorem Holds.mirror (h : l.Holds links as) : l.mirror.Holds (swapped links) as.reverse :=
  ⟨dseg_swapped h.1, h.2.trans as.length_reverse.symm⟩

theorem Holds.tail_eq (h : l.Holds links as) : l.d_tail = as.getLast? := by
  rw [← List.head?_reverse]
  exact h.mirror.head_eq

variable [DecidableEq α]

theorem swapped_update (links : DLinks α) (a : α) (next prev : Option α) :
    swapped (Function.update links a (some ⟨next, prev⟩)) =
      Function.update (swapped links) a (some ⟨prev, next⟩) := by
  funext b
  by_cases hb : b = a
  · subst hb
    rw [Function.update_self, swapped, Function.update_self]
    rfl
  · rw [Function.update_of_ne hb, swapped, Function.update_of_ne hb]
    rfl

theorem setPrev_swapped (links : DLinks α) (node v : Option α) :
    setPrev (swapped links) node v = (setNext links node v).map swapped := by
  cases node with
  | none => rfl
  | some a =>
    cases ha : links a with
    | none =>
      have hs : swapped links a = none := congrArg (Option.map _) ha
      simp only [setPrev, setNext, hs, ha]
      rfl
    | some n =>
      simp only [setPrev, setNext, swapped_of_eq ha, ha]
      exact congrArg Except.ok (swapped_update links a v n.dn_prev).symm

theorem setNext_swapped (links : DLinks α) (node v : Option α) :
    setNext (swapped links) node v = (setPrev links node v).map swapped := by
  have h := setPrev_swapped (swapped links) node v
  rw [swapped_swapped] at h
  rw [h]
  cases setNext (swapped links) node v with
  | error e => rfl
  | ok links' => exact congrArg Except.ok (swapped_swapped links').symm

/-- What is done at one end is done at the other end of the list turned round. -/
theorem addFront_turned (l : Dlist α) (a : α) (links : DLinks α) :
    l.addFront a links = (l.mirror.addBack a (swapped links)).map turned := by
  rw [addFront, addBack, show l.mirror.d_tail = l.d_head from rfl, ← swapped_update,
    setNext_swapped]
  cases setPrev (Function.update links a (some ⟨l.d_head, none⟩)) l.d_head (some a) with
  | error e => rfl
  | ok links' =>
    by_cases hnil : l.d_tail = none <;> simp [Except.map, turned, mirror, hnil]

theorem delBack_turned (l : Dlist α) (links : DLinks α) :
    l.delBack links = (l.mirror.delFront (swapped links)).map turned := by
  rw [delBack, delFront, show l.mirror.d_len = l.d_len from rfl]
  by_cases hlen : l.d_len = 0
  · rw [if_pos hlen, if_pos hlen]
    simp [Except.map, turned, mirror]
  · rw [if_neg hlen, if_neg hlen, show l.mirror.d_head = l.d_tail from rfl]
    cases htail : l.d_tail with
    | none => rfl
    | some a =>
      cases ha : links a with
      | none => simp [swapped, ha, Except.map]
      | some n =>
        simp only [Option.bind_some, ha, swapped_of_eq ha, setPrev_swapped]
        cases setNext links n.dn_prev none with
        | error e => rfl
        | ok links' => simp [Except.map, turned, mirror]

theorem insertBack_turned (l : Dlist α) (old new : α) (links : DLinks α) :
    l.insertBack old new links = (l.mirror.insertFront old new (swapped links)).map turned := by
  rw [insertBack, insertFront]
  cases ha : links old with
  | none => simp [swapped, ha, Except.map]
  | some o =>
    simp only [swapped_of_eq ha, setNext_swapped]
    cases setPrev links o.dn_next (some new) with
    | error e => rfl
    | ok links' =>
      simp only [Except.map, ok_bind, ← swapped_update, setPrev_swapped]
      cases setNext (Function.update links' new (some ⟨o.dn_next, some old⟩)) (some old)
        (some new) with
      | error e => rfl
      | ok links'' =>
        by_cases hold : l.d_tail = some old <;> simp [turned, mirror, hold]

omit [DecidableEq α] in
/-- What an operation leaves, read from the other end. -/
theorem Holds.turned {res : Except Fault (Dlist α × DLinks α)} {bs : List α}
    (h : ∃ l' links', res = .ok (l', links') ∧ l'.Holds links' bs) :
    ∃ l' links', res.map turned = .ok (l', links') ∧ l'.Holds links' bs.reverse := by
  obtain ⟨l', links', rfl, hl'⟩ := h
  exact ⟨_, _, rfl, hl'.mirror⟩

theorem Holds.addFront (h : l.Holds links as) (ha : a ∉ as) :
    ∃ l' links', l.addFront a links = .ok (l', links') ∧ l'.Holds links' (a :: as) := by
  have hback := Holds.turned (h.mirror.addBack (a := a) (by simpa using ha))
  rw [← addFront_turned] at hback
  simpa using hback

theorem Holds.delBack (h : l.Holds links (as ++ [a])) :
    ∃ l' links', l.delBack links = .ok (l', links') ∧ l'.Holds links' as := by
  have hm := h.mirror
  rw [List.reverse_append, List.reverse_singleton, List.singleton_append] at hm
  have hfront := Holds.turned hm.delFront
  rw [← delBack_turned] at hfront
  simpa using hfront

theorem Holds.insertBack (h : l.Holds links (pre ++ old :: as)) (ha : a ∉ pre ++ old :: as) :
    ∃ l' links', l.insertBack old a links = .ok (l', links') ∧
      l'.Holds links' (pre ++ old :: a :: as) := by
  have hm := h.mirror
  rw [List.reverse_append, List.reverse_cons, List.append_assoc, List.singleton_append] at hm
  have hnot : a ∉ as.reverse ++ old :: pre.reverse := by
    simp only [List.mem_append, List.mem_cons, List.mem_reverse, not_or] at ha ⊢
    exact ⟨ha.2.2, ha.2.1, ha.1⟩
  have hfront := Holds.turned (hm.insertFront hnot)
  rw [← insertBack_turned] at hfront
  simpa using hfront

end Mirror

section Remove

variable [DecidableEq α] {p : α → Bool} {fuel : ℕ}

/-- Storing the link in front of the nodes `as`, which is the link of the first of them or the
end. -/
theorem dseg_setPrev {m r last : Option α} (h : DSeg links m r as last none) (hnodup : as.Nodup)
    (v : Option α) :
    ∃ links', setPrev links r v = .ok links' ∧ (∀ b ∉ as, links' b = links b) ∧
      DSeg links' v r as (if as = [] then v else last) none := by
  cases as with
  | nil =>
    obtain ⟨rfl, rfl⟩ := h
    exact ⟨links, rfl, fun _ _ => rfl, rfl, rfl⟩
  | cons b as =>
    obtain ⟨rfl, s, hb, hseg⟩ := h
    obtain ⟨hbas, -⟩ := List.nodup_cons.1 hnodup
    rw [setPrev, hb]
    refine ⟨_, rfl, fun c hc => Function.update_of_ne (by rintro rfl; simp at hc) .., ?_⟩
    rw [if_neg (by simp)]
    exact ⟨rfl, s, Function.update_self .., (dseg_update hbas _).2 hseg⟩

theorem Holds.remove (h : l.Holds links (pre ++ a :: as)) :
    ∃ l' links', l.remove a links = .ok (l', links') ∧ l'.Holds links' (pre ++ as) := by
  obtain ⟨hnpre, hntail, hdisj⟩ := List.nodup_append.1 h.nodup
  obtain ⟨haas, hnas⟩ := List.nodup_cons.1 hntail
  obtain ⟨m, q, hpre, rfl, r, ha, has⟩ := dseg_append.1 h.1
  have hapre : a ∉ pre := fun hmem => hdisj a hmem a List.mem_cons_self rfl
  have haspre : ∀ b ∈ as, b ∉ pre := fun b hb hmem => hdisj b hmem b (List.mem_cons_of_mem _ hb) rfl
  obtain ⟨links1, hset1, hframe1, hpre1⟩ := dseg_setNext hpre hnpre r
  have has1 : DSeg links1 (some a) r as l.d_tail none :=
    (dseg_congr fun b hb => hframe1 b (haspre b hb)).2 has
  obtain ⟨links2, hset2, hframe2, has2⟩ := dseg_setPrev has1 hnas m
  have hpre2 := (dseg_congr fun b hb => hframe2 b fun hmem => haspre b hmem hb).2 hpre1
  have hhead : (if l.d_head = some a then r else l.d_head) = if pre = [] then r else l.d_head := by
    rw [h.head_eq]
    cases pre with
    | nil => simp
    | cons c pre => simp [ne_of_mem_of_not_mem List.mem_cons_self hapre]
  have htail : (if l.d_tail = some a then m else l.d_tail) = if as = [] then m else l.d_tail := by
    rw [h.tail_eq]
    rcases List.eq_nil_or_concat as with rfl | ⟨as, c, rfl⟩
    · simp
    · have hca : c ≠ a := by
        rintro rfl
        simp at haas
      rw [List.concat_eq_append, ← List.cons_append, ← List.append_assoc, List.getLast?_concat,
        if_neg (by simpa using hca), if_neg (by simp)]
  rw [Dlist.remove, ha]
  simp only [hset1, hset2, ok_bind, pure_ok, hhead, htail]
  refine ⟨_, _, rfl, dseg_append.2 ⟨m, r, hpre2, has2⟩, ?_⟩
  simp [h.2]

/-- The first node that matches goes, if there is one. -/
theorem Holds.removeIf (h : l.Holds links as) (hfuel : as.length ≤ fuel) :
    ∃ l' links', l.removeIf p fuel links = .ok (l', links') ∧ l'.Holds links' (as.eraseP p) := by
  have hsearch : l.search p fuel links = .ok (as.find? p) := Slist.seg_search (dseg_seg h.1) hfuel
  rw [Dlist.removeIf, hsearch, ok_bind]
  cases hfind : as.find? p with
  | none =>
    rw [List.eraseP_of_forall_not (List.find?_eq_none.1 hfind)]
    exact ⟨l, links, rfl, h⟩
  | some a =>
    obtain ⟨hpa, pre, post, rfl, hpre⟩ := List.find?_eq_some_iff_append.1 hfind
    rw [List.eraseP_append_right _ (by simpa using hpre), List.eraseP_cons_of_pos hpa]
    exact h.remove

end Remove

section Walks

variable {fuel : ℕ}

theorem Holds.forward (h : l.Holds links as) (hfuel : as.length ≤ fuel) :
    l.forward fuel links = .ok as :=
  Slist.seg_walk (dseg_seg h.1) hfuel

/-- The links backwards lead through the same nodes the other way. -/
theorem Holds.backward (h : l.Holds links as) (hfuel : as.length ≤ fuel) :
    l.backward fuel links = .ok as.reverse := by
  have hlinks : (fun a => (swapped links a).map DNode.dn_next) =
    fun a => (links a).map DNode.dn_prev := by
    funext a
    cases ha : links a <;> simp [swapped, ha]
  have hwalk := h.mirror.forward (by simpa using hfuel)
  rw [Dlist.forward, hlinks] at hwalk
  exact hwalk

end Walks

end Dlist

end CLib
