import Plume.CLib.Scan

/-! Singly linked lists whose links lie in the nodes: what the pointer operations do to the list
of the nodes. A node that is not in memory has no link to read. -/

namespace CLib

variable {α : Type}

/-- The head of a list, and its length as the operations keep it: an `int` in C, so that the model
is one of lists of fewer than 2 ^ 31 nodes. -/
structure Slist (α : Type) where
  head : Option α
  len : ℕ
deriving DecidableEq, Repr

abbrev Links (α : Type) := α → Option (Option α)

/-- From `p` the links lead through the nodes `as`, and then to `q`. -/
def Seg (next : Links α) : Option α → List α → Option α → Prop
  | p, [], q => p = q
  | p, a :: as, q => p = some a ∧ ∃ r, next a = some r ∧ Seg next r as q

section Seg

variable {next next' : Links α} {p q r : Option α} {as bs : List α} {a : α}

theorem seg_append : Seg next p (as ++ bs) q ↔ ∃ r, Seg next p as r ∧ Seg next r bs q := by
  induction as generalizing p with
  | nil => exact ⟨fun h => ⟨p, rfl, h⟩, fun ⟨_, rfl, h⟩ => h⟩
  | cons a as ih =>
    simp only [List.cons_append, Seg, ih]
    constructor
    · rintro ⟨hp, r, hr, s, hs, h⟩
      exact ⟨s, ⟨hp, r, hr, hs⟩, h⟩
    · rintro ⟨s, ⟨hp, r, hr, hs⟩, h⟩
      exact ⟨hp, r, hr, s, hs, h⟩

theorem seg_congr (h : ∀ a ∈ as, next' a = next a) : Seg next' p as q ↔ Seg next p as q := by
  induction as generalizing p with
  | nil => rfl
  | cons b as ih =>
    obtain ⟨hb, has⟩ := List.forall_mem_cons.1 h
    simp only [Seg, hb, ih has]

theorem seg_update [DecidableEq α] (h : a ∉ as) (v : Option (Option α)) :
    Seg (Function.update next a v) p as q ↔ Seg next p as q :=
  seg_congr fun _ hb => Function.update_of_ne (ne_of_mem_of_not_mem hb h) ..

theorem seg_unique (ha : Seg next p as none) (hb : Seg next p bs none) : as = bs := by
  induction as generalizing p bs with
  | nil =>
    cases ha
    cases bs with
    | nil => rfl
    | cons b bs => cases hb.1
  | cons a as ih =>
    obtain ⟨rfl, r, hr, ha⟩ := ha
    cases bs with
    | nil => cases hb
    | cons b bs =>
      obtain ⟨hab, s, hs, hb⟩ := hb
      cases hab
      rw [hr] at hs
      cases hs
      rw [ih ha hb]

theorem seg_nodup (h : Seg next p as none) : as.Nodup := by
  induction as generalizing p with
  | nil => exact List.nodup_nil
  | cons a as ih =>
    obtain ⟨rfl, r, hr, h⟩ := h
    refine List.nodup_cons.2 ⟨fun ha => ?_, ih h⟩
    obtain ⟨bs, cs, rfl⟩ := List.append_of_mem ha
    obtain ⟨s, -, hs⟩ := seg_append.1 h
    have hwhole : Seg next (some a) (a :: (bs ++ a :: cs)) none := ⟨rfl, r, hr, h⟩
    have hlen := congrArg List.length (seg_unique (hs.1 ▸ hs) hwhole)
    simp at hlen
    omega

end Seg

/-- What is read at the nodes does not change with what lies elsewhere. -/
theorem map_update [DecidableEq α] {β : Type} {t : α → β} {as : List α} {a : α} {b : β}
    (h : a ∉ as) :
    as.map (Function.update t a b) = as.map t :=
  List.map_congr_left fun _ hb => Function.update_of_ne (ne_of_mem_of_not_mem hb h) ..

namespace Slist

def Holds (next : Links α) (l : Slist α) (as : List α) : Prop :=
  Seg next l.head as none ∧ l.len = as.length

def init : Slist α := ⟨none, 0⟩

def addFront [DecidableEq α] (l : Slist α) (node : α) (next : Links α) : Slist α × Links α :=
  (⟨some node, l.len + 1⟩, Function.update next node (some l.head))

def delFront (l : Slist α) (next : Links α) : Except Fault (Slist α) :=
  if l.len = 0 then .ok l
  else
    match l.head.bind next with
    | none => .error .wild
    | some r => .ok ⟨r, l.len - 1⟩

variable {next next' : Links α} {l : Slist α} {as pre : List α} {a : α}

theorem holds_init (next : Links α) : (init : Slist α).Holds next [] := ⟨rfl, rfl⟩

theorem Holds.nodup (h : l.Holds next as) : as.Nodup := seg_nodup h.1

theorem Holds.head_eq (h : l.Holds next as) : l.head = as.head? := by
  cases as with
  | nil => exact h.1
  | cons a as => exact h.1.1

theorem Holds.congr (h : l.Holds next as) (hn : ∀ a ∈ as, next' a = next a) : l.Holds next' as :=
  ⟨(seg_congr hn).2 h.1, h.2⟩

theorem Holds.update [DecidableEq α] (h : l.Holds next as) (ha : a ∉ as) (v : Option (Option α)) :
    l.Holds (Function.update next a v) as := ⟨(seg_update ha v).2 h.1, h.2⟩

theorem Holds.addFront [DecidableEq α] (h : l.Holds next as) (ha : a ∉ as) :
    (l.addFront a next).1.Holds (l.addFront a next).2 (a :: as) := by
  refine ⟨⟨rfl, l.head, Function.update_self .., (seg_update ha _).2 h.1⟩, ?_⟩
  rw [List.length_cons, ← h.2]
  rfl

theorem Holds.delFront (h : l.Holds next (a :: as)) :
    ∃ l', l.delFront next = .ok l' ∧ l'.Holds next as := by
  obtain ⟨⟨hhead, r, hr, hseg⟩, hlen⟩ := h
  refine ⟨⟨r, as.length⟩, ?_, hseg, rfl⟩
  rw [Slist.delFront, if_neg (by rw [hlen]; exact Nat.succ_ne_zero _), hhead, Option.bind_some, hr,
    hlen]
  rfl

section Walk

variable {p : α → Bool}

def search (p : α → Bool) (next : Links α) : ℕ → Option α → Except Fault (Option α)
  | _, none => .ok none
  | 0, some _ => .error .fuel
  | fuel + 1, some node =>
    if p node then .ok (some node)
    else
      match next node with
      | none => .error .wild
      | some r => search p next fuel r

def walk (next : Links α) : ℕ → Option α → Except Fault (List α)
  | _, none => .ok []
  | 0, some _ => .error .fuel
  | fuel + 1, some node =>
    match next node with
    | none => .error .wild
    | some r => do
      let rest ← walk next fuel r
      return node :: rest

theorem seg_search {fuel : ℕ} {q : Option α} (h : Seg next q as none) (hfuel : as.length ≤ fuel) :
    search p next fuel q = .ok (as.find? p) := by
  induction as generalizing fuel q with
  | nil =>
    rw [show q = none from h, search]
    rfl
  | cons a as ih =>
    obtain ⟨rfl, r, hr, h⟩ := h
    obtain ⟨fuel, rfl⟩ := Nat.exists_eq_add_of_le' (Nat.one_le_of_lt hfuel)
    rw [search, List.find?_cons]
    cases p a with
    | true => rfl
    | false =>
      rw [if_neg (by decide), hr]
      exact ih h (Nat.le_of_succ_le_succ hfuel)

theorem seg_walk {fuel : ℕ} {q : Option α} (h : Seg next q as none) (hfuel : as.length ≤ fuel) :
    walk next fuel q = .ok as := by
  induction as generalizing fuel q with
  | nil =>
    rw [show q = none from h, walk]
  | cons a as ih =>
    obtain ⟨rfl, r, hr, h⟩ := h
    obtain ⟨fuel, rfl⟩ := Nat.exists_eq_add_of_le' (Nat.one_le_of_lt hfuel)
    rw [walk, hr]
    simp only [ih h (Nat.le_of_succ_le_succ hfuel), ok_bind, pure_ok]

end Walk

section Drain

variable [DecidableEq α] {check : α → Except Fault Unit} {len : ℕ} {freed : List α}

/-- Takes the nodes off one by one, has each checked, and hands it to `free`, which takes it out
of memory. -/
def drain (check : α → Except Fault Unit) (next : Links α) : ℕ → Slist α → Except Fault (List α)
  | 0, _ => .ok []
  | len + 1, l => do
    match l.head with
    | none => .error .wild
    | some node =>
      let l ← l.delFront next
      check node
      let freed ← drain check (Function.update next node none) len l
      return node :: freed

theorem Holds.drain (h : l.Holds next as) (hcheck : ∀ a ∈ as, check a = .ok ()) :
    Slist.drain check next l.len l = .ok as := by
  induction as generalizing next l with
  | nil =>
    rw [h.2]
    rfl
  | cons a as ih =>
    obtain ⟨hca, hcas⟩ := List.forall_mem_cons.1 hcheck
    obtain ⟨l', hdel, hl'⟩ := h.delFront
    obtain ⟨hmem, -⟩ := List.nodup_cons.1 h.nodup
    have hrest := ih (hl'.update hmem none) hcas
    rw [hl'.2] at hrest
    rw [h.2, List.length_cons, Slist.drain, h.head_eq]
    simp only [List.head?_cons, hdel, ok_bind, hca, hrest, pure_ok]

/-- Only what passes the check is freed, whatever the links are. -/
theorem drain_checked (h : drain check next len l = .ok freed) : ∀ a ∈ freed, check a = .ok () := by
  induction len generalizing next l freed with
  | zero =>
    cases h
    simp
  | succ len ih =>
    rw [drain] at h
    cases hhead : l.head with
    | none =>
      rw [hhead] at h
      cases h
    | some node =>
      rw [hhead] at h
      obtain ⟨l', -, h⟩ := bind_eq_ok.1 h
      obtain ⟨⟨⟩, hnode, h⟩ := bind_eq_ok.1 h
      obtain ⟨rest, hrest, h⟩ := bind_eq_ok.1 h
      cases h
      exact List.forall_mem_cons.2 ⟨hnode, ih hrest⟩

end Drain

section RemoveIf

variable (p : α → Bool)

/-- What a pointer to a link reads: the head of the list, or the link of a node. -/
def linkAt (next : Links α) (l : Slist α) : Option α → Option (Option α)
  | none => some l.head
  | some a => next a

def setLink [DecidableEq α] (next : Links α) (l : Slist α) (v : Option α) :
    Option α → Links α × Slist α
  | none => (next, { l with head := v })
  | some a => (Function.update next a (some v), l)

/-- Walks along the list with a pointer to a link, and takes off the nodes that match. Having
taken one off it steps on: the node that came in its place is not looked at. -/
def removeIfLoop [DecidableEq α] :
    ℕ → Links α → Slist α → Option α → Except Fault (Links α × Slist α)
  | 0, _, _, _ => .error .fuel
  | fuel + 1, next, l, pp =>
    match linkAt next l pp with
    | none => .error .wild
    | some none => .ok (next, l)
    | some (some node) =>
      if p node then
        match next node with
        | none => .error .wild
        | some v =>
          let (next, l) := setLink next { l with len := l.len - 1 } v pp
          match v with
          | none => .ok (next, l)
          | some _ => removeIfLoop fuel next l v
      else removeIfLoop fuel next l (some node)

def removeIf : List α → List α
  | [] => []
  | [a] => if p a then [] else [a]
  | a :: b :: as => if p a then b :: removeIf as else a :: removeIf (b :: as)

variable {p}

theorem Holds.linkAt (h : l.Holds next (pre ++ as)) :
    linkAt next l pre.getLast? = some as.head? := by
  obtain ⟨r, hpre, has⟩ := seg_append.1 h.1
  have hr : r = as.head? := by
    cases as with
    | nil => exact has
    | cons a as => exact has.1
  rcases List.eq_nil_or_concat pre with rfl | ⟨pre, c, rfl⟩
  · exact congrArg some (hpre.trans hr)
  · rw [List.concat_eq_append] at hpre ⊢
    obtain ⟨s, -, -, t, hc, rfl⟩ := seg_append.1 hpre
    rw [List.getLast?_concat, ← hr]
    exact hc

/-- Storing a link changes none of a node that is not before it. -/
theorem setLink_frame [DecidableEq α] {v : Option α} {b : α} (hb : b ∉ pre) :
    (setLink next l v pre.getLast?).1 b = next b := by
  cases hlast : pre.getLast? with
  | none => rfl
  | some c =>
    exact Function.update_of_ne (ne_of_mem_of_not_mem (List.mem_of_getLast? hlast) hb).symm ..

theorem Holds.unlink [DecidableEq α] (h : l.Holds next (pre ++ a :: as)) : next a = some as.head? ∧
    ((setLink next { l with len := l.len - 1 } as.head? pre.getLast?).2.Holds
      (setLink next { l with len := l.len - 1 } as.head? pre.getLast?).1 (pre ++ as)) := by
  obtain ⟨r, hpre, rfl, v, ha, has⟩ := seg_append.1 h.1
  have hv : v = as.head? := by
    cases as with
    | nil => exact has
    | cons b as => exact has.1
  subst hv
  have hlen : l.len - 1 = (pre ++ as).length := by
    rw [h.2]
    simp
  refine ⟨ha, ?_⟩
  rcases List.eq_nil_or_concat pre with rfl | ⟨pre, c, rfl⟩
  · exact ⟨has, hlen⟩
  · rw [List.concat_eq_append] at hpre hlen ⊢
    rw [List.getLast?_concat]
    have hnodup : (pre ++ c :: a :: as).Nodup := by simpa using h.nodup
    obtain ⟨-, hc, hdisj⟩ := List.nodup_append.1 hnodup
    have hcas : c ∉ as := fun hmem => (List.nodup_cons.1 hc).1 (List.mem_cons_of_mem _ hmem)
    have hcpre : c ∉ pre := fun hmem => hdisj c hmem c List.mem_cons_self rfl
    obtain ⟨s, hseg, rfl, -⟩ := seg_append.1 hpre
    refine ⟨seg_append.2 ⟨as.head?, seg_append.2 ⟨some c, (seg_update hcpre _).2 hseg, rfl, ?_⟩,
      ?_⟩, hlen⟩
    · exact ⟨_, Function.update_self .., rfl⟩
    · exact (seg_update hcas _).2 has

theorem Holds.keep [DecidableEq α] {fuel : ℕ} (h : l.Holds next (pre ++ a :: as))
    (ha : p a = false) :
    removeIfLoop p (fuel + 1) next l pre.getLast? = removeIfLoop p fuel next l
      (pre ++ [a]).getLast? := by
  rw [removeIfLoop, h.linkAt, List.getLast?_concat]
  simp [ha]

/-- One step over a node that goes, and the one behind it. -/
theorem Holds.drop [DecidableEq α] (fuel : ℕ) (h : l.Holds next (pre ++ a :: as))
    (ha : p a = true) :
    ∃ next' l', l'.Holds next' (pre ++ as) ∧ (∀ b ∉ pre, next' b = next b) ∧
      removeIfLoop p (fuel + 1) next l pre.getLast? =
        match as.head? with
        | none => .ok (next', l')
        | some b => removeIfLoop p fuel next' l' (pre ++ [b]).getLast? := by
  obtain ⟨hlink, hunlink⟩ := h.unlink
  refine ⟨_, _, hunlink, fun b hb => setLink_frame hb, ?_⟩
  rw [removeIfLoop, h.linkAt]
  simp only [List.head?_cons, ha, if_true, hlink]
  cases as.head? with
  | none => rfl
  | some b => simp only [List.getLast?_concat]

/-- The walk returns, leaves the list that `removeIf` says, and touches no other. -/
theorem Holds.removeIf [DecidableEq α] {fuel : ℕ} (h : l.Holds next (pre ++ as))
    (hfuel : as.length < fuel) :
    ∃ next' l', removeIfLoop p fuel next l pre.getLast? = .ok (next', l') ∧
      l'.Holds next' (pre ++ Slist.removeIf p as) ∧ ∀ b ∉ pre ++ as, next' b = next b := by
  obtain ⟨fuel, rfl⟩ := Nat.exists_eq_succ_of_ne_zero (Nat.ne_of_gt (Nat.zero_lt_of_lt hfuel))
  induction as using Slist.removeIf.induct p generalizing fuel next l pre with
  | case1 => exact ⟨next, l, by rw [removeIfLoop, h.linkAt]; rfl, h, fun _ _ => rfl⟩
  | case2 a ha =>
    obtain ⟨next', l', hl', hframe, hloop⟩ := h.drop fuel ha
    refine ⟨next', l', hloop, ?_, fun b hb => hframe b fun hpre => hb (List.mem_append_left _ hpre)⟩
    rwa [Slist.removeIf, if_pos ha]
  | case3 a ha =>
    rw [Bool.not_eq_true] at ha
    obtain ⟨fuel, rfl⟩ :=
      Nat.exists_eq_succ_of_ne_zero (Nat.ne_of_gt (Nat.lt_of_succ_lt_succ hfuel))
    refine ⟨next, l, ?_, by rwa [Slist.removeIf, if_neg (by simp [ha])], fun _ _ => rfl⟩
    have h1 : l.Holds next ((pre ++ [a]) ++ []) := by simpa using h
    rw [h.keep ha, removeIfLoop, h1.linkAt]
    rfl
  | case4 a b as ha ih =>
    obtain ⟨next', l', hl', hframe, hloop⟩ := h.drop fuel ha
    simp only [List.length_cons] at hfuel
    obtain ⟨fuel, rfl⟩ := Nat.exists_eq_succ_of_ne_zero (n := fuel) (by omega)
    have hl' : l'.Holds next' ((pre ++ [b]) ++ as) := by simpa using hl'
    obtain ⟨next2, l2, hloop2, hl2, hframe2⟩ := ih hl' fuel (by omega)
    refine ⟨next2, l2, hloop.trans hloop2, ?_, fun c hc => ?_⟩
    · rw [Slist.removeIf, if_pos ha]
      simpa using hl2
    · simp only [List.mem_append, List.mem_cons, not_or] at hc
      rw [hframe2 c (by simp [hc]), hframe c hc.1]
  | case5 a b as ha ih =>
    rw [Bool.not_eq_true] at ha
    simp only [List.length_cons] at hfuel ih
    obtain ⟨fuel, rfl⟩ := Nat.exists_eq_succ_of_ne_zero (n := fuel) (by omega)
    have h1 : l.Holds next ((pre ++ [a]) ++ b :: as) := by simpa using h
    obtain ⟨next2, l2, hloop2, hl2, hframe2⟩ := ih h1 fuel (by omega)
    refine ⟨next2, l2, (h.keep ha).trans hloop2, ?_, fun c hc => hframe2 c (by simpa using hc)⟩
    rw [Slist.removeIf, if_neg (by simp [ha])]
    simpa using hl2

theorem filter_removeIf (as : List α) :
    (Slist.removeIf p as).filter (fun a => !p a) = as.filter fun a => !p a := by
  induction as using Slist.removeIf.induct p with
  | case1 => rfl
  | case2 a ha => simp [Slist.removeIf, ha]
  | case3 a ha => simp [Slist.removeIf, ha]
  | case4 a b as ha ih => simp [Slist.removeIf, ha, List.filter_cons, ih]
  | case5 a b as ha ih =>
    rw [Slist.removeIf, if_neg ha, List.filter_cons, ih]
    simp [ha]

theorem removeIf_sublist (as : List α) : (Slist.removeIf p as).Sublist as := by
  induction as using Slist.removeIf.induct p with
  | case1 => exact List.Sublist.refl _
  | case2 a ha =>
    rw [Slist.removeIf, if_pos ha]
    exact List.nil_sublist _
  | case3 a ha => rw [Slist.removeIf, if_neg ha]
  | case4 a b as ha ih =>
    rw [Slist.removeIf, if_pos ha]
    exact (ih.cons_cons b).cons a
  | case5 a b as ha ih =>
    rw [Slist.removeIf, if_neg ha]
    exact ih.cons_cons a

/-- All that matches goes if and only if no two that match are neighbours. -/
theorem removeIf_all_iff (as : List α) :
    (∀ a ∈ Slist.removeIf p as, p a = false) ↔
      as.IsChain fun a b => ¬ (p a = true ∧ p b = true) := by
  induction as using Slist.removeIf.induct p with
  | case1 => simp [Slist.removeIf]
  | case2 a ha => simp [Slist.removeIf, ha]
  | case3 a ha => simp [Slist.removeIf, ha]
  | case4 a b as ha ih =>
    rw [Slist.removeIf, if_pos ha, List.isChain_cons_cons, List.forall_mem_cons, ih]
    simp only [ha, true_and, Bool.not_eq_true]
    refine and_congr_right fun hb => ?_
    cases as with
    | nil => simp
    | cons c as => simp [hb]
  | case5 a b as ha ih =>
    rw [Slist.removeIf, if_neg ha, List.isChain_cons_cons, List.forall_mem_cons, ih]
    simp [ha]

theorem removeIf_eq_filter (h : as.IsChain fun a b => ¬ (p a = true ∧ p b = true)) :
    Slist.removeIf p as = as.filter fun a => !p a := by
  rw [← filter_removeIf, List.filter_eq_self.2]
  intro a ha
  simp [(removeIf_all_iff as).2 h a ha]

end RemoveIf

end Slist

end CLib
