import Plume.CLib.Slist

/-! The chained hash table of `plm_hash.c`: with lists for its buckets, as far as it is only filled,
and with the links in its nodes. -/

namespace Plume
open CLib

/-- `struct plm_hash` without its function pointers; a bucket lists its nodes newest first. -/
structure Hash (κ ν : Type) where
  h_len : ℕ
  h_bucket_num : ℕ
  /-- `none` when there was no memory for the buckets -/
  h_bucket : Option (List (List (κ × ν)))
deriving DecidableEq, Repr

section Hash

variable {κ ν : Type}

def hashInit (alloc : Bool) (max_bucket : ℕ) : Hash κ ν :=
  ⟨0, max_bucket, if alloc then some (List.replicate max_bucket []) else none⟩

def hashInsert (h_key : κ → ℕ → ℕ) (hash : Hash κ ν) (k : κ) (v : ν) : Except Fault (Hash κ ν) :=
  let key := h_key k hash.h_bucket_num
  match hash.h_bucket with
  | none => .error .wild
  | some bs =>
    match bs[key]? with
    | none => .error .bounds
    | some b => .ok { hash with h_bucket := some (bs.set key ((k, v) :: b)), h_len :=
      (hash.h_len + 1) % 2 ^ 32 }

structure HasBuckets (hash : Hash κ ν) : Prop where
  pos : 0 < hash.h_bucket_num
  buckets : ∃ bs, hash.h_bucket = some bs ∧ bs.length = hash.h_bucket_num

theorem hasBuckets_init {n : ℕ} (hn : 0 < n) : HasBuckets (hashInit true n : Hash κ ν) :=
  ⟨hn, _, rfl, List.length_replicate ..⟩

/-- With a key function that stays below its bound, inserting finds a bucket and keeps them all. -/
theorem hashInsert_ok {h_key : κ → ℕ → ℕ} (hkey : ∀ k n, 0 < n → h_key k n < n)
    {hash : Hash κ ν} (h : HasBuckets hash) (k : κ) (v : ν) :
    ∃ hash', hashInsert h_key hash k v = .ok hash' ∧ HasBuckets hash' := by
  obtain ⟨hpos, bs, hbs, hlen⟩ := h
  have hlt : h_key k hash.h_bucket_num < bs.length := by
    rw [hlen]; exact hkey k _ hpos
  unfold hashInsert
  simp only [hbs, List.getElem?_eq_getElem hlt]
  exact ⟨_, rfl, hpos, _, rfl, by rw [List.length_set, hlen]⟩

def hashSearch (h_cmp : κ → κ → Except Fault ℤ) (key : κ) :
    List (κ × ν) → Except Fault (Option (κ × ν))
  | [] => .ok none
  | node :: nodes => do
    if (← h_cmp node.1 key) = 0 then return some node else hashSearch h_cmp key nodes

def hashFind (h_key : κ → ℕ → ℕ) (h_cmp : κ → κ → Except Fault ℤ) (hash : Hash κ ν) (key : κ) :
    Except Fault (Option (κ × ν)) :=
  match hash.h_bucket with
  | none => .error .wild
  | some bs =>
    match bs[h_key key hash.h_bucket_num]? with
    | none => .error .bounds
    | some b => hashSearch h_cmp key b

theorem set_map_range {β : Type} (f : ℕ → β) (n k : ℕ) (b : β) :
    ((List.range n).map f).set k b = (List.range n).map fun i => if k = i then b else f i := by
  refine List.ext_getElem (by simp) fun i _ _ => ?_
  simp only [List.getElem_set, List.getElem_map, List.getElem_range]

/-- The table has `n` buckets, and these nodes in them, newest first. -/
structure Filled (h_key : κ → ℕ → ℕ) (n : ℕ) (hash : Hash κ ν) (nodes : List (κ × ν)) : Prop where
  num : hash.h_bucket_num = n
  lists : hash.h_bucket = some ((List.range n).map fun i => nodes.filter fun a => h_key a.1 n = i)

variable {h_key : κ → ℕ → ℕ} {n : ℕ} {hash : Hash κ ν} {nodes : List (κ × ν)}

theorem filled_init (h_key : κ → ℕ → ℕ) (n : ℕ) :
    Filled h_key n (hashInit true n : Hash κ ν) [] where
  num := rfl
  lists := by
    simp only [List.filter_nil, List.map_const', List.length_range]
    rfl

theorem Filled.insert (h : Filled h_key n hash nodes) (hbelow : ∀ k, h_key k n < n) (k : κ)
    (v : ν) :
    ∃ hash', hashInsert h_key hash k v = .ok hash' ∧ Filled h_key n hash' ((k, v) :: nodes) := by
  obtain ⟨rfl, hlists⟩ := h
  unfold hashInsert
  simp only [hlists, List.getElem?_map, List.getElem?_range (hbelow k), Option.map_some]
  refine ⟨_, rfl, rfl, ?_⟩
  rw [set_map_range]
  refine congrArg some (List.map_congr_left fun i _ => ?_)
  simp only [List.filter_cons, decide_eq_true_eq]
  split_ifs with heq
  · rw [heq]
  · rfl

theorem hashSearch_find {h_cmp : κ → κ → Except Fault ℤ} {key : κ} {q : κ → Bool}
    (hcmp : ∀ a ∈ nodes, ∃ d, h_cmp a.1 key = .ok d ∧ (d = 0 ↔ q a.1 = true)) :
    hashSearch h_cmp key nodes = .ok (nodes.find? fun a => q a.1) := by
  induction nodes with
  | nil => rfl
  | cons a nodes ih =>
    obtain ⟨d, hd, hq⟩ := hcmp a (by simp)
    rw [hashSearch, hd, ok_bind, List.find?_cons]
    cases hqa : q a.1 with
    | true => rw [if_pos (hq.2 hqa)]; rfl
    | false =>
      rw [if_neg fun h0 => by simp [hq.1 h0] at hqa]
      exact ih fun b hb => hcmp b (by simp [hb])

/-- Finding a key is looking through the nodes for one in its bucket that compares equal. -/
theorem Filled.find (h : Filled h_key n hash nodes) (hbelow : ∀ k, h_key k n < n)
    {h_cmp : κ → κ → Except Fault ℤ} {key : κ} (q : κ → Bool)
    (hcmp : ∀ a ∈ nodes, ∃ d, h_cmp a.1 key = .ok d ∧ (d = 0 ↔ q a.1 = true)) :
    hashFind h_key h_cmp hash key = .ok
      (nodes.find? fun a => h_key a.1 n = h_key key n && q a.1) := by
  obtain ⟨rfl, hlists⟩ := h
  unfold hashFind
  simp only [hlists, List.getElem?_map, List.getElem?_range (hbelow key), Option.map_some]
  rw [hashSearch_find fun a ha => hcmp a (List.mem_of_mem_filter ha), List.find?_filter]
  simp only [Bool.decide_and, Bool.decide_eq_true]

end Hash

section Table

variable {κ α : Type} [DecidableEq α]

/-- `struct plm_hash` without its function pointers, with the `hb_list` of each bucket and the
links of the nodes. -/
structure HashTable (α : Type) where
  h_len : ℕ
  h_bucket_num : ℕ
  h_bucket : List (Slist α)
  hn_node : Links α

def hashTableInit (max_bucket : ℕ) : HashTable α :=
  ⟨0, max_bucket, List.replicate max_bucket Slist.init, fun _ => none⟩

variable (h_key : κ → ℕ → ℕ) (h_cmp : κ → κ → ℤ) (hn_key : α → κ)

def hashTableInsert (t : HashTable α) (node : α) : Except Fault (HashTable α) :=
  let key := h_key (hn_key node) t.h_bucket_num
  match t.h_bucket[key]? with
  | none => .error .bounds
  | some l =>
    let (l, hn_node) := l.addFront node t.hn_node
    .ok { t with h_len :=
      (t.h_len + 1) % 2 ^ 32, h_bucket := t.h_bucket.set key l, hn_node := hn_node }

def valueCmp (key : κ) (node : α) : Bool := h_cmp (hn_key node) key = 0

def hashTableFind (fuel : ℕ) (t : HashTable α) (key : κ) : Except Fault (Option α) :=
  match t.h_bucket[h_key key t.h_bucket_num]? with
  | none => .error .bounds
  | some l => Slist.search (valueCmp h_cmp hn_key key) t.hn_node fuel l.head

def hashTableDelete (fuel : ℕ) (t : HashTable α) (key : κ) : Except Fault (HashTable α) :=
  let k := h_key key t.h_bucket_num
  match t.h_bucket[k]? with
  | none => .error .bounds
  | some bucket => do
    let (hn_node, l) ← Slist.removeIfLoop (valueCmp h_cmp hn_key key) fuel t.hn_node bucket none
    let h_len := ((t.h_len - (bucket.len - l.len) : ℤ) % 2 ^ 32).toNat
    return { t with h_len := h_len, h_bucket := t.h_bucket.set k l, hn_node := hn_node }

def hashTableVisit (fuel : ℕ) (t : HashTable α) (l : Slist α) : Except Fault (List α) :=
  if l.len = 0 then .ok [] else Slist.walk t.hn_node fuel l.head

/-- The loop of `plm_hash_foreach`, with its `int i`: the nodes it visits. -/
def hashTableForeachLoop (fuel : ℕ) (t : HashTable α) : ℕ → ℕ → Except Fault (List α)
  | 0, _ => .error .fuel
  | rounds + 1, i =>
    if 2 ^ 31 ≤ i then .error .bounds
    else if i < t.h_bucket_num then
      match t.h_bucket[i]? with
      | none => .error .bounds
      | some l => do
        let nodes ← hashTableVisit fuel t l
        let rest ← hashTableForeachLoop fuel t rounds (i + 1)
        return nodes ++ rest
    else .ok []

def hashTableForeach (fuel : ℕ) (t : HashTable α) : Except Fault (List α) :=
  hashTableForeachLoop fuel t (t.h_bucket_num + 1) 0

end Table

end Plume
