import Plume.CLib.Run
import Plume.Hash

/-! The hash table against a multimap: the list of its nodes, newest first. -/

namespace Plume
open CLib

section Buckets

variable {κ α : Type}

/-- The key function stays below the number of buckets, and keys that compare equal have the same
bucket. -/
structure Coherent (h_key : κ → ℕ → ℕ) (h_cmp : κ → κ → ℤ) (n : ℕ) : Prop where
  below : ∀ k, h_key k n < n
  bucket : ∀ a b, h_cmp a b = 0 → h_key a n = h_key b n
  equal : Equivalence fun a b => h_cmp a b = 0

variable (h_key : κ → ℕ → ℕ) (h_cmp : κ → κ → ℤ) (hn_key : α → κ)

def bucketOf (n : ℕ) (nodes : List α) (i : ℕ) : List α :=
  nodes.filter fun a => h_key (hn_key a) n = i

/-- No two nodes with an equal key are neighbours in the bucket of the key. -/
def NoNeighbours (n : ℕ) (nodes : List α) (key : κ) : Prop :=
  (bucketOf h_key hn_key n nodes (h_key key n)).IsChain fun a b =>
    ¬ (valueCmp h_cmp hn_key key a = true ∧ valueCmp h_cmp hn_key key b = true)

/-- The table has these nodes, each in its bucket. -/
structure Buckets (t : HashTable α) (nodes : List α) : Prop where
  num : t.h_bucket.length = t.h_bucket_num
  holds : ∀ i (l : Slist α), t.h_bucket[i]? = some l →
    l.Holds t.hn_node (bucketOf h_key hn_key t.h_bucket_num nodes i)
  nodup : nodes.Nodup
  len : t.h_len = nodes.length
  small : nodes.length < 2 ^ 32

variable {h_key h_cmp hn_key} {t : HashTable α} {nodes : List α} {n fuel : ℕ} {key : κ} {node : α}

theorem buckets_init (n : ℕ) : Buckets h_key hn_key (hashTableInit n : HashTable α) [] where
  num := List.length_replicate ..
  holds := by
    intro i l hl
    rw [List.eq_of_mem_replicate (List.mem_of_getElem? hl)]
    exact Slist.holds_init _
  nodup := List.nodup_nil
  len := rfl
  small := Nat.two_pow_pos 32

theorem Buckets.get (h : Buckets h_key hn_key t nodes) {i : ℕ} (hi : i < t.h_bucket_num) :
    ∃ l, t.h_bucket[i]? = some l ∧
      l.Holds t.hn_node (bucketOf h_key hn_key t.h_bucket_num nodes i) := by
  have hlt : i < t.h_bucket.length := h.num.symm ▸ hi
  exact ⟨_, List.getElem?_eq_getElem hlt, h.holds i _ (List.getElem?_eq_getElem hlt)⟩

theorem bucketOf_cons (node : α) (nodes : List α) (n i : ℕ) :
    bucketOf h_key hn_key n (node :: nodes) i =
    if h_key (hn_key node) n = i then node :: bucketOf h_key hn_key n nodes i
      else bucketOf h_key hn_key n nodes i := by
  unfold bucketOf
  rw [List.filter_cons]
  simp only [decide_eq_true_eq]

/-- The nodes with an equal key are in the bucket of the key. -/
theorem bucket_of_valueCmp (hcoh : Coherent h_key h_cmp n)
    (h : valueCmp h_cmp hn_key key node = true) :
    h_key (hn_key node) n = h_key key n :=
  hcoh.bucket _ _ (of_decide_eq_true h)

theorem filter_bucketOf (hcoh : Coherent h_key h_cmp n) (nodes : List α) :
    (bucketOf h_key hn_key n nodes (h_key key n)).filter (valueCmp h_cmp hn_key key) =
      nodes.filter (valueCmp h_cmp hn_key key) := by
  rw [bucketOf, List.filter_filter]
  refine List.filter_congr fun a _ => ?_
  rw [Bool.and_eq_left_iff_imp]
  exact fun ha => decide_eq_true (bucket_of_valueCmp hcoh ha)

theorem bucketOf_filter (p : α → Bool) (nodes : List α) (n i : ℕ) :
    bucketOf h_key hn_key n (nodes.filter p) i = (bucketOf h_key hn_key n nodes i).filter p := by
  unfold bucketOf
  rw [List.filter_filter, List.filter_filter]
  exact List.filter_congr fun a _ => Bool.and_comm ..

/-- As many nodes go from the bucket as from all nodes. -/
theorem length_filter_bucketOf (hn_key : α → κ) (hcoh : Coherent h_key h_cmp n) (nodes : List α)
    (key : κ) :
    let bucket := bucketOf h_key hn_key n nodes (h_key key n)
    bucket.length + (nodes.filter fun a => !valueCmp h_cmp hn_key key a).length =
      nodes.length + (bucket.filter fun a => !valueCmp h_cmp hn_key key a).length := by
  intro bucket
  have hb := List.length_eq_length_filter_add (l := bucket) (valueCmp h_cmp hn_key key)
  have hn := List.length_eq_length_filter_add (l := nodes) (valueCmp h_cmp hn_key key)
  rw [filter_bucketOf hcoh] at hb
  omega

theorem mem_bucketOf {i : ℕ} :
    node ∈ bucketOf h_key hn_key n nodes i ↔ node ∈ nodes ∧ h_key (hn_key node) n = i := by
  rw [bucketOf, List.mem_filter, decide_eq_true_eq]

theorem Buckets.find (h : Buckets h_key hn_key t nodes) (hcoh : Coherent h_key h_cmp t.h_bucket_num)
    (key : κ)
    (hfuel : nodes.length ≤ fuel) :
    hashTableFind h_key h_cmp hn_key fuel t key = .ok
      (nodes.find? (valueCmp h_cmp hn_key key)) := by
  obtain ⟨l, hget, hl⟩ := h.get (hcoh.below key)
  unfold hashTableFind
  simp only [hget]
  rw [Slist.seg_search hl.1 ((List.length_filter_le ..).trans hfuel), ← List.head?_filter,
    filter_bucketOf hcoh, List.head?_filter]

/-- A node is in the bucket of its key, so visiting the buckets is visiting the nodes. -/
theorem buckets_perm (hbelow : ∀ k, h_key k n < n) (hnodup : nodes.Nodup) :
    ((List.range n).flatMap (bucketOf h_key hn_key n nodes)).Perm nodes := by
  refine (List.perm_ext_iff_of_nodup (List.nodup_flatMap.2 ⟨fun i _ => hnodup.filter _,
    ?_⟩) hnodup).2 fun a => ?_
  · refine (List.nodup_range).imp fun hij a hi hj => hij ?_
    exact (mem_bucketOf.1 hi).2.symm.trans (mem_bucketOf.1 hj).2
  · rw [List.mem_flatMap]
    constructor
    · rintro ⟨i, -, hi⟩
      exact (mem_bucketOf.1 hi).1
    · intro ha
      exact ⟨_, List.mem_range.2 (hbelow (hn_key a)), mem_bucketOf.2 ⟨ha, rfl⟩⟩

/-- The loop goes through the buckets that are left. -/
theorem Buckets.foreachLoop (h : Buckets h_key hn_key t nodes) (hint : t.h_bucket_num < 2 ^ 31)
    (hfuel : nodes.length ≤ fuel) {rounds i : ℕ} (hi : i + rounds = t.h_bucket_num + 1)
    (hrounds : 0 < rounds) :
    hashTableForeachLoop fuel t rounds i =
      .ok ((List.range' i (t.h_bucket_num - i)).flatMap
        (bucketOf h_key hn_key t.h_bucket_num nodes)) := by
  induction rounds generalizing i with
  | zero => exact absurd hrounds (lt_irrefl 0)
  | succ rounds ih =>
    rw [hashTableForeachLoop, if_neg (by omega)]
    split_ifs with hlt
    · obtain ⟨l, hget, hl⟩ := h.get hlt
      have hvisit : hashTableVisit fuel t l = .ok
        (bucketOf h_key hn_key t.h_bucket_num nodes i) := by
        unfold hashTableVisit
        split_ifs with hlen
        · rw [List.length_eq_zero_iff.1 (hl.2.symm.trans hlen)]
        · exact Slist.seg_walk hl.1 ((List.length_filter_le ..).trans hfuel)
      have hrange : t.h_bucket_num - i = (t.h_bucket_num - (i + 1)) + 1 := by omega
      rw [hget]
      simp only [hvisit, ok_bind, ih (i := i + 1) (by omega) (by omega), pure_ok]
      rw [hrange, List.range'_succ, List.flatMap_cons]
    · rw [Nat.sub_eq_zero_of_le (Nat.le_of_not_lt hlt)]
      rfl

theorem Buckets.foreach (h : Buckets h_key hn_key t nodes)
    (hbelow : ∀ k, h_key k t.h_bucket_num < t.h_bucket_num)
    (hint : t.h_bucket_num < 2 ^ 31) (hfuel : nodes.length ≤ fuel) :
    ∃ visited, hashTableForeach fuel t = .ok visited ∧ visited.Perm nodes := by
  refine ⟨_, h.foreachLoop hint hfuel (by omega) (Nat.succ_pos _), ?_⟩
  rw [Nat.sub_zero, ← List.range_eq_range']
  exact buckets_perm hbelow h.nodup

end Buckets

section Operations

variable {κ α : Type} [DecidableEq α] {h_key : κ → ℕ → ℕ} {h_cmp : κ → κ → ℤ} {hn_key : α → κ}
  {t : HashTable α} {nodes : List α} {n fuel : ℕ} {key : κ} {node : α}

namespace Buckets

theorem insert (h : Buckets h_key hn_key t nodes)
    (hbelow : ∀ k, h_key k t.h_bucket_num < t.h_bucket_num)
    (hnew : node ∉ nodes) (hlen : nodes.length + 1 < 2 ^ 32) :
    ∃ t', hashTableInsert h_key hn_key t node = .ok t' ∧ Buckets h_key hn_key t' (node :: nodes) ∧
      t'.h_bucket_num = t.h_bucket_num := by
  obtain ⟨l, hget, hl⟩ := h.get (hbelow (hn_key node))
  have hnotin : ∀ i, node ∉ bucketOf h_key hn_key t.h_bucket_num nodes i := fun i hmem =>
    hnew (List.mem_of_mem_filter hmem)
  unfold hashTableInsert
  simp only [hget]
  refine ⟨_, rfl, ⟨?_, fun i l' hl' => ?_, List.nodup_cons.2 ⟨hnew, h.nodup⟩, ?_, hlen⟩, rfl⟩
  · rw [List.length_set]
    exact h.num
  · rw [bucketOf_cons]
    simp only at hl'
    split_ifs with hi
    · subst hi
      rw [List.getElem?_set_self (h.num.symm ▸ hbelow _)] at hl'
      obtain rfl := Option.some.inj hl'
      exact hl.addFront (hnotin _)
    · rw [List.getElem?_set_ne hi] at hl'
      exact (h.holds i l' hl').update (hnotin i) _
  · simp only [h.len, List.length_cons]
    exact Nat.mod_eq_of_lt hlen

/-- What deleting does to the bucket of the key, and that it does nothing to the others. -/
theorem delete_bucket (h : Buckets h_key hn_key t nodes)
    (hcoh : Coherent h_key h_cmp t.h_bucket_num) (key : κ)
    (hfuel : nodes.length < fuel) :
    let k := h_key key t.h_bucket_num
    let bucket := bucketOf h_key hn_key t.h_bucket_num nodes k
    let left := Slist.removeIf (valueCmp h_cmp hn_key key) bucket
    ∃ t' l', hashTableDelete h_key h_cmp hn_key fuel t key = .ok t' ∧ l'.Holds t'.hn_node left ∧
      t'.h_bucket = t.h_bucket.set k l' ∧ t'.h_bucket_num = t.h_bucket_num ∧
      (∀ a ∉ bucket, t'.hn_node a = t.hn_node a) ∧
      t'.h_len = ((t.h_len - (bucket.length - left.length) : ℤ) % 2 ^ 32).toNat := by
  intro k bucket left
  obtain ⟨l, hget, hl⟩ := h.get (hcoh.below key)
  have hlen : bucket.length < fuel := (List.length_filter_le ..).trans_lt hfuel
  have hwalk : l.Holds t.hn_node ([] ++ bucket) := hl
  obtain ⟨next', l', hloop, hl', hframe⟩ := hwalk.removeIf (p := valueCmp h_cmp hn_key key) hlen
  refine ⟨⟨((t.h_len - (l.len - l'.len) : ℤ) % 2 ^ 32).toNat, t.h_bucket_num, t.h_bucket.set k l',
    next'⟩, l', ?_, hl', rfl, rfl, hframe, ?_⟩
  · unfold hashTableDelete
    simp only [hget]
    rw [List.getLast?_nil] at hloop
    rw [hloop]
    rfl
  · simp only [hl.2, hl'.2]
    rfl

/-- Deleting takes all nodes with an equal key, if no two of them are neighbours in their bucket. -/
theorem delete (h : Buckets h_key hn_key t nodes) (hcoh : Coherent h_key h_cmp t.h_bucket_num)
    (hfuel : nodes.length < fuel)
    (hapart : NoNeighbours h_key h_cmp hn_key t.h_bucket_num nodes key) :
    ∃ t', hashTableDelete h_key h_cmp hn_key fuel t key = .ok t' ∧
      Buckets h_key hn_key t' (nodes.filter fun a => !valueCmp h_cmp hn_key key a) ∧
      t'.h_bucket_num = t.h_bucket_num := by
  obtain ⟨t', l', hdel, hl', hbucket, hnum, hframe, hlen⟩ := h.delete_bucket hcoh key hfuel
  rw [Slist.removeIf_eq_filter hapart] at hl' hlen
  refine ⟨t', hdel, ⟨?_, fun i l hl => ?_, h.nodup.filter _, ?_, ?_⟩, hnum⟩
  · rw [hbucket, List.length_set, hnum, h.num]
  · rw [hnum, bucketOf_filter]
    rw [hbucket] at hl
    rcases eq_or_ne (h_key key t.h_bucket_num) i with rfl | hi
    · rw [List.getElem?_set_self (h.num.symm ▸ hcoh.below key)] at hl
      obtain rfl := Option.some.inj hl
      exact hl'
    · rw [List.getElem?_set_ne hi] at hl
      have hother : ∀ a ∈ bucketOf h_key hn_key t.h_bucket_num nodes i, h_key
        (hn_key a) t.h_bucket_num ≠
          h_key key t.h_bucket_num := fun a ha heq => hi (heq.symm.trans (mem_bucketOf.1 ha).2)
      rw [List.filter_eq_self.2 fun a ha => ?_]
      · exact (h.holds i l hl).congr fun a ha => hframe a fun hmem => hother a ha
          (mem_bucketOf.1 hmem).2
      · rw [Bool.not_eq_true', ← Bool.not_eq_true]
        exact fun hcmp => hother a ha (bucket_of_valueCmp hcoh hcmp)
  · have hcount := length_filter_bucketOf hn_key hcoh nodes key
    have hle := List.length_filter_le (fun a => !valueCmp h_cmp hn_key key a) nodes
    have hsmall := h.small
    rw [hlen, h.len]
    omega
  · exact (List.length_filter_le ..).trans_lt h.small

end Buckets

/-- After deleting a key is not found any more exactly if no two nodes with an equal key were
neighbours. -/
theorem Buckets.deleted_iff (h : Buckets h_key hn_key t nodes)
    (hcoh : Coherent h_key h_cmp t.h_bucket_num)
    (hfuel : nodes.length < fuel)
    (key : κ) : ∃ t', hashTableDelete h_key h_cmp hn_key fuel t key = .ok t' ∧
      (hashTableFind h_key h_cmp hn_key fuel t' key = .ok none ↔
        NoNeighbours h_key h_cmp hn_key t.h_bucket_num nodes key) := by
  obtain ⟨t', l', hdel, hl', hbucket, hnum, -, -⟩ := h.delete_bucket hcoh key hfuel
  refine ⟨t', hdel, ?_⟩
  have hget : t'.h_bucket[h_key key t'.h_bucket_num]? = some l' := by
    rw [hbucket, hnum, List.getElem?_set_self (h.num.symm ▸ hcoh.below key)]
  have hlen : (Slist.removeIf (valueCmp h_cmp hn_key key)
      (bucketOf h_key hn_key t.h_bucket_num nodes (h_key key t.h_bucket_num))).length ≤ fuel :=
    ((Slist.removeIf_sublist _).length_le.trans (List.length_filter_le ..)).trans hfuel.le
  unfold hashTableFind NoNeighbours
  simp only [hget]
  rw [Slist.seg_search hl'.1 hlen, ← Slist.removeIf_all_iff, Except.ok.injEq, List.find?_eq_none]
  simp only [Bool.not_eq_true]

end Operations

section Run

inductive HashOp (κ α : Type)
  | insert (node : α)
  | delete (key : κ)

variable {κ α : Type} (h_key : κ → ℕ → ℕ) (h_cmp : κ → κ → ℤ) (hn_key : α → κ)

def hashTableOp [DecidableEq α] (fuel : ℕ) (t : HashTable α) : HashOp κ α → Option (HashTable α)
  | .insert node => (hashTableInsert h_key hn_key t node).toOption
  | .delete key => (hashTableDelete h_key h_cmp hn_key fuel t key).toOption

def multimapOp (nodes : List α) : HashOp κ α → List α
  | .insert node => node :: nodes
  | .delete key => nodes.filter fun a => !valueCmp h_cmp hn_key key a

/-- A node goes in once, while there is room for it in `h_len`, and a key is not deleted where two
nodes with an equal key are neighbours. -/
def HashRule (n : ℕ) (nodes : List α) : HashOp κ α → Prop
  | .insert node => node ∉ nodes ∧ nodes.length + 1 < 2 ^ 32
  | .delete key => NoNeighbours h_key h_cmp hn_key n nodes key

variable {h_key h_cmp hn_key}

theorem multimapOp_length (nodes : List α) (op : HashOp κ α) :
    (multimapOp h_cmp hn_key nodes op).length ≤ nodes.length + 1 := by
  cases op with
  | insert node => exact le_rfl
  | delete key => exact (List.length_filter_le ..).trans (Nat.le_succ _)

theorem multimapOps_length (nodes : List α) (ops : List (HashOp κ α)) :
    (ops.foldl (multimapOp h_cmp hn_key) nodes).length ≤ nodes.length + ops.length := by
  induction ops generalizing nodes with
  | nil => exact le_rfl
  | cons op ops ih =>
    have hop : (multimapOp h_cmp hn_key nodes op).length ≤ nodes.length + 1 :=
      multimapOp_length nodes op
    have hops := ih (multimapOp h_cmp hn_key nodes op)
    rw [List.foldl_cons, List.length_cons]
    omega

variable [DecidableEq α] {t : HashTable α} {nodes : List α} {fuel : ℕ}

theorem hashTableOp_ok (h : Buckets h_key hn_key t nodes)
    (hcoh : Coherent h_key h_cmp t.h_bucket_num)
    (hfuel : nodes.length < fuel) (op : HashOp κ α)
    (hop : HashRule h_key h_cmp hn_key t.h_bucket_num nodes op) :
    ∃ t', hashTableOp h_key h_cmp hn_key fuel t op = some t' ∧
      Buckets h_key hn_key t' (multimapOp h_cmp hn_key nodes op) ∧
        t'.h_bucket_num = t.h_bucket_num := by
  cases op with
  | insert node =>
    obtain ⟨t', ht', h', hnum⟩ := h.insert hcoh.below hop.1 hop.2
    exact ⟨t', by rw [hashTableOp, ht']; rfl, h', hnum⟩
  | delete key =>
    obtain ⟨t', ht', h', hnum⟩ := h.delete hcoh hfuel hop
    exact ⟨t', by rw [hashTableOp, ht']; rfl, h', hnum⟩

theorem hashTableOps_ok {ops : List (HashOp κ α)} (h : Buckets h_key hn_key t nodes)
    (hcoh : Coherent h_key h_cmp t.h_bucket_num) (hfuel : nodes.length + ops.length < fuel)
    (hops : Meets (fun nodes op => some (multimapOp h_cmp hn_key nodes op))
      (HashRule h_key h_cmp hn_key t.h_bucket_num) nodes ops) :
    ∃ t', run (hashTableOp h_key h_cmp hn_key fuel) t ops = some t' ∧
      Buckets h_key hn_key t' (ops.foldl (multimapOp h_cmp hn_key) nodes) ∧
        t'.h_bucket_num = t.h_bucket_num := by
  induction ops generalizing t nodes with
  | nil => exact ⟨t, rfl, h, rfl⟩
  | cons op ops ih =>
    rw [List.length_cons] at hfuel
    obtain ⟨hop, hops⟩ := (meets_cons _).1 hops
    have hfuel0 : nodes.length < fuel := by omega
    obtain ⟨t1, ht1, h1, hnum⟩ := hashTableOp_ok h hcoh hfuel0 op hop
    have hlen : (multimapOp h_cmp hn_key nodes op).length ≤ nodes.length + 1 :=
      multimapOp_length nodes op
    have hfuel1 : (multimapOp h_cmp hn_key nodes op).length + ops.length < fuel := by omega
    obtain ⟨t2, ht2, h2, hnum2⟩ := ih h1 (hnum ▸ hcoh) hfuel1 (hnum ▸ hops _ rfl)
    refine ⟨t2, ?_, h2, hnum2.trans hnum⟩
    rw [run, ht1, Option.bind_some, ht2]

/-- Behind any calls that keep to the rule the table is the multimap: a key is found as its newest
node or not at all, `h_len` counts the nodes, and each node is visited once. And the rule is
right: of any key the table loses all nodes exactly if no two are neighbours. -/
theorem hash_multimap (h_key : κ → ℕ → ℕ) (h_cmp : κ → κ → ℤ) (hn_key : α → κ) (n fuel : ℕ)
    (hint : n < 2 ^ 31)
    (hcoh : Coherent h_key h_cmp n) (ops : List (HashOp κ α)) (hfuel : ops.length < fuel)
    (hops : Meets (fun nodes op =>
      some (multimapOp h_cmp hn_key nodes op)) (HashRule h_key h_cmp hn_key n) [] ops) :
    ∃ t nodes, run (hashTableOp h_key h_cmp hn_key fuel) (hashTableInit n) ops = some t ∧
      nodes = ops.foldl (multimapOp h_cmp hn_key) [] ∧
      (∀ key, hashTableFind h_key h_cmp hn_key fuel t key =
        .ok (nodes.find? (valueCmp h_cmp hn_key key))) ∧
      t.h_len = nodes.length ∧
      (∃ visited, hashTableForeach fuel t = .ok visited ∧ visited.Perm nodes) ∧
      ∀ key, ∃ t', hashTableDelete h_key h_cmp hn_key fuel t key = .ok t' ∧
        (hashTableFind h_key h_cmp hn_key fuel t' key = .ok none ↔
          NoNeighbours h_key h_cmp hn_key n nodes key) := by
  obtain ⟨t, ht, h, hnum⟩ := hashTableOps_ok (buckets_init n) hcoh (by simpa using hfuel) hops
  have hnum : t.h_bucket_num = n := hnum
  have hlen : (ops.foldl (multimapOp h_cmp hn_key) []).length < fuel :=
    (multimapOps_length [] ops).trans_lt (by simpa using hfuel)
  subst hnum
  exact
    ⟨t, _, ht, rfl, fun key => h.find hcoh key hlen.le, h.len, h.foreach hcoh.below hint hlen.le,
    fun key => h.deleted_iff hcoh hlen key⟩

def tens (node : ℕ) : ℕ := node / 10

def subCmp (a b : ℕ) : ℤ := a - b

theorem coherent_subCmp : Coherent (fun k n => k % n) subCmp 2 where
  below k := Nat.mod_lt k (by decide)
  bucket a b h := by rw [Int.ofNat_inj.1 (sub_eq_zero.1 h)]
  equal := ⟨fun a => sub_self _, fun h => by rw [subCmp] at *; omega,
    fun h h' => by rw [subCmp] at *; omega⟩

/-- Nodes 10 and 11 have equal keys, and node 30 lies between them. -/
theorem hash_multimap_apart : ∃ t,
    run (hashTableOp (fun k n => k % n) subCmp tens 5) (hashTableInit 2)
      [.insert 10, .insert 30, .insert 11, .delete 1] = some t ∧ t.h_len = 1 ∧
      hashTableFind (fun k n => k % n) subCmp tens 5 t 1 = .ok none := by
  have hops : Meets (fun nodes op => some (multimapOp subCmp tens nodes op))
    (HashRule (fun k n => k % n) subCmp tens 2)
      [] [.insert 10, .insert 30, .insert 11, .delete 1] := by
    refine (meets_cons _).2 ⟨⟨by decide, by decide⟩, fun _ h => ?_⟩
    cases h
    refine (meets_cons _).2 ⟨⟨by decide, by decide⟩, fun _ h => ?_⟩
    cases h
    refine (meets_cons _).2 ⟨⟨by decide, by decide⟩, fun _ h => ?_⟩
    cases h
    refine (meets_cons _).2 ⟨?_, fun _ _ => meets_nil _ _ _⟩
    show List.IsChain _ [11, 30, 10]
    simp [valueCmp, subCmp, tens]
  obtain ⟨t, nodes, ht, rfl, hfind, hlen, -⟩ :=
    hash_multimap _ _ _ 2 5 (by decide) coherent_subCmp _ (by decide) hops
  exact ⟨t, ht, hlen, hfind 1⟩

/-- Nodes 10 and 11 are neighbours: deleting their key takes one of them. -/
theorem not_hash_multimap : ¬ ∀ (ops : List (HashOp ℕ ℕ)) t,
    run (hashTableOp (fun k n => k % n) subCmp tens 5) (hashTableInit 2) ops = some t →
      ∀ key, hashTableFind (fun k n => k % n) subCmp tens 5 t key =
        .ok ((ops.foldl (multimapOp subCmp tens) []).find? (valueCmp subCmp tens key)) := by
  intro h
  have h1 := h [.insert 10, .insert 11, .delete 1] _ rfl 1
  cases h1

end Run

end Plume
