import Mathlib.Tactic

/-! C string scanning over one object in memory, as lists of bytes. An access
outside the object has no meaning in C, so every primitive returns a fault
there instead of a value. -/

namespace CLib

abbrev Bytes := List UInt8

inductive Fault
  /-- a byte outside the object is read or written -/
  | bounds
  /-- a pointer that points to no live object is followed -/
  | wild
  /-- a loop outlived the bound the model gives it -/
  | fuel
  /-- an assertion fails -/
  | abort
deriving DecidableEq, Repr

@[simp] theorem ok_bind {α β : Type} (a : α) (f : α → Except Fault β) :
    (Except.ok a >>= f) = f a := rfl

@[simp] theorem error_bind {α β : Type} (e : Fault) (f : α → Except Fault β) :
    (Except.error e >>= f) = .error e := rfl

@[simp] theorem pure_ok {α : Type} (a : α) : (pure a : Except Fault α) = .ok a := rfl

theorem bind_eq_ok {α β : Type} {x : Except Fault α} {f : α → Except Fault β} {b : β} :
    (x >>= f) = .ok b ↔ ∃ a, x = .ok a ∧ f a = .ok b := by
  cases x <;> simp

theorem toOption_eq_some {ε α : Type} {x : Except ε α} {a : α} :
    x.toOption = some a ↔ x = .ok a := by
  cases x <;> simp [Except.toOption]

/-- A `size_t` holding a pointer difference; a negative one wraps. -/
def sizeT (n : ℤ) : ℕ := if n < 0 then 2 ^ 64 - n.natAbs else n.toNat

theorem sizeT_natCast (n : ℕ) : sizeT n = n := by simp [sizeT]

/-- The address one below `i`; nothing lies below the start of the object. -/
def before : ℕ → Except Fault ℕ
  | 0 => .error .bounds
  | i + 1 => .ok i

def load (b : Bytes) (i : ℕ) : Except Fault UInt8 :=
  match b[i]? with
  | some x => .ok x
  | none => .error .bounds

def store (b : Bytes) (i : ℕ) (x : UInt8) : Except Fault Bytes :=
  if i < b.length then .ok (b.set i x) else .error .bounds

def slice (b : Bytes) (i n : ℕ) : Bytes := (b.drop i).take n

def find (p : UInt8 → Bool) (b : Bytes) (i : ℕ) : Option ℕ :=
  ((b.drop i).findIdx? p).map (i + ·)

/-- `memchr(b + i, c, n)`, reading up to the first match. -/
def memchr (b : Bytes) (i : ℕ) (c : UInt8) (n : ℕ) : Except Fault (Option ℕ) :=
  match ((b.drop i).take n).findIdx? (· == c) with
  | some k => .ok (some (i + k))
  | none => if i + n ≤ b.length then .ok none else .error .bounds

/-- `strchr(b + i, c)` for `c ≠ 0`. -/
def strchr (b : Bytes) (i : ℕ) (c : UInt8) : Except Fault (Option ℕ) :=
  match find (fun x => x == c || x == 0) b i with
  | none => .error .bounds
  | some k => .ok (if b[k]? = some c then some k else none)

def skip (b : Bytes) (i : ℕ) (c : UInt8) : Except Fault ℕ :=
  match find (· != c) b i with
  | none => .error .bounds
  | some k => .ok k

/-- `memcmp(b + i, lit, |lit|) == 0`; all `|lit|` bytes belong to the comparison. -/
def memEq (b : Bytes) (i : ℕ) (lit : Bytes) : Except Fault Bool :=
  if i + lit.length ≤ b.length then .ok (slice b i lit.length == lit) else .error .bounds

/-- `strcmp(s, lit) == 0` for a literal without NUL, reading up to the first difference. -/
def streq : Bytes → Bytes → Except Fault Bool
  | [], _ => .error .bounds
  | x :: _, [] => .ok (x == 0)
  | x :: xs, y :: ys => if x == y then streq xs ys else .ok false

def cstr (b : Bytes) (i : ℕ) : Except Fault Bytes :=
  match find (· == 0) b i with
  | none => .error .bounds
  | some k => .ok (slice b i (k - i))

def isSpace (c : UInt8) : Bool := c == 32 || (9 ≤ c && c ≤ 13)

def isDigit (c : UInt8) : Bool := 48 ≤ c && c ≤ 57

def decimal (ds : Bytes) : ℕ := ds.foldl (fun v c => v * 10 + (c.toNat - 48)) 0

/-- `strtol(s, NULL, 10)` with a 64-bit `long`: out of range values saturate. -/
def strtol (s : Bytes) : ℤ :=
  match s.dropWhile isSpace with
  | 45 :: t => max (-(2 : ℤ) ^ 63) (-(decimal (t.takeWhile isDigit) : ℤ))
  | 43 :: t => min ((2 : ℤ) ^ 63 - 1) (decimal (t.takeWhile isDigit))
  | t => min ((2 : ℤ) ^ 63 - 1) (decimal (t.takeWhile isDigit))

/-- `atoi`: the value of `strtol` converted to a 32-bit `int`. -/
def atoi (s : Bytes) : ℤ := (strtol s).bmod (2 ^ 32)

theorem find_ge {p : UInt8 → Bool} {b : Bytes} {i k : ℕ} (h : find p b i = some k) : i ≤ k := by
  obtain ⟨j, -, rfl⟩ := Option.map_eq_some_iff.1 h
  exact Nat.le_add_right i j

theorem strchr_ge {b : Bytes} {i k : ℕ} {c : UInt8} (h : strchr b i c = .ok (some k)) : i ≤ k := by
  rw [strchr] at h
  cases hf : find (fun x => x == c || x == 0) b i with
  | none => simp [hf] at h
  | some j =>
    obtain ⟨-, rfl⟩ : b[j]? = some c ∧ j = k := by simpa [hf] using h
    exact find_ge hf

theorem skip_ge {b : Bytes} {i k : ℕ} {c : UInt8} (h : skip b i c = .ok k) : i ≤ k := by
  rw [skip] at h
  cases hf : find (· != c) b i with
  | none => simp [hf] at h
  | some j =>
    obtain rfl : j = k := by simpa [hf] using h
    exact find_ge hf

theorem store_length {b b' : Bytes} {i : ℕ} {x : UInt8} (h : store b i x = .ok b') :
    b'.length = b.length := by
  unfold store at h
  split at h
  · obtain rfl : b.set i x = b' := by simpa using h
    simp
  · simp at h

/-! What the primitives return on a buffer split around the byte they stop at. -/

section Split

variable {b l m r : Bytes} {c x : UInt8} {i n : ℕ} {p : UInt8 → Bool}

theorem find_split (hb : b = l ++ m ++ x :: r) (hi : i = l.length)
    (hm : ∀ y ∈ m, p y = false) (hx : p x = true) :
    find p b i = some (l.length + m.length) := by
  subst hb hi
  have hn : m.findIdx? p = none := by simpa [List.findIdx?_eq_none_iff] using hm
  simp [find, List.findIdx?_append, hn, List.findIdx?_cons, hx]

theorem load_split (hb : b = l ++ x :: r) (hi : i = l.length) : load b i = .ok x := by
  subst hb hi
  simp [load]

theorem store_split {y : UInt8} (hb : b = l ++ x :: r) (hi : i = l.length) :
    store b i y = .ok (l ++ y :: r) := by
  subst hb hi
  simp [store]

theorem slice_split (hb : b = l ++ m ++ r) (hi : i = l.length) (hn : n = m.length) :
    slice b i n = m := by
  subst hb hi hn
  simp [slice]

theorem memchr_split (hb : b = l ++ m ++ c :: r) (hi : i = l.length)
    (hm : c ∉ m) (hn : m.length < n) :
    memchr b i c n = .ok (some (l.length + m.length)) := by
  subst hb hi
  obtain ⟨k, rfl⟩ : ∃ k, n = m.length + 1 + k := ⟨n - (m.length + 1), by omega⟩
  have ht : (m ++ c :: r).take (m.length + 1 + k) = m ++ c :: r.take k := by
    rw [List.take_append, List.take_of_length_le (by omega),
      show m.length + 1 + k - m.length = k + 1 by omega, List.take_succ_cons]
  have hnone : m.findIdx? (· == c) = none := by
    rw [List.findIdx?_eq_none_iff]
    intro y hy
    simpa using ne_of_mem_of_not_mem hy hm
  simp [memchr, ht, List.findIdx?_append, hnone, List.findIdx?_cons]

theorem memchr_absent (hb : b = l ++ m ++ r) (hi : i = l.length)
    (hm : c ∉ m) (hn : n = m.length) : memchr b i c n = .ok none := by
  subst hb hi hn
  have hnone : m.findIdx? (· == c) = none := by
    rw [List.findIdx?_eq_none_iff]
    intro y hy
    simpa using ne_of_mem_of_not_mem hy hm
  have ht : ((l ++ m ++ r).drop l.length).take m.length = m := by simp
  have hle : l.length + m.length ≤ (l ++ m ++ r).length := by simp
  simp only [memchr, ht, hnone, if_pos hle]

/-- The bytes run out before `c` is found or `n` of them are read. -/
theorem memchr_outside (hb : b = l ++ m) (hi : i = l.length) (hm : c ∉ m) (hn : m.length < n) :
    memchr b i c n = .error .bounds := by
  subst hb hi
  have hnone : m.findIdx? (· == c) = none := by
    rw [List.findIdx?_eq_none_iff]
    intro y hy
    simpa using ne_of_mem_of_not_mem hy hm
  have ht : ((l ++ m).drop l.length).take n = m := by
    rw [List.drop_left, List.take_of_length_le hn.le]
  have hle : ¬ l.length + n ≤ (l ++ m).length := by simp; omega
  simp only [memchr, ht, hnone, if_neg hle]

theorem strchr_split (hb : b = l ++ m ++ c :: r) (hi : i = l.length)
    (hc : c ∉ m) (h0 : 0 ∉ m) : strchr b i c = .ok (some (l.length + m.length)) := by
  have hf := find_split (p := fun x => x == c || x == 0) hb hi
    (fun y hy => by
      simp [ne_of_mem_of_not_mem hy hc, ne_of_mem_of_not_mem hy h0]) (by simp)
  have hget : b[l.length + m.length]? = some c := by subst hb; simp
  simp only [strchr, hf, hget, if_true]

theorem strchr_absent (hb : b = l ++ m ++ 0 :: r) (hi : i = l.length)
    (hc : c ∉ m) (h0 : 0 ∉ m) (hc0 : c ≠ 0) : strchr b i c = .ok none := by
  have hf := find_split (p := fun x => x == c || x == 0) hb hi
    (fun y hy => by
      simp [ne_of_mem_of_not_mem hy hc, ne_of_mem_of_not_mem hy h0]) (by simp)
  have hget : b[l.length + m.length]? ≠ some c := by
    subst hb
    simpa using hc0.symm
  simp only [strchr, hf, if_neg hget]

theorem skip_split {k : ℕ} {t : Bytes} (hb : b = l ++ List.replicate k c ++ t)
    (hi : i = l.length) (ht : t ≠ []) (hc : t.head? ≠ some c) :
    skip b i c = .ok (l.length + k) := by
  obtain ⟨x, t, rfl⟩ := List.exists_cons_of_ne_nil ht
  have hx : x ≠ c := by simpa using hc
  have hf := find_split hb hi (p := (· != c)) (fun y hy => by simp [List.eq_of_mem_replicate hy])
    (by simpa using hx)
  simp only [skip, hf, List.length_replicate]

/-- Comparing with a literal never reaches past a NUL, except to touch the bytes there. -/
theorem memEq_nul {lit : Bytes} (hb : b = l ++ m ++ 0 :: r) (hi : i = l.length) (h0 : 0 ∉ lit) :
    memEq b i lit = if lit.length ≤ m.length + 1 + r.length
      then .ok (m.take lit.length == lit) else .error .bounds := by
  subst hb hi
  have hle : l.length + lit.length ≤ (l ++ m ++ 0 :: r).length ↔
      lit.length ≤ m.length + 1 + r.length := by simp; omega
  simp only [memEq, hle]
  split_ifs with h
  · have hd : (l ++ m ++ 0 :: r).drop l.length = m ++ 0 :: r := by simp
    rw [slice, hd]
    congr 1
    by_cases hm : lit.length ≤ m.length
    · rw [List.take_append_of_le_length hm]
    · obtain ⟨k, hk⟩ : ∃ k, lit.length = m.length + 1 + k := ⟨lit.length - (m.length + 1), by omega⟩
      have h1 : m.take lit.length ≠ lit := by
        intro he
        have := congrArg List.length he
        simp at this
        omega
      have h2 : (m ++ 0 :: r).take lit.length ≠ lit := by
        intro he
        apply h0
        rw [← he, hk, List.take_append, List.take_of_length_le (by omega),
          show m.length + 1 + k - m.length = k + 1 by omega]
        simp
      simp [h1, h2]
  · rfl

theorem cstr_split (hb : b = l ++ m ++ 0 :: r) (hi : i = l.length) (h0 : 0 ∉ m) :
    cstr b i = .ok m := by
  have hf := find_split (p := (· == 0)) hb hi
    (fun y hy => by simpa using ne_of_mem_of_not_mem hy h0) (by simp)
  simp only [cstr, hf]
  congr 1
  exact slice_split hb hi (by omega)

end Split

theorem head?_append_ne {c x : UInt8} {t r : Bytes} (ht : t.head? ≠ some c) (hx : x ≠ c) :
    (t ++ x :: r).head? ≠ some c := by
  cases t with
  | nil => simpa using hx
  | cons y t => simpa using ht

/-- Every list is a run of `c`s followed by a list that does not begin with `c`. -/
theorem exists_replicate (c : UInt8) (l : Bytes) :
    ∃ k t, l = List.replicate k c ++ t ∧ t.head? ≠ some c := by
  induction l with
  | nil => exact ⟨0, [], by simp⟩
  | cons x xs ih =>
    by_cases hx : x = c
    · obtain ⟨k, t, rfl, ht⟩ := ih
      exact ⟨k + 1, t, by simp [List.replicate_succ, hx], ht⟩
    · exact ⟨0, x :: xs, by simp, by simpa using hx⟩

end CLib
