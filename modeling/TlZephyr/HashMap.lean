import TlZephyr.Errno
import TlZephyr.Lib.HashTable
import TlZephyr.Lib.Simulation

/-!
# Hash Maps

What the two hash maps of `lib/hash` share: the configuration, `sys_hashmap_should_rehash`, the
operations of `sys_hashmap_api`, and what they should do to a finite map. A `size_t` holds the
numbers below `W`.
-/

namespace TlZephyr

open HashTable

/-! ### When a table is rebuilt -/

/-- `struct sys_hashmap_config`. -/
structure HashmapConfig where
  maxSize : ℕ
  loadFactor : ℕ
  initialNBuckets : ℕ
deriving DecidableEq, Repr

/-- What a user can configure: a load factor from 1 to 100 and, in a `uint8_t`, a power of two. -/
structure HashmapConfig.Valid (c : HashmapConfig) : Prop where
  one_le_loadFactor : 1 ≤ c.loadFactor
  loadFactor_le : c.loadFactor ≤ 100
  initial : ∃ a ≤ 7, c.initialNBuckets = 2 ^ a

theorem HashmapConfig.Valid.initial_le {c : HashmapConfig} (h : c.Valid) :
    1 ≤ c.initialNBuckets ∧ c.initialNBuckets ≤ 128 := by
  obtain ⟨a, ha, hinit⟩ := h.initial
  rw [hinit]
  exact ⟨Nat.one_le_two_pow, Nat.pow_le_pow_right (by decide) ha⟩

/-- `sys_hashmap_should_rehash`: the decision and the new number of buckets. -/
def sysHashmapShouldRehash (W : ℕ) (c : HashmapConfig) (size nBuckets : ℕ) (grow : Bool)
    (numReserved : ℕ) : Bool × ℕ :=
  let size := (size + grow.toNat) % W
  let n := (nBuckets + grow.toNat * (size == 1).toNat * c.initialNBuckets) % W
  let n := (n <<< (grow.toNat * (size != 1).toNat)) % W
  let n := n >>> (!grow).toNat
  let n := n * (size != 0).toNat
  let shouldGrow := grow &&
    (nBuckets == 0 || ((size + numReserved) % W * 100 % W) / nBuckets > c.loadFactor)
  let shouldShrink := !grow && (n == 0 || (size * 100 % W) / n ≤ c.loadFactor)
  (shouldGrow || shouldShrink, n)

/-- `++` on a `size_t`. -/
def sizeInc (W n : ℕ) : ℕ := (n + 1) % W

/-- `--` on a `size_t`. -/
def sizeDec (W n : ℕ) : ℕ := (n + (W - 1)) % W

/-- The sizes are so small that `sys_hashmap_should_rehash` does not wrap around. -/
def SizesFit (W size nBuckets numReserved : ℕ) : Prop :=
  (size + 1 + numReserved) * 100 < W ∧ 2 * nBuckets < W

section sizes

variable {W size nBuckets numReserved : ℕ} {c : HashmapConfig}

theorem sizeInc_eq (h : size + 1 < W) : sizeInc W size = size + 1 := Nat.mod_eq_of_lt h

theorem sizeDec_eq (h : 0 < size) (hlt : size < W) : sizeDec W size = size - 1 := by
  have heq : size + (W - 1) = (size - 1) + W := by omega
  rw [sizeDec, heq, Nat.add_mod_right, Nat.mod_eq_of_lt (by omega)]

def grownTo (c : HashmapConfig) (size nBuckets : ℕ) : ℕ :=
  if size = 0 then nBuckets + c.initialNBuckets else 2 * nBuckets

def shrunkTo (size nBuckets : ℕ) : ℕ := if size = 0 then 0 else nBuckets / 2

/-- **When a table grows** before an insertion. -/
theorem shouldRehash_grow (h : SizesFit W size nBuckets numReserved)
    (hinit : size = 0 → nBuckets + c.initialNBuckets < W) :
    sysHashmapShouldRehash W c size nBuckets true numReserved =
      (decide (nBuckets = 0 ∨ c.loadFactor < (size + 1 + numReserved) * 100 / nBuckets),
        grownTo c size nBuckets) := by
  obtain ⟨hsize, hn⟩ := h
  have h₁ : (size + 1) % W = size + 1 := Nat.mod_eq_of_lt (by omega)
  have h₂ : (size + 1 + numReserved) % W = size + 1 + numReserved := Nat.mod_eq_of_lt (by omega)
  have h₃ : (size + 1 + numReserved) * 100 % W = (size + 1 + numReserved) * 100 :=
    Nat.mod_eq_of_lt hsize
  simp only [sysHashmapShouldRehash, Bool.toNat_true, h₁, h₂, h₃]
  rcases Nat.eq_zero_or_pos size with rfl | hpos
  · simp [grownTo, Nat.mod_eq_of_lt (hinit rfl), Bool.decide_or, beq_eq_decide]
  have hne : ¬ size = 0 := by omega
  have hb : (size != 0) = true := by simpa using hne
  simp [grownTo, hne, hb, Nat.shiftLeft_eq, Nat.mod_eq_of_lt (show nBuckets < W by omega),
    Nat.mod_eq_of_lt (show nBuckets * 2 < W by omega), Nat.mul_comm, Bool.decide_or,
    beq_eq_decide]

/-- **When a table shrinks** after a removal. -/
theorem shouldRehash_shrink (hsize : size * 100 < W) (hn : nBuckets < W) (numReserved : ℕ) :
    sysHashmapShouldRehash W c size nBuckets false numReserved =
      (decide (shrunkTo size nBuckets = 0 ∨
        size * 100 / shrunkTo size nBuckets ≤ c.loadFactor), shrunkTo size nBuckets) := by
  have h₁ : size % W = size := Nat.mod_eq_of_lt (by omega)
  have h₂ : size * 100 % W = size * 100 := Nat.mod_eq_of_lt hsize
  have h₃ : nBuckets % W = nBuckets := Nat.mod_eq_of_lt hn
  have hn' : nBuckets >>> 1 * (size != 0).toNat = shrunkTo size nBuckets := by
    by_cases hs : size = 0
    · simp [shrunkTo, hs]
    · have hb : (size != 0) = true := by simpa using hs
      simp [shrunkTo, hs, hb, Nat.shiftRight_eq_div_pow]
  simp [sysHashmapShouldRehash, zero_mul, h₁, h₂, h₃, hn', beq_eq_decide]

end sizes

/-! ### Operations and what they should do -/

inductive HashmapOp
  | insert (key value : UInt64)
  | remove (key : UInt64)
  | get (key : UInt64)
  | clear
  | foreach
  | size
deriving DecidableEq, Repr

/-- What a call returns: the result of an insertion and `old_value`, the value found, the entries
iterated over, or the size. -/
inductive HashmapOut
  | inserted (ret : ℤ) (oldValue : UInt64)
  | found (value : Option UInt64)
  | visited (entries : List (UInt64 × UInt64))
  | size (size : ℕ)
deriving DecidableEq, Repr

/-- A finite map from 64-bit keys to 64-bit values. -/
abbrev KeyMap := Finmap fun _ : UInt64 => UInt64

/-- **What the operations should do** to a finite map, and return. -/
inductive HashmapOp.Behaves (m : KeyMap) : HashmapOp → HashmapOut → KeyMap → Prop
  | insertNew {key value oldValue : UInt64} (h : m.lookup key = none) :
      Behaves m (.insert key value) (.inserted 1 oldValue) (m.insert key value)
  | insertOld {key value oldValue : UInt64} (h : m.lookup key = some oldValue) :
      Behaves m (.insert key value) (.inserted 0 oldValue) (m.insert key value)
  | remove (key : UInt64) : Behaves m (.remove key) (.found (m.lookup key)) (m.erase key)
  | get (key : UInt64) : Behaves m (.get key) (.found (m.lookup key)) m
  | clear {entries : List (UInt64 × UInt64)} (h : Lists m entries) :
      Behaves m .clear (.visited entries) ∅
  | foreach {entries : List (UInt64 × UInt64)} (h : Lists m entries) :
      Behaves m .foreach (.visited entries) m
  | size : Behaves m .size (.size m.keys.card) m

end TlZephyr
