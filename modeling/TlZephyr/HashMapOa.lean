import TlZephyr.HashMapSc

/-!
# Open-Addressing Hash Map

Model of `hash_map_oa_lp.c`: an array of entries that are unused, used or tombstones, searched
by linear probing. The allocator does not fail; `none` stands for the access to a null pointer
where `sys_hashmap_oa_lp_find` has found nothing and its caller goes on.

An insertion takes the first tombstone on its way, whether or not the key comes later, and returns
0 for it. `OaOk` is the condition on the table before an operation under which nothing goes wrong.
-/

namespace TlZephyr

open HashTable List Option HashmapOp

/-! ### Model -/

/-- `enum bucket_state`. -/
inductive BucketState
  | unused
  | used
  | tombstone
deriving DecidableEq, Repr

/-- `struct oalp_entry`. -/
structure OalpEntry where
  key : UInt64
  value : UInt64
  state : BucketState
deriving DecidableEq, Repr

/-- `struct sys_hashmap_oa_lp_data`. -/
structure HashmapOaData where
  buckets : List OalpEntry
  size : ℕ
  nTombstones : ℕ
deriving DecidableEq, Repr

namespace OalpEntry

/-- Whether the search for `key` stops at an entry. -/
def accept (key : UInt64) (usedOk unusedOk tombstoneOk : Bool) (entry : OalpEntry) : Bool :=
  match entry.state with
  | .used => usedOk && entry.key == key
  | .unused => unusedOk
  | .tombstone => tombstoneOk

def pairs (entry : OalpEntry) : List (UInt64 × UInt64) :=
  if entry.state = .used then [(entry.key, entry.value)] else []

def zero : OalpEntry := ⟨0, 0, .unused⟩

end OalpEntry

namespace HashmapOaData

def nBuckets (d : HashmapOaData) : ℕ := d.buckets.length

def pairs (d : HashmapOaData) : List (UInt64 × UInt64) := d.buckets.flatMap OalpEntry.pairs

def init : HashmapOaData := ⟨[], 0, 0⟩

/-- Loop of `sys_hashmap_oa_lp_find`. -/
def findLoop (accept : OalpEntry → Bool) (buckets : List OalpEntry) : ℕ → ℕ → Option ℕ
  | 0, _ => none
  | left + 1, j =>
    let j := j &&& (buckets.length - 1)
    (buckets[j]?).bind fun entry =>
      if accept entry then some j else findLoop accept buckets left (j + 1)

section model

variable (W : ℕ) (c : HashmapConfig) (hash : UInt64 → UInt32)

/-- `sys_hashmap_oa_lp_find`. -/
def find (d : HashmapOaData) (key : UInt64) (usedOk unusedOk tombstoneOk : Bool) : Option ℕ :=
  findLoop (OalpEntry.accept key usedOk unusedOk tombstoneOk) d.buckets d.nBuckets
    (hash key).toNat

/-- `sys_hashmap_oa_lp_insert_no_rehash`: the table, what it returns and `old_value`. -/
def insertNoRehash (d : HashmapOaData) (key value : UInt64) : Option (HashmapOaData × ℤ × UInt64) :=
  (d.find hash key true true true).bind fun j =>
    (d.buckets[j]?).map fun entry =>
      (⟨d.buckets.set j ⟨key, value, .used⟩,
        if entry.state = .used then d.size else sizeInc W d.size,
        if entry.state = .tombstone then sizeDec W d.nTombstones else d.nTombstones⟩,
      if entry.state = .unused then 1 else 0, entry.value)

/-- Loop of `sys_hashmap_oa_lp_rehash` over the old entries; `left` is `old_size - j`. -/
def reinsert : List OalpEntry → ℕ → HashmapOaData → Option HashmapOaData
  | [], _, d => some d
  | _ :: _, 0, d => some d
  | entry :: entries, left + 1, d =>
    if entry.state = .used then
      (d.insertNoRehash W hash entry.key entry.value).bind fun x => reinsert entries left x.1
    else reinsert entries (left + 1) d

/-- Test of `max_size` before a table is rebuilt; `SIZE_MAX` is no limit. -/
def AtLimit (d : HashmapOaData) : Prop := d.size ≠ W - 1 ∧ d.size = c.maxSize

instance (d : HashmapOaData) : Decidable (d.AtLimit W c) := inferInstanceAs (Decidable (_ ∧ _))

/-- `sys_hashmap_oa_lp_rehash`. -/
def rehash (d : HashmapOaData) (grow : Bool) : Option (HashmapOaData × ℤ) :=
  let should := sysHashmapShouldRehash W c d.size d.nBuckets grow d.nTombstones
  if should.1 = false then some (d, 0)
  else if d.AtLimit W c then some (d, -ENOSPC)
  else
    (reinsert W hash d.buckets d.size
      ⟨List.replicate should.2 OalpEntry.zero, 0, d.nTombstones⟩).map fun d => (d, 0)

/-- `sys_hashmap_oa_lp_insert`; `old_value` is 0 where nothing is stored there. -/
def insert (d : HashmapOaData) (key value : UInt64) : Option (HashmapOaData × HashmapOut) :=
  (d.rehash W c hash true).bind fun x =>
    if x.2 < 0 then some (x.1, .inserted x.2 0)
    else (x.1.insertNoRehash W hash key value).map fun y => (y.1, .inserted y.2.1 y.2.2)

/-- Entry that `sys_hashmap_oa_lp_remove` and `sys_hashmap_oa_lp_get` find. -/
def lookup (d : HashmapOaData) (key : UInt64) : Option (ℕ × OalpEntry) :=
  (d.find hash key true true false).bind fun j =>
    (d.buckets[j]?).bind fun entry => if entry.state = .unused then none else some (j, entry)

/-- `sys_hashmap_oa_lp_remove`. -/
def remove (d : HashmapOaData) (key : UInt64) : Option (HashmapOaData × HashmapOut) :=
  match d.lookup hash key with
  | none => some (d, .found none)
  | some (j, entry) =>
    (rehash W c hash ⟨d.buckets.set j { entry with state := .tombstone }, sizeDec W d.size,
      sizeInc W d.nTombstones⟩ false).map fun x => (x.1, .found (some entry.value))

/-- `sys_hashmap_oa_lp_get`. -/
def get (d : HashmapOaData) (key : UInt64) : Option UInt64 :=
  (d.lookup hash key).map fun x => x.2.value

end model

/-- Loop of `sys_hashmap_oa_lp_clear` with a callback; `left` is `size - j`. -/
def visit : List OalpEntry → ℕ → List (UInt64 × UInt64)
  | [], _ => []
  | _ :: _, 0 => []
  | entry :: entries, left + 1 =>
    if entry.state = .used then (entry.key, entry.value) :: visit entries left
    else visit entries (left + 1)

/-- `struct sys_hashmap_iterator`; the state is the index of a bucket. -/
structure Iterator where
  state : ℕ
  key : UInt64
  value : UInt64
  pos : ℕ

/-- Loop of `sys_hashmap_oa_lp_iter_next` from bucket `i` on. -/
def scan : List OalpEntry → ℕ → Option (ℕ × OalpEntry)
  | [], _ => none
  | entry :: entries, i => if entry.state = .used then some (i, entry) else scan entries (i + 1)

/-- `sys_hashmap_oa_lp_iter_next`. -/
def iterNext (d : HashmapOaData) (it : Iterator) : Option Iterator :=
  let i := if it.pos = 0 then 0 else it.state
  (scan (d.buckets.drop i) i).map fun x => ⟨x.1 + 1, x.2.key, x.2.value, it.pos + 1⟩

/-- Loop of `sys_hashmap_foreach`, which ends when `pos` is the size; every turn adds one. -/
def foreachLoop (d : HashmapOaData) : ℕ → Iterator → Option (List (UInt64 × UInt64))
  | 0, _ => some []
  | left + 1, it =>
    (d.iterNext it).bind fun it =>
      (foreachLoop d left it).map fun entries => (it.key, it.value) :: entries

/-- `sys_hashmap_foreach` with `sys_hashmap_oa_lp_iter`. -/
def foreach (d : HashmapOaData) : Option (List (UInt64 × UInt64)) :=
  d.foreachLoop d.size ⟨0, 0, 0, 0⟩

def step (W : ℕ) (c : HashmapConfig) (hash : UInt64 → UInt32) (d : HashmapOaData) :
    HashmapOp → Option (HashmapOaData × HashmapOut)
  | .insert key value => d.insert W c hash key value
  | .remove key => d.remove W c hash key
  | .get key => some (d, .found (d.get hash key))
  | .clear => some (init, .visited (visit d.buckets d.size))
  | .foreach => d.foreach.map fun entries => (d, .visited entries)
  | .size => some (d, .size d.size)

/-- No `size_t` wraps around. -/
def Fits (W : ℕ) (d : HashmapOaData) : Prop := SizesFit W d.size d.nBuckets d.nTombstones

/-! ### When nothing goes wrong -/

/-- The slots that are tried for a key lead to the key or to an unused entry before any
tombstone. -/
def PathOk (hash : UInt64 → UInt32) (d : HashmapOaData) (key : UInt64) : Prop :=
  ∃ i < d.nBuckets,
    (∀ i' ≤ i, ∀ entry, d.buckets[probe d.nBuckets (hash key).toNat i']? = some entry →
      entry.state ≠ .tombstone) ∧
    ∃ entry, d.buckets[probe d.nBuckets (hash key).toNat i]? = some entry ∧
      (entry.state = .unused ∨ entry.state = .used ∧ entry.key = key)

/-- The table is to be rebuilt before an insertion. -/
def Grows (c : HashmapConfig) (d : HashmapOaData) : Prop :=
  d.nBuckets = 0 ∨ c.loadFactor < (d.size + 1 + d.nTombstones) * 100 / d.nBuckets

instance (c : HashmapConfig) (d : HashmapOaData) : Decidable (d.Grows c) :=
  inferInstanceAs (Decidable (_ ∨ _))

/-- A table with `size` entries is to be rebuilt after a removal. -/
def Shrinks (c : HashmapConfig) (size nBuckets : ℕ) : Prop :=
  shrunkTo size nBuckets = 0 ∨ size * 100 / shrunkTo size nBuckets ≤ c.loadFactor

instance (c : HashmapConfig) (size nBuckets : ℕ) : Decidable (Shrinks c size nBuckets) :=
  inferInstanceAs (Decidable (_ ∨ _))

/-- **The condition before an operation.** An insertion into a table that does not grow leads to its
key or to an unused entry before any tombstone; one that grows is not at the limit; and a table that
shrinks has no more entries than new buckets. -/
def OaOk (W : ℕ) (c : HashmapConfig) (hash : UInt64 → UInt32) (d : HashmapOaData) :
    HashmapOp → Prop
  | .insert key _ => (d.Grows c → ¬ d.AtLimit W c) ∧ (¬ d.Grows c → d.PathOk hash key)
  | .remove key =>
    key ∈ d.pairs.map Prod.fst → Shrinks c (d.size - 1) d.nBuckets →
      ¬ (d.size - 1 ≠ W - 1 ∧ d.size - 1 = c.maxSize) →
      d.size - 1 ≤ shrunkTo (d.size - 1) d.nBuckets
  | _ => True

end HashmapOaData

open HashmapOaData

/-! ### Searching -/

section searching

variable {buckets : List OalpEntry} {hash : UInt64 → UInt32}
  {d : HashmapOaData} {key value : UInt64} {entries : List (UInt64 × UInt64)}

/-- **The search** ends at the first entry that is accepted, or there is none. -/
theorem findLoop_cases (accept : OalpEntry → Bool) {a : ℕ} (hn : buckets.length = 2 ^ a) (left j : ℕ) :
    (findLoop accept buckets left j = none ∧ ∀ i < left, ∀ entry,
      buckets[probe buckets.length j i]? = some entry → accept entry = false) ∨
    ∃ i < left, ∃ entry, findLoop accept buckets left j = some (probe buckets.length j i) ∧
      buckets[probe buckets.length j i]? = some entry ∧ accept entry = true ∧
      ∀ i' < i, ∀ entry', buckets[probe buckets.length j i']? = some entry' →
        accept entry' = false := by
  induction left generalizing j with
  | zero => exact .inl ⟨rfl, fun i hi => absurd hi (Nat.not_lt_zero i)⟩
  | succ left ih =>
    have hmask : j &&& (buckets.length - 1) = probe buckets.length j 0 := by
      rw [hn, Nat.and_two_pow_sub_one_eq_mod, probe, add_zero]
    have hshift : ∀ i, probe buckets.length (probe buckets.length j 0 + 1) i =
        probe buckets.length j (i + 1) := by
      intro i
      rw [probe, probe, probe, add_zero, add_assoc, Nat.mod_add_mod, add_comm 1 i]
    have hlt : probe buckets.length j 0 < buckets.length :=
      Nat.mod_lt _ (hn ▸ Nat.two_pow_pos a)
    have hget := List.getElem?_eq_getElem hlt
    by_cases hacc : accept buckets[probe buckets.length j 0] = true
    · right
      refine ⟨0, by omega, _, ?_, hget, hacc, fun i' hi' => absurd hi' (Nat.not_lt_zero _)⟩
      simp only [findLoop, hmask, hget, bind_some, hacc, if_true]
    have hloop : findLoop accept buckets (left + 1) j =
        findLoop accept buckets left (probe buckets.length j 0 + 1) := by
      simp only [findLoop, hmask, hget, bind_some, if_neg hacc]
    have hzero : ∀ entry, buckets[probe buckets.length j 0]? = some entry →
        accept entry = false := by
      intro entry hentry
      rw [hget] at hentry
      obtain rfl := Option.some.inj hentry
      simpa using hacc
    rw [hloop]
    rcases ih (probe buckets.length j 0 + 1) with ⟨hnone, hall⟩ |
      ⟨i, hi, entry, hsome, hentry, hok, hbefore⟩
    · left
      refine ⟨hnone, fun i hi => ?_⟩
      cases i with
      | zero => exact hzero
      | succ i => exact hshift i ▸ hall i (by omega)
    right
    rw [hshift] at hsome hentry
    refine ⟨i + 1, by omega, entry, hsome, hentry, hok, fun i' hi' => ?_⟩
    cases i' with
    | zero => exact hzero
    | succ i' => exact hshift i' ▸ hbefore i' (by omega)

/-- The table holds the entries, and every key is found: no slot tried before it is unused. -/
structure OaHolds (hash : UInt64 → UInt32) (d : HashmapOaData)
    (entries : List (UInt64 × UInt64)) : Prop where
  perm : d.pairs.Perm entries
  nodup : (entries.map Prod.fst).Nodup
  size : d.size = entries.length
  pow : d.nBuckets = 0 ∨ ∃ a, d.nBuckets = 2 ^ a
  reach : ∀ j entry, d.buckets[j]? = some entry → entry.state = .used →
    Reaches (fun entry : OalpEntry => entry.state = .unused) d.buckets (hash entry.key).toNat j

variable {entry : OalpEntry}

theorem OalpEntry.pairs_used (h : entry.state = .used) :
    entry.pairs = [(entry.key, entry.value)] := if_pos h

theorem OalpEntry.pairs_of_ne (h : entry.state ≠ .used) :
    entry.pairs = [] := if_neg h

theorem mem_pairs : (key, value) ∈ d.pairs ↔ ∃ j : ℕ, d.buckets[j]? = some ⟨key, value, .used⟩ := by
  rw [pairs, mem_flatMap]
  constructor
  · rintro ⟨⟨key', value', state⟩, hmem, hpair⟩
    obtain ⟨j, hj⟩ := List.getElem?_of_mem hmem
    refine ⟨j, ?_⟩
    rw [OalpEntry.pairs] at hpair
    split_ifs at hpair with hused
    · simp only [mem_singleton, Prod.mk.injEq] at hpair hused
      rw [hj, hpair.1, hpair.2, hused]
    · cases hpair
  · rintro ⟨j, hj⟩
    exact ⟨_, mem_of_getElem? hj, by simp [OalpEntry.pairs]⟩

theorem OaHolds.slot_unique (h : OaHolds hash d entries) {j j' : ℕ} {entry' : OalpEntry}
    (hj : d.buckets[j]? = some entry) (hj' : d.buckets[j']? = some entry')
    (hused : entry.state = .used) (hused' : entry'.state = .used)
    (hkey : entry.key = entry'.key) : j = j' := by
  by_contra hne
  have hperm := (perm_others (f := OalpEntry.pairs) hj).symm.trans h.perm
  rw [OalpEntry.pairs_used hused] at hperm
  have hnodup := (hperm.map Prod.fst).nodup_iff.mpr h.nodup
  rw [singleton_append, map_cons, nodup_cons] at hnodup
  refine hnodup.1 (List.mem_map.mpr ⟨(entry'.key, entry'.value), ?_, hkey.symm⟩)
  exact mem_others (Ne.symm hne) hj' (by rw [OalpEntry.pairs_used hused']; simp)

theorem OaHolds.way (h : OaHolds hash d entries) (hmem : (key, value) ∈ entries) :
    ∃ i < d.nBuckets, d.buckets[probe d.nBuckets (hash key).toNat i]? = some ⟨key, value, .used⟩ ∧
      ∀ i' < i, ∀ entry, d.buckets[probe d.nBuckets (hash key).toNat i']? = some entry →
        entry.state ≠ .unused ∧ ¬ (entry.state = .used ∧ entry.key = key) := by
  obtain ⟨j, hj⟩ := mem_pairs.mp (h.perm.mem_iff.mpr hmem)
  obtain ⟨i, hi, rfl, hbefore⟩ := h.reach j _ hj rfl
  refine ⟨i, hi, hj, fun i' hi' entry hentry => ⟨hbefore i' hi' entry hentry, ?_⟩⟩
  rintro ⟨hused, hkey⟩
  have hslot := h.slot_unique hentry hj hused rfl hkey
  exact absurd (probe_inj (lt_trans hi' hi) hi hslot) (by omega)

/-- **The search for a key in the table** ends at its slot, or at a tombstone before it. -/
theorem OaHolds.find_of_mem (h : OaHolds hash d entries) (hmem : (key, value) ∈ entries)
    (tombstoneOk : Bool) :
    ∃ j entry, d.find hash key true true tombstoneOk = some j ∧ d.buckets[j]? = some entry ∧
      (entry = ⟨key, value, .used⟩ ∨ entry.state = .tombstone ∧ tombstoneOk = true) := by
  obtain ⟨i, hi, hslot, hbefore⟩ := h.way hmem
  obtain ⟨a, ha⟩ := h.pow.resolve_left (by omega)
  have hacc : OalpEntry.accept key true true tombstoneOk ⟨key, value, .used⟩ = true := by
    simp [OalpEntry.accept]
  rcases findLoop_cases (OalpEntry.accept key true true tombstoneOk) ha d.nBuckets
    (hash key).toNat with ⟨-, hall⟩ | ⟨i₁, hi₁, entry, hsome, hentry, hok, hfirst⟩
  · rw [hall i hi _ hslot] at hacc
    cases hacc
  refine ⟨_, entry, hsome, hentry, ?_⟩
  rcases lt_trichotomy i₁ i with hlt | rfl | hgt
  · obtain ⟨hunused, hother⟩ := hbefore i₁ hlt entry hentry
    right
    rcases hstate : entry.state with _ | _ | _
    · exact absurd hstate hunused
    · simp only [OalpEntry.accept, hstate, Bool.true_and, beq_iff_eq] at hok
      exact absurd ⟨hstate, hok⟩ hother
    · simpa [OalpEntry.accept, hstate] using hok
  · left
    exact Option.some.inj (hentry.symm.trans hslot)
  · rw [hfirst i hgt _ hslot] at hacc
    cases hacc

/-- **The search for a key that is not there** ends nowhere, at an unused slot or at a tombstone. -/
theorem OaHolds.find_of_notMem (h : OaHolds hash d entries) (hkey : key ∉ entries.map Prod.fst)
    (tombstoneOk : Bool) :
    d.find hash key true true tombstoneOk = none ∨
    ∃ j entry, d.find hash key true true tombstoneOk = some j ∧ d.buckets[j]? = some entry ∧
      (entry.state = .unused ∧ Reaches (fun entry : OalpEntry => entry.state = .unused) d.buckets
        (hash key).toNat j ∨ entry.state = .tombstone ∧ tombstoneOk = true) := by
  rcases h.pow with hn | ⟨a, ha⟩
  · left
    rw [find, hn, findLoop]
  rcases findLoop_cases (OalpEntry.accept key true true tombstoneOk) ha d.nBuckets
    (hash key).toNat with ⟨hnone, -⟩ | ⟨i, hi, entry, hsome, hentry, hok, hfirst⟩
  · exact .inl hnone
  right
  refine ⟨_, entry, hsome, hentry, ?_⟩
  rcases hstate : entry.state with _ | _ | _
  · left
    refine ⟨rfl, i, hi, rfl, fun i' hi' entry' hentry' hunused => ?_⟩
    have := hfirst i' hi' entry' hentry'
    rw [OalpEntry.accept, hunused] at this
    cases this
  · exfalso
    simp only [OalpEntry.accept, hstate, Bool.true_and, beq_iff_eq] at hok
    refine hkey (List.mem_map.mpr ⟨(key, entry.value), h.perm.mem_iff.mp ?_, rfl⟩)
    refine mem_pairs.mpr ⟨_, hentry.trans ?_⟩
    rw [← hok, ← hstate]
  · right
    simpa [OalpEntry.accept, hstate] using hok

/-- **An insertion finds no tombstone** exactly if the way of the key is free of them. -/
theorem pathOk_iff (hpow : d.nBuckets = 0 ∨ ∃ a, d.nBuckets = 2 ^ a) :
    d.PathOk hash key ↔ ∃ j entry, d.find hash key true true true = some j ∧
      d.buckets[j]? = some entry ∧ entry.state ≠ .tombstone := by
  rcases hpow with hn | ⟨a, ha⟩
  · constructor
    · rintro ⟨i, hi, -⟩
      omega
    · rintro ⟨j, entry, hfind, -⟩
      rw [find, hn, findLoop] at hfind
      cases hfind
  have hacc : ∀ entry : OalpEntry,
      OalpEntry.accept key true true true entry = false → entry.state = .used ∧ entry.key ≠ key := by
    intro entry h
    rcases hstate : entry.state with _ | _ | _ <;> simp_all [OalpEntry.accept]
  rcases findLoop_cases (OalpEntry.accept key true true true) ha d.nBuckets
    (hash key).toNat with ⟨hnone, hall⟩ | ⟨i, hi, entry, hsome, hentry, hok, hfirst⟩
  · constructor
    · rintro ⟨i, hi, -, entry, hentry, hstop⟩
      obtain ⟨hused, hne⟩ := hacc entry (hall i hi entry hentry)
      rcases hstop with hunused | ⟨-, hkey⟩
      · rw [hused] at hunused
        cases hunused
      · exact absurd hkey hne
    · rintro ⟨j, entry, hfind, -⟩
      rw [find, hnone] at hfind
      cases hfind
  constructor
  · rintro ⟨i', hi', hclean, entry', hentry', hstop⟩
    refine ⟨_, entry, hsome, hentry, ?_⟩
    -- the search does not go past the slot where the way ends
    have hle : i ≤ i' := by
      by_contra hlt
      obtain ⟨hused, hne⟩ := hacc entry' (hfirst i' (by omega) entry' hentry')
      rcases hstop with hunused | ⟨-, hkey⟩
      · rw [hused] at hunused
        cases hunused
      · exact hne hkey
    exact hclean i hle entry hentry
  rintro ⟨j, entry₁, hfind, hentry₁, hstate⟩
  rw [find, hsome] at hfind
  obtain rfl := Option.some.inj hfind
  obtain rfl : entry = entry₁ := Option.some.inj (hentry.symm.trans hentry₁)
  refine ⟨i, hi, fun i' hi' entry' hentry' => ?_, entry, hentry, ?_⟩
  · rcases Nat.lt_or_eq_of_le hi' with hlt | rfl
    · rw [(hacc entry' (hfirst i' hlt entry' hentry')).1]
      simp
    · obtain rfl : entry = entry' := Option.some.inj (hentry.symm.trans hentry')
      exact hstate
  rcases hs : entry.state with _ | _ | _
  · exact .inl rfl
  · simp only [OalpEntry.accept, hs, Bool.true_and, beq_iff_eq] at hok
    exact .inr ⟨rfl, hok⟩
  · exact absurd hs hstate

end searching

/-! ### Insertion -/

open OalpEntry (pairs_of_ne pairs_used accept zero)

section insertion

variable {W : ℕ} {c : HashmapConfig} {hash : UInt64 → UInt32} {d : HashmapOaData}
  {key value : UInt64} {entries : List (UInt64 × UInt64)} {j : ℕ} {entry entry' : OalpEntry}

theorem OaHolds.reach_set (h : OaHolds hash d entries) (hj : d.buckets[j]? = some entry)
    (hne : entry'.state ≠ .unused)
    (hreach : entry'.state = .used → Reaches (fun entry : OalpEntry => entry.state = .unused)
      d.buckets (hash entry'.key).toNat j) :
    ∀ i x, (d.buckets.set j entry')[i]? = some x → x.state = .used →
      Reaches (fun entry : OalpEntry => entry.state = .unused) (d.buckets.set j entry')
        (hash x.key).toNat i := by
  intro i x hx hused
  refine Reaches.set ?_ j hne
  rcases eq_or_ne j i with rfl | hne'
  · rw [List.getElem?_set_self (List.getElem?_eq_some_iff.mp hj).1] at hx
    obtain rfl := Option.some.inj hx
    exact hreach hused
  · rw [List.getElem?_set_ne hne'] at hx
    exact h.reach i x hx hused

/-- **An insertion of a new key** that meets no tombstone. -/
theorem OaHolds.insertNoRehash_new (h : OaHolds hash d entries)
    (hkey : key ∉ entries.map Prod.fst) (hsize : d.size + 1 < W)
    (hfind : d.find hash key true true true = some j) (hj : d.buckets[j]? = some entry)
    (hstate : entry.state ≠ .tombstone) (value : UInt64) :
    d.insertNoRehash W hash key value =
        some (⟨d.buckets.set j ⟨key, value, .used⟩, d.size + 1, d.nTombstones⟩, 1, entry.value) ∧
      OaHolds hash ⟨d.buckets.set j ⟨key, value, .used⟩, d.size + 1, d.nTombstones⟩
        ((key, value) :: entries) := by
  obtain ⟨hunused, hreach⟩ : entry.state = .unused ∧
      Reaches (fun entry : OalpEntry => entry.state = .unused) d.buckets (hash key).toNat j := by
    rcases h.find_of_notMem hkey true with hnone | ⟨j', entry₁, hfind', hj', hcases⟩
    · rw [hfind] at hnone
      cases hnone
    · obtain rfl : j = j' := Option.some.inj (hfind.symm.trans hfind')
      obtain rfl : entry = entry₁ := Option.some.inj (hj.symm.trans hj')
      exact hcases.resolve_right fun ht => hstate ht.1
  constructor
  · rw [insertNoRehash, hfind, bind_some, hj, map_some, hunused]
    simp [sizeInc_eq hsize]
  have hrest := (perm_others (f := OalpEntry.pairs) hj).symm.trans h.perm
  rw [pairs_of_ne (by simp [hunused]), nil_append] at hrest
  refine ⟨?_, nodup_cons.mpr ⟨hkey, h.nodup⟩, ?_, ?_, h.reach_set hj (by simp) fun _ => hreach⟩
  · exact (perm_others_set hj _).trans (hrest.cons (key, value))
  · rw [length_cons, h.size]
  · simpa [nBuckets] using h.pow

/-- **An insertion of a key in the table** that meets no tombstone. -/
theorem OaHolds.insertNoRehash_old (h : OaHolds hash d ((key, value) :: entries))
    (hfind : d.find hash key true true true = some j) (hj : d.buckets[j]? = some entry)
    (hstate : entry.state ≠ .tombstone) (newValue : UInt64) :
    d.insertNoRehash W hash key newValue =
        some (⟨d.buckets.set j ⟨key, newValue, .used⟩, d.size, d.nTombstones⟩, 0, value) ∧
      OaHolds hash ⟨d.buckets.set j ⟨key, newValue, .used⟩, d.size, d.nTombstones⟩
        ((key, newValue) :: entries) := by
  obtain rfl : entry = ⟨key, value, .used⟩ := by
    obtain ⟨j', entry₁, hfind', hj', hcases⟩ := h.find_of_mem (mem_cons_self) true
    obtain rfl : j = j' := Option.some.inj (hfind.symm.trans hfind')
    obtain rfl : entry = entry₁ := Option.some.inj (hj.symm.trans hj')
    exact hcases.resolve_right fun ht => hstate ht.1
  constructor
  · rw [insertNoRehash, hfind, bind_some, hj, map_some]
    simp
  have hrest := (perm_others (f := OalpEntry.pairs) hj).symm.trans h.perm
  have hreach := h.reach j _ hj rfl
  rw [pairs_used rfl, singleton_append, perm_cons] at hrest
  refine ⟨?_, h.nodup, h.size, ?_, h.reach_set hj (by simp) fun _ => hreach⟩
  · exact (perm_others_set hj _).trans (hrest.cons (key, newValue))
  · simpa [nBuckets] using h.pow

theorem OaHolds.length_le (h : OaHolds hash d entries) : entries.length ≤ d.nBuckets := by
  rw [← h.perm.length_eq, pairs, length_flatMap, nBuckets]
  refine (sum_le_card_nsmul _ 1 fun n hn => ?_).trans_eq (by simp)
  obtain ⟨entry, -, rfl⟩ := List.mem_map.mp hn
  rw [OalpEntry.pairs]
  split_ifs <;> simp

def NoTombstones (d : HashmapOaData) : Prop := ∀ entry ∈ d.buckets, entry.state ≠ .tombstone

theorem OaHolds.find_of_lt (h : OaHolds hash d entries) (hno : NoTombstones d)
    (hlt : entries.length < d.nBuckets) (key : UInt64) :
    ∃ j entry, d.find hash key true true true = some j ∧ d.buckets[j]? = some entry := by
  obtain ⟨a, ha⟩ := h.pow.resolve_left (by omega)
  rcases findLoop_cases (accept key true true true) ha d.nBuckets
    (hash key).toNat with ⟨-, hall⟩ | ⟨i, hi, entry, hsome, hentry, -⟩
  · -- every entry was tried, so every entry is used
    exfalso
    have hused : ∀ entry ∈ d.buckets, entry.pairs.length = 1 := by
      intro entry hmem
      obtain ⟨j, hj⟩ := List.getElem?_of_mem hmem
      obtain ⟨i, hi, rfl⟩ := exists_probe (hash key).toNat (List.getElem?_eq_some_iff.mp hj).1
      have hrej := hall i hi entry hj
      rcases hs : entry.state with _ | _ | _
      · simp [accept, hs] at hrej
      · rw [pairs_used hs, length_singleton]
      · exact absurd hs (hno entry hmem)
    have hlen : d.pairs.length = d.nBuckets := by
      rw [pairs, length_flatMap, map_congr_left hused]
      simp [nBuckets]
    rw [h.perm.length_eq] at hlen
    omega
  · exact ⟨_, entry, hsome, hentry⟩

theorem noTombstones_set (hno : NoTombstones d) (j size nTombstones : ℕ)
    (hstate : entry.state ≠ .tombstone) :
    NoTombstones ⟨d.buckets.set j entry, size, nTombstones⟩ := by
  intro x hx
  rcases mem_or_eq_of_mem_set hx with hx | rfl
  · exact hno x hx
  · exact hstate

theorem reinsert_cons_used (hused : entry.state = .used) (old : List OalpEntry) (left : ℕ)
    (d : HashmapOaData) :
    reinsert W hash (entry :: old) (left + 1) d =
      (d.insertNoRehash W hash entry.key entry.value).bind fun x =>
        reinsert W hash old left x.1 := if_pos hused

/-- **The entries of a table are moved to another one** exactly if it is large enough. -/
theorem reinsert_spec (old : List OalpEntry) (h : OaHolds hash d entries) (hno : NoTombstones d)
    (hnodup : ((old.flatMap OalpEntry.pairs ++ entries).map Prod.fst).Nodup)
    (hW : d.size + (old.flatMap OalpEntry.pairs).length < W) :
    (entries.length + (old.flatMap OalpEntry.pairs).length ≤ d.nBuckets →
      ∃ d', reinsert W hash old (old.flatMap OalpEntry.pairs).length d = some d' ∧
        OaHolds hash d' (old.flatMap OalpEntry.pairs ++ entries) ∧ NoTombstones d' ∧
        d'.nBuckets = d.nBuckets) ∧
    (∀ d', reinsert W hash old (old.flatMap OalpEntry.pairs).length d = some d' →
      entries.length + (old.flatMap OalpEntry.pairs).length ≤ d.nBuckets) := by
  induction old generalizing d entries with
  | nil => exact ⟨fun _ => ⟨d, rfl, h, hno, rfl⟩, fun _ _ => h.length_le⟩
  | cons entry old ih =>
    by_cases hused : entry.state = .used
    · rw [flatMap_cons, pairs_used hused, singleton_append] at hnodup hW ⊢
      rw [length_cons] at hW ⊢
      rw [cons_append, map_cons, nodup_cons] at hnodup
      have hkey : entry.key ∉ entries.map Prod.fst := by
        intro hmem
        refine hnodup.1 ?_
        rw [map_append]
        exact mem_append_right _ hmem
      -- what the rest of the loop does after an insertion that succeeds
      have hrest : ∀ j entry₁, d.find hash entry.key true true true = some j →
          d.buckets[j]? = some entry₁ → _ := fun j entry₁ hfind hj => by
        have hstate := hno entry₁ (mem_of_getElem? hj)
        obtain ⟨heq, h'⟩ := h.insertNoRehash_new (W := W) hkey (by omega) hfind hj hstate
          entry.value
        have hperm : ((old.flatMap OalpEntry.pairs ++ (entry.key, entry.value) :: entries).map
            Prod.fst).Nodup := by
          refine ((perm_middle.map Prod.fst).nodup_iff).mpr ?_
          rw [map_cons, nodup_cons]
          exact hnodup
        exact And.intro heq (ih h' (noTombstones_set hno _ _ _ (by simp)) hperm
          (by simp only; omega))
      rw [reinsert_cons_used hused]
      constructor
      · intro hle
        obtain ⟨j, entry₁, hfind, hj⟩ := h.find_of_lt hno (by omega) entry.key
        obtain ⟨heq, hmove, -⟩ := hrest j entry₁ hfind hj
        obtain ⟨d', heq', h', hno', hn'⟩ := hmove (by
          simp only [nBuckets, length_set, length_cons] at hle ⊢
          omega)
        refine ⟨d', by rw [heq, bind_some, heq'], ?_, hno', ?_⟩
        · refine ⟨h'.perm.trans perm_middle, ?_, ?_, h'.pow, h'.reach⟩
          · rw [cons_append, map_cons, nodup_cons]
            exact hnodup
          · rw [h'.size, perm_middle.length_eq, cons_append]
        · rw [hn', nBuckets, length_set, nBuckets]
      intro d' heq'
      obtain ⟨x, hx, hloop⟩ := bind_eq_some_iff.mp heq'
      obtain ⟨j, hfind, hx⟩ := bind_eq_some_iff.mp hx
      obtain ⟨entry₁, hj, rfl⟩ := map_eq_some_iff.mp hx
      obtain ⟨heq, -, hback⟩ := hrest j entry₁ hfind hj
      rw [insertNoRehash, hfind, bind_some, hj, map_some, Option.some.injEq] at heq
      rw [heq] at hloop
      have := hback d' hloop
      simp only [nBuckets, length_set, length_cons] at this ⊢
      omega
    rw [flatMap_cons, pairs_of_ne hused, nil_append] at hnodup hW ⊢
    have hskip : reinsert W hash (entry :: old) (old.flatMap OalpEntry.pairs).length d =
        reinsert W hash old (old.flatMap OalpEntry.pairs).length d := by
      rcases hlen : (old.flatMap OalpEntry.pairs).length with _ | left
      · cases old <;> rfl
      · exact if_neg hused
    rw [hskip]
    exact ih h hno hnodup hW

variable {n : ℕ}

theorem oaHolds_replicate (hash : UInt64 → UInt32) (hpow : n = 0 ∨ ∃ a, n = 2 ^ a)
    (nTombstones : ℕ) :
    OaHolds hash ⟨List.replicate n zero, 0, nTombstones⟩ [] := by
  refine ⟨?_, nodup_nil, rfl, by simpa [nBuckets] using hpow, fun j entry hj hused => ?_⟩
  · simp [pairs, OalpEntry.pairs, zero]
  · obtain rfl := eq_of_mem_replicate (mem_of_getElem? hj)
    cases hused

/-- **A table is rebuilt** exactly if its entries fit into the new one. -/
theorem OaHolds.rebuild (h : OaHolds hash d entries) (hpow : n = 0 ∨ ∃ a, n = 2 ^ a)
    (hW : d.size < W) (nTombstones : ℕ) :
    (d.size ≤ n → ∃ d', reinsert W hash d.buckets d.size
        ⟨List.replicate n zero, 0, nTombstones⟩ = some d' ∧
      OaHolds hash d' entries ∧ NoTombstones d' ∧ d'.nBuckets = n) ∧
    (∀ d', reinsert W hash d.buckets d.size
      ⟨List.replicate n zero, 0, nTombstones⟩ = some d' → d.size ≤ n) := by
  have hlen : (d.buckets.flatMap OalpEntry.pairs).length = d.size := by
    rw [h.size, ← h.perm.length_eq, pairs]
  have hno : NoTombstones ⟨List.replicate n zero, 0, nTombstones⟩ := by
    intro entry hentry
    obtain rfl := eq_of_mem_replicate hentry
    simp [zero]
  have hnodup : ((d.buckets.flatMap OalpEntry.pairs ++ []).map Prod.fst).Nodup := by
    rw [append_nil]
    exact (h.perm.map Prod.fst).nodup_iff.mpr h.nodup
  obtain ⟨hmove, hback⟩ := reinsert_spec (W := W) d.buckets
    (oaHolds_replicate hash hpow nTombstones) hno hnodup (by simpa [hlen] using hW)
  simp only [hlen, nBuckets, length_replicate, length_nil, zero_add, append_nil] at hmove hback
  refine ⟨fun hle => ?_, hback⟩
  obtain ⟨d', heq, h', hno', hn'⟩ := hmove hle
  refine ⟨d', heq, ⟨h'.perm.trans h.perm, h.nodup, ?_, h'.pow, h'.reach⟩, hno', hn'⟩
  rw [h'.size, hlen, h.size]

end insertion

/-! ### Refinement -/

/-- The table stands for a finite map; without entries it has no buckets. -/
structure OaRep (c : HashmapConfig) (hash : UInt64 → UInt32) (d : HashmapOaData) (m : KeyMap) :
    Prop where
  holds : OaHolds hash d d.pairs
  lists : Lists m d.pairs
  empty : d.size = 0 → d.nBuckets = 0
  limit : d.nBuckets ≠ 0 → c.maxSize ≠ 0

section refinement

variable {W : ℕ} {c : HashmapConfig} {hash : UInt64 → UInt32} {d d' : HashmapOaData} {m : KeyMap}
  {entries entries' : List (UInt64 × UInt64)} {key value : UInt64} {j : ℕ} {entry : OalpEntry}

theorem OaHolds.congr (h : OaHolds hash d entries) (hp : entries.Perm entries') :
    OaHolds hash d entries' :=
  ⟨h.perm.trans hp, (hp.map _).nodup_iff.mp h.nodup, h.size.trans hp.length_eq, h.pow, h.reach⟩

theorem OaHolds.self (h : OaHolds hash d entries) : OaHolds hash d d.pairs := h.congr h.perm.symm

theorem oaRep_init : OaRep c hash init ∅ where
  holds := ⟨.refl _, nodup_nil, rfl, .inl rfl, by simp [init]⟩
  lists := Lists.nil
  empty := fun _ => rfl
  limit := fun h => absurd rfl h

theorem OaRep.size_eq (h : OaRep c hash d m) : d.size = m.keys.card :=
  h.holds.size.trans h.lists.card

theorem OaRep.nBuckets_ne_zero (h : OaRep c hash d m) (hsize : d.size ≠ 0) : d.nBuckets ≠ 0 := by
  have := h.holds.length_le
  rw [← h.holds.size] at this
  omega

/-! #### Insertion -/

/-- What an insertion does to a table that stands for a finite map, if it meets no tombstone. -/
theorem OaHolds.insert_behaves (h : OaHolds hash d entries) (hl : Lists m entries)
    (hsize : d.size + 1 < W) (hfind : d.find hash key true true true = some j)
    (hj : d.buckets[j]? = some entry) (hstate : entry.state ≠ .tombstone) (value : UInt64) :
    ∃ x, d.insertNoRehash W hash key value = some x ∧
      Behaves m (.insert key value) (.inserted x.2.1 x.2.2) (m.insert key value) ∧
      OaHolds hash x.1 x.1.pairs ∧ Lists (m.insert key value) x.1.pairs ∧
      x.1.nBuckets = d.nBuckets ∧ x.1.size ≠ 0 := by
  rcases hkey : m.lookup key with _ | oldValue
  · obtain ⟨heq, h'⟩ := h.insertNoRehash_new (W := W) (hl.notMem_iff.mpr hkey) hsize hfind hj
      hstate value
    refine ⟨_, heq, .insertNew hkey, h'.self, (hl.cons hkey value).perm h'.perm.symm, ?_,
      Nat.succ_ne_zero _⟩
    simp [nBuckets]
  have hmem := (hl.mem_iff key oldValue).mpr hkey
  have hperm := perm_cons_erase hmem
  obtain ⟨heq, h'⟩ := (h.congr hperm).insertNoRehash_old (W := W) hfind hj hstate value
  refine ⟨_, heq, .insertOld hkey, h'.self, ((hl.perm hperm).replace value).perm h'.perm.symm,
    ?_, ?_⟩
  · simp [nBuckets]
  · rw [h'.size]
    simp

theorem OaRep.rehash_grow (h : OaRep c hash d m) (hc : c.Valid) (hW : 2 ^ 16 ≤ W)
    (hfit : d.Fits W) :
    (¬ d.Grows c → d.rehash W c hash true = some (d, 0)) ∧
    (d.Grows c → d.AtLimit W c → d.rehash W c hash true = some (d, -ENOSPC)) ∧
    (d.Grows c → ¬ d.AtLimit W c → ∃ d', d.rehash W c hash true = some (d', 0) ∧
      OaHolds hash d' d.pairs ∧ NoTombstones d' ∧ d.size < d'.nBuckets) := by
  have hinit := hc.initial_le
  obtain ⟨hs, hn⟩ := id hfit
  have hshould : sysHashmapShouldRehash W c d.size d.nBuckets true d.nTombstones =
      (decide (d.Grows c), grownTo c d.size d.nBuckets) :=
    shouldRehash_grow hfit fun h0 => by
      rw [h.empty h0]
      omega
  refine ⟨fun hg => ?_, fun hg hlimit => ?_, fun hg hlimit => ?_⟩
  · simp only [HashmapOaData.rehash, hshould]
    exact if_pos (decide_eq_false hg)
  · simp only [HashmapOaData.rehash, hshould]
    rw [if_neg (by simpa using hg), if_pos hlimit]
  have hto : d.size < grownTo c d.size d.nBuckets ∧ (grownTo c d.size d.nBuckets = 0 ∨
      ∃ a, grownTo c d.size d.nBuckets = 2 ^ a) := by
    rw [grownTo]
    split_ifs with h0
    · rw [h.empty h0, h0, zero_add]
      obtain ⟨a, -, ha⟩ := hc.initial
      exact ⟨by omega, .inr ⟨a, ha⟩⟩
    have hpos := h.nBuckets_ne_zero h0
    have hle := h.holds.length_le
    rw [← h.holds.size] at hle
    obtain ⟨a, ha⟩ := h.holds.pow.resolve_left hpos
    exact ⟨by omega, .inr ⟨a + 1, by rw [ha, pow_succ, Nat.mul_comm]⟩⟩
  obtain ⟨d', heq, h', hno', hn'⟩ := (h.holds.rebuild (W := W) hto.2 (by omega)
    d.nTombstones).1 hto.1.le
  refine ⟨d', ?_, h', hno', hn' ▸ hto.1⟩
  simp only [HashmapOaData.rehash, hshould]
  rw [if_neg (by simpa using hg), if_neg hlimit, heq, map_some]

theorem OaRep.insert (h : OaRep c hash d m) (hc : c.Valid) (hW : 2 ^ 16 ≤ W) (hfit : d.Fits W)
    (hok : d.OaOk W c hash (.insert key value)) :
    ∃ x m', d.insert W c hash key value = some x ∧
      Behaves m (.insert key value) x.2 m' ∧ OaRep c hash x.1 m' := by
  obtain ⟨hstay, -, hgrow⟩ := h.rehash_grow hc hW hfit
  obtain ⟨hs, -⟩ := id hfit
  -- the table into which the key is inserted, and its slot
  obtain ⟨d₁, heq₁, h₁, hlimit, j, entry, hfind, hj, hstate⟩ : ∃ d₁,
      d.rehash W c hash true = some (d₁, 0) ∧ OaHolds hash d₁ d.pairs ∧ c.maxSize ≠ 0 ∧
      ∃ j entry, d₁.find hash key true true true = some j ∧ d₁.buckets[j]? = some entry ∧
        entry.state ≠ .tombstone := by
    by_cases hg : d.Grows c
    · have hlimit := hok.1 hg
      obtain ⟨d₁, heq₁, h₁, hno, hlt⟩ := hgrow hg hlimit
      rw [h.holds.size] at hlt
      obtain ⟨j, entry, hfind, hj⟩ := h₁.find_of_lt hno hlt key
      refine ⟨d₁, heq₁, h₁, ?_, j, entry, hfind, hj, hno entry (mem_of_getElem? hj)⟩
      by_cases h0 : d.nBuckets = 0
      · intro hmax
        have hsize := h.holds.length_le
        rw [← h.holds.size] at hsize
        exact hlimit ⟨by omega, by omega⟩
      · exact h.limit h0
    · refine ⟨d, hstay hg, h.holds, h.limit fun h0 => hg (.inl h0), ?_⟩
      exact (pathOk_iff h.holds.pow).mp (hok.2 hg)
  have hsize₁ : d₁.size = d.size := by rw [h₁.size, h.holds.size]
  obtain ⟨x, heq, hbehaves, hx, hlists, -, hsize⟩ := h₁.insert_behaves (W := W) h.lists (by omega)
    hfind hj hstate value
  refine ⟨(x.1, .inserted x.2.1 x.2.2), _, ?_, hbehaves, hx, hlists, fun h0 => absurd h0 hsize,
    fun _ => hlimit⟩
  rw [HashmapOaData.insert, heq₁, bind_some, if_neg (lt_irrefl 0), heq, map_some]

variable {x : HashmapOaData × HashmapOut}

variable {m' : KeyMap} {rest : List (UInt64 × UInt64)} {op : HashmapOp}

/-- **Without the condition** an insertion does not behave. -/
theorem OaRep.ok_of_insert (h : OaRep c hash d m) (hc : c.Valid) (hW : 2 ^ 16 ≤ W)
    (hfit : d.Fits W)
    (heq : d.insert W c hash key value = some x)
    (hbehaves : Behaves m (.insert key value) x.2 m') (hsize : x.1.size = m'.keys.card) :
    d.OaOk W c hash (.insert key value) := by
  obtain ⟨hstay, hfull, -⟩ := h.rehash_grow hc hW hfit
  refine ⟨fun hg hlimit => ?_, fun hg => ?_⟩
  · rw [HashmapOaData.insert, hfull hg hlimit, bind_some,
      if_pos (show (-ENOSPC : ℤ) < 0 by decide)] at heq
    obtain rfl := Option.some.inj heq
    generalize hret : (-ENOSPC : ℤ) = ret at hbehaves
    cases hbehaves <;> exact absurd hret (by decide)
  rw [HashmapOaData.insert, hstay hg, bind_some, if_neg (lt_irrefl 0)] at heq
  obtain ⟨y, hy, rfl⟩ := map_eq_some_iff.mp heq
  obtain ⟨j, hfind, hy⟩ := bind_eq_some_iff.mp hy
  obtain ⟨entry, hj, rfl⟩ := map_eq_some_iff.mp hy
  refine (pathOk_iff h.holds.pow).mpr ⟨j, entry, hfind, hj, fun ht => ?_⟩
  -- a tombstone: 0 is returned and the size grows
  simp only [ht, reduceCtorEq, if_false] at hbehaves hsize
  have hs := hfit.1
  rw [sizeInc_eq (by omega), h.size_eq] at hsize
  generalize hret : (0 : ℤ) = ret at hbehaves
  cases hbehaves with
  | insertNew => cases hret
  | insertOld hkey =>
    have hmem := (h.lists.mem_iff _ _).mpr hkey
    have hperm := perm_cons_erase hmem
    have hcard := ((h.lists.perm hperm).replace value).card
    rw [← hcard, ← h.lists.card, hperm.length_eq, length_cons, length_cons] at hsize
    omega

/-! #### Removal -/

theorem OaRep.lookup_some (h : OaRep c hash d m) (hkey : m.lookup key = some value) :
    ∃ j, d.buckets[j]? = some ⟨key, value, .used⟩ ∧
      d.lookup hash key = some (j, ⟨key, value, .used⟩) := by
  have hmem := (h.lists.mem_iff key value).mpr hkey
  obtain ⟨j, entry, hfind, hj, hcases⟩ := h.holds.find_of_mem hmem false
  obtain rfl := hcases.resolve_right fun ht => Bool.false_ne_true ht.2
  refine ⟨j, hj, ?_⟩
  rw [HashmapOaData.lookup, hfind, bind_some, hj, bind_some, if_neg (by simp)]

theorem OaRep.lookup_none (h : OaRep c hash d m) (hkey : m.lookup key = none) :
    d.lookup hash key = none := by
  rcases h.holds.find_of_notMem (h.lists.notMem_iff.mpr hkey) false with hnone |
    ⟨j, entry, hfind, hj, hcases⟩
  · rw [HashmapOaData.lookup, hnone, bind_none]
  · obtain ⟨hunused, -⟩ := hcases.resolve_right fun ht => Bool.false_ne_true ht.2
    rw [HashmapOaData.lookup, hfind, bind_some, hj, bind_some, if_pos hunused]

theorem OaRep.get (h : OaRep c hash d m) (key : UInt64) : d.get hash key = m.lookup key := by
  rcases hkey : m.lookup key with _ | value
  · rw [HashmapOaData.get, h.lookup_none hkey, map_none]
  · obtain ⟨_, -, hlookup⟩ := h.lookup_some hkey
    rw [HashmapOaData.get, hlookup, map_some]

def withTombstone (W : ℕ) (d : HashmapOaData) (j : ℕ) (key value : UInt64) : HashmapOaData :=
  ⟨d.buckets.set j ⟨key, value, .tombstone⟩, sizeDec W d.size, sizeInc W d.nTombstones⟩

theorem OaRep.withTombstone (h : OaRep c hash d m) (hfit : d.Fits W)
    (hj : d.buckets[j]? = some ⟨key, value, .used⟩) :
    ∃ rest, d.pairs.Perm ((key, value) :: rest) ∧
      OaHolds hash (withTombstone W d j key value) rest ∧
      (withTombstone W d j key value).size = d.size - 1 ∧
      (withTombstone W d j key value).nBuckets = d.nBuckets ∧ 0 < d.size := by
  have hrest : d.pairs.Perm ((key, value) :: others OalpEntry.pairs d.buckets j) := by
    have := perm_others (f := OalpEntry.pairs) hj
    rwa [pairs_used rfl, singleton_append] at this
  have hs := hfit.1
  have hsize : d.size = (others OalpEntry.pairs d.buckets j).length + 1 := by
    rw [h.holds.size, hrest.length_eq, length_cons]
  have hdec : sizeDec W d.size = d.size - 1 := sizeDec_eq (by omega) (by omega)
  refine ⟨others OalpEntry.pairs d.buckets j, hrest, ⟨?_, ?_, ?_, ?_, ?_⟩, hdec,
    by simp [TlZephyr.withTombstone, nBuckets], by omega⟩
  · have := perm_others_set (f := OalpEntry.pairs) hj ⟨key, value, .tombstone⟩
    rwa [pairs_of_ne (by simp), nil_append] at this
  · have := (hrest.map Prod.fst).nodup_iff.mp h.lists.nodup
    rw [map_cons, nodup_cons] at this
    exact this.2
  · exact hdec.trans (by omega)
  · simpa [TlZephyr.withTombstone, nBuckets] using h.holds.pow
  · exact h.holds.reach_set hj (by simp) fun hused => by cases hused

theorem OaHolds.rehash_shrink (h : OaHolds hash d entries) (hsize : d.size * 100 < W)
    (hn : d.nBuckets < W) :
    (¬ Shrinks c d.size d.nBuckets → d.rehash W c hash false = some (d, 0)) ∧
    (Shrinks c d.size d.nBuckets → d.AtLimit W c → d.rehash W c hash false = some (d, -ENOSPC)) ∧
    (Shrinks c d.size d.nBuckets → ¬ d.AtLimit W c →
      (d.size ≤ shrunkTo d.size d.nBuckets → ∃ d', d.rehash W c hash false = some (d', 0) ∧
        OaHolds hash d' entries ∧ d'.nBuckets = shrunkTo d.size d.nBuckets) ∧
      (∀ x, d.rehash W c hash false = some x → d.size ≤ shrunkTo d.size d.nBuckets)) := by
  have hshould : sysHashmapShouldRehash W c d.size d.nBuckets false d.nTombstones =
      (decide (Shrinks c d.size d.nBuckets), shrunkTo d.size d.nBuckets) :=
    shouldRehash_shrink hsize hn d.nTombstones
  have hpow : shrunkTo d.size d.nBuckets = 0 ∨ ∃ a, shrunkTo d.size d.nBuckets = 2 ^ a := by
    rw [shrunkTo]
    split_ifs
    · exact .inl rfl
    · rcases h.pow with h0 | ⟨_ | a, ha⟩
      · exact .inl (by rw [h0])
      · exact .inl (by rw [ha]; rfl)
      · exact .inr ⟨a, by rw [ha, pow_succ, Nat.mul_div_cancel _ (by decide)]⟩
  obtain ⟨hmove, hback⟩ := h.rebuild (W := W) hpow (by omega) d.nTombstones
  refine ⟨fun hg => ?_, fun hg hlimit => ?_, fun hg hlimit => ?_⟩
  · simp only [HashmapOaData.rehash, hshould]
    exact if_pos (decide_eq_false hg)
  · simp only [HashmapOaData.rehash, hshould]
    rw [if_neg (by simpa using hg), if_pos hlimit]
  have hre : d.rehash W c hash false = (reinsert W hash d.buckets d.size
      ⟨List.replicate (shrunkTo d.size d.nBuckets) zero, 0, d.nTombstones⟩).map
      fun d => (d, 0) := by
    simp only [HashmapOaData.rehash, hshould]
    rw [if_neg (by simpa using hg), if_neg hlimit]
  rw [hre]
  constructor
  · intro hle
    obtain ⟨d', heq, h', -, hn'⟩ := hmove hle
    exact ⟨d', by rw [heq, map_some], h', hn'⟩
  · intro x hx
    obtain ⟨d', heq, -⟩ := map_eq_some_iff.mp hx
    exact hback d' heq

theorem OaRep.remove_absent (h : OaRep c hash d m) (hkey : m.lookup key = none) :
    d.remove W c hash key = some (d, .found none) := by
  simp only [HashmapOaData.remove, h.lookup_none hkey]

theorem OaRep.remove_present (h : OaRep c hash d m) (hkey : m.lookup key = some value) :
    ∃ j, d.buckets[j]? = some ⟨key, value, .used⟩ ∧ d.remove W c hash key =
      ((TlZephyr.withTombstone W d j key value).rehash W c hash false).map
        fun x => (x.1, .found (some value)) := by
  obtain ⟨j, hj, hlookup⟩ := h.lookup_some hkey
  refine ⟨j, hj, ?_⟩
  simp only [HashmapOaData.remove, hlookup, TlZephyr.withTombstone]

theorem OaRep.remove (h : OaRep c hash d m) (hfit : d.Fits W)
    (hok : d.OaOk W c hash (.remove key)) :
    ∃ x, d.remove W c hash key = some x ∧ x.2 = .found (m.lookup key) ∧
      OaRep c hash x.1 (m.erase key) := by
  rcases hkey : m.lookup key with _ | value
  · refine ⟨_, h.remove_absent hkey, rfl, ?_⟩
    rwa [erase_of_lookup_eq_none hkey]
  obtain ⟨j, hj, heq⟩ := h.remove_present (W := W) hkey
  obtain ⟨rest, hperm, h₁, hsize₁, hn₁, hpos⟩ := h.withTombstone hfit hj
  obtain ⟨hs, hn⟩ := hfit
  have hlimit := h.limit (h.nBuckets_ne_zero (by omega))
  have hlists := (h.lists.perm hperm).tail
  obtain ⟨hstay, hfull, hshrink⟩ := h₁.rehash_shrink (c := c) (W := W) (by omega) (by omega)
  rw [hsize₁, hn₁] at hstay hfull hshrink
  -- the table stays as it is, or it is rebuilt
  have hrep : ∃ x, (TlZephyr.withTombstone W d j key value).rehash W c hash false = some x ∧
      OaHolds hash x.1 rest ∧ (x.1.size = 0 → x.1.nBuckets = 0) := by
    by_cases hg : Shrinks c (d.size - 1) d.nBuckets
    · by_cases hl : (TlZephyr.withTombstone W d j key value).AtLimit W c
      · refine ⟨_, hfull hg hl, h₁, fun h0 => absurd (hl.2.symm.trans h0) hlimit⟩
      have hle := hok (List.mem_map.mpr ⟨_, hperm.mem_iff.mpr mem_cons_self, rfl⟩) hg
        (by rwa [AtLimit, hsize₁] at hl)
      obtain ⟨d', heq', h', hn'⟩ := (hshrink hg hl).1 hle
      refine ⟨_, heq', h', fun h0 => ?_⟩
      have hs' : d'.size = d.size - 1 := by rw [h'.size, ← h₁.size, hsize₁]
      rw [hn', shrunkTo, if_pos (hs' ▸ h0)]
    · refine ⟨_, hstay hg, h₁, fun h0 => absurd (.inl ?_) hg⟩
      rw [shrunkTo, if_pos (hsize₁ ▸ h0)]
  obtain ⟨x, hx, hholds, hempty⟩ := hrep
  refine ⟨_, by rw [heq, hx, map_some], rfl, hholds.self, hlists.perm hholds.perm.symm,
    hempty, fun _ => hlimit⟩

/-- **Without the condition** a removal accesses a null pointer. -/
theorem OaRep.ok_of_remove (h : OaRep c hash d m) (hfit : d.Fits W)
    (heq : d.remove W c hash key = some x) :
    d.OaOk W c hash (.remove key) := by
  intro hmem hg hlimit
  obtain ⟨value, hkey⟩ : ∃ value, m.lookup key = some value := by
    rw [← ne_none_iff_exists']
    exact fun hnone => h.lists.notMem_iff.mpr hnone hmem
  obtain ⟨j, hj, heq'⟩ := h.remove_present (W := W) hkey
  obtain ⟨rest, -, h₁, hsize₁, hn₁, -⟩ := h.withTombstone hfit hj
  obtain ⟨hs, hn⟩ := hfit
  obtain ⟨-, -, hshrink⟩ := h₁.rehash_shrink (c := c) (W := W) (by omega) (by omega)
  rw [hsize₁, hn₁] at hshrink
  rw [heq'] at heq
  obtain ⟨y, hy, -⟩ := map_eq_some_iff.mp heq
  exact (hshrink hg (by rwa [AtLimit, hsize₁])).2 y hy

/-! #### Iteration -/

theorem scan_eq {buckets : List OalpEntry} (i : ℕ)
    (h : buckets.flatMap OalpEntry.pairs = (key, value) :: rest) :
    ∃ k entry, scan buckets i = some (i + k, entry) ∧ entry.key = key ∧ entry.value = value ∧
      (buckets.drop (k + 1)).flatMap OalpEntry.pairs = rest := by
  induction buckets generalizing i with
  | nil => cases h
  | cons entry buckets ih =>
    by_cases hused : entry.state = .used
    · rw [flatMap_cons, pairs_used hused, singleton_append] at h
      obtain ⟨hpair, hrest⟩ := List.cons.inj h
      obtain ⟨hkey, hvalue⟩ := Prod.mk.inj hpair
      exact ⟨0, entry, if_pos hused, hkey, hvalue, hrest⟩
    · rw [flatMap_cons, pairs_of_ne hused, nil_append] at h
      obtain ⟨k, entry', hscan, hkey, hvalue, hrest⟩ := ih (i + 1) h
      refine ⟨k + 1, entry', ?_, hkey, hvalue, hrest⟩
      rw [scan, if_neg hused, hscan, show i + (k + 1) = i + 1 + k by omega]

/-- **An iteration** visits what is left, one entry after the other. -/
theorem oaForeachLoop_eq {it : Iterator}
    (h : (d.buckets.drop (if it.pos = 0 then 0 else it.state)).flatMap OalpEntry.pairs = rest) :
    d.foreachLoop rest.length it = some rest := by
  induction rest generalizing it with
  | nil => rfl
  | cons pair rest ih =>
    obtain ⟨k, entry, hscan, hkey, hvalue, hrest⟩ :=
      scan_eq (if it.pos = 0 then 0 else it.state) h
    have hnext : d.iterNext it = some ⟨(if it.pos = 0 then 0 else it.state) + k + 1, entry.key,
        entry.value, it.pos + 1⟩ := by
      simp only [iterNext, hscan, map_some]
    rw [drop_drop, ← add_assoc] at hrest
    rw [length_cons, foreachLoop, hnext, bind_some, ih, map_some, hkey, hvalue]
    simpa using hrest

theorem OaRep.foreach (h : OaRep c hash d m) : d.foreach = some d.pairs := by
  rw [HashmapOaData.foreach, h.holds.size]
  exact oaForeachLoop_eq rfl

theorem visit_eq (buckets : List OalpEntry) :
    visit buckets (buckets.flatMap OalpEntry.pairs).length = buckets.flatMap OalpEntry.pairs := by
  induction buckets with
  | nil => rfl
  | cons entry buckets ih =>
    by_cases hused : entry.state = .used
    · rw [flatMap_cons, pairs_used hused, singleton_append, length_cons, visit, if_pos hused, ih]
    · rw [flatMap_cons, pairs_of_ne hused, nil_append]
      rcases hlen : (buckets.flatMap OalpEntry.pairs).length with _ | left
      · rw [eq_nil_of_length_eq_zero hlen, visit]
      · rw [visit, if_neg hused, ← hlen, ih]

/-! #### All operations -/

/-- **Every operation** does what it should do to a finite map, under the condition. -/
theorem OaRep.step (h : OaRep c hash d m) (hc : c.Valid) (hW : 2 ^ 16 ≤ W) (hfit : d.Fits W)
    (hok : d.OaOk W c hash op) :
    ∃ x m', d.step W c hash op = some x ∧ op.Behaves m x.2 m' ∧ OaRep c hash x.1 m' := by
  cases op with
  | insert key value => exact h.insert hc hW hfit hok
  | remove key =>
    obtain ⟨x, heq, hout, h'⟩ := h.remove hfit hok
    exact ⟨x, _, heq, hout ▸ .remove key, h'⟩
  | get key => exact ⟨_, _, rfl, h.get key ▸ .get key, h⟩
  | clear =>
    refine ⟨_, _, rfl, ?_, oaRep_init⟩
    have hvisit : visit d.buckets d.size = d.pairs := by
      rw [h.holds.size]
      exact visit_eq d.buckets
    rw [hvisit]
    exact .clear h.lists
  | foreach =>
    refine ⟨(d, .visited d.pairs), m, ?_, .foreach h.lists, h⟩
    rw [HashmapOaData.step, h.foreach, map_some]
  | size => exact ⟨_, _, rfl, h.size_eq ▸ .size, h⟩

/-- **Without the condition** an operation fails, returns something else, or leaves a wrong size. -/
theorem OaRep.ok_of_behaves (h : OaRep c hash d m) (hc : c.Valid) (hW : 2 ^ 16 ≤ W)
    (hfit : d.Fits W)
    (heq : d.step W c hash op = some x) (hbehaves : op.Behaves m x.2 m')
    (hsize : x.1.size = m'.keys.card) : d.OaOk W c hash op := by
  cases op with
  | insert key value => exact h.ok_of_insert hc hW hfit heq hbehaves hsize
  | remove key => exact h.ok_of_remove hfit heq
  | get key => trivial
  | clear => trivial
  | foreach => trivial
  | size => trivial

end refinement

/-! ### Runs -/

open Simulation

/-- **Both hash maps refine a finite map** as long as `size_t` does not wrap: the one with separate
chaining in every run, the one with open addressing in every run whose operations meet `OaOk`. One
that does not meet it fails, returns something else, or leaves a wrong size. -/
theorem hashmap_refines (W : ℕ) (hW : 2 ^ 16 ≤ W) (c : HashmapConfig) (hc : c.Valid)
    (hash : UInt64 → UInt32) :
    (∀ ops, Along (HashmapScData.step W c hash) (fun d _ => d.Fits W) HashmapScData.init ops →
      ∃ x m, run (HashmapScData.step W c hash) HashmapScData.init ops = some x ∧
        Runs Behaves ∅ ops x.2 m ∧ x.1.size = m.keys.card) ∧
    (∀ ops, Along (HashmapOaData.step W c hash) (fun d op => d.Fits W ∧ d.OaOk W c hash op)
        HashmapOaData.init ops →
      ∃ x m, run (HashmapOaData.step W c hash) HashmapOaData.init ops = some x ∧
        Runs Behaves ∅ ops x.2 m ∧ x.1.size = m.keys.card ∧
        ∀ op, x.1.Fits W → ((∃ y m', x.1.step W c hash op = some y ∧ op.Behaves m y.2 m' ∧
              y.1.size = m'.keys.card) ↔ x.1.OaOk W c hash op)) := by
  constructor
  · intro ops hops
    obtain ⟨x, m, heq, hruns, hrep⟩ := run_refines Behaves (ScRep hash)
      (fun d m op h hfit => h.step hc hW hfit op) scRep_init hops
    exact ⟨x, m, heq, hruns, hrep.holds.size.trans hrep.lists.card⟩
  intro ops hops
  obtain ⟨x, m, heq, hruns, hrep⟩ := run_refines Behaves (OaRep c hash)
    (fun d m op h hok => h.step hc hW hok.1 hok.2) oaRep_init hops
  refine ⟨x, m, heq, hruns, hrep.size_eq, fun op hfit => ⟨?_, fun hok => ?_⟩⟩
  · rintro ⟨y, m', hy, hbehaves, hsize⟩
    exact hrep.ok_of_behaves hc hW hfit hy hbehaves hsize
  · obtain ⟨y, m', hy, hbehaves, hrep'⟩ := hrep.step hc hW hfit hok
    exact ⟨y, m', hy, hbehaves, hrep'.size_eq⟩

/-- The theorem on the insertion of a key into an empty map, and its lookup. -/
theorem hashmap_refines_insert_get : ∃ x m,
    run (HashmapOaData.step (2 ^ 32) ⟨2 ^ 32 - 1, 75, 1⟩ UInt64.toUInt32) HashmapOaData.init
      [.insert 1 10, .get 1] = some x ∧
    Runs Behaves ∅ [.insert 1 10, .get 1] x.2 m := by
  have hstep : HashmapOaData.step (2 ^ 32) ⟨2 ^ 32 - 1, 75, 1⟩ UInt64.toUInt32 HashmapOaData.init
      (.insert 1 10) = some (⟨[⟨1, 10, .used⟩], 1, 0⟩, .inserted 1 0) := by decide +kernel
  obtain ⟨x, m, heq, hruns, -⟩ := (hashmap_refines (2 ^ 32) (by decide) ⟨2 ^ 32 - 1, 75, 1⟩
    ⟨by decide, by decide, 0, by decide, rfl⟩ UInt64.toUInt32).2 [.insert 1 10, .get 1]
    ⟨⟨⟨by decide, by decide⟩, fun _ hlimit => absurd hlimit.2 (by decide),
      fun hgrows => absurd (.inl rfl) hgrows⟩, fun x hx => by
      obtain rfl := Option.some.inj (hstep.symm.trans hx)
      exact ⟨⟨⟨by decide, by decide⟩, trivial⟩, fun _ _ => trivial⟩⟩
  exact ⟨x, m, heq, hruns⟩

/-- **A key that is in the table twice.** Of eight keys with the same hash the first is removed and
the second inserted again: this stops at the tombstone. The old value is that of the removed key,
the size is 8 for seven keys, an iteration visits the second key twice, and it is still found when
it was removed. -/
theorem hashmap_tombstone_reused :
    ((run (HashmapOaData.step (2 ^ 32) ⟨2 ^ 32 - 1, 75, 16⟩ fun _ => 0) HashmapOaData.init
      ([0, 1, 2, 3, 4, 5, 6, 7].map (fun key => .insert key (key + 100)) ++
        [.remove 0, .insert 1 55, .size, .foreach, .remove 1, .get 1, .insert 9 109])).map
      fun x => x.2.drop 8) =
    some [.found (some 100), .inserted 0 100, .size 8,
      .visited [(1, 55), (1, 101), (2, 102), (3, 103), (4, 104), (5, 105), (6, 106), (7, 107)],
      .found (some 55), .found (some 101), .inserted 0 55] := by
  decide +kernel

end TlZephyr
