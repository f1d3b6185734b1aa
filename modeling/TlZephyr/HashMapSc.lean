import TlZephyr.HashMap

/-!
# Separate-Chaining Hash Map

Model of `hash_map_sc.c`: an array of buckets, each a list of entries. The allocator does not
fail, so `sys_hashmap_sc_rehash` returns 0; `none` stands for the remainder by zero that an
insertion into a map without buckets would compute.
-/

namespace TlZephyr

open HashTable List Option

/-! ### Model -/

/-- `struct sys_hashmap_sc_data`. -/
structure HashmapScData where
  buckets : List (List (UInt64 × UInt64))
  size : ℕ
deriving DecidableEq, Repr

namespace HashmapScData

def nBuckets (d : HashmapScData) : ℕ := d.buckets.length

def init : HashmapScData := ⟨[], 0⟩

section model

variable (W : ℕ) (c : HashmapConfig) (hash : UInt64 → UInt32)

def bucketOf (d : HashmapScData) (key : UInt64) : ℕ := (hash key).toNat % d.nBuckets

/-- `sys_hashmap_sc_insert_entry`. -/
def insertEntry (d : HashmapScData) (entry : UInt64 × UInt64) : Option HashmapScData :=
  (d.buckets[d.bucketOf hash entry.1]?).map fun bucket =>
    ⟨d.buckets.set (d.bucketOf hash entry.1) (bucket ++ [entry]), sizeInc W d.size⟩

/-- `sys_hashmap_sc_insert_all`. -/
def insertAll : HashmapScData → List (UInt64 × UInt64) → Option HashmapScData
  | d, [] => some d
  | d, entry :: list => (d.insertEntry W hash entry).bind fun d => insertAll d list

/-- `sys_hashmap_sc_rehash`. -/
def rehash (d : HashmapScData) (grow : Bool) : Option HashmapScData :=
  let (should, newNBuckets) := sysHashmapShouldRehash W c d.size d.nBuckets grow 0
  if should then insertAll W hash ⟨List.replicate newNBuckets [], 0⟩ d.buckets.flatten
  else some d

/-- `sys_hashmap_sc_find`: the bucket, the place in it and the value. -/
def find (d : HashmapScData) (key : UInt64) : Option (ℕ × ℕ × UInt64) :=
  if d.nBuckets = 0 then none
  else
    (d.buckets[d.bucketOf hash key]?).bind fun bucket =>
      (bucket.findIdx? fun entry => entry.1 == key).bind fun i =>
        (bucket[i]?).map fun entry => (d.bucketOf hash key, i, entry.2)

/-- `sys_hashmap_sc_insert`; `old_value` is 0 where nothing is stored there. -/
def insert (d : HashmapScData) (key value : UInt64) : Option (HashmapScData × HashmapOut) :=
  match d.find hash key with
  | some (b, i, oldValue) =>
    some (⟨d.buckets.modify b fun bucket => bucket.set i (key, value), d.size⟩,
      .inserted 0 oldValue)
  | none =>
    (d.rehash W c hash true).bind fun d =>
      (d.insertEntry W hash (key, value)).map fun d => (d, .inserted 1 0)

/-- `sys_hashmap_sc_remove`. -/
def remove (d : HashmapScData) (key : UInt64) : Option (HashmapScData × HashmapOut) :=
  match d.find hash key with
  | none => some (d, .found none)
  | some (b, i, value) =>
    (rehash W c hash ⟨d.buckets.modify b fun bucket => bucket.eraseIdx i, sizeDec W d.size⟩
      false).map fun d => (d, .found (some value))

/-- `sys_hashmap_sc_get`. -/
def get (d : HashmapScData) (key : UInt64) : Option UInt64 :=
  (d.find hash key).map fun x => x.2.2

end model

/-- `struct sys_hashmap_iterator`; the state is a bucket. -/
structure Iterator where
  state : ℕ
  key : UInt64
  value : UInt64
  pos : ℕ

/-- Inner loop of `sys_hashmap_sc_iter_next`. -/
def scanBucket (key : UInt64) : List (UInt64 × UInt64) → Bool → Bool ⊕ (UInt64 × UInt64)
  | [], found => .inl found
  | entry :: _, true => .inr entry
  | entry :: entries, false => scanBucket key entries (entry.1 == key)

def scan (key : UInt64) : List (List (UInt64 × UInt64)) → ℕ → Bool → Option (ℕ × UInt64 × UInt64)
  | [], _, _ => none
  | bucket :: buckets, b, found =>
    (scanBucket key bucket found).elim (fun found => scan key buckets (b + 1) found)
      fun entry => some (b, entry)

/-- `sys_hashmap_sc_iter_next`. -/
def iterNext (d : HashmapScData) (it : Iterator) : Option Iterator :=
  let start := if it.pos = 0 then 0 else it.state
  (scan it.key (d.buckets.drop start) start (it.pos == 0)).map fun x =>
    ⟨x.1, x.2.1, x.2.2, it.pos + 1⟩

/-- Loop of `sys_hashmap_foreach`, which ends when `pos` is the size; every turn adds one. -/
def foreachLoop (d : HashmapScData) : ℕ → Iterator → Option (List (UInt64 × UInt64))
  | 0, _ => some []
  | left + 1, it =>
    (d.iterNext it).bind fun it =>
      (foreachLoop d left it).map fun entries => (it.key, it.value) :: entries

/-- `sys_hashmap_foreach` with `sys_hashmap_sc_iter`. -/
def foreach (d : HashmapScData) : Option (List (UInt64 × UInt64)) :=
  d.foreachLoop d.size ⟨0, 0, 0, 0⟩

def step (W : ℕ) (c : HashmapConfig) (hash : UInt64 → UInt32) (d : HashmapScData) :
    HashmapOp → Option (HashmapScData × HashmapOut)
  | .insert key value => d.insert W c hash key value
  | .remove key => d.remove W c hash key
  | .get key => some (d, .found (d.get hash key))
  | .clear => some (init, .visited d.buckets.flatten)
  | .foreach => d.foreach.map fun entries => (d, .visited entries)
  | .size => some (d, .size d.size)

/-- No `size_t` wraps around. -/
def Fits (W : ℕ) (d : HashmapScData) : Prop := SizesFit W d.size d.nBuckets 0

end HashmapScData

open HashmapScData

/-! ### Moving entries -/

/-- The map holds the entries, in any order, each in its bucket. -/
structure ScHolds (hash : UInt64 → UInt32) (d : HashmapScData) (entries : List (UInt64 × UInt64)) :
    Prop where
  perm : d.buckets.flatten.Perm entries
  size : d.size = entries.length
  placed : ∀ b bucket, d.buckets[b]? = some bucket → ∀ entry ∈ bucket, d.bucketOf hash entry.1 = b

section moving

variable {W : ℕ} {c : HashmapConfig} {hash : UInt64 → UInt32} {d d' : HashmapScData}
  {entries list : List (UInt64 × UInt64)} {m : KeyMap}

variable {b : ℕ} {bucket : List (UInt64 × UInt64)}

theorem flatten_perm (h : d.buckets[b]? = some bucket) :
    d.buckets.flatten.Perm (bucket ++ others id d.buckets b) := by
  rw [← flatMap_id]
  exact perm_others h

theorem flatten_set_perm (h : d.buckets[b]? = some bucket) (bucket' : List (UInt64 × UInt64)) :
    (d.buckets.set b bucket').flatten.Perm (bucket' ++ others id d.buckets b) := by
  rw [← flatMap_id]
  exact perm_others_set h bucket'

theorem bucketOf_set (d : HashmapScData) (b size : ℕ) (bucket : List (UInt64 × UInt64))
    (key : UInt64) :
    bucketOf hash ⟨d.buckets.set b bucket, size⟩ key = d.bucketOf hash key := by
  simp [bucketOf, nBuckets]

theorem exists_bucket (hash : UInt64 → UInt32) (hn : d.nBuckets ≠ 0) (key : UInt64) :
    ∃ bucket, d.buckets[d.bucketOf hash key]? = some bucket :=
  ⟨_, List.getElem?_eq_getElem (Nat.mod_lt _ (Nat.pos_of_ne_zero hn))⟩

theorem ScHolds.placed_set (h : ScHolds hash d entries) {size : ℕ}
    (hbucket : ∀ entry ∈ bucket, d.bucketOf hash entry.1 = b) :
    ∀ b' bucket', (d.buckets.set b bucket)[b']? = some bucket' → ∀ entry ∈ bucket',
      bucketOf hash ⟨d.buckets.set b bucket, size⟩ entry.1 = b' := by
  intro b' bucket' hb' entry hentry
  rw [bucketOf_set]
  rcases eq_or_ne b b' with rfl | hne
  · have hlt : b < d.buckets.length := by
      have := (List.getElem?_eq_some_iff.mp hb').1
      rwa [length_set] at this
    rw [List.getElem?_set_self hlt] at hb'
    exact hbucket entry (Option.some.inj hb' ▸ hentry)
  · rw [List.getElem?_set_ne hne] at hb'
    exact h.placed b' bucket' hb' entry hentry

theorem ScHolds.insertEntry (h : ScHolds hash d entries) (hn : d.nBuckets ≠ 0)
    (hsize : d.size + 1 < W) (entry : UInt64 × UInt64) :
    ∃ d', d.insertEntry W hash entry = some d' ∧ ScHolds hash d' (entry :: entries) ∧
      d'.nBuckets = d.nBuckets := by
  obtain ⟨bucket, hbucket⟩ := exists_bucket hash hn entry.1
  refine ⟨⟨d.buckets.set (d.bucketOf hash entry.1) (bucket ++ [entry]), sizeInc W d.size⟩, ?_,
    ⟨?_, ?_, h.placed_set ?_⟩, ?_⟩
  · rw [HashmapScData.insertEntry, hbucket, map_some]
  · have hflat := (flatten_perm hbucket).symm.trans h.perm
    refine (flatten_set_perm hbucket _).trans ?_
    rw [append_assoc]
    exact perm_middle.trans (hflat.cons entry)
  · rw [sizeInc_eq hsize, h.size, length_cons]
  · intro x hx
    rcases mem_append.mp hx with hx | hx
    · exact h.placed _ _ hbucket x hx
    · rw [mem_singleton.mp hx]
  · simp [nBuckets]

/-- **All entries of a list more.** -/
theorem scInsertAll_spec (list : List (UInt64 × UInt64)) (h : ScHolds hash d entries)
    (hn : list ≠ [] → d.nBuckets ≠ 0) (hsize : d.size + list.length < W) :
    ∃ d', d.insertAll W hash list = some d' ∧ ScHolds hash d' (list ++ entries) ∧
      d'.nBuckets = d.nBuckets := by
  induction list generalizing d entries with
  | nil => exact ⟨d, rfl, h, rfl⟩
  | cons entry list ih =>
    rw [length_cons] at hsize
    have hn' := hn (by simp)
    obtain ⟨d₁, heq₁, h₁, hn₁⟩ := h.insertEntry (W := W) hn' (by omega) entry
    have hs₁ : d₁.size = d.size + 1 := by rw [h₁.size, h.size, length_cons]
    obtain ⟨d₂, heq₂, h₂, hn₂⟩ := ih h₁ (fun _ => by rwa [hn₁]) (by omega)
    refine ⟨d₂, ?_, ⟨h₂.perm.trans perm_middle, ?_, h₂.placed⟩, hn₂.trans hn₁⟩
    · rw [insertAll, heq₁, bind_some, heq₂]
    · rw [h₂.size, length_append, length_append, length_cons, length_cons]
      omega

theorem scHolds_replicate (hash : UInt64 → UInt32) (n : ℕ) :
    ScHolds hash ⟨List.replicate n [], 0⟩ [] := by
  refine ⟨by simp, rfl, fun b bucket hb entry hentry => ?_⟩
  rw [List.getElem?_replicate] at hb
  split at hb
  · cases hb
    cases hentry
  · cases hb

end moving

/-! ### Refinement -/

/-- The map stands for a finite map; without entries it has no buckets. -/
structure ScRep (hash : UInt64 → UInt32) (d : HashmapScData) (m : KeyMap) : Prop where
  holds : ScHolds hash d d.buckets.flatten
  lists : Lists m d.buckets.flatten
  empty : d.size = 0 → d.nBuckets = 0
  single : d.nBuckets = 1 → d.size ≤ 1

section refinement

variable {W : ℕ} {c : HashmapConfig} {hash : UInt64 → UInt32} {d d' : HashmapScData}
  {entries : List (UInt64 × UInt64)} {m : KeyMap} {key value : UInt64}

theorem ScHolds.self (h : ScHolds hash d entries) : ScHolds hash d d.buckets.flatten :=
  ⟨.refl _, by rw [h.size, h.perm.length_eq], h.placed⟩

theorem scRep_init : ScRep hash init ∅ where
  holds := ⟨.refl _, rfl, by simp [init]⟩
  lists := Lists.nil
  empty := fun _ => rfl
  single := fun h => by cases h

theorem ScRep.find_some (h : ScRep hash d m) (hkey : m.lookup key = some value) :
    ∃ bucket i, d.buckets[d.bucketOf hash key]? = some bucket ∧ bucket[i]? = some (key, value) ∧
      d.find hash key = some (d.bucketOf hash key, i, value) := by
  have hmem := (h.lists.mem_iff key value).mpr hkey
  obtain ⟨bucket, hbucket, hentry⟩ := mem_flatten.mp hmem
  obtain ⟨b, hb⟩ := List.getElem?_of_mem hbucket
  obtain rfl := h.holds.placed b bucket hb _ hentry
  have hn : d.nBuckets ≠ 0 := by
    intro hn
    rw [eq_nil_of_length_eq_zero hn] at hbucket
    cases hbucket
  obtain ⟨i, hi⟩ : ∃ i, bucket.findIdx? (fun entry => entry.1 == key) = some i := by
    rw [← isSome_iff_exists, List.findIdx?_isSome, List.any_eq_true]
    exact ⟨_, hentry, by simp⟩
  obtain ⟨hlt, hfound, -⟩ := List.findIdx?_eq_some_iff_getElem.mp hi
  have hvalue : bucket[i] = (key, value) := by
    refine inj_on_of_nodup_map h.lists.nodup ?_ hmem (by simpa using hfound)
    exact mem_flatten.mpr ⟨bucket, hbucket, getElem_mem hlt⟩
  have hget : bucket[i]? = some (key, value) := by
    rw [List.getElem?_eq_getElem hlt, hvalue]
  refine ⟨bucket, i, hb, hget, ?_⟩
  rw [find, if_neg hn, hb, bind_some, hi, bind_some, hget, map_some]

theorem ScRep.find_none (h : ScRep hash d m) (hkey : m.lookup key = none) :
    d.find hash key = none := by
  rw [find]
  split_ifs with hn
  · rfl
  obtain ⟨bucket, hb⟩ := exists_bucket hash hn key
  rw [hb, bind_some]
  have hnone : bucket.findIdx? (fun entry => entry.1 == key) = none := by
    rw [List.findIdx?_eq_none_iff]
    intro entry hentry
    by_contra hkk
    refine h.lists.notMem_iff.mpr hkey (List.mem_map.mpr ⟨entry, ?_, by simpa using hkk⟩)
    exact mem_flatten.mpr ⟨bucket, mem_of_getElem? hb, hentry⟩
  rw [hnone, bind_none]

theorem ScRep.get (h : ScRep hash d m) (key : UInt64) : d.get hash key = m.lookup key := by
  rcases hkey : m.lookup key with _ | value
  · rw [HashmapScData.get, h.find_none hkey, map_none]
  · obtain ⟨_, _, -, -, hfind⟩ := h.find_some hkey
    rw [HashmapScData.get, hfind, map_some]

theorem modify_eq_set {b : ℕ} {bucket : List (UInt64 × UInt64)}
    (h : d.buckets[b]? = some bucket) (f : List (UInt64 × UInt64) → List (UInt64 × UInt64)) :
    d.buckets.modify b f = d.buckets.set b (f bucket) := by
  rw [modify_eq_set_getElem?, h]
  rfl

theorem ScRep.insert_old (h : ScRep hash d m) {oldValue : UInt64}
    (hkey : m.lookup key = some oldValue) :
    ∃ d', d.insert W c hash key value = some (d', .inserted 0 oldValue) ∧
      ScRep hash d' (m.insert key value) := by
  obtain ⟨bucket, i, hb, hi, hfind⟩ := h.find_some hkey
  obtain ⟨hlt, hget⟩ := List.getElem?_eq_some_iff.mp hi
  obtain ⟨bucket', hbucket'⟩ : ∃ bucket', bucket' = bucket.set i (key, value) := ⟨_, rfl⟩
  have hd : d.insert W c hash key value =
      some (⟨d.buckets.set (d.bucketOf hash key) bucket', d.size⟩, .inserted 0 oldValue) := by
    simp only [HashmapScData.insert, hfind, modify_eq_set hb, hbucket']
  refine ⟨_, hd, ?_⟩
  -- the entries but for the one that is changed
  have hrest : d.buckets.flatten.Perm
      ((key, oldValue) :: (bucket.eraseIdx i ++ others id d.buckets (d.bucketOf hash key))) := by
    refine (flatten_perm hb).trans ?_
    have := (getElem_cons_eraseIdx_perm hlt).symm
    rw [hget] at this
    exact this.append_right _
  have hset : (d.buckets.set (d.bucketOf hash key) bucket').flatten.Perm
      ((key, value) :: (bucket.eraseIdx i ++ others id d.buckets (d.bucketOf hash key))) := by
    refine (flatten_set_perm hb _).trans ?_
    have hlt' : i < (bucket.set i (key, value)).length := by simpa using hlt
    have := (getElem_cons_eraseIdx_perm hlt').symm
    rw [getElem_set_self, eraseIdx_set_eq, ← hbucket'] at this
    exact this.append_right _
  have hplaced : ∀ entry ∈ bucket', d.bucketOf hash entry.1 = d.bucketOf hash key := by
    intro entry hentry
    rw [hbucket'] at hentry
    rcases mem_or_eq_of_mem_set hentry with hentry | rfl
    · exact h.holds.placed _ _ hb entry hentry
    · rfl
  refine ⟨⟨.refl _, ?_, h.holds.placed_set hplaced⟩, ?_, fun h0 => ?_, fun h1 => ?_⟩
  · rw [h.holds.size, hset.length_eq, hrest.length_eq, length_cons, length_cons]
  · exact ((h.lists.perm hrest).replace value).perm hset.symm
  · simpa [nBuckets] using h.empty h0
  · exact h.single (by simpa [nBuckets] using h1)

/-- **The map is rebuilt** with another number of buckets. -/
theorem ScHolds.rebuild (h : ScHolds hash d entries) {n : ℕ} (hn : d.size ≠ 0 → n ≠ 0)
    (hsize : d.size < W) :
    ∃ d', insertAll W hash ⟨List.replicate n [], 0⟩ d.buckets.flatten = some d' ∧
      ScHolds hash d' entries ∧ d'.nBuckets = n := by
  have hlen : d.buckets.flatten.length = d.size := by rw [h.perm.length_eq, h.size]
  obtain ⟨d', heq, h', hn'⟩ := scInsertAll_spec (W := W) d.buckets.flatten
    (scHolds_replicate hash n) (fun hne => by
      rw [nBuckets, length_replicate]
      exact hn (by rwa [← hlen, Ne, length_eq_zero_iff])) (by rwa [zero_add, hlen])
  rw [append_nil] at h'
  refine ⟨d', heq, ⟨h'.perm.trans h.perm, ?_, h'.placed⟩, by simpa [nBuckets] using hn'⟩
  rw [h'.size, h.perm.length_eq]

theorem ScRep.nBuckets_ne_zero (h : ScRep hash d m) (hsize : d.size ≠ 0) : d.nBuckets ≠ 0 := by
  intro hn
  rw [h.holds.size, eq_nil_of_length_eq_zero hn] at hsize
  exact hsize rfl

/-- **The table before an insertion**: it has buckets, and more than one unless it is empty. -/
theorem ScRep.rehash_grow (h : ScRep hash d m) (hc : c.Valid) (hW : 2 ^ 16 ≤ W)
    (hfit : d.Fits W) :
    ∃ d', d.rehash W c hash true = some d' ∧ ScHolds hash d' d.buckets.flatten ∧
      d'.nBuckets ≠ 0 ∧ (d'.nBuckets = 1 → d.size = 0) := by
  have hinit := hc.initial_le
  have hle := hc.loadFactor_le
  obtain ⟨hs, hn⟩ := id hfit
  have hshould := shouldRehash_grow (c := c) hfit fun h0 => by
    rw [h.empty h0]
    omega
  by_cases hg : d.nBuckets = 0 ∨ c.loadFactor < (d.size + 1 + 0) * 100 / d.nBuckets
  · have hto : grownTo c d.size d.nBuckets ≠ 0 ∧
        (grownTo c d.size d.nBuckets = 1 → d.size = 0) := by
      rw [grownTo]
      split_ifs with h0
      · exact ⟨by omega, fun _ => h0⟩
      · have := h.nBuckets_ne_zero h0
        exact ⟨by omega, fun _ => by omega⟩
    obtain ⟨d', heq, h', hn'⟩ := h.holds.rebuild (W := W) (fun _ => hto.1) (by omega)
    refine ⟨d', ?_, h', hn' ▸ hto.1, hn' ▸ hto.2⟩
    simp [HashmapScData.rehash, hshould, decide_eq_true hg, heq]
  · refine ⟨d, ?_, h.holds, fun h0 => hg (.inl h0), fun h1 => ?_⟩
    · simp [HashmapScData.rehash, hshould, decide_eq_false hg]
    · rw [not_or, h1, Nat.div_one] at hg
      omega

theorem ScHolds.rehash_shrink (h : ScHolds hash d entries) (hc : c.Valid)
    (hsize : d.size * 100 < W) (hn : d.nBuckets < W) (hpos : d.nBuckets ≠ 0)
    (hsingle : d.nBuckets = 1 → d.size = 0) :
    ∃ d', d.rehash W c hash false = some d' ∧ ScHolds hash d' entries ∧
      (d'.size = 0 → d'.nBuckets = 0) ∧ (d'.nBuckets = 1 → d'.size ≤ 1) := by
  have hle := hc.loadFactor_le
  have hshould := shouldRehash_shrink (c := c) hsize hn 0
  by_cases hg : shrunkTo d.size d.nBuckets = 0 ∨
      d.size * 100 / shrunkTo d.size d.nBuckets ≤ c.loadFactor
  · obtain ⟨d', heq, h', hn'⟩ := h.rebuild (W := W) (n := shrunkTo d.size d.nBuckets)
      (fun h0 => by
        rw [shrunkTo, if_neg h0]
        omega) (by omega)
    have hs' : d'.size = d.size := by rw [h'.size, h.size]
    refine ⟨d', ?_, h', fun h0 => ?_, fun h1 => ?_⟩
    · simp [HashmapScData.rehash, hshould, decide_eq_true hg, heq]
    · rw [hn', shrunkTo, if_pos (hs' ▸ h0)]
    · rw [hn'] at h1
      rw [h1, Nat.div_one] at hg
      omega
  refine ⟨d, ?_, h, fun h0 => ?_, fun h1 => ?_⟩
  · simp [HashmapScData.rehash, hshould, decide_eq_false hg]
  · exact absurd (.inl (by rw [shrunkTo, if_pos h0])) hg
  · rw [hsingle h1]
    exact Nat.zero_le 1

theorem ScRep.insert_new (h : ScRep hash d m) (hc : c.Valid) (hW : 2 ^ 16 ≤ W) (hfit : d.Fits W)
    (hkey : m.lookup key = none) :
    ∃ d', d.insert W c hash key value = some (d', .inserted 1 0) ∧
      ScRep hash d' (m.insert key value) := by
  obtain ⟨hs, -⟩ := id hfit
  obtain ⟨d₁, heq₁, h₁, hpos, hsingle⟩ := h.rehash_grow hc hW hfit
  have hsize₁ : d₁.size = d.size := by rw [h₁.size, h.holds.size]
  obtain ⟨d₂, heq₂, h₂, hn₂⟩ := h₁.insertEntry (W := W) hpos (by omega) (key, value)
  have hsize₂ : d₂.size = d.size + 1 := by rw [h₂.size, h.holds.size, length_cons]
  refine ⟨d₂, ?_, h₂.self, (h.lists.cons hkey value).perm h₂.perm.symm, fun h0 => ?_, fun h1 => ?_⟩
  · simp only [HashmapScData.insert, h.find_none hkey, heq₁, bind_some, heq₂, map_some]
  · omega
  · have := hsingle (hn₂ ▸ h1)
    omega

theorem ScRep.remove (h : ScRep hash d m) (hc : c.Valid) (hfit : d.Fits W) (key : UInt64) :
    ∃ d', d.remove W c hash key = some (d', .found (m.lookup key)) ∧
      ScRep hash d' (m.erase key) := by
  rcases hkey : m.lookup key with _ | value
  · refine ⟨d, ?_, by rwa [erase_of_lookup_eq_none hkey]⟩
    simp only [HashmapScData.remove, h.find_none hkey]
  obtain ⟨hs, hn⟩ := hfit
  obtain ⟨bucket, i, hb, hi, hfind⟩ := h.find_some hkey
  obtain ⟨hlt, hget⟩ := List.getElem?_eq_some_iff.mp hi
  have hrest : d.buckets.flatten.Perm
      ((key, value) :: (bucket.eraseIdx i ++ others id d.buckets (d.bucketOf hash key))) := by
    refine (flatten_perm hb).trans ?_
    have := (getElem_cons_eraseIdx_perm hlt).symm
    rw [hget] at this
    exact this.append_right _
  have hsize : d.size =
      (bucket.eraseIdx i ++ others id d.buckets (d.bucketOf hash key)).length + 1 := by
    rw [h.holds.size, hrest.length_eq, length_cons]
  have hdec : sizeDec W d.size = d.size - 1 := sizeDec_eq (by omega) (by omega)
  -- the table without the entry
  have h₁ : ScHolds hash
      ⟨d.buckets.set (d.bucketOf hash key) (bucket.eraseIdx i), sizeDec W d.size⟩
      (bucket.eraseIdx i ++ others id d.buckets (d.bucketOf hash key)) := by
    refine ⟨flatten_set_perm hb _, by simp only [hdec]; omega, h.holds.placed_set ?_⟩
    exact fun entry hentry => h.holds.placed _ _ hb entry (mem_of_mem_eraseIdx hentry)
  have hn₁ : nBuckets ⟨d.buckets.set (d.bucketOf hash key) (bucket.eraseIdx i),
      sizeDec W d.size⟩ = d.nBuckets := by simp [nBuckets]
  obtain ⟨d', heq, h', hempty, hsingle⟩ := h₁.rehash_shrink (c := c) (W := W) hc
    (by simp only [hdec]; omega) (by omega) (hn₁ ▸ h.nBuckets_ne_zero (by omega))
    (fun h1 => by
      have := h.single (hn₁ ▸ h1)
      simp only [hdec]
      omega)
  refine ⟨d', ?_, h'.self, ((h.lists.perm hrest).tail).perm h'.perm.symm, hempty, hsingle⟩
  simp only [HashmapScData.remove, hfind, modify_eq_set hb, heq, map_some]

end refinement

/-! ### Iteration -/

section iteration

variable {d : HashmapScData} {key : UInt64} {entry : UInt64 × UInt64}
  {rest pre post : List (UInt64 × UInt64)} {buckets : List (List (UInt64 × UInt64))}

theorem scanBucket_previous (value : UInt64) (post : List (UInt64 × UInt64))
    (hpre : key ∉ pre.map Prod.fst) :
    scanBucket key (pre ++ (key, value) :: post) false = scanBucket key post true := by
  induction pre with
  | nil => simp [scanBucket]
  | cons entry pre ih =>
    rw [map_cons, mem_cons, not_or] at hpre
    have hne : (entry.1 == key) = false := by simpa using Ne.symm hpre.1
    rw [cons_append, scanBucket, hne, ih hpre.2]

theorem scan_first (key : UInt64) (b : ℕ) (h : buckets.flatten = entry :: rest) :
    ∃ i post later, scan key buckets b true = some (b + i, entry) ∧
      buckets.drop i = (entry :: post) :: later ∧ rest = post ++ later.flatten := by
  induction buckets generalizing b with
  | nil => cases h
  | cons bucket buckets ih =>
    cases bucket with
    | nil =>
      obtain ⟨i, post, later, hscan, hdrop, hrest⟩ := ih (b + 1) h
      refine ⟨i + 1, post, later, ?_, hdrop, hrest⟩
      rw [show b + (i + 1) = b + 1 + i by omega]
      exact hscan
    | cons entry' post =>
      rw [flatten_cons, cons_append] at h
      obtain ⟨rfl, rfl⟩ := List.cons.inj h
      exact ⟨0, post, buckets, rfl, rfl, rfl⟩

def ScLeft (d : HashmapScData) (it : Iterator) (rest : List (UInt64 × UInt64)) : Prop :=
  it.pos = 0 ∧ rest = d.buckets.flatten ∨
  it.pos ≠ 0 ∧ ∃ pre value post later,
    d.buckets.drop it.state = (pre ++ (it.key, value) :: post) :: later ∧
    it.key ∉ pre.map Prod.fst ∧ rest = post ++ later.flatten

variable {it : Iterator}

theorem ScLeft.next (hnodup : (d.buckets.flatten.map Prod.fst).Nodup)
    (h : ScLeft d it (entry :: rest)) :
    ∃ it', d.iterNext it = some it' ∧ (it'.key, it'.value) = entry ∧ ScLeft d it' rest := by
  rcases h with ⟨hpos, hrest⟩ | ⟨hpos, pre, value, post, later, hdrop, hpre, hrest⟩
  · obtain ⟨i, post, later, hscan, hdrop, hrest'⟩ := scan_first it.key 0 hrest.symm
    rw [zero_add] at hscan
    refine ⟨⟨i, entry.1, entry.2, it.pos + 1⟩, ?_, rfl,
      .inr ⟨Nat.succ_ne_zero _, [], entry.2, post, later, hdrop, by simp, hrest'⟩⟩
    simp [iterNext, hpos, drop_zero, hscan, map_some]
  have hbeq : (it.pos == 0) = false := by simpa using hpos
  have hnext : ∀ x, scan it.key (d.buckets.drop it.state) it.state false = some x →
      d.iterNext it = some ⟨x.1, x.2.1, x.2.2, it.pos + 1⟩ := by
    intro x hx
    simp only [iterNext, if_neg hpos, hbeq, hx, map_some]
  rw [hdrop, scan, scanBucket_previous value post hpre] at hnext
  cases post with
  | nil =>
    -- the next entry is in a later bucket
    rw [nil_append] at hrest
    obtain ⟨i, post', later', hscan, hdrop', hrest'⟩ :=
      scan_first it.key (it.state + 1) hrest.symm
    have hlater : d.buckets.drop (it.state + 1) = later := by
      rw [← drop_drop, hdrop, drop_one, tail_cons]
    rw [← hlater, drop_drop] at hdrop'
    exact ⟨_, hnext _ hscan, rfl,
      .inr ⟨Nat.succ_ne_zero _, [], entry.2, post', later', hdrop', by simp, hrest'⟩⟩
  | cons entry' post =>
    rw [cons_append] at hrest
    obtain ⟨rfl, rfl⟩ := List.cons.inj hrest
    refine ⟨_, hnext (it.state, entry) rfl, rfl,
      .inr ⟨Nat.succ_ne_zero _, pre ++ [(it.key, value)], entry.2, post, later, ?_, ?_, rfl⟩⟩
    · rw [hdrop, append_assoc]
      rfl
    have hbucket : pre ++ (it.key, value) :: entry :: post ∈ d.buckets :=
      mem_of_mem_drop (hdrop ▸ mem_cons_self)
    have hsub := (sublist_flatten_of_mem hbucket).map Prod.fst
    have hnd := hnodup.sublist hsub
    rw [append_cons, map_append] at hnd
    intro hmem
    exact disjoint_of_nodup_append hnd hmem (by simp)

/-- **An iteration** visits what is left, one entry after the other. -/
theorem foreachLoop_eq (hnodup : (d.buckets.flatten.map Prod.fst).Nodup)
    (h : ScLeft d it rest) : d.foreachLoop rest.length it = some rest := by
  induction rest generalizing it with
  | nil => rfl
  | cons entry rest ih =>
    obtain ⟨it', hnext, hentry, h'⟩ := h.next hnodup
    rw [length_cons, foreachLoop, hnext, bind_some, ih h', map_some, hentry]

theorem ScRep.foreach {hash : UInt64 → UInt32} {m : KeyMap} (h : ScRep hash d m) :
    d.foreach = some d.buckets.flatten := by
  rw [HashmapScData.foreach, h.holds.size]
  exact foreachLoop_eq h.lists.nodup (.inl ⟨rfl, rfl⟩)

end iteration

/-- **Every operation** does what it should do to a finite map. -/
theorem ScRep.step {W : ℕ} {c : HashmapConfig} {hash : UInt64 → UInt32} {d : HashmapScData}
    {m : KeyMap} (h : ScRep hash d m) (hc : c.Valid) (hW : 2 ^ 16 ≤ W) (hfit : d.Fits W)
    (op : HashmapOp) :
    ∃ x m', d.step W c hash op = some x ∧ op.Behaves m x.2 m' ∧ ScRep hash x.1 m' := by
  cases op with
  | insert key value =>
    rcases hkey : m.lookup key with _ | oldValue
    · obtain ⟨d', heq, h'⟩ := h.insert_new hc hW hfit hkey
      exact ⟨_, _, heq, .insertNew hkey, h'⟩
    · obtain ⟨d', heq, h'⟩ := h.insert_old (W := W) (c := c) hkey
      exact ⟨_, _, heq, .insertOld hkey, h'⟩
  | remove key =>
    obtain ⟨d', heq, h'⟩ := h.remove hc hfit key
    exact ⟨_, _, heq, .remove key, h'⟩
  | get key => exact ⟨_, _, rfl, h.get key ▸ .get key, h⟩
  | clear => exact ⟨_, _, rfl, .clear h.lists, scRep_init⟩
  | foreach =>
    refine ⟨(d, .visited d.buckets.flatten), m, ?_, .foreach h.lists, h⟩
    rw [HashmapScData.step, h.foreach, map_some]
  | size =>
    refine ⟨_, _, rfl, ?_, h⟩
    have hsize : d.size = m.keys.card := h.holds.size.trans h.lists.card
    rw [hsize]
    exact .size

end TlZephyr
