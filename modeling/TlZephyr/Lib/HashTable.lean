import Mathlib

/-!
# Tables of Keys and Values

Finite maps stored in tables. `Lists m l` says that the list `l` holds the keys of the finite map
`m`, each once, with their values. A table is a list of slots each of which holds some entries;
`others f t j` are the entries of all slots but one. The last part is about linear probing: the
slots tried for a hash, one after the other and around the end of the table.
-/

namespace HashTable

open List

/-! ### Listings of finite maps -/

section listing

variable {K V : Type*} [DecidableEq K] {m : Finmap fun _ : K => V} {l l' : List (K × V)} {k : K}
  {v w : V}

/-- The list holds the keys of the map, each once, with their values. -/
structure Lists (m : Finmap fun _ : K => V) (l : List (K × V)) : Prop where
  nodup : (l.map Prod.fst).Nodup
  mem_iff : ∀ k v, (k, v) ∈ l ↔ m.lookup k = some v

theorem Lists.nil : Lists (∅ : Finmap fun _ : K => V) [] := ⟨nodup_nil, by simp⟩

theorem Lists.perm (h : Lists m l) (hp : l.Perm l') : Lists m l' :=
  ⟨(hp.map _).nodup_iff.mp h.nodup, fun k v => hp.mem_iff.symm.trans (h.mem_iff k v)⟩

theorem Lists.notMem_iff (h : Lists m l) : k ∉ l.map Prod.fst ↔ m.lookup k = none := by
  rw [Option.eq_none_iff_forall_not_mem]
  simp [mem_map, h.mem_iff]

theorem Lists.cons (h : Lists m l) (hk : m.lookup k = none) (v : V) :
    Lists (m.insert k v) ((k, v) :: l) := by
  refine ⟨nodup_cons.mpr ⟨h.notMem_iff.mpr hk, h.nodup⟩, fun k' v' => ?_⟩
  rw [mem_cons, Prod.mk.injEq, h.mem_iff]
  by_cases hkk : k' = k
  · subst hkk
    simp [hk, Finmap.lookup_insert, eq_comm]
  · rw [Finmap.lookup_insert_of_ne _ hkk]
    simp [hkk]

theorem Lists.tail (h : Lists m ((k, v) :: l)) : Lists (m.erase k) l := by
  obtain ⟨hk, hl⟩ := nodup_cons.mp h.nodup
  refine ⟨hl, fun k' v' => ?_⟩
  by_cases hkk : k' = k
  · subst hkk
    rw [Finmap.lookup_erase]
    simp only [reduceCtorEq, iff_false]
    exact fun hmem => hk (mem_map.mpr ⟨_, hmem, rfl⟩)
  · rw [Finmap.lookup_erase_ne hkk, ← h.mem_iff]
    simp [hkk]

theorem erase_insert (m : Finmap fun _ : K => V) (k : K) (v : V) :
    (m.erase k).insert k v = m.insert k v := by
  refine Finmap.ext_lookup fun k' => ?_
  by_cases hkk : k' = k
  · subst hkk
    rw [Finmap.lookup_insert, Finmap.lookup_insert]
  · rw [Finmap.lookup_insert_of_ne _ hkk, Finmap.lookup_insert_of_ne _ hkk,
      Finmap.lookup_erase_ne hkk]

theorem erase_of_lookup_eq_none (h : m.lookup k = none) : m.erase k = m := by
  refine Finmap.ext_lookup fun k' => ?_
  by_cases hkk : k' = k
  · subst hkk
    rw [Finmap.lookup_erase, h]
  · rw [Finmap.lookup_erase_ne hkk]

theorem Lists.replace (h : Lists m ((k, v) :: l)) (w : V) : Lists (m.insert k w) ((k, w) :: l) := by
  have hcons := h.tail.cons (Finmap.lookup_erase k m) w
  rwa [erase_insert] at hcons

theorem Lists.card (h : Lists m l) : l.length = m.keys.card := by
  have hkeys : m.keys = (l.map Prod.fst).toFinset := by
    ext k
    rw [Finmap.mem_keys, ← Finmap.lookup_isSome, mem_toFinset, ← not_iff_not, h.notMem_iff,
      Option.not_isSome_iff_eq_none]
  rw [hkeys, toFinset_card_of_nodup h.nodup, length_map]

end listing

/-! ### Tables of slots -/

section slots

variable {α β : Type*} {f : α → List β} {t : List α} {j j' : ℕ} {x y : α}

def others (f : α → List β) (t : List α) (j : ℕ) : List β := (t.eraseIdx j).flatMap f

theorem perm_others (h : t[j]? = some x) : (t.flatMap f).Perm (f x ++ others f t j) := by
  obtain ⟨hj, rfl⟩ := List.getElem?_eq_some_iff.mp h
  exact ((getElem_cons_eraseIdx_perm hj).flatMap_right f).symm

theorem perm_others_set (h : t[j]? = some x) (a : α) :
    ((t.set j a).flatMap f).Perm (f a ++ others f t j) := by
  obtain ⟨hj, -⟩ := List.getElem?_eq_some_iff.mp h
  have hset : (t.set j a)[j]? = some a := by rw [List.getElem?_set_self hj]
  have hperm := perm_others (f := f) hset
  rwa [others, eraseIdx_set_eq] at hperm

theorem mem_others {b : β} (hne : j' ≠ j) (h : t[j']? = some y) (hb : b ∈ f y) : b ∈ others f t j :=
  mem_flatMap.mpr ⟨y, mem_eraseIdx_iff_getElem?.mpr ⟨j', hne, h⟩, hb⟩

end slots

/-! ### Linear probing -/

section probing

variable {α : Type*} {free : α → Prop} {t : List α} {n hash i i' j j' : ℕ} {a : α}

/-- Slot that is tried after `i` others. -/
def probe (n hash i : ℕ) : ℕ := (hash + i) % n

theorem probe_lt (hi : i < n) : probe n hash i < n := Nat.mod_lt _ (by omega)

theorem probe_inj (hi : i < n) (hi' : i' < n) (h : probe n hash i = probe n hash i') : i = i' := by
  have hmod : i ≡ i' [MOD n] := Nat.ModEq.add_left_cancel' hash h
  rwa [Nat.ModEq, Nat.mod_eq_of_lt hi, Nat.mod_eq_of_lt hi'] at hmod

theorem exists_probe (hash : ℕ) (hj : j < n) : ∃ i < n, probe n hash i = j := by
  have hpos : 0 < n := by omega
  have hlt := Nat.mod_lt hash hpos
  refine ⟨(j + (n - hash % n)) % n, Nat.mod_lt _ hpos, ?_⟩
  rw [probe, Nat.add_mod_mod, ← Nat.mod_add_mod]
  have hsum : hash % n + (j + (n - hash % n)) = j + n := by omega
  rw [hsum, Nat.add_mod_right, Nat.mod_eq_of_lt hj]

/-- The slot `j` is tried for the hash, and no slot before it is free. -/
def Reaches (free : α → Prop) (t : List α) (hash j : ℕ) : Prop :=
  ∃ i < t.length, probe t.length hash i = j ∧
    ∀ i' < i, ∀ x, t[probe t.length hash i']? = some x → ¬ free x

/-- **A store that frees no slot** hides nothing. -/
theorem Reaches.set (h : Reaches free t hash j) (j' : ℕ) (ha : ¬ free a) :
    Reaches free (t.set j' a) hash j := by
  obtain ⟨i, hi, hj, hbefore⟩ := h
  refine ⟨i, by rwa [length_set], by rwa [length_set], fun i' hi' x hx => ?_⟩
  rw [length_set] at hx
  by_cases hslot : j' = probe t.length hash i'
  · subst hslot
    rw [List.getElem?_set_self (probe_lt (by omega))] at hx
    rwa [← Option.some.inj hx]
  · rw [List.getElem?_set_ne hslot] at hx
    exact hbefore i' hi' x hx

end probing

end HashTable
