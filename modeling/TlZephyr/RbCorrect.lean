import TlZephyr.RbRemove

/-!
# Red/Black Tree: Runs

What holds after any run of `rb_insert` and `rb_remove`, for any strict total order of the nodes:
the memory holds a balanced search tree of the nodes inserted and not removed, and the queries
answer for that set.
-/

namespace TlZephyr.Rb

open RedBlack RedBlack.ColTree Owned

/-! ### Queries -/

def InMemory (m : RbMem) : Option RbAddr → ColTree RbAddr → Prop
  | q, nil => q = none
  | q, node c l k r => q = some k ∧ getColor m k = c ∧ InMemory m (getChild m k .left) l ∧
      InMemory m (getChild m k .right) r

variable {m : RbMem} {t : ColTree RbAddr}

theorem Holds.inMemory {R : Multiset (RbAddr × Cell)}
    (h : Holds m (cells t + R)) : InMemory m (ptr t) t := by
  induction t generalizing R with
  | nil => rfl
  | node c l k r ihl ihr =>
    rw [cells, Multiset.cons_add] at h
    have htail : Holds m (cells l + cells r + R) := Owns.mono h (Multiset.le_cons_self _ _)
    have hleft := h.getChild
    have hright : Rb.getChild m k .right = ptr r := h.flip.getChild
    refine ⟨rfl, h.getColor, ?_, ?_⟩
    · rw [hleft]
      rw [add_assoc] at htail
      exact ihl htail
    · rw [hright]
      rw [add_comm (cells l), add_assoc] at htail
      exact ihr htail

def Outermost : Side → RbAddr → List RbAddr → Prop
  | .left, n, l => ∃ r, l = n :: r
  | .right, n, l => ∃ r, l = r ++ [n]

theorem InMemory.eq_nil (h : InMemory m none t) : t = nil := by
  cases t with
  | nil => rfl
  | node c l k r => cases h.1

theorem getMinmaxLoop_spec {k : RbAddr} {fuel : ℕ} (side : Side)
    (h : InMemory m (some k) t) (hfuel : t.height ≤ fuel) :
    ∃ n, getMinmaxLoop m side fuel k = some n ∧ Outermost side n t.toList := by
  induction t generalizing k fuel with
  | nil => cases h
  | node c l k' r ihl ihr =>
    obtain ⟨hk, -, hl, hr⟩ := h
    cases hk
    rw [height] at hfuel
    rcases fuel with _ | fuel
    · omega
    cases hchild : getChild m k' side with
    | none =>
      refine ⟨k', by simp only [getMinmaxLoop, hchild], ?_⟩
      cases side with
      | left =>
        rw [hchild] at hl
        rw [hl.eq_nil]
        exact ⟨_, rfl⟩
      | right =>
        rw [hchild] at hr
        rw [hr.eq_nil]
        exact ⟨_, rfl⟩
    | some ch =>
      simp only [getMinmaxLoop, hchild]
      cases side with
      | left =>
        rw [hchild] at hl
        have hle : l.height ≤ fuel := by omega
        obtain ⟨n, hn, rest, hrest⟩ := ihl hl hle
        refine ⟨n, hn, rest ++ k' :: r.toList, ?_⟩
        rw [toList, hrest, List.cons_append]
      | right =>
        rw [hchild] at hr
        have hle : r.height ≤ fuel := by omega
        obtain ⟨n, hn, rest, hrest⟩ := ihr hr hle
        refine ⟨n, hn, l.toList ++ k' :: rest, ?_⟩
        rw [toList, hrest, List.append_assoc, List.cons_append]

/-! ### Iteration -/

section iteration

variable {m : RbMem} {t : ColTree RbAddr} {k : RbAddr} {d : ℕ} {f : Foreach}

/-- The nodes stacked are in memory, and each of them leaves room for the tree below it. -/
structure Fits (m : RbMem) (d : ℕ) (f : Foreach) : Prop where
  size : f.stack.size = d
  root : 0 < f.size → f.isLeft 0 = false
  slot : ∀ i < f.size, ∃ k t, f.stack.slot i = some k ∧ InMemory m (some k) t ∧ i + t.height ≤ d

theorem InMemory.height_pos (h : InMemory m (some k) t) : 0 < t.height := by
  cases t with
  | nil => cases h
  | node c l k' r => exact Nat.succ_pos _

theorem InMemory.child {ch : RbAddr} {side : Side} (h : InMemory m (some k) t)
    (hch : getChild m k side = some ch) : ∃ t', InMemory m (some ch) t' ∧ t'.height < t.height := by
  cases t with
  | nil => cases h
  | node c l k' r =>
    obtain ⟨hk, -, hl, hr⟩ := h
    cases hk
    rw [height]
    cases side with
    | left => exact ⟨l, hch ▸ hl, by omega⟩
    | right => exact ⟨r, hch ▸ hr, by omega⟩

theorem Fits.init (s : State) : Fits s.mem s.maxDepth (.init s) :=
  ⟨rfl, fun _ => rfl, fun i hi => absurd hi (Nat.not_lt_zero i)⟩

theorem Fits.pop {size : ℕ} (h : Fits m d f) (hle : size ≤ f.size) :
    Fits m d { f with size := size } :=
  ⟨h.size, fun hpos => h.root (lt_of_lt_of_le hpos hle),
    fun i hi => h.slot i (lt_of_lt_of_le hi hle)⟩

theorem Fits.push (h : Fits m d f) (left : Bool) (hmem : InMemory m (some k) t)
    (hroom : f.size + t.height ≤ d) (hleft : f.size = 0 → left = false) :
    ∃ f', f.push k left = some f' ∧ Fits m d f' ∧ f'.size = f.size + 1 := by
  have hpos := hmem.height_pos
  have hset : f.stack.set f.size k = some (f.stack.put f.size k) :=
    Stack.set_eq (by rw [h.size]; omega)
  refine ⟨⟨f.stack.put f.size k, Function.update f.isLeft f.size left, f.size + 1⟩,
    by rw [Foreach.push, hset]; rfl, ⟨h.size, fun _ => ?_, fun i hi => ?_⟩, rfl⟩
  · rcases Nat.eq_zero_or_pos f.size with hzero | hpos
    · simp only [hzero, Function.update_self, hleft hzero]
    · simp only [Function.update_of_ne hpos.ne, h.root hpos]
  · rcases Nat.lt_succ_iff_lt_or_eq.mp hi with hlt | rfl
    · obtain ⟨k', t', hslot, hin⟩ := h.slot i hlt
      exact ⟨k', t', (Stack.put_slot_ne hlt.ne).trans hslot, hin⟩
    · exact ⟨k, t, Stack.put_slot_self, hmem, hroom⟩

theorem Fits.leftLoop {q : Option RbAddr} {fuel : ℕ} (h : Fits m d f) (hmem : InMemory m q t)
    (hroom : f.size + t.height ≤ d) (hfuel : t.height ≤ fuel) (hpos : 0 < f.size) :
    ∃ f', leftLoop m fuel q f = some f' ∧ Fits m d f' ∧ f.size ≤ f'.size := by
  induction t generalizing q f fuel with
  | nil =>
    cases hmem
    exact ⟨f, by rw [Rb.leftLoop], h, le_rfl⟩
  | node c l k' r ihl _ =>
    obtain rfl := hmem.1
    obtain ⟨f₁, hpush, h₁, hsize⟩ := h.push true hmem hroom fun hzero => by omega
    rw [height] at hroom hfuel
    rcases fuel with _ | fuel
    · omega
    have hle : l.height ≤ fuel := by omega
    obtain ⟨f', hloop, h', hmono⟩ := ihl h₁ hmem.2.2.1 (by omega) hle (by omega)
    refine ⟨f', ?_, h', by omega⟩
    rw [Rb.leftLoop, hpush]
    exact hloop

theorem Fits.node (h : Fits m d f) (hpos : 0 < f.size) : ∃ r, f.node = some r ∧ Fits m d r.2 := by
  obtain ⟨k, t, hslot, -⟩ := h.slot (f.size - 1) (by omega)
  refine ⟨(some k, f), ?_, h⟩
  rw [Foreach.node, Stack.top, if_pos (Nat.one_le_iff_ne_zero.mpr hpos.ne'), hslot]
  rfl

theorem Fits.stackLeftLimb (h : Fits m d f) (hmem : InMemory m (some k) t)
    (hroom : f.size + t.height ≤ d) :
    ∃ r, stackLeftLimb m k f = some r ∧ Fits m d r.2 := by
  obtain ⟨f₁, hpush, h₁, hsize⟩ := h.push false hmem hroom fun _ => rfl
  cases t with
  | nil => cases hmem
  | node c l k' r =>
    obtain ⟨hk, -, hl, -⟩ := hmem
    cases hk
    rw [height] at hroom
    have hfuel : l.height ≤ f₁.stack.size := by
      rw [h₁.size]
      omega
    obtain ⟨f', hloop, h', hle⟩ := h₁.leftLoop hl (by omega) hfuel (by omega)
    obtain ⟨r, hr, hfits⟩ := h'.node (by omega)
    refine ⟨r, ?_, hfits⟩
    rw [Rb.stackLeftLimb, hpush, Option.bind_eq_bind, Option.bind_some, hloop]
    exact hr

theorem upLoop_le (isLeft : ℕ → Bool) (n : ℕ) : upLoop isLeft n ≤ n := by
  fun_induction upLoop isLeft n with
  | case1 => exact le_rfl
  | case2 => exact le_rfl
  | case3 n hleft => exact le_rfl
  | case4 n hleft ih => omega

variable {s : State}

theorem Fits.foreachNext (hmem : InMemory s.mem s.root t) (hd : t.height ≤ s.maxDepth)
    (h : Fits s.mem s.maxDepth f) : ∃ r, foreachNext s f = some r ∧ Fits s.mem s.maxDepth r.2 := by
  rw [Rb.foreachNext]
  rcases hroot : s.root with _ | root
  · exact ⟨_, rfl, h⟩
  rw [hroot] at hmem
  by_cases hsize : f.size = 0
  · simp only [if_pos hsize]
    exact h.stackLeftLimb hmem (by omega)
  obtain ⟨k, u, hslot, hu, hroom⟩ := h.slot (f.size - 1) (by omega)
  have htop : f.stack.top f.size 1 = some k := by
    rw [Stack.top, if_pos (by omega), hslot]
  simp only [if_neg hsize, htop, Option.bind_eq_bind, Option.bind_some]
  cases hchild : getChild s.mem k .right with
  | some n =>
    obtain ⟨u', hu', hlt⟩ := hu.child hchild
    exact h.stackLeftLimb hu' (by omega)
  | none =>
    have hup := upLoop_le f.isLeft f.size
    have hpos := hu.height_pos
    split_ifs with hleft hmore
    · refine (h.pop (Nat.sub_le f.size 1)).node (Nat.pos_of_ne_zero fun hzero => ?_)
      rw [show f.size - 1 = 0 from hzero, h.root (by omega)] at hleft
      cases hleft
    · exact (h.pop (by omega)).node hmore
    · exact ⟨_, rfl, h.pop (by omega)⟩

theorem Fits.foreachRun (hmem : InMemory s.mem s.root t) (hd : t.height ≤ s.maxDepth)
    (h : Fits s.mem s.maxDepth f) (n : ℕ) : ∃ f', foreachRun s f n = some f' := by
  induction n generalizing f with
  | zero => exact ⟨f, rfl⟩
  | succ n ih =>
    obtain ⟨r, hr, h'⟩ := h.foreachNext hmem hd
    rw [Rb.foreachRun, hr]
    exact ih h'

end iteration

section order

variable {lt : RbAddr → RbAddr → Bool} [IsStrictTotalOrder RbAddr fun a b => lt a b]

variable {t : ColTree RbAddr} {s : State} {S : Finset RbAddr}

variable {fuel : ℕ}

theorem rbContainsLoop_spec {m : RbMem} {q : Option RbAddr} {x : RbAddr}
    (h : InMemory m q t) (hs : Sorted lt t) (hfuel : t.height < fuel) :
    rbContainsLoop lt m x fuel q = some (decide (x ∈ t.toList)) := by
  induction t generalizing q fuel with
  | nil =>
    cases h
    cases fuel with
    | zero => cases hfuel
    | succ fuel => rfl
  | node c l k r ihl ihr =>
    obtain ⟨rfl, -, hl, hr⟩ := h
    obtain ⟨hsl, hsr, hlr⟩ := List.pairwise_append.mp hs
    obtain ⟨hk, hsr⟩ := List.pairwise_cons.mp hsr
    rw [height] at hfuel
    rcases fuel with _ | fuel
    · cases hfuel
    rw [rbContainsLoop]
    by_cases hx : k = x
    · rw [if_pos hx, hx]
      simp [toList]
    rw [if_neg hx]
    cases hlt : lt k x with
    | true =>
      have hnot : x ∉ l.toList := by
        intro hmem
        have hkk : lt k k := lt_chain hlt (hlr x hmem k (List.mem_cons_self ..))
        exact not_lt_self k hkk
      rw [if_pos rfl, ihr hr hsr (by omega)]
      simp [toList, hnot, Ne.symm hx]
    | false =>
      have hnot : x ∉ r.toList := by
        intro hmem
        rw [hk x hmem] at hlt
        cases hlt
      rw [if_neg Bool.false_ne_true, ihl hl hsl (by omega)]
      simp [toList, hnot, Ne.symm hx]

/-! ### Runs -/

def contents (S : Finset RbAddr) : List Op → Finset RbAddr
  | [] => S
  | .insert n :: ops => contents (insert n S) ops
  | .remove n :: ops => contents (S.erase n) ops

/-- The runs the interface allows: what is inserted is not in the tree, and what is removed from is
not empty. -/
def Legal (S : Finset RbAddr) : List Op → Prop
  | [] => True
  | .insert n :: ops => n ∉ S ∧ Legal (insert n S) ops
  | .remove n :: ops => S.Nonempty ∧ Legal (S.erase n) ops

/-- A balanced search tree of the nodes `S`. -/
structure Correct (lt : RbAddr → RbAddr → Bool) (s : State) (S : Finset RbAddr)
    (t : ColTree RbAddr) : Prop extends Balanced s t where
  sorted : Sorted lt t
  mem_iff : ∀ x, x ∈ t.toList ↔ x ∈ S

omit [IsStrictTotalOrder RbAddr fun a b => lt a b] in
theorem Correct.inMemory (h : Correct lt s S t) : InMemory s.mem s.root t := by
  rw [h.root]
  exact Holds.inMemory (R := 0) (h.holds.of_eq (add_zero _).symm)

theorem Correct.insert {n : RbAddr} (h : Correct lt s S t) (hn : n ∉ S) :
    ∃ s' t', rbInsert lt s n = some s' ∧ Correct lt s' (insert n S) t' := by
  have hnot : n ∉ t.toList := fun hmem => hn ((h.mem_iff n).mp hmem)
  obtain ⟨s', hs', hbal⟩ := rbInsert_spec h.toBalanced hnot ((find_eq_nil_iff h.sorted).mpr hnot)
  obtain ⟨hsorted, hmem⟩ := h.sorted.insert hnot
  refine ⟨s', _, hs', hbal, hsorted, fun x => ?_⟩
  rw [hmem, h.mem_iff, Finset.mem_insert]

theorem Correct.remove (n : RbAddr) (h : Correct lt s S t) (hS : S.Nonempty) :
    ∃ s' t', rbRemove lt s n = some s' ∧ Correct lt s' (S.erase n) t' := by
  have hne : t ≠ nil := by
    rintro rfl
    obtain ⟨x, hx⟩ := hS
    cases (h.mem_iff x).mpr hx
  obtain ⟨s', u, hs', hu, hbal⟩ := rbRemove_spec h.toBalanced hne
  obtain ⟨hsorted, hmem⟩ := h.sorted.remove hu
  refine ⟨s', u, hs', hbal, hsorted, fun x => ?_⟩
  rw [hmem, h.mem_iff, Finset.mem_erase, and_comm]

theorem Correct.run {ops : List Op} (h : Correct lt s S t) (hops : Legal S ops) :
    ∃ s' t', run lt s ops = some s' ∧ Correct lt s' (contents S ops) t' := by
  induction ops generalizing s S t with
  | nil => exact ⟨s, t, rfl, h⟩
  | cons op ops ih =>
    cases op with
    | insert n =>
      obtain ⟨s₁, t₁, hs₁, h₁⟩ := h.insert hops.1
      obtain ⟨s', t', hs', h'⟩ := ih h₁ hops.2
      exact ⟨s', t', by rw [Rb.run, step, hs₁, Option.bind_some, hs'], h'⟩
    | remove n =>
      obtain ⟨s₁, t₁, hs₁, h₁⟩ := h.remove n hops.1
      obtain ⟨s', t', hs', h'⟩ := ih h₁ hops.2
      exact ⟨s', t', by rw [Rb.run, step, hs₁, Option.bind_some, hs'], h'⟩

omit [IsStrictTotalOrder RbAddr fun a b => lt a b] in
theorem Correct.init (m : RbMem) : Correct lt (initState m) ∅ nil :=
  ⟨⟨⟨rfl, Owns.zero⟩, 0, .nil, le_rfl, Nat.zero_le _⟩, List.Pairwise.nil, fun x => by simp [toList]⟩

/-- The least or the greatest node of a set, if there is one. -/
def IsExtreme (lt : RbAddr → RbAddr → Bool) (S : Finset RbAddr) : Side → Option RbAddr → Prop
  | _, none => S = ∅
  | .left, some n => n ∈ S ∧ ∀ y ∈ S, y ≠ n → lt n y
  | .right, some n => n ∈ S ∧ ∀ y ∈ S, y ≠ n → lt y n

omit [IsStrictTotalOrder RbAddr fun a b => lt a b] in
theorem Correct.getMinmax (h : Correct lt s S t) (hfuel : s.maxDepth < fuel) (side : Side) :
    ∃ r, getMinmax fuel s side = some r ∧ IsExtreme lt S side r := by
  obtain ⟨b, -, hd⟩ := h.balance
  have hmem := h.inMemory
  rw [Rb.getMinmax]
  rcases hroot : s.root with _ | root
  · refine ⟨none, rfl, ?_⟩
    rw [hroot] at hmem
    have hnil := hmem.eq_nil
    subst hnil
    refine Finset.eq_empty_of_forall_notMem fun x hx => ?_
    cases (h.mem_iff x).mpr hx
  rw [hroot] at hmem
  obtain ⟨n, hn, hout⟩ := getMinmaxLoop_spec side hmem (hd.height_le.trans hfuel.le)
  refine ⟨some n, by simp only [hn, Option.map_some], ?_⟩
  have hsorted := h.sorted
  cases side with
  | left =>
    obtain ⟨rest, hrest⟩ := hout
    rw [Sorted, hrest, List.pairwise_cons] at hsorted
    refine ⟨(h.mem_iff n).mp (by rw [hrest]; exact List.mem_cons_self ..), fun y hy hne => ?_⟩
    have hy' := (h.mem_iff y).mpr hy
    rw [hrest] at hy'
    exact hsorted.1 y ((List.mem_cons.mp hy').resolve_left hne)
  | right =>
    obtain ⟨rest, hrest⟩ := hout
    rw [Sorted, hrest, List.pairwise_append] at hsorted
    refine ⟨(h.mem_iff n).mp (by rw [hrest]; simp), fun y hy hne => ?_⟩
    have hy' := (h.mem_iff y).mpr hy
    rw [hrest] at hy'
    have hmem' : y ∈ rest := by simpa [hne] using hy'
    exact hsorted.2.2 y hmem' n (List.mem_singleton.mpr rfl)

/-- **Every legal run of `rb_insert` and `rb_remove` ends in a correct tree**, without a fault:
sorted by `lessthan_fn`, with the nodes inserted and not removed since, a black root, no red node
with a red child and as many black nodes on every path; and the queries answer for that set. -/
theorem rb_correct (lt : RbAddr → RbAddr → Bool) [IsStrictTotalOrder RbAddr fun a b => lt a b]
    (m : RbMem) (ops : List Op) (hops : Legal ∅ ops) :
    ∃ s t, run lt (initState m) ops = some s ∧ InMemory s.mem s.root t ∧ Sorted lt t ∧
      (∀ x, x ∈ t.toList ↔ x ∈ contents ∅ ops) ∧ (∃ b, RB t .black b) ∧
      ∀ fuel, s.maxDepth < fuel →
        (∀ x, rbContains lt fuel s x = some (decide (x ∈ contents ∅ ops))) ∧
        ∀ side, ∃ r, getMinmax fuel s side = some r ∧ IsExtreme lt (contents ∅ ops) side r := by
  have hinit : Correct lt (initState m) ∅ nil := Correct.init m
  obtain ⟨s, t, hrun, h⟩ := hinit.run hops
  obtain ⟨b, hrb, hd⟩ := h.balance
  have hmem := h.inMemory
  refine ⟨s, t, hrun, hmem, h.sorted, h.mem_iff, ⟨b, hrb⟩, fun fuel hfuel => ⟨fun x => ?_, ?_⟩⟩
  · rw [rbContains, rbContainsLoop_spec hmem h.sorted (hd.height_le.trans_lt hfuel)]
    simp only [h.mem_iff]
  · exact h.getMinmax hfuel

/-- **The arrays are long enough for every tree**: after a legal run the height is at most
`max_depth`, and a loop over the tree goes on without a fault. -/
theorem rb_stacks_bounded (lt : RbAddr → RbAddr → Bool)
    [IsStrictTotalOrder RbAddr fun a b => lt a b] (m : RbMem) (ops : List Op)
    (hops : Legal ∅ ops) :
    ∃ s t, run lt (initState m) ops = some s ∧ InMemory s.mem s.root t ∧ t.height ≤ s.maxDepth ∧
      ∀ n, ∃ f, foreachRun s (.init s) n = some f := by
  have hinit : Correct lt (initState m) ∅ nil := Correct.init m
  obtain ⟨s, t, hrun, h⟩ := hinit.run hops
  obtain ⟨b, -, hd⟩ := h.balance
  exact ⟨s, t, hrun, h.inMemory, hd.height_le, (Fits.init s).foreachRun h.inMemory hd.height_le⟩

end order

def byAddress (a b : RbAddr) : Bool := decide (a.val < b.val)

instance : IsStrictTotalOrder RbAddr fun a b => byAddress a b where
  irrefl a := by simp [byAddress]
  trans a b c hab hbc := by
    simp only [byAddress, decide_eq_true_eq] at hab hbc ⊢
    exact hab.trans hbc
  trichotomous a b hab hba := by
    simp only [byAddress, decide_eq_true_eq, not_lt] at hab hba
    exact Subtype.ext (le_antisymm hba hab)

theorem aligned_even (i : ℕ) : 2 * i + 2 ≠ 0 ∧ (2 * i + 2) % 2 = 0 := by
  omega

def nodeAt (i : ℕ) : RbAddr := ⟨2 * i + 2, aligned_even i⟩

/-- The run that inserts three nodes and removes the middle one. -/
def threeNodes : List Op :=
  [.insert (nodeAt 0), .insert (nodeAt 1), .insert (nodeAt 2), .remove (nodeAt 1)]

theorem rb_correct_three :
    ∃ s t, run byAddress (initState fun _ => ⟨0, none⟩) threeNodes = some s ∧
      InMemory s.mem s.root t ∧ Sorted byAddress t ∧
      (∀ x, x ∈ t.toList ↔ x ∈ contents ∅ threeNodes) ∧ (∃ b, RB t .black b) ∧
      ∀ fuel, s.maxDepth < fuel →
        (∀ x, rbContains byAddress fuel s x = some (decide (x ∈ contents ∅ threeNodes))) ∧
        ∀ side, ∃ r, getMinmax fuel s side = some r ∧
          IsExtreme byAddress (contents ∅ threeNodes) side r :=
  rb_correct byAddress _ threeNodes
    ⟨by decide, by decide, by decide, ⟨nodeAt 0, by decide⟩, trivial⟩

theorem rb_stacks_bounded_three :
    ∃ s t, run byAddress (initState fun _ => ⟨0, none⟩) threeNodes = some s ∧
      InMemory s.mem s.root t ∧ t.height ≤ s.maxDepth ∧
      ∀ n, ∃ f, foreachRun s (.init s) n = some f :=
  rb_stacks_bounded byAddress _ threeNodes
    ⟨by decide, by decide, by decide, ⟨nodeAt 0, by decide⟩, trivial⟩

end TlZephyr.Rb
