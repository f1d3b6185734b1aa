import TlZephyr.Bitarray

/-!
# Memory Blocks

`lib/mem_blocks/mem_blocks.c`: a buffer cut into blocks of one size, with a bit array that says
which of them are allocated and counters of how many are. Pointers and `size_t` have 32 bits.

A client's view of a run is the list of the addresses of the blocks it was handed and has not given
back (`Client.step`). It is built from the calls and their results only; `Inv` ties it to the bit
array.
-/

namespace TlZephyr

open List

namespace MemBlocks

/-- What is fixed in a `struct sys_mem_blocks`. The buffer is an object in memory. -/
structure Pool where
  numBlocks : ℕ
  blkSzShift : ℕ
  buffer : BitVec 32
  buffer_ne : buffer ≠ 0
  size_lt : numBlocks * 2 ^ blkSzShift < 2 ^ 31
  end_le : buffer.toNat + numBlocks * 2 ^ blkSzShift ≤ 2 ^ 32

/-- What changes in a `struct sys_mem_blocks`. -/
structure State where
  bitmap : Bitarray
  usedBlocks : ℕ
  maxUsedBlocks : ℕ

variable (p : Pool)

/-- `SYS_MEM_BLOCKS_DEFINE`. -/
def define : State := ⟨Bitarray.define p.numBlocks, 0, 0⟩

/-! ### Code -/

def State.addUsed (s : State) (bitmap : Bitarray) (n : ℕ) : State :=
  let used := (s.usedBlocks + n) % 2 ^ 32
  ⟨bitmap, used, if s.maxUsedBlocks < used then used else s.maxUsedBlocks⟩

/-- `alloc_blocks`. A null pointer is a failure. -/
def allocBlocks (s : State) (numBlocks : ℕ) : Option (BitVec 32 × State) := do
  let (r, bitmap, offset) ← s.bitmap.alloc numBlocks
  if r ≠ 0 then
    return (0, s)
  return (p.buffer + BitVec.ofNat 32 (offset <<< p.blkSzShift), s.addUsed bitmap numBlocks)

/-- The block a pointer lies in: a signed difference, shifted, and converted to `size_t`. -/
def blockOffset (ptr : BitVec 32) : ℕ := ((ptr - p.buffer).sshiftRight p.blkSzShift).toNat

def freeBlocks (s : State) (ptr : BitVec 32) (numBlocks : ℕ) : ℤ × State :=
  if ptr.toNat < p.buffer.toNat then
    (-EFAULT, s)
  else if blockOffset p ptr ≥ p.numBlocks then
    (-EFAULT, s)
  else
    let (ret, bitmap) := s.bitmap.free numBlocks (blockOffset p ptr)
    if ret = 0 then
      (ret, { s with
        bitmap := bitmap
        usedBlocks := (s.usedBlocks + (2 ^ 32 - numBlocks % 2 ^ 32)) % 2 ^ 32 })
    else
      (ret, { s with bitmap := bitmap })

/-- `sys_mem_blocks_alloc_contiguous`: the result, the pointer and the state. -/
def sysMemBlocksAllocContiguous (s : State) (count : ℕ) : Option (ℤ × BitVec 32 × State) := do
  if count = 0 then
    return (0, 0, s)
  if count > p.numBlocks then
    return (-ENOMEM, 0, s)
  let (ptr, s) ← allocBlocks p s count
  if ptr = 0 then
    return (-ENOMEM, 0, s)
  return (0, ptr, s)

/-- Loop of `sys_mem_blocks_free`, with its `ret`. -/
def freeLoop : State → ℤ → List (BitVec 32) → ℤ × State
  | s, ret, [] => (ret, s)
  | s, ret, ptr :: ptrs =>
    let (r, s') := freeBlocks p s ptr 1
    freeLoop s' (if r ≠ 0 then r else ret) ptrs

def sysMemBlocksFree (s : State) (inBlocks : List (BitVec 32)) : ℤ × State :=
  if inBlocks.length = 0 then
    (0, s)
  else if inBlocks.length > p.numBlocks then
    (-EINVAL, s)
  else
    freeLoop p s 0 inBlocks

/-- Loop of `sys_mem_blocks_alloc`: up to `n` more blocks. -/
def allocLoop : State → ℕ → List (BitVec 32) → Option (List (BitVec 32) × State)
  | s, 0, out => some (out, s)
  | s, n + 1, out => do
    let (ptr, s') ← allocBlocks p s 1
    if ptr = 0 then
      return (out, s')
    allocLoop s' n (out ++ [ptr])

/-- `sys_mem_blocks_alloc`: the result, the pointers written and the state. -/
def sysMemBlocksAlloc (s : State) (count : ℕ) : Option (ℤ × List (BitVec 32) × State) := do
  if count = 0 then
    return (0, [], s)
  if count > p.numBlocks then
    return (-ENOMEM, [], s)
  let (out, s) ← allocLoop p s count []
  if out.length < count then
    return (-ENOMEM, out, (sysMemBlocksFree p s out).2)
  return (0, out, s)

def sysMemBlocksGet (s : State) (inBlock : BitVec 32) (count : ℕ) : ℤ × State :=
  if count = 0 then
    (0, s)
  else if (blockOffset p inBlock + count) % 2 ^ 32 > p.numBlocks then
    (-ENOMEM, s)
  else
    let (ret, bitmap) := s.bitmap.testAndSetRegion count (blockOffset p inBlock) true
    if ret ≠ 0 then
      (-ENOMEM, { s with bitmap := bitmap })
    else
      (0, s.addUsed bitmap count)

def sysMemBlocksFreeContiguous (s : State) (block : BitVec 32) (count : ℕ) : ℤ × State :=
  if count = 0 then
    (0, s)
  else if count > p.numBlocks then
    (-EINVAL, s)
  else
    freeBlocks p s block count

/-! ### Runs -/

inductive Op where
  | alloc (count : ℕ)
  | allocContiguous (count : ℕ)
  | get (inBlock : BitVec 32) (count : ℕ)
  | free (inBlocks : List (BitVec 32))
  | freeContiguous (block : BitVec 32) (count : ℕ)
  deriving Repr, DecidableEq

/-- A call, with its result and the pointers it writes for its caller. -/
def step (s : State) : Op → Option (ℤ × List (BitVec 32) × State)
  | .alloc count => sysMemBlocksAlloc p s count
  | .allocContiguous count => do
    let (ret, ptr, s) ← sysMemBlocksAllocContiguous p s count
    return (ret, [ptr], s)
  | .get inBlock count =>
    let (ret, s) := sysMemBlocksGet p s inBlock count
    some (ret, [], s)
  | .free inBlocks =>
    let (ret, s) := sysMemBlocksFree p s inBlocks
    some (ret, [], s)
  | .freeContiguous block count =>
    let (ret, s) := sysMemBlocksFreeContiguous p s block count
    some (ret, [], s)

/-! ### Client's view -/

def Pool.blockSize : ℕ := 2 ^ p.blkSzShift

/-- Address of block `k`. -/
def Pool.addr (k : ℕ) : ℕ := p.buffer.toNat + k * p.blockSize

/-- The block an address from the start of the buffer on is in. -/
def Pool.index (a : ℕ) : ℕ := (a - p.buffer.toNat) / p.blockSize

namespace Client

/-- `count` blocks from the one a pointer lies in. -/
def region (ptr : BitVec 32) (count : ℕ) : List ℕ :=
  (List.range count).map fun i => p.addr (p.index ptr.toNat + i)

/-- `count` blocks handed out by their first address. -/
def handed (ptr : BitVec 32) (count : ℕ) : List ℕ :=
  (List.range count).map fun i => ptr.toNat + i * p.blockSize

def Holds (held : List ℕ) (ptr : BitVec 32) (count : ℕ) : Prop :=
  p.buffer.toNat ≤ ptr.toNat ∧ ∀ a ∈ region p ptr count, a ∈ held

instance (held : List ℕ) (ptr : BitVec 32) (count : ℕ) : Decidable (Holds p held ptr count) :=
  inferInstanceAs (Decidable (_ ∧ _))

def release (held : List ℕ) (ptr : BitVec 32) (count : ℕ) : List ℕ :=
  if Holds p held ptr count then held.diff (region p ptr count) else held

/-- Blocks held after a call with result `ret` that wrote the pointers `out`. -/
def step (held : List ℕ) (ret : ℤ) (out : List (BitVec 32)) : Op → List ℕ
  | .alloc _ => if ret = 0 then held ++ out.map (·.toNat) else held
  | .allocContiguous count =>
    if ret = 0 then held ++ out.flatMap (handed p · count) else held
  | .get inBlock count => if ret = 0 then held ++ region p inBlock count else held
  | .free inBlocks =>
    if inBlocks.length ≤ p.numBlocks then
      inBlocks.foldl (fun held ptr => release p held ptr 1) held
    else held
  | .freeContiguous block count => release p held block count

end Client

/-- A sequence of calls, with what the client holds after it. -/
def run : List Op → State → List ℕ → Option (State × List ℕ)
  | [], s, held => some (s, held)
  | op :: ops, s, held => do
    let (ret, out, s') ← step p s op
    run ops s' (Client.step p held ret out op)

/-! ### Addresses -/

theorem Pool.blockSize_pos : 0 < p.blockSize := Nat.two_pow_pos _

theorem Pool.numBlocks_lt : p.numBlocks < 2 ^ 31 :=
  lt_of_le_of_lt (Nat.le_mul_of_pos_right _ p.blockSize_pos) p.size_lt

theorem Pool.buffer_pos : 0 < p.buffer.toNat := by
  rw [Nat.pos_iff_ne_zero]
  exact fun h => p.buffer_ne (BitVec.eq_of_toNat_eq h)

variable {p}

variable {i k n : ℕ} {ptr : BitVec 32}

theorem Pool.addr_inj : p.addr i = p.addr k ↔ i = k := by
  rw [Pool.addr, Pool.addr, Nat.add_left_cancel_iff]
  exact Nat.mul_left_inj p.blockSize_pos.ne'

theorem Pool.index_addr (k : ℕ) : p.index (p.addr k) = k := by
  rw [Pool.index, Pool.addr, Nat.add_sub_cancel_left, Nat.mul_div_cancel _ p.blockSize_pos]

theorem Pool.addr_add_le (hk : k < p.numBlocks) :
    p.addr k + p.blockSize ≤ p.buffer.toNat + p.numBlocks * p.blockSize := by
  have hmul : (k + 1) * p.blockSize ≤ p.numBlocks * p.blockSize := Nat.mul_le_mul_right _ hk
  rw [Nat.succ_mul] at hmul
  rw [Pool.addr]
  omega

theorem Pool.addr_lt (hk : k < p.numBlocks) : p.addr k < 2 ^ 32 := by
  have hadd := Pool.addr_add_le hk
  have hend : p.buffer.toNat + p.numBlocks * p.blockSize ≤ 2 ^ 32 := p.end_le
  have hpos := p.blockSize_pos
  omega

theorem toNat_block (hk : k < p.numBlocks) :
    (p.buffer + BitVec.ofNat 32 (k <<< p.blkSzShift)).toNat = p.addr k := by
  have hlt := Pool.addr_lt hk
  have hshift : k <<< p.blkSzShift = k * p.blockSize := Nat.shiftLeft_eq _ _
  rw [Pool.addr] at hlt ⊢
  rw [BitVec.toNat_add, BitVec.toNat_ofNat, hshift, Nat.add_mod_mod, Nat.mod_eq_of_lt hlt]

variable {x : BitVec 32}

theorem le_toNat_sshiftRight (h : 2 ^ 31 ≤ x.toNat) : 2 ^ 31 ≤ (x.sshiftRight n).toNat := by
  have hmsb : x.msb = true := by
    rw [BitVec.msb_eq_decide]
    exact decide_eq_true h
  have hlt := x.isLt
  have hdiv : (2 ^ 32 - 1 - x.toNat) >>> n ≤ 2 ^ 32 - 1 - x.toNat := by
    rw [Nat.shiftRight_eq_div_pow]
    exact Nat.div_le_self _ _
  rw [BitVec.sshiftRight_eq_of_msb_true hmsb, BitVec.toNat_not, BitVec.toNat_ushiftRight,
    BitVec.toNat_not]
  omega

theorem toNat_sshiftRight_of_lt (h : x.toNat < 2 ^ 31) :
    (x.sshiftRight n).toNat = x.toNat / 2 ^ n := by
  have hmsb : x.msb = false := by
    rw [BitVec.msb_eq_decide]
    exact decide_eq_false (by omega)
  rw [BitVec.sshiftRight_eq_of_msb_false hmsb, BitVec.toNat_ushiftRight, Nat.shiftRight_eq_div_pow]

theorem blockOffset_of_lt (h : blockOffset p ptr < p.numBlocks) :
    p.buffer.toNat ≤ ptr.toNat ∧ blockOffset p ptr = p.index ptr.toNat := by
  have hnum := p.numBlocks_lt
  have hend := p.end_le
  have hptr := ptr.isLt
  have hbuf := p.buffer.isLt
  have hsub : (ptr - p.buffer).toNat = (2 ^ 32 - p.buffer.toNat + ptr.toNat) % 2 ^ 32 :=
    BitVec.toNat_sub _ _
  have hsmall : (ptr - p.buffer).toNat < 2 ^ 31 := by
    by_contra hbig
    have hge := le_toNat_sshiftRight (n := p.blkSzShift) (not_lt.mp hbig)
    rw [← blockOffset] at hge
    omega
  have hdiv := toNat_sshiftRight_of_lt (n := p.blkSzShift) hsmall
  rw [← blockOffset] at hdiv
  rw [hdiv, Nat.div_lt_iff_lt_mul (Nat.two_pow_pos _)] at h
  refine ⟨by omega, ?_⟩
  rw [hdiv, Pool.index, Pool.blockSize, show (ptr - p.buffer).toNat = ptr.toNat - p.buffer.toNat by
    omega]

theorem blockOffset_eq_index (hle : p.buffer.toNat ≤ ptr.toNat)
    (hidx : p.index ptr.toNat < p.numBlocks) : blockOffset p ptr = p.index ptr.toNat := by
  have hsize := p.size_lt
  have hptr := ptr.isLt
  have hsub : (ptr - p.buffer).toNat = (2 ^ 32 - p.buffer.toNat + ptr.toNat) % 2 ^ 32 :=
    BitVec.toNat_sub _ _
  have heq : (ptr - p.buffer).toNat = ptr.toNat - p.buffer.toNat := by omega
  have hlt : ptr.toNat - p.buffer.toNat < p.numBlocks * 2 ^ p.blkSzShift := by
    rwa [Pool.index, Pool.blockSize, Nat.div_lt_iff_lt_mul (Nat.two_pow_pos _)] at hidx
  rw [blockOffset, toNat_sshiftRight_of_lt (by omega), heq]
  rfl

/-! ### Invariant -/

def blocksFrom (p : Pool) (offset n : ℕ) : List ℕ := (List.range n).map fun i => p.addr (offset + i)

theorem addr_mem_blocksFrom {offset : ℕ} :
    p.addr i ∈ blocksFrom p offset n ↔ offset ≤ i ∧ i < offset + n := by
  simp only [blocksFrom, mem_map, mem_range, Pool.addr_inj]
  constructor
  · rintro ⟨j, hj, rfl⟩
    omega
  · rintro ⟨hle, hlt⟩
    exact ⟨i - offset, by omega, by omega⟩

theorem nodup_blocksFrom (offset n : ℕ) : (blocksFrom p offset n).Nodup := by
  refine nodup_range.map fun i j h => ?_
  have := Pool.addr_inj.mp h
  omega

/-- The bit array says which blocks the client holds. -/
structure Rep (p : Pool) (bitmap : Bitarray) (held : List ℕ) : Prop where
  num : bitmap.numBits = p.numBlocks
  bits : ∀ i, bitmap.bit i = true ↔ p.addr i ∈ held
  blocks : ∀ a ∈ held, ∃ k < p.numBlocks, a = p.addr k
  nodup : held.Nodup

structure Inv (p : Pool) (s : State) (held : List ℕ) : Prop extends Rep p s.bitmap held where
  used : s.usedBlocks = s.bitmap.setBits
  max : s.usedBlocks ≤ s.maxUsedBlocks

namespace Rep

variable {bitmap bitmap' : Bitarray} {held : List ℕ} {n offset : ℕ}

theorem lt_numBlocks (h : Rep p bitmap held) {i : ℕ} (hi : p.addr i ∈ held) : i < p.numBlocks := by
  obtain ⟨k, hk, heq⟩ := h.blocks _ hi
  rwa [Pool.addr_inj.mp heq]

theorem setBits_le (h : Rep p bitmap held) : bitmap.setBits ≤ p.numBlocks := by
  have hsub : (Finset.range (bitmap.numBundles * 32)).filter (bitmap.bit ·) ⊆
      Finset.range p.numBlocks := by
    intro i hi
    rw [Finset.mem_range]
    exact h.lt_numBlocks ((h.bits i).mp (Finset.mem_filter.mp hi).2)
  have hcard := Finset.card_le_card hsub
  rwa [Finset.card_range] at hcard

theorem take (h : Rep p bitmap held) (hf : bitmap.Flips bitmap' n offset true) :
    Rep p bitmap' (held ++ blocksFrom p offset n) where
  num := hf.numBits_eq.trans h.num
  bits i := by
    rw [hf.bit, mem_append, addr_mem_blocksFrom]
    split_ifs with hin
    · simp [hin]
    · rw [h.bits, or_iff_left hin]
  blocks a ha := by
    rcases mem_append.mp ha with ha | ha
    · exact h.blocks a ha
    obtain ⟨i, hi, rfl⟩ := mem_map.mp ha
    have hle := hf.le
    rw [h.num] at hle
    rw [mem_range] at hi
    exact ⟨offset + i, by omega, rfl⟩
  nodup := by
    refine h.nodup.append (nodup_blocksFrom offset n) fun a ha hmem => ?_
    -- a block of the region was clear
    obtain ⟨k, -, rfl⟩ := h.blocks a ha
    obtain ⟨hle, hlt⟩ := addr_mem_blocksFrom.mp hmem
    have hwas := hf.was k hle hlt
    rw [(h.bits k).mpr ha] at hwas
    cases hwas

theorem give (h : Rep p bitmap held) (hf : bitmap.Flips bitmap' n offset false) :
    Rep p bitmap' (held.diff (blocksFrom p offset n)) where
  num := hf.numBits_eq.trans h.num
  bits i := by
    rw [hf.bit, h.nodup.mem_sdiff_iff, addr_mem_blocksFrom]
    split_ifs with hin
    · simp [hin]
    · rw [h.bits, and_iff_left hin]
  blocks a ha := h.blocks a (diff_subset _ _ ha)
  nodup := h.nodup.diff

end Rep

theorem define_inv (p : Pool) : Inv p (define p) [] where
  num := rfl
  bits i := by simp [define, Bitarray.define, Bitarray.bit]
  blocks := by simp
  nodup := nodup_nil
  used := by simp [define, Bitarray.define, Bitarray.setBits, Bitarray.bit]
  max := le_rfl

variable {s s' : State} {held : List ℕ} {bitmap' : Bitarray} {n offset : ℕ}

theorem Inv.addUsed (h : Inv p s held) (hf : s.bitmap.Flips bitmap' n offset true) :
    Inv p (s.addUsed bitmap' n) (held ++ blocksFrom p offset n) where
  toRep := h.toRep.take hf
  used := by
    have hle := (h.toRep.take hf).setBits_le
    have hnum := p.numBlocks_lt
    rw [hf.setBits_set, ← h.used] at hle
    have hmod : (s.usedBlocks + n) % 2 ^ 32 = s.usedBlocks + n := Nat.mod_eq_of_lt (by omega)
    simp only [State.addUsed, hmod, hf.setBits_set, ← h.used]
  max := by
    simp only [State.addUsed]
    split_ifs with hlt
    · exact le_rfl
    · exact not_lt.mp hlt

/-! ### Two operations under the calls -/

theorem allocBlocks_spec (h : Inv p s held) (n : ℕ) :
    allocBlocks p s n = some (0, s) ∨
      ∃ ptr s' offset, allocBlocks p s n = some (ptr, s') ∧ ptr ≠ 0#32 ∧ ptr.toNat = p.addr offset ∧
        Inv p s' (held ++ blocksFrom p offset n) := by
  rcases s.bitmap.alloc_spec n with ⟨r, hr, halloc⟩ | ⟨bitmap', offset, halloc, hf⟩
  · left
    simp [allocBlocks, halloc, hr]
  right
  have hlt : offset < p.numBlocks := by
    have hle := hf.le
    have hpos := hf.pos
    rw [h.num] at hle
    omega
  refine ⟨_, _, offset, by simp [allocBlocks, halloc], fun hnull => ?_, toNat_block hlt,
    h.addUsed hf⟩
  have haddr := toNat_block hlt
  rw [hnull, Pool.addr] at haddr
  have hpos := p.buffer_pos
  simp at haddr
  omega

theorem region_eq (ptr : BitVec 32) (n : ℕ) :
    Client.region p ptr n = blocksFrom p (p.index ptr.toNat) n := rfl

theorem not_holds (h : Inv p s held) (hge : p.index ptr.toNat ≤ i)
    (hlt : i < p.index ptr.toNat + n) (hi : p.numBlocks ≤ i ∨ s.bitmap.bit i = false) :
    ¬ Client.Holds p held ptr n := by
  intro hholds
  have hmem := hholds.2 (p.addr i) (addr_mem_blocksFrom.mpr ⟨hge, hlt⟩)
  rcases hi with hi | hi
  · have := h.lt_numBlocks hmem
    omega
  · rw [(h.bits i).mpr hmem] at hi
    cases hi

theorem release_zero (ptr : BitVec 32) : Client.release p held ptr 0 = held := by
  rw [Client.release]
  split_ifs
  · rfl
  · rfl

/-- **A region is freed if the client holds it, and otherwise nothing changes.** -/
theorem freeBlocks_spec (h : Inv p s held) (ptr : BitVec 32) (n : ℕ) :
    Inv p (freeBlocks p s ptr n).2 (Client.release p held ptr n) ∧
      (¬ Client.Holds p held ptr n → (freeBlocks p s ptr n).2 = s) := by
  -- the calls that fail
  have hfail : (n = 0 ∨ ¬ Client.Holds p held ptr n) → Client.release p held ptr n = held := by
    rintro (rfl | hnot)
    · exact release_zero ptr
    · exact if_neg hnot
  have hkeep : ∀ {r : ℤ}, freeBlocks p s ptr n = (r, s) →
      (n = 0 ∨ ¬ Client.Holds p held ptr n) → Inv p (freeBlocks p s ptr n).2
        (Client.release p held ptr n) ∧
      (¬ Client.Holds p held ptr n → (freeBlocks p s ptr n).2 = s) := by
    intro r hr hnot
    rw [hr, hfail hnot]
    exact ⟨h, fun _ => rfl⟩
  by_cases hlow : ptr.toNat < p.buffer.toNat
  · refine hkeep (by rw [freeBlocks, if_pos hlow]) (.inr fun hholds => ?_)
    have := hholds.1
    omega
  by_cases hhigh : blockOffset p ptr ≥ p.numBlocks
  · refine hkeep (by rw [freeBlocks, if_neg hlow, if_pos hhigh]) ?_
    rcases Nat.eq_zero_or_pos n with hzero | hpos
    · exact .inl hzero
    · refine .inr (not_holds h le_rfl (by omega) (.inl ?_))
      by_contra hidx
      have := blockOffset_eq_index (not_lt.mp hlow) (not_le.mp hidx)
      omega
  obtain ⟨hle, hoff⟩ := blockOffset_of_lt (not_le.mp hhigh)
  have hsize : s.bitmap.numBits < 2 ^ 31 := by
    rw [h.num]
    exact p.numBlocks_lt
  rcases Bitarray.free_spec n (blockOffset p ptr) hsize with
    ⟨r, hr, hfree, hwhy⟩ | ⟨bitmap', hfree, hf⟩
  · refine hkeep (r := r) ?_ ?_
    · simp only [freeBlocks, if_neg hlow, if_neg hhigh, hfree, if_neg hr]
    rcases hwhy with hzero | ⟨i, hge, hlt, hi⟩
    · exact .inl hzero
    · rw [hoff] at hge hlt
      rw [h.num] at hi
      exact .inr (not_holds h hge hlt hi)
  have hholds : Client.Holds p held ptr n := by
    refine ⟨hle, fun a ha => ?_⟩
    obtain ⟨i, hi, rfl⟩ := mem_map.mp ha
    rw [mem_range] at hi
    exact (h.bits _).mp (hf.was _ (by omega) (by omega))
  refine ⟨?_, fun hnot => absurd hholds hnot⟩
  have hrep := h.toRep.give hf
  rw [hoff, ← region_eq] at hrep
  simp only [freeBlocks, if_neg hlow, if_neg hhigh, hfree, if_pos]
  rw [Client.release, if_pos hholds]
  have hbits := hf.setBits_clear
  have hused : (s.usedBlocks + (2 ^ 32 - n % 2 ^ 32)) % 2 ^ 32 = bitmap'.setBits := by
    have hcount := h.toRep.setBits_le
    have hnum := p.numBlocks_lt
    rw [h.used]
    omega
  refine ⟨hrep, hused, ?_⟩
  have hmax := h.max
  have heq := h.used
  simp only [hused]
  omega

/-! ### Calls -/

theorem freeLoop_spec (h : Inv p s held) (ret : ℤ) (ptrs : List (BitVec 32)) :
    Inv p (freeLoop p s ret ptrs).2
      (ptrs.foldl (fun held ptr => Client.release p held ptr 1) held) := by
  induction ptrs generalizing s held ret with
  | nil => exact h
  | cons ptr ptrs ih => exact ih (freeBlocks_spec h ptr 1).1 _

theorem freeLoop_eq_self (h : Inv p s held) (ret : ℤ) {ptrs : List (BitVec 32)}
    (hptrs : ∀ ptr ∈ ptrs, ¬ Client.Holds p held ptr 1) : (freeLoop p s ret ptrs).2 = s := by
  induction ptrs generalizing ret with
  | nil => rfl
  | cons ptr ptrs ih =>
    have hsame := (freeBlocks_spec h ptr 1).2 (hptrs ptr mem_cons_self)
    rcases hfree : freeBlocks p s ptr 1 with ⟨r, s'⟩
    rw [hfree] at hsame
    rw [freeLoop, hfree, ← hsame]
    rw [← hsame] at ih
    exact ih _ fun q hq => hptrs q (mem_cons_of_mem _ hq)

theorem sysMemBlocksFree_spec (h : Inv p s held) (ptrs : List (BitVec 32)) :
    Inv p (sysMemBlocksFree p s ptrs).2 (Client.step p held 0 [] (.free ptrs)) ∧
      ((∀ ptr ∈ ptrs, ¬ Client.Holds p held ptr 1) → (sysMemBlocksFree p s ptrs).2 = s) := by
  rw [sysMemBlocksFree, Client.step]
  by_cases hzero : ptrs.length = 0
  · rw [length_eq_zero_iff.mp hzero]
    exact ⟨by simpa using h, fun _ => rfl⟩
  by_cases hbig : ptrs.length > p.numBlocks
  · rw [if_neg hzero, if_pos hbig, if_neg (not_le.mpr hbig)]
    exact ⟨h, fun _ => rfl⟩
  · rw [if_neg hzero, if_neg hbig, if_pos (not_lt.mp hbig)]
    exact ⟨freeLoop_spec h 0 ptrs, freeLoop_eq_self h 0⟩

theorem allocLoop_spec (h : Inv p s held) (n : ℕ) (out : List (BitVec 32)) :
    ∃ new s', allocLoop p s n out = some (out ++ new, s') ∧ new.length ≤ n ∧
      Inv p s' (held ++ new.map (·.toNat)) := by
  induction n generalizing s held out with
  | zero => exact ⟨[], s, by simp [allocLoop], le_rfl, by simpa using h⟩
  | succ n ih =>
    rcases allocBlocks_spec h 1 with halloc | ⟨ptr, s', offset, halloc, hne, hptr, h'⟩
    · exact ⟨[], s, by simp [allocLoop, halloc], Nat.zero_le _, by simpa using h⟩
    obtain ⟨new, s'', hloop, hlen, h''⟩ := ih h' (out ++ [ptr])
    refine ⟨ptr :: new, s'', ?_, Nat.succ_le_succ hlen, ?_⟩
    · simp [allocLoop, halloc, hne, hloop]
    · have hblocks : blocksFrom p offset 1 = [ptr.toNat] := by simp [blocksFrom, hptr]
      rw [hblocks] at h''
      simpa using h''

theorem release_addr (hptr : ptr.toNat = p.addr k)
    (hmem : ptr.toNat ∈ held) : Client.release p held ptr 1 = held.erase ptr.toNat := by
  have hregion : Client.region p ptr 1 = [ptr.toNat] := by
    simp [Client.region, hptr, Pool.index_addr]
  have hholds : Client.Holds p held ptr 1 := by
    refine ⟨hptr ▸ Nat.le_add_right _ _, fun a ha => ?_⟩
    rw [hregion, mem_singleton] at ha
    rwa [ha]
  rw [Client.release, if_pos hholds, hregion, diff_cons, diff_nil]

theorem foldl_release {new : List (BitVec 32)} (h : Rep p bitmap' (held ++ new.map (·.toNat))) :
    new.foldl (fun held ptr => Client.release p held ptr 1) (held ++ new.map (·.toNat)) = held := by
  have hblocks := h.blocks
  have hnodup := h.nodup
  clear h
  induction new with
  | nil => simp
  | cons ptr new ih =>
    obtain ⟨k, -, hk⟩ := hblocks ptr.toNat (by simp)
    have hnot : ptr.toNat ∉ held := by
      intro hmem
      exact (disjoint_of_nodup_append hnodup) hmem (by simp)
    have hrelease : Client.release p (held ++ (ptr :: new).map (·.toNat)) ptr 1 =
        held ++ new.map (·.toNat) := by
      rw [release_addr hk (by simp), erase_append_right _ hnot]
      simp
    have hsub : (held ++ new.map (·.toNat)).Sublist (held ++ (ptr :: new).map (·.toNat)) :=
      List.Sublist.append_left (sublist_cons_self _ _) _
    rw [foldl_cons, hrelease]
    exact ih (fun a ha => hblocks a (hsub.subset ha)) (hnodup.sublist hsub)

theorem Inv.unique (h : Inv p s held) (h' : Inv p s' held) :
    s'.bitmap = s.bitmap ∧ s'.usedBlocks = s.usedBlocks := by
  have hbitmap : s'.bitmap = s.bitmap := by
    refine Bitarray.ext_bit (h'.num.trans h.num.symm) fun i => ?_
    rw [Bool.eq_iff_iff, h'.bits, h.bits]
  exact ⟨hbitmap, by rw [h'.used, h.used, hbitmap]⟩

/-- **An allocation hands out all its blocks or gives back those it took.** -/
theorem sysMemBlocksAlloc_spec (h : Inv p s held) (count : ℕ) :
    ∃ ret out s', sysMemBlocksAlloc p s count = some (ret, out, s') ∧
      Inv p s' (Client.step p held ret out (.alloc count)) := by
  rw [sysMemBlocksAlloc]
  split_ifs with hzero hbig
  · exact ⟨0, [], s, rfl, by simpa [Client.step] using h⟩
  · exact ⟨-ENOMEM, [], s, rfl, by simpa [Client.step, ENOMEM] using h⟩
  obtain ⟨new, s', hloop, hlen, h'⟩ := allocLoop_spec h count []
  rw [nil_append] at hloop
  by_cases hshort : new.length < count
  · refine ⟨-ENOMEM, new, (sysMemBlocksFree p s' new).2, by simp [hloop, hshort], ?_⟩
    have hfree := (sysMemBlocksFree_spec h' new).1
    rw [Client.step, if_pos (by omega), foldl_release h'.toRep] at hfree
    simpa [Client.step, ENOMEM] using hfree
  · exact ⟨0, new, s', by simp [hloop, hshort], by simpa [Client.step] using h'⟩

theorem sysMemBlocksAllocContiguous_spec (h : Inv p s held) (count : ℕ) :
    ∃ ret ptr s', sysMemBlocksAllocContiguous p s count = some (ret, ptr, s') ∧
      Inv p s' (Client.step p held ret [ptr] (.allocContiguous count)) := by
  rw [sysMemBlocksAllocContiguous]
  split_ifs with hzero hbig
  · exact ⟨0, 0, s, rfl, by simpa [Client.step, hzero, Client.handed] using h⟩
  · exact ⟨-ENOMEM, 0, s, rfl, by simpa [Client.step, ENOMEM] using h⟩
  rcases allocBlocks_spec h count with halloc | ⟨ptr, s', offset, halloc, hne, hptr, h'⟩
  · exact ⟨-ENOMEM, 0, s, by simp [halloc], by simpa [Client.step, ENOMEM] using h⟩
  refine ⟨0, ptr, s', by simp [halloc, hne], ?_⟩
  have hhanded : Client.handed p ptr count = blocksFrom p offset count := by
    refine map_congr_left fun i _ => ?_
    rw [hptr, Pool.addr, Pool.addr, Nat.add_mul, Nat.add_assoc]
  simpa [Client.step, hhanded] using h'

theorem sysMemBlocksGet_spec (h : Inv p s held) (ptr : BitVec 32) (count : ℕ) :
    Inv p (sysMemBlocksGet p s ptr count).2
      (Client.step p held (sysMemBlocksGet p s ptr count).1 [] (.get ptr count)) := by
  have hsize : s.bitmap.numBits < 2 ^ 31 := by
    rw [h.num]
    exact p.numBlocks_lt
  rw [sysMemBlocksGet]
  split_ifs with hzero hbig
  · simpa [Client.step, hzero, Client.region] using h
  · simpa [Client.step, ENOMEM] using h
  rcases Bitarray.testAndSetRegion_spec count (blockOffset p ptr) true hsize with
    ⟨r, hr, htest⟩ | ⟨bitmap', htest, hf⟩
  · simpa [htest, hr, Client.step, ENOMEM] using h
  have hlt : blockOffset p ptr < p.numBlocks := by
    have hle := hf.le
    have hpos := hf.pos
    rw [h.num] at hle
    omega
  have h' := h.addUsed hf
  rw [(blockOffset_of_lt hlt).2, ← region_eq] at h'
  simpa [htest, Client.step] using h'

theorem sysMemBlocksFreeContiguous_spec (h : Inv p s held) (ptr : BitVec 32) (count : ℕ) :
    Inv p (sysMemBlocksFreeContiguous p s ptr count).2 (Client.release p held ptr count) ∧
      (¬ Client.Holds p held ptr count → (sysMemBlocksFreeContiguous p s ptr count).2 = s) := by
  rw [sysMemBlocksFreeContiguous]
  split_ifs with hzero hbig
  · rw [hzero, release_zero]
    exact ⟨h, fun _ => rfl⟩
  · -- the last block of the region is not in the buffer
    have hnot : ¬ Client.Holds p held ptr count :=
      not_holds h (i := p.index ptr.toNat + (count - 1)) (by omega) (by omega) (.inl (by omega))
    rw [Client.release, if_neg hnot]
    exact ⟨h, fun _ => rfl⟩
  · exact freeBlocks_spec h ptr count

/-! ### Runs of calls -/

/-- **Every call returns and keeps the invariant.** -/
theorem Inv.step (h : Inv p s held) (op : Op) : ∃ ret out s',
    MemBlocks.step p s op = some (ret, out, s') ∧ Inv p s' (Client.step p held ret out op) := by
  cases op with
  | alloc count => exact sysMemBlocksAlloc_spec h count
  | allocContiguous count =>
    obtain ⟨ret, ptr, s', hcall, h'⟩ := sysMemBlocksAllocContiguous_spec h count
    exact ⟨ret, [ptr], s', by simp [MemBlocks.step, hcall], h'⟩
  | get ptr count => exact ⟨_, _, _, rfl, sysMemBlocksGet_spec h ptr count⟩
  | free ptrs => exact ⟨_, _, _, rfl, (sysMemBlocksFree_spec h ptrs).1⟩
  | freeContiguous ptr count =>
    exact ⟨_, _, _, rfl, (sysMemBlocksFreeContiguous_spec h ptr count).1⟩

theorem Inv.run (h : Inv p s held) (ops : List Op) :
    ∃ s' held', MemBlocks.run p ops s held = some (s', held') ∧ Inv p s' held' := by
  induction ops generalizing s held with
  | nil => exact ⟨s, held, rfl, h⟩
  | cons op ops ih =>
    obtain ⟨ret, out, s', hstep, h'⟩ := h.step op
    obtain ⟨s'', held'', hrun, h''⟩ := ih h'
    exact ⟨s'', held'', by simp [MemBlocks.run, hstep, hrun], h''⟩

def Op.takes : Op → Bool
  | .alloc _ | .allocContiguous _ | .get _ _ => true
  | .free _ | .freeContiguous _ _ => false

def Pool.bytes (p : Pool) (a : ℕ) : Finset ℕ := Finset.Ico a (a + p.blockSize)

structure Correct (p : Pool) (s : State) (held : List ℕ) : Prop where
  disjoint : held.Pairwise fun a b => Disjoint (p.bytes a) (p.bytes b)
  inside : ∀ a ∈ held,
    p.bytes a ⊆ Finset.Ico p.buffer.toNat (p.buffer.toNat + p.numBlocks * p.blockSize)
  used : s.usedBlocks = s.bitmap.setBits
  max : s.usedBlocks ≤ s.maxUsedBlocks
  failed : ∀ op, ∃ ret out s', step p s op = some (ret, out, s') ∧
    (op.takes → ret ≠ 0 → s'.bitmap = s.bitmap ∧ s'.usedBlocks = s.usedBlocks)
  free : ∀ ptrs, (∀ ptr ∈ ptrs, ¬ Client.Holds p held ptr 1) → (sysMemBlocksFree p s ptrs).2 = s
  freeContiguous : ∀ ptr count, ¬ Client.Holds p held ptr count →
    (sysMemBlocksFreeContiguous p s ptr count).2 = s

theorem Pool.disjoint_bytes (h : i ≠ k) : Disjoint (p.bytes (p.addr i)) (p.bytes (p.addr k)) := by
  have hcases : (i + 1) * p.blockSize ≤ k * p.blockSize ∨
      (k + 1) * p.blockSize ≤ i * p.blockSize := by
    rcases Nat.lt_or_gt_of_ne h with hlt | hlt
    · exact .inl (Nat.mul_le_mul_right _ hlt)
    · exact .inr (Nat.mul_le_mul_right _ hlt)
  rw [Finset.disjoint_left]
  intro a ha ha'
  simp only [Pool.bytes, Pool.addr, Finset.mem_Ico, Nat.succ_mul] at ha ha' hcases
  omega

theorem Inv.correct (h : Inv p s held) : Correct p s held where
  disjoint := by
    refine h.nodup.imp_of_mem fun ha hb hne => ?_
    obtain ⟨i, -, rfl⟩ := h.blocks _ ha
    obtain ⟨k, -, rfl⟩ := h.blocks _ hb
    exact Pool.disjoint_bytes fun heq => hne (heq ▸ rfl)
  inside a ha := by
    obtain ⟨k, hk, rfl⟩ := h.blocks a ha
    exact Finset.Ico_subset_Ico (Nat.le_add_right _ _) (Pool.addr_add_le hk)
  used := h.used
  max := h.max
  failed op := by
    obtain ⟨ret, out, s', hstep, h'⟩ := h.step op
    refine ⟨ret, out, s', hstep, fun htakes hret => h.unique ?_⟩
    cases op with
    | alloc | allocContiguous | get => rwa [Client.step, if_neg hret] at h'
    | free | freeContiguous => cases htakes
  free ptrs := (sysMemBlocksFree_spec h ptrs).2
  freeContiguous ptr count := (sysMemBlocksFreeContiguous_spec h ptr count).2

/-- **After any sequence of calls** the blocks held are disjoint and in the buffer, the counters
agree with the bit array, and a call that fails, or frees what is not allocated, changes nothing. -/
theorem mem_blocks_correct (p : Pool) (ops : List Op) :
    ∃ s held, run p ops (define p) [] = some (s, held) ∧
      (∀ i, s.bitmap.bit i = true ↔ p.addr i ∈ held) ∧ Correct p s held := by
  obtain ⟨s, held, hrun, h⟩ := (define_inv p).run ops
  exact ⟨s, held, hrun, h.bits, h.correct⟩

/-- **A contiguous allocation fails only for want of room**: after any sequence of calls, if it
fails, the client holds a block of every region of that size. -/
theorem mem_blocks_contiguous_complete (p : Pool) (ops : List Op) (count : ℕ) :
    ∃ s held ret ptr s', run p ops (define p) [] = some (s, held) ∧
      sysMemBlocksAllocContiguous p s count = some (ret, ptr, s') ∧ (ret ≠ 0 →
        ∀ k, k + count ≤ p.numBlocks → ∃ i, k ≤ i ∧ i < k + count ∧ p.addr i ∈ held) := by
  obtain ⟨s, held, hrun, h⟩ := (define_inv p).run ops
  refine ⟨s, held, ?_⟩
  have hnum := h.num
  rw [sysMemBlocksAllocContiguous]
  split_ifs with hzero hbig
  · exact ⟨_, _, _, hrun, rfl, by simp⟩
  · exact ⟨_, _, _, hrun, rfl, by omega⟩
  rcases s.bitmap.alloc_first count (by omega) (by omega) with ⟨ha, hnone⟩ | ⟨b, o, ha, hf, -⟩
  · refine ⟨_, _, _, hrun, by simp [allocBlocks, ha]; rfl, fun _ k hk => ?_⟩
    by_contra! hfree
    exact hnone k ⟨by omega, by simpa [← h.bits] using hfree⟩
  rcases allocBlocks_spec h count with hfail | ⟨ptr, s', -, hok, hptr, -⟩
  · -- a failure leaves the state as it is, but bit `o` was clear and is set
    have hb : b = s.bitmap := by
      simpa [allocBlocks, ha, State.addUsed] using congrArg (·.map (·.2.bitmap)) hfail
    have hset := hf.bit o
    simp [hb, hf.was o le_rfl (by omega), Nat.pos_of_ne_zero hzero] at hset
  · exact ⟨0, ptr, s', hrun, by simp [hok, hptr], by simp⟩

end MemBlocks

end TlZephyr
