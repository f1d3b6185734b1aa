import Mathlib

/-!
# Buckets of the System Heap

The sizes and bucket numbers of `heap.c` and `heap.h`: `sys_heap_init` reserves a list head for each
power of two up to the size of the heap, and `alloc_chunk` starts at the bucket of the size asked
for. `size_too_big` compares the bytes alone with the heap; the header and the padding for an
alignment are added after it. `size_t` arithmetic wraps around, and a number of units has 32 bits.
-/

namespace TlZephyr

/-- The configuration the heap code is compiled with. -/
structure HeapConfig where
  /-- `CONFIG_SYS_HEAP_SMALL_ONLY` -/
  smallOnly : Bool
  /-- `CONFIG_SYS_HEAP_BIG_ONLY` -/
  bigOnly : Bool
  /-- `sizeof(void *) > 4` -/
  ptr64 : Bool
  /-- `CONFIG_SYS_HEAP_RUNTIME_STATS` -/
  runtimeStats : Bool
deriving DecidableEq, Repr

namespace HeapConfig

/-- Range of `size_t` and `uintptr_t`. -/
def wordRange (cfg : HeapConfig) : ℕ := if cfg.ptr64 then 2 ^ 64 else 2 ^ 32

/-- Wrap-around of `size_t` arithmetic. -/
def wrap (cfg : HeapConfig) (x : ℕ) : ℕ := x % cfg.wordRange

/-- `sizeof(struct z_heap)`: four 32-bit words, and three `size_t` with runtime stats. -/
def zHeapBytes (cfg : HeapConfig) : ℕ :=
  if cfg.runtimeStats then (if cfg.ptr64 then 40 else 28) else 16

/-- `big_heap_chunks` -/
def bigHeapChunks (cfg : HeapConfig) (chunks : ℕ) : Bool :=
  if cfg.smallOnly then false
  else if cfg.bigOnly || cfg.ptr64 then true
  else decide (0x7fff < chunks)

/-- `heap_footer_bytes` -/
def heapFooterBytes (cfg : HeapConfig) (size : ℕ) : ℕ :=
  if cfg.bigHeapChunks (size / 8) then 8 else 4

/-- `chunksz` -/
def chunksz (cfg : HeapConfig) (bytes : ℕ) : ℕ := cfg.wrap (bytes + 7) / 8 % 2 ^ 32

end HeapConfig

/-- What the sizes in a `struct z_heap` depend on. -/
structure ZHeap where
  cfg : HeapConfig
  endChunk : ℕ
deriving DecidableEq, Repr

namespace ZHeap

/-- `chunk_header_bytes` -/
def chunkHeaderBytes (h : ZHeap) : ℕ := if h.cfg.bigHeapChunks h.endChunk then 8 else 4

/-- `bytes_to_chunksz` -/
def bytesToChunksz (h : ZHeap) (bytes : ℕ) : ℕ := h.cfg.chunksz (h.chunkHeaderBytes + bytes)

/-- `min_chunk_size` -/
def minChunkSize (h : ZHeap) : ℕ := h.bytesToChunksz 1

/-- `bucket_idx`; `__builtin_clz` is not defined at 0. -/
def bucketIdx (h : ZHeap) (sz : ℕ) : Option ℕ :=
  if (sz + 2 ^ 32 + 1 - h.minChunkSize) % 2 ^ 32 = 0 then none
  else some (Nat.log2 ((sz + 2 ^ 32 + 1 - h.minChunkSize) % 2 ^ 32))

/-- `nb_buckets` -/
def nbBuckets (h : ZHeap) : ℕ := (h.bucketIdx h.endChunk).getD 0 + 1

/-- `size_too_big` -/
def sizeTooBig (h : ZHeap) (bytes : ℕ) : Bool := decide (h.endChunk ≤ bytes / 8)

/-- Size that `sys_heap_alloc` passes to `alloc_chunk`, if it gets there. -/
def sysHeapAlloc (h : ZHeap) (bytes : ℕ) : Option ℕ :=
  if bytes = 0 ∨ h.sizeTooBig bytes then none else some (h.bytesToChunksz bytes)

/-- `rew = align & -align` -/
def rewind (h : ZHeap) (align : ℕ) : ℕ := align &&& h.cfg.wrap (h.cfg.wordRange - align)

/-- Size that `sys_heap_aligned_alloc` passes to `alloc_chunk`, if it gets there. -/
def sysHeapAlignedAlloc (h : ZHeap) (align bytes : ℕ) : Option ℕ :=
  if align = h.rewind align ∧ align ≤ h.chunkHeaderBytes then h.sysHeapAlloc bytes
  else if bytes = 0 ∨ h.sizeTooBig bytes then none
  else
    some (h.bytesToChunksz (h.cfg.wrap (if align = h.rewind align
      then bytes + align - h.chunkHeaderBytes
      else bytes + (align - h.rewind align) - min (h.rewind align) h.chunkHeaderBytes)))

/-- First test of `alloc_chunk`: the bucket of the size has a list head. -/
def BucketInRange (h : ZHeap) (sz : ℕ) : Prop := ∃ bi, h.bucketIdx sz = some bi ∧ bi < h.nbBuckets

/-- Units of an aligned request, in the arithmetic of `size_t` and of 32-bit sizes. -/
def paddedUnits (h : ZHeap) (align bytes : ℕ) : ℕ :=
  h.cfg.wrap (h.chunkHeaderBytes + (if align = h.rewind align then
      if align ≤ h.chunkHeaderBytes then bytes else bytes + align - h.chunkHeaderBytes
    else bytes + (align - h.rewind align) - min (h.rewind align) h.chunkHeaderBytes) + 7) / 8 % 2 ^ 32

end ZHeap

/-- `sys_heap_init`, with the assertions that must hold. -/
def sysHeapInit (cfg : HeapConfig) (mem bytes : ℕ) : Option ZHeap :=
  let addr := cfg.wrap (mem + 7) / 8 * 8
  let stop := cfg.wrap (mem + (bytes - cfg.heapFooterBytes bytes)) / 8 * 8
  let h : ZHeap := ⟨cfg, (stop - addr) / 8⟩
  if bytes / 8 ≤ (if cfg.smallOnly then 0x7fff else 0x7fffffff) ∧ cfg.heapFooterBytes bytes < bytes ∧
      addr < stop ∧ cfg.chunksz cfg.zHeapBytes < h.endChunk ∧
      cfg.chunksz (cfg.zHeapBytes + h.nbBuckets * 4) + h.minChunkSize ≤ h.endChunk then
    some h
  else none

open HeapConfig

namespace ZHeap

variable {h : ZHeap}

/-- What the assertions of `sys_heap_init` give. -/
structure Valid (h : ZHeap) : Prop where
  minChunkSize_le : h.minChunkSize ≤ h.endChunk
  endChunk_lt : h.endChunk < 2 ^ 31
  bytes_lt : 8 * h.endChunk + 16 ≤ h.cfg.wordRange

theorem chunkHeaderBytes_cases (h : ZHeap) :
    (h.chunkHeaderBytes = 4 ∧ h.minChunkSize = 1) ∨ (h.chunkHeaderBytes = 8 ∧ h.minChunkSize = 2) := by
  have hword : h.cfg.wordRange = 2 ^ 32 ∨ h.cfg.wordRange = 2 ^ 64 := by
    unfold wordRange
    split_ifs <;> simp
  simp only [minChunkSize, bytesToChunksz, chunksz, wrap, chunkHeaderBytes]
  split_ifs <;> rcases hword with hword | hword <;> rw [hword] <;> decide

/-- The heap is no larger than its buffer, which does not reach the last bytes of the address
space. -/
theorem valid_sysHeapInit {cfg : HeapConfig} {mem bytes : ℕ} (hmem : mem + bytes + 7 ≤ cfg.wordRange)
    (hinit : sysHeapInit cfg mem bytes = some h) : h.Valid := by
  simp only [sysHeapInit, Option.ite_none_right_eq_some] at hinit
  obtain ⟨⟨hbig, hfooter, hlt, -, hmin⟩, hh⟩ := hinit
  cases hh
  have hfour : 4 ≤ cfg.heapFooterBytes bytes := by
    unfold heapFooterBytes
    split_ifs <;> omega
  have hword : cfg.wordRange % 8 = 0 := by
    unfold wordRange
    split_ifs <;> rfl
  have hstart : cfg.wrap (mem + 7) = mem + 7 := Nat.mod_eq_of_lt (by omega)
  have hstop : cfg.wrap (mem + (bytes - cfg.heapFooterBytes bytes)) =
      mem + (bytes - cfg.heapFooterBytes bytes) := Nat.mod_eq_of_lt (by omega)
  rw [hstart, hstop] at hlt hmin ⊢
  refine ⟨le_trans (Nat.le_add_left _ _) hmin, ?_, ?_⟩
  · have : bytes / 8 ≤ 0x7fffffff := by
      refine hbig.trans ?_
      split_ifs <;> omega
    simp only
    omega
  · simp only
    omega

/-- **The bucket of a size has a list head** if it is not after that of the whole heap. -/
theorem bucketInRange_iff (hv : h.Valid) {sz : ℕ} (hsz : sz < 2 ^ 32) :
    h.BucketInRange sz ↔ h.minChunkSize ≤ sz ∧ sz + 2 ≤ h.minChunkSize + 2 ^ h.nbBuckets := by
  obtain ⟨hmin, hend, -⟩ := hv
  have hpos : 1 ≤ h.minChunkSize ∧ h.minChunkSize ≤ 2 := by
    rcases h.chunkHeaderBytes_cases with ⟨-, h1⟩ | ⟨-, h1⟩ <;> omega
  have hidx : ∀ x, h.minChunkSize ≤ x → x < 2 ^ 32 →
      h.bucketIdx x = some (Nat.log2 (x + 1 - h.minChunkSize)) := by
    intro x hx hlt
    have hmod : (x + 2 ^ 32 + 1 - h.minChunkSize) % 2 ^ 32 = x + 1 - h.minChunkSize := by omega
    rw [bucketIdx, hmod, if_neg (by omega)]
  by_cases hle : h.minChunkSize ≤ sz
  · simp only [BucketInRange, hidx sz hle hsz, Option.some.injEq, exists_eq_left', hle, true_and]
    rw [Nat.log2_lt (by omega)]
    omega
  refine iff_of_false ?_ fun hin => hle hin.1
  rintro ⟨bi, hbi, hlt⟩
  -- the size wraps around: it is either no size at all or in the last of 32 buckets
  have hnb : h.nbBuckets ≤ 31 := by
    rw [nbBuckets, hidx _ hmin (by omega), Option.getD_some]
    have := (Nat.log2_lt (n := h.endChunk + 1 - h.minChunkSize) (k := 31) (by omega)).2 (by omega)
    omega
  rw [bucketIdx] at hbi
  split_ifs at hbi with h0
  cases hbi
  have hwrap : (sz + 2 ^ 32 + 1 - h.minChunkSize) % 2 ^ 32 = 2 ^ 32 - 1 := by omega
  rw [hwrap] at hlt
  have h31 : Nat.log2 (2 ^ 32 - 1) = 31 := by decide +kernel
  omega

theorem nbBuckets_spec (hv : h.Valid) : 2 ^ (h.nbBuckets - 1) ≤ h.endChunk + 1 - h.minChunkSize ∧
    h.endChunk + 1 - h.minChunkSize < 2 ^ h.nbBuckets := by
  obtain ⟨hmin, hend, -⟩ := hv
  have hmod : (h.endChunk + 2 ^ 32 + 1 - h.minChunkSize) % 2 ^ 32 =
      h.endChunk + 1 - h.minChunkSize := by
    rcases h.chunkHeaderBytes_cases with ⟨-, h1⟩ | ⟨-, h1⟩ <;> omega
  have hne : h.endChunk + 1 - h.minChunkSize ≠ 0 := by omega
  rw [nbBuckets, bucketIdx, hmod, if_neg hne, Option.getD_some, Nat.add_sub_cancel]
  exact ⟨Nat.log2_self_le hne, Nat.lt_log2_self⟩

theorem sysHeapAlignedAlloc_eq {align bytes sz : ℕ} (hreq : h.sysHeapAlignedAlloc align bytes = some sz) :
    sz = h.paddedUnits align bytes := by
  have hwrap : ∀ x, h.bytesToChunksz (h.cfg.wrap x) =
      h.cfg.wrap (h.chunkHeaderBytes + x + 7) / 8 % 2 ^ 32 := by
    intro x
    simp only [bytesToChunksz, chunksz, wrap, Nat.add_mod, Nat.mod_mod]
  simp only [sysHeapAlignedAlloc, sysHeapAlloc] at hreq
  by_cases hrew : align = h.rewind align
  · by_cases hle : align ≤ h.chunkHeaderBytes
    · rw [if_pos ⟨hrew, hle⟩] at hreq
      split_ifs at hreq
      rw [paddedUnits, if_pos hrew, if_pos hle]
      exact (Option.some.inj hreq).symm
    · rw [if_neg fun h => hle h.2, if_pos hrew] at hreq
      split_ifs at hreq
      rw [paddedUnits, if_pos hrew, if_neg hle, ← hwrap]
      exact (Option.some.inj hreq).symm
  · rw [if_neg fun h => hrew h.1, if_neg hrew] at hreq
    split_ifs at hreq
    rw [paddedUnits, if_neg hrew, ← hwrap]
    exact (Option.some.inj hreq).symm

end ZHeap

open ZHeap

/-- **The bucket that `alloc_chunk` starts at has a list head**: for `sys_heap_alloc`, iff bytes and
header fit into the heap, or one unit more is still in the last bucket; for
`sys_heap_aligned_alloc`, iff the padded size is a size of the buckets. -/
theorem alloc_bucket_in_range (cfg : HeapConfig) (mem size : ℕ)
    (hmem : mem + size + 7 ≤ cfg.wordRange) (h : ZHeap) (hinit : sysHeapInit cfg mem size = some h) :
    (∀ bytes sz, h.sysHeapAlloc bytes = some sz →
      (h.BucketInRange sz ↔ h.chunkHeaderBytes + bytes ≤ 8 * h.endChunk ∨
        ¬∃ k, h.endChunk + 2 = h.minChunkSize + 2 ^ k)) ∧
    ∀ align bytes sz, h.sysHeapAlignedAlloc align bytes = some sz →
      (h.BucketInRange sz ↔ h.minChunkSize ≤ h.paddedUnits align bytes ∧
        h.paddedUnits align bytes + 2 ≤ h.minChunkSize + 2 ^ h.nbBuckets) := by
  have hv := valid_sysHeapInit hmem hinit
  have hsz : ∀ bytes, h.bytesToChunksz bytes < 2 ^ 32 := fun bytes => Nat.mod_lt _ (by norm_num)
  refine ⟨fun bytes sz hreq => ?_, fun align bytes sz hreq => ?_⟩
  · simp only [sysHeapAlloc, Option.ite_none_left_eq_some, not_or] at hreq
    obtain ⟨⟨hpos, hbig⟩, hreq⟩ := hreq
    cases hreq
    simp only [sizeTooBig, decide_eq_true_eq, not_le] at hbig
    obtain ⟨hlow, hhigh⟩ := nbBuckets_spec hv
    obtain ⟨hmin, hend, hword⟩ := hv
    rw [bucketInRange_iff ⟨hmin, hend, hword⟩ (hsz bytes)]
    have hunits : h.bytesToChunksz bytes = (h.chunkHeaderBytes + bytes + 7) / 8 := by
      have hhdr : h.chunkHeaderBytes ≤ 8 := by
        rcases h.chunkHeaderBytes_cases with ⟨h1, -⟩ | ⟨h1, -⟩ <;> omega
      have hwrap : h.cfg.wrap (h.chunkHeaderBytes + bytes + 7) = h.chunkHeaderBytes + bytes + 7 :=
        Nat.mod_eq_of_lt (by omega)
      rw [bytesToChunksz, chunksz, hwrap, Nat.mod_eq_of_lt (by omega)]
    -- one unit more than the heap is out of range if it starts a new bucket
    have hpow : (∃ k, h.endChunk + 2 = h.minChunkSize + 2 ^ k) ↔
        h.endChunk + 2 = h.minChunkSize + 2 ^ h.nbBuckets := by
      refine ⟨?_, fun hk => ⟨_, hk⟩⟩
      rintro ⟨k, hk⟩
      have hle : k ≤ h.nbBuckets := (Nat.pow_le_pow_iff_right (a := 2) (by norm_num)).1 (by omega)
      have hge : h.nbBuckets - 1 < k := (Nat.pow_lt_pow_iff_right (a := 2) (by norm_num)).1 (by omega)
      rw [hk, show k = h.nbBuckets by omega]
    rw [hpow, hunits]
    clear hpow
    rcases h.chunkHeaderBytes_cases with ⟨h1, h2⟩ | ⟨h1, h2⟩ <;> rw [h1] <;> omega
  · rw [← sysHeapAlignedAlloc_eq hreq]
    refine bucketInRange_iff hv ?_
    rw [sysHeapAlignedAlloc_eq hreq]
    exact Nat.mod_lt _ (by norm_num)

/-- A heap of 31 units, and an aligned allocation in it. -/
theorem alloc_bucket_in_range_aligned :
    ∃ h : ZHeap, sysHeapInit ⟨false, false, false, false⟩ 0 252 = some h ∧
      h.sysHeapAlignedAlloc 16 100 = some 15 ∧ h.BucketInRange 15 :=
  ⟨_, rfl, rfl, ((alloc_bucket_in_range ⟨false, false, false, false⟩ 0 252 (by decide) _ rfl).2 16 100 15 rfl).2 (by decide)⟩

/-- **An allocation of 245 bytes in a heap of 31 units** starts at the sixth of five buckets. -/
theorem alloc_bucket_out_of_range :
    ∃ h : ZHeap, sysHeapInit ⟨false, false, false, false⟩ 0 252 = some h ∧ h.nbBuckets = 5 ∧
      h.sysHeapAlloc 245 = some 32 ∧ h.bucketIdx 32 = some 5 :=
  ⟨_, rfl, by decide, by decide, by decide⟩

end TlZephyr
