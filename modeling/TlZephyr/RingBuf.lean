import TlZephyr.Errno
import TlZephyr.Lib.Memory
import TlZephyr.Lib.Ring
import TlZephyr.Lib.Word32

/-!
# Byte Ring Buffer

Model of `ring_buffer.c` and the inline functions of `ring_buffer.h`. The two indices are
`int32_t` counters that run on and wrap; their differences are taken modulo `2 ^ 32`. Each
index keeps, next to the claimed head and the finished tail, the counter value at which the
buffer started over last, so that a position in the buffer is a difference as well.

The abstraction `RingBuf.Holds` unrolls the counters to numbers that never wrap.
-/

namespace TlZephyr

open Memory Word32 List Ring

/-- `struct ring_buf_index`; a counter is its residue modulo `2 ^ 32`. -/
structure RingBufIndex where
  head : ℕ
  tail : ℕ
  base : ℕ

/-- `struct ring_buf`. -/
structure RingBuf where
  size : ℕ
  buffer : Mem
  put : RingBufIndex
  get : RingBufIndex

/-- `ring_buf_area_claim`: the size claimed, the position of the area, the index after. -/
def ringBufAreaClaim (bufSize : ℕ) (ring : RingBufIndex) (size : ℕ) : ℕ × ℕ × RingBufIndex :=
  let wrap := sub32 ring.head ring.base
  -- `base` may not be adjusted yet
  let wrapSize := if bufSize ≤ wrap then sub32 wrap bufSize else wrap
  let base := if bufSize ≤ wrap then add32 ring.base bufSize else ring.base
  let claimed := min size (sub32 bufSize wrapSize)
  (claimed, sub32 ring.head base, { ring with head := add32 ring.head claimed })

/-- `ring_buf_area_finish`: the result and the index after. -/
def ringBufAreaFinish (bufSize : ℕ) (ring : RingBufIndex) (size : ℕ) : ℤ × RingBufIndex :=
  if sub32 ring.head ring.tail < size then (-EINVAL, ring)
  else
    let tail := add32 ring.tail size
    let base := if bufSize ≤ sub32 tail ring.base then add32 ring.base bufSize else ring.base
    (0, ⟨tail, tail, base⟩)

namespace RingBuf

/-- `ring_buf_init`. -/
def init (size : ℕ) (buffer : Mem) : RingBuf := ⟨size, buffer, ⟨0, 0, 0⟩, ⟨0, 0, 0⟩⟩

/-- `ring_buf_is_empty`. -/
def isEmpty (buf : RingBuf) : Bool := buf.get.head = buf.put.tail

/-- `ring_buf_space_get`. -/
def spaceGet (buf : RingBuf) : ℕ := sub32 buf.size (sub32 buf.put.head buf.get.tail)

/-- `ring_buf_size_get`. -/
def sizeGet (buf : RingBuf) : ℕ := sub32 buf.put.tail buf.get.head

/-- `ring_buf_put_claim`. -/
def putClaim (buf : RingBuf) (size : ℕ) : ℕ × ℕ × RingBufIndex :=
  ringBufAreaClaim buf.size buf.put (min size buf.spaceGet)

/-- `ring_buf_get_claim`. -/
def getClaim (buf : RingBuf) (size : ℕ) : ℕ × ℕ × RingBufIndex :=
  ringBufAreaClaim buf.size buf.get (min size buf.sizeGet)

/-- `ring_buf_put_finish`. -/
def putFinish (buf : RingBuf) (size : ℕ) : ℤ × RingBuf :=
  let r := ringBufAreaFinish buf.size buf.put size
  (r.1, { buf with put := r.2 })

/-- `ring_buf_get_finish`. -/
def getFinish (buf : RingBuf) (size : ℕ) : ℤ × RingBuf :=
  let r := ringBufAreaFinish buf.size buf.get size
  (r.1, { buf with get := r.2 })

/-- Loop of `ring_buf_put`. Every turn but the last copies a byte at least. -/
def putLoop : ℕ → RingBuf → List UInt8 → ℕ → RingBuf × ℕ
  | 0, buf, _, total => (buf, total)
  | n + 1, buf, data, total =>
    let c := buf.putClaim data.length
    if c.1 = 0 then ({ buf with put := c.2.2 }, total)
    else
      let buf' : RingBuf :=
        { buf with put := c.2.2, buffer := storeBytes buf.buffer c.2.1 (data.take c.1) }
      if data.length - c.1 = 0 then (buf', total + c.1)
      else putLoop n buf' (data.drop c.1) (total + c.1)

/-- `ring_buf_put`: the number of bytes taken over and the buffer after. -/
def putBytes (buf : RingBuf) (data : List UInt8) : ℕ × RingBuf :=
  let r := putLoop (data.length + 1) buf data 0
  (r.2, { r.1 with put := (ringBufAreaFinish buf.size r.1.put r.2).2 })

/-- Loop of `ring_buf_get`: the buffer after it and the bytes copied. -/
def getLoop : ℕ → RingBuf → ℕ → List UInt8 → RingBuf × List UInt8
  | 0, buf, _, out => (buf, out)
  | n + 1, buf, size, out =>
    let c := buf.getClaim size
    if c.1 = 0 then ({ buf with get := c.2.2 }, out)
    else
      let out' := out ++ loadBytes buf.buffer c.2.1 c.1
      if size - c.1 = 0 then ({ buf with get := c.2.2 }, out')
      else getLoop n { buf with get := c.2.2 } (size - c.1) out'

/-- `ring_buf_get`: the bytes copied and the buffer after. -/
def getBytes (buf : RingBuf) (size : ℕ) : List UInt8 × RingBuf :=
  let r := getLoop (size + 1) buf size []
  (r.2, { r.1 with get := (ringBufAreaFinish buf.size r.1.get r.2.length).2 })

/-- `ring_buf_peek`: as `ring_buf_get`, but nothing is finished. -/
def peekBytes (buf : RingBuf) (size : ℕ) : List UInt8 × RingBuf :=
  let r := getLoop (size + 1) buf size []
  (r.2, { r.1 with get := (ringBufAreaFinish buf.size r.1.get 0).2 })

end RingBuf

/-! ### Counters -/

/-- An index in a transfer: claimed up to `x`, finished up to `t`, all without wrapping. -/
structure RingBufIndex.At (ring : RingBufIndex) (size x t b : ℕ) : Prop where
  head : ring.head = x % 2 ^ 32
  tail : ring.tail = t % 2 ^ 32
  base : ring.base = b % 2 ^ 32
  base_le : b ≤ t
  tail_lt : t ≤ b + size ∧ (size ≠ 0 → t < b + size)
  tail_le : t ≤ x
  head_le : x ≤ t + size
  dvd : size ∣ b

namespace RingBufIndex.At

variable {ring : RingBufIndex} {size x t b : ℕ}

/-- **A claim** is what is asked for, cut at the end of the buffer, at the position of the
head. -/
theorem claim (h : ring.At size x t b) (hsize : size < 2 ^ 31) (n : ℕ) (hn : x + n ≤ t + size) :
    let r := ringBufAreaClaim size ring n
    r.1 = min n (size - x % size) ∧ r.2.1 = x % size ∧ r.2.2.At size (x + r.1) t b := by
  obtain ⟨k, rfl⟩ := h.dvd
  have h1 := h.base_le
  have h2 := h.tail_lt
  have h3 := h.tail_le
  have hwrap : sub32 ring.head ring.base = x - size * k := by
    rw [h.head, h.base]
    exact sub32_mod (by omega) (by omega)
  have hmod : x % size = if size ≤ x - size * k then x - size * k - size else x - size * k := by
    rcases Nat.eq_zero_or_pos size with h0 | hpos
    · subst h0
      simp
    split
    · rw [show x = (x - size * k - size) + size * (k + 1) by rw [Nat.mul_succ]; omega,
        Nat.add_mul_mod_self_left, Nat.mod_eq_of_lt (by omega)]
      rw [Nat.mul_succ]
      omega
    · conv_lhs => rw [show x = (x - size * k) + size * k by omega]
      rw [Nat.add_mul_mod_self_left, Nat.mod_eq_of_lt (by omega)]
  have hfirst : (ringBufAreaClaim size ring n).1 = min n (size - x % size) := by
    simp only [ringBufAreaClaim, hwrap]
    rw [hmod]
    split
    · rw [sub32_of_le (x := x - size * k) (by omega) (by omega), sub32_of_le (by omega) (by omega)]
    · rw [sub32_of_le (by omega) (by omega)]
  intro r
  refine ⟨hfirst, ?_, ?_⟩
  · simp only [r, ringBufAreaClaim, hwrap]
    rw [hmod, h.head, h.base]
    split
    · rw [add32_mod, sub32_mod (by omega) (by omega)]
      omega
    · rw [sub32_mod (by omega) (by omega)]
  have hle : r.1 ≤ n := by
    rw [hfirst]
    exact Nat.min_le_left _ _
  refine ⟨?_, h.tail, h.base, h1, h2, by omega, by omega, ⟨k, rfl⟩⟩
  change add32 ring.head r.1 = _
  rw [h.head, add32_mod]

theorem claimed (h : ring.At size x t b) (hsize : size < 2 ^ 31) :
    sub32 ring.head ring.tail = x - t := by
  have h4 := h.head_le
  rw [h.head, h.tail]
  exact sub32_mod h.tail_le (by omega)

theorem tail_mod (h : ring.At size x t b) (hsize : size < 2 ^ 31) (hpos : 0 < size) :
    sub32 ring.tail ring.base = t % size := by
  have h1 := h.base_le
  have h2 := h.tail_lt.2 (by omega)
  obtain ⟨k, hk⟩ := h.dvd
  rw [h.tail, h.base, sub32_mod h1 (by omega)]
  conv_rhs => rw [show t = (t - b) + size * k by omega]
  rw [Nat.add_mul_mod_self_left, Nat.mod_eq_of_lt (by omega)]

variable {n : ℕ}

/-- **Finishing** moves the tail on and gives the rest of the claim back. -/
theorem finish (h : ring.At size x t b) (hsize : size < 2 ^ 31) (hn : t + n ≤ x) :
    (ringBufAreaFinish size ring n).1 = 0 ∧
      ∃ b', (ringBufAreaFinish size ring n).2.At size (t + n) (t + n) b' := by
  have h1 := h.base_le
  have h2 := h.tail_lt
  have h4 := h.head_le
  have htail : add32 ring.tail n = (t + n) % 2 ^ 32 := by rw [h.tail, add32_mod]
  have hwrap : sub32 ((t + n) % 2 ^ 32) ring.base = t + n - b := by
    rw [h.base]
    exact sub32_mod (by omega) (by omega)
  rw [ringBufAreaFinish, h.claimed hsize, if_neg (by omega)]
  simp only [htail, hwrap]
  refine ⟨trivial, ?_⟩
  by_cases hover : size ≤ t + n - b
  · refine ⟨b + size, rfl, rfl, ?_, by omega, ⟨by omega, fun h0 => ?_⟩, le_rfl, by omega,
      (Nat.dvd_add_self_right).mpr h.dvd⟩
    · simp only [if_pos hover, h.base, add32_mod]
    · have := h2.2 h0
      omega
  · refine ⟨b, rfl, rfl, ?_, by omega, ⟨by omega, fun _ => by omega⟩, le_rfl, by omega, h.dvd⟩
    simp only [if_neg hover, h.base]

theorem finish_of_lt (h : ring.At size x t b) (hsize : size < 2 ^ 31) (hn : x - t < n) :
    ringBufAreaFinish size ring n = (-EINVAL, ring) := by
  rw [ringBufAreaFinish, h.claimed hsize, if_pos hn]

end RingBufIndex.At

/-! ### Transfers -/

namespace RingBuf

/-- Buffer in a transfer: claimed up to `x` and `y`, finished up to `p` and `g`. -/
structure Mid (buf : RingBuf) (x p pb y g gb : ℕ) : Prop where
  size_lt : buf.size < 2 ^ 31
  put : buf.put.At buf.size x p pb
  get : buf.get.At buf.size y g gb
  order : y ≤ p
  room : x ≤ g + buf.size

/-- The buffer holds the bytes between the two counters, outside of transfers. -/
def Holds (buf : RingBuf) (bytes : List UInt8) : Prop :=
  ∃ p pb g gb, buf.Mid p p pb g g gb ∧ bytes = contents buf.buffer buf.size g (p - g)

theorem holds_init {size : ℕ} (hsize : size < 2 ^ 31) (buffer : Mem) :
    (init size buffer).Holds [] := by
  have hat : (⟨0, 0, 0⟩ : RingBufIndex).At size 0 0 0 :=
    ⟨rfl, rfl, rfl, le_rfl, ⟨by omega, by omega⟩, le_rfl, by omega, Nat.dvd_zero _⟩
  exact ⟨0, 0, 0, 0, ⟨hsize, hat, hat, le_rfl, by omega⟩, rfl⟩

section Loops

variable {buf : RingBuf} {x p pb y g gb : ℕ}

section

variable (h : buf.Mid x p pb y g gb)
include h

theorem Mid.bounds : buf.size < 2 ^ 31 ∧ p ≤ x ∧ g ≤ y ∧ y ≤ p ∧ x ≤ g + buf.size :=
  ⟨h.size_lt, h.put.tail_le, h.get.tail_le, h.order, h.room⟩

theorem Mid.spaceGet : buf.spaceGet = buf.size - (x - g) := by
  obtain ⟨h1, h2, h3, h4, h5⟩ := h.bounds
  rw [RingBuf.spaceGet, h.put.head, h.get.tail, sub32_mod (by omega) (by omega),
    sub32_of_le (by omega) (by omega)]

theorem Mid.sizeGet : buf.sizeGet = p - y := by
  obtain ⟨h1, h2, h3, h4, h5⟩ := h.bounds
  rw [RingBuf.sizeGet, h.put.tail, h.get.head, sub32_mod (by omega) (by omega)]

theorem Mid.isEmpty : buf.isEmpty = true ↔ y = p := by
  obtain ⟨h1, h2, h3, h4, h5⟩ := h.bounds
  rw [RingBuf.isEmpty, h.put.tail, h.get.head, decide_eq_true_iff]
  omega

variable {n b t : ℕ}

theorem Mid.putFinish (hn : p + n ≤ x) :
    ∃ put b, RingBufIndex.At put buf.size (p + n) (p + n) b ∧
      buf.putFinish n = (0, { buf with put := put }) := by
  obtain ⟨hrc, b, hat⟩ := h.put.finish h.size_lt hn
  refine ⟨_, b, hat, ?_⟩
  simp only [RingBuf.putFinish, hrc]

theorem Mid.putFinish_of_lt (hn : x - p < n) : buf.putFinish n = (-EINVAL, buf) := by
  rw [RingBuf.putFinish, h.put.finish_of_lt h.size_lt hn]

theorem Mid.getFinish (hn : g + n ≤ y) :
    ∃ get b, RingBufIndex.At get buf.size (g + n) (g + n) b ∧
      buf.getFinish n = (0, { buf with get := get }) := by
  obtain ⟨hrc, b, hat⟩ := h.get.finish h.size_lt hn
  refine ⟨_, b, hat, ?_⟩
  simp only [RingBuf.getFinish, hrc]

theorem Mid.getFinish_of_lt (hn : y - g < n) : buf.getFinish n = (-EINVAL, buf) := by
  rw [RingBuf.getFinish, h.get.finish_of_lt h.size_lt hn]

theorem Mid.setPut {put : RingBufIndex} (hat : put.At buf.size t t b) (ht : p ≤ t) (hx : t ≤ x) :
    ({ buf with put := put } : RingBuf).Mid t t b y g gb :=
  ⟨h.size_lt, hat, h.get, h.order.trans ht, hx.trans h.room⟩

theorem Mid.setGet {get : RingBufIndex} (hat : get.At buf.size t t b) (ht : g ≤ t) (hy : t ≤ y) :
    ({ buf with get := get } : RingBuf).Mid x p pb t t b :=
  ⟨h.size_lt, h.put, hat, hy.trans h.order, h.room.trans (Nat.add_le_add_right ht _)⟩

end

theorem size_setPut (buf : RingBuf) (put : RingBufIndex) :
    ({ buf with put := put } : RingBuf).size = buf.size := rfl

theorem size_setGet (buf : RingBuf) (get : RingBufIndex) :
    ({ buf with get := get } : RingBuf).size = buf.size := rfl

/-- **The loop of `ring_buf_put`** copies what there is room for behind what is there. -/
theorem putLoop_spec (n : ℕ) : ∀ {buf : RingBuf} {x p pb y g gb : ℕ} {data : List UInt8}
    {total k : ℕ} {r : RingBuf × ℕ}, buf.Mid x p pb y g gb → data.length < n →
    k = min data.length (buf.size - (x - g)) → putLoop n buf data total = r →
    r.2 = total + k ∧ r.1.size = buf.size ∧ r.1.Mid (x + k) p pb y g gb ∧
      contents r.1.buffer buf.size g (x + k - g) =
        contents buf.buffer buf.size g (x - g) ++ data.take k := by
  induction n with
  | zero => exact fun _ hn => absurd hn (Nat.not_lt_zero _)
  | succ n ih =>
    intro buf x p pb y g gb data total k r h hn hkdef hrdef
    obtain ⟨h1, h2, h3, h4, h5⟩ := h.bounds
    obtain ⟨hclaim, hpos, hput⟩ := h.put.claim h1 (min data.length buf.spaceGet)
      (by rw [h.spaceGet]; omega)
    have hc : (buf.putClaim data.length).1 = min k (buf.size - x % buf.size) := by
      rw [RingBuf.putClaim, hclaim, h.spaceGet, hkdef]
    by_cases hzero : (buf.putClaim data.length).1 = 0
    · -- nothing left, or no room left
      have hk : k = 0 := by
        rcases Nat.eq_zero_or_pos buf.size with h0 | hsz
        · omega
        · have := Nat.mod_lt x hsz
          omega
      rw [putLoop, if_pos hzero] at hrdef
      rw [← hrdef, hk]
      refine ⟨rfl, rfl, ⟨h1, ?_, h.get, h4, h5⟩, by simp⟩
      rw [RingBuf.putClaim] at hzero
      rw [hzero] at hput
      exact hput
    generalize hcl : (buf.putClaim data.length).1 = c at hc hzero
    have hcle : c ≤ k := by omega
    have hclen : (data.take c).length = c := by
      rw [length_take]
      omega
    have hroom : x - g + c ≤ buf.size := by omega
    have hend : x % buf.size + c ≤ buf.size := by
      have hsz : 0 < buf.size := by omega
      have := Nat.mod_lt x hsz
      omega
    let buf' : RingBuf := { buf with
      put := (buf.putClaim data.length).2.2
      buffer := storeBytes buf.buffer (buf.putClaim data.length).2.1 (data.take c) }
    have hmid : buf'.Mid (x + c) p pb y g gb := by
      refine ⟨h1, ?_, h.get, h4, by change x + c ≤ g + buf.size; omega⟩
      have : (ringBufAreaClaim buf.size buf.put (min data.length buf.spaceGet)).1 = c := hcl
      rw [this] at hput
      exact hput
    have hoff : (buf.putClaim data.length).2.1 = (g + (x - g)) % buf.size := by
      rw [RingBuf.putClaim, hpos]
      congr 1
      omega
    have hcontents : contents buf'.buffer buf.size g (x + c - g) =
        contents buf.buffer buf.size g (x - g) ++ data.take c := by
      have hxg : x + c - g = x - g + (data.take c).length := by
        rw [hclen]
        omega
      rw [hxg]
      have hxmod : (g + (x - g)) % buf.size = x % buf.size := by
        congr 1
        omega
      refine contents_write (by rw [hclen]; exact hroom) (by rw [hclen, hxmod]; exact hend) ?_ ?_
      · simp only [buf', hoff]
        exact loadBytes_storeBytes _ _ _
      · intro j hj
        simp only [buf', hoff]
        exact storeBytes_of_notMem hj
    by_cases hlast : data.length - c = 0
    · obtain rfl : c = k := by omega
      simp only [putLoop, hcl, if_neg hzero, if_pos hlast] at hrdef
      have hsize : buf'.size = buf.size := rfl
      rw [← hrdef]
      exact ⟨rfl, hsize, hmid, hcontents⟩
    simp only [putLoop, hcl, if_neg hzero, if_neg hlast] at hrdef
    have hk' : k - c = min (data.drop c).length (buf'.size - (x + c - g)) := by
      rw [length_drop]
      change k - c = min (data.length - c) (buf.size - (x + c - g))
      omega
    obtain ⟨hr2, hrs, hrm, hrc⟩ := ih hmid (by rw [length_drop]; omega) hk' hrdef
    have hxk : x + c + (k - c) = x + k := by omega
    rw [hxk] at hrm hrc
    refine ⟨by omega, hrs, hrm, ?_⟩
    have hsplit : data.take k = data.take c ++ (data.drop c).take (k - c) := by
      rw [← take_add]
      congr 1
      omega
    rw [hsplit, ← append_assoc, ← hcontents]
    exact hrc

/-- **The loop of `ring_buf_get`** copies from the front what is there. -/
theorem getLoop_spec (n : ℕ) : ∀ {buf : RingBuf} {x p pb y g gb size k : ℕ} {out : List UInt8}
    {r : RingBuf × List UInt8}, buf.Mid x p pb y g gb → size < n → k = min size (p - y) →
    getLoop n buf size out = r →
    r.1.size = buf.size ∧ r.1.buffer = buf.buffer ∧ r.1.Mid x p pb (y + k) g gb ∧
      r.2 = out ++ contents buf.buffer buf.size y k := by
  induction n with
  | zero => exact fun _ hn => absurd hn (Nat.not_lt_zero _)
  | succ n ih =>
    intro buf x p pb y g gb size k out r h hn hkdef hrdef
    obtain ⟨h1, h2, h3, h4, h5⟩ := h.bounds
    obtain ⟨hclaim, hpos, hget⟩ := h.get.claim h1 (min size buf.sizeGet) (by rw [h.sizeGet]; omega)
    have hc : (buf.getClaim size).1 = min k (buf.size - y % buf.size) := by
      rw [RingBuf.getClaim, hclaim, h.sizeGet, hkdef]
    by_cases hzero : (buf.getClaim size).1 = 0
    · have hk : k = 0 := by
        rcases Nat.eq_zero_or_pos buf.size with h0 | hsz
        · omega
        · have := Nat.mod_lt y hsz
          omega
      rw [getLoop, if_pos hzero] at hrdef
      rw [← hrdef, hk]
      refine ⟨rfl, rfl, ⟨h1, h.put, ?_, h4, h5⟩, by simp⟩
      rw [RingBuf.getClaim] at hzero
      rw [hzero] at hget
      exact hget
    generalize hcl : (buf.getClaim size).1 = c at hc hzero
    have hend : y % buf.size + c ≤ buf.size := by
      have hsz : 0 < buf.size := by omega
      have := Nat.mod_lt y hsz
      omega
    let buf' : RingBuf := { buf with get := (buf.getClaim size).2.2 }
    have hsize : buf'.size = buf.size := rfl
    have hmid : buf'.Mid x p pb (y + c) g gb := by
      refine ⟨h1, h.put, ?_, by omega, h5⟩
      have : (ringBufAreaClaim buf.size buf.get (min size buf.sizeGet)).1 = c := hcl
      rw [this] at hget
      exact hget
    have hload : loadBytes buf.buffer (buf.getClaim size).2.1 c =
        contents buf.buffer buf.size y c := by
      rw [contents_of_le hend, RingBuf.getClaim, hpos]
      rfl
    by_cases hlast : size - c = 0
    · obtain rfl : c = k := by omega
      simp only [getLoop, hcl, if_neg hzero, if_pos hlast] at hrdef
      rw [← hrdef, hload]
      exact ⟨hsize, rfl, hmid, rfl⟩
    simp only [getLoop, hcl, if_neg hzero, if_neg hlast] at hrdef
    have hk' : k - c = min (size - c) (p - (y + c)) := by omega
    obtain ⟨hrs, hrb, hrm, hro⟩ := ih hmid (by omega) hk' hrdef
    have hyk : y + c + (k - c) = y + k := by omega
    rw [hyk] at hrm
    refine ⟨hrs, hrb, hrm, ?_⟩
    have hkc : k = c + (k - c) := by omega
    rw [hro, hload, append_assoc, hkc, contents_add, Nat.add_sub_cancel_left]

variable {k size : ℕ}

/-- **`ring_buf_put`** with no claim of the writer open. -/
theorem Mid.putBytes (h : buf.Mid p p pb y g gb) (data : List UInt8)
    (hk : k = min data.length (buf.size - (p - g))) :
    ∃ (buf' : RingBuf) (b : ℕ), buf.putBytes data = (k, buf') ∧ buf'.size = buf.size ∧
      buf'.Mid (p + k) (p + k) b y g gb ∧
      contents buf'.buffer buf.size g (p + k - g) =
        contents buf.buffer buf.size g (p - g) ++ data.take k := by
  obtain ⟨r, hr⟩ : ∃ r, putLoop (data.length + 1) buf data 0 = r := ⟨_, rfl⟩
  obtain ⟨hr2, hrs, hrm, hrc⟩ := putLoop_spec (data.length + 1) h (Nat.lt_succ_self _) hk hr
  rw [Nat.zero_add] at hr2
  obtain ⟨-, b, hat⟩ := hrm.put.finish hrm.size_lt (n := r.2) (by omega)
  rw [hr2] at hat
  refine ⟨_, b, ?_, ?_, hrm.setPut hat (Nat.le_add_right p k) le_rfl, hrc⟩
  · simp only [RingBuf.putBytes, hr, hr2, hrs]
  · rw [size_setPut, hrs]

/-- **`ring_buf_get`** with no claim of the reader open. -/
theorem Mid.getBytes (h : buf.Mid x p pb g g gb) (hk : k = min size (p - g)) :
    ∃ (buf' : RingBuf) (b : ℕ), buf.getBytes size = (contents buf.buffer buf.size g k, buf') ∧
      buf'.size = buf.size ∧ buf'.buffer = buf.buffer ∧
      buf'.Mid x p pb (g + k) (g + k) b := by
  obtain ⟨r, hr⟩ : ∃ r, getLoop (size + 1) buf size [] = r := ⟨_, rfl⟩
  obtain ⟨hrs, hrb, hrm, hro⟩ := getLoop_spec (size + 1) h (Nat.lt_succ_self _) hk hr
  rw [nil_append] at hro
  obtain ⟨-, b, hat⟩ := hrm.get.finish hrm.size_lt le_rfl
  refine ⟨_, b, ?_, ?_, ?_, hrm.setGet hat (Nat.le_add_right g k) le_rfl⟩
  · simp only [RingBuf.getBytes, hr, hro, length_contents, hrs]
  · rw [size_setGet, hrs]
  · exact hrb

/-- **`ring_buf_peek`** with no claim of the reader open. -/
theorem Mid.peekBytes (h : buf.Mid x p pb g g gb) (hk : k = min size (p - g)) :
    ∃ (buf' : RingBuf) (b : ℕ), buf.peekBytes size = (contents buf.buffer buf.size g k, buf') ∧
      buf'.size = buf.size ∧ buf'.buffer = buf.buffer ∧ buf'.Mid x p pb g g b := by
  obtain ⟨r, hr⟩ : ∃ r, getLoop (size + 1) buf size [] = r := ⟨_, rfl⟩
  obtain ⟨hrs, hrb, hrm, hro⟩ := getLoop_spec (size + 1) h (Nat.lt_succ_self _) hk hr
  rw [nil_append] at hro
  obtain ⟨-, b, hat⟩ := hrm.get.finish hrm.size_lt (n := 0) (by omega)
  rw [Nat.add_zero] at hat
  refine ⟨_, b, ?_, ?_, ?_, hrm.setGet hat le_rfl (Nat.le_add_right g k)⟩
  · simp only [RingBuf.peekBytes, hr, hro, hrs]
  · rw [size_setGet, hrs]
  · exact hrb

end Loops

namespace Holds

variable {buf : RingBuf} {bytes : List UInt8}

theorem length_le (h : buf.Holds bytes) : bytes.length ≤ buf.size := by
  obtain ⟨p, pb, g, gb, hmid, rfl⟩ := h
  have := hmid.room
  rw [length_contents]
  omega

theorem isEmpty_iff (h : buf.Holds bytes) : buf.isEmpty = true ↔ bytes = [] := by
  obtain ⟨p, pb, g, gb, hmid, rfl⟩ := h
  have := hmid.order
  rw [hmid.isEmpty, ← length_eq_zero_iff, length_contents]
  omega

theorem spaceGet (h : buf.Holds bytes) : buf.spaceGet = buf.size - bytes.length := by
  obtain ⟨p, pb, g, gb, hmid, rfl⟩ := h
  rw [hmid.spaceGet, length_contents]

/-- **`ring_buf_put` appends what fits** and says how much. -/
theorem putBytes (h : buf.Holds bytes) (data : List UInt8) :
    (buf.putBytes data).1 = min data.length (buf.size - bytes.length) ∧
      (buf.putBytes data).2.size = buf.size ∧
      (buf.putBytes data).2.Holds
        (bytes ++ data.take (min data.length (buf.size - bytes.length))) := by
  obtain ⟨p, pb, g, gb, hmid, rfl⟩ := h
  rw [length_contents]
  obtain ⟨buf', b, hput, hsize, hmid', hcontents⟩ := hmid.putBytes data rfl
  rw [hput, ← hcontents]
  exact ⟨rfl, hsize, _, b, g, gb, hmid', by rw [hsize]⟩

/-- **`ring_buf_get` takes from the front.** -/
theorem getBytes (h : buf.Holds bytes) (size : ℕ) :
    (buf.getBytes size).1 = bytes.take size ∧ (buf.getBytes size).2.size = buf.size ∧
      (buf.getBytes size).2.Holds (bytes.drop size) := by
  obtain ⟨p, pb, g, gb, hmid, rfl⟩ := h
  obtain ⟨buf', b, hget, hsize, hbuffer, hmid'⟩ := hmid.getBytes (Eq.refl (min size (p - g)))
  rw [hget]
  rcases Nat.le_total size (p - g) with hle | hle
  · rw [Nat.min_eq_left hle] at hmid' ⊢
    rw [take_contents _ _ _ hle, drop_contents _ _ _ hle]
    exact ⟨rfl, hsize, _, pb, _, b, hmid', by rw [hsize, hbuffer, Nat.sub_sub]⟩
  rw [Nat.min_eq_right hle] at hmid' ⊢
  rw [take_of_length_le (by simpa using hle), drop_of_length_le (by simpa using hle)]
  refine ⟨rfl, hsize, _, pb, _, b, hmid', ?_⟩
  have hnone : p - (g + (p - g)) = 0 := by omega
  rw [hnone, contents_zero]

end Holds

end RingBuf

end TlZephyr
