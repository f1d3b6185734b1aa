import Mathlib

/-!
# Counter with CBC-MAC

The CCM mode of RFC 3610 with a two-byte length field, over any function on 16-byte blocks. The
authenticated string is cut into blocks, the last one of each part padded with zeros; the tag is
the CBC-MAC of these blocks masked with the key stream block of counter zero, and the message is
XORed with the key stream from counter one on.

Implementations feed the MAC one byte at a time. `absorb` is that byte step on the chaining
block and the fill level, and `absorb_blocks` says what a whole byte string comes to.
-/

namespace Ccm

open List

abbrev Block := Fin 16 → UInt8

/-- The positions of a block are numbers modulo its length. -/
instance instNeZeroBlockLength : NeZero 16 := ⟨by decide⟩

/-- Block of the first 16 bytes of a string, padded with zeros. -/
def blockOf (bs : List UInt8) : Block := fun i => bs.getD i 0

def xorBlock (a b : Block) : Block := fun i => a i ^^^ b i

/-- A string cut into blocks, the last one padded with zeros. -/
def blocks (bs : List UInt8) : List Block :=
  (List.range ((bs.length + 15) / 16)).map fun k => blockOf (bs.drop (16 * k))

variable (cipher : Block → Block)

/-- The CBC-MAC chain from `x`. -/
def cbcMac (x : Block) (bs : List Block) : Block :=
  bs.foldl (fun x b => cipher (xorBlock x b)) x

/-- A number below `2 ^ 16` as two bytes, the high one first. -/
def be16 (n : ℕ) : List UInt8 := [UInt8.ofNat (n / 256), UInt8.ofNat n]

/-- First block: flags, nonce, length of the message. -/
def firstBlock (tagLen : ℕ) (nonce header : List UInt8) (len : ℕ) : Block :=
  blockOf (UInt8.ofNat ((if header = [] then 0 else 64) + 8 * ((tagLen - 2) / 2) + 1) ::
    (nonce ++ be16 len))

/-- Authenticated header: its length in two bytes, then the header. -/
def headerBlocks (header : List UInt8) : List Block :=
  if header = [] then [] else blocks (be16 header.length ++ header)

/-- Authentication field before masking, as a whole block. -/
def authBlock (tagLen : ℕ) (nonce header msg : List UInt8) : Block :=
  cbcMac cipher (cipher (firstBlock tagLen nonce header msg.length))
    (headerBlocks header ++ blocks msg)

/-- Counter block of number `i`. -/
def counterBlock (nonce : List UInt8) (i : ℕ) : Block := blockOf (1 :: (nonce ++ be16 i))

/-- Byte `i` of the key stream for the message. -/
def keyByte (nonce : List UInt8) (i : ℕ) : UInt8 :=
  cipher (counterBlock nonce (1 + i / 16)) (Fin.ofNat 16 i)

/-- A string XORed with the key stream from its byte `i` on. -/
def ctrXor (cipher : Block → Block) (nonce : List UInt8) : ℕ → List UInt8 → List UInt8
  | _, [] => []
  | i, b :: bs => (b ^^^ keyByte cipher nonce i) :: ctrXor cipher nonce (i + 1) bs

def encrypt (nonce msg : List UInt8) : List UInt8 :=
  ctrXor cipher nonce 0 msg

/-- The tag: the authentication field masked with the key stream block of counter zero. -/
def tag (tagLen : ℕ) (nonce header msg : List UInt8) : List UInt8 :=
  (List.ofFn (xorBlock (authBlock cipher tagLen nonce header msg)
    (cipher (counterBlock nonce 0)))).take tagLen

/-! ### Key stream -/

section KeyStream

variable (cipher : Block → Block) (nonce : List UInt8)

variable (i : ℕ) (bs msg : List UInt8)

@[simp] theorem length_ctrXor : (ctrXor cipher nonce i bs).length = bs.length := by
  induction bs generalizing i with
  | nil => rfl
  | cons b bs ih => simp [ctrXor, ih]

theorem ctrXor_ctrXor : ctrXor cipher nonce i (ctrXor cipher nonce i bs) = bs := by
  induction bs generalizing i with
  | nil => rfl
  | cons b bs ih => simp [ctrXor, ih]

@[simp] theorem length_encrypt : (encrypt cipher nonce msg).length = msg.length :=
  length_ctrXor cipher nonce 0 msg

theorem encrypt_encrypt : encrypt cipher nonce (encrypt cipher nonce msg) = msg :=
  ctrXor_ctrXor cipher nonce 0 msg

end KeyStream

theorem length_tag {tagLen : ℕ} (h : tagLen ≤ 16)
    (nonce header msg : List UInt8) : (tag cipher tagLen nonce header msg).length = tagLen := by
  simp [tag, h]

/-! ### Blocks -/

variable {p q : List UInt8}

theorem blockOf_append (hp : p.length = 16) : blockOf (p ++ q) = blockOf p := by
  funext i
  have hi : (i : ℕ) < p.length := by omega
  simp [blockOf, getD_eq_getElem?_getD, List.getElem?_append_left hi]

theorem blocks_append (hp : p.length = 16) : blocks (p ++ q) = blockOf p :: blocks q := by
  have hnum : ((p ++ q).length + 15) / 16 = (q.length + 15) / 16 + 1 := by
    rw [length_append, hp]
    omega
  rw [blocks, hnum, range_succ_eq_map, map_cons, map_map, blocks]
  refine congrArg₂ List.cons (by simpa using blockOf_append hp) ?_
  refine map_congr_left fun k _ => ?_
  have hk : 16 * (k + 1) = p.length + 16 * k := by omega
  rw [Function.comp, Nat.succ_eq_add_one, hk, ← drop_drop, drop_left]

theorem blocks_of_le (h0 : p ≠ []) (hp : p.length ≤ 16) : blocks p = [blockOf p] := by
  have hpos := length_pos_iff.mpr h0
  have hnum : (p.length + 15) / 16 = 1 := by omega
  rw [blocks, hnum]
  rfl

/-! ### Feeding the MAC byte by byte -/

def xorAt (x : Block) (i : ℕ) (b : UInt8) : Block :=
  fun j => if (j : ℕ) = i then x j ^^^ b else x j

/-- The MAC in the middle of a block: the block so far, and how many bytes of it are
filled. -/
structure MacState where
  blk : Block
  len : ℕ

/-- One byte more: a full block is enciphered first. -/
def absorb (s : MacState) (b : UInt8) : MacState :=
  if s.len = 16 then ⟨xorAt (cipher s.blk) 0 b, 1⟩ else ⟨xorAt s.blk s.len b, s.len + 1⟩

/-- The bytes `pending` are in the open block, on top of the chain value `x`. -/
def Open (x : Block) (pending : List UInt8) (s : MacState) : Prop :=
  s.blk = xorBlock x (blockOf pending) ∧ s.len = pending.length ∧ pending.length ≤ 16

variable (x : Block)

@[simp] theorem xorBlock_nil : xorBlock x (blockOf []) = x := by
  funext j
  simp [xorBlock, blockOf]

theorem Open.start : Open x [] ⟨x, 0⟩ := ⟨by simp, rfl, by simp⟩

theorem xorAt_xorBlock (pending : List UInt8) (b : UInt8) :
    xorAt (xorBlock x (blockOf pending)) pending.length b =
      xorBlock x (blockOf (pending ++ [b])) := by
  funext j
  by_cases hj : (j : ℕ) = pending.length
  · simp [xorAt, xorBlock, blockOf, hj]
  rcases Nat.lt_or_gt_of_ne hj with hlt | hgt
  · simp [xorAt, xorBlock, blockOf, hj, List.getElem?_append_left hlt]
  · have h1 : pending.length ≤ (j : ℕ) := hgt.le
    have h2 : (pending ++ [b]).length ≤ (j : ℕ) := by simpa using hgt
    simp [xorAt, xorBlock, blockOf, hj, List.getElem?_eq_none h1, List.getElem?_eq_none h2]

/-- **One byte**: it joins the open block, or closes a full one and opens the next. -/
theorem Open.absorb {x : Block} {pending : List UInt8} {s : MacState} (h : Open x pending s)
    (cipher : Block → Block) (b : UInt8) :
    (pending.length < 16 ∧ Open x (pending ++ [b]) (Ccm.absorb cipher s b)) ∨ (pending.length = 16 ∧
        Open (cipher (xorBlock x (blockOf pending))) [b] (Ccm.absorb cipher s b)) := by
  obtain ⟨hblk, hlen, hle⟩ := h
  rcases Nat.lt_or_eq_of_le hle with hlt | heq
  · left
    rw [Ccm.absorb, if_neg (by omega)]
    exact ⟨hlt, by rw [hblk, hlen, xorAt_xorBlock x pending], by simp [hlen], by simpa using hlt⟩
  right
  rw [Ccm.absorb, if_pos (by omega), hblk]
  refine ⟨heq, ?_, rfl, by simp⟩
  have := xorAt_xorBlock (cipher (xorBlock x (blockOf pending))) [] b
  rwa [xorBlock_nil] at this

/-- **A byte string**: the chain value is the CBC-MAC over the blocks of all bytes. -/
theorem absorbAll_flush (bs : List UInt8) :
    ∀ {x : Block} {pending : List UInt8} {s : MacState}, Open x pending s → pending ++ bs ≠ [] →
      cipher (bs.foldl (absorb cipher) s).blk = cbcMac cipher x (blocks (pending ++ bs)) ∧
        (bs.foldl (absorb cipher) s).len ≠ 0 := by
  induction bs with
  | nil =>
    intro x pending s h h0
    obtain ⟨hblk, hlen, hle⟩ := h
    rw [append_nil] at h0 ⊢
    rw [blocks_of_le h0 hle]
    exact ⟨by simp [cbcMac, hblk], by simpa [hlen] using h0⟩
  | cons b bs ih =>
    intro x pending s h h0
    rcases h.absorb cipher b with ⟨-, hopen⟩ | ⟨hfull, hopen⟩
    · have := ih hopen (by simp)
      rwa [append_assoc, singleton_append] at this
    · rw [blocks_append hfull]
      exact ih hopen (by simp)

end Ccm
