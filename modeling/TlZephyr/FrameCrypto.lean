import TlZephyr.Lib.Ccm
import TlZephyr.Lib.LittleEndian
import TlZephyr.Lib.Memory

/-!
# MAC Frame Security

Model of the frame encryption in `ieee802154_b9x_frame.c`. The CBC-MAC and the counter
mode run interleaved over one context, one payload byte at a time; the block function is a
parameter in place of the AES engine. The payload, its encrypted form and the message
integrity code are ranges of one memory, so that encrypting in place is the case of equal
addresses; address 0 is the null pointer.

The specification is `Ccm`, which knows nothing of this code. The header and the payload loop
are compared with it separately: `b9xCryptoHeader_mac` and `b9xCryptoPayload_spec`.
-/

namespace TlZephyr

open Ccm Memory List

/-- `struct ieee802154_crypto_ctx`. -/
structure CryptoCtx where
  key : Block
  blk : Block
  blkLen : ℕ
  ctr : Block
  ctrPad : Block
  nonce : List UInt8
  openLen : ℕ
  privLen : ℕ
  tagLen : ℕ

/-- Open block and its fill level, as the library's MAC state. -/
def CryptoCtx.mac (ctx : CryptoCtx) : MacState := ⟨ctx.blk, ctx.blkLen⟩

@[simp] theorem CryptoCtx.blk_mac (ctx : CryptoCtx) : ctx.mac.blk = ctx.blk := rfl

@[simp] theorem CryptoCtx.len_mac (ctx : CryptoCtx) : ctx.mac.len = ctx.blkLen := rfl

section Code

variable (aes : Block → Block → Block)

/-- `ieee802154_b9x_crypto_nonce`: address, most significant byte first, frame counter, level. -/
def b9xCryptoNonce (extAddr : List UInt8) (frameCnt : ℕ) (secLevel : UInt8) : List UInt8 :=
  extAddr.reverse ++ [UInt8.ofNat (frameCnt >>> 24), UInt8.ofNat (frameCnt >>> 16),
    UInt8.ofNat (frameCnt >>> 8), UInt8.ofNat frameCnt] ++ [secLevel]

def b9xCryptoFlags (openLen tagLen : ℕ) : UInt8 :=
  UInt8.ofNat ((if openLen ≠ 0 then 1 else 0) <<< 6) |||
    UInt8.ofInt (((tagLen : ℤ) - 2) / 2 * 8) ||| 1

/-- `ieee802154_b9x_crypto_start`. The counter pad is written before it is read. -/
def b9xCryptoStart (key : Block) (nonce : List UInt8) (openLen privLen tagLen : ℕ) : CryptoCtx :=
  let blk := aes key (blockOf (b9xCryptoFlags openLen tagLen ::
    (nonce ++ [UInt8.ofNat (privLen >>> 8), UInt8.ofNat privLen])))
  { key := key
    blk := xorAt (xorAt blk 0 (UInt8.ofNat (openLen >>> 8))) 1 (UInt8.ofNat openLen)
    blkLen := 2
    ctr := blockOf (1 :: (nonce ++ [0, 0]))
    ctrPad := blockOf []
    nonce := nonce
    openLen := openLen
    privLen := privLen
    tagLen := tagLen }

/-- One byte into the MAC: both loops end with these lines. -/
def b9xCryptoFeed (ctx : CryptoCtx) (byte : UInt8) : CryptoCtx :=
  if ctx.blkLen = 16 then
    { ctx with blk := xorAt (aes ctx.key ctx.blk) 0 byte, blkLen := 1 }
  else { ctx with blk := xorAt ctx.blk ctx.blkLen byte, blkLen := ctx.blkLen + 1 }

/-- The open block is enciphered unless it is empty. -/
def b9xCryptoFlush (ctx : CryptoCtx) : CryptoCtx :=
  if ctx.blkLen ≠ 0 then { ctx with blk := aes ctx.key ctx.blk } else ctx

/-- `ieee802154_b9x_crypto_header`. -/
def b9xCryptoHeader (ctx : CryptoCtx) (header : List UInt8) : CryptoCtx :=
  { b9xCryptoFlush aes (header.foldl (b9xCryptoFeed aes) ctx) with blkLen := 0 }

/-- The two counter bytes as a big-endian number, plus one. -/
def b9xCryptoCtrNext (ctr : Block) : Block :=
  if ctr 15 + 1 ≠ 0 then Function.update ctr 15 (ctr 15 + 1)
  else Function.update (Function.update ctr 15 (ctr 15 + 1)) 14 (ctr 14 + 1)

def b9xCryptoCtrReset (ctr : Block) : Block := Function.update (Function.update ctr 14 0) 15 0

/-- A new counter pad when the last one is used up. -/
def b9xCryptoPad (ctx : CryptoCtx) (ctrLen : ℕ) : CryptoCtx × ℕ :=
  if ctrLen = 16 then
    ({ ctx with
        ctr := b9xCryptoCtrNext ctx.ctr
        ctrPad := aes ctx.key (b9xCryptoCtrNext ctx.ctr) }, 0)
  else (ctx, ctrLen)

/-- Loop of `ieee802154_b9x_crypto_payload` from index `i` on. -/
def b9xCryptoPayloadLoop (encrypt : Bool) (plain cipher : ℕ) :
    ℕ → ℕ → CryptoCtx → ℕ → Mem → CryptoCtx × Mem
  | 0, _, ctx, _, m => (ctx, m)
  | n + 1, i, ctx, ctrLen, m =>
    let p := b9xCryptoPad aes ctx ctrLen
    let pad := p.1.ctrPad (Fin.ofNat 16 p.2)
    if encrypt then
      let byte := m (plain + i)
      b9xCryptoPayloadLoop encrypt plain cipher n (i + 1) (b9xCryptoFeed aes p.1 byte) (p.2 + 1)
        (storeBytes m (cipher + i) [byte ^^^ pad])
    else
      let byte := m (cipher + i) ^^^ pad
      b9xCryptoPayloadLoop encrypt plain cipher n (i + 1) (b9xCryptoFeed aes p.1 byte) (p.2 + 1)
        (storeBytes m (plain + i) [byte])

/-- `ieee802154_b9x_crypto_payload`. -/
def b9xCryptoPayload (ctx : CryptoCtx) (encrypt : Bool) (plain cipher : ℕ) (m : Mem) :
    CryptoCtx × Mem :=
  if plain = 0 ∨ cipher = 0 then (ctx, m)
  else
    let r := b9xCryptoPayloadLoop aes encrypt plain cipher ctx.privLen 0 ctx 16 m
    let c := b9xCryptoFlush aes r.1
    ({ c with ctr := b9xCryptoCtrReset c.ctr }, r.2)

/-- Masked authentication field: `blk[i] ^ ctr_pad[i]` for the bytes of the tag. -/
def b9xCryptoTag (ctx : CryptoCtx) : List UInt8 :=
  (List.range ctx.tagLen).map fun i =>
    ctx.blk (Fin.ofNat 16 i) ^^^ aes ctx.key ctx.ctr (Fin.ofNat 16 i)

/-- `ieee802154_b9x_crypto_finish`. -/
def b9xCryptoFinish (ctx : CryptoCtx) (tag : ℕ) (m : Mem) : Mem :=
  storeBytes m tag (b9xCryptoTag aes ctx)

/-- `ieee802154_b9x_crypto_check`. -/
def b9xCryptoCheck (ctx : CryptoCtx) (tag : ℕ) (m : Mem) : Bool :=
  loadBytes m tag ctx.tagLen = b9xCryptoTag aes ctx

/-- The key, nonce and header part that both directions share. -/
def b9xCryptoBegin (key : Block) (extAddr : List UInt8) (frameCnt : ℕ) (secLevel : UInt8)
    (header : List UInt8) (privLen tagLen : ℕ) : CryptoCtx :=
  b9xCryptoHeader aes (b9xCryptoStart aes key (b9xCryptoNonce extAddr frameCnt secLevel)
    header.length privLen tagLen) header

/-- `ieee802154_b9x_crypto_encrypt`; a null key, address or header is `none`. -/
def b9xCryptoEncrypt (key : Option Block) (extAddr : Option (List UInt8)) (frameCnt : ℕ)
    (secLevel : UInt8) (header : Option (List UInt8)) (plain plainLen cipher mic micLen : ℕ)
    (m : Mem) : Bool × Mem :=
  match key, extAddr, header with
  | some key, some extAddr, some header =>
    if header.length ≠ 0 ∧ mic ≠ 0 ∧ micLen ≠ 0 then
      let ctx := b9xCryptoBegin aes key extAddr frameCnt secLevel header plainLen micLen
      let r := b9xCryptoPayload aes ctx true plain cipher m
      (true, b9xCryptoFinish aes r.1 mic r.2)
    else (false, m)
  | _, _, _ => (false, m)

/-- `ieee802154_b9x_crypto_decrypt`. -/
def b9xCryptoDecrypt (key : Option Block) (extAddr : Option (List UInt8)) (frameCnt : ℕ)
    (secLevel : UInt8) (header : Option (List UInt8)) (cipher cipherLen mic micLen plain : ℕ)
    (m : Mem) : Bool × Mem :=
  match key, extAddr, header with
  | some key, some extAddr, some header =>
    if header.length ≠ 0 ∧ mic ≠ 0 ∧ micLen ≠ 0 then
      let ctx := b9xCryptoBegin aes key extAddr frameCnt secLevel header cipherLen micLen
      let r := b9xCryptoPayload aes ctx false plain cipher m
      (b9xCryptoCheck aes r.1 mic r.2, r.2)
    else (false, m)
  | _, _, _ => (false, m)

end Code

/-! ### The MAC -/

open CryptoCtx

section Mac

variable (aes : Block → Block → Block)

variable (ctx : CryptoCtx) (b : UInt8)

@[simp] theorem key_b9xCryptoFeed : (b9xCryptoFeed aes ctx b).key = ctx.key := by
  rw [b9xCryptoFeed]
  split <;> rfl

@[simp] theorem mac_b9xCryptoFeed :
    (b9xCryptoFeed aes ctx b).mac = absorb (aes ctx.key) ctx.mac b := by
  by_cases h : ctx.blkLen = 16
  · rw [b9xCryptoFeed, if_pos h, absorb, len_mac, if_pos h]
    rfl
  · rw [b9xCryptoFeed, if_neg h, absorb, len_mac, if_neg h]
    rfl

/-- What the MAC does not touch: everything but the open block. -/
structure CryptoCtx.SameCall (c ctx : CryptoCtx) : Prop where
  key : c.key = ctx.key
  nonce : c.nonce = ctx.nonce
  privLen : c.privLen = ctx.privLen
  tagLen : c.tagLen = ctx.tagLen

variable {c : CryptoCtx} {tagLen : ℕ}

theorem CryptoCtx.SameCall.trans {a b : CryptoCtx} (h : a.SameCall b) (h' : b.SameCall c) :
    a.SameCall c :=
  ⟨h.key.trans h'.key, h.nonce.trans h'.nonce, h.privLen.trans h'.privLen, h.tagLen.trans h'.tagLen⟩

theorem sameCall_b9xCryptoFeed :
    (b9xCryptoFeed aes ctx b).SameCall ctx ∧ (b9xCryptoFeed aes ctx b).ctr = ctx.ctr ∧
      (b9xCryptoFeed aes ctx b).ctrPad = ctx.ctrPad := by
  rw [b9xCryptoFeed]
  split <;> exact ⟨⟨rfl, rfl, rfl, rfl⟩, rfl, rfl⟩

theorem sameCall_b9xCryptoFlush :
    (b9xCryptoFlush aes ctx).SameCall ctx ∧ (b9xCryptoFlush aes ctx).ctr = ctx.ctr := by
  rw [b9xCryptoFlush]
  split <;> exact ⟨⟨rfl, rfl, rfl, rfl⟩, rfl⟩

/-- Feeding a string leaves the rest of the context alone and is the library's loop on the
MAC state. -/
theorem foldl_b9xCryptoFeed (bs : List UInt8) (ctx : CryptoCtx) :
    (bs.foldl (b9xCryptoFeed aes) ctx).SameCall ctx ∧
      (bs.foldl (b9xCryptoFeed aes) ctx).ctr = ctx.ctr ∧
      (bs.foldl (b9xCryptoFeed aes) ctx).mac = bs.foldl (absorb (aes ctx.key)) ctx.mac := by
  induction bs generalizing ctx with
  | nil => exact ⟨⟨rfl, rfl, rfl, rfl⟩, rfl, rfl⟩
  | cons b bs ih =>
    obtain ⟨hsame, hctr, hmac⟩ := ih (b9xCryptoFeed aes ctx b)
    obtain ⟨hsame', hctr', -⟩ := sameCall_b9xCryptoFeed aes ctx b
    refine ⟨hsame.trans hsame', hctr.trans hctr', ?_⟩
    rw [foldl_cons, hmac, mac_b9xCryptoFeed, key_b9xCryptoFeed, foldl_cons]

/-- **Closing the MAC**: what was fed since the chain value `x` ends up as the CBC-MAC of its
blocks. -/
theorem blk_b9xCryptoFlush {ctx : CryptoCtx} {x : Block} {pending bs : List UInt8}
    (hopen : Open x pending ctx.mac) (hkey : c.key = ctx.key)
    (hc : c.mac = bs.foldl (absorb (aes ctx.key)) ctx.mac) :
    (b9xCryptoFlush aes c).blk = cbcMac (aes ctx.key) x (blocks (pending ++ bs)) := by
  by_cases hbs : pending ++ bs = []
  · obtain ⟨rfl, rfl⟩ := append_eq_nil_iff.mp hbs
    have hblk : c.blk = x := (congrArg MacState.blk hc).trans (by simpa using hopen.1)
    have hlen : c.blkLen = 0 := (congrArg MacState.len hc).trans hopen.2.1
    rw [b9xCryptoFlush, if_neg (not_not_intro hlen), hblk]
    rfl
  obtain ⟨hblk, hlen⟩ := absorbAll_flush (aes ctx.key) bs hopen hbs
  rw [← hc] at hblk hlen
  rw [len_mac] at hlen
  rw [b9xCryptoFlush, if_pos hlen, hkey]
  exact hblk

theorem b9xCryptoFlags_eq {openLen : ℕ} (ho : openLen ≠ 0)
    (ht : tagLen = 4 ∨ tagLen = 8 ∨ tagLen = 16) :
    b9xCryptoFlags openLen tagLen = UInt8.ofNat (64 + 8 * ((tagLen - 2) / 2) + 1) := by
  rw [b9xCryptoFlags, if_pos ho]
  rcases ht with rfl | rfl | rfl <;> decide

/-- **The header phase**: the context holds the CBC-MAC of the header, and the counter is zero. -/
theorem b9xCryptoBegin_spec (key : Block) (extAddr : List UInt8) (frameCnt : ℕ)
    (secLevel : UInt8) {header : List UInt8} (hh : header ≠ []) (privLen : ℕ)
    (ht : tagLen = 4 ∨ tagLen = 8 ∨ tagLen = 16) :
    let nonce := b9xCryptoNonce extAddr frameCnt secLevel
    let c := b9xCryptoBegin aes key extAddr frameCnt secLevel header privLen tagLen
    c.key = key ∧ c.nonce = nonce ∧ c.privLen = privLen ∧ c.tagLen = tagLen ∧
      c.ctr = counterBlock nonce 0 ∧
      c.mac = ⟨cbcMac (aes key) (aes key (firstBlock tagLen nonce header privLen))
        (headerBlocks header), 0⟩ := by
  intro nonce c
  have hlen : header.length ≠ 0 := fun h => hh (length_eq_zero_iff.mp h)
  let ctx := b9xCryptoStart aes key nonce header.length privLen tagLen
  let first := aes key (firstBlock tagLen nonce header privLen)
  have hopen : Open first (be16 header.length) ctx.mac := by
    refine ⟨?_, rfl, by simp [be16]⟩
    have hblk : ctx.blk = xorAt (xorAt first 0 (UInt8.ofNat (header.length / 256))) 1
        (UInt8.ofNat header.length) := by
      simp only [ctx, first, b9xCryptoStart, firstBlock, if_neg hh, b9xCryptoFlags_eq hlen ht, be16,
        Nat.shiftRight_eq_div_pow]
    have h0 := xorAt_xorBlock first [] (UInt8.ofNat (header.length / 256))
    have h1 := xorAt_xorBlock first [UInt8.ofNat (header.length / 256)] (UInt8.ofNat header.length)
    rw [xorBlock_nil] at h0
    rw [blk_mac, hblk]
    exact (congrArg (xorAt · 1 _) h0).trans h1
  obtain ⟨hsame, hctr, hmac⟩ := foldl_b9xCryptoFeed aes header ctx
  obtain ⟨hsame', hctr'⟩ := sameCall_b9xCryptoFlush aes (header.foldl (b9xCryptoFeed aes) ctx)
  have hall := hsame'.trans hsame
  refine ⟨hall.key, hall.nonce, hall.privLen, hall.tagLen, hctr'.trans (hctr.trans rfl), ?_⟩
  have hblk := blk_b9xCryptoFlush aes hopen hsame.key hmac
  rw [headerBlocks, if_neg hh]
  exact congrArg (fun b => (⟨b, 0⟩ : MacState)) hblk

end Mac

/-! ### Counter -/

section Counter

variable {nonce : List UInt8}

theorem counterBlock_apply (hn : nonce.length = 13) (i : ℕ) (j : Fin 16) :
    counterBlock nonce i j = if j = 15 then UInt8.ofNat i else if j = 14 then UInt8.ofNat (i / 256)
      else (1 :: nonce).getD j 0 := by
  have hlen : (1 :: nonce).length = 14 := by simp [hn]
  have hblk : counterBlock nonce i j = ((1 :: nonce) ++ be16 i).getD j 0 := rfl
  rw [hblk]
  by_cases h15 : j = 15
  · subst h15
    simp [hn, be16]
  rw [if_neg h15]
  by_cases h14 : j = 14
  · subst h14
    simp [hn, be16]
  · rw [if_neg h14]
    have hj : (j : ℕ) < (1 :: nonce).length := by omega
    rw [getD_append _ _ _ _ hj]

theorem b9xCryptoCtrNext_counterBlock (hn : nonce.length = 13) (i : ℕ) :
    b9xCryptoCtrNext (counterBlock nonce i) = counterBlock nonce (i + 1) := by
  have h15 : counterBlock nonce i 15 + 1 = UInt8.ofNat (i + 1) := by
    rw [counterBlock_apply hn, if_pos rfl]
    simp
  have h14 : counterBlock nonce i 14 = UInt8.ofNat (i / 256) := by
    rw [counterBlock_apply hn, if_neg (by decide), if_pos rfl]
  have hz : UInt8.ofNat (i + 1) = 0 ↔ (i + 1) % 256 = 0 := by
    rw [← UInt8.toNat_inj]
    simp
  funext j
  rw [counterBlock_apply hn (i + 1) j, b9xCryptoCtrNext, h15, h14]
  by_cases hc : UInt8.ofNat (i + 1) = 0
  · have hdiv : (i + 1) / 256 = i / 256 + 1 := by
      have := hz.mp hc
      omega
    rw [if_neg (not_not_intro hc), hdiv]
    by_cases hj15 : j = 15
    · subst hj15
      simp [Function.update]
    · by_cases hj14 : j = 14
      · subst hj14
        simp [Function.update]
      · simp [Function.update, hj15, hj14, counterBlock_apply hn]
  have hdiv : (i + 1) / 256 = i / 256 := by
    have : (i + 1) % 256 ≠ 0 := fun h => hc (hz.mpr h)
    omega
  rw [if_pos hc, hdiv]
  by_cases hj15 : j = 15
  · subst hj15
    simp [Function.update]
  · simp [Function.update, hj15, counterBlock_apply hn]

theorem b9xCryptoCtrReset_counterBlock (hn : nonce.length = 13) (i : ℕ) :
    b9xCryptoCtrReset (counterBlock nonce i) = counterBlock nonce 0 := by
  funext j
  rw [b9xCryptoCtrReset, counterBlock_apply hn 0 j]
  by_cases hj15 : j = 15
  · subst hj15
    simp [Function.update]
  · by_cases hj14 : j = 14
    · subst hj14
      simp [Function.update]
    · simp [Function.update, hj15, hj14, counterBlock_apply hn]

/-- Where the key stream stands before byte `i`: at the end of a pad, or inside the pad of
byte `i`. -/
def CryptoCtx.StreamAt (aes : Block → Block → Block) (ctx : CryptoCtx) (ctrLen i : ℕ) : Prop :=
  (ctrLen = 16 ∧ i % 16 = 0 ∧ ctx.ctr = counterBlock ctx.nonce (i / 16)) ∨
    (ctrLen = i % 16 ∧ i % 16 ≠ 0 ∧ ctx.ctr = counterBlock ctx.nonce (1 + i / 16) ∧
      ctx.ctrPad = aes ctx.key ctx.ctr)

theorem CryptoCtx.StreamAt.pad {aes : Block → Block → Block} {ctx : CryptoCtx} {ctrLen i : ℕ}
    (h : ctx.StreamAt aes ctrLen i) (hn : ctx.nonce.length = 13) :
    (b9xCryptoPad aes ctx ctrLen).1.SameCall ctx ∧ (b9xCryptoPad aes ctx ctrLen).1.mac = ctx.mac ∧
      (b9xCryptoPad aes ctx ctrLen).1.ctr = counterBlock ctx.nonce (1 + i / 16) ∧
      (b9xCryptoPad aes ctx ctrLen).1.ctrPad = aes ctx.key (counterBlock ctx.nonce (1 + i / 16)) ∧
      (b9xCryptoPad aes ctx ctrLen).2 = i % 16 := by
  rcases h with ⟨hlen, hi, hctr⟩ | ⟨hlen, hi, hctr, hpad⟩
  · have hnext : b9xCryptoCtrNext ctx.ctr = counterBlock ctx.nonce (1 + i / 16) := by
      rw [hctr, b9xCryptoCtrNext_counterBlock hn, Nat.add_comm]
    rw [b9xCryptoPad, if_pos hlen]
    exact ⟨⟨rfl, rfl, rfl, rfl⟩, rfl, hnext, congrArg _ hnext, hi.symm⟩
  · rw [b9xCryptoPad, if_neg (by omega)]
    exact ⟨⟨rfl, rfl, rfl, rfl⟩, rfl, hctr, by rw [hpad, hctr], hlen⟩

end Counter

/-! ### Payload -/

section Payload

variable (aes : Block → Block → Block)

variable {ctx : CryptoCtx} {x : Block}

theorem CryptoCtx.streamAt_succ {i : ℕ} (hctr : ctx.ctr = counterBlock ctx.nonce (1 + i / 16))
    (hpad : ctx.ctrPad = aes ctx.key ctx.ctr) : ctx.StreamAt aes (i % 16 + 1) (i + 1) := by
  by_cases h : i % 16 = 15
  · have hdiv : 1 + i / 16 = (i + 1) / 16 := by omega
    exact Or.inl ⟨by omega, by omega, by rw [hctr, hdiv]⟩
  · have hdiv : i / 16 = (i + 1) / 16 := by omega
    exact Or.inr ⟨by omega, by omega, by rw [hctr, hdiv], hpad⟩

def payloadSrc (encrypt : Bool) (plain cipher : ℕ) : ℕ := if encrypt then plain else cipher

def payloadDst (encrypt : Bool) (plain cipher : ℕ) : ℕ := if encrypt then cipher else plain

/-- The plain text of a payload read at the source: itself, or what it deciphers to. -/
def payloadText (encrypt : Bool) (bs out : List UInt8) : List UInt8 := if encrypt then bs else out

variable (encrypt : Bool)

/-- **The payload loop** from byte `i` on: the bytes go through the key stream, the plain text into
the MAC. -/
theorem b9xCryptoPayloadLoop_spec (plain cipher len : ℕ)
    (halias : plain = cipher ∨ plain + len ≤ cipher ∨ cipher + len ≤ plain) (n : ℕ) :
    ∀ (i : ℕ) (ctx : CryptoCtx) (ctrLen : ℕ) (m : Mem), i + n = len →
      ctx.nonce.length = 13 → ctx.StreamAt aes ctrLen i →
      let bs := loadBytes m (payloadSrc encrypt plain cipher + i) n
      let out := ctrXor (aes ctx.key) ctx.nonce i bs
      let r := b9xCryptoPayloadLoop aes encrypt plain cipher n i ctx ctrLen m
      r.1.SameCall ctx ∧ (∃ k, r.1.ctr = counterBlock ctx.nonce k) ∧
        r.1.mac = (payloadText encrypt bs out).foldl (absorb (aes ctx.key)) ctx.mac ∧
        r.2 = storeBytes m (payloadDst encrypt plain cipher + i) out := by
  induction n with
  | zero =>
    intro i ctx ctrLen m _ _ hs
    refine ⟨⟨rfl, rfl, rfl, rfl⟩, ?_, ?_, ?_⟩
    · rcases hs with ⟨-, -, h⟩ | ⟨-, -, h, -⟩
      exacts [⟨_, h⟩, ⟨_, h⟩]
    · cases encrypt <;> rfl
    · exact (storeBytes_nil m _).symm
  | succ n ih =>
    intro i ctx ctrLen m hi hn hs bs out r
    obtain ⟨hsame, hmac, hctr, hpad, hlen⟩ := hs.pad hn
    let p := b9xCryptoPad aes ctx ctrLen
    let src := payloadSrc encrypt plain cipher
    let dst := payloadDst encrypt plain cipher
    let key := keyByte (aes ctx.key) ctx.nonce i
    let byte := if encrypt then m (src + i) else m (src + i) ^^^ key
    have hkey : p.1.ctrPad (Fin.ofNat 16 p.2) = key := by
      have hidx : (Fin.ofNat 16 p.2) = Fin.ofNat 16 i := by
        simp only [p, hlen]
        exact Fin.ext (by simp)
      rw [hidx]
      exact congrFun hpad _
    -- one turn of the loop, whichever the direction
    have hstep : r = b9xCryptoPayloadLoop aes encrypt plain cipher n (i + 1)
        (b9xCryptoFeed aes p.1 byte) (p.2 + 1) (storeBytes m (dst + i) [m (src + i) ^^^ key]) := by
      simp only [r]
      rw [b9xCryptoPayloadLoop]
      cases encrypt
      · simp only [Bool.false_eq_true, if_false, hkey, p, byte, src, dst, payloadSrc, payloadDst]
      · simp only [if_true, hkey, p, byte, src, dst, payloadSrc, payloadDst]
    obtain ⟨hsame', hctr', hpad'⟩ := sameCall_b9xCryptoFeed aes p.1 byte
    have hall := hsame'.trans hsame
    have hs' : (b9xCryptoFeed aes p.1 byte).StreamAt aes (p.2 + 1) (i + 1) := by
      simp only [p, hlen]
      refine streamAt_succ aes ?_ ?_
      · rw [hctr', hctr, hall.nonce]
      · rw [hpad', hpad, hctr', hctr, hall.key]
    have ih' := ih (i + 1) (b9xCryptoFeed aes p.1 byte) (p.2 + 1)
      (storeBytes m (dst + i) [m (src + i) ^^^ key]) (by omega) (by rw [hall.nonce, hn]) hs'
    -- the byte written is not among those still to be read
    have hrest : loadBytes (storeBytes m (dst + i) [m (src + i) ^^^ key]) (src + (i + 1)) n =
        loadBytes m (src + i + 1) n := by
      refine loadBytes_storeBytes_of_disjoint ?_
      cases encrypt <;> simp only [src, dst, payloadSrc, payloadDst, length_singleton,
        Bool.false_eq_true, if_false, if_true] <;> omega
    have hbs : bs = m (src + i) :: loadBytes m (src + i + 1) n := loadBytes_succ _ _ _
    simp only at ih'
    rw [← hstep, hall.key, hall.nonce, hrest, mac_b9xCryptoFeed, hsame.key, hmac] at ih'
    obtain ⟨h1, h2, h3, h4⟩ := ih'
    refine ⟨h1.trans hall, h2, ?_, ?_⟩
    · rw [h3, ← foldl_cons]
      simp only [out, hbs, ctrXor]
      cases encrypt <;> rfl
    · rw [h4]
      simp only [out, hbs, ctrXor]
      exact (storeBytes_cons m _ _ _).symm

/-- **The payload phase**: the key stream goes over the payload from counter one on, and the counter
is back at zero. -/
theorem b9xCryptoPayload_spec {plain cipher : ℕ}
    (m : Mem) (hmac : ctx.mac = ⟨x, 0⟩) (hctr : ctx.ctr = counterBlock ctx.nonce 0)
    (hn : ctx.nonce.length = 13) (hnull : ctx.privLen = 0 ∨ plain ≠ 0 ∧ cipher ≠ 0)
    (halias : plain = cipher ∨ plain + ctx.privLen ≤ cipher ∨ cipher + ctx.privLen ≤ plain) :
    let bs := loadBytes m (payloadSrc encrypt plain cipher) ctx.privLen
    let out := Ccm.encrypt (aes ctx.key) ctx.nonce bs
    let r := b9xCryptoPayload aes ctx encrypt plain cipher m
    r.1.SameCall ctx ∧ r.1.ctr = counterBlock ctx.nonce 0 ∧
      r.1.blk = cbcMac (aes ctx.key) x (blocks (payloadText encrypt bs out)) ∧
      r.2 = storeBytes m (payloadDst encrypt plain cipher) out := by
  intro bs out r
  by_cases h0 : plain = 0 ∨ cipher = 0
  · have hlen : ctx.privLen = 0 := hnull.resolve_right fun h => h0.elim h.1 h.2
    have hbs : bs = [] := length_eq_zero_iff.mp (by simp [bs, hlen])
    have hr : r = (ctx, m) := if_pos h0
    rw [hr]
    simp only [out, hbs]
    refine ⟨⟨rfl, rfl, rfl, rfl⟩, hctr, ?_, (storeBytes_nil m _).symm⟩
    have hblk : ctx.blk = x := congrArg MacState.blk hmac
    have htext : payloadText encrypt [] (Ccm.encrypt (aes ctx.key) ctx.nonce []) = [] := by
      cases encrypt <;> rfl
    rw [htext]
    exact hblk
  have hstart : ctx.StreamAt aes 16 0 := Or.inl ⟨rfl, rfl, hctr⟩
  obtain ⟨hsame, ⟨k, hk⟩, hfold, hmem⟩ := b9xCryptoPayloadLoop_spec aes encrypt plain cipher
    ctx.privLen halias ctx.privLen 0 ctx 16 m (Nat.zero_add _) hn hstart
  let c := (b9xCryptoPayloadLoop aes encrypt plain cipher ctx.privLen 0 ctx 16 m).1
  obtain ⟨hsame', hctr'⟩ := sameCall_b9xCryptoFlush aes c
  have hr : r = ({ b9xCryptoFlush aes c with
      ctr := b9xCryptoCtrReset (b9xCryptoFlush aes c).ctr },
      (b9xCryptoPayloadLoop aes encrypt plain cipher ctx.privLen 0 ctx 16 m).2) := if_neg h0
  have hopen : Open x [] ctx.mac := by
    rw [hmac]
    exact Open.start x
  have hall := hsame'.trans hsame
  rw [hr]
  refine ⟨⟨hall.key, hall.nonce, hall.privLen, hall.tagLen⟩, ?_, ?_, hmem⟩
  · change b9xCryptoCtrReset (b9xCryptoFlush aes c).ctr = _
    rw [hctr', hk, b9xCryptoCtrReset_counterBlock hn]
  · exact blk_b9xCryptoFlush aes hopen hsame.key hfold

theorem b9xCryptoTag_eq
    (hblk : ctx.blk = x) (hctr : ctx.ctr = counterBlock ctx.nonce 0) (ht : ctx.tagLen ≤ 16) :
    b9xCryptoTag aes ctx = (List.ofFn (xorBlock x
      (aes ctx.key (counterBlock ctx.nonce 0)))).take ctx.tagLen := by
  refine ext_getElem (by simp [b9xCryptoTag, ht]) fun i hi _ => ?_
  have hi16 : i < 16 := by
    have : i < ctx.tagLen := by simpa [b9xCryptoTag] using hi
    omega
  have hfin : Fin.ofNat 16 i = ⟨i, hi16⟩ := Fin.ext (Nat.mod_eq_of_lt hi16)
  simp only [b9xCryptoTag, getElem_map, getElem_range, getElem_take,
    List.getElem_ofFn, xorBlock, hblk, hctr, hfin]

end Payload

/-! ### Frames -/

/-- What a frame is secured with, within the limits of the interface. -/
structure CryptoFrame where
  key : Block
  extAddr : List UInt8
  extAddr_length : extAddr.length = 8
  frameCnt : ℕ
  frameCnt_lt : frameCnt < 2 ^ 32
  secLevel : UInt8
  header : List UInt8
  header_length : 1 ≤ header.length ∧ header.length ≤ 255
  len : ℕ
  len_le : len ≤ 255
  tagLen : ℕ
  tagLen_mem : tagLen = 4 ∨ tagLen = 8 ∨ tagLen = 16

/-- Where the payload, its encrypted form and the tag lie. The payload ranges are the same or apart,
and the tag is apart from both. -/
structure CryptoBuffers (len tagLen : ℕ) where
  plain : ℕ
  cipher : ℕ
  mic : ℕ
  payload_ne_null : len = 0 ∨ plain ≠ 0 ∧ cipher ≠ 0
  mic_ne_null : mic ≠ 0
  plain_cipher : plain = cipher ∨ plain + len ≤ cipher ∨ cipher + len ≤ plain
  mic_plain : mic + tagLen ≤ plain ∨ plain + len ≤ mic
  mic_cipher : mic + tagLen ≤ cipher ∨ cipher + len ≤ mic

namespace CryptoFrame

variable (aes : Block → Block → Block) (f : CryptoFrame)

/-- The CCM nonce: the address, most significant byte first, the frame counter, the security
level. -/
def nonce : List UInt8 :=
  f.extAddr.reverse ++ (LittleEndian.leBytes 4 f.frameCnt).reverse ++ [f.secLevel]

/-- Call of `ieee802154_b9x_crypto_encrypt`. -/
def encryptAt (b : CryptoBuffers f.len f.tagLen) (m : Mem) : Bool × Mem :=
  b9xCryptoEncrypt aes (some f.key) (some f.extAddr) f.frameCnt f.secLevel (some f.header)
    b.plain f.len b.cipher b.mic f.tagLen m

/-- Call of `ieee802154_b9x_crypto_decrypt`. -/
def decryptAt (b : CryptoBuffers f.len f.tagLen) (m : Mem) : Bool × Mem :=
  b9xCryptoDecrypt aes (some f.key) (some f.extAddr) f.frameCnt f.secLevel (some f.header)
    b.cipher f.len b.mic f.tagLen b.plain m

theorem b9xCryptoNonce_eq : b9xCryptoNonce f.extAddr f.frameCnt f.secLevel = f.nonce := by
  simp [b9xCryptoNonce, nonce, LittleEndian.leBytes, Nat.shiftRight_eq_div_pow, Nat.div_div_eq_div_mul]

theorem length_nonce : f.nonce.length = 13 := by
  simp [nonce, f.extAddr_length]

theorem header_ne_nil : f.header ≠ [] :=
  length_pos_iff.mp f.header_length.1

theorem tagLen_le : f.tagLen ≤ 16 := by
  have := f.tagLen_mem
  omega

/-- Both directions up to the tag: the context holds the authentication field of the plain text. -/
theorem payload_spec (encrypt : Bool) (b : CryptoBuffers f.len f.tagLen) (m : Mem) :
    let bs := loadBytes m (payloadSrc encrypt b.plain b.cipher) f.len
    let out := Ccm.encrypt (aes f.key) f.nonce bs
    let r := b9xCryptoPayload aes (b9xCryptoBegin aes f.key f.extAddr f.frameCnt f.secLevel
      f.header f.len f.tagLen) encrypt b.plain b.cipher m
    r.1.tagLen = f.tagLen ∧ b9xCryptoTag aes r.1 =
        Ccm.tag (aes f.key) f.tagLen f.nonce f.header (payloadText encrypt bs out) ∧
      r.2 = storeBytes m (payloadDst encrypt b.plain b.cipher) out := by
  intro bs out r
  obtain ⟨hkey, hnonce, hpriv, htag, hctr, hmac⟩ := b9xCryptoBegin_spec aes f.key f.extAddr
    f.frameCnt f.secLevel f.header_ne_nil f.len f.tagLen_mem
  rw [f.b9xCryptoNonce_eq] at hnonce hctr hmac
  obtain ⟨hsame, hctr', hblk, hmem⟩ := b9xCryptoPayload_spec aes encrypt m hmac
    (hctr.trans (by rw [hnonce])) (by rw [hnonce, f.length_nonce])
    (by rw [hpriv]; exact b.payload_ne_null) (by rw [hpriv]; exact b.plain_cipher)
  rw [hkey, hnonce, hpriv] at hblk hmem
  have hlen : (payloadText encrypt bs out).length = f.len := by
    cases encrypt <;> simp [payloadText, out, bs]
  refine ⟨hsame.tagLen.trans htag, ?_, hmem⟩
  rw [b9xCryptoTag_eq aes hblk (by rw [hctr', hsame.nonce])
    (by rw [hsame.tagLen, htag]; exact f.tagLen_le)]
  rw [hsame.tagLen, htag, hsame.key, hkey, hsame.nonce, hnonce, Ccm.tag, authBlock, hlen,
    cbcMac, cbcMac, cbcMac, foldl_append]

theorem encryptAt_eq (b : CryptoBuffers f.len f.tagLen) (m : Mem) :
    let msg := loadBytes m b.plain f.len
    f.encryptAt aes b m =
      (true, storeBytes (storeBytes m b.cipher (Ccm.encrypt (aes f.key) f.nonce msg)) b.mic
        (Ccm.tag (aes f.key) f.tagLen f.nonce f.header msg)) := by
  intro msg
  obtain ⟨-, htag, hmem⟩ := f.payload_spec aes true b m
  have hcond : f.header.length ≠ 0 ∧ b.mic ≠ 0 ∧ f.tagLen ≠ 0 := by
    have h1 := f.header_length.1
    have h2 := f.tagLen_mem
    exact ⟨by omega, b.mic_ne_null, by omega⟩
  simp only [encryptAt, b9xCryptoEncrypt, if_pos hcond, b9xCryptoFinish]
  rw [htag, hmem]
  rfl

theorem decryptAt_eq (b : CryptoBuffers f.len f.tagLen) (m : Mem) :
    let msg := Ccm.encrypt (aes f.key) f.nonce (loadBytes m b.cipher f.len)
    f.decryptAt aes b m =
      (decide (loadBytes m b.mic f.tagLen = Ccm.tag (aes f.key) f.tagLen f.nonce f.header msg),
        storeBytes m b.plain msg) := by
  intro msg
  obtain ⟨hlen, htag, hmem⟩ := f.payload_spec aes false b m
  have hcond : f.header.length ≠ 0 ∧ b.mic ≠ 0 ∧ f.tagLen ≠ 0 := by
    have h1 := f.header_length.1
    have h2 := f.tagLen_mem
    exact ⟨by omega, b.mic_ne_null, by omega⟩
  have hmic : loadBytes (storeBytes m b.plain msg) b.mic f.tagLen = loadBytes m b.mic f.tagLen := by
    refine loadBytes_storeBytes_of_disjoint ?_
    have := b.mic_plain
    simp only [msg, length_encrypt, length_loadBytes]
    omega
  simp only [decryptAt, b9xCryptoDecrypt, if_pos hcond, b9xCryptoCheck]
  rw [hlen, htag, hmem]
  exact Prod.ext (by rw [← hmic]; rfl) rfl

end CryptoFrame

/-- **MAC frame security is CCM.** Encryption writes the ciphertext and the tag of CCM and nothing
else, also in place; decryption accepts iff the tag is right, and gives back what was encrypted. -/
theorem b9xCrypto_isCcm (aes : Block → Block → Block) (f : CryptoFrame)
    (b : CryptoBuffers f.len f.tagLen) (m : Mem) :
    let cipher := aes f.key
    let sent := f.encryptAt aes b m
    let received := f.decryptAt aes b m
    (sent.1 = true ∧
      loadBytes sent.2 b.cipher f.len = Ccm.encrypt cipher f.nonce (loadBytes m b.plain f.len) ∧
      loadBytes sent.2 b.mic f.tagLen =
        Ccm.tag cipher f.tagLen f.nonce f.header (loadBytes m b.plain f.len) ∧
      ∀ x, (x < b.cipher ∨ b.cipher + f.len ≤ x) → (x < b.mic ∨ b.mic + f.tagLen ≤ x) →
        sent.2 x = m x) ∧
    (loadBytes received.2 b.plain f.len = Ccm.encrypt cipher f.nonce (loadBytes m b.cipher f.len) ∧
      (received.1 = true ↔ loadBytes m b.mic f.tagLen =
        Ccm.tag cipher f.tagLen f.nonce f.header (loadBytes received.2 b.plain f.len))) ∧
    ∀ (b' : CryptoBuffers f.len f.tagLen) (m' : Mem),
      loadBytes m' b'.cipher f.len = loadBytes sent.2 b.cipher f.len →
      loadBytes m' b'.mic f.tagLen = loadBytes sent.2 b.mic f.tagLen →
        (f.decryptAt aes b' m').1 = true ∧
          loadBytes (f.decryptAt aes b' m').2 b'.plain f.len = loadBytes m b.plain f.len := by
  intro cipher sent received
  let msg := loadBytes m b.plain f.len
  have hcl : (Ccm.encrypt cipher f.nonce msg).length = f.len := by simp [msg]
  have htl : (Ccm.tag cipher f.tagLen f.nonce f.header msg).length = f.tagLen :=
    length_tag _ f.tagLen_le _ _ _
  have hsent : sent = _ := f.encryptAt_eq aes b m
  have hcipher : loadBytes sent.2 b.cipher f.len = Ccm.encrypt cipher f.nonce msg := by
    have hmc := b.mic_cipher
    rw [hsent, loadBytes_storeBytes_of_disjoint (by rw [htl]; omega)]
    exact loadBytes_storeBytes_of_length _ _ hcl
  have hmic : loadBytes sent.2 b.mic f.tagLen = Ccm.tag cipher f.tagLen f.nonce f.header msg := by
    rw [hsent]
    exact loadBytes_storeBytes_of_length _ _ htl
  have hplain : ∀ (b' : CryptoBuffers f.len f.tagLen) (m' : Mem),
      loadBytes (f.decryptAt aes b' m').2 b'.plain f.len =
        Ccm.encrypt cipher f.nonce (loadBytes m' b'.cipher f.len) := by
    intro b' m'
    rw [f.decryptAt_eq aes b' m']
    exact loadBytes_storeBytes_of_length _ _ (by simp)
  refine ⟨⟨by rw [hsent], hcipher, hmic, ?_⟩, ⟨hplain b m, ?_⟩, ?_⟩
  · intro x hx hx'
    rw [hsent]
    refine (storeBytes_of_notMem (by rw [htl]; exact hx')).trans ?_
    exact storeBytes_of_notMem (by rw [hcl]; exact hx)
  · rw [hplain b m]
    have : received = _ := f.decryptAt_eq aes b m
    rw [this]
    exact decide_eq_true_iff
  intro b' m' hc ht
  have hmsg : Ccm.encrypt cipher f.nonce (loadBytes m' b'.cipher f.len) = msg := by
    rw [hc, hcipher, encrypt_encrypt]
  refine ⟨?_, by rw [hplain b' m', hmsg]⟩
  rw [f.decryptAt_eq aes b' m']
  exact decide_eq_true (by rw [ht, hmic, hmsg])

/-- A 20-byte payload secured in place at address 64, its tag right behind it. -/
theorem b9xCrypto_isCcm_inPlace :
    let f : CryptoFrame :=
      { key := fun i => UInt8.ofNat i, extAddr := [1, 2, 3, 4, 5, 6, 7, 8], extAddr_length := rfl
        frameCnt := 7, frameCnt_lt := by decide, secLevel := 6, header := [0x49, 0xd8, 0x01]
        header_length := by decide, len := 20, len_le := by decide, tagLen := 8
        tagLen_mem := by decide }
    let b : CryptoBuffers f.len f.tagLen :=
      { plain := 64, cipher := 64, mic := 84, payload_ne_null := by decide
        mic_ne_null := by decide, plain_cipher := by decide, mic_plain := by decide
        mic_cipher := by decide }
    let m : Mem := fun x => UInt8.ofNat (3 * x)
    (f.decryptAt xorBlock b (f.encryptAt xorBlock b m).2).1 = true ∧
      loadBytes (f.decryptAt xorBlock b (f.encryptAt xorBlock b m).2).2 64 20 =
        loadBytes m 64 20 := by
  intro f b m
  exact (b9xCrypto_isCcm xorBlock f b m).2.2 b _ rfl rfl

end TlZephyr
