import TlZephyr.Spinel

/-!
# Spinel Packing and Unpacking Are Inverse

A format with its argument values is one tree, `SpinelFormat`: a sequence of items and
structs, each item with a value in the range of its type. The tree says what the format
string is (`render`), what the caller passes (`args`), and which bytes the values stand for
(`encode`). Whether a block or a struct carries a length depends on what follows it at its
own nesting level; in the tree that is whether anything follows at all.
-/

open LittleEndian

namespace TlZephyr

open List Option

/-! ### Formats with values -/

inductive SpinelInt
  | uint8 | int8 | uint16 | int16 | uint32 | int32 | uint64 | int64
  deriving DecidableEq, Repr

namespace SpinelInt

def char : SpinelInt → Char
  | uint8 => 'C' | int8 => 'c' | uint16 => 'S' | int16 => 's'
  | uint32 => 'L' | int32 => 'l' | uint64 => 'X' | int64 => 'x'

def size : SpinelInt → ℕ
  | uint8 | int8 => 1
  | uint16 | int16 => 2
  | uint32 | int32 => 4
  | uint64 | int64 => 8

def signed : SpinelInt → Bool
  | int8 | int16 | int32 | int64 => true
  | _ => false

def InRange (ty : SpinelInt) (v : ℤ) : Prop :=
  if ty.signed then -(256 ^ ty.size / 2 : ℤ) ≤ v ∧ v < 256 ^ ty.size / 2
  else 0 ≤ v ∧ v < 256 ^ ty.size

instance (ty : SpinelInt) (v : ℤ) : Decidable (ty.InRange v) :=
  inferInstanceAs (Decidable (if ty.signed then _ else _))

def read (ty : SpinelInt) (u : ℕ) : ℤ :=
  if ty.signed ∧ 256 ^ ty.size / 2 ≤ u then (u : ℤ) - 256 ^ ty.size else u

theorem read_mod (ty : SpinelInt) (v : ℤ) (h : ty.InRange v) :
    ty.read (v % 256 ^ ty.size).toNat = v := by
  cases ty <;> simp only [InRange, read, signed, size, Bool.false_eq_true, if_true, if_false,
    true_and, false_and] at h ⊢ <;> norm_num at h ⊢ <;> (try split) <;> omega

end SpinelInt

inductive SpinelBlock
  | ipv6addr | eui64 | eui48
  deriving DecidableEq, Repr

namespace SpinelBlock

def char : SpinelBlock → Char
  | ipv6addr => '6' | eui64 => 'E' | eui48 => 'e'

def size : SpinelBlock → ℕ
  | ipv6addr => 16 | eui64 => 8 | eui48 => 6

end SpinelBlock

def utf8Bytes (text : List Char) : List UInt8 := text.flatMap String.utf8EncodeChar

/-- An item of a format with its value. A text has no NUL; `data` says whether it always has a
length. -/
inductive SpinelItem
  | bool (v : Bool)
  | int (ty : SpinelInt) (v : ℤ) (h : ty.InRange v)
  | uintPacked (v : ℕ) (h : v ≤ spinelMaxUintPacked)
  | block (ty : SpinelBlock) (bytes : List UInt8) (h : bytes.length = ty.size)
  | utf8 (text : List Char) (h : '\x00' ∉ text)
  | data (wlen : Bool) (bytes : List UInt8) (h : 1 ≤ bytes.length ∧ bytes.length ≤ 65535)

/-- A format with its values: items, voids and structs in any order and depth. -/
inductive SpinelFormat
  | nil
  | item (i : SpinelItem) (rest : SpinelFormat)
  | void (rest : SpinelFormat)
  | struct (wlen : Bool) (body rest : SpinelFormat)

namespace SpinelItem

def char : SpinelItem → Char
  | bool _ => 'b'
  | int ty _ _ => ty.char
  | uintPacked _ _ => 'i'
  | block ty _ _ => ty.char
  | utf8 _ _ => 'U'
  | data wlen _ _ => if wlen then 'd' else 'D'

def args : SpinelItem → List VaArg
  | bool v => [.int (if v then 1 else 0)]
  | int ty v _ => if ty.size = 8 then [.int64 v] else [.int v]
  | uintPacked v _ => [.int v]
  | block _ bytes _ => [.ptr (some bytes)]
  | utf8 text _ => [.ptr (some (utf8Bytes text ++ [0]))]
  | data _ bytes _ => [.ptr (some bytes), .int bytes.length]

/-- Bytes of the value; `followed` says whether something stands behind the item at
its level. -/
def encode (followed : Bool) : SpinelItem → List UInt8
  | bool v => [if v then 1 else 0]
  | int ty v _ => leBytes ty.size (v % 256 ^ ty.size).toNat
  | uintPacked v _ => spinelPackedUintEncode v
  | block _ bytes _ => bytes
  | utf8 text _ => utf8Bytes text ++ [0]
  | data wlen bytes _ => (if wlen || followed then leBytes 2 bytes.length else []) ++ bytes

inductive Fits (copyBuff : Bool) : SpinelItem → SpinelDest → Prop
  | bool (v : Bool) (old : ℕ) : Fits copyBuff (.bool v) (.scalar (some old))
  | int (ty : SpinelInt) (v : ℤ) (h : ty.InRange v) (old : ℕ) :
      Fits copyBuff (.int ty v h) (.scalar (some old))
  | uintPacked (v : ℕ) (h : v ≤ spinelMaxUintPacked) (old : ℕ) :
      Fits copyBuff (.uintPacked v h) (.scalar (some old))
  | block (ty : SpinelBlock) (bytes : List UInt8) (h : bytes.length = ty.size) :
      Fits copyBuff (.block ty bytes h) (.block true)
  | utf8 (text : List Char) (h : '\x00' ∉ text) (size : ℕ)
      (hsize : copyBuff = true → (utf8Bytes text).length + 1 ≤ size) :
      Fits copyBuff (.utf8 text h) (.string true size)
  | data (wlen : Bool) (bytes : List UInt8) (h : 1 ≤ bytes.length ∧ bytes.length ≤ 65535)
      (cap : ℕ) (hcap : copyBuff = true → bytes.length ≤ cap) :
      Fits copyBuff (.data wlen bytes h) (.data true (some cap))

/-- The destination holds the value: the number, the copied bytes, or a pointer to them. -/
def HeldBy : SpinelItem → SpinelStore → Prop
  | bool v, .bool b => b = v
  | int ty v _, .uint u => ty.read u = v
  | uintPacked v _, .uint u => u = v
  | block _ bytes _, .copied b => b = bytes
  | block ty bytes _, .ptr p => p.take ty.size = bytes
  | utf8 text _, .copied b => b = utf8Bytes text ++ [0]
  | utf8 text _, .ptr p => 0 ∈ p ∧ p.takeWhile (· != 0) = utf8Bytes text
  | data _ bytes _, .dataCopied (some b) (some n) => b = bytes ∧ n = bytes.length
  | data _ bytes _, .dataPtr (some p) (some n) => p.take n = bytes ∧ n = bytes.length
  | _, _ => False

end SpinelItem

namespace SpinelFormat

def isNil : SpinelFormat → Bool
  | nil => true
  | _ => false

def render : SpinelFormat → List Char
  | nil => []
  | item i rest => i.char :: rest.render
  | void rest => '.' :: rest.render
  | struct wlen body rest =>
    (if wlen then 't' else 'T') :: '(' :: (body.render ++ ')' :: rest.render)

/-- Variadic arguments; a struct contributes those of its body. -/
def args : SpinelFormat → List VaArg
  | nil => []
  | item i rest => i.args ++ rest.args
  | void rest => rest.args
  | struct _ body rest => body.args ++ rest.args

def items : SpinelFormat → List SpinelItem
  | nil => []
  | item i rest => i :: rest.items
  | void rest => rest.items
  | struct _ body rest => body.items ++ rest.items

def encode : SpinelFormat → List UInt8
  | nil => []
  | item i rest => i.encode (!rest.isNil) ++ rest.encode
  | void rest => rest.encode
  | struct wlen body rest =>
    (if wlen || !rest.isNil then leBytes 2 body.encode.length else []) ++ body.encode ++ rest.encode

end SpinelFormat

/-! ### Bracket matcher -/

/-- Where a format may stop: at the end, or at the bracket that closes its struct. -/
def SpinelStop (tail : List Char) : Prop := tail = [] ∨ ∃ r, tail = ')' :: r

variable (k : ℕ) (copyBuff : Bool) (text : List Char) (c : Char) (i : SpinelItem) (n v : ℕ) (tx wlen
  : Bool) (bytes rest : List UInt8) (dataLen : ℕ) (body f : SpinelFormat) (tail : List Char)

theorem SpinelItem.char_ne : i.char ≠ '(' ∧ i.char ≠ ')' := by
  cases i with
  | int ty _ _ => cases ty <;> simp [char, SpinelInt.char]
  | block ty _ _ => cases ty <;> simp [char, SpinelBlock.char]
  | data wlen _ _ => cases wlen <;> simp [char]
  | _ => simp [char]

open SpinelFormat

theorem spinelNextPackedLoop_render (depth : ℤ) (hd : 0 < depth) (rest : List Char) :
    spinelNextPackedLoop depth (f.render ++ rest) = spinelNextPackedLoop depth rest := by
  induction f generalizing depth rest with
  | nil => rfl
  | item i r ih =>
    obtain ⟨h1, h2⟩ := i.char_ne
    simp [render, spinelNextPackedLoop, h1, h2, hd, ih]
  | void r ih => simp [render, spinelNextPackedLoop, hd, ih]
  | struct wlen body r ihb ihr =>
    have hopen : 0 < depth + 1 := by omega
    have hne : ¬ depth = 0 := by omega
    cases wlen <;>
      simp [render, spinelNextPackedLoop, hd, hopen, hne, ihb, ihr]

theorem spinelNextPackedDatatype_render (ht : SpinelStop tail) :
    spinelNextPackedDatatype (c :: (f.render ++ tail)) = f.render ++ tail := by
  cases f with
  | nil =>
    rcases ht with rfl | ⟨r, rfl⟩ <;>
      simp [render, spinelNextPackedDatatype, spinelNextPackedLoop]
  | item i r =>
    obtain ⟨h1, h2⟩ := i.char_ne
    simp [render, spinelNextPackedDatatype, spinelNextPackedLoop, h1, h2]
  | void r => simp [render, spinelNextPackedDatatype, spinelNextPackedLoop]
  | struct wlen body r =>
    cases wlen <;>
      simp [render, spinelNextPackedDatatype, spinelNextPackedLoop]

theorem spinelNextPackedDatatype_struct (rest : List Char) :
    spinelNextPackedDatatype (c :: '(' :: (body.render ++ ')' :: rest)) = rest := by
  simp only [spinelNextPackedDatatype, drop_succ_cons, drop_zero, spinelNextPackedLoop]
  norm_num
  rw [spinelNextPackedLoop_render body 1 (by omega)]
  simp [spinelNextPackedLoop]

theorem spinelFollowed_eq (fmt : List Char) (f : SpinelFormat) (tail : List Char)
    (ht : SpinelStop tail) (h : spinelNextPackedDatatype fmt = f.render ++ tail) :
    spinelFollowed fmt = !f.isNil := by
  unfold spinelFollowed
  rw [h]
  cases f with
  | nil => rcases ht with rfl | ⟨r, rfl⟩ <;> simp [render, isNil]
  | item i r => simp [render, isNil, i.char_ne.2]
  | void r => simp [render, isNil]
  | struct wlen body r => cases wlen <;> simp [render, isNil]

/-! ### Text -/

private theorem lead_two (hk : k < 32) :
    UInt8.ofNat (k + 0xc0) &&& 0x80 ≠ 0 ∧ spinelLeadBytes (UInt8.ofNat (k + 0xc0)) = some 1 := by
  revert k
  decide

private theorem lead_three (hk : k < 16) :
    UInt8.ofNat (k + 0xe0) &&& 0x80 ≠ 0 ∧ spinelLeadBytes (UInt8.ofNat (k + 0xe0)) = some 2 := by
  revert k
  decide

private theorem lead_four (hk : k < 8) :
    UInt8.ofNat (k + 0xf0) &&& 0x80 ≠ 0 ∧ spinelLeadBytes (UInt8.ofNat (k + 0xf0)) = some 3 := by
  revert k
  decide

private theorem cont_byte (hk : k < 64) : UInt8.ofNat (k + 0x80) &&& 0xc0 = 0x80 := by
  revert k
  decide

private theorem ascii_byte (hk : k < 128) (h0 : k ≠ 0) :
    UInt8.ofNat k ≠ 0 ∧ UInt8.ofNat k &&& 0x80 = 0 := by
  revert k
  decide

/-- The bytes of a character other than NUL: one ASCII byte, or a lead byte and its continuation. -/
theorem utf8EncodeChar_shape (hc : c ≠ '\x00') :
    (∃ b, String.utf8EncodeChar c = [b] ∧ b ≠ 0 ∧ b &&& 0x80 = 0) ∨
      ∃ lead conts, String.utf8EncodeChar c = lead :: conts ∧ lead &&& 0x80 ≠ 0 ∧
        spinelLeadBytes lead = some conts.length ∧ ∀ b ∈ conts, b &&& 0xc0 = 0x80 := by
  have hv : c.val.toNat ≠ 0 := by
    intro h
    apply hc
    apply Char.ext
    exact UInt32.toNat_inj.mp (by simpa using h)
  have hcont : ∀ k, UInt8.ofNat (k % 64 + 0x80) &&& 0xc0 = 0x80 :=
    fun k => cont_byte _ (Nat.mod_lt _ (by norm_num))
  unfold String.utf8EncodeChar
  dsimp only
  split
  · exact .inl ⟨_, rfl, ascii_byte _ (by omega) hv⟩
  split
  · obtain ⟨h1, h2⟩ := lead_two (c.val.toNat / 64 % 32) (Nat.mod_lt _ (by norm_num))
    exact .inr ⟨_, _, rfl, h1, h2, forall_mem_singleton.mpr (hcont _)⟩
  split
  · obtain ⟨h1, h2⟩ := lead_three (c.val.toNat / 4096 % 16) (Nat.mod_lt _ (by norm_num))
    exact .inr ⟨_, _, rfl, h1, h2,
      forall_mem_cons.mpr ⟨hcont _, forall_mem_singleton.mpr (hcont _)⟩⟩
  · obtain ⟨h1, h2⟩ := lead_four (c.val.toNat / 262144 % 8) (Nat.mod_lt _ (by norm_num))
    exact .inr ⟨_, _, rfl, h1, h2, forall_mem_cons.mpr ⟨hcont _,
      forall_mem_cons.mpr ⟨hcont _, forall_mem_singleton.mpr (hcont _)⟩⟩⟩

private theorem ne_zero_of_and {b m : UInt8} (h : b &&& m ≠ 0) : b ≠ 0 := by
  rintro rfl
  simp at h

theorem utf8Bytes_ne_zero (h : '\x00' ∉ text) : ∀ b ∈ utf8Bytes text, b ≠ 0 := by
  intro b hb
  obtain ⟨c, hc, hb⟩ := mem_flatMap.mp hb
  rcases utf8EncodeChar_shape c (fun he => h (he ▸ hc)) with
    ⟨x, he, hx, -⟩ | ⟨lead, conts, he, hlead, -, hconts⟩
  · rw [he] at hb
    rw [mem_singleton.mp hb]
    exact hx
  · rw [he] at hb
    rcases mem_cons.mp hb with rfl | hb
    · exact ne_zero_of_and hlead
    · exact ne_zero_of_and (m := 0xc0) (by rw [hconts b hb]; decide)

theorem takeWhile_utf8Bytes (h : '\x00' ∉ text) (junk : List UInt8) :
    (utf8Bytes text ++ 0 :: junk).takeWhile (· != 0) = utf8Bytes text := by
  rw [takeWhile_append_of_pos fun b hb => by simpa using utf8Bytes_ne_zero text h b hb]
  simp

theorem spinelContBytes_append (conts rest : List UInt8)
    (h : ∀ b ∈ conts, b &&& 0xc0 = 0x80) :
    spinelContBytes conts.length (conts ++ rest) = some (true, rest) := by
  induction conts with
  | nil => rfl
  | cons b conts ih =>
    rw [length_cons, cons_append, spinelContBytes, h b (by simp)]
    exact ih fun b hb => h b (mem_cons_of_mem _ hb)

theorem spinelValidateUtf8_utf8Bytes (h : '\x00' ∉ text) (junk : List UInt8) :
    spinelValidateUtf8 (utf8Bytes text ++ 0 :: junk) = some true := by
  have hloop : ∀ (text : List Char) (n : ℕ), '\x00' ∉ text → (utf8Bytes text).length < n →
      spinelValidateUtf8Loop n (utf8Bytes text ++ 0 :: junk) = some true := by
    intro text
    induction text with
    | nil =>
      intro n _ hn
      rcases n with _ | n
      · omega
      rfl
    | cons c text ih =>
      intro n hc hn
      rcases n with _ | n
      · omega
      have hrest : '\x00' ∉ text := fun hm => hc (mem_cons_of_mem _ hm)
      have hbytes : utf8Bytes (c :: text) = String.utf8EncodeChar c ++ utf8Bytes text := rfl
      have hlen : (utf8Bytes text).length < n := by
        have : 0 < (String.utf8EncodeChar c).length :=
          length_pos_iff.mpr String.utf8EncodeChar_ne_nil
        rw [hbytes, length_append] at hn
        omega
      rw [hbytes, append_assoc]
      rcases utf8EncodeChar_shape c (fun he => hc (he ▸ mem_cons_self)) with
        ⟨b, he, hb, hascii⟩ | ⟨lead, conts, he, hlead, hlb, hconts⟩
      · rw [he]
        simp only [singleton_append, spinelValidateUtf8Loop, hb, hascii, if_false, if_true]
        exact ih n hrest hlen
      rw [he]
      simp only [cons_append, spinelValidateUtf8Loop, ne_zero_of_and hlead, hlead,
        if_false, hlb, spinelContBytes_append conts _ hconts, bind_eq_bind,
        bind_some, if_true]
      exact ih n hrest hlen
  exact hloop text _ h (by simp)

/-! ### Packed integers -/

private theorem more_byte (hk : k < 128) :
    UInt8.ofNat (k ||| 0x80) &&& 0x80 = 0x80 ∧ (UInt8.ofNat (k ||| 0x80) &&& 0x7f).toNat = k := by
  revert k
  decide

private theorem last_byte (hk : k < 128) :
    ¬ UInt8.ofNat k &&& 0x80 = 0x80 ∧ (UInt8.ofNat k &&& 0x7f).toNat = k := by
  revert k
  decide

private theorem or_shiftLeft {acc i : ℕ} (h : acc < 2 ^ i) (k : ℕ) :
    acc ||| k <<< i = acc + k * 2 ^ i := by
  rw [Nat.or_comm, ← Nat.shiftLeft_add_eq_or_of_lt h, Nat.shiftLeft_eq, Nat.add_comm]

theorem spinelPackedUintDecodeLoop_encode (w i acc ret : ℕ) (junk : List UInt8) (len : ℕ)
    (hlen : n + 1 ≤ len) (hi : i + 7 * n < 32) (hw : w < 2 ^ (7 * (n + 1)))
    (hacc : acc < 2 ^ i) (hfit : acc + w * 2 ^ i < 2 ^ 32) :
    spinelPackedUintDecodeLoop (spinelPackedUintLoop n w ++ junk) len i acc ret =
      some (.ok (ret + n + 1, acc + w * 2 ^ i)) := by
  induction n generalizing w i acc ret len with
  | zero =>
    have hw' : w &&& 0x7f = w := by
      rw [show 0x7f = 2 ^ 7 - 1 by norm_num, Nat.and_two_pow_sub_one_eq_mod,
        Nat.mod_eq_of_lt (by simpa using hw)]
    obtain ⟨hstop, hval⟩ := last_byte w (by simpa using hw)
    have hguard : ¬ (len < 1 ∨ 32 ≤ i) := by omega
    rw [spinelPackedUintLoop, hw', singleton_append, spinelPackedUintDecodeLoop.eq_def]
    simp only [hguard, if_false, hstop, hval, or_shiftLeft hacc, Nat.mod_eq_of_lt hfit, Nat.add_zero]
  | succ n ih =>
    have hlow : w &&& 0x7f = w % 128 := Nat.and_two_pow_sub_one_eq_mod w 7
    have hshift : w >>> 7 = w / 128 := by rw [Nat.shiftRight_eq_div_pow]
    obtain ⟨hmore, hval⟩ := more_byte (w % 128) (Nat.mod_lt _ (by norm_num))
    have hguard : ¬ (len < 1 ∨ 32 ≤ i) := by omega
    have hsplit : w = w % 128 + 128 * (w / 128) := (Nat.mod_add_div w 128).symm
    have hpow : 2 ^ (i + 7) = 128 * 2 ^ i := by rw [pow_add]; ring
    have hsum : acc + w % 128 * 2 ^ i + w / 128 * 2 ^ (i + 7) = acc + w * 2 ^ i := by
      rw [hpow]
      conv_rhs => rw [hsplit]
      ring
    have hstep : acc + w % 128 * 2 ^ i < 2 ^ 32 := by
      have := Nat.zero_le (w / 128 * 2 ^ (i + 7))
      omega
    have hacc' : acc + w % 128 * 2 ^ i < 2 ^ (i + 7) := by
      have : w % 128 < 128 := Nat.mod_lt _ (by norm_num)
      have := Nat.mul_le_mul_right (2 ^ i) (by omega : w % 128 ≤ 127)
      omega
    have hw' : w / 128 < 2 ^ (7 * (n + 1)) := by
      have hexp : 2 ^ (7 * (n + 1 + 1)) = 2 ^ (7 * (n + 1)) * 128 := by
        rw [show 7 * (n + 1 + 1) = 7 * (n + 1) + 7 by ring, pow_add]
        rfl
      rw [Nat.div_lt_iff_lt_mul (by norm_num), ← hexp]
      exact hw
    rw [spinelPackedUintLoop, hlow, hshift, cons_append, spinelPackedUintDecodeLoop.eq_def]
    simp only [hguard, if_false, hmore, if_true, hval, or_shiftLeft hacc, Nat.mod_eq_of_lt hstep]
    rw [ih (w / 128) (i + 7) _ (ret + 1) (len - 1) (by omega) (by omega) hw' hacc'
      (by rw [hsum]; exact hfit), hsum, show ret + 1 + n + 1 = ret + (n + 1) + 1 by omega]

theorem length_spinelPackedUintLoop : (spinelPackedUintLoop n v).length = n + 1 := by
  induction n generalizing v with
  | zero => rfl
  | succ n ih => simp [spinelPackedUintLoop, ih]

theorem spinelPackedUintDecode_encode (h : v ≤ spinelMaxUintPacked)
    (junk : List UInt8) (len : ℕ) (hlen : (spinelPackedUintEncode v).length ≤ len) :
    spinelPackedUintDecode (spinelPackedUintEncode v ++ junk) len =
      some (.ok ((spinelPackedUintEncode v).length, v)) := by
  have hmax : v ≤ 2097151 := h
  have hsize : v < 2 ^ (7 * (spinelPackedUintSize v - 1 + 1)) ∧ spinelPackedUintSize v - 1 ≤ 2 := by
    unfold spinelPackedUintSize
    split <;> [skip; split <;> [skip; split]] <;> norm_num at * <;> omega
  rw [spinelPackedUintEncode, length_spinelPackedUintLoop] at hlen
  rw [spinelPackedUintDecode, spinelPackedUintEncode, length_spinelPackedUintLoop,
    spinelPackedUintDecodeLoop_encode _ v 0 0 0 junk len hlen (by omega) hsize.1 (by norm_num)
      (by norm_num; omega)]
  simp

/-! ### Packer -/

@[simp] theorem spinelEmit_append (as bs : List UInt8) :
    spinelEmit tx (as ++ bs) = spinelEmit tx as ++ spinelEmit tx bs := by
  cases tx <;> rfl

@[simp] theorem spinelEmit_nil : spinelEmit tx [] = [] := by
  cases tx <;> rfl

/-- A block of bytes, with or without its length in front. -/
abbrev packedBlock (wlen : Bool) (bytes : List UInt8) : List UInt8 :=
  (if wlen then leBytes 2 bytes.length else []) ++ bytes

theorem spinelPackData_eq (h : 1 ≤ bytes.length ∧ bytes.length ≤ 65535) (more : List VaArg) :
    spinelPackData tx wlen (.ptr (some bytes) :: .int bytes.length :: more) =
      some (.next (packedBlock wlen bytes).length
        (spinelEmit tx (packedBlock wlen bytes)) more) := by
  have hsize : ((bytes.length : ℤ) % 256 ^ 2).toNat = bytes.length := by omega
  have hne : bytes.length ≠ 0 := by omega
  simp only [spinelPackData, spinelPackLength, hsize, hne, if_false, lt_irrefl, false_and,
    take_length]
  cases wlen <;> simp

open SpinelItem (char HeldBy Fits)

theorem spinelPackItem_item (ht : SpinelStop tail) (tx : Bool)
    (vpack : Bool → List Char → List VaArg → Option SpinelPacked) (more : List VaArg) :
    spinelPackItem tx (i.char :: (f.render ++ tail)) vpack (i.args ++ more) =
      some (.next (i.encode (!f.isNil)).length (spinelEmit tx (i.encode (!f.isNil))) more) := by
  cases i with
  | bool v => cases v <;> rfl
  | int ty v h =>
    cases ty <;>
      simp [spinelPackItem, char, SpinelItem.args, SpinelItem.encode,
        SpinelInt.char, SpinelInt.size, spinelPackInt, spinelPackInt64]
  | uintPacked v h =>
    have hmax : v ≤ 2097151 := h
    have harg : ((v : ℤ) % 2 ^ 32).toNat = v := by omega
    simp only [spinelPackItem, char, SpinelItem.args, SpinelItem.encode,
      headD_cons, cons_append, nil_append, spinelPackUint, harg,
      not_lt.mpr h, if_false]
  | block ty bytes h =>
    cases ty <;>
      simp_all [spinelPackItem, char, SpinelItem.args, SpinelItem.encode,
        SpinelBlock.char, SpinelBlock.size, spinelPackBlock, take_of_length_le]
  | utf8 text h =>
    have hlen : cStrlen (utf8Bytes text ++ [0]) = some (utf8Bytes text).length := by
      simp [cStrlen, takeWhile_utf8Bytes text h []]
    simp [spinelPackItem, char, SpinelItem.args, SpinelItem.encode,
      spinelPackUtf8, hlen, take_of_length_le]
  | data wlen bytes h =>
    have hfol := spinelFollowed_eq _ f tail ht
      (spinelNextPackedDatatype_render (char (.data wlen bytes h)) f tail ht)
    cases wlen
    · simp only [char, Bool.false_eq_true, if_false] at hfol
      simp only [spinelPackItem, char, SpinelItem.args, headD_cons,
        Bool.false_eq_true, if_false, cons_append, nil_append, hfol]
      exact spinelPackData_eq tx _ bytes h more
    · exact spinelPackData_eq tx true bytes h more

theorem spinelPackStruct_eq (body : List Char)
    (vpack : Bool → List Char → List VaArg → Option SpinelPacked) (args more : List VaArg)
    (bytes : List UInt8)
    (h : ∀ tx, vpack tx body args = some ⟨bytes.length, spinelEmit tx bytes, more⟩) :
    spinelPackStruct tx wlen body vpack args = some (.next (packedBlock wlen bytes).length
        (spinelEmit tx (packedBlock wlen bytes)) more) := by
  have hcast : ((bytes.length : ℤ) % 256 ^ 2).toNat = bytes.length % 256 ^ 2 := by omega
  have hpos : ¬ (bytes.length : ℤ) < 0 := by omega
  simp only [spinelPackStruct, h, bind_eq_bind, bind_some, hpos, if_false,
    spinelPackLength, hcast, leBytes_mod]
  cases wlen <;> simp [add_comm]

theorem spinelPackItem_struct (ht : SpinelStop tail) (tx : Bool)
    (vpack : Bool → List Char → List VaArg → Option SpinelPacked) (args : List VaArg) :
    spinelPackItem tx ((if wlen then 't' else 'T') :: '(' :: (body.render ++ ')' ::
        (f.render ++ tail))) vpack args =
      spinelPackStruct tx (wlen || !f.isNil) (body.render ++ ')' :: (f.render ++ tail))
        vpack args := by
  have hfol := spinelFollowed_eq _ f tail ht (spinelNextPackedDatatype_struct 'T' body _)
  cases wlen
  · simp [spinelPackItem, hfol]
  · simp [spinelPackItem]

/-- **The packer emits the encoding** of a format, or only measures it, and stops where the
format stops. -/
theorem spinelPackLoop_format (ht : SpinelStop tail)
    (n : ℕ) (hn : (f.render ++ tail).length < n) (tx : Bool) (ret : ℤ) (more : List VaArg) :
    spinelPackLoop n tx ret (f.render ++ tail) (f.args ++ more) =
      some ⟨ret + f.encode.length, spinelEmit tx f.encode, more⟩ := by
  induction f generalizing tail n tx ret more with
  | nil =>
    rcases n with _ | n
    · omega
    rcases ht with rfl | ⟨r, rfl⟩ <;>
      simp [render, args, encode, spinelPackLoop]
  | item i f ih =>
    rcases n with _ | n
    · omega
    have hlen : (f.render ++ tail).length < n := by simpa [render] using hn
    simp only [render, args, cons_append, append_assoc,
      spinelPackLoop, i.char_ne.2, if_false, spinelPackItem_item i f tail ht,
      spinelNextPackedDatatype_render _ f tail ht, ih tail ht n hlen]
    simp [encode, add_assoc]
  | void f ih =>
    rcases n with _ | n
    · omega
    have hlen : (f.render ++ tail).length < n := by simpa [render] using hn
    have hitem : ∀ vpack args, spinelPackItem tx ('.' :: (f.render ++ tail)) vpack args =
        some (.next 0 [] args) := fun _ _ => rfl
    simp only [render, args, cons_append, spinelPackLoop,
      hitem, spinelNextPackedDatatype_render _ f tail ht, ih tail ht n hlen]
    simp [encode]
  | struct wlen body f ihb ih =>
    rcases n with _ | n
    · omega
    simp only [render, cons_append, append_assoc, length_cons, length_append] at hn
    have hbody := fun tx => ihb (')' :: (f.render ++ tail)) (.inr ⟨_, rfl⟩) n
      (by simp only [length_append, length_cons]; omega) tx 0 (f.args ++ more)
    have hne : (if wlen then 't' else 'T') ≠ ')' := by cases wlen <;> decide
    simp only [zero_add] at hbody
    simp only [render, args, cons_append, append_assoc,
      spinelPackLoop, hne, if_false, spinelPackItem_struct wlen body f tail ht,
      spinelPackStruct_eq _ _ _ _ _ _ _ hbody, spinelNextPackedDatatype_struct,
      ih tail ht n (by simp only [length_append]; omega)]
    simp [encode, add_assoc]

theorem spinelDatatypeVpack_format (tx : Bool) :
    spinelDatatypeVpack tx f.render f.args =
      some ⟨f.encode.length, spinelEmit tx f.encode, []⟩ := by
  have h := spinelPackLoop_format f [] (.inl rfl) (f.render.length + 1) (by simp) tx 0 []
  simp only [append_nil, zero_add] at h
  exact h

/-! ### Unpacker -/

@[simp] theorem readBytes_append (junk : List UInt8) :
    readBytes (bytes ++ junk) bytes.length = some bytes := by
  simp [readBytes]

theorem length_packedBlock :
    (packedBlock wlen bytes).length = (if wlen then 2 else 0) + bytes.length := by
  cases wlen <;> simp [add_comm]

theorem drop_packedBlock :
    (packedBlock wlen bytes ++ rest).drop (if wlen then 2 else 0) = bytes ++ rest := by
  rw [packedBlock, append_assoc]
  exact drop_left' (by cases wlen <;> simp)

theorem spinelBlockLength_eq
    (hlen : bytes.length ≤ 65535) (hle : (packedBlock wlen bytes).length ≤ dataLen)
    (hall : wlen = false → dataLen = bytes.length) :
    spinelBlockLength wlen (packedBlock wlen bytes ++ rest) dataLen =
      some (.ok (if wlen then 2 else 0, bytes.length)) := by
  rw [length_packedBlock] at hle
  cases wlen with
  | false => simp [spinelBlockLength, hall rfl]
  | true =>
    have hread := readBytes_append (leBytes 2 bytes.length) (bytes ++ rest)
    rw [length_leBytes] at hread
    have h2 : ¬ dataLen < 2 := by simp at hle; omega
    have hfit : ¬ dataLen < bytes.length + 2 := by simp at hle; omega
    simp [spinelBlockLength, spinelUnpackLength, h2, hread, hfit,
      leValue_leBytes_of_lt (show bytes.length < 256 ^ 2 by omega)]

theorem spinelUnpackData_eq (cap : ℕ) (dests : List SpinelDest) (h : bytes.length ≤ 65535)
    (hle : (packedBlock wlen bytes).length ≤ dataLen)
    (hall : wlen = false → dataLen = bytes.length)
    (hcap : copyBuff = true → bytes.length ≤ cap) :
    spinelUnpackData copyBuff wlen (packedBlock wlen bytes ++ rest)
        dataLen (.data true (some cap) :: dests) =
      some (.next (packedBlock wlen bytes).length
        (packedBlock wlen bytes).length
        [if copyBuff then .dataCopied (some bytes) (some bytes.length)
          else .dataPtr (some (bytes ++ rest)) (some bytes.length)] dests) := by
  simp only [spinelUnpackData, spinelBlockLength_eq _ _ _ _ h hle hall, drop_packedBlock,
    bind_eq_bind, bind_some, readBytes_append, length_packedBlock]
  cases copyBuff with
  | false => simp [add_comm]
  | true => simp [not_lt.mpr (hcap rfl), add_comm]

/-- One item: a destination that fits gets the value, and the item's bytes are consumed. -/
theorem spinelUnpackItem_item (ht : SpinelStop tail)
    (vunpack : List UInt8 → ℕ → List Char → List SpinelDest → Option SpinelUnpacked)
    (rest : List UInt8) (dataLen : ℕ) (hle : (i.encode (!f.isNil)).length ≤ dataLen)
    (hall : f.isNil = true → dataLen = (i.encode (!f.isNil)).length)
    (d : SpinelDest) (hd : i.Fits copyBuff d) (dests : List SpinelDest) :
    ∃ store, i.HeldBy store ∧ spinelUnpackItem copyBuff (i.char :: (f.render ++ tail)) vunpack
          (i.encode (!f.isNil) ++ rest) dataLen (d :: dests) =
        some (.next (i.encode (!f.isNil)).length (i.encode (!f.isNil)).length [store] dests) := by
  cases hd with
  | bool v old =>
    have hlen : ¬ dataLen < 1 := not_lt.mpr hle
    refine ⟨.bool v, rfl, ?_⟩
    cases v <;>
      simp [spinelUnpackItem, char, SpinelItem.encode, spinelUnpackBool, hlen, readBytes, leValue]
  | int ty v h old =>
    have hlt : (v % 256 ^ ty.size).toNat < 256 ^ ty.size := by
      have hpos : (0 : ℤ) < 256 ^ ty.size := by positivity
      have := Int.emod_lt_of_pos v hpos
      have := Int.emod_nonneg v hpos.ne'
      zify
      omega
    have hread := readBytes_append (leBytes ty.size (v % 256 ^ ty.size).toNat) rest
    rw [length_leBytes] at hread
    have hlen : ¬ dataLen < ty.size := by simpa [SpinelItem.encode] using hle
    refine ⟨.uint (v % 256 ^ ty.size).toNat, ty.read_mod v h, ?_⟩
    have hstep : spinelUnpackUint ty.size (leBytes ty.size (v % 256 ^ ty.size).toNat ++ rest)
        dataLen (.scalar (some old) :: dests) =
        some (.next ty.size ty.size [.uint (v % 256 ^ ty.size).toNat] dests) := by
      simp [spinelUnpackUint, hlen, isSome_some, hread, bind_eq_bind, bind_some, leValue_leBytes_of_lt hlt]
    rw [SpinelItem.encode, length_leBytes, ← hstep]
    cases ty <;> rfl
  | uintPacked v h old =>
    rw [SpinelItem.encode] at hle
    refine ⟨.uint v, rfl, ?_⟩
    simp [spinelUnpackItem, char, SpinelItem.encode, spinelUnpackPacked,
      spinelPackedUintDecode_encode v h rest dataLen hle, not_lt.mpr h, hle]
  | block ty bytes h =>
    have hlen : ¬ dataLen < ty.size := by rw [← h]; exact not_lt.mpr hle
    have hread := readBytes_append bytes rest
    rw [h] at hread
    refine ⟨if copyBuff then .copied bytes else .ptr (bytes ++ rest), ?_, ?_⟩
    · cases copyBuff <;> simp [HeldBy, ← h]
    have hstep : spinelUnpackBlock ty.size copyBuff (bytes ++ rest) dataLen
        (.block true :: dests) = some (.next ty.size ty.size
          [if copyBuff then .copied bytes else .ptr (bytes ++ rest)] dests) := by
      cases copyBuff <;> simp [spinelUnpackBlock, hlen, hread]
    rw [SpinelItem.encode, h, ← hstep]
    cases ty <;> rfl
  | utf8 text h size hsize =>
    simp only [SpinelItem.encode, length_append, length_singleton] at hle
    have htext : ((utf8Bytes text ++ 0 :: rest).take dataLen).takeWhile (· != 0) =
        utf8Bytes text := by
      obtain ⟨k, rfl⟩ : ∃ k, dataLen = (utf8Bytes text).length + (k + 1) :=
        ⟨dataLen - (utf8Bytes text).length - 1, by omega⟩
      rw [take_length_add_append, take_succ_cons, takeWhile_utf8Bytes text h]
    have hread := readBytes_append (utf8Bytes text ++ [0]) rest
    simp only [append_assoc, singleton_append, length_append, length_singleton] at hread
    refine ⟨if copyBuff then .copied (utf8Bytes text ++ [0])
      else .ptr (utf8Bytes text ++ 0 :: rest), ?_, ?_⟩
    · cases copyBuff <;> simp [HeldBy, takeWhile_utf8Bytes text h]
    simp only [spinelUnpackItem, char, SpinelItem.encode, headD_cons,
      spinelUnpackUtf8, append_assoc, singleton_append, htext, not_lt.mpr hle,
      if_false, spinelValidateUtf8_utf8Bytes text h, hread]
    cases copyBuff with
    | false => simp
    | true => simpa using Nat.lt_of_succ_le (hsize rfl)
  | data wlen bytes h cap hcap =>
    have hfol := spinelFollowed_eq _ f tail ht
      (spinelNextPackedDatatype_render (char (.data wlen bytes h)) f tail ht)
    have hitem : ∀ data, spinelUnpackItem copyBuff
        (char (.data wlen bytes h) :: (f.render ++ tail)) vunpack data dataLen
          (.data true (some cap) :: dests) =
        spinelUnpackData copyBuff (wlen || !f.isNil) data dataLen
          (.data true (some cap) :: dests) := by
      intro data
      cases wlen
      · simp only [char, Bool.false_eq_true, if_false] at hfol
        simp [spinelUnpackItem, char, hfol]
      · simp [spinelUnpackItem, char]
    have hexact : (wlen || !f.isNil) = false → dataLen = bytes.length := by
      intro hw
      obtain ⟨rfl, hnil⟩ : wlen = false ∧ f.isNil = true := by simpa using hw
      simpa [SpinelItem.encode, hnil] using hall hnil
    rw [hitem]
    refine ⟨_, ?_, spinelUnpackData_eq copyBuff _ bytes rest dataLen cap dests h.2 hle hexact hcap⟩
    cases copyBuff <;> simp [HeldBy]

theorem spinelUnpackStruct_eq (body : List Char)
    (vunpack : List UInt8 → ℕ → List Char → List SpinelDest → Option SpinelUnpacked)
    (bytes rest : List UInt8) (dataLen : ℕ) (dests more : List SpinelDest)
    (stores : List SpinelStore) (hlen : bytes.length ≤ 65535)
    (hle : (packedBlock wlen bytes).length ≤ dataLen)
    (hall : wlen = false → dataLen = bytes.length)
    (h : vunpack (bytes ++ rest) bytes.length body dests = some ⟨bytes.length, stores, more⟩) :
    spinelUnpackStruct wlen body vunpack
        (packedBlock wlen bytes ++ rest) dataLen dests =
      some (.next (packedBlock wlen bytes).length
        (packedBlock wlen bytes).length stores more) := by
  have hpos : ¬ (bytes.length : ℤ) < 0 := by omega
  have hmod : bytes.length % 65536 = bytes.length := by omega
  simp only [spinelUnpackStruct, spinelBlockLength_eq _ _ _ _ hlen hle hall, drop_packedBlock,
    bind_eq_bind, bind_some, h, hpos, if_false, length_packedBlock]
  cases wlen <;> simp [hmod, add_comm]

theorem spinelUnpackItem_struct (ht : SpinelStop tail)
    (vunpack : List UInt8 → ℕ → List Char → List SpinelDest → Option SpinelUnpacked)
    (data : List UInt8) (dataLen : ℕ) (dests : List SpinelDest) :
    spinelUnpackItem copyBuff ((if wlen then 't' else 'T') :: '(' :: (body.render ++ ')' ::
        (f.render ++ tail))) vunpack data dataLen dests =
      spinelUnpackStruct (wlen || !f.isNil) (body.render ++ ')' :: (f.render ++ tail))
        vunpack data dataLen dests := by
  have hfol := spinelFollowed_eq _ f tail ht (spinelNextPackedDatatype_struct 'T' body _)
  cases wlen
  · simp [spinelUnpackItem, hfol]
  · simp [spinelUnpackItem]

/-- **The unpacker reads the encoding** of a format into destinations that fit. -/
theorem spinelUnpackLoop_format
    (ht : SpinelStop tail) (n : ℕ) (hn : (f.render ++ tail).length < n) (ret : ℤ)
    (junk : List UInt8) (hsmall : f.encode.length ≤ 65535) (dests more : List SpinelDest)
    (hds : List.Forall₂ (Fits copyBuff) f.items dests) :
    ∃ stores, List.Forall₂ HeldBy f.items stores ∧
      spinelUnpackLoop copyBuff n ret (f.encode ++ junk) f.encode.length (f.render ++ tail)
        (dests ++ more) = some ⟨ret + f.encode.length, stores, more⟩ := by
  induction f generalizing tail n ret junk dests more with
  | nil =>
    rcases n with _ | n
    · omega
    obtain rfl : dests = [] := by simpa [items] using hds
    refine ⟨[], .nil, ?_⟩
    rcases ht with rfl | ⟨r, rfl⟩ <;>
      simp [render, encode, spinelUnpackLoop]
  | item i f ih =>
    rcases n with _ | n
    · omega
    have hlen : (f.render ++ tail).length < n := by simpa [render] using hn
    obtain ⟨d, ds, hd, hds', rfl⟩ : ∃ d ds, i.Fits copyBuff d ∧
        List.Forall₂ (Fits copyBuff) f.items ds ∧ dests = d :: ds := by
      cases hds with
      | cons hd hds => exact ⟨_, _, hd, hds, rfl⟩
    simp only [encode, length_append] at hsmall
    have hexact : f.isNil = true → (i.encode (!f.isNil)).length + f.encode.length =
        (i.encode (!f.isNil)).length := by
      intro hnil
      cases f <;> simp_all [isNil, encode]
    obtain ⟨store, hstore, hstep⟩ := spinelUnpackItem_item copyBuff i f tail ht
      (fun dataIn dataLen fmt dests => spinelUnpackLoop copyBuff n 0 dataIn dataLen fmt dests)
      (f.encode ++ junk) _ (Nat.le_add_right _ f.encode.length) hexact d hd (ds ++ more)
    obtain ⟨stores, hstores, hrest⟩ := ih tail ht n hlen
      (ret + (i.encode (!f.isNil)).length) junk (by omega) ds more hds'
    refine ⟨store :: stores, .cons hstore hstores, ?_⟩
    simp only [render, encode, cons_append, append_assoc,
      spinelUnpackLoop, i.char_ne.2, if_false, length_append, hstep,
      spinelNextPackedDatatype_render _ f tail ht, drop_left, Nat.add_sub_cancel_left,
      hrest]
    simp [add_assoc]
  | void f ih =>
    rcases n with _ | n
    · omega
    have hlen : (f.render ++ tail).length < n := by simpa [render] using hn
    obtain ⟨stores, hstores, hrest⟩ := ih tail ht n hlen ret junk hsmall dests more hds
    refine ⟨stores, hstores, ?_⟩
    have hitem : ∀ vunpack data len dests, spinelUnpackItem copyBuff
        ('.' :: (f.render ++ tail)) vunpack data len dests = some (.next 0 0 [] dests) :=
      fun _ _ _ _ => rfl
    simp only [render, cons_append, spinelUnpackLoop, hitem,
      spinelNextPackedDatatype_render _ f tail ht]
    simp [encode, hrest]
  | struct wlen body f ihb ih =>
    rcases n with _ | n
    · omega
    simp only [render, cons_append, append_assoc, length_cons, length_append] at hn
    simp only [encode, append_assoc, length_append] at hsmall
    have hne : (if wlen then 't' else 'T') ≠ ')' := by cases wlen <;> decide
    have hdsb := forall₂_take body.items.length hds
    have hdsf := forall₂_drop body.items.length hds
    simp only [items, take_left, drop_left] at hdsb hdsf
    obtain ⟨storesb, hstoresb, hbody⟩ := ihb (')' :: (f.render ++ tail)) (.inr ⟨_, rfl⟩) n
      (by simp only [length_append, length_cons]; omega) 0 (f.encode ++ junk)
      (by omega) _ (dests.drop body.items.length ++ more) hdsb
    rw [← append_assoc (dests.take _), take_append_drop, zero_add] at hbody
    have hexact : (wlen || !f.isNil) = false →
        (packedBlock (wlen || !f.isNil) body.encode).length + f.encode.length =
          body.encode.length := by
      intro hw
      cases f <;> simp_all [isNil, encode]
    have hstep := spinelUnpackStruct_eq (wlen || !f.isNil)
      (body.render ++ ')' :: (f.render ++ tail))
      (fun dataIn dataLen fmt dests => spinelUnpackLoop copyBuff n 0 dataIn dataLen fmt dests)
      body.encode (f.encode ++ junk) _ _ _ storesb (by omega)
      (Nat.le_add_right _ f.encode.length) hexact hbody
    obtain ⟨storesf, hstoresf, hrest⟩ := ih tail ht n
      (by simp only [length_append]; omega)
      (ret + (packedBlock (wlen || !f.isNil) body.encode).length) junk (by omega) _ more hdsf
    refine ⟨storesb ++ storesf, rel_append hstoresb hstoresf, ?_⟩
    simp only [render, encode, cons_append, append_assoc,
      spinelUnpackLoop, hne, if_false, spinelUnpackItem_struct copyBuff wlen body f tail ht]
    simp only [packedBlock, ← append_assoc] at hstep hrest ⊢
    -- From here on the length prefix and the body are one block of bytes.
    generalize (if wlen || !f.isNil then leBytes 2 body.encode.length else []) ++
      body.encode = block at hstep hrest ⊢
    rw [length_append, hstep]
    simp only [spinelNextPackedDatatype_struct, append_assoc, drop_left,
      Nat.add_sub_cancel_left, hrest]
    simp [add_assoc]

/-! ### Round trip -/

/-- **Packing and unpacking are inverse** for every format with values in range. Packing without
callback returns the number of bytes that packing with it emits. Unpacking these, up to 65535,
returns their number and leaves every value in its destination, in either copy mode. -/
theorem spinelDatatype_roundTrip (f : SpinelFormat) :
    ∃ bytes : List UInt8,
      spinelDatatypeVpack true f.render f.args = some ⟨bytes.length, bytes, []⟩ ∧
      spinelDatatypeVpack false f.render f.args = some ⟨bytes.length, [], []⟩ ∧
      (bytes.length ≤ 65535 → ∀ (copyBuff : Bool) (dests : List SpinelDest) (junk : List UInt8),
          List.Forall₂ (Fits copyBuff) f.items dests →
          ∃ stores, List.Forall₂ HeldBy f.items stores ∧
            spinelDatatypeVunpack (bytes ++ junk) bytes.length copyBuff f.render dests =
              some ⟨bytes.length, stores, []⟩) := by
  refine ⟨f.encode, spinelDatatypeVpack_format f true, spinelDatatypeVpack_format f false, ?_⟩
  intro hsmall copyBuff dests junk hds
  obtain ⟨stores, hstores, hunpack⟩ := spinelUnpackLoop_format copyBuff f [] (.inl rfl)
    (f.render.length + 1) (by simp) 0 junk hsmall dests [] hds
  simp only [append_nil, zero_add] at hunpack
  exact ⟨stores, hstores, hunpack⟩

/-- A nested struct that is followed by more, and blocks in the middle and at the end. -/
def spinelRoundTripExample : SpinelFormat :=
  .item (.uintPacked 300 (by decide)) <|
  .struct false (.item (.int .int16 (-2) (by decide)) <|
    .item (.data false [7, 8] (by decide)) .nil) <|
  .item (.utf8 ['h', 'é'] (by decide)) <|
  .item (.data false [1, 2, 3] (by decide)) .nil

theorem spinelDatatype_roundTrip_nested :
    spinelRoundTripExample.render = "iT(sD)UD".toList ∧
    ∃ stores, List.Forall₂ HeldBy spinelRoundTripExample.items stores ∧ spinelDatatypeVunpack
          [0xac, 0x02, 4, 0, 0xfe, 0xff, 7, 8, 0x68, 0xc3, 0xa9, 0, 1, 2, 3] 15 false
          "iT(sD)UD".toList
          [.scalar (some 0), .scalar (some 0), .data true (some 0), .string true 0,
            .data true (some 0)] = some ⟨15, stores, []⟩ := by
  refine ⟨by decide, ?_⟩
  obtain ⟨bytes, hpack, -, hunpack⟩ := spinelDatatype_roundTrip spinelRoundTripExample
  have hemitted : spinelDatatypeVpack true spinelRoundTripExample.render
      spinelRoundTripExample.args = some ⟨15, [0xac, 0x02, 4, 0, 0xfe, 0xff, 7, 8, 0x68, 0xc3,
        0xa9, 0, 1, 2, 3], []⟩ := by decide
  obtain rfl : _ = bytes := congrArg SpinelPacked.out (Option.some.inj (hemitted.symm.trans hpack))
  have hfits : List.Forall₂ (Fits false) spinelRoundTripExample.items
      [.scalar (some 0), .scalar (some 0), .data true (some 0), .string true 0,
        .data true (some 0)] :=
    .cons (.uintPacked _ _ _) <| .cons (.int _ _ _ _) <| .cons (.data _ _ _ _ nofun) <|
      .cons (.utf8 _ _ _ nofun) <| .cons (.data _ _ _ _ nofun) .nil
  exact hunpack (by decide) false _ [] hfits

end TlZephyr
