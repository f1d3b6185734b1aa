import Mathlib

/-!
# Options with Delta-Coded Numbers

The option format of RFC 7252, section 3.1. An option is a number and a value. It is written as a
byte with two fields of four bits, the difference to the number of the option before it and the
length of the value, then the rest of either field if it does not fit, then the value. A field up to
12 stands for itself; 13 says that one byte follows, which holds the field less 13; 14 says that two
bytes follow, which hold the field less 269; 15 is reserved.
-/

namespace DeltaOptions

open List

abbrev Opt := ℕ × List UInt8

/-! ### Writing -/

def nibble (n : ℕ) : ℕ := if n < 13 then n else if n < 269 then 13 else 14

def extension (n : ℕ) : List UInt8 :=
  if n < 13 then []
  else if n < 269 then [UInt8.ofNat (n - 13)]
  else [UInt8.ofNat ((n - 269) / 256), UInt8.ofNat (n - 269)]

def header (delta len : ℕ) : UInt8 := UInt8.ofNat (nibble delta * 16 + nibble len)

/-- An option, by the difference to the number before it. -/
def encodeOption (delta : ℕ) (value : List UInt8) : List UInt8 :=
  header delta value.length :: (extension delta ++ (extension value.length ++ value))

/-- Options after one with the number `prev`. -/
def encode : ℕ → List Opt → List UInt8
  | _, [] => []
  | prev, (num, value) :: opts => encodeOption (num - prev) value ++ encode num opts

/-! ### Reading -/

def field (nib : ℕ) (bs : List UInt8) : Option (ℕ × List UInt8) :=
  if nib < 13 then some (nib, bs)
  else if nib = 13 then
    match bs with
    | b :: rest => some (b.toNat + 13, rest)
    | [] => none
  else if nib = 14 then
    match bs with
    | b :: c :: rest => some (b.toNat * 256 + c.toNat + 269, rest)
    | _ => none
  else none

/-- The difference, the value and the bytes after an option. -/
def decodeOption : List UInt8 → Option (ℕ × List UInt8 × List UInt8)
  | [] => none
  | b :: bs => do
    let (delta, bs) ← field (b.toNat / 16) bs
    let (len, bs) ← field (b.toNat % 16) bs
    if len ≤ bs.length then some (delta, bs.take len, bs.drop len) else none

/-- Options after one with the number `prev`. A round reads at least a byte. -/
def decodeFrom : ℕ → ℕ → List UInt8 → Option (List Opt)
  | _, _, [] => some []
  | 0, _, _ :: _ => none
  | fuel + 1, prev, b :: bs => do
    let (delta, value, rest) ← decodeOption (b :: bs)
    let opts ← decodeFrom fuel (prev + delta) rest
    return (prev + delta, value) :: opts

def decode (bs : List UInt8) : Option (List Opt) := decodeFrom bs.length 0 bs

/-! ### Round trips -/

theorem nibble_lt (n : ℕ) : nibble n < 15 := by
  rw [nibble]
  split_ifs <;> omega

theorem toNat_header (delta len : ℕ) :
    (header delta len).toNat = nibble delta * 16 + nibble len := by
  have hd := nibble_lt delta
  have hl := nibble_lt len
  rw [header, UInt8.toNat_ofNat']
  exact Nat.mod_eq_of_lt (by omega)

/-- **A field read back where it was written.** -/
theorem field_extension {n : ℕ} (hn : n < 2 ^ 16) (rest : List UInt8) :
    field (nibble n) (extension n ++ rest) = some (n, rest) := by
  rw [nibble, extension]
  split_ifs with h13 h269
  · simp [field, h13]
  · have hb : (UInt8.ofNat (n - 13)).toNat = n - 13 := by
      rw [UInt8.toNat_ofNat']
      omega
    simp only [field, cons_append, nil_append, hb]
    simp
    omega
  have hhi : (UInt8.ofNat ((n - 269) / 256)).toNat = (n - 269) / 256 := by
    rw [UInt8.toNat_ofNat']
    omega
  have hlo : (UInt8.ofNat (n - 269)).toNat = (n - 269) % 256 := UInt8.toNat_ofNat'
  simp only [field, cons_append, nil_append, hhi, hlo]
  simp
  omega

/-- **An option read back, whatever follows it.** -/
theorem decodeOption_encodeOption {delta : ℕ} {value : List UInt8} (hdelta : delta < 2 ^ 16)
    (hlen : value.length < 2 ^ 16) (rest : List UInt8) :
    decodeOption (encodeOption delta value ++ rest) = some (delta, value, rest) := by
  have hl := nibble_lt value.length
  have hdiv : (header delta value.length).toNat / 16 = nibble delta := by
    rw [toNat_header]
    omega
  have hmod : (header delta value.length).toNat % 16 = nibble value.length := by
    rw [toNat_header]
    omega
  rw [encodeOption, cons_append, decodeOption, hdiv, hmod, append_assoc, field_extension hdelta]
  simp only [append_assoc, Option.bind_eq_bind, Option.bind_some, field_extension hlen]
  simp

theorem encodeOption_ne_nil (delta : ℕ) (value : List UInt8) : encodeOption delta value ≠ [] :=
  cons_ne_nil _ _

/-- The options fit the format: the numbers do not decrease and every field fits. -/
def Encodable (prev : ℕ) (opts : List Opt) : Prop :=
  (opts.map Prod.fst).Pairwise (· ≤ ·) ∧ ∀ o ∈ opts, prev ≤ o.1 ∧ o.1 < 2 ^ 16 ∧ o.2.length < 2 ^ 16

variable {prev : ℕ} {opts : List Opt}

theorem Encodable.tail {o : Opt} (h : Encodable prev (o :: opts)) : Encodable o.1 opts := by
  obtain ⟨hsorted, hall⟩ := h
  rw [map_cons, pairwise_cons] at hsorted
  refine ⟨hsorted.2, fun q hq => ⟨hsorted.1 _ (mem_map_of_mem hq), ?_⟩⟩
  exact (hall q (mem_cons_of_mem _ hq)).2

theorem decodeFrom_encode {fuel : ℕ} (h : Encodable prev opts)
    (hfuel : opts.length ≤ fuel) : decodeFrom fuel prev (encode prev opts) = some opts := by
  induction opts generalizing prev fuel with
  | nil => rw [encode, decodeFrom]
  | cons o opts ih =>
    obtain ⟨num, value⟩ := o
    obtain ⟨hprev, hnum, hlen⟩ := h.2 _ mem_cons_self
    rcases fuel with _ | fuel
    · simp at hfuel
    have hdelta : num - prev < 2 ^ 16 := by omega
    have hone := decodeOption_encodeOption hdelta hlen (encode num opts)
    have hadd : prev + (num - prev) = num := Nat.add_sub_cancel' hprev
    rw [encode, encodeOption, cons_append, decodeFrom]
    rw [encodeOption, cons_append] at hone
    rw [hone]
    simp only [Option.bind_eq_bind, Option.bind_some, hadd]
    rw [ih h.tail (by simpa using hfuel)]
    rfl

theorem length_le_length_encode (prev : ℕ) (opts : List Opt) :
    opts.length ≤ (encode prev opts).length := by
  induction opts generalizing prev with
  | nil => exact Nat.zero_le _
  | cons o opts ih =>
    have hpos := length_pos_iff.mpr (encodeOption_ne_nil (o.1 - prev) o.2)
    have htail := ih o.1
    rw [encode, length_append, length_cons]
    omega

/-- **A list of options in order of their numbers, read back.** -/
theorem decode_encode (h : Encodable 0 opts) : decode (encode 0 opts) = some opts :=
  decodeFrom_encode h (length_le_length_encode 0 opts)

/-! ### Parts of a list -/

/-- The number the next option is written against. -/
def lastNum (prev : ℕ) (opts : List Opt) : ℕ := (opts.map Prod.fst).getLastD prev

@[simp] theorem lastNum_nil (prev : ℕ) : lastNum prev [] = prev := rfl

@[simp] theorem lastNum_cons (prev : ℕ) (o : Opt) (opts : List Opt) :
    lastNum prev (o :: opts) = lastNum o.1 opts := by
  rw [lastNum, lastNum, map_cons, getLastD_cons]

/-- **A list is written as its parts are.** -/
theorem encode_append (prev : ℕ) (opts opts' : List Opt) :
    encode prev (opts ++ opts') = encode prev opts ++ encode (lastNum prev opts) opts' := by
  induction opts generalizing prev with
  | nil => rfl
  | cons o opts ih => rw [cons_append, encode, encode, ih, lastNum_cons, append_assoc]

end DeltaOptions
