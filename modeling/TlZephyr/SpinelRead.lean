import TlZephyr.SpinelCheck
import TlZephyr.SpinelRoundTrip

/-!
# Reading the Fields of an Answer

The checks of the driver run the format-driven unpacker. Here plain readers take the fields of an
answer off the front of a byte string, and the unpacker is shown to do the same for the three
formats that matter: the header with the rest of the frame, the result of a transmission, and a
radio frame with its metadata. What is left of the unpacker is the number it returns when a field
is missing, which is negative and never `-EPERM`.
-/

open LittleEndian

namespace TlZephyr

open List Option

/-! ### Readers -/

/-- An unsigned integer of `n` bytes. -/
def readUint (n : ℕ) (data : List UInt8) : Option (ℕ × List UInt8) :=
  if n ≤ data.length then some (leValue (data.take n), data.drop n) else none

def readPacked (data : List UInt8) : Option (ℕ × List UInt8) :=
  match spinelPackedUintDecode data data.length with
  | some (.ok (n, v)) => if v ≤ spinelMaxUintPacked then some (v, data.drop n) else none
  | _ => none

def readBlock (data : List UInt8) : Option (List UInt8 × List UInt8) := do
  let (len, rest) ← readUint 2 data
  if len ≤ rest.length then some (rest.take len, rest.drop len) else none

/-- The decoder of packed integers stays inside the bytes it is given, and does not look at
those behind. -/
theorem spinelPackedUintDecodeLoop_append (data junk : List UInt8) (i value ret : ℕ) :
    spinelPackedUintDecodeLoop (data ++ junk) data.length i value ret =
        spinelPackedUintDecodeLoop data data.length i value ret ∧
      (spinelPackedUintDecodeLoop data data.length i value ret = some (.error (-EINVAL)) ∨
        ∃ n v, n ≤ data.length ∧
          spinelPackedUintDecodeLoop data data.length i value ret = some (.ok (ret + n, v))) := by
  induction data generalizing i value ret with
  | nil => simp [spinelPackedUintDecodeLoop.eq_def]
  | cons b data ih =>
    by_cases hi : 32 ≤ i
    · simp [spinelPackedUintDecodeLoop.eq_def, hi]
    have hguard : ¬ ((b :: data).length < 1 ∨ 32 ≤ i) := by simp; omega
    rw [cons_append, spinelPackedUintDecodeLoop.eq_def,
      spinelPackedUintDecodeLoop.eq_def (b :: data)]
    simp only [hguard, if_false]
    by_cases hmore : b &&& 0x80 = 0x80
    · obtain ⟨hsame, hres⟩ := ih (i + 7) ((value ||| (b &&& 0x7f).toNat <<< i) % 2 ^ 32)
        (ret + 1)
      simp only [hmore, if_true, length_cons, Nat.add_sub_cancel]
      refine ⟨hsame, hres.imp_right ?_⟩
      rintro ⟨n, v, hn, hv⟩
      exact ⟨n + 1, v, by omega, by rw [hv, show ret + 1 + n = ret + (n + 1) by omega]⟩
    · simp only [hmore, if_false, true_and]
      exact .inr ⟨1, _, by simp, rfl⟩

/-! ### Unpacker, field by field -/

theorem eoverflow_neg : -EOVERFLOW < 0 := by decide

theorem eio_neg : ¬ 0 ≤ - EIO := by decide

/-- Rest of the loop after some fields were stored. -/
def SpinelUnpacked.after (stores : List SpinelStore) (r : SpinelUnpacked) : SpinelUnpacked :=
  { r with stores := stores ++ r.stores }

/-- What the unpacker comes to where the fields are read by `read`: if one is missing, a negative
number other than `-EPERM`. -/
def Unpacks {α : Type} (out : Option SpinelUnpacked) (read : Option α)
    (good : α → SpinelUnpacked → Prop) : Prop :=
  ∃ u, out = some u ∧ match read with
    | none => u.ret < 0 ∧ u.ret ≠ -EPERM
    | some a => good a u

namespace Unpacks

variable {copyBuff : Bool} {n : ℕ} {ret : ℤ} {data junk : List UInt8} {fmt : List Char} {c : Char}
  {old : ℕ} {dests dests' : List SpinelDest} {stores : List SpinelStore}
  {α : Type} {good : α → SpinelUnpacked → Prop}

theorem next {read : Option α} (hc : c ≠ ')') {k : ℕ} (hk : k ≤ data.length)
    (hitem : spinelUnpackItem copyBuff (c :: fmt)
      (fun d l f ds => spinelUnpackLoop copyBuff n 0 d l f ds) (data ++ junk) data.length dests =
        some (.next k k stores dests'))
    (h : Unpacks (spinelUnpackLoop copyBuff n (ret + k) (data.drop k ++ junk) (data.drop k).length
      (spinelNextPackedDatatype (c :: fmt)) dests') read fun a u => good a (u.after stores)) :
    Unpacks (spinelUnpackLoop copyBuff (n + 1) ret (data ++ junk) data.length (c :: fmt) dests)
      read good := by
  obtain ⟨u, hu, hread⟩ := h
  rw [length_drop, ← drop_append_of_le_length hk] at hu
  refine ⟨u.after stores, ?_, by cases read <;> exact hread⟩
  rw [spinelUnpackLoop, if_neg hc, hitem]
  dsimp only
  rw [hu]
  rfl

theorem fail (e : ℤ) (stores : List SpinelStore) (dests' : List SpinelDest) (hc : c ≠ ')')
    (he : e < 0 ∧ e ≠ -EPERM)
    (hitem : spinelUnpackItem copyBuff (c :: fmt)
      (fun d l f ds => spinelUnpackLoop copyBuff n 0 d l f ds) (data ++ junk) data.length dests =
        some (.fail e stores dests')) :
    Unpacks (spinelUnpackLoop copyBuff (n + 1) ret (data ++ junk) data.length (c :: fmt) dests)
      none good :=
  ⟨⟨e, stores, dests'⟩, by rw [spinelUnpackLoop, if_neg hc, hitem], he⟩

/-- A field of fixed size. -/
theorem scalar (hc : c ≠ ')') (size : ℕ) (store : ℕ → SpinelStore)
    (hitem : ∀ vunpack data len, spinelUnpackItem copyBuff (c :: fmt) vunpack data len
      (.scalar (some old) :: dests) = if len < size then some (.fail (-EOVERFLOW) [] dests)
        else (readBytes data size).bind fun bytes =>
          some (.next size size [store (leValue bytes)] dests))
    {k : ℕ × List UInt8 → Option α}
    (h : ∀ v rest, rest = data.drop size → Unpacks (spinelUnpackLoop copyBuff n (ret + size)
      (rest ++ junk) rest.length (spinelNextPackedDatatype (c :: fmt)) dests) (k (v, rest))
        fun a u => good a (u.after [store v])) :
    Unpacks (spinelUnpackLoop copyBuff (n + 1) ret (data ++ junk) data.length (c :: fmt)
      (.scalar (some old) :: dests)) (readUint size data >>= k) good := by
  by_cases hlen : size ≤ data.length
  · have hread : readBytes (data ++ junk) size = some (data.take size) := by
      rw [readBytes, if_pos (by simp; omega), take_append_of_le_length hlen]
    rw [readUint, if_pos hlen]
    refine .next hc hlen ?_ (h _ _ rfl)
    rw [hitem, if_neg (not_lt.mpr hlen), hread]
    rfl
  · rw [readUint, if_neg hlen]
    exact .fail (-EOVERFLOW) [] dests hc (by decide) (by rw [hitem, if_pos (not_le.mp hlen)])

theorem uint (ty : SpinelInt) {k : ℕ × List UInt8 → Option α}
    (h : ∀ v rest, rest = data.drop ty.size → Unpacks (spinelUnpackLoop copyBuff n (ret + ty.size)
      (rest ++ junk) rest.length (spinelNextPackedDatatype (ty.char :: fmt)) dests) (k (v, rest))
        fun a u => good a (u.after [.uint v])) :
    Unpacks (spinelUnpackLoop copyBuff (n + 1) ret (data ++ junk) data.length (ty.char :: fmt)
      (.scalar (some old) :: dests)) (readUint ty.size data >>= k) good :=
  .scalar (by cases ty <;> decide) ty.size .uint (by intros; cases ty <;> rfl) h

theorem bool {k : ℕ × List UInt8 → Option α}
    (h : ∀ v rest, rest = data.drop 1 → Unpacks (spinelUnpackLoop copyBuff n (ret + (1 : ℕ))
      (rest ++ junk) rest.length (spinelNextPackedDatatype ('b' :: fmt)) dests) (k (v, rest))
        fun a u => good a (u.after [.bool (v != 0)])) :
    Unpacks (spinelUnpackLoop copyBuff (n + 1) ret (data ++ junk) data.length ('b' :: fmt)
      (.scalar (some old) :: dests)) (readUint 1 data >>= k) good :=
  .scalar (by decide) 1 (fun v => .bool (v != 0)) (fun _ _ _ => rfl) h

theorem packed {k : ℕ × List UInt8 → Option α}
    (h : ∀ v rest, rest <:+ data → Unpacks (spinelUnpackLoop copyBuff n
      (ret + (data.length - rest.length : ℕ)) (rest ++ junk) rest.length
        (spinelNextPackedDatatype ('i' :: fmt)) dests) (k (v, rest))
          fun a u => good a (u.after [.uint v])) :
    Unpacks (spinelUnpackLoop copyBuff (n + 1) ret (data ++ junk) data.length ('i' :: fmt)
      (.scalar (some 0) :: dests)) (readPacked data >>= k) good := by
  have hitem : ∀ vunpack data len, spinelUnpackItem copyBuff ('i' :: fmt) vunpack data len
      (.scalar (some 0) :: dests) = spinelUnpackPacked data len (.scalar (some 0) :: dests) :=
    fun _ _ _ => rfl
  obtain ⟨hsame, hdec | ⟨m, v, hm, hdec⟩⟩ := spinelPackedUintDecodeLoop_append data junk 0 0 0
  · have hread : readPacked data = none := by simp [readPacked, spinelPackedUintDecode, hdec]
    rw [hread]
    refine .fail (-EINVAL) [.skipped] dests (by decide) (by decide) ?_
    simp [hitem, spinelUnpackPacked, spinelPackedUintDecode, hsame, hdec]
  rw [Nat.zero_add] at hdec
  by_cases hv : v ≤ spinelMaxUintPacked
  · have hread : readPacked data = some (v, data.drop m) := by
      simp [readPacked, spinelPackedUintDecode, hdec, hv]
    have hlen : data.length - (data.drop m).length = m := by rw [length_drop]; omega
    have hrest := h v (data.drop m) (drop_suffix _ _)
    rw [hlen] at hrest
    rw [hread]
    refine .next (by decide) hm ?_ hrest
    simp [hitem, spinelUnpackPacked, spinelPackedUintDecode, hsame, hdec, not_lt.mpr hv, hm]
  have hread : readPacked data = none := by
    simp [readPacked, spinelPackedUintDecode, hdec, hv]
  rw [hread]
  refine .fail (-ERANGE) [.uint v] dests (by decide) (by decide) ?_
  simp [hitem, spinelUnpackPacked, spinelPackedUintDecode, hsame, hdec, not_le.mp hv]

theorem elim {out : Option SpinelUnpacked} {read : Option α} (h : Unpacks out read good) :
    (∃ u, read = none ∧ out = some u ∧ u.ret < 0 ∧ u.ret ≠ -EPERM) ∨
      ∃ a u, read = some a ∧ out = some u ∧ good a u := by
  obtain ⟨u, hu, hread⟩ := h
  cases read with
  | none => exact .inl ⟨u, rfl, hu, hread⟩
  | some a => exact .inr ⟨a, u, rfl, hu, hread⟩

theorem ofLoop {read : Option α} (h : Unpacks (spinelUnpackLoop copyBuff (fmt.length + 1) 0
    (data ++ []) data.length fmt dests) read good) :
    Unpacks (spinelDatatypeVunpack data data.length copyBuff fmt dests) read good := by
  rwa [append_nil] at h

end Unpacks

/-! ### Header -/

structure SpinelAnswer where
  header : UInt8
  cmd : ℕ
  prop : ℕ
  param : List UInt8
  deriving DecidableEq, Repr

namespace SpinelAnswer

/-- Fields of a received frame, if they are there. -/
def read (data : List UInt8) : Option SpinelAnswer := do
  let (header, rest) ← readUint 1 data
  let (cmd, rest) ← readPacked rest
  let (prop, rest) ← readPacked rest
  some ⟨UInt8.ofNat header, cmd, prop, rest⟩

def iid (a : SpinelAnswer) : UInt8 := spinelHeaderGetIid a.header
def tid (a : SpinelAnswer) : UInt8 := spinelHeaderGetTid a.header

/-- For another instance, or without transaction id and about something else. -/
def Foreign (drv : SpinelDrv) (spinelId : UInt8) (cmd prop : ℕ) (a : SpinelAnswer) : Prop :=
  a.iid ≠ drv.inst ∨ (a.tid = 0 ∨ spinelId = 0) ∧ (a.cmd ≠ cmd ∨ a.prop ≠ prop)

/-- Answers the driver takes: a transaction id is compared only if both sides have one. -/
def Accepted (drv : SpinelDrv) (spinelId : UInt8) (cmd prop : ℕ) (a : SpinelAnswer) : Prop :=
  a.iid = drv.inst ∧ (a.tid = 0 ∨ spinelId = 0 ∨ a.tid = spinelId) ∧ a.cmd = cmd ∧ a.prop = prop

end SpinelAnswer

open SpinelInt (uint8 uint64 int8 uint16)

theorem spinelUnpack_command (data : List UInt8) :
    Unpacks (spinelDatatypeVunpack data data.length false (spinelDatatypeCommandPropS ++ ['D'])
        [.scalar (some 0), .scalar (some 0), .scalar (some 0), .data true (some 0)])
      (SpinelAnswer.read data) fun a u => 0 ≤ u.ret ∧ ∃ header, UInt8.ofNat header = a.header ∧
        u.stores = [.uint header, .uint a.cmd, .uint a.prop,
          .dataPtr (some a.param) (some a.param.length)] := by
  -- the four fields one after the other
  refine .ofLoop (.uint uint8 fun header rest _ => .packed fun cmd rest₁ _ =>
    .packed fun prop rest₂ _ => ⟨_, rfl, ?_, header, rfl, ?_⟩)
  · change (0 : ℤ) ≤ 0 + (1 : ℕ) + _ + _ + _
    positivity
  · simp [SpinelUnpacked.after]

variable (drv : SpinelDrv) (spinelId : UInt8) (cmd prop : ℕ) (param : List UInt8)

theorem spinelUnpack_status (copyBuff : Bool) :
    Unpacks (spinelDatatypeVunpack param param.length copyBuff ['i'] [.scalar (some 0)])
      (readPacked param >>= some) fun p u => 0 ≤ u.ret ∧ u.stores = [.uint p.1] :=
  .ofLoop (.packed fun _ _ _ => ⟨_, rfl, (Int.natCast_nonneg _).trans_eq (zero_add _).symm, rfl⟩)

theorem spinelDrvJudge_cases (a : SpinelAnswer) :
    ∃ ret, spinelDrvJudge drv spinelId cmd prop a.header a.cmd a.prop a.param = some ret ∧
      (a.Foreign drv spinelId cmd prop → ret = -EPERM) ∧
      (a.Accepted drv spinelId cmd prop → ret = 0) ∧
      (¬ a.Foreign drv spinelId cmd prop → ¬ a.Accepted drv spinelId cmd prop →
        ret < 0 ∧ ret ≠ -EPERM) := by
  unfold spinelDrvJudge SpinelAnswer.Foreign SpinelAnswer.Accepted SpinelAnswer.iid SpinelAnswer.tid
  by_cases hiid : drv.inst = spinelHeaderGetIid a.header
  · by_cases htid : spinelHeaderGetTid a.header = 0 ∨ spinelId = 0
    · by_cases hcp : a.cmd = cmd ∧ a.prop = prop
      · exact ⟨0, by grind, by grind, by grind, by grind⟩
      · exact ⟨-EPERM, by grind, by grind, by grind, by grind⟩
    by_cases hsame : spinelHeaderGetTid a.header = spinelId
    · by_cases hcp : a.cmd = cmd ∧ a.prop = prop
      · exact ⟨0, by grind, by grind, by grind, by grind⟩
      -- A status in place of the answer is unpacked for the log only.
      obtain ⟨e, hneg, hne, he⟩ : ∃ e : ℤ, e < 0 ∧ e ≠ -EPERM ∧
          (do let r ← spinelDatatypeVunpack a.param a.param.length true ['i'] [.scalar (some 0)]
              if r.ret < 0 then some r.ret else some (-EINVAL)) = some e := by
        rcases (spinelUnpack_status a.param true).elim with
          ⟨u, -, hu, hneg, hne⟩ | ⟨p, u, -, hu, hpos, -⟩
        · exact ⟨u.ret, hneg, hne, by simp [hu, hneg]⟩
        · exact ⟨-EINVAL, by decide, by decide, by simp [hu, not_lt.mpr hpos]⟩
      by_cases hstatus : a.cmd = spinelCmdPropValueIs ∧ a.prop = spinelPropLastStatus
      · exact ⟨e, by grind, by grind, by grind, fun _ _ => ⟨hneg, hne⟩⟩
      · exact ⟨-EINVAL, by grind, by grind, by grind, fun _ _ => by decide⟩
    · exact ⟨-EINVAL, by grind, by grind, by grind, fun _ _ => by decide⟩
  · exact ⟨-EPERM, by grind, by grind, by grind, by grind⟩

/-- **`spinel_drv_get_cmd`**: an accepted answer gives its parameters, a foreign one `-EPERM`, the
rest another error. -/
theorem spinelDrvGetCmd_eq (data : List UInt8) :
    (∃ a, SpinelAnswer.read data = some a ∧ a.Foreign drv spinelId cmd prop ∧
      spinelDrvGetCmd drv spinelId cmd prop data = some ⟨-EPERM, none⟩) ∨
    (∃ a, SpinelAnswer.read data = some a ∧ a.Accepted drv spinelId cmd prop ∧
      spinelDrvGetCmd drv spinelId cmd prop data = some ⟨0, some a.param⟩) ∨
    ((∀ a, SpinelAnswer.read data = some a → ¬ a.Foreign drv spinelId cmd prop ∧
        ¬ a.Accepted drv spinelId cmd prop) ∧
      ∃ e : ℤ, e < 0 ∧ e ≠ -EPERM ∧
        spinelDrvGetCmd drv spinelId cmd prop data = some ⟨e, none⟩) := by
  rcases (spinelUnpack_command data).elim with
    ⟨u, hread, hu, hneg, hne⟩ | ⟨a, u, hread, hu, hpos, header, hheader, hstores⟩
  · exact .inr (.inr ⟨by simp [hread], u.ret, hneg, hne, by simp [spinelDrvGetCmd, hu, hneg]⟩)
  obtain ⟨v, hjudge, hforeign, haccepted, hother⟩ :=
    spinelDrvJudge_cases drv spinelId cmd prop a
  have hget : spinelDrvGetCmd drv spinelId cmd prop data =
      if v < 0 then some ⟨v, none⟩ else some ⟨v, some a.param⟩ := by
    simp [spinelDrvGetCmd, hu, hstores, not_lt.mpr hpos, take_length, hheader, hjudge]
  rw [hget, hread]
  by_cases hf : a.Foreign drv spinelId cmd prop
  · exact .inl ⟨a, rfl, hf, by rw [hforeign hf]; rfl⟩
  by_cases hacc : a.Accepted drv spinelId cmd prop
  · exact .inr (.inl ⟨a, rfl, hacc, by rw [haccepted hacc]; rfl⟩)
  obtain ⟨hneg, hne⟩ := hother hf hacc
  refine .inr (.inr ⟨?_, v, hneg, hne, if_pos hneg⟩)
  rintro b hb
  obtain rfl : a = b := Option.some.inj hb
  exact ⟨hf, hacc⟩

/-! ### Result of a transmission -/

/-- Status of a transmission and what follows it and its two flags. -/
def readTxResult (param : List UInt8) : Option (ℕ × List UInt8) := do
  let (status, rest) ← readPacked param
  let (_, rest) ← readUint 1 rest
  let (_, rest) ← readUint 1 rest
  some (status, rest)

theorem spinelUnpack_txResult :
    Unpacks (spinelDatatypeVunpack param param.length true ['i', 'b', 'b']
        [.scalar (some 0), .scalar (some 0), .scalar (some 0)])
      (readTxResult param) fun p u => ∃ (ret : ℕ) (pending updated : Bool),
        param.drop ret = p.2 ∧ u = ⟨ret, [.uint p.1, .bool pending, .bool updated], []⟩ := by
  refine .ofLoop (.packed fun status rest hrest => .bool fun pending rest₁ h₁ =>
    .bool fun updated rest₂ h₂ => ⟨_, rfl, param.length - rest.length + 1 + 1, pending != 0,
      updated != 0, ?_, ?_⟩)
  · rw [h₂, h₁, ← drop_drop, ← drop_drop, ← suffix_iff_eq_drop.mp hrest]
  · simp [SpinelUnpacked.after]

/-! ### A radio frame -/

theorem spinelBlockLength_read (data junk : List UInt8) :
    (readBlock data = none →
      spinelBlockLength true (data ++ junk) data.length = some (.error (-EOVERFLOW))) ∧
    ∀ block rest, readBlock data = some (block, rest) →
      spinelBlockLength true (data ++ junk) data.length = some (.ok (2, block.length)) ∧
      (data ++ junk).drop 2 = block ++ (rest ++ junk) ∧
      block.length + 2 ≤ data.length ∧ rest = data.drop (block.length + 2) := by
  by_cases h2 : 2 ≤ data.length
  · have hread : readBytes (data ++ junk) 2 = some (data.take 2) := by
      rw [readBytes, if_pos (by simp; omega), take_append_of_le_length h2]
    have hlen : spinelBlockLength true (data ++ junk) data.length =
        if data.length < leValue (data.take 2) + 2 then some (.error (-EOVERFLOW))
        else some (.ok (2, leValue (data.take 2))) := by
      simp [spinelBlockLength, spinelUnpackLength, not_lt.mpr h2, hread]
    have hblock : readBlock data = if leValue (data.take 2) ≤ (data.drop 2).length then
          some ((data.drop 2).take (leValue (data.take 2)),
            (data.drop 2).drop (leValue (data.take 2)))
        else none := by
      simp [readBlock, readUint, h2]
    rw [hlen, hblock, length_drop]
    generalize leValue (data.take 2) = n
    by_cases hfit : data.length < n + 2
    · rw [if_pos hfit, if_neg (by omega)]
      exact ⟨fun _ => rfl, by simp⟩
    rw [if_neg hfit, if_pos (by omega)]
    refine ⟨by simp, ?_⟩
    intro block rest h
    obtain ⟨rfl, rfl⟩ := Prod.mk.inj (Option.some.inj h)
    have htake : ((data.drop 2).take n).length = n := by
      rw [length_take, length_drop]
      omega
    refine ⟨by rw [htake], ?_, by omega, ?_⟩
    · rw [drop_append_of_le_length h2, ← append_assoc, take_append_drop]
    · rw [htake, drop_drop, Nat.add_comm]
  · refine ⟨fun _ => ?_, ?_⟩
    · simp [spinelBlockLength, spinelUnpackLength, not_le.mp h2]
    · intro block rest h
      simp [readBlock, readUint, h2] at h

/-- A struct behind its length: the inner fields are read by `inner`. -/
theorem Unpacks.struct {α β : Type} {copyBuff : Bool} {n : ℕ} {ret : ℤ} {data junk : List UInt8}
    {fmt : List Char} {dests dests' : List SpinelDest} {good : α → SpinelUnpacked → Prop}
    {inner : List UInt8 → Option β} {stores : β → List SpinelStore}
    {k : List UInt8 × List UInt8 → Option α} {k' : β → List UInt8 → Option α}
    (hinner : ∀ block rest, Unpacks (spinelUnpackLoop copyBuff n 0 (block ++ (rest ++ junk))
      block.length fmt.tail dests) (inner block)
        fun b u => 0 ≤ u.ret ∧ u.stores = stores b ∧ u.dests = dests')
    (hk : ∀ block rest, k (block, rest) = (inner block).bind fun b => k' b rest)
    (h : ∀ (block : List UInt8) b rest, Unpacks (spinelUnpackLoop copyBuff n
      (ret + (block.length + 2 : ℕ)) (rest ++ junk) rest.length
        (spinelNextPackedDatatype ('t' :: fmt)) dests') (k' b rest)
          fun a u => good a (u.after (stores b))) :
    Unpacks (spinelUnpackLoop copyBuff (n + 1) ret (data ++ junk) data.length ('t' :: fmt) dests)
      (readBlock data >>= k) good := by
  have hitem : ∀ vunpack data len, spinelUnpackItem copyBuff ('t' :: fmt) vunpack data len dests =
      spinelUnpackStruct true fmt.tail vunpack data len dests := by
    intro vunpack data len
    rw [← drop_one]
    rfl
  obtain ⟨hnone, hsome⟩ := spinelBlockLength_read data junk
  rcases hblock : readBlock data with _ | ⟨block, rest⟩
  · refine .fail (-EOVERFLOW) [] dests (by decide) (by decide) ?_
    simp [hitem, spinelUnpackStruct, hnone hblock]
  obtain ⟨hlen, hdrop, hle, rfl⟩ := hsome block rest hblock
  rw [bind_eq_bind, bind_some, hk]
  rcases (hinner block (data.drop (block.length + 2))).elim with
    ⟨u, hread, hu, hneg⟩ | ⟨b, u, hread, hu, hpos, hstores, rfl⟩
  · rw [hread]
    refine .fail u.ret u.stores u.dests (by decide) hneg ?_
    simp [hitem, spinelUnpackStruct, hlen, hdrop, hu, hneg.1]
  · rw [hread]
    refine .next (by decide) hle ?_ (h block b _)
    simp [hitem, spinelUnpackStruct, hlen, hdrop, hu, not_lt.mpr hpos, hstores]

structure RadioMeta where
  rssi : ℕ
  noiseFloor : ℕ
  flags : ℕ
  channel : ℕ
  lqi : ℕ
  timestamp : ℕ
  err : ℕ
  deriving DecidableEq, Repr

/-- Fields of the first struct: channel, link quality and timestamp. -/
def readPhy (phy : List UInt8) : Option (ℕ × ℕ × ℕ) := do
  let (channel, phy) ← readUint 1 phy
  let (lqi, phy) ← readUint 1 phy
  let (timestamp, _) ← readUint 8 phy
  some (channel, lqi, timestamp)

/-- The metadata: three integers and two structs, each behind its length. -/
def RadioMeta.read (data : List UInt8) : Option RadioMeta := do
  let (rssi, data) ← readUint 1 data
  let (noiseFloor, data) ← readUint 1 data
  let (flags, data) ← readUint 2 data
  let (phy, data) ← readBlock data
  let (channel, lqi, timestamp) ← readPhy phy
  let (mac, _) ← readBlock data
  let (err, _) ← readPacked mac
  some ⟨rssi, noiseFloor, flags, channel, lqi, timestamp, err⟩

def RadioMeta.stores (m : RadioMeta) : List SpinelStore :=
  [.uint m.rssi, .uint m.noiseFloor, .uint m.flags, .uint m.channel, .uint m.lqi,
    .uint m.timestamp, .uint m.err]

def spinelRadioMetaS : List Char := spinelRadioFrameS.tail

theorem spinelUnpackLoop_phy (copyBuff : Bool) (n : ℕ) (phy junk : List UInt8)
    (fmt : List Char) (dests : List SpinelDest) :
    Unpacks (spinelUnpackLoop copyBuff (n + 4) 0 (phy ++ junk) phy.length
        ('C' :: 'C' :: 'X' :: ')' :: fmt)
        (.scalar (some 0) :: .scalar (some 0) :: .scalar (some 0) :: dests))
      (readPhy phy) fun p u => 0 ≤ u.ret ∧
        u.stores = [.uint p.1, .uint p.2.1, .uint p.2.2] ∧ u.dests = dests :=
  .uint uint8 fun _ _ _ => .uint uint8 fun _ _ _ => .uint uint64 fun _ _ _ =>
    ⟨_, rfl, by change (0 : ℤ) ≤ 0 + 1 + 1 + 8; decide, rfl, rfl⟩

theorem spinelUnpackLoop_mac (copyBuff : Bool) (n : ℕ) (mac junk : List UInt8)
    (fmt : List Char) :
    Unpacks (spinelUnpackLoop copyBuff (n + 2) 0 (mac ++ junk) mac.length ('i' :: ')' :: fmt)
        [.scalar (some 0)])
      (readPacked mac) fun p u => 0 ≤ u.ret ∧ u.stores = [.uint p.1] ∧ u.dests = [] := by
  rw [← bind_fun_some (readPacked mac)]
  exact .packed fun _ _ _ => ⟨_, rfl, (Int.natCast_nonneg _).trans_eq (zero_add _).symm, rfl, rfl⟩

theorem spinelUnpackLoop_radioMeta (copyBuff : Bool) (ret : ℕ) (data junk : List UInt8) :
    Unpacks (spinelUnpackLoop copyBuff 14 ret (data ++ junk) data.length spinelRadioMetaS
        (List.replicate 7 (.scalar (some 0))))
      (RadioMeta.read data) fun m u => 0 ≤ u.ret ∧ u.stores = m.stores := by
  refine .uint int8 fun rssi _ _ => .uint int8 fun noise _ _ => .uint uint16 fun flags _ _ =>
    .struct (fun phy rest => spinelUnpackLoop_phy copyBuff 6 phy _ _ _) (fun _ _ => rfl)
      fun phy p _ => .struct (fun mac rest => spinelUnpackLoop_mac copyBuff 7 mac _ _)
        (fun _ _ => rfl) fun mac err _ => ⟨_, rfl, ?_, rfl⟩
  change (0 : ℤ) ≤ ret + 1 + 1 + 2 + (phy.length + 2 : ℕ) + (mac.length + 2 : ℕ)
  positivity

/-- What the unpacker stores for the frame itself: the copied bytes, or their address. -/
def radioFrameStore (copyBuff : Bool) (block rest : List UInt8) : SpinelStore :=
  if copyBuff then .dataCopied (some block) (some block.length)
  else .dataPtr (some (block ++ rest)) (some block.length)

/-- The loop at a block with a length, into a buffer of `cap` bytes or as a pointer. -/
theorem spinelUnpackLoop_data (copyBuff : Bool) (n : ℕ) (ret : ℤ) (data junk : List UInt8)
    (fmt : List Char) (cap : ℕ) (dests : List SpinelDest) :
    spinelUnpackLoop copyBuff (n + 1) ret (data ++ junk) data.length ('d' :: fmt)
        (.data true (some cap) :: dests) =
      match readBlock data with
      | none => some ⟨-EOVERFLOW, [], dests⟩
      | some (block, rest) =>
        if copyBuff ∧ cap < block.length then some ⟨-EOVERFLOW, [], dests⟩
        else (spinelUnpackLoop copyBuff n (ret + (block.length + 2 : ℕ)) (rest ++ junk)
          rest.length (spinelNextPackedDatatype ('d' :: fmt)) dests).map
            (.after [radioFrameStore copyBuff block (rest ++ junk)]) := by
  obtain ⟨hnone, hsome⟩ := spinelBlockLength_read data junk
  rw [spinelUnpackLoop, if_neg (by decide)]
  simp only [show ∀ vunpack data len dests, spinelUnpackItem copyBuff ('d' :: fmt) vunpack data len
    dests = spinelUnpackData copyBuff true data len dests from fun _ _ _ _ => rfl]
  rcases hblock : readBlock data with _ | ⟨block, rest⟩
  · simp [spinelUnpackData, hnone hblock]
  obtain ⟨hlen, hdrop, hle, hrest⟩ := hsome block rest hblock
  dsimp only
  by_cases hcap : copyBuff = true ∧ cap < block.length
  · simp [spinelUnpackData, hlen, hcap]
  have hitem : spinelUnpackData copyBuff true (data ++ junk) data.length
      (.data true (some cap) :: dests) = some (.next (block.length + 2 : ℕ) (block.length + 2)
        [radioFrameStore copyBuff block (rest ++ junk)] dests) := by
    cases copyBuff with
    | false => simp [spinelUnpackData, hlen, hdrop, radioFrameStore]
    | true =>
      have hroom : ¬ cap < block.length := by simpa using hcap
      simp [spinelUnpackData, hlen, hdrop, radioFrameStore, hroom]
  rw [if_neg hcap, hitem, hrest, length_drop]
  dsimp only
  rw [drop_append_of_le_length hle]
  cases spinelUnpackLoop copyBuff n _ _ _ _ _ <;> rfl

/-- The unpacker at a radio frame: nothing is stored when it is missing or too long to be copied. -/
theorem spinelUnpack_radioFrame (copyBuff : Bool) (data : List UInt8) (cap : ℕ) :
    ∃ r, spinelDatatypeVunpack data data.length copyBuff spinelRadioFrameS
        (.data true (some cap) :: List.replicate 7 (.scalar (some 0))) = some r ∧
      match readBlock data with
      | none => r.ret < 0 ∧ r.stores = []
      | some (block, rest) =>
        if copyBuff ∧ cap < block.length then r.ret < 0 ∧ r.stores = []
        else ∃ stores, r.stores = radioFrameStore copyBuff block rest :: stores ∧
          match RadioMeta.read rest with
          | none => r.ret < 0
          | some m => 0 ≤ r.ret ∧ stores = m.stores := by
  have hdata := spinelUnpackLoop_data copyBuff 14 0 data [] spinelRadioMetaS cap
    (List.replicate 7 (.scalar (some 0)))
  rw [show spinelNextPackedDatatype ('d' :: spinelRadioMetaS) = spinelRadioMetaS from rfl] at hdata
  simp only [append_nil] at hdata
  rw [show spinelDatatypeVunpack data data.length copyBuff spinelRadioFrameS
    (.data true (some cap) :: List.replicate 7 (.scalar (some 0))) = _ from hdata]
  rcases readBlock data with _ | ⟨block, rest⟩
  · exact ⟨_, rfl, eoverflow_neg, rfl⟩
  dsimp only
  by_cases hcap : copyBuff = true ∧ cap < block.length
  · simp only [if_pos hcap]
    exact ⟨_, rfl, eoverflow_neg, rfl⟩
  simp only [if_neg hcap]
  obtain ⟨r, hr, hmeta⟩ := spinelUnpackLoop_radioMeta copyBuff (block.length + 2) rest []
  rw [append_nil] at hr
  rw [zero_add, hr]
  refine ⟨_, rfl, r.stores, rfl, ?_⟩
  rcases hread : RadioMeta.read rest with _ | m <;> rw [hread] at hmeta
  · exact hmeta.1
  · exact hmeta

theorem foldl_put_meta (stores : List SpinelStore) (k : ℕ) (g : SpinelRadioFrame) :
    ((stores.zipIdx (k + 1)).foldl .put g).frame.data = g.frame.data ∧
      ((stores.zipIdx (k + 1)).foldl .put g).frame.dataLength = g.frame.dataLength ∧
      ((stores.zipIdx (k + 1)).foldl .put g).written = g.written ∧
      ((stores.zipIdx (k + 1)).foldl .put g).ret = g.ret := by
  induction stores generalizing k g with
  | nil => simp
  | cons store stores ih =>
    have hput : (g.put (store, k + 1)).frame.data = g.frame.data ∧
        (g.put (store, k + 1)).frame.dataLength = g.frame.dataLength ∧
        (g.put (store, k + 1)).written = g.written ∧ (g.put (store, k + 1)).ret = g.ret := by
      unfold SpinelRadioFrame.put
      split <;> simp_all
    obtain ⟨h1, h2, h3, h4⟩ := ih (k + 1) (g.put (store, k + 1))
    rw [zipIdx_cons, foldl_cons]
    exact ⟨h1.trans hput.1, h2.trans hput.2.1, h3.trans hput.2.2.1, h4.trans hput.2.2.2⟩

/-- **What is copied over a transmitted frame.** Nothing, when the answer has no block or one longer
than the maximum; else the block, whatever the length of the frame. The call succeeds if the
metadata is complete and reports no error. -/
theorem spinelDrvGetRadioFrame_copy (data : List UInt8) (frame : SpinelFrameData)
    (mem : List UInt8) (hmem : frame.data = some mem) (frameMax : UInt16) :
    ∃ g, spinelDrvGetRadioFrame data true frame frameMax = some g ∧ match readBlock data with
      | none => g.ret < 0 ∧ g.written = 0
      | some (block, rest) =>
        if frameMax.toNat < block.length then g.ret < 0 ∧ g.written = 0
        else g.written = block.length ∧ g.frame.dataLength = block.length ∧
          g.frame.data = some (block ++ mem.drop block.length) ∧
          (0 ≤ g.ret ↔ ∃ m, RadioMeta.read rest = some m ∧ m.err = 0) := by
  obtain ⟨r, hr, hfields⟩ := spinelUnpack_radioFrame true data frameMax.toNat
  have hunfold : spinelDrvGetRadioFrame data true frame frameMax =
      let g := r.stores.zipIdx.foldl .put ⟨r.ret, { frame with dataLength := frameMax.toNat }, 0⟩
      if r.ret < 0 then some g else spinelRadioFrameFlags r.stores g := by
    simp only [spinelDrvGetRadioFrame, Bool.not_true, Bool.false_or, hmem, isSome_some, hr,
      bind_eq_bind, bind_some]
  rw [hunfold]
  rcases hblock : readBlock data with _ | ⟨block, rest⟩ <;> rw [hblock] at hfields
  · obtain ⟨hneg, hstores⟩ := hfields
    simp only [if_pos hneg, hstores]
    exact ⟨_, rfl, hneg, rfl⟩
  dsimp only at hfields ⊢
  by_cases hcap : frameMax.toNat < block.length
  · simp only [hcap, and_self, if_true] at hfields ⊢
    obtain ⟨hneg, hstores⟩ := hfields
    simp only [if_pos hneg, hstores]
    exact ⟨_, rfl, hneg, rfl⟩
  simp only [hcap, and_false, if_false] at hfields ⊢
  obtain ⟨stores, hstores, hmeta⟩ := hfields
  obtain ⟨hdata, hlength, hwritten, hret⟩ := foldl_put_meta stores 0
    (SpinelRadioFrame.put ⟨r.ret, { frame with dataLength := frameMax.toNat }, 0⟩
      (radioFrameStore true block rest, 0))
  simp only [radioFrameStore, if_true, SpinelRadioFrame.put, hmem, map_some,
    getD_some] at hdata hlength hwritten hret
  rw [hstores, zipIdx_cons, foldl_cons]
  simp only [radioFrameStore, if_true, SpinelRadioFrame.put, hmem, map_some, getD_some]
  rcases hread : RadioMeta.read rest with _ | m <;> rw [hread] at hmeta
  · rw [if_pos hmeta]
    exact ⟨_, rfl, hwritten, hlength, hdata, by rw [hret]; simp; exact hmeta⟩
  obtain ⟨hnonneg, rfl⟩ := hmeta
  rw [if_neg (by omega)]
  simp only [RadioMeta.stores] at hdata hlength hwritten hret ⊢
  simp only [spinelRadioFrameFlags]
  by_cases herr : m.err = 0
  · rw [if_neg (not_not.mpr herr)]
    exact ⟨_, rfl, hwritten, hlength, hdata, fun _ => ⟨m, rfl, herr⟩, fun _ => hret.symm ▸ hnonneg⟩
  · rw [if_pos herr]
    refine ⟨_, rfl, hwritten, hlength, hdata, fun h => absurd h eio_neg, ?_⟩
    rintro ⟨m', hm', herr'⟩
    exact absurd (Option.some.inj hm' ▸ herr') herr

theorem spinelDrvGetRadioFrame_ptr (data : List UInt8) (frame : SpinelFrameData)
    (frameMax : UInt16) : ∃ g, spinelDrvGetRadioFrame data false frame frameMax = some g := by
  obtain ⟨r, hr, hfields⟩ := spinelUnpack_radioFrame false data frameMax.toNat
  simp only [spinelDrvGetRadioFrame, Bool.not_false, Bool.true_or, hr, bind_eq_bind, bind_some]
  by_cases hneg : r.ret < 0
  · exact ⟨_, if_pos hneg⟩
  rcases hblock : readBlock data with _ | ⟨block, rest⟩ <;> rw [hblock] at hfields
  · exact absurd hfields.1 hneg
  simp only [Bool.false_eq_true, false_and, if_false] at hfields
  obtain ⟨stores, hstores, hmeta⟩ := hfields
  rcases hread : RadioMeta.read rest with _ | m <;> rw [hread] at hmeta
  · exact absurd hmeta hneg
  obtain ⟨-, rfl⟩ := hmeta
  simp only [hneg, if_false, hstores, RadioMeta.stores, spinelRadioFrameFlags]
  by_cases herr : m.err = 0
  · exact ⟨_, if_neg (not_not.mpr herr)⟩
  · exact ⟨_, if_pos herr⟩

end TlZephyr
