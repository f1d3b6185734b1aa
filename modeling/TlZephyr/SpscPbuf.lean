import TlZephyr.Lib.Memory

/-!
# Single-Producer Single-Consumer Packet Buffer

Model of `spsc_pbuf.c`: one producer in `spsc_pbuf_alloc` and `spsc_pbuf_commit`, one
consumer in `spsc_pbuf_claim` and `spsc_pbuf_free`. Every load of the other side's index or of a
byte that may be a padding mark, and every store of an index or of the mark, is a step of its own.
`spsc_pbuf_write` and `spsc_pbuf_read` are such steps with the copy in between: a write that gets
too little space leaves the allocation alone, a read into a short buffer (or none) leaves the packet
claimed, and both may be called again.

The log `committed` holds the packets with the index each was put at, `read` the contents of those
freed, and `refused`, for every claim that returned 0, whether a packet was there when it loaded the
write index.
-/

namespace TlZephyr

open Memory List

inductive SpscProducer
  /-- nothing allocated -/
  | idle
  /-- in `spsc_pbuf_alloc` with the read index it loaded, the padding mark to be stored, -/
  | padding (rdIdx len : ℕ)
  /-- then the write index -/
  | marked (rdIdx len : ℕ)
  /-- `spsc_pbuf_alloc` returned `n` -/
  | allocated (n : ℕ)
  /-- in `spsc_pbuf_commit`, the length is stored, the write index to be stored -/
  | header (len : ℕ)
deriving DecidableEq, Repr

/-- Where the consumer is. Inside `spsc_pbuf_claim` it knows the write index it loaded and whether
there was a packet. -/
inductive SpscConsumer
  /-- no packet claimed -/
  | idle
  /-- the byte at the read index to be loaded -/
  | claiming (wrIdx : ℕ) (pending : Bool)
  /-- that byte was the mark, the write index to be loaded again, -/
  | claimMark (wrIdx : ℕ) (pending : Bool)
  /-- the read index to be reset -/
  | claimWrap (wrIdx : ℕ) (pending : Bool)
  /-- the length to be loaded -/
  | claimLen
  /-- `spsc_pbuf_claim` returned `len` -/
  | holding (len : ℕ)
  /-- in `spsc_pbuf_free`, the byte after the packet to be loaded -/
  | freeing (len : ℕ)
  /-- that byte was the mark, the write index to be loaded -/
  | freeMark (len : ℕ)
  /-- the read index to be stored -/
  | storing (len rdIdx : ℕ)
deriving DecidableEq, Repr

/-- `struct spsc_pbuf` without its constant length, the two sides, and the logs. -/
structure SpscPbuf where
  data : Mem
  rdIdx : ℕ
  wrIdx : ℕ
  producer : SpscProducer
  consumer : SpscConsumer
  committed : List (ℕ × List UInt8)
  read : List (List UInt8)
  refused : List Bool

namespace SpscPbuf

/-- `SPSC_PBUF_MAX_LEN`. -/
def maxLen : ℕ := 0xFF00

/-- `LEN_SZ`. -/
def lenSz : ℕ := 4

/-- `FREE_SPACE_DISTANCE`. -/
def freeSpaceDistance : ℕ := 4

/-- `PADDING_MARK`. -/
def paddingMark : UInt8 := 0xFF

/-- `ROUND_UP(x, sizeof(uint32_t))`. -/
def roundUp (x : ℕ) : ℕ := (x + 3) / 4 * 4

/-- `spsc_pbuf_init`: the memory is as it was. -/
def init (data : Mem) : SpscPbuf := ⟨data, 0, 0, .idle, .idle, [], [], []⟩

def unread (s : SpscPbuf) : List (ℕ × List UInt8) := s.committed.drop s.read.length

/-! ### Producer -/

/-- End of `spsc_pbuf_alloc`: `MIN(len, MAX(free_space - LEN_SZ, 0))`. -/
def allocLen (len : ℕ) (freeSpace : ℤ) : ℕ := min len (freeSpace - lenSz).toNat

/-- Space asked for at the end of the area: of the longest packet, one byte is enough. -/
def space (len : ℕ) : ℕ := if len = maxLen then lenSz + 1 else len + lenSz

/-- Word left empty at the end of the area when the read index is at its beginning. -/
def unused (rdIdx : ℕ) : ℕ := if 0 < rdIdx then 0 else freeSpaceDistance

/-- `spsc_pbuf_alloc` up to the padding mark. A forbidden length leaves everything alone. -/
def alloc (pblen : ℕ) (s : SpscPbuf) (len : ℕ) : SpscPbuf :=
  if len = 0 ∨ maxLen < len then s
  else if s.rdIdx ≤ s.wrIdx then
    let remaining : ℤ := pblen - s.wrIdx
    if (space len : ℤ) ≤ remaining ∨ s.rdIdx ≤ space len then
      { s with producer := .allocated (allocLen len (remaining - unused s.rdIdx)) }
    else { s with producer := .padding s.rdIdx len }
  else
    { s with producer := .allocated (allocLen len (s.rdIdx - s.wrIdx - freeSpaceDistance)) }

/-- The producer stores byte `i` of its packet. -/
def fill (s : SpscPbuf) (i : ℕ) (b : UInt8) : SpscPbuf :=
  { s with data := storeBytes s.data (s.wrIdx + lenSz + i) [b] }

/-- `spsc_pbuf_commit`: the length, most significant byte first. -/
def putLen (s : SpscPbuf) (len : ℕ) : SpscPbuf :=
  { s with
    data := storeBytes s.data s.wrIdx [UInt8.ofNat (len / 256), UInt8.ofNat len]
    producer := .header len }

/-- `spsc_pbuf_alloc`: the padding mark. -/
def putMark (s : SpscPbuf) (rdIdx len : ℕ) : SpscPbuf :=
  { s with data := storeBytes s.data s.wrIdx [paddingMark], producer := .marked rdIdx len }

/-- `spsc_pbuf_alloc`: the write index after the padding mark. -/
def wrap (s : SpscPbuf) (rdIdx len : ℕ) : SpscPbuf :=
  { s with
    wrIdx := 0
    producer := .allocated (allocLen len (rdIdx - freeSpaceDistance)) }

/-- Index after a packet at `idx`. -/
def packetEnd (idx len : ℕ) : ℕ := roundUp (idx + len + lenSz)

/-- `spsc_pbuf_commit`: the write index. -/
def publish (pblen : ℕ) (s : SpscPbuf) (len : ℕ) : SpscPbuf :=
  let wrIdx := packetEnd s.wrIdx len
  { s with
    wrIdx := if wrIdx = pblen then 0 else wrIdx
    producer := .idle
    committed := s.committed ++ [(s.wrIdx, loadBytes s.data (s.wrIdx + lenSz) len)] }

def produce (pblen : ℕ) (s : SpscPbuf) : SpscPbuf :=
  match s.producer with
  | .padding rdIdx len => s.putMark rdIdx len
  | .marked rdIdx len => s.wrap rdIdx len
  | .header len => s.publish pblen len
  | _ => s

/-! ### Consumer -/

/-- The index `spsc_pbuf_free` computes, in 16 bits. -/
def nextRd (s : SpscPbuf) (len : ℕ) : ℕ :=
  roundUp ((s.rdIdx + len + lenSz) % 2 ^ 16) % 2 ^ 16

/-- `spsc_pbuf_claim` returns 0. -/
def refuse (s : SpscPbuf) (pending : Bool) : SpscPbuf :=
  { s with consumer := .idle, refused := s.refused ++ [pending] }

/-- `spsc_pbuf_claim`: the load of the write index. -/
def claim (s : SpscPbuf) : SpscPbuf :=
  let pending := !s.unread.isEmpty
  if s.rdIdx = s.wrIdx then s.refuse pending
  else { s with consumer := .claiming s.wrIdx pending }

/-- `spsc_pbuf_free` up to the load of the byte after the packet. -/
def free (pblen : ℕ) (s : SpscPbuf) (len : ℕ) : SpscPbuf :=
  { s with consumer := if s.nextRd len = pblen then .storing len 0 else .freeing len }

/-- `spsc_pbuf_free`: the read index. -/
def release (s : SpscPbuf) (len rdIdx : ℕ) : SpscPbuf :=
  { s with
    rdIdx := rdIdx
    consumer := .idle
    read := s.read ++ [loadBytes s.data (s.rdIdx + lenSz) len] }

/-- `sys_get_be16`. -/
def lenAt (s : SpscPbuf) : ℕ := (s.data s.rdIdx).toNat * 256 + (s.data (s.rdIdx + 1)).toNat

def consume (s : SpscPbuf) : SpscPbuf :=
  match s.consumer with
  | .claiming wrIdx pending =>
    if s.data s.rdIdx = paddingMark then { s with consumer := .claimMark wrIdx pending }
    else { s with consumer := .claimLen }
  | .claimMark wrIdx pending =>
    if s.rdIdx = s.wrIdx then s.refuse pending
    else { s with consumer := .claimWrap wrIdx pending }
  | .claimWrap wrIdx pending =>
    if wrIdx = 0 then ({ s with rdIdx := 0 } : SpscPbuf).refuse pending
    else { s with rdIdx := 0, consumer := .claimLen }
  | .claimLen => { s with consumer := .holding s.lenAt }
  | .freeing len =>
    if s.data (s.nextRd len) = paddingMark then { s with consumer := .freeMark len }
    else { s with consumer := .storing len (s.nextRd len) }
  | .freeMark len =>
    { s with consumer := .storing len (if s.nextRd len ≠ s.wrIdx then 0 else s.nextRd len) }
  | .storing len rdIdx => s.release len rdIdx
  | _ => s

/-! ### Runs -/

inductive Op
  | alloc (len : ℕ)
  | fill (i : ℕ) (b : UInt8)
  | commit (len : ℕ)
  | produce
  | claim
  | free
  | consume
deriving DecidableEq, Repr

/-- The producer commits no more than it was given, and committing 0 bytes does nothing. The
consumer frees what it holds. -/
def step (pblen : ℕ) (s : SpscPbuf) : Op → SpscPbuf
  | .alloc len =>
    match s.producer with
    | .idle | .allocated _ => s.alloc pblen len
    | _ => s
  | .fill i b =>
    match s.producer with
    | .allocated n => if i < n then s.fill i b else s
    | _ => s
  | .commit len =>
    match s.producer with
    | .allocated n => if 0 < len ∧ len ≤ n then s.putLen len else s
    | _ => s
  | .produce => s.produce pblen
  | .claim =>
    match s.consumer with
    | .idle | .holding _ => s.claim
    | _ => s
  | .free =>
    match s.consumer with
    | .holding len => s.free pblen len
    | _ => s
  | .consume => s.consume

def run (pblen : ℕ) (s : SpscPbuf) (ops : List Op) : SpscPbuf := ops.foldl (step pblen) s

/-- The consumer took the byte at the write index for a padding mark and has yet to compare the
indices. -/
def mistaken (s : SpscPbuf) : Bool :=
  match s.consumer with
  | .freeMark len => s.nextRd len = s.wrIdx
  | _ => false

/-- The producer is about to store the write index of a packet. -/
def publishing (s : SpscPbuf) : Bool :=
  match s.producer with
  | .header _ => true
  | _ => false

/-- The longest packet is committed at index 0 only, and none is published where the consumer took a
stale byte for padding. -/
def StepOk (s : SpscPbuf) : Op → Prop
  | .commit len => len = maxLen → s.wrIdx = 0
  | .produce => s.publishing = true → s.mistaken = false
  | _ => True

/-- Every step of the run meets `StepOk`. -/
def RunOk (pblen : ℕ) (s : SpscPbuf) : List Op → Prop
  | [] => True
  | op :: ops => s.StepOk op ∧ RunOk pblen (s.step pblen op) ops

/-! ### Packets in place -/

theorem le_roundUp (x : ℕ) : x ≤ roundUp x := by unfold roundUp; omega

variable {y len pblen rd wr : ℕ}

theorem roundUp_le {x : ℕ} (hy : 4 ∣ y) (h : x ≤ y) : roundUp x ≤ y := by
  unfold roundUp; omega

theorem dvd_roundUp (x : ℕ) : 4 ∣ roundUp x := Dvd.intro_left _ rfl

theorem dvd_packetEnd (idx len : ℕ) : 4 ∣ packetEnd idx len := dvd_roundUp _

theorem lt_packetEnd (idx len : ℕ) : idx + len + 4 ≤ packetEnd idx len := le_roundUp _

theorem packetEnd_le {idx : ℕ} (hy : 4 ∣ y) (h : idx + len + 4 ≤ y) :
    packetEnd idx len ≤ y := roundUp_le hy h

variable {n : ℕ}

theorem packetEnd_mono (idx : ℕ) (h : len ≤ n) : packetEnd idx len ≤ packetEnd idx n := by
  unfold packetEnd roundUp lenSz
  omega

/-- The packet with contents `x` is at index `a`, and its length does not look like padding. -/
structure IsPacket (d : Mem) (a : ℕ) (x : List UInt8) : Prop where
  pos : 0 < x.length
  le : x.length ≤ maxLen
  longest : x.length = maxLen → a = 0
  high : d a = UInt8.ofNat (x.length / 256)
  low : d (a + 1) = UInt8.ofNat x.length
  body : loadBytes d (a + lenSz) x.length = x

namespace IsPacket

variable {d d' : Mem} {a : ℕ} {x : List UInt8}

theorem congr (h : IsPacket d a x)
    (hd : ∀ i, a ≤ i → i < packetEnd a x.length → d' i = d i) : IsPacket d' a x := by
  have hend := lt_packetEnd a x.length
  refine ⟨h.pos, h.le, h.longest, ?_, ?_, ?_⟩
  · rw [hd a le_rfl (by omega)]
    exact h.high
  · rw [hd (a + 1) (by omega) (by omega)]
    exact h.low
  · rw [loadBytes_congr fun i h1 h2 => hd i (by unfold lenSz at h1; omega)
      (by unfold lenSz at h2; omega)]
    exact h.body

theorem zero_of_mark (h : IsPacket d a x) (hmark : d a = paddingMark) : a = 0 := by
  refine h.longest (Nat.le_antisymm h.le ?_)
  have hle := h.le
  have hbyte : (UInt8.ofNat (x.length / 256)).toNat = paddingMark.toNat := by
    rw [← h.high, hmark]
  rw [UInt8.toNat_ofNat'] at hbyte
  have h255 : paddingMark.toNat = 255 := rfl
  unfold maxLen at hle ⊢
  omega

theorem be16 (h : IsPacket d a x) : (d a).toNat * 256 + (d (a + 1)).toNat = x.length := by
  have hle := h.le
  rw [h.high, h.low, UInt8.toNat_ofNat', UInt8.toNat_ofNat']
  unfold maxLen at hle
  omega

end IsPacket

/-- The packets `q` lie one after the other from index `a` to index `b`. -/
def Packets (d : Mem) : ℕ → List (ℕ × List UInt8) → ℕ → Prop
  | a, [], b => a = b
  | a, p :: q, b => p.1 = a ∧ IsPacket d a p.2 ∧ Packets d (packetEnd a p.2.length) q b

namespace Packets

variable {d d' : Mem} {a b : ℕ} {q : List (ℕ × List UInt8)}

theorem le (h : Packets d a q b) : a ≤ b := by
  induction q generalizing a with
  | nil => exact le_of_eq h
  | cons p q ih =>
    have := ih h.2.2
    have := lt_packetEnd a p.2.length
    omega

theorem eq_nil_of_self (h : Packets d a q a) : q = [] := by
  rcases q with _ | ⟨p, q⟩
  · rfl
  have := le h.2.2
  have := lt_packetEnd a p.2.length
  omega

theorem congr (h : Packets d a q b) (hd : ∀ i, a ≤ i → i < b → d' i = d i) : Packets d' a q b := by
  induction q generalizing a with
  | nil => exact h
  | cons p q ih =>
    have hle := le h.2.2
    have hend := lt_packetEnd a p.2.length
    exact ⟨h.1, h.2.1.congr fun i h1 h2 => hd i h1 (by omega),
      ih h.2.2 fun i h1 h2 => hd i (by omega) h2⟩

theorem snoc (h : Packets d a q b) {x : List UInt8} (hx : IsPacket d b x) :
    Packets d a (q ++ [(b, x)]) (packetEnd b x.length) := by
  induction q generalizing a with
  | nil =>
    obtain rfl : a = b := h
    exact ⟨rfl, hx, rfl⟩
  | cons p q ih => exact ⟨h.1, h.2.1, ih h.2.2⟩

theorem bounds (h : Packets d a q b) {p : ℕ × List UInt8} (hp : p ∈ q) :
    a ≤ p.1 ∧ p.1 + p.2.length + 4 ≤ b := by
  induction q generalizing a with
  | nil => exact absurd hp not_mem_nil
  | cons r q ih =>
    have hend := lt_packetEnd a r.2.length
    have hle := le h.2.2
    rcases mem_cons.mp hp with rfl | hp
    · have := h.1
      omega
    · have := ih h.2.2 hp
      omega

end Packets

/-! ### Layout of the data area -/

/-- No wrap between the indices: the packets lie from the read to the write index. -/
structure Straight (pblen : ℕ) (d : Mem) (rd wr : ℕ) (q : List (ℕ × List UInt8)) : Prop where
  le : rd ≤ wr
  lt : wr < pblen ∨ wr = 0
  packets : Packets d rd q wr

/-- A wrap between the indices: `q1` from the read index to the end or to a padding mark, `q2` from
index 0 on. -/
structure Wrapped (pblen : ℕ) (d : Mem) (rd wr : ℕ) (q1 q2 : List (ℕ × List UInt8)) :
    Prop where
  lt : wr < rd
  low : Packets d 0 q2 wr
  high : ∃ e ≤ pblen, Packets d rd q1 e ∧ (e = pblen → q1 ≠ []) ∧ (e < pblen → d e = paddingMark)

/-- Packets before and after the wrap, if there is one. -/
def Layout (pblen : ℕ) (d : Mem) (rd wr : ℕ) (q1 q2 : List (ℕ × List UInt8)) : Prop :=
  Straight pblen d rd wr q1 ∧ q2 = [] ∨ Wrapped pblen d rd wr q1 q2

section layout

variable {pblen rd wr : ℕ} {d d' : Mem} {x : List UInt8} {q q1 q2 : List (ℕ × List UInt8)}

theorem Wrapped.rd_le (h : Wrapped pblen d rd wr q1 q2) : rd ≤ pblen := by
  obtain ⟨e, he, hq, -⟩ := h.high
  exact hq.le.trans he

theorem Straight.congr (h : Straight pblen d rd wr q) (hd : ∀ i < wr, d' i = d i) :
    Straight pblen d' rd wr q :=
  ⟨h.le, h.lt, h.packets.congr fun i _ hi => hd i hi⟩

theorem Wrapped.congr (h : Wrapped pblen d rd wr q1 q2)
    (hd : ∀ i, i < wr ∨ rd ≤ i → d' i = d i) : Wrapped pblen d' rd wr q1 q2 := by
  obtain ⟨e, he, hq, hend, hmark⟩ := h.high
  refine ⟨h.lt, h.low.congr fun i _ hi => hd i (Or.inl hi), e, he,
    hq.congr fun i hi _ => hd i (Or.inr hi), hend, fun hlt => ?_⟩
  rw [hd e (Or.inr hq.le)]
  exact hmark hlt

theorem Layout.eq_nil (h : Layout pblen d rd rd q1 q2) : q1 ++ q2 = [] := by
  rcases h with ⟨h, rfl⟩ | h
  · rw [h.packets.eq_nil_of_self, append_nil]
  · exact absurd h.lt (lt_irrefl rd)

theorem Layout.head (h : Layout pblen d rd wr q1 q2) (hq : q1 ++ q2 = (rd, x) :: q) :
    IsPacket d rd x ∧ ∃ q1', q1 = (rd, x) :: q1' ∧ q = q1' ++ q2 := by
  cases q1 with
  | nil =>
    rcases h with ⟨-, rfl⟩ | h
    · exact absurd hq (by simp)
    · rw [nil_append] at hq
      subst hq
      have h0 : rd = 0 := h.low.1
      exact absurd h.lt (by omega)
  | cons p q1' =>
    rw [cons_append] at hq
    obtain ⟨rfl, rfl⟩ := List.cons.inj hq
    refine ⟨?_, q1', rfl, rfl⟩
    rcases h with ⟨h, -⟩ | h
    · exact h.packets.2.1
    · obtain ⟨e, -, hp, -⟩ := h.high
      exact hp.2.1

theorem Layout.packetEnd_le (h : Layout pblen d rd wr ((rd, x) :: q1) q2) :
    packetEnd rd x.length ≤ pblen := by
  rcases h with ⟨h, -⟩ | h
  · have hle : packetEnd rd x.length ≤ wr := h.packets.2.2.le
    have := lt_packetEnd rd x.length
    have := h.lt
    omega
  · obtain ⟨e, he, hp, -⟩ := h.high
    exact hp.2.2.le.trans he

theorem Layout.wrapped_of_end (h : Layout pblen d rd wr ((rd, x) :: q1) q2)
    (hend : packetEnd rd x.length = pblen) :
    q1 = [] ∧ Wrapped pblen d rd wr ((rd, x) :: q1) q2 := by
  have hpos := lt_packetEnd rd x.length
  rcases h with ⟨h, -⟩ | h
  · have hle : packetEnd rd x.length ≤ wr := h.packets.2.2.le
    have := h.lt
    omega
  refine ⟨?_, h⟩
  obtain ⟨e, he, hp, -⟩ := h.high
  have hq : Packets d (packetEnd rd x.length) q1 e := hp.2.2
  rw [hend] at hq
  obtain rfl : e = pblen := Nat.le_antisymm he hq.le
  exact hq.eq_nil_of_self

theorem Layout.last_of_mark (h : Layout pblen d rd wr ((rd, x) :: q1) q2)
    (hmark : d (packetEnd rd x.length) = paddingMark) : q1 = [] := by
  have hpos := lt_packetEnd rd x.length
  obtain ⟨e, hp⟩ : ∃ e, Packets d (packetEnd rd x.length) q1 e := by
    rcases h with ⟨h, -⟩ | h
    · exact ⟨_, h.packets.2.2⟩
    · obtain ⟨e, -, hp, -⟩ := h.high
      exact ⟨e, hp.2.2⟩
  cases q1 with
  | nil => rfl
  | cons p q =>
    have := hp.2.1.zero_of_mark hmark
    omega

theorem Layout.tail (h : Layout pblen d rd wr ((rd, x) :: q1) q2)
    (hend : packetEnd rd x.length ≠ pblen) : Layout pblen d (packetEnd rd x.length) wr q1 q2 := by
  have hpos := lt_packetEnd rd x.length
  rcases h with ⟨h, hq⟩ | h
  · exact Or.inl ⟨⟨h.packets.2.2.le, h.lt, h.packets.2.2⟩, hq⟩
  obtain ⟨e, he, hp, -, hmark⟩ := h.high
  refine Or.inr ⟨by have := h.lt; omega, h.low, e, he, hp.2.2, fun heq hnil => ?_, hmark⟩
  have hlast : Packets d (packetEnd rd x.length) q1 e := hp.2.2
  rw [hnil] at hlast
  exact hend (Eq.trans hlast heq)

theorem Wrapped.straight (h : Wrapped pblen d rd wr q1 q2) : Straight pblen d 0 wr q2 :=
  ⟨Nat.zero_le wr, Or.inl (lt_of_lt_of_le h.lt h.rd_le), h.low⟩

end layout

/-! ### What each side relies on -/

/-- Room for a packet of `n` bytes at the write index, with a word left in front of the read
index. -/
structure Room (pblen rd wr n : ℕ) : Prop where
  straight : rd ≤ wr → packetEnd wr n < pblen ∨ packetEnd wr n = pblen ∧ 0 < rd
  wrapped : wr < rd → packetEnd wr n < rd

theorem Room.mono {m : ℕ} (h : Room pblen rd wr n) (hle : m ≤ n) : Room pblen rd wr m := by
  have hend := packetEnd_mono wr hle
  refine ⟨fun hs => ?_, fun hw => lt_of_le_of_lt hend (h.wrapped hw)⟩
  have := h.straight hs
  omega

def Moves (pblen rd wr rd' : ℕ) : Prop :=
  rd ≤ rd' ∧ rd' ≤ wr ∨ (wr < rd ∧ rd ≤ pblen) ∧ (rd ≤ rd' ∨ rd' = 0)

theorem Room.moves {rd' : ℕ} (h : Room pblen rd wr n)
    (hm : Moves pblen rd wr rd') : Room pblen rd' wr n := by
  have hs := h.straight
  have hw := h.wrapped
  unfold Moves at hm
  refine ⟨fun _ => ?_, fun _ => ?_⟩
  · omega
  · omega

def ProducerOk (pblen : ℕ) (s : SpscPbuf) : SpscProducer → Prop
  | .idle => True
  | .padding r len => len ≤ maxLen ∧ s.rdIdx ≤ s.wrIdx ∧ r ≤ s.rdIdx ∧ 4 < r
  | .marked r len =>
    (len ≤ maxLen ∧ s.rdIdx ≤ s.wrIdx ∧ r ≤ s.rdIdx ∧ 4 < r) ∧ s.data s.wrIdx = paddingMark
  | .allocated n => n ≤ maxLen ∧ (0 < n → Room pblen s.rdIdx s.wrIdx n)
  | .header len =>
    (0 < len ∧ len ≤ maxLen ∧ (len = maxLen → s.wrIdx = 0)) ∧ Room pblen s.rdIdx s.wrIdx len ∧
      s.data s.wrIdx = UInt8.ofNat (len / 256) ∧ s.data (s.wrIdx + 1) = UInt8.ofNat len

def HeadAt (s : SpscPbuf) : Prop := ∃ x q, s.unread = (s.rdIdx, x) :: q

/-- A packet of length `len` is at the read index. -/
def HeadOf (s : SpscPbuf) (len : ℕ) : Prop :=
  ∃ x q, s.unread = (s.rdIdx, x) :: q ∧ x.length = len

/-- A padding mark is at the read index, with a packet after it unless the write index loaded is 0.
-/
def PadAhead (pblen : ℕ) (s : SpscPbuf) (w : ℕ) (pending : Bool) : Prop :=
  Wrapped pblen s.data s.rdIdx s.wrIdx [] s.unread ∧ (w ≠ 0 → s.unread ≠ []) ∧
    (w = 0 → pending = false)

def ConsumerOk (pblen : ℕ) (s : SpscPbuf) : SpscConsumer → Prop
  | .idle => True
  | .claiming w b => s.HeadAt ∧ s.rdIdx ≠ w ∨ s.PadAhead pblen w b
  | .claimMark w b => (s.HeadAt ∧ s.rdIdx = 0 ∧ w ≠ 0) ∨ s.PadAhead pblen w b
  | .claimWrap w b => (s.HeadAt ∧ s.rdIdx = 0 ∧ w ≠ 0) ∨ s.PadAhead pblen w b
  | .claimLen => s.HeadAt
  | .holding len => s.HeadOf len
  | .freeing len => s.HeadOf len ∧ packetEnd s.rdIdx len ≠ pblen
  | .freeMark len =>
    ∃ x q, s.unread = (s.rdIdx, x) :: q ∧ x.length = len ∧
      Layout pblen s.data s.rdIdx s.wrIdx [(s.rdIdx, x)] q
  | .storing len r =>
    ∃ x q, s.unread = (s.rdIdx, x) :: q ∧ x.length = len ∧ (r = packetEnd s.rdIdx len ∧ r ≠ pblen ∨
        r = 0 ∧ Wrapped pblen s.data s.rdIdx s.wrIdx [(s.rdIdx, x)] q)

structure Inv (pblen : ℕ) (s : SpscPbuf) : Prop where
  rdAligned : 4 ∣ s.rdIdx
  wrAligned : 4 ∣ s.wrIdx
  order : s.committed.map Prod.snd = s.read ++ s.unread.map Prod.snd
  layout : ∃ q1 q2, s.unread = q1 ++ q2 ∧ Layout pblen s.data s.rdIdx s.wrIdx q1 q2
  producer : s.ProducerOk pblen s.producer
  consumer : s.ConsumerOk pblen s.consumer
  refused : ∀ b ∈ s.refused, b = false

theorem Inv.init (pblen : ℕ) (data : Mem) : Inv pblen (init data) :=
  ⟨dvd_zero 4, dvd_zero 4, rfl, ⟨[], [], rfl, Or.inl ⟨⟨le_rfl, Or.inr rfl, rfl⟩, rfl⟩⟩, trivial,
    trivial, fun _ hb => absurd hb not_mem_nil⟩

/-! ### Producer's steps -/

/-- A step of the producer: the packets `new` are committed, and what is there stays. -/
structure Produces (pblen : ℕ) (s s' : SpscPbuf) (new : List (ℕ × List UInt8)) : Prop where
  rdIdx : s'.rdIdx = s.rdIdx
  consumer : s'.consumer = s.consumer
  read : s'.read = s.read
  refused : s'.refused = s.refused
  committed : s'.committed = s.committed ++ new
  straight : ∀ q, Straight pblen s.data s.rdIdx s.wrIdx q →
    Layout pblen s'.data s.rdIdx s'.wrIdx (q ++ new) []
  wrapped : ∀ q1 q2, Wrapped pblen s.data s.rdIdx s.wrIdx q1 q2 →
    Wrapped pblen s'.data s.rdIdx s'.wrIdx q1 (q2 ++ new)

section producer

variable {pblen : ℕ} {s s' : SpscPbuf} {new : List (ℕ × List UInt8)}

theorem Produces.of_store (d : Mem) (p : SpscProducer) (hlow : ∀ i < s.wrIdx, d i = s.data i)
    (hhigh : s.wrIdx < s.rdIdx → ∀ i, s.rdIdx ≤ i → d i = s.data i) :
    Produces pblen s { s with data := d, producer := p } [] := by
  refine ⟨rfl, rfl, rfl, rfl, (append_nil _).symm, fun q h => ?_, fun q1 q2 h => ?_⟩
  · rw [append_nil]
    exact Or.inl ⟨h.congr hlow, rfl⟩
  rw [append_nil]
  refine h.congr fun i hi => ?_
  rcases hi with hi | hi
  · exact hlow i hi
  · exact hhigh h.lt i hi

theorem Inv.read_le (h : Inv pblen s) : s.read.length ≤ s.committed.length := by
  have := congrArg List.length h.order
  simp only [length_map, length_append] at this
  omega

theorem Produces.unread (hp : Produces pblen s s' new) (h : Inv pblen s) :
    s'.unread = s.unread ++ new := by
  rw [SpscPbuf.unread, SpscPbuf.unread, hp.committed, hp.read, drop_append_of_le_length h.read_le]

theorem Produces.headAt (hp : Produces pblen s s' new) (h : Inv pblen s) (hh : s.HeadAt) :
    s'.HeadAt := by
  obtain ⟨x, q, hq⟩ := hh
  exact ⟨x, q ++ new, by rw [hp.unread h, hq, hp.rdIdx, cons_append]⟩

variable {len n : ℕ}

theorem Produces.headOf (hp : Produces pblen s s' new) (h : Inv pblen s)
    (hh : s.HeadOf len) : s'.HeadOf len := by
  obtain ⟨x, q, hq, hlen⟩ := hh
  exact ⟨x, q ++ new, by rw [hp.unread h, hq, hp.rdIdx, cons_append], hlen⟩

theorem Produces.padAhead (hp : Produces pblen s s' new) (h : Inv pblen s) {w : ℕ} {b : Bool}
    (hh : s.PadAhead pblen w b) : s'.PadAhead pblen w b := by
  obtain ⟨hw, hne, hnone⟩ := hh
  refine ⟨?_, fun h0 => ?_, hnone⟩
  · rw [hp.unread h, hp.rdIdx]
    exact hp.wrapped [] _ hw
  · rw [hp.unread h]
    exact append_ne_nil_of_left_ne_nil (hne h0) new

theorem nextRd_eq (h16 : pblen < 2 ^ 16) (hend : packetEnd s.rdIdx len ≤ pblen) :
    s.nextRd len = packetEnd s.rdIdx len := by
  have hpos := lt_packetEnd s.rdIdx len
  have hmod : (s.rdIdx + len + lenSz) % 2 ^ 16 = s.rdIdx + len + lenSz :=
    Nat.mod_eq_of_lt (by unfold lenSz; omega)
  rw [nextRd, hmod]
  exact Nat.mod_eq_of_lt (lt_of_le_of_lt hend h16)

/-- What the consumer relies on stays, unless it took a stale byte for a padding mark. -/
theorem Produces.consumerOk (hp : Produces pblen s s' new) (h : Inv pblen s)
    (h16 : pblen < 2 ^ 16) (hfree : new ≠ [] → s.mistaken = false) :
    s'.ConsumerOk pblen s'.consumer := by
  have hok := h.consumer
  rw [hp.consumer]
  cases hc : s.consumer with
  | idle => trivial
  | claiming w b =>
    rw [hc] at hok
    rcases hok with ⟨hh, hw⟩ | hh
    · exact Or.inl ⟨hp.headAt h hh, by rw [hp.rdIdx]; exact hw⟩
    · exact Or.inr (hp.padAhead h hh)
  | claimMark w b =>
    rw [hc] at hok
    rcases hok with ⟨hh, hr, hw⟩ | hh
    · exact Or.inl ⟨hp.headAt h hh, by rw [hp.rdIdx]; exact hr, hw⟩
    · exact Or.inr (hp.padAhead h hh)
  | claimWrap w b =>
    rw [hc] at hok
    rcases hok with ⟨hh, hr, hw⟩ | hh
    · exact Or.inl ⟨hp.headAt h hh, by rw [hp.rdIdx]; exact hr, hw⟩
    · exact Or.inr (hp.padAhead h hh)
  | claimLen =>
    rw [hc] at hok
    exact hp.headAt h hok
  | holding len =>
    rw [hc] at hok
    exact hp.headOf h hok
  | freeing len =>
    rw [hc] at hok
    exact ⟨hp.headOf h hok.1, by rw [hp.rdIdx]; exact hok.2⟩
  | freeMark len =>
    rw [hc] at hok
    obtain ⟨x, q, hq, rfl, hl⟩ := hok
    refine ⟨x, q ++ new, by rw [hp.unread h, hq, hp.rdIdx, cons_append], rfl, ?_⟩
    rw [hp.rdIdx]
    have hle := hl.packetEnd_le
    rcases hl with ⟨hl, rfl⟩ | hl
    · by_cases hnew : new = []
      · subst hnew
        exact hp.straight _ hl
      · -- the packet would be published where the consumer saw the mark
        have hwr : packetEnd s.rdIdx x.length = s.wrIdx := hl.packets.2.2
        have hm := hfree hnew
        simp [mistaken, hc, nextRd_eq h16 hle, hwr] at hm
    · exact Or.inr (hp.wrapped _ _ hl)
  | storing len r =>
    rw [hc] at hok
    obtain ⟨x, q, hq, hlen, hr⟩ := hok
    refine ⟨x, q ++ new, by rw [hp.unread h, hq, hp.rdIdx, cons_append], hlen, ?_⟩
    rw [hp.rdIdx]
    rcases hr with hr | ⟨hr, hl⟩
    · exact Or.inl hr
    · exact Or.inr ⟨hr, hp.wrapped _ _ hl⟩

theorem Inv.of_produces (h : Inv pblen s) (hp : Produces pblen s s' new)
    (h16 : pblen < 2 ^ 16) (hfree : new ≠ [] → s.mistaken = false)
    (hwr : 4 ∣ s'.wrIdx) (hok : s'.ProducerOk pblen s'.producer) : Inv pblen s' := by
  refine ⟨hp.rdIdx ▸ h.rdAligned, hwr, ?_, ?_, hok, hp.consumerOk h h16 hfree,
    hp.refused ▸ h.refused⟩
  · rw [hp.unread h, hp.committed, hp.read, map_append, map_append, h.order, append_assoc]
  obtain ⟨q1, q2, hq, hl⟩ := h.layout
  rw [hp.unread h, hq, hp.rdIdx]
  rcases hl with ⟨hl, rfl⟩ | hl
  · exact ⟨q1 ++ new, [], by simp, hp.straight q1 hl⟩
  · exact ⟨q1, q2 ++ new, by simp, Or.inr (hp.wrapped q1 q2 hl)⟩

theorem Inv.store (h : Inv pblen s) (h16 : pblen < 2 ^ 16) {d : Mem} {p : SpscProducer}
    (hlow : ∀ i < s.wrIdx, d i = s.data i)
    (hhigh : s.wrIdx < s.rdIdx → ∀ i, s.rdIdx ≤ i → d i = s.data i)
    (hok : ({ s with data := d, producer := p } : SpscPbuf).ProducerOk pblen p) :
    Inv pblen { s with data := d, producer := p } :=
  h.of_produces (Produces.of_store d p hlow hhigh) h16 (fun hne => absurd rfl hne) h.wrAligned hok

theorem allocLen_le (len : ℕ) (f : ℤ) : allocLen len f ≤ len := Nat.min_le_left _ _

theorem allocLen_add_le {f : ℤ} (h : 0 < allocLen len f) : (allocLen len f : ℤ) + 4 ≤ f := by
  have hle : allocLen len f ≤ (f - lenSz).toNat := Nat.min_le_right _ _
  unfold lenSz at hle
  omega

theorem Inv.allocated (h : Inv pblen s) (h16 : pblen < 2 ^ 16) (hn : n ≤ maxLen)
    (hroom : 0 < n → Room pblen s.rdIdx s.wrIdx n) :
    Inv pblen { s with producer := .allocated n } :=
  h.store h16 (d := s.data) (fun _ _ => rfl) (fun _ _ _ => rfl) ⟨hn, hroom⟩

theorem Inv.alloc (h : Inv pblen s) (h4 : 4 ∣ pblen) (h16 : pblen < 2 ^ 16) (len : ℕ) :
    Inv pblen (s.alloc pblen len) := by
  have hrd := h.rdAligned
  have hwr := h.wrAligned
  rw [SpscPbuf.alloc]
  by_cases hbad : len = 0 ∨ maxLen < len
  · rw [if_pos hbad]
    exact h
  have hlen : len ≤ maxLen := by omega
  rw [if_neg hbad]
  by_cases hle : s.rdIdx ≤ s.wrIdx
  · rw [if_pos hle]
    dsimp only
    split_ifs with hfit
    · -- at the end of the area
      refine h.allocated h16 ((allocLen_le _ _).trans hlen) fun h0 => ⟨fun _ => ?_, by omega⟩
      have hfree := allocLen_add_le h0
      have hend : packetEnd s.wrIdx (allocLen len (pblen - s.wrIdx - unused s.rdIdx)) ≤
          pblen - unused s.rdIdx :=
        packetEnd_le (by unfold unused freeSpaceDistance; split <;> omega) (by omega)
      have hunused : 0 < s.rdIdx ∨ unused s.rdIdx = 4 := by
        unfold unused freeSpaceDistance
        split <;> omega
      omega
    -- with padding
    have hspace : 4 < space len := by
      unfold space lenSz
      split <;> omega
    exact h.store h16 (d := s.data) (fun _ _ => rfl) (fun _ _ _ => rfl)
      ⟨hlen, hle, le_rfl, by omega⟩
  -- before the read index
  rw [if_neg hle]
  refine h.allocated h16 ((allocLen_le _ _).trans hlen) fun h0 => ⟨by omega, fun _ => ?_⟩
  have hfree := allocLen_add_le h0
  have hword : freeSpaceDistance = 4 := rfl
  have hend := packetEnd_le (y := s.rdIdx - 4) (by omega)
    (by omega : s.wrIdx + allocLen len (s.rdIdx - s.wrIdx - freeSpaceDistance) + 4 ≤ s.rdIdx - 4)
  omega

variable {i r : ℕ}

theorem Room.lt_rd {rd wr : ℕ} (h : Room pblen rd wr n) (hi : i < n + 4) (hw : wr < rd) :
    wr + i < rd := by
  have := h.wrapped hw
  have := lt_packetEnd wr n
  omega

theorem Inv.fill (h : Inv pblen s) (h16 : pblen < 2 ^ 16)
    (hp : s.producer = .allocated n) (hi : i < n) (b : UInt8) : Inv pblen (s.fill i b) := by
  have hok := h.producer
  rw [hp] at hok
  refine h.store h16 (fun j hj => ?_) (fun hw j hj => ?_) (by rw [hp]; exact hok)
  · exact storeBytes_singleton_of_ne (by omega)
  · have := (hok.2 (by omega)).lt_rd (i := 4 + i) (by omega) hw
    exact storeBytes_singleton_of_ne (by unfold lenSz; omega)

theorem Inv.putLen (h : Inv pblen s) (h16 : pblen < 2 ^ 16)
    (hp : s.producer = .allocated n) (hpos : 0 < len) (hle : len ≤ n)
    (hlongest : len = maxLen → s.wrIdx = 0) : Inv pblen (s.putLen len) := by
  have hok := h.producer
  rw [hp] at hok
  have hroom := (hok.2 (by omega)).mono hle
  refine h.store h16 (fun j hj => storeBytes_of_notMem (Or.inl hj)) (fun hw j hj => ?_) ?_
  · have := hroom.lt_rd (i := 2) (by omega) hw
    exact storeBytes_of_notMem (Or.inr (by simp only [length_cons, length_nil]; omega))
  · exact ⟨⟨hpos, hle.trans hok.1, hlongest⟩, hroom, by simp [storeBytes], by simp [storeBytes]⟩

theorem Inv.putMark (h : Inv pblen s) (h16 : pblen < 2 ^ 16)
    (hp : s.producer = .padding r len) : Inv pblen (s.putMark r len) := by
  have hok := h.producer
  rw [hp] at hok
  refine h.store h16 (fun j hj => storeBytes_of_notMem (Or.inl hj)) (fun hw => ?_)
    ⟨hok, storeBytes_singleton_self _ _ _⟩
  exact absurd hok.2.1 (by omega)

theorem Inv.wrap (h : Inv pblen s) (h16 : pblen < 2 ^ 16)
    (hp : s.producer = .marked r len) : Inv pblen (s.wrap r len) := by
  have hok := h.producer
  rw [hp] at hok
  obtain ⟨⟨hlen, hle, hr, hr4⟩, hmark⟩ := hok
  have hproduces : Produces pblen s (s.wrap r len) [] := by
    refine ⟨rfl, rfl, rfl, rfl, (append_nil _).symm, fun q hq => Or.inr ?_, fun q1 q2 hq => ?_⟩
    · have hlt := hq.lt
      have hpos : 0 < s.rdIdx := by omega
      refine ⟨hpos, rfl, s.wrIdx, by omega, ?_, by omega, fun _ => hmark⟩
      rw [append_nil]
      exact hq.packets
    · exact absurd hq.lt (by omega)
  refine h.of_produces hproduces h16 (fun hne => absurd rfl hne) (dvd_zero 4)
    ⟨(allocLen_le _ _).trans hlen, fun h0 => ⟨fun hz => ?_, fun _ => ?_⟩⟩
  · have h0 : s.rdIdx ≤ 0 := hz
    omega
  have hfree := allocLen_add_le h0
  have hword : freeSpaceDistance = 4 := rfl
  have hend : packetEnd 0 (allocLen len (r - freeSpaceDistance)) ≤ s.rdIdx - 4 :=
    packetEnd_le (by have := h.rdAligned; omega) (by omega)
  exact lt_of_le_of_lt hend (show s.rdIdx - 4 < s.rdIdx by omega)

theorem isPacket_of_header (hok : s.ProducerOk pblen (.header len)) :
    IsPacket s.data s.wrIdx (loadBytes s.data (s.wrIdx + lenSz) len) := by
  obtain ⟨⟨hpos, hle, hlongest⟩, -, hhigh, hlow⟩ := hok
  refine ⟨?_, ?_, ?_, ?_, ?_, ?_⟩
  all_goals rw [length_loadBytes]
  · exact hpos
  · exact hle
  · exact hlongest
  · exact hhigh
  · exact hlow

theorem Inv.publish (h : Inv pblen s) (h16 : pblen < 2 ^ 16)
    (hp : s.producer = .header len) (hfree : s.mistaken = false) :
    Inv pblen (s.publish pblen len) := by
  have hok := h.producer
  rw [hp] at hok
  have hpacket := isPacket_of_header hok
  have hroom := hok.2.1
  have hpos := lt_packetEnd s.wrIdx len
  have hsnoc {a q} (hq : Packets s.data a q s.wrIdx) := hq.snoc hpacket
  rw [length_loadBytes] at hsnoc
  have hproduces : Produces pblen s (s.publish pblen len)
      [(s.wrIdx, loadBytes s.data (s.wrIdx + lenSz) len)] := ?_
  · refine h.of_produces hproduces h16 (fun _ => hfree) ?_ trivial
    simp only [SpscPbuf.publish]
    split_ifs
    · exact dvd_zero 4
    · exact dvd_packetEnd _ _
  refine ⟨rfl, rfl, rfl, rfl, rfl, fun q hq => ?_, fun q1 q2 hq => ?_⟩
  · have hend := hroom.straight hq.le
    simp only [SpscPbuf.publish]
    split_ifs with hwrap
    · -- the packet ends with the area
      refine Or.inr ⟨by omega, rfl, pblen, le_rfl, ?_, fun _ => by simp, by omega⟩
      rw [← hwrap]
      exact hsnoc hq.packets
    · exact Or.inl ⟨⟨by have := hq.le; omega, by omega, hsnoc hq.packets⟩, rfl⟩
  · have hend := hroom.wrapped hq.lt
    have hrd := hq.rd_le
    simp only [SpscPbuf.publish, if_neg (show packetEnd s.wrIdx len ≠ pblen by omega)]
    exact ⟨hend, hsnoc hq.low, hq.high⟩

theorem Inv.produce (h : Inv pblen s) (h16 : pblen < 2 ^ 16)
    (hok : s.publishing = true → s.mistaken = false) : Inv pblen (s.produce pblen) := by
  cases hp : s.producer with
  | idle => simpa only [SpscPbuf.produce, hp] using h
  | padding r len => simpa only [SpscPbuf.produce, hp] using h.putMark h16 hp
  | marked r len => simpa only [SpscPbuf.produce, hp] using h.wrap h16 hp
  | allocated n => simpa only [SpscPbuf.produce, hp] using h
  | header len =>
    have hfree := hok (by simp [publishing, hp])
    simpa only [SpscPbuf.produce, hp] using h.publish h16 hp hfree

end producer

/-! ### Consumer's steps -/

section consumer

variable {pblen : ℕ} {s : SpscPbuf}

variable {c : SpscConsumer}

theorem Inv.setConsumer (h : Inv pblen s) (hc : s.ConsumerOk pblen c) :
    Inv pblen { s with consumer := c } :=
  ⟨h.rdAligned, h.wrAligned, h.order, h.layout, h.producer, hc, h.refused⟩

theorem Inv.refuse (h : Inv pblen s) {pending : Bool} (hpending : pending = false) :
    Inv pblen (s.refuse pending) := by
  refine ⟨h.rdAligned, h.wrAligned, h.order, h.layout, h.producer, trivial, fun b hb => ?_⟩
  rcases mem_append.mp hb with hb | hb
  · exact h.refused b hb
  · rw [mem_singleton.mp hb, hpending]

theorem producerOk_moves {p : SpscProducer} (h : s.ProducerOk pblen p) {rd : ℕ}
    (hm : Moves pblen s.rdIdx s.wrIdx rd) :
    ({ s with rdIdx := rd } : SpscPbuf).ProducerOk pblen p := by
  have hmoves := hm
  unfold Moves at hm
  cases p with
  | idle => trivial
  | padding r len =>
    obtain ⟨hlen, hle, hr, hr4⟩ := h
    exact ⟨hlen, by dsimp only; omega, by dsimp only; omega, hr4⟩
  | marked r len =>
    obtain ⟨⟨hlen, hle, hr, hr4⟩, hmark⟩ := h
    exact ⟨⟨hlen, by dsimp only; omega, by dsimp only; omega, hr4⟩, hmark⟩
  | allocated n => exact ⟨h.1, fun h0 => (h.2 h0).moves hmoves⟩
  | header len => exact ⟨h.1, h.2.1.moves hmoves, h.2.2⟩

theorem Inv.claim (h : Inv pblen s) : Inv pblen s.claim := by
  obtain ⟨q1, q2, hq, hl⟩ := h.layout
  unfold SpscPbuf.claim
  dsimp only
  split_ifs with heq
  · refine h.refuse ?_
    rw [← heq] at hl
    rw [hq, hl.eq_nil]
    rfl
  refine h.setConsumer ?_
  cases q1 with
  | cons p q1 =>
    refine Or.inl ⟨⟨p.2, q1 ++ q2, ?_⟩, heq⟩
    have hp : p.1 = s.rdIdx := by
      rcases hl with ⟨hl, -⟩ | hl
      · exact hl.packets.1
      · obtain ⟨e, -, hp, -⟩ := hl.high
        exact hp.1
    rw [hq, ← hp, cons_append]
  | nil =>
    rw [nil_append] at hq
    rcases hl with ⟨hl, rfl⟩ | hl
    · exact absurd hl.packets heq
    refine Or.inr ⟨by rw [hq]; exact hl, fun hw hnil => ?_, fun hw => ?_⟩
    · have hlow := hl.low
      rw [← hq, hnil] at hlow
      exact hw hlow.symm
    · have hlow := hl.low
      rw [hw] at hlow
      rw [hq, hlow.eq_nil_of_self]
      rfl

theorem Inv.head (h : Inv pblen s) {x : List UInt8} {q : List (ℕ × List UInt8)}
    (hq : s.unread = (s.rdIdx, x) :: q) :
    IsPacket s.data s.rdIdx x ∧ ∃ q1 q2, q = q1 ++ q2 ∧
      Layout pblen s.data s.rdIdx s.wrIdx ((s.rdIdx, x) :: q1) q2 := by
  obtain ⟨q1, q2, hq', hl⟩ := h.layout
  obtain ⟨hx, q1', rfl, rfl⟩ := hl.head (hq'.symm.trans hq)
  exact ⟨hx, q1', q2, rfl, hl⟩

variable {len w : ℕ} {b : Bool}

theorem Inv.free (h : Inv pblen s) (h16 : pblen < 2 ^ 16)
    (hc : s.consumer = .holding len) : Inv pblen (s.free pblen len) := by
  have hok := h.consumer
  rw [hc] at hok
  obtain ⟨x, q, hq, rfl⟩ := hok
  obtain ⟨-, q1, q2, rfl, hl⟩ := h.head hq
  have hnext := nextRd_eq h16 hl.packetEnd_le
  refine h.setConsumer ?_
  split_ifs with hend
  · rw [hnext] at hend
    obtain ⟨rfl, hw⟩ := hl.wrapped_of_end hend
    exact ⟨x, q2, hq, rfl, Or.inr ⟨rfl, hw⟩⟩
  · rw [hnext] at hend
    exact ⟨⟨x, _, hq, rfl⟩, hend⟩

theorem Inv.skip (h : Inv pblen s) (hw : Wrapped pblen s.data s.rdIdx s.wrIdx [] s.unread)
    (hc : ({ s with rdIdx := 0 } : SpscPbuf).ConsumerOk pblen c) :
    Inv pblen { s with rdIdx := 0, consumer := c } :=
  ⟨dvd_zero 4, h.wrAligned, h.order, ⟨s.unread, [], (append_nil _).symm,
    Or.inl ⟨hw.straight, rfl⟩⟩, producerOk_moves h.producer (Or.inr ⟨⟨hw.lt, hw.rd_le⟩, Or.inr rfl⟩),
    hc, h.refused⟩

theorem Inv.release (h : Inv pblen s) {r : ℕ} (hc : s.consumer = .storing len r) :
    Inv pblen (s.release len r) := by
  have hok := h.consumer
  rw [hc] at hok
  obtain ⟨x, q, hq, rfl, hr⟩ := hok
  obtain ⟨hx, q1, q2, rfl, hl⟩ := h.head hq
  have hread : loadBytes s.data (s.rdIdx + lenSz) x.length = x := hx.body
  have hunread : (s.release x.length r).unread = q1 ++ q2 := by
    rw [SpscPbuf.unread, SpscPbuf.release]
    simp only [length_append, length_singleton]
    rw [← drop_drop]
    exact congrArg (List.drop 1) hq
  have hpos : s.rdIdx ≤ packetEnd s.rdIdx x.length := by
    have := lt_packetEnd s.rdIdx x.length
    omega
  have horder : (s.release x.length r).committed.map Prod.snd =
      (s.release x.length r).read ++ (s.release x.length r).unread.map Prod.snd := by
    rw [hunread, SpscPbuf.release]
    dsimp only
    rw [h.order, hq, hread, map_cons, append_assoc, singleton_append]
  rcases hr with ⟨rfl, hend⟩ | ⟨rfl, hw⟩
  · refine ⟨dvd_packetEnd _ _, h.wrAligned, horder, ⟨q1, q2, hunread, hl.tail hend⟩,
      producerOk_moves h.producer ?_, trivial, h.refused⟩
    rcases hl with ⟨hl, -⟩ | hl
    · exact Or.inl ⟨hpos, hl.packets.2.2.le⟩
    · exact Or.inr ⟨⟨hl.lt, hl.rd_le⟩, Or.inl hpos⟩
  · exact ⟨dvd_zero 4, h.wrAligned, horder, ⟨q1 ++ q2, [], by rw [hunread, append_nil],
      Or.inl ⟨hw.straight, rfl⟩⟩,
      producerOk_moves h.producer (Or.inr ⟨⟨hw.lt, hw.rd_le⟩, Or.inr rfl⟩), trivial, h.refused⟩

theorem Inv.consume_claim (h : Inv pblen s)
    (hc : s.consumer = .claiming w b) : Inv pblen s.consume := by
  have hok := h.consumer
  rw [hc] at hok
  simp only [consume, hc]
  split_ifs with hmark
  · refine h.setConsumer ?_
    rcases hok with ⟨⟨x, q, hq⟩, hw⟩ | hpad
    · have h0 := (h.head hq).1.zero_of_mark hmark
      exact Or.inl ⟨⟨x, q, hq⟩, h0, by omega⟩
    · exact Or.inr hpad
  refine h.setConsumer ?_
  rcases hok with ⟨hh, -⟩ | ⟨hw, -⟩
  · exact hh
  · -- the byte of the padding mark
    obtain ⟨e, he, hrd, hend, hm⟩ := hw.high
    obtain rfl : s.rdIdx = e := hrd
    exact absurd (hm (lt_of_le_of_ne he fun heq => hend heq rfl)) hmark

theorem Inv.consume_claimMark (h : Inv pblen s)
    (hc : s.consumer = .claimMark w b) : Inv pblen s.consume := by
  have hok := h.consumer
  rw [hc] at hok
  have hne : s.rdIdx ≠ s.wrIdx := by
    intro heq
    rcases hok with ⟨⟨x, q, hq⟩, -⟩ | ⟨hw, -⟩
    · obtain ⟨q1, q2, hq', hl⟩ := h.layout
      rw [← heq] at hl
      rw [hq', hl.eq_nil] at hq
      exact cons_ne_nil _ _ hq.symm
    · exact absurd hw.lt (by omega)
  simp only [consume, hc, if_neg hne]
  exact h.setConsumer hok

theorem Inv.consume_claimWrap (h : Inv pblen s)
    (hc : s.consumer = .claimWrap w b) : Inv pblen s.consume := by
  have hok := h.consumer
  rw [hc] at hok
  simp only [consume, hc]
  rcases hok with ⟨hh, h0, hw⟩ | ⟨hpad, hne, hnone⟩
  · rw [if_neg hw, ← h0]
    exact h.setConsumer hh
  split_ifs with hw
  · exact (h.skip hpad (c := .idle) trivial).refuse (hnone hw)
  refine h.skip hpad ?_
  rcases hq : s.unread with _ | ⟨p, q⟩
  · exact absurd hq (hne hw)
  have hlow := hpad.low
  rw [hq] at hlow
  have hp : p.1 = 0 := hlow.1
  exact ⟨p.2, q, by rw [← hp]; exact hq⟩

theorem Inv.consume_free (h : Inv pblen s) (h16 : pblen < 2 ^ 16)
    (hc : s.consumer = .freeing len) : Inv pblen s.consume := by
  have hok := h.consumer
  rw [hc] at hok
  obtain ⟨⟨x, q, hq, rfl⟩, hend⟩ := hok
  obtain ⟨-, q1, q2, rfl, hl⟩ := h.head hq
  simp only [consume, hc, nextRd_eq h16 hl.packetEnd_le]
  split_ifs with hmark
  · obtain rfl := hl.last_of_mark hmark
    exact h.setConsumer ⟨x, q2, hq, rfl, hl⟩
  · exact h.setConsumer ⟨x, _, hq, rfl, Or.inl ⟨rfl, hend⟩⟩

theorem Inv.consume_freeMark (h : Inv pblen s) (h16 : pblen < 2 ^ 16)
    (hc : s.consumer = .freeMark len) : Inv pblen s.consume := by
  have hok := h.consumer
  rw [hc] at hok
  obtain ⟨x, q, hq, rfl, hl⟩ := hok
  have hpos := lt_packetEnd s.rdIdx x.length
  simp only [consume, hc, nextRd_eq h16 hl.packetEnd_le]
  refine h.setConsumer ⟨x, q, hq, rfl, ?_⟩
  rcases hl with ⟨hl, -⟩ | hl
  · have hwr : packetEnd s.rdIdx x.length = s.wrIdx := hl.packets.2.2
    have hlt := hl.lt
    rw [if_neg (not_not.mpr hwr)]
    exact Or.inl ⟨rfl, by omega⟩
  · have hlt := hl.lt
    rw [if_pos (by omega)]
    exact Or.inr ⟨rfl, hl⟩

theorem Inv.consume (h : Inv pblen s) (h16 : pblen < 2 ^ 16) : Inv pblen s.consume := by
  cases hc : s.consumer with
  | idle => simpa only [SpscPbuf.consume, hc] using h
  | claiming w b => exact h.consume_claim hc
  | claimMark w b => exact h.consume_claimMark hc
  | claimWrap w b => exact h.consume_claimWrap hc
  | claimLen =>
    have hok := h.consumer
    rw [hc] at hok
    obtain ⟨x, q, hq⟩ := hok
    simp only [SpscPbuf.consume, hc]
    exact h.setConsumer ⟨x, q, hq, (h.head hq).1.be16.symm⟩
  | holding len => simpa only [SpscPbuf.consume, hc] using h
  | freeing len => exact h.consume_free h16 hc
  | freeMark len => exact h.consume_freeMark h16 hc
  | storing len r => simpa only [SpscPbuf.consume, hc] using h.release hc

end consumer

/-! ### Runs -/

section run

variable {pblen : ℕ} {s : SpscPbuf}

/-- **Every step keeps the packets in place.** -/
theorem Inv.step (h : Inv pblen s) (h4 : 4 ∣ pblen) (h16 : pblen < 2 ^ 16) {op : Op}
    (hok : s.StepOk op) : Inv pblen (s.step pblen op) := by
  cases op with
  | alloc len =>
    simp only [SpscPbuf.step]
    split
    · exact h.alloc h4 h16 len
    · exact h.alloc h4 h16 len
    · exact h
  | fill i b =>
    simp only [SpscPbuf.step]
    split
    · rename_i n hp
      split_ifs with hi
      · exact h.fill h16 hp hi b
      · exact h
    · exact h
  | commit len =>
    simp only [SpscPbuf.step]
    split
    · rename_i n hp
      split_ifs with hlen
      · exact h.putLen h16 hp hlen.1 hlen.2 hok
      · exact h
    · exact h
  | produce => exact h.produce h16 hok
  | claim =>
    simp only [SpscPbuf.step]
    split
    · exact h.claim
    · exact h.claim
    · exact h
  | free =>
    simp only [SpscPbuf.step]
    split
    · rename_i len hc
      exact h.free h16 hc
    · exact h
  | consume => exact h.consume h16

theorem Inv.run (h : Inv pblen s) (h4 : 4 ∣ pblen) (h16 : pblen < 2 ^ 16) {ops : List Op}
    (hok : RunOk pblen s ops) : Inv pblen (s.run pblen ops) := by
  induction ops generalizing s with
  | nil => exact h
  | cons op ops ih => exact ih (h.step h4 h16 hok.1) hok.2

/-- The packets read are those committed, in order; the packet held is the next one; the area
allocated meets no packet; a claim finds the packet that is there. -/
structure Delivers (pblen : ℕ) (s : SpscPbuf) : Prop where
  order : s.committed.map Prod.snd = s.read ++ s.unread.map Prod.snd
  held : ∀ len, s.consumer = .holding len →
    s.unread.head? = some (s.rdIdx, loadBytes s.data (s.rdIdx + lenSz) len)
  area : ∀ n, s.producer = .allocated n → 0 < n → s.wrIdx + lenSz + n ≤ pblen ∧
    ∀ p ∈ s.unread, s.wrIdx + lenSz + n ≤ p.1 ∨ p.1 + lenSz + p.2.length ≤ s.wrIdx
  refused : ∀ pending ∈ s.refused, pending = false

theorem Layout.room_disjoint {d : Mem} {rd wr n : ℕ} {q1 q2 : List (ℕ × List UInt8)}
    (h : Layout pblen d rd wr q1 q2) (hroom : Room pblen rd wr n) :
    wr + n + 4 ≤ pblen ∧ ∀ p ∈ q1 ++ q2, wr + n + 4 ≤ p.1 ∨ p.1 + p.2.length + 4 ≤ wr := by
  have hend := lt_packetEnd wr n
  rcases h with ⟨h, rfl⟩ | h
  · have hs := hroom.straight h.le
    refine ⟨by omega, fun p hp => Or.inr ?_⟩
    rw [append_nil] at hp
    exact (h.packets.bounds hp).2
  have hs := hroom.wrapped h.lt
  refine ⟨by have := h.rd_le; omega, fun p hp => ?_⟩
  rcases mem_append.mp hp with hp | hp
  · obtain ⟨e, -, hq, -⟩ := h.high
    have := hq.bounds hp
    exact Or.inl (by omega)
  · exact Or.inr (h.low.bounds hp).2

theorem Inv.delivers (h : Inv pblen s) : Delivers pblen s := by
  refine ⟨h.order, fun len hc => ?_, fun n hp h0 => ?_, h.refused⟩
  · have hok := h.consumer
    rw [hc] at hok
    obtain ⟨x, q, hq, rfl⟩ := hok
    rw [hq, (h.head hq).1.body, List.head?_cons]
  have hok := h.producer
  rw [hp] at hok
  obtain ⟨q1, q2, hq, hl⟩ := h.layout
  obtain ⟨hin, hdisj⟩ := hl.room_disjoint (hok.2 h0)
  refine ⟨by unfold lenSz; omega, fun p hp => ?_⟩
  rw [hq] at hp
  have := hdisj p hp
  unfold lenSz
  omega

end run

end SpscPbuf

open SpscPbuf (Op RunOk init Delivers run Inv maxLen)

/-- **Packets are read as they were committed**, for every data length that is a multiple of 4 and
below 65536, whatever the memory holds, and every interleaving whose steps meet `StepOk`: in order
and unmodified; the area handed to the producer meets no packet; and no claim comes back empty when
there was one. -/
theorem spscPbuf_fifo (pblen : ℕ) (h4 : 4 ∣ pblen) (h16 : pblen < 65536) (data : Mem)
    (ops : List Op) (hok : RunOk pblen (init data) ops) :
    Delivers pblen (run pblen (init data) ops) :=
  ((Inv.init pblen data).run h4 h16 hok).delivers

instance decidableStepOk (s : SpscPbuf) (op : Op) : Decidable (s.StepOk op) :=
  match op with
  | .commit len => inferInstanceAs (Decidable (len = maxLen → s.wrIdx = 0))
  | .produce => inferInstanceAs (Decidable (s.publishing = true → s.mistaken = false))
  | .alloc _ => inferInstanceAs (Decidable True)
  | .fill _ _ => inferInstanceAs (Decidable True)
  | .claim => inferInstanceAs (Decidable True)
  | .free => inferInstanceAs (Decidable True)
  | .consume => inferInstanceAs (Decidable True)

instance decidableRunOk (pblen : ℕ) (s : SpscPbuf) :
    (ops : List Op) → Decidable (RunOk pblen s ops)
  | [] => inferInstanceAs (Decidable True)
  | op :: ops =>
    let _ := decidableRunOk pblen (s.step pblen op) ops
    inferInstanceAs (Decidable (s.StepOk op ∧ RunOk pblen (s.step pblen op) ops))

/-- Two packets through an area of 20 bytes, the second one after padding. -/
def spscWrapRun : List Op :=
  [.alloc 5, .fill 0 7, .commit 5, .produce, .claim, .consume, .consume, .free, .consume,
    .consume, .alloc 5, .produce, .produce, .fill 0 9, .commit 3, .produce, .claim, .consume,
    .consume, .consume, .consume]

theorem spscPbuf_fifo_padding :
    RunOk 20 (init fun _ => 0) spscWrapRun ∧ Delivers 20 (run 20 (init fun _ => 0) spscWrapRun) :=
  ⟨by decide +kernel,
    spscPbuf_fifo 20 (by decide) (by decide) (fun _ => 0) spscWrapRun (by decide +kernel)⟩

example : (run 20 (init fun _ => 0) spscWrapRun).consumer = .holding 3 := by
  decide +kernel

/-- The producer publishes where the consumer has just loaded a stale `0xFF`. -/
def spscRaceRun : List Op :=
  [.alloc 1, .fill 0 1, .commit 1, .produce, .claim, .consume, .consume, .free, .consume,
    .alloc 1, .fill 0 2, .commit 1, .produce, .consume, .consume, .claim, .consume, .consume,
    .free, .consume, .consume]

/-- **A stale byte taken for padding loses a packet**: the first one is read twice, the second
never. -/
theorem spscPbuf_free_race :
    (run 32 (init fun _ => 0xFF) spscRaceRun).committed = [(0, [1]), (8, [2])] ∧
      (run 32 (init fun _ => 0xFF) spscRaceRun).read = [[1], [1]] := by
  decide +kernel

/-- A packet of length `SPSC_PBUF_MAX_LEN` after one of a single byte. -/
def spscLongestRun : List Op :=
  [.alloc 1, .commit 1, .produce, .claim, .consume, .consume, .free, .consume, .consume,
    .alloc 0xFF00, .commit 0xFF00, .produce, .claim, .consume, .consume, .consume, .consume]

/-- **The longest packet is taken for padding**, and the consumer holds one that it has freed. -/
theorem spscPbuf_longest_skipped :
    (run 65532 (init fun _ => 0) spscLongestRun).unread.map Prod.fst = [8] ∧
      (run 65532 (init fun _ => 0) spscLongestRun).rdIdx = 0 ∧
      (run 65532 (init fun _ => 0) spscLongestRun).consumer = .holding 1 := by
  decide +kernel

end TlZephyr
