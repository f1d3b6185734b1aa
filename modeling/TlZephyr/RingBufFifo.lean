import TlZephyr.RingBuf

/-!
# Ring Buffer as a Queue of Bytes

What a user of the ring buffer sees. The user claims areas for writing and for reading, stores to
and loads from the bytes it holds, and finishes as many of them as it likes; or it has bytes copied
by `ring_buf_put`, `ring_buf_get` and `ring_buf_peek`. A run of these calls is compared with
`RingFifo`, a queue with bytes claimed behind it and a number of bytes claimed at its front.

The copying functions finish what they copied, counted from the tail. They are for a side that
has no claim open: with one open they finish the bytes of the claim instead.
-/

namespace TlZephyr

open Memory Word32 List Ring

/-! ### Use -/

/-- A ring buffer and the positions of its bytes that the user holds. -/
structure RingBufUser where
  buf : RingBuf
  writable : List ℕ
  readable : List ℕ

/-- A call, or an access to a byte of the claimed areas. -/
inductive RingBufOp
  | putClaim (size : ℕ)
  | store (i : ℕ) (byte : UInt8)
  | putFinish (size : ℕ)
  | getClaim (size : ℕ)
  | load (i : ℕ)
  | getFinish (size : ℕ)
  | put (data : List UInt8)
  | get (size : ℕ)
  | peek (size : ℕ)
deriving DecidableEq, Repr

inductive RingBufResult
  | area (start size : ℕ)
  | none
  | code (rc : ℤ)
  | count (n : ℕ)
  | bytes (bytes : List UInt8)
deriving DecidableEq, Repr

namespace RingBufUser

def init (size : ℕ) (buffer : Mem) : RingBufUser := ⟨RingBuf.init size buffer, [], []⟩

/-- A finish ends all claims of the writer, if it is accepted. -/
def afterPutFinish (u : RingBufUser) (r : ℤ × RingBuf) : RingBufUser × RingBufResult :=
  ({ u with buf := r.2, writable := if r.1 = 0 then [] else u.writable }, .code r.1)

/-- A finish ends all claims of the reader, if it is accepted. -/
def afterGetFinish (u : RingBufUser) (r : ℤ × RingBuf) : RingBufUser × RingBufResult :=
  ({ u with buf := r.2, readable := if r.1 = 0 then [] else u.readable }, .code r.1)

def step (u : RingBufUser) : RingBufOp → RingBufUser × RingBufResult
  | .putClaim size =>
    let c := u.buf.putClaim size
    ({ u with
        buf := { u.buf with put := c.2.2 }
        writable := u.writable ++ List.range' c.2.1 c.1 }, .area c.2.1 c.1)
  | .store i byte =>
    match u.writable[i]? with
    | none => (u, .none)
    | some pos => ({ u with buf := { u.buf with buffer := storeBytes u.buf.buffer pos [byte] } }, .none)
  | .putFinish size => u.afterPutFinish (u.buf.putFinish size)
  | .getClaim size =>
    let c := u.buf.getClaim size
    ({ u with
        buf := { u.buf with get := c.2.2 }
        readable := u.readable ++ List.range' c.2.1 c.1 }, .area c.2.1 c.1)
  | .load i =>
    match u.readable[i]? with
    | none => (u, .none)
    | some pos => (u, .bytes [u.buf.buffer pos])
  | .getFinish size => u.afterGetFinish (u.buf.getFinish size)
  | .put data =>
    let r := u.buf.putBytes data
    ({ u with buf := r.2, writable := [] }, .count r.1)
  | .get size =>
    let r := u.buf.getBytes size
    ({ u with buf := r.2, readable := [] }, .bytes r.1)
  | .peek size =>
    let r := u.buf.peekBytes size
    ({ u with buf := r.2, readable := [] }, .bytes r.1)

def run (u : RingBufUser) : List RingBufOp → RingBufUser × List RingBufResult
  | [] => (u, [])
  | op :: ops =>
    let r := (u.step op).1.run ops
    (r.1, (u.step op).2 :: r.2)

end RingBufUser

/-- The copying functions are called with no claim of their side open. -/
def RingBufOp.Allowed (u : RingBufUser) : RingBufOp → Prop
  | .put _ => u.writable = []
  | .get _ => u.readable = []
  | .peek _ => u.readable = []
  | _ => True

def RingBufUser.Allowed (u : RingBufUser) : List RingBufOp → Prop
  | [] => True
  | op :: ops => op.Allowed u ∧ (u.step op).1.Allowed ops

instance (u : RingBufUser) : (op : RingBufOp) → Decidable (op.Allowed u)
  | .put _ => inferInstanceAs (Decidable (u.writable = []))
  | .get _ => inferInstanceAs (Decidable (u.readable = []))
  | .peek _ => inferInstanceAs (Decidable (u.readable = []))
  | .putClaim _ => .isTrue trivial
  | .store _ _ => .isTrue trivial
  | .putFinish _ => .isTrue trivial
  | .getClaim _ => .isTrue trivial
  | .load _ => .isTrue trivial
  | .getFinish _ => .isTrue trivial

instance decidableRingBufAllowed :
    (u : RingBufUser) → (ops : List RingBufOp) → Decidable (u.Allowed ops)
  | _, [] => .isTrue trivial
  | u, op :: ops =>
    have := decidableRingBufAllowed (u.step op).1 ops
    inferInstanceAs (Decidable (_ ∧ _))

/-- Positions of the finished bytes not yet got. -/
def RingBuf.unread (buf : RingBuf) : List ℕ :=
  contents id buf.size (sub32 buf.get.tail buf.get.base) (sub32 buf.put.tail buf.get.tail)

/-! ### Queue -/

/-- The bytes in the queue, those claimed behind it, and how many are claimed at its front. -/
structure RingFifo where
  queue : List UInt8
  claimed : List UInt8
  read : ℕ

namespace RingFifo

/-- What each call may do to the queue, and return. The bytes of a fresh area are any. -/
inductive Step (size : ℕ) : RingFifo → RingBufOp → RingBufResult → RingFifo → Prop
  | putClaim {f : RingFifo} {n start : ℕ} {area : List UInt8} (hn : area.length ≤ n)
      (hinside : start + area.length ≤ size)
      (hroom : f.queue.length + f.claimed.length + area.length ≤ size)
      (hempty : area = [] → n = 0 ∨ f.queue.length + f.claimed.length = size) :
      Step size f (.putClaim n) (.area start area.length) { f with claimed := f.claimed ++ area }
  | store (f : RingFifo) (i : ℕ) (byte : UInt8) :
      Step size f (.store i byte) .none { f with claimed := f.claimed.set i byte }
  | putFinish {f : RingFifo} {n : ℕ} (h : n ≤ f.claimed.length) :
      Step size f (.putFinish n) (.code 0) ⟨f.queue ++ f.claimed.take n, [], f.read⟩
  | putReject {f : RingFifo} {n : ℕ} (h : f.claimed.length < n) :
      Step size f (.putFinish n) (.code (-EINVAL)) f
  | getClaim {f : RingFifo} {n start k : ℕ} (hn : k ≤ n) (hinside : start + k ≤ size)
      (hthere : f.read + k ≤ f.queue.length) (hempty : k = 0 → n = 0 ∨ f.read = f.queue.length) :
      Step size f (.getClaim n) (.area start k) { f with read := f.read + k }
  | load {f : RingFifo} {i : ℕ} {byte : UInt8} (h : i < f.read)
      (hbyte : f.queue[i]? = some byte) : Step size f (.load i) (.bytes [byte]) f
  | loadNone {f : RingFifo} {i : ℕ} (h : f.read ≤ i) : Step size f (.load i) .none f
  | getFinish {f : RingFifo} {n : ℕ} (h : n ≤ f.read) :
      Step size f (.getFinish n) (.code 0) { f with queue := f.queue.drop n, read := 0 }
  | getReject {f : RingFifo} {n : ℕ} (h : f.read < n) :
      Step size f (.getFinish n) (.code (-EINVAL)) f
  | put {f : RingFifo} (data : List UInt8) (h : f.claimed = []) :
      Step size f (.put data) (.count (min data.length (size - f.queue.length)))
        { f with queue := f.queue ++ data.take (size - f.queue.length) }
  | get {f : RingFifo} (n : ℕ) (h : f.read = 0) :
      Step size f (.get n) (.bytes (f.queue.take n)) { f with queue := f.queue.drop n }
  | peek {f : RingFifo} (n : ℕ) (h : f.read = 0) :
      Step size f (.peek n) (.bytes (f.queue.take n)) f

inductive Run (size : ℕ) : RingFifo → List RingBufOp → List RingBufResult → RingFifo → Prop
  | nil (f : RingFifo) : Run size f [] [] f
  | cons {f g h : RingFifo} {op : RingBufOp} {r : RingBufResult} {ops : List RingBufOp}
      {rs : List RingBufResult} (head : Step size f op r g) (tail : Run size g ops rs h) :
      Run size f (op :: ops) (r :: rs) h

end RingFifo

/-! ### Simulation -/

/-- The buffer shows the queue: its bytes, then those claimed, of which the user holds the
positions. -/
structure RingBufUser.ShowsAt (u : RingBufUser) (f : RingFifo) (p pb g gb : ℕ) : Prop where
  mid : u.buf.Mid (p + f.claimed.length) p pb (g + f.read) g gb
  count : p = g + f.queue.length
  bytes : contents u.buf.buffer u.buf.size g (f.queue.length + f.claimed.length) =
    f.queue ++ f.claimed
  writable : u.writable = contents id u.buf.size p f.claimed.length
  readable : u.readable = contents id u.buf.size g f.read

def RingBufUser.Shows (u : RingBufUser) (f : RingFifo) : Prop :=
  ∃ p pb g gb, u.ShowsAt f p pb g gb

namespace RingBufUser.ShowsAt

variable {u : RingBufUser} {f : RingFifo} {p pb g gb : ℕ}

section

variable (h : u.ShowsAt f p pb g gb)
include h

theorem room : f.queue.length + f.claimed.length ≤ u.buf.size ∧ f.read ≤ f.queue.length := by
  have h1 := h.mid.room
  have h2 := h.mid.order
  have h3 := h.count
  omega

theorem queue_eq : contents u.buf.buffer u.buf.size g f.queue.length = f.queue := by
  have hbytes := congrArg (List.take f.queue.length) h.bytes
  rwa [take_contents _ _ _ (by omega), take_left] at hbytes

theorem openPut {k x : ℕ} (hx : x = p + f.claimed.length)
    {put : RingBufIndex} (hput : put.At u.buf.size (x + k) p pb) (hroom : x + k ≤ g + u.buf.size) :
    ShowsAt ⟨{ u.buf with put := put }, u.writable ++ contents id u.buf.size x k, u.readable⟩
      { f with claimed := f.claimed ++ contents u.buf.buffer u.buf.size x k } p pb g gb := by
  have hlen : (f.claimed ++ contents u.buf.buffer u.buf.size x k).length =
      f.claimed.length + k := by
    rw [length_append, length_contents]
  have hadd : x + k = p + (f.claimed.length + k) := by omega
  refine ⟨?_, h.count, ?_, ?_, h.readable⟩
  · rw [hlen, ← hadd]
    exact ⟨h.mid.size_lt, hput, h.mid.get, h.mid.order, hroom⟩
  · have hstart : g + (f.queue.length + f.claimed.length) = x := by
      have := h.count
      omega
    rw [hlen, ← Nat.add_assoc, contents_add, h.bytes, hstart, append_assoc]
  · rw [hlen, contents_add, h.writable, hx]

theorem openGet {k y : ℕ} (hy : y = g + f.read) {get : RingBufIndex}
    (hget : get.At u.buf.size (y + k) g gb) (hthere : y + k ≤ p) :
    ShowsAt ⟨{ u.buf with get := get }, u.writable, u.readable ++ contents id u.buf.size y k⟩
      { f with read := f.read + k } p pb g gb := by
  have hadd : y + k = g + (f.read + k) := by omega
  refine ⟨?_, h.count, h.bytes, h.writable, ?_⟩
  · rw [hadd] at hget hthere
    exact ⟨h.mid.size_lt, h.mid.put, hget, hthere, h.mid.room⟩
  · rw [contents_add, h.readable, hy]

theorem closePut {n b : ℕ} {put : RingBufIndex}
    (hput : put.At u.buf.size (p + n) (p + n) b) (hn : n ≤ f.claimed.length) :
    ShowsAt ⟨{ u.buf with put := put }, [], u.readable⟩ ⟨f.queue ++ f.claimed.take n, [], f.read⟩
      (p + n) b g gb := by
  have hroom := h.mid.room
  have horder := h.mid.order
  have hcount := h.count
  have hlen : (f.queue ++ f.claimed.take n).length = f.queue.length + n := by
    rw [length_append, length_take, Nat.min_eq_left hn]
  refine ⟨⟨h.mid.size_lt, hput, h.mid.get, by simp only; omega, by simp only [length_nil]; omega⟩,
    by simp only [hlen]; omega, ?_, rfl, h.readable⟩
  have hbytes := congrArg (List.take (f.queue.length + n)) h.bytes
  rw [take_contents _ _ _ (by omega), take_length_add_append] at hbytes
  simpa only [hlen, length_nil, Nat.add_zero, append_nil] using hbytes

theorem closeGet {n b : ℕ} {get : RingBufIndex}
    (hget : get.At u.buf.size (g + n) (g + n) b) (hn : n ≤ f.queue.length) :
    ShowsAt ⟨{ u.buf with get := get }, u.writable, []⟩ { f with queue := f.queue.drop n, read := 0 }
      p pb (g + n) b := by
  have hroom := h.mid.room
  have hcount := h.count
  have hlen : (f.queue.drop n).length = f.queue.length - n := length_drop
  refine ⟨⟨h.mid.size_lt, h.mid.put, hget, by simp only; omega, by simp only; omega⟩,
    by simp only [hlen]; omega, ?_, h.writable, rfl⟩
  have hbytes := congrArg (List.drop n) h.bytes
  rw [drop_contents _ _ _ (by omega), drop_append_of_le_length hn] at hbytes
  have hsub : f.queue.length + f.claimed.length - n = f.queue.length - n + f.claimed.length := by
    omega
  rwa [hsub, ← hlen] at hbytes

theorem putClaim (hpos : 0 < u.buf.size) (n : ℕ) :
    ∃ f', f.Step u.buf.size (.putClaim n) (u.step (.putClaim n)).2 f' ∧
      (u.step (.putClaim n)).1.ShowsAt f' p pb g gb := by
  have hroom := h.mid.room
  have hcount := h.count
  obtain ⟨x, hx⟩ : ∃ x, x = p + f.claimed.length := ⟨_, rfl⟩
  have hmid := h.mid
  rw [← hx] at hmid hroom
  obtain ⟨hsize, hstart, hput⟩ := hmid.put.claim hmid.size_lt (min n u.buf.spaceGet)
    (by rw [hmid.spaceGet]; omega)
  have hmod := Nat.mod_lt x hpos
  have hspace := hmid.spaceGet
  simp only [step, RingBuf.putClaim]
  generalize ringBufAreaClaim u.buf.size u.buf.put (min n u.buf.spaceGet) = c at hsize hstart hput ⊢
  have hfit : x % u.buf.size + c.1 ≤ u.buf.size := by omega
  have harea : (contents u.buf.buffer u.buf.size x c.1).length = c.1 :=
    length_contents _ _ _ _
  rw [hstart, ← contents_id_of_le hfit]
  refine ⟨_, ?_, h.openPut hx hput (by omega)⟩
  have hstep : f.Step u.buf.size (.putClaim n)
      (.area (x % u.buf.size) (contents u.buf.buffer u.buf.size x c.1).length)
      { f with claimed := f.claimed ++ contents u.buf.buffer u.buf.size x c.1 } := by
    refine .putClaim ?_ ?_ ?_ fun hnil => ?_
    · omega
    · omega
    · omega
    · rw [hnil, length_nil] at harea
      omega
  rwa [harea] at hstep

theorem getClaim (hpos : 0 < u.buf.size) (n : ℕ) :
    ∃ f', f.Step u.buf.size (.getClaim n) (u.step (.getClaim n)).2 f' ∧
      (u.step (.getClaim n)).1.ShowsAt f' p pb g gb := by
  have hroom := h.mid.room
  have horder := h.mid.order
  have hcount := h.count
  obtain ⟨y, hy⟩ : ∃ y, y = g + f.read := ⟨_, rfl⟩
  have hmid := h.mid
  rw [← hy] at hmid horder
  obtain ⟨hsize, hstart, hget⟩ := hmid.get.claim hmid.size_lt (min n u.buf.sizeGet)
    (by rw [hmid.sizeGet]; omega)
  have hmod := Nat.mod_lt y hpos
  have hthere := hmid.sizeGet
  simp only [step, RingBuf.getClaim]
  generalize ringBufAreaClaim u.buf.size u.buf.get (min n u.buf.sizeGet) = c at hsize hstart hget ⊢
  have hfit : y % u.buf.size + c.1 ≤ u.buf.size := by omega
  rw [hstart, ← contents_id_of_le hfit]
  exact ⟨_, .getClaim (by omega) hfit (by omega) (by omega), h.openGet hy hget (by omega)⟩

theorem store (i : ℕ) (byte : UInt8) : (u.step (.store i byte)).2 = .none ∧
      (u.step (.store i byte)).1.ShowsAt { f with claimed := f.claimed.set i byte } p pb g gb := by
  have hroom := h.room
  have hcount := h.count
  rcases hget : u.writable[i]? with _ | pos
  · -- not a byte of the claims
    have hlen : f.claimed.length ≤ i := by
      rw [List.getElem?_eq_none_iff, h.writable, length_contents] at hget
      exact hget
    simp only [step, hget, set_eq_of_length_le hlen]
    exact ⟨trivial, h⟩
  obtain ⟨hi, rfl⟩ : i < f.claimed.length ∧ pos = (p + i) % u.buf.size := by
    have hi := (List.getElem?_eq_some_iff.mp hget).1
    rw [h.writable, length_contents] at hi
    rw [h.writable, getElem?_contents _ _ _ _ hi] at hget
    exact ⟨hi, (Option.some.inj hget).symm⟩
  simp only [step, hget]
  refine ⟨trivial, ⟨?_, h.count, ?_, ?_, h.readable⟩⟩
  · simp only [length_set]
    exact ⟨h.mid.size_lt, h.mid.put, h.mid.get, h.mid.order, h.mid.room⟩
  · have hpos : (p + i) % u.buf.size = (g + (f.queue.length + i)) % u.buf.size := by
      rw [hcount, Nat.add_assoc]
    have hset := contents_set (r := g) (i := f.queue.length + i)
      (n := u.buf.size) (by omega : f.queue.length + i < f.queue.length + f.claimed.length)
      hroom.1 fun k hk => storeBytes_singleton_of_ne (m := u.buf.buffer) (b := byte) hk
    rw [h.bytes, storeBytes_singleton_self, set_append_right _ _ (by omega),
      Nat.add_sub_cancel_left] at hset
    simp only [length_set, hpos]
    exact hset
  · simp only [length_set]
    exact h.writable

theorem load (i : ℕ) : f.Step u.buf.size (.load i) (u.step (.load i)).2 f ∧
      (u.step (.load i)).1.ShowsAt f p pb g gb := by
  have hroom := h.room
  rcases hget : u.readable[i]? with _ | pos
  · rw [List.getElem?_eq_none_iff, h.readable, length_contents] at hget
    have hnone : u.readable[i]? = none := by
      rw [List.getElem?_eq_none_iff, h.readable, length_contents]
      exact hget
    simp only [step, hnone]
    exact ⟨.loadNone hget, h⟩
  obtain ⟨hi, rfl⟩ : i < f.read ∧ pos = (g + i) % u.buf.size := by
    have hi := (List.getElem?_eq_some_iff.mp hget).1
    rw [h.readable, length_contents] at hi
    rw [h.readable, getElem?_contents _ _ _ _ hi] at hget
    exact ⟨hi, (Option.some.inj hget).symm⟩
  simp only [step, hget]
  refine ⟨.load hi ?_, h⟩
  have hbyte := congrArg (·[i]?) h.queue_eq
  rw [getElem?_contents _ _ _ _ (by omega)] at hbyte
  exact hbyte.symm

theorem putFinish (n : ℕ) : ∃ f', f.Step u.buf.size (.putFinish n) (u.step (.putFinish n)).2 f' ∧
      (u.step (.putFinish n)).1.Shows f' := by
  by_cases hn : n ≤ f.claimed.length
  · obtain ⟨put, b, hat, hput⟩ := h.mid.putFinish (n := n) (by omega)
    rw [step, hput]
    exact ⟨_, .putFinish hn, p + n, b, g, gb, h.closePut hat hn⟩
  · have hput := h.mid.putFinish_of_lt (n := n) (by omega)
    rw [step, hput]
    exact ⟨f, .putReject (by omega), p, pb, g, gb, h⟩

theorem getFinish (n : ℕ) : ∃ f', f.Step u.buf.size (.getFinish n) (u.step (.getFinish n)).2 f' ∧
      (u.step (.getFinish n)).1.Shows f' := by
  have hroom := h.room
  by_cases hn : n ≤ f.read
  · obtain ⟨get, b, hat, hget⟩ := h.mid.getFinish (n := n) (by omega)
    rw [step, hget]
    exact ⟨_, .getFinish hn, p, pb, g + n, b, h.closeGet hat (by omega)⟩
  · have hget := h.mid.getFinish_of_lt (n := n) (by omega)
    rw [step, hget]
    exact ⟨f, .getReject (by omega), p, pb, g, gb, h⟩

theorem queue_between : f.queue.length = p - g := by
  have := h.count
  omega

theorem put (hidle : u.writable = []) (data : List UInt8) :
    ∃ f', f.Step u.buf.size (.put data) (u.step (.put data)).2 f' ∧
      (u.step (.put data)).1.Shows f' ∧ (u.step (.put data)).1.buf.size = u.buf.size := by
  have hnone : f.claimed = [] := by
    rw [h.writable] at hidle
    simpa using congrArg List.length hidle
  have hmid := h.mid
  have hlen := h.queue_between
  have hcount := h.count
  rw [hnone, length_nil, Nat.add_zero] at hmid
  obtain ⟨buf', b, hput, hsize, hmid', hcontents⟩ := hmid.putBytes data rfl
  rw [← hlen] at hput hmid' hcontents
  rw [h.queue_eq] at hcontents
  rw [step, hput]
  generalize hk : min data.length (u.buf.size - f.queue.length) = k at hmid' hcontents
  have htake : data.take (u.buf.size - f.queue.length) = data.take k := by
    rw [← hk, take_eq_take_iff]
    omega
  have hstep := @RingFifo.Step.put u.buf.size f data hnone
  rw [hk, htake] at hstep
  refine ⟨_, hstep, ⟨p + k, b, g, gb, ?_, ?_, ?_, ?_, ?_⟩, hsize⟩
  · simp only [hnone, length_nil, Nat.add_zero]
    exact hmid'
  · rw [length_append, length_take]
    omega
  · have hadd : (f.queue ++ data.take k).length = p + k - g := by
      rw [length_append, length_take]
      omega
    simp only [hnone, length_nil, Nat.add_zero, hadd, hsize, append_nil]
    exact hcontents
  · simp only [hnone, length_nil, contents_zero]
  · simp only [hsize]
    exact h.readable

theorem read_eq_zero (hidle : u.readable = []) : f.read = 0 := by
  rw [h.readable] at hidle
  simpa using congrArg List.length hidle

theorem take_queue (n : ℕ) :
    contents u.buf.buffer u.buf.size g (min n (p - g)) = f.queue.take n := by
  rw [← h.queue_between, ← take_contents _ _ _ (Nat.min_le_right _ _), h.queue_eq, take_eq_take_iff]
  omega

theorem get (hidle : u.readable = []) (n : ℕ) :
    ∃ f', f.Step u.buf.size (.get n) (u.step (.get n)).2 f' ∧
      (u.step (.get n)).1.Shows f' ∧ (u.step (.get n)).1.buf.size = u.buf.size := by
  have hread := h.read_eq_zero hidle
  have hmid := h.mid
  have hlen := h.queue_between
  have hcount := h.count
  rw [hread, Nat.add_zero] at hmid
  obtain ⟨buf', b, hget, hsize, hbuffer, hmid'⟩ := hmid.getBytes (Eq.refl (min n (p - g)))
  rw [h.take_queue] at hget
  rw [step, hget]
  have hdrop : f.queue.drop n = f.queue.drop (min n (p - g)) := by
    rcases Nat.le_total n (p - g) with hle | hle
    · rw [Nat.min_eq_left hle]
    · rw [Nat.min_eq_right hle, drop_of_length_le (by omega), drop_of_length_le (by omega)]
  have hstep := @RingFifo.Step.get u.buf.size f n hread
  rw [hdrop] at hstep
  generalize hk : min n (p - g) = k at hmid' hstep
  refine ⟨_, hstep, ⟨p, pb, g + k, b, ?_, ?_, ?_, ?_, ?_⟩, hsize⟩
  · simp only [hread, Nat.add_zero]
    exact hmid'
  · simp only [length_drop]
    omega
  · have hbytes := congrArg (List.drop k) h.bytes
    rw [drop_contents _ _ _ (by omega), drop_append_of_le_length (by omega)] at hbytes
    have hsub : (f.queue.drop k).length + f.claimed.length =
        f.queue.length + f.claimed.length - k := by
      rw [length_drop]
      omega
    simp only [hsub, hsize, hbuffer]
    exact hbytes
  · simp only [hsize]
    exact h.writable
  · simp only [hread, contents_zero]

theorem peek (hidle : u.readable = []) (n : ℕ) :
    f.Step u.buf.size (.peek n) (u.step (.peek n)).2 f ∧
      (u.step (.peek n)).1.Shows f ∧ (u.step (.peek n)).1.buf.size = u.buf.size := by
  have hread := h.read_eq_zero hidle
  have hmid := h.mid
  rw [hread, Nat.add_zero] at hmid
  obtain ⟨buf', b, hpeek, hsize, hbuffer, hmid'⟩ := hmid.peekBytes (Eq.refl (min n (p - g)))
  rw [h.take_queue] at hpeek
  rw [step, hpeek]
  refine ⟨.peek n hread, ⟨p, pb, g, b, ?_, h.count, ?_, ?_, ?_⟩, hsize⟩
  · simp only [hread, Nat.add_zero]
    exact hmid'
  · simp only [hsize, hbuffer]
    exact h.bytes
  · simp only [hsize]
    exact h.writable
  · simp only [hread, contents_zero]

end

end RingBufUser.ShowsAt

namespace RingBufUser

theorem shows_init {size : ℕ} (hsize : size < 2 ^ 31) (buffer : Mem) :
    (init size buffer).Shows ⟨[], [], 0⟩ := by
  have hat : (⟨0, 0, 0⟩ : RingBufIndex).At size 0 0 0 :=
    ⟨rfl, rfl, rfl, le_rfl, ⟨by omega, by omega⟩, le_rfl, by omega, Nat.dvd_zero _⟩
  exact ⟨0, 0, 0, 0, ⟨hsize, hat, hat, le_rfl, by simp⟩, rfl, rfl, rfl, rfl⟩

variable {u : RingBufUser} {f : RingFifo}

/-- **Every call is a step of the queue.** -/
theorem Shows.step (h : u.Shows f) (hpos : 0 < u.buf.size) (op : RingBufOp) (hop : op.Allowed u) :
    ∃ f', f.Step u.buf.size op (u.step op).2 f' ∧ (u.step op).1.Shows f' ∧
      (u.step op).1.buf.size = u.buf.size := by
  obtain ⟨p, pb, g, gb, h⟩ := h
  cases op with
  | putClaim n =>
    obtain ⟨f', hstep, h'⟩ := h.putClaim hpos n
    exact ⟨f', hstep, ⟨p, pb, g, gb, h'⟩, RingBuf.size_setPut _ _⟩
  | store i byte =>
    obtain ⟨hres, h'⟩ := h.store i byte
    refine ⟨_, ?_, ⟨p, pb, g, gb, h'⟩, ?_⟩
    · rw [hres]
      exact .store f i byte
    · rw [RingBufUser.step]
      rcases u.writable[i]? with _ | pos <;> rfl
  | putFinish n =>
    obtain ⟨f', hstep, h'⟩ := h.putFinish n
    exact ⟨f', hstep, h', RingBuf.size_setPut _ _⟩
  | getClaim n =>
    obtain ⟨f', hstep, h'⟩ := h.getClaim hpos n
    exact ⟨f', hstep, ⟨p, pb, g, gb, h'⟩, RingBuf.size_setGet _ _⟩
  | load i =>
    obtain ⟨hstep, h'⟩ := h.load i
    refine ⟨f, hstep, ⟨p, pb, g, gb, h'⟩, ?_⟩
    rw [RingBufUser.step]
    rcases u.readable[i]? with _ | pos <;> rfl
  | getFinish n =>
    obtain ⟨f', hstep, h'⟩ := h.getFinish n
    exact ⟨f', hstep, h', RingBuf.size_setGet _ _⟩
  | put data => exact h.put hop data
  | get n => exact h.get hop n
  | peek n => exact ⟨f, h.peek hop n⟩

theorem Shows.run (ops : List RingBufOp) (h : u.Shows f)
    (hpos : 0 < u.buf.size) (hops : u.Allowed ops) :
    ∃ f', f.Run u.buf.size ops (u.run ops).2 f' ∧ (u.run ops).1.Shows f' ∧
      (u.run ops).1.buf.size = u.buf.size := by
  induction ops generalizing u f with
  | nil => exact ⟨f, .nil f, h, rfl⟩
  | cons op ops ih =>
    obtain ⟨f', hstep, h', hsize⟩ := h.step hpos op hops.1
    obtain ⟨f'', hrun, h'', hsize'⟩ := ih h' (hsize ▸ hpos) hops.2
    rw [hsize] at hrun hsize'
    exact ⟨f'', .cons hstep hrun, h'', hsize'⟩

theorem Shows.facts (h : u.Shows f) (hpos : 0 < u.buf.size) :
    u.buf.unread.map u.buf.buffer = f.queue ∧
      (∀ i ∈ u.writable, i < u.buf.size ∧ i ∉ u.buf.unread) ∧
      (u.writable = [] → u.readable = [] → u.buf.sizeGet + u.buf.spaceGet = u.buf.size) ∧
      (∀ n, u.writable.length < n → u.buf.putFinish n = (-EINVAL, u.buf)) ∧
      ∀ n, u.readable.length < n → u.buf.getFinish n = (-EINVAL, u.buf) := by
  obtain ⟨p, pb, g, gb, h⟩ := h
  have hroom := h.room
  have hmid := h.mid
  have hcount := h.count
  have hunread : u.buf.unread = contents id u.buf.size g f.queue.length := by
    have hstart : sub32 u.buf.get.tail u.buf.get.base = g % u.buf.size := hmid.get.tail_mod hmid.size_lt hpos
    have hlen : sub32 u.buf.put.tail u.buf.get.tail = f.queue.length := by
      have := hmid.size_lt
      rw [hmid.put.tail, hmid.get.tail, sub32_mod (by omega) (by omega)]
      omega
    rw [RingBuf.unread, hstart, hlen, contents_mod]
  refine ⟨?_, fun i hi => ?_, fun hw hr => ?_, fun n hn => ?_, fun n hn => ?_⟩
  · rw [hunread, map_contents_id, h.queue_eq]
  · rw [h.writable] at hi
    refine ⟨lt_of_mem_contents_id hpos hi, fun hin => ?_⟩
    rw [hunread] at hin
    rw [hcount] at hi
    exact contents_id_disjoint hroom.1 hin hi
  · have hread := h.read_eq_zero hr
    have hclaimed : f.claimed.length = 0 := by
      rw [h.writable] at hw
      simpa using congrArg List.length hw
    rw [hmid.sizeGet, hmid.spaceGet]
    omega
  · rw [h.writable, length_contents] at hn
    exact hmid.putFinish_of_lt (by omega)
  · rw [h.readable, length_contents] at hn
    exact hmid.getFinish_of_lt (by omega)

end RingBufUser

/-- **The ring buffer is a queue of bytes**, for every size, every run and every number of wraps, as
long as each side uses the copying functions with no claim of its own open: bytes come out in order,
claimed areas lie inside the buffer, a finish larger than the claims is refused and changes nothing,
no byte the writer may store to is unread, and the sizes add up. -/
theorem ringBuf_fifo (size : ℕ) (hpos : 0 < size) (hsize : size < 2 ^ 31) (buffer : Mem)
    (ops : List RingBufOp) (hops : (RingBufUser.init size buffer).Allowed ops) (u : RingBufUser)
    (hu : u = ((RingBufUser.init size buffer).run ops).1) :
    ∃ f, RingFifo.Run size ⟨[], [], 0⟩ ops ((RingBufUser.init size buffer).run ops).2 f ∧
      u.buf.unread.map u.buf.buffer = f.queue ∧
      (∀ i ∈ u.writable, i < size ∧ i ∉ u.buf.unread) ∧
      (u.writable = [] → u.readable = [] → u.buf.sizeGet + u.buf.spaceGet = size) ∧
      (∀ n, u.writable.length < n → u.buf.putFinish n = (-EINVAL, u.buf)) ∧
      ∀ n, u.readable.length < n → u.buf.getFinish n = (-EINVAL, u.buf) := by
  have hinit : (RingBufUser.init size buffer).buf.size = size := rfl
  obtain ⟨f, hrun, hshows, hsize'⟩ :=
    (RingBufUser.shows_init hsize buffer).run ops (hinit ▸ hpos) hops
  rw [hinit] at hrun hsize'
  rw [← hu] at hshows hsize'
  have hfacts := hshows.facts (hsize' ▸ hpos)
  rw [hsize'] at hfacts
  exact ⟨f, hrun, hfacts⟩

/-- A buffer of three bytes that wraps, with a claim of four cut to its end. -/
theorem ringBuf_fifo_three : ∃ f, RingFifo.Run 3 ⟨[], [], 0⟩
    [.put [1, 2], .get 1, .putClaim 4, .store 0 3, .putFinish 1, .get 4]
    [.count 2, .bytes [1], .area 2 1, .none, .code 0, .bytes [2, 3]] f := by
  obtain ⟨f, hrun, -⟩ := ringBuf_fifo 3 (by decide) (by decide) (fun _ => 0)
    [.put [1, 2], .get 1, .putClaim 4, .store 0 3, .putFinish 1, .get 4]
    (by decide +kernel) _ rfl
  have hres : ((RingBufUser.init 3 fun _ => 0).run
      [.put [1, 2], .get 1, .putClaim 4, .store 0 3, .putFinish 1, .get 4]).2 =
      [.count 2, .bytes [1], .area 2 1, .none, .code 0, .bytes [2, 3]] := by decide +kernel
  rw [hres] at hrun
  exact ⟨f, hrun⟩

/-- **A put between claim and finish is lost**: it finishes the bytes of the claim. -/
theorem ringBuf_put_in_claim :
    ((RingBufUser.init 8 fun _ => 0).run [.putClaim 2, .put [1, 2], .get 2]).2 =
      [.area 0 2, .count 2, .bytes [0, 0]] := by
  decide +kernel

end TlZephyr
