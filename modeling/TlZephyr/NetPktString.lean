import TlZephyr.Lib.LinkedChain
import TlZephyr.NetPkt

/-!
# Packets as Byte Strings

The buffers of a packet are a chain `l` of distinct buffers (`WF`), and the packet holds the byte
string `str` of their contents. The cursor of a packet stands for an offset into it (`CursorAt`). A
buffer's end and the start of the next buffer with data are the same offset.
-/

namespace TlZephyr

open List Option Function

namespace NetPkt

open Memory LinkedChain

def NetBuf.contents (buf : NetBuf) : List UInt8 := loadBytes buf.data 0 buf.len

def str (bufs : ℕ → NetBuf) (l : List ℕ) : List UInt8 := l.flatMap fun b => (bufs b).contents

/-- The packet consists of the buffers `l`, each but the first referenced only by the one before. -/
structure WF (pkt : Pkt) (l : List ℕ) : Prop where
  chain : Seg (fun b => (pkt.bufs b).frags) pkt.buffer l none
  nodup : l.Nodup
  fits : ∀ b ∈ l, (pkt.bufs b).len ≤ (pkt.bufs b).maxLen
  ref : ∀ b ∈ l, 0 < (pkt.bufs b).ref ∧ (pkt.bufs b).ref < 256
  own : ∀ b ∈ l.tail, (pkt.bufs b).ref = 1

section strings

variable {bufs bufs' : ℕ → NetBuf} {l l₁ l₂ : List ℕ} {b : ℕ} {buf : NetBuf}

@[simp] theorem str_nil : str bufs [] = [] := rfl

@[simp] theorem str_cons : str bufs (b :: l) = (bufs b).contents ++ str bufs l := rfl

@[simp] theorem str_append : str bufs (l₁ ++ l₂) = str bufs l₁ ++ str bufs l₂ :=
  flatMap_append

@[simp] theorem length_contents (buf : NetBuf) : buf.contents.length = buf.len :=
  length_loadBytes _ _ _

theorem str_congr (h : ∀ b ∈ l, (bufs' b).contents = (bufs b).contents) :
    str bufs' l = str bufs l :=
  flatMap_congr h

theorem str_update_of_notMem (hb : b ∉ l) : str (Function.update bufs b buf) l = str bufs l :=
  str_congr fun c hc => by rw [update_of_ne (ne_of_mem_of_not_mem hc hb)]

theorem notMem_of_nodup (h : (l₁ ++ b :: l₂).Nodup) : b ∉ l₁ ∧ b ∉ l₂ := by
  refine ⟨fun hb => ?_, fun hb => ?_⟩
  · exact disjoint_of_nodup_append h hb mem_cons_self
  · exact (nodup_cons.mp (nodup_append.mp h).2.1).1 hb

theorem str_update (h : (l₁ ++ b :: l₂).Nodup) :
    str (Function.update bufs b buf) (l₁ ++ b :: l₂) =
      str bufs l₁ ++ (buf.contents ++ str bufs l₂) := by
  obtain ⟨h₁, h₂⟩ := notMem_of_nodup h
  rw [str_append, str_cons, str_update_of_notMem h₁, str_update_of_notMem h₂, update_self]

end strings

section stores

variable {pkt : Pkt} {l : List ℕ} {b : ℕ} {buf : NetBuf}

@[simp] theorem Pkt.set_bufs_self : (pkt.set b buf).bufs b = buf := update_self _ _ _

theorem Pkt.set_bufs_of_ne {c : ℕ} (h : c ≠ b) : (pkt.set b buf).bufs c = pkt.bufs c :=
  update_of_ne h _ _

theorem WF.set (h : WF pkt l) (hfrags : buf.frags = (pkt.bufs b).frags)
    (hfits : buf.len ≤ buf.maxLen) (href : buf.ref = (pkt.bufs b).ref) : WF (pkt.set b buf) l where
  chain := by
    refine h.chain.congr fun c _ => ?_
    rcases eq_or_ne c b with rfl | hne
    · simp only [Pkt.set, update_self, hfrags]
    · simp only [Pkt.set, update_of_ne hne]
  nodup := h.nodup
  fits c hc := by
    rcases eq_or_ne c b with rfl | hne
    · simpa only [Pkt.set, update_self] using hfits
    · simpa only [Pkt.set, update_of_ne hne] using h.fits c hc
  ref c hc := by
    rcases eq_or_ne c b with rfl | hne
    · simpa only [Pkt.set, update_self, href] using h.ref c hc
    · simpa only [Pkt.set, update_of_ne hne] using h.ref c hc
  own c hc := by
    rcases eq_or_ne c b with rfl | hne
    · simpa only [Pkt.set, update_self, href] using h.own c hc
    · simpa only [Pkt.set, update_of_ne hne] using h.own c hc

end stores

/-! ### Cursor -/

/-- The cursor is at a byte of a buffer, or behind the last one, `n` bytes into the string. -/
def CursorIn (pkt : Pkt) (l₁ : List ℕ) (b : ℕ) (n : ℕ) : Prop :=
  pkt.cursorBuf = some b ∧ n = (str pkt.bufs l₁).length + pkt.cursorPos

/-- The cursor stands for the offset `o`. -/
def CursorAt (pkt : Pkt) (l : List ℕ) (o : ℕ) : Prop :=
  (pkt.cursorBuf = none ∧ o = (str pkt.bufs l).length) ∨
    ∃ l₁ b l₂, l = l₁ ++ b :: l₂ ∧ CursorIn pkt l₁ b o ∧ pkt.cursorPos ≤ (pkt.bufs b).len

/-- The cursor is at the byte at offset `o`, or there is none. -/
def Ready (pkt : Pkt) (l : List ℕ) (o : ℕ) : Prop :=
  (pkt.cursorBuf = none ∧ o = (str pkt.bufs l).length) ∨
    ∃ l₁ b l₂, l = l₁ ++ b :: l₂ ∧ CursorIn pkt l₁ b o ∧ pkt.cursorPos < (pkt.bufs b).len

section cursor

variable {pkt : Pkt} {l l₁ l₂ : List ℕ} {b o fuel : ℕ}

theorem Ready.cursorAt (h : Ready pkt l o) : CursorAt pkt l o := by
  rcases h with h | ⟨l₁, b, l₂, hl, hin, hlt⟩
  · exact .inl h
  · exact .inr ⟨l₁, b, l₂, hl, hin, hlt.le⟩

theorem cursorAt_init (h : WF pkt l) : CursorAt (netPktCursorInit pkt) l 0 := by
  cases l with
  | nil => exact .inl ⟨h.chain, rfl⟩
  | cons b l => exact .inr ⟨[], b, l, rfl, ⟨h.chain.1, rfl⟩, Nat.zero_le _⟩

variable {bufs : ℕ → NetBuf}

theorem jumpLoop_spec {p : Option ℕ}
    (h : Seg (fun b => (bufs b).frags) p l none) (hfuel : l.length ≤ fuel) :
    jumpLoop bufs false fuel p = some (l.find? fun b => decide ((bufs b).len ≠ 0)) := by
  induction l generalizing p fuel with
  | nil =>
    rw [seg_nil] at h
    rw [h]
    cases fuel <;> rfl
  | cons b l ih =>
    obtain ⟨rfl, h⟩ := h
    rcases fuel with _ | fuel
    · simp at hfuel
    rw [jumpLoop, NetBuf.cursorLen, if_neg Bool.false_ne_true, List.find?_cons]
    by_cases hlen : (bufs b).len = 0
    · rw [if_pos hlen, ih h (by simpa using hfuel)]
      simp [hlen]
    · rw [if_neg hlen]
      simp [hlen]

theorem str_eq_nil (h : ∀ b ∈ l, (bufs b).len = 0) : str bufs l = [] := by
  rw [str, flatMap_eq_nil_iff]
  intro b hb
  rw [← length_eq_zero_iff, length_contents, h b hb]

theorem pktCursorJump_spec (h : WF pkt (l₁ ++ b :: l₂)) (hfuel : l₂.length ≤ fuel) :
    ∃ c, pktCursorJump fuel pkt b false = some { pkt with cursorBuf := c, cursorPos := 0 } ∧
      Ready { pkt with cursorBuf := c, cursorPos := 0 } (l₁ ++ b :: l₂)
        ((str pkt.bufs l₁).length + (pkt.bufs b).len) := by
  have hjump := jumpLoop_spec h.chain.drop.2 hfuel
  refine ⟨l₂.find? fun b => decide ((pkt.bufs b).len ≠ 0), by
    simp only [pktCursorJump, hjump, bind_eq_bind, bind_some, Option.pure_def], ?_⟩
  cases hfind : l₂.find? fun b => decide ((pkt.bufs b).len ≠ 0) with
  | none =>
    left
    rw [List.find?_eq_none] at hfind
    have hnil : str pkt.bufs l₂ = [] := str_eq_nil fun c hc => by simpa using hfind c hc
    refine ⟨rfl, ?_⟩
    simp [hnil]
  | some c =>
    right
    obtain ⟨hc, front, rest, rfl, hfront⟩ := List.find?_eq_some_iff_append.mp hfind
    have hnil : str pkt.bufs front = [] := str_eq_nil fun d hd => by simpa using hfront d hd
    refine ⟨l₁ ++ b :: front, c, rest, by simp, ⟨rfl, ?_⟩, Nat.pos_of_ne_zero (by simpa using hc)⟩
    simp [hnil]

/-- **The cursor moves to a byte at the same offset.** -/
theorem pktCursorAdvance_spec (h : WF pkt l) (hcur : CursorAt pkt l o) (hfuel : l.length ≤ fuel) :
    ∃ c pos, pktCursorAdvance fuel pkt false = some { pkt with cursorBuf := c, cursorPos := pos } ∧
      Ready { pkt with cursorBuf := c, cursorPos := pos } l o := by
  rcases hcur with ⟨hnone, ho⟩ | ⟨l₁, b, l₂, rfl, ⟨hbuf, ho⟩, hle⟩
  · refine ⟨pkt.cursorBuf, pkt.cursorPos, ?_, .inl ⟨hnone, ho⟩⟩
    simp only [pktCursorAdvance, hnone]
    rw [← hnone]
  rw [pktCursorAdvance, hbuf]
  by_cases hend : pkt.cursorPos = (pkt.bufs b).len
  · have hfuel' : l₂.length ≤ fuel := by
      simp at hfuel
      omega
    obtain ⟨c, hjump, hready⟩ := pktCursorJump_spec h hfuel'
    refine ⟨c, 0, ?_, ?_⟩
    · simp [NetBuf.cursorLen, if_pos hend, hjump]
    · rw [ho, hend]
      exact hready
  · refine ⟨pkt.cursorBuf, pkt.cursorPos, ?_, .inr ⟨l₁, b, l₂, rfl, ⟨hbuf, ho⟩, by
      dsimp only
      omega⟩⟩
    simp [NetBuf.cursorLen, if_neg hend]

theorem pktCursorUpdate_spec {length : ℕ} (write : Bool) (h : WF pkt (l₁ ++ b :: l₂))
    (hover : pkt.overwrite = true) (hbuf : pkt.cursorBuf = some b)
    (hle : pkt.cursorPos + length ≤ (pkt.bufs b).len) (hfuel : l₂.length ≤ fuel) :
    ∃ c pos, pktCursorUpdate fuel pkt b length write =
        some { pkt with cursorBuf := c, cursorPos := pos } ∧
      CursorAt { pkt with cursorBuf := c, cursorPos := pos } (l₁ ++ b :: l₂)
        ((str pkt.bufs l₁).length + pkt.cursorPos + length) := by
  have hwrite : (write && !pkt.overwrite) = false := by simp [hover]
  simp only [pktCursorUpdate, hwrite, NetBuf.cursorLen, Bool.false_eq_true, if_false]
  split_ifs with hend
  · obtain ⟨c, hjump, hready⟩ := pktCursorJump_spec h hfuel
    refine ⟨c, 0, hjump, ?_⟩
    have ho : (str pkt.bufs l₁).length + pkt.cursorPos + length =
        (str pkt.bufs l₁).length + (pkt.bufs b).len := by omega
    rw [ho]
    exact hready.cursorAt
  · exact ⟨pkt.cursorBuf, _, rfl, .inr ⟨l₁, b, l₂, rfl, ⟨hbuf, by dsimp only; omega⟩, hle⟩⟩

end cursor

/-! ### Reading and writing -/

/-- First `k` bytes that an access stores. -/
def Access.bytes (k : ℕ) : Access → List UInt8
  | .skip | .read => []
  | .memset byte => List.replicate k byte
  | .write src => src.take k

def Access.output (s : List UInt8) (o k : ℕ) : Access → List UInt8
  | .read => (s.drop o).take k
  | .skip | .memset _ | .write _ => []

def Access.Covers (length : ℕ) : Access → Prop
  | .write src => length ≤ src.length
  | .skip | .memset _ | .read => True

section access

variable {access : Access} {s : List UInt8} {o k k' n : ℕ}

theorem Access.Covers.rest (h : access.Covers n) : (access.rest k).Covers (n - k) := by
  cases access with
  | write src =>
    simp only [Access.Covers, Access.rest, length_drop] at h ⊢
    omega
  | skip | memset | read => trivial

theorem Access.length_bytes (h : access.Covers k) :
    (access.bytes k).length = k ∨ ∀ n, access.bytes n = [] ∧ (access.rest k).bytes n = [] := by
  cases access with
  | skip | read => exact .inr fun n => ⟨rfl, rfl⟩
  | memset byte => exact .inl (length_replicate ..)
  | write src =>
    rw [Access.Covers] at h
    exact .inl (by simpa [Access.bytes] using h)

theorem Access.length_bytes_le (h : access.Covers k) : (access.bytes k).length ≤ k := by
  rcases access.length_bytes h with heq | hnil
  · exact heq.le
  · rw [(hnil k).1]
    exact Nat.zero_le _

theorem Access.bytes_add : access.bytes (k + k') = access.bytes k ++ (access.rest k).bytes k' := by
  cases access with
  | skip | read => rfl
  | memset byte => exact replicate_add ..
  | write src => exact take_add

theorem Access.splice_rest (h : access.Covers (k + k')) (hk : o + k + k' ≤ s.length) :
    splice (splice s o (access.bytes k)) (o + k) ((access.rest k).bytes k') =
      splice s o (access.bytes (k + k')) := by
  have hcover : access.Covers k := by
    cases access with
    | write src => exact (Nat.le_add_right _ _).trans h
    | skip | memset | read => trivial
  have hrest : ((access.rest k).bytes k').length ≤ k' := by
    refine Access.length_bytes_le ?_
    have := h.rest (k := k)
    rwa [Nat.add_sub_cancel_left] at this
  rcases access.length_bytes hcover with hlen | hnil
  · nth_rewrite 2 [← hlen]
    rw [splice_splice (by omega), Access.bytes_add]
  · rw [(hnil k).1, (hnil k').2, (hnil (k + k')).1, splice_nil, splice_nil]

theorem Access.output_rest (s' : List UInt8) (hs : access.isWrite = false → s' = s) :
    access.output s o k ++ (access.rest k).output s' (o + k) k' = access.output s o (k + k') := by
  cases access with
  | read =>
    rw [hs rfl]
    simp only [Access.output, Access.rest, ← drop_drop, take_add]
  | skip | memset | write => rfl

end access

variable {pkt : Pkt} {access : Access} {k : ℕ}

variable {l : List ℕ} {fuel o : ℕ}

theorem WF.moved (h : WF pkt l) (c : Option ℕ) (pos : ℕ) :
    WF { pkt with cursorBuf := c, cursorPos := pos } l :=
  ⟨h.chain, h.nodup, h.fits, h.ref, h.own⟩

theorem Access.loadBytes_store {data : Mem} {pos len : ℕ}
    (hcover : access.Covers k) (hle : pos + k ≤ len) :
    loadBytes (access.store data pos k) 0 len =
      splice (loadBytes data 0 len) pos (access.bytes k) := by
  have hbytes := Access.length_bytes_le hcover
  cases access with
  | skip | read => exact splice_nil.symm
  | memset | write => exact loadBytes_storeBytes_splice (by simp only [Access.bytes] at hbytes; omega)

theorem Access.Covers.mono {n : ℕ} (h : access.Covers n) (hk : k ≤ n) : access.Covers k := by
  cases access with
  | write src => exact hk.trans h
  | skip | memset | read => trivial

theorem operate_step {l₁ l₂ : List ℕ} {b : ℕ}
    (h : WF pkt (l₁ ++ b :: l₂)) (hover : pkt.overwrite = true) (hcur : CursorIn pkt l₁ b o)
    (hcover : access.Covers k) (hk : pkt.cursorPos + k ≤ (pkt.bufs b).len)
    (hfuel : l₂.length ≤ fuel) :
    ∃ pkt', pktCursorUpdate fuel (pkt.set b { pkt.bufs b with
        data := access.store (pkt.bufs b).data pkt.cursorPos k }) b k access.isWrite = some pkt' ∧
      WF pkt' (l₁ ++ b :: l₂) ∧ CursorAt pkt' (l₁ ++ b :: l₂) (o + k) ∧
      str pkt'.bufs (l₁ ++ b :: l₂) = splice (str pkt.bufs (l₁ ++ b :: l₂)) o (access.bytes k) ∧
      access.load (pkt.bufs b).data pkt.cursorPos k =
        access.output (str pkt.bufs (l₁ ++ b :: l₂)) o k ∧
      pkt'.overwrite = true ∧ pkt'.unrefs = pkt.unrefs := by
  obtain ⟨hbuf, ho⟩ := hcur
  have hbytes := Access.length_bytes_le hcover
  have hset : WF (pkt.set b { pkt.bufs b with
      data := access.store (pkt.bufs b).data pkt.cursorPos k }) (l₁ ++ b :: l₂) :=
    h.set rfl (h.fits b (by simp)) rfl
  have hstr : str (pkt.set b { pkt.bufs b with
      data := access.store (pkt.bufs b).data pkt.cursorPos k }).bufs (l₁ ++ b :: l₂) =
      splice (str pkt.bufs (l₁ ++ b :: l₂)) o (access.bytes k) := by
    rw [Pkt.set, str_update h.nodup, NetBuf.contents, Access.loadBytes_store hcover hk,
      ← NetBuf.contents, splice_append_append (by rw [length_contents]; omega), ho, str_append,
      str_cons]
  have hsame : str (pkt.set b { pkt.bufs b with
      data := access.store (pkt.bufs b).data pkt.cursorPos k }).bufs l₁ = str pkt.bufs l₁ :=
    str_update_of_notMem (notMem_of_nodup h.nodup).1
  obtain ⟨c, pos, hupdate, hcur⟩ := pktCursorUpdate_spec access.isWrite hset hover hbuf
    (by simpa [Pkt.set] using hk) hfuel
  refine ⟨_, hupdate, hset.moved c pos, ?_, hstr, ?_, hover, rfl⟩
  · rw [hsame] at hcur
    rw [ho]
    exact hcur
  cases access with
  | skip | memset | write => rfl
  | read =>
    have hparts : (pkt.bufs b).contents = loadBytes (pkt.bufs b).data 0 pkt.cursorPos ++
        (loadBytes (pkt.bufs b).data pkt.cursorPos k ++
          loadBytes (pkt.bufs b).data (pkt.cursorPos + k)
            ((pkt.bufs b).len - pkt.cursorPos - k)) := by
      rw [NetBuf.contents, show (pkt.bufs b).len =
        pkt.cursorPos + (k + ((pkt.bufs b).len - pkt.cursorPos - k)) by omega, loadBytes_add,
        loadBytes_add, Nat.zero_add]
      congr 3
      omega
    rw [Access.load, Access.output, str_append, str_cons, ho, hparts, ← drop_drop,
      drop_left, append_assoc, append_assoc,
      drop_left' (length_loadBytes _ _ _), take_left' (length_loadBytes _ _ _)]

/-- **What an access does**, in overwrite mode: it processes the bytes there are. -/
theorem operateLoop_spec {length rounds : ℕ}
    (out : List UInt8) (h : WF pkt l) (hover : pkt.overwrite = true) (hcur : CursorAt pkt l o)
    (hcover : access.Covers length) (hfuel : l.length ≤ fuel) (hrounds : length < rounds) :
    ∃ k pkt', k = min length ((str pkt.bufs l).length - o) ∧
      operateLoop fuel rounds pkt access length out =
        some (operateResult (length - k), pkt', out ++ access.output (str pkt.bufs l) o k) ∧
      WF pkt' l ∧ CursorAt pkt' l (o + k) ∧
      str pkt'.bufs l = splice (str pkt.bufs l) o (access.bytes k) ∧
      pkt'.overwrite = true ∧ pkt'.unrefs = pkt.unrefs := by
  induction rounds generalizing pkt access o length out with
  | zero => omega
  | succ rounds ih =>
    rw [operateLoop]
    by_cases hstop : pkt.cursorBuf = none ∨ length = 0
    · rw [if_pos hstop]
      have hk : min length ((str pkt.bufs l).length - o) = 0 := by
        rcases hstop with hnone | hzero
        · rcases hcur with ⟨-, ho⟩ | ⟨l₁, b, l₂, -, ⟨hbuf, -⟩, -⟩
          · omega
          · rw [hnone] at hbuf
            cases hbuf
        · omega
      refine ⟨0, pkt, hk.symm, ?_, h, hcur, ?_, hover, rfl⟩
      · cases access <;> simp [Access.output]
      · cases access <;> simp [Access.bytes]
    rw [if_neg hstop]
    have hgrows : (access.isWrite && !pkt.overwrite) = false := by simp [hover]
    obtain ⟨c, pos, hadv, hready⟩ := pktCursorAdvance_spec h hcur hfuel
    simp only [hgrows, hadv, bind_eq_bind, bind_some]
    rcases hready with ⟨rfl, ho⟩ | ⟨l₁, b, l₂, rfl, ⟨rfl, ho⟩, hlt⟩
    · refine ⟨0, _, by dsimp only at ho; omega, ?_, h.moved none pos, .inl ⟨rfl, ho⟩, ?_, hover,
        rfl⟩
      · cases access <;> simp [Access.output]
      · cases access <;> simp [Access.bytes]
    dsimp only at ho hlt
    have hfuel' : l₂.length ≤ fuel := by
      simp at hfuel
      omega
    have htotal : (str pkt.bufs (l₁ ++ b :: l₂)).length =
        (str pkt.bufs l₁).length + ((pkt.bufs b).len + (str pkt.bufs l₂).length) := by simp
    generalize hk₁ : (if length < (pkt.bufs b).len - pos then length
      else (pkt.bufs b).len - pos) = k₁
    have hpos : 0 < k₁ ∧ k₁ ≤ length ∧ pos + k₁ ≤ (pkt.bufs b).len := by
      rw [← hk₁]
      split_ifs <;> omega
    obtain ⟨pkt', hupdate, h', hcur', hstr', hload, hover', hunrefs'⟩ :=
      operate_step (h.moved (some b) pos) hover ⟨rfl, ho⟩ (hcover.mono hpos.2.1) hpos.2.2 hfuel'
    obtain ⟨k₂, pkt'', hk₂, hloop, h'', hcur'', hstr'', hover'', hunrefs''⟩ :=
      ih (out ++ access.load (pkt.bufs b).data pos k₁) h' hover' hcur'
        (hcover.rest (k := k₁)) (by omega)
    dsimp only at hupdate hstr' hload hunrefs'
    have hlen' : (str pkt'.bufs (l₁ ++ b :: l₂)).length =
        (str pkt.bufs (l₁ ++ b :: l₂)).length := by
      have := Access.length_bytes_le (hcover.mono hpos.2.1)
      rw [hstr', length_splice (by omega)]
    have hk : k₁ + k₂ = min length ((str pkt.bufs (l₁ ++ b :: l₂)).length - o) := by omega
    have hnot : ¬ (pkt.bufs b).len - pos = 0 := by omega
    refine ⟨k₁ + k₂, pkt'', hk, ?_, h'', ?_, ?_, hover'', hunrefs''.trans hunrefs'⟩
    · simp only [NetBuf.cursorLen, Bool.false_eq_true, if_false, hnot, hk₁, hupdate,
        bind_some, hloop]
      rw [hload, append_assoc, Access.output_rest, Nat.sub_sub]
      intro hread
      have hnil : access.bytes k₁ = [] := by
        cases access with
        | read => rfl
        | skip | memset | write => cases hread
      rw [hstr', hnil, splice_nil]
    · rw [← Nat.add_assoc]
      exact hcur''
    · rw [hstr'', hstr', Access.splice_rest (hcover.mono (by omega)) (by omega)]

/-! ### Taking buffers out -/

/-- The packet consists of `l'` now, and the other buffers of `l` were unreferenced, once each. -/
structure Dropped (pkt pkt' : Pkt) (l l' : List ℕ) : Prop where
  wf : WF pkt' l'
  unrefs : ∃ gone, pkt'.unrefs = pkt.unrefs ++ gone ∧ l.Perm (l' ++ gone)

section dropping

variable {pkt pkt' pkt'' : Pkt} {l l' l'' l₁ l₂ : List ℕ} {a b fuel : ℕ}

theorem Dropped.refl (h : WF pkt l) : Dropped pkt pkt l l :=
  ⟨h, [], (append_nil _).symm, by rw [append_nil]⟩

theorem Dropped.trans (h : Dropped pkt pkt' l l') (h' : Dropped pkt' pkt'' l' l'') :
    Dropped pkt pkt'' l l'' := by
  obtain ⟨gone, hunrefs, hperm⟩ := h.unrefs
  obtain ⟨gone', hunrefs', hperm'⟩ := h'.unrefs
  refine ⟨h'.wf, gone ++ gone', by rw [hunrefs', hunrefs, append_assoc], ?_⟩
  have hswap : (l'' ++ gone' ++ gone).Perm (l'' ++ (gone ++ gone')) := by
    rw [append_assoc]
    exact List.Perm.append_left _ perm_append_comm
  exact hperm.trans ((hperm'.append_right gone).trans hswap)

/-- Buffers were unreferenced, and the others are as before. -/
structure Unreffed (pkt pkt' : Pkt) (gone : List ℕ) : Prop where
  bufs : ∀ c, c ∉ gone → pkt'.bufs c = pkt.bufs c
  buffer : pkt'.buffer = pkt.buffer
  unrefs : pkt'.unrefs = pkt.unrefs ++ gone
  overwrite : pkt'.overwrite = pkt.overwrite

@[simp] theorem netBufUnref_none : netBufUnref fuel pkt none = some pkt := by
  cases fuel <;> rfl

theorem netBufUnref_single (pkt : Pkt) (b : ℕ) (hfrags : (pkt.bufs b).frags = none) (hfuel : 0 < fuel) :
    ∃ pkt', netBufUnref fuel pkt (some b) = some pkt' ∧ Unreffed pkt pkt' [b] := by
  rcases fuel with _ | fuel
  · omega
  rw [netBufUnref]
  dsimp only
  split_ifs
  · refine ⟨_, rfl, fun c hc => ?_, rfl, rfl, rfl⟩
    rw [mem_singleton] at hc
    exact update_of_ne hc _ _
  · rw [hfrags, netBufUnref_none]
    refine ⟨_, rfl, fun c hc => ?_, rfl, rfl, rfl⟩
    rw [mem_singleton] at hc
    simp only [Pkt.setFrags, Pkt.set, update_of_ne hc]

theorem netBufUnref_chain {p : Option ℕ} (h : Seg (fun b => (pkt.bufs b).frags) p l none)
    (hnodup : l.Nodup) (href : ∀ b ∈ l, (pkt.bufs b).ref = 1) (hfuel : l.length ≤ fuel) :
    ∃ pkt', netBufUnref fuel pkt p = some pkt' ∧ Unreffed pkt pkt' l := by
  induction l generalizing pkt p fuel with
  | nil =>
    rw [seg_nil] at h
    exact ⟨pkt, by rw [h, netBufUnref_none], fun _ _ => rfl, rfl, (append_nil _).symm, rfl⟩
  | cons b l ih =>
    obtain ⟨rfl, h⟩ := h
    obtain ⟨hb, hnodup⟩ := nodup_cons.mp hnodup
    rcases fuel with _ | fuel
    · simp at hfuel
    have hone : ¬ ((pkt.bufs b).ref + 255) % 256 > 0 := by
      rw [href b mem_cons_self]
      decide
    have hother : ∀ c, c ≠ b → ({ pkt.set b { pkt.bufs b with
          ref := ((pkt.bufs b).ref + 255) % 256 } with
        unrefs := pkt.unrefs ++ [b] }.setFrags b none).bufs c = pkt.bufs c := by
      intro c hc
      simp only [Pkt.setFrags, Pkt.set, update_of_ne hc]
    have hne : ∀ c ∈ l, c ≠ b := fun c hc => ne_of_mem_of_not_mem hc hb
    have hfuel' : l.length ≤ fuel := by simpa using hfuel
    obtain ⟨pkt', hrest, hu⟩ := ih (h.congr fun c hc => by rw [hother c (hne c hc)]) hnodup
      (fun c hc => by
        rw [hother c (hne c hc)]
        exact href c (mem_cons_of_mem _ hc)) hfuel'
    refine ⟨pkt', ?_, fun c hc => ?_, hu.buffer, ?_, hu.overwrite⟩
    · rw [netBufUnref]
      dsimp only
      rw [if_neg hone, hrest]
    · rw [mem_cons, not_or] at hc
      rw [hu.bufs c hc.2, hother c hc.1]
    · rw [hu.unrefs]
      simp [Pkt.setFrags, Pkt.set]

theorem WF.of_links (h : WF pkt l) (hsub : l'.Sublist l)
    (hchain : Seg (fun b => (pkt'.bufs b).frags) pkt'.buffer l' none)
    (hbufs : ∀ c ∈ l', ∃ frags, pkt'.bufs c = { pkt.bufs c with frags := frags }) :
    WF pkt' l' ∧ str pkt'.bufs l' = str pkt.bufs l' := by
  refine ⟨⟨hchain, h.nodup.sublist hsub, fun c hc => ?_, fun c hc => ?_, fun c hc => ?_⟩,
    str_congr fun c hc => ?_⟩
  · obtain ⟨frags, heq⟩ := hbufs c hc
    rw [heq]
    exact h.fits c (hsub.subset hc)
  · obtain ⟨frags, heq⟩ := hbufs c hc
    rw [heq]
    exact h.ref c (hsub.subset hc)
  · obtain ⟨frags, heq⟩ := hbufs c (mem_of_mem_tail hc)
    rw [heq]
    exact h.own c (hsub.tail.subset hc)
  · obtain ⟨frags, heq⟩ := hbufs c hc
    rw [heq]
    rfl

theorem unlink_first (h : WF pkt (b :: l)) (hfuel : 0 < fuel) :
    ∃ pkt', netBufUnref fuel ({ pkt with buffer := (pkt.bufs b).frags }.setFrags b none) (some b) =
        some pkt' ∧
      Dropped pkt pkt' (b :: l) l ∧ str pkt'.bufs l = str pkt.bufs l ∧
      pkt'.overwrite = pkt.overwrite := by
  have hb := (nodup_cons.mp h.nodup).1
  obtain ⟨pkt', hunref, hu⟩ := netBufUnref_single (Pkt.setFrags { pkt with
    buffer := (pkt.bufs b).frags } b none) b (by simp [Pkt.setFrags, Pkt.set]) hfuel
  have hbufs : ∀ c ∈ l, pkt'.bufs c = pkt.bufs c := by
    intro c hc
    have hne := ne_of_mem_of_not_mem hc hb
    rw [hu.bufs c (by simpa using hne)]
    simp only [Pkt.setFrags, Pkt.set, update_of_ne hne]
  have hchain : Seg (fun b => (pkt'.bufs b).frags) pkt'.buffer l none := by
    rw [hu.buffer]
    exact h.chain.2.congr fun c hc => by rw [hbufs c hc]
  obtain ⟨hwf, hstr⟩ := h.of_links (sublist_cons_self b l) hchain fun c hc =>
    ⟨_, hbufs c hc⟩
  exact ⟨pkt', hunref, ⟨hwf, [b], hu.unrefs, (perm_append_singleton b l).symm⟩, hstr, hu.overwrite⟩

theorem unlink_next (h : WF pkt (l₁ ++ a :: b :: l₂)) (hfuel : 0 < fuel) :
    ∃ pkt', netBufUnref fuel ((pkt.setFrags a (pkt.bufs b).frags).setFrags b none) (some b) =
        some pkt' ∧
      Dropped pkt pkt' (l₁ ++ a :: b :: l₂) (l₁ ++ a :: l₂) ∧
      str pkt'.bufs (l₁ ++ a :: l₂) = str pkt.bufs (l₁ ++ a :: l₂) ∧
      pkt'.overwrite = pkt.overwrite := by
  have hperm : (l₁ ++ a :: b :: l₂).Perm (b :: (l₁ ++ a :: l₂)) := by
    rw [append_cons]
    refine perm_middle.trans ?_
    rw [← append_cons]
  have hb := (nodup_cons.mp (hperm.nodup_iff.mp h.nodup)).1
  obtain ⟨pkt', hunref, hu⟩ := netBufUnref_single (Pkt.setFrags
    (pkt.setFrags a (pkt.bufs b).frags) b none) b (by simp [Pkt.setFrags, Pkt.set]) hfuel
  have hbufs : ∀ c ∈ l₁ ++ a :: l₂, pkt'.bufs c = { pkt.bufs c with
      frags := Function.update (fun b => (pkt.bufs b).frags) a (pkt.bufs b).frags c } := by
    intro c hc
    have hne := ne_of_mem_of_not_mem hc hb
    rw [hu.bufs c (by simpa using hne)]
    simp only [Pkt.setFrags, Pkt.set, update_of_ne hne]
    rcases eq_or_ne c a with rfl | hca
    · simp only [update_self]
    · simp only [update_of_ne hca]
  have hchain : Seg (fun b => (pkt'.bufs b).frags) pkt'.buffer (l₁ ++ a :: l₂) none := by
    rw [hu.buffer]
    exact (h.chain.unlink h.nodup).congr fun c hc => by rw [hbufs c hc]
  obtain ⟨hwf, hstr⟩ := h.of_links (by simp) hchain fun c hc => ⟨_, hbufs c hc⟩
  exact ⟨pkt', hunref, ⟨hwf, [b], hu.unrefs, hperm.trans (perm_append_singleton b _).symm⟩,
    hstr, hu.overwrite⟩

end dropping

/-! ### Tail -/

section tail

variable {pkt : Pkt} {l l₁ l₂ : List ℕ} {b fuel : ℕ} {p : Option ℕ}

variable {n : ℕ}

theorem netBufFragsLen_spec {bufs : ℕ → NetBuf}
    (h : Seg (fun b => (bufs b).frags) p l none) (hfuel : l.length ≤ fuel) :
    netBufFragsLen bufs fuel p n = some (n + (str bufs l).length) := by
  induction l generalizing p fuel n with
  | nil =>
    rw [seg_nil] at h
    rw [h]
    cases fuel <;> rfl
  | cons b l ih =>
    obtain ⟨rfl, h⟩ := h
    rcases fuel with _ | fuel
    · simp at hfuel
    rw [netBufFragsLen, ih h (by simpa using hfuel)]
    simp [Nat.add_assoc]

theorem contents_shorter (buf : NetBuf) (hn : n ≤ buf.len) :
    NetBuf.contents { buf with len := n } = buf.contents.take n := by
  simp only [NetBuf.contents]
  obtain ⟨r, hr⟩ := Nat.exists_eq_add_of_le hn
  rw [hr, loadBytes_add, take_left' (length_loadBytes _ _ _)]

theorem cut_after {next : ℕ} (h : WF pkt (l₁ ++ b :: next :: l₂)) (hfuel : (next :: l₂).length ≤ fuel) :
    ∃ pkt', netBufUnref fuel pkt (some next) = some pkt' ∧
      Dropped pkt (pkt'.setFrags b none) (l₁ ++ b :: next :: l₂) (l₁ ++ [b]) ∧
      str (pkt'.setFrags b none).bufs (l₁ ++ [b]) = str pkt.bufs (l₁ ++ [b]) := by
  have hrest : (l₁ ++ [b] ++ next :: l₂).Nodup := by simpa using h.nodup
  have hchain : Seg (fun b => (pkt.bufs b).frags) pkt.buffer (l₁ ++ [b] ++ next :: l₂) none := by
    simpa using h.chain
  have hnodup' := (nodup_append.mp hrest).2.1
  have hdisj := disjoint_of_nodup_append hrest
  obtain ⟨pkt', hunref, hu⟩ := netBufUnref_chain hchain.drop hnodup'
    (fun c hc => h.own c (by cases l₁ <;> simp_all)) hfuel
  have hbufs : ∀ c ∈ l₁ ++ [b], (pkt'.setFrags b none).bufs c = { pkt.bufs c with
      frags := Function.update (fun b => (pkt.bufs b).frags) b none c } := by
    intro c hc
    have hsame := hu.bufs c (hdisj hc)
    rcases eq_or_ne c b with rfl | hne
    · simp only [Pkt.setFrags, Pkt.set, update_self, hsame]
    · simp only [Pkt.setFrags, Pkt.set, update_of_ne hne, hsame]
  obtain ⟨r, hfront, -⟩ := seg_append.mp hchain
  have hcut : Seg (fun c => ((pkt'.setFrags b none).bufs c).frags) (pkt'.setFrags b none).buffer
      (l₁ ++ [b]) none := by
    have hb : b ∉ l₁ := (notMem_of_nodup h.nodup).1
    have hlast : Seg (Function.update (fun b => (pkt.bufs b).frags) b none) pkt.buffer (l₁ ++ [b])
        none := hfront.redirect hb
    rw [Pkt.setFrags, Pkt.set]
    dsimp only
    rw [hu.buffer]
    exact hlast.congr fun c hc => congrArg NetBuf.frags (hbufs c hc)
  obtain ⟨hwf, hstr⟩ := h.of_links (by simp) hcut fun c hc => ⟨_, hbufs c hc⟩
  exact ⟨pkt', hunref, ⟨hwf, next :: l₂, hu.unrefs, by simp⟩, hstr⟩

theorem removeTailLoop_spec (l₁ : List ℕ) (h : WF pkt (l₁ ++ l₂))
    (hp : Seg (fun b => (pkt.bufs b).frags) p l₂ none) (hn : n ≤ (str pkt.bufs l₂).length)
    (hfuel : l₂.length ≤ fuel) :
    ∃ pkt' kept, removeTailLoop fuel pkt p n = some pkt' ∧
      Dropped pkt pkt' (l₁ ++ l₂) (l₁ ++ kept) ∧
      str pkt'.bufs (l₁ ++ kept) = str pkt.bufs l₁ ++ (str pkt.bufs l₂).take n := by
  induction l₂ generalizing l₁ p fuel n with
  | nil =>
    rw [seg_nil] at hp
    refine ⟨pkt, [], ?_, Dropped.refl h, by simp⟩
    rw [hp]
    cases fuel <;> rfl
  | cons b l₂ ih =>
    obtain ⟨rfl, hp⟩ := hp
    rcases fuel with _ | fuel
    · simp at hfuel
    have hfuel' : l₂.length ≤ fuel := by simpa using hfuel
    rw [removeTailLoop]
    dsimp only
    by_cases hlast : (pkt.bufs b).len ≥ n
    · rw [if_pos hlast]
      have hset : WF (pkt.set b { pkt.bufs b with len := n }) (l₁ ++ b :: l₂) :=
        h.set rfl (hlast.trans (h.fits b (by simp))) rfl
      have hstr : str (pkt.set b { pkt.bufs b with len := n }).bufs (l₁ ++ [b]) =
          str pkt.bufs l₁ ++ (str pkt.bufs (b :: l₂)).take n := by
        rw [Pkt.set, str_update (List.Nodup.sublist (by simp) h.nodup), contents_shorter _ hlast,
          str_cons, take_append_of_le_length (by rwa [length_contents])]
        simp
      have hunrefs : (pkt.set b { pkt.bufs b with len := n }).unrefs = pkt.unrefs := rfl
      generalize pkt.set b { pkt.bufs b with len := n } = pkt₁ at *
      cases l₂ with
      | nil =>
        have hnone : (pkt.bufs b).frags = none := hp
        rw [hnone]
        exact ⟨pkt₁, [b], rfl, ⟨hset, (Dropped.refl hset).unrefs.imp fun gone hgone =>
          ⟨hgone.1.trans (by rw [hunrefs]), hgone.2⟩⟩, hstr⟩
      | cons next l₂ =>
        have hnext : (pkt.bufs b).frags = some next := hp.1
        obtain ⟨pkt', hunref, hdrop, hstr'⟩ := cut_after hset hfuel'
        rw [hnext]
        refine ⟨pkt'.setFrags b none, [b], by simp [hunref], ⟨hdrop.wf, ?_⟩, hstr'.trans hstr⟩
        rw [← hunrefs]
        exact hdrop.unrefs
    rw [if_neg hlast]
    obtain ⟨pkt', kept, hloop, hdrop, hstr⟩ := ih (l₁ ++ [b]) (n := n - (pkt.bufs b).len)
      (by simpa using h) hp (by simp at hn; omega) hfuel'
    refine ⟨pkt', b :: kept, hloop, by simpa using hdrop, ?_⟩
    have htake : (pkt.bufs b).contents.take n = (pkt.bufs b).contents :=
      take_of_length_le (by rw [length_contents]; omega)
    rw [append_cons, hstr, str_cons, take_append, length_contents, htake]
    simp

/-- **Exactly the last bytes are removed.** -/
theorem netPktRemoveTail_spec {length : ℕ} (h : WF pkt l) (hfuel : l.length ≤ fuel)
    (hlength : length ≤ (str pkt.bufs l).length) :
    ∃ pkt' l', netPktRemoveTail fuel pkt length = some (0, pkt') ∧ Dropped pkt pkt' l l' ∧
      str pkt'.bufs l' = (str pkt.bufs l).take ((str pkt.bufs l).length - length) := by
  have hlen := netBufFragsLen_spec (n := 0) h.chain hfuel
  rw [Nat.zero_add] at hlen
  obtain ⟨pkt', kept, hloop, hdrop, hstr⟩ := removeTailLoop_spec []
    (n := (str pkt.bufs l).length - length) h h.chain (Nat.sub_le _ _) hfuel
  refine ⟨pkt', kept, ?_, hdrop, hstr⟩
  simp [netPktRemoveTail, hlen, not_lt.mpr hlength, hloop]

end tail

/-! ### Empty buffers -/

section trim

variable {pkt : Pkt} {l rest kept l₁ l₂ : List ℕ} {b prev fuel rounds : ℕ} {p : Option ℕ}

theorem buffer_ne (h : WF pkt (l₁ ++ prev :: b :: l₂)) : pkt.buffer ≠ some b := by
  intro hb
  have hne : ∀ c l, l₁ ++ prev :: b :: l₂ = c :: l → c ≠ b := by
    intro c l hl heq
    have hnodup := h.nodup
    cases l₁ with
    | nil =>
      rw [nil_append] at hl hnodup
      cases hl
      simp [heq] at hnodup
    | cons d l₁ =>
      cases hl
      simp [heq] at hnodup
  rcases hl : l₁ ++ prev :: b :: l₂ with _ | ⟨c, l⟩
  · simp at hl
  have hc := h.chain
  rw [hl] at hc
  exact hne c l hl (Option.some.inj (hc.1.symm.trans hb))

theorem trimLoop_spec (prev : ℕ) (h : WF pkt (kept ++ rest))
    (hp : Seg (fun b => (pkt.bufs b).frags) p rest none)
    (hprev : kept = [] ∨ ∃ front, kept = front ++ [prev]) (hfuel : 0 < fuel)
    (hrounds : rest.length ≤ rounds) :
    ∃ pkt' rest', trimLoop fuel rounds pkt p prev = some pkt' ∧
      Dropped pkt pkt' (kept ++ rest) (kept ++ rest') ∧
      str pkt'.bufs (kept ++ rest') = str pkt.bufs (kept ++ rest) := by
  induction rest generalizing pkt kept p prev rounds with
  | nil =>
    rw [seg_nil] at hp
    refine ⟨pkt, [], ?_, Dropped.refl h, rfl⟩
    rw [hp]
    cases rounds <;> rfl
  | cons b rest ih =>
    obtain ⟨rfl, hp⟩ := hp
    rcases rounds with _ | rounds
    · simp at hrounds
    have hrounds' : rest.length ≤ rounds := by simpa using hrounds
    rw [trimLoop]
    dsimp only
    by_cases hempty : (pkt.bufs b).len = 0
    · rw [if_pos hempty]
      have hcontents : (pkt.bufs b).contents = [] := by
        rw [← length_eq_zero_iff, length_contents, hempty]
      -- whichever pointer leads to the buffer, it leads to the next one now
      obtain ⟨pkt', hunref, hdrop, hstr⟩ : ∃ pkt', netBufUnref fuel
          (Pkt.setFrags (if pkt.buffer = some b then { pkt with buffer := (pkt.bufs b).frags }
            else if (pkt.bufs prev).frags = some b then pkt.setFrags prev (pkt.bufs b).frags
            else pkt) b none) (some b) = some pkt' ∧
          Dropped pkt pkt' (kept ++ b :: rest) (kept ++ rest) ∧
          str pkt'.bufs (kept ++ rest) = str pkt.bufs (kept ++ rest) := by
        rcases hprev with rfl | ⟨front, rfl⟩
        · obtain ⟨pkt', hunref, hdrop, hstr, -⟩ := unlink_first h hfuel
          rw [if_pos h.chain.1]
          exact ⟨pkt', hunref, hdrop, hstr⟩
        rw [append_assoc, singleton_append] at h
        rw [append_assoc, append_assoc, singleton_append, singleton_append]
        obtain ⟨pkt', hunref, hdrop, hstr, -⟩ := unlink_next h hfuel
        rw [if_neg (buffer_ne h), if_pos h.chain.next_eq]
        exact ⟨pkt', hunref, hdrop, hstr⟩
      have hnext : Seg (fun b => (pkt'.bufs b).frags) (pkt.bufs b).frags rest none := by
        obtain ⟨r, -, hr⟩ := seg_append.mp hdrop.wf.chain
        have heq : r = (pkt.bufs b).frags := hr.start_eq hp
        rwa [heq] at hr
      rw [hunref]
      obtain ⟨pkt'', rest', hloop, hdrop', hstr'⟩ := ih prev hdrop.wf hnext hprev hrounds'
      refine ⟨pkt'', rest', hloop, hdrop.trans hdrop', ?_⟩
      rw [hstr', hstr]
      simp [hcontents]
    · rw [if_neg hempty]
      have h' : WF pkt ((kept ++ [b]) ++ rest) := by simpa using h
      obtain ⟨pkt', rest', hloop, hdrop, hstr⟩ := ih b h' hp (.inr ⟨kept, rfl⟩) hrounds'
      exact ⟨pkt', b :: rest', hloop, by simpa using hdrop, by simpa using hstr⟩

/-- **Taking out the empty buffers leaves the string unchanged.** -/
theorem netPktTrimBuffer_spec (h : WF pkt l) (hfuel : l.length ≤ fuel) :
    ∃ pkt' l', netPktTrimBuffer fuel pkt = some pkt' ∧ Dropped pkt pkt' l l' ∧
      str pkt'.bufs l' = str pkt.bufs l := by
  rcases l with _ | ⟨b, l⟩
  · exact ⟨pkt, [], by rw [netPktTrimBuffer, seg_nil.mp h.chain], Dropped.refl h, rfl⟩
  have h' : WF pkt ([] ++ b :: l) := h
  obtain ⟨pkt', rest', hloop, hdrop, hstr⟩ := trimLoop_spec b h' h.chain (.inl rfl)
    (Nat.lt_of_lt_of_le (Nat.succ_pos _) hfuel) hfuel
  refine ⟨pkt', rest', ?_, hdrop, hstr⟩
  have hbuffer := h.chain.1
  rw [hbuffer] at hloop
  simp only [netPktTrimBuffer, hbuffer]
  exact hloop

end trim

/-! ### Moving data up -/

section compact

variable {pkt : Pkt} {l rest front l₁ l₂ : List ℕ} {b next fuel rounds : ℕ} {prev : Option ℕ}

theorem copyUp_spec (h : WF pkt (l₁ ++ b :: next :: l₂)) :
    WF (copyUp pkt b next) (l₁ ++ b :: next :: l₂) ∧
      str (copyUp pkt b next).bufs (l₁ ++ b :: next :: l₂) = str pkt.bufs (l₁ ++ b :: next :: l₂) ∧
      (((copyUp pkt b next).bufs b).tailroom ≠ 0 → ((copyUp pkt b next).bufs next).len = 0) := by
  have hnodup := h.nodup
  obtain ⟨hb₁, hb₂⟩ := notMem_of_nodup hnodup
  have hne : next ≠ b := fun heq => hb₂ (by simp [heq])
  have hfits := h.fits b (by simp)
  have hfits' := h.fits next (by simp)
  simp only [copyUp]
  generalize hk : (if (pkt.bufs next).len > (pkt.bufs b).tailroom then (pkt.bufs b).tailroom
    else (pkt.bufs next).len) = k
  have hbounds : k ≤ (pkt.bufs next).len ∧ (pkt.bufs b).len + k ≤ (pkt.bufs b).maxLen := by
    rw [NetBuf.tailroom] at hk
    split_ifs at hk <;> omega
  have hwf : WF (pkt.set b { pkt.bufs b with
      data := storeBytes (pkt.bufs b).data (pkt.bufs b).len (loadBytes (pkt.bufs next).data 0 k)
      len := (pkt.bufs b).len + k }) (l₁ ++ b :: next :: l₂) := h.set rfl hbounds.2 rfl
  refine ⟨hwf.set ?_ ?_ ?_, ?_, ?_⟩
  · rw [Pkt.set_bufs_of_ne hne]
  · exact (Nat.sub_le _ _).trans hfits'
  · rw [Pkt.set_bufs_of_ne hne]
  · obtain ⟨hn₁, hn₂⟩ : next ∉ l₁ ∧ next ∉ l₂ := by
      have hlist : (l₁ ++ [b] ++ next :: l₂).Nodup := by simpa using hnodup
      obtain ⟨h₁, h₂⟩ := notMem_of_nodup hlist
      exact ⟨fun hmem => h₁ (mem_append_left _ hmem), h₂⟩
    simp only [Pkt.set, str_append, str_cons, update_self,
      update_of_ne hne.symm, str_update_of_notMem hn₁, str_update_of_notMem hn₂,
      str_update_of_notMem hb₁, str_update_of_notMem (fun hmem => hb₂ (mem_cons_of_mem _ hmem))]
    have htake : NetBuf.contents { pkt.bufs b with
        data := storeBytes (pkt.bufs b).data (pkt.bufs b).len (loadBytes (pkt.bufs next).data 0 k)
        len := (pkt.bufs b).len + k } =
        (pkt.bufs b).contents ++ (pkt.bufs next).contents.take k := by
      obtain ⟨r, hr⟩ := Nat.exists_eq_add_of_le hbounds.1
      simp only [NetBuf.contents]
      rw [loadBytes_add, Nat.zero_add, loadBytes_storeBytes_of_disjoint (by omega),
        loadBytes_storeBytes_of_length _ _ (length_loadBytes _ _ _), hr, loadBytes_add,
        take_left' (length_loadBytes _ _ _)]
    have hdrop : NetBuf.contents { pkt.bufs next with
        data := moveBytes (pkt.bufs next).data 0 k ((pkt.bufs next).len - k)
        len := (pkt.bufs next).len - k } = (pkt.bufs next).contents.drop k := by
      simp only [NetBuf.contents]
      have hmove := loadBytes_remove (m := (pkt.bufs next).data) (Nat.zero_le k) hbounds.1
      rwa [Nat.sub_zero, take_zero, nil_append] at hmove
    rw [htake, hdrop, append_assoc, ← append_assoc (List.take k _), take_append_drop]
  intro hroom
  rw [Pkt.set_bufs_self]
  rw [Pkt.set_bufs_of_ne hne.symm, Pkt.set_bufs_self, NetBuf.tailroom] at hroom
  dsimp only at hroom ⊢
  rw [NetBuf.tailroom] at hk
  split_ifs at hk <;> omega

theorem compactLoop_spec (h : WF pkt (front ++ b :: rest))
    (hprev : (front = [] ∧ prev = none) ∨ ∃ l c, front = l ++ [c] ∧ prev = some c)
    (hfuel : 0 < fuel) (hrounds : rest.length < rounds) :
    ∃ pkt' l', compactLoop fuel rounds pkt (some b) prev = some pkt' ∧
      Dropped pkt pkt' (front ++ b :: rest) l' ∧
      str pkt'.bufs l' = str pkt.bufs (front ++ b :: rest) := by
  induction rounds generalizing pkt front b rest prev with
  | zero => omega
  | succ rounds ih =>
    rw [compactLoop]
    cases rest with
    | nil =>
      have hnone : (pkt.bufs b).frags = none := h.chain.next_last
      rw [hnone]
      dsimp only
      by_cases hempty : (pkt.bufs b).len = 0
      · rw [if_pos hempty]
        have hcontents : (pkt.bufs b).contents = [] := by
          rw [← length_eq_zero_iff, length_contents, hempty]
        rcases hprev with ⟨rfl, rfl⟩ | ⟨l, c, rfl, rfl⟩
        · obtain ⟨pkt', hunref, hu⟩ := netBufUnref_single (pkt.setFrags b none) b
            (by simp [Pkt.setFrags]) hfuel
          have hdel : netPktFragDel fuel pkt none b = some { pkt' with buffer := none } := by
            simp [netPktFragDel, h.chain.1, hunref, hnone]
          refine ⟨{ pkt' with buffer := none }, [], hdel, ⟨⟨rfl, nodup_nil, by simp, by simp,
            by simp⟩, [b], hu.unrefs, List.Perm.refl _⟩, ?_⟩
          simp [hcontents]
        rw [append_assoc, singleton_append] at h
        obtain ⟨pkt', hunref, hdrop, hstr, -⟩ := unlink_next h hfuel
        refine ⟨pkt', l ++ [c], hunref, ?_, ?_⟩
        · rw [append_assoc, singleton_append]
          exact hdrop
        · rw [hstr]
          simp [hcontents]
      · rw [if_neg hempty]
        exact ⟨pkt, _, rfl, Dropped.refl h, rfl⟩
    | cons next rest =>
      have hnext : (pkt.bufs b).frags = some next := h.chain.next_eq
      rw [hnext]
      dsimp only
      obtain ⟨h', hstr', hroom⟩ := copyUp_spec h
      have hunrefs : (copyUp pkt b next).unrefs = pkt.unrefs := rfl
      generalize copyUp pkt b next = pkt₁ at *
      have hrounds' : rest.length < rounds := by
        rw [length_cons] at hrounds
        omega
      by_cases hfull : (pkt₁.bufs b).tailroom ≠ 0
      · rw [if_pos hfull]
        have hcontents : (pkt₁.bufs next).contents = [] := by
          rw [← length_eq_zero_iff, length_contents, hroom hfull]
        obtain ⟨pkt₂, hunref, hdrop, hstr, -⟩ := unlink_next h' hfuel
        obtain ⟨pkt', l', hloop, hdrop', hstr''⟩ := ih hdrop.wf hprev hrounds'
        refine ⟨pkt', l', ?_, ?_, ?_⟩
        · simp only [netPktFragDel, hunref, bind_eq_bind, bind_some, hloop]
        · obtain ⟨hwf, hgone⟩ := hdrop.trans hdrop'
          rw [hunrefs] at hgone
          exact ⟨hwf, hgone⟩
        · rw [hstr'', hstr, ← hstr']
          simp [hcontents]
      rw [if_neg hfull]
      have h'' : WF pkt₁ ((front ++ [b]) ++ next :: rest) := by simpa using h'
      obtain ⟨pkt', l', hloop, hdrop, hstr⟩ := ih h'' (.inr ⟨front, b, rfl, rfl⟩) hrounds'
      refine ⟨pkt', l', hloop, ?_, ?_⟩
      · obtain ⟨hwf, hgone⟩ := hdrop
        rw [hunrefs, append_assoc, singleton_append] at hgone
        exact ⟨hwf, hgone⟩
      · rw [hstr, ← hstr']
        simp

/-- **Moving the data up leaves the string unchanged.** -/
theorem netPktCompact_spec (h : WF pkt l) (hfuel : l.length ≤ fuel) :
    ∃ pkt' l', netPktCompact fuel pkt = some pkt' ∧ Dropped pkt pkt' l l' ∧
      str pkt'.bufs l' = str pkt.bufs l := by
  cases l with
  | nil =>
    refine ⟨pkt, [], ?_, Dropped.refl h, rfl⟩
    rw [netPktCompact, seg_nil.mp h.chain]
    cases fuel <;> rfl
  | cons b l =>
    have h' : WF pkt ([] ++ b :: l) := h
    have hpos : 0 < fuel := Nat.lt_of_lt_of_le (Nat.succ_pos _) hfuel
    obtain ⟨pkt', l', hloop, hdrop, hstr⟩ := compactLoop_spec h' (.inl ⟨rfl, rfl⟩) hpos hfuel
    refine ⟨pkt', l', ?_, hdrop, hstr⟩
    rw [netPktCompact, h.chain.1]
    exact hloop

end compact

end NetPkt

end TlZephyr
