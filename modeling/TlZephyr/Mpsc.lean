import TlZephyr.Lib.BrokenChain

/-!
# Lock-Free Queue

Model of `mpsc_lockfree.h`: any number of producers in `mpsc_push` and one consumer in
`mpsc_pop`. Every exchange, load and store of a shared word is a step of its own; `q->tail` is
the consumer's alone. A call of `mpsc_push` is known by its node, which is in `ready` once its link
is cleared and in `linking` once the head was exchanged, with the node that was there before. The
consumer pushes the stub in the same way.

The log `exchanges` holds the nodes in the order of the exchanges of the head, `taken` those the
consumer has moved past; what is between them is queued. `returned` holds the results of `mpsc_pop`,
each with whether at some moment of the call nothing was queued or a producer was between its
exchange and its store.
-/

namespace TlZephyr

open List

/-- Where the consumer is in `mpsc_pop`. -/
inductive MpscPop
  /-- not in a call -/
  | idle
  /-- the stub is skipped, the link of the next node to be loaded -/
  | skipped
  /-- the tail had no link, the head to be loaded -/
  | sawLast
  /-- the tail was the head, the stub to be pushed: its link cleared, -/
  | clearStub
  /-- the head exchanged, -/
  | exchangeStub
  /-- the link to it stored -/
  | linkStub
  /-- the stub is pushed, the link of the tail to be loaded again -/
  | reload
deriving DecidableEq, Repr

/-- `struct mpsc` with the links of all nodes, the calls in progress, and the logs. -/
structure Mpsc where
  head : ℕ
  tail : ℕ
  next : ℕ → Option ℕ
  ready : List ℕ
  linking : List (ℕ × ℕ)
  pop : MpscPop
  exchanges : List ℕ
  taken : List ℕ
  excused : Bool
  returned : List (Option ℕ × Bool)

namespace Mpsc

/-- Address of `q->stub`. -/
def stub : ℕ := 0

/-- `mpsc_init`. -/
def init : Mpsc := ⟨stub, stub, fun _ => none, [], [], .idle, [stub], [], false, []⟩

def queue (s : Mpsc) : List ℕ := s.exchanges.drop s.taken.length

/-- Nothing is queued, or a producer is between its exchange and its store. -/
def excuse (s : Mpsc) : Bool :=
  (s.queue.all (· == stub)) || (s.linking.any (·.1 != stub))

/-- `mpsc_push`: the store to `n->next`. -/
def clear (s : Mpsc) (n : ℕ) : Mpsc :=
  { s with next := Function.update s.next n none, ready := s.ready ++ [n] }

/-- `mpsc_push`: the exchange of `q->head`. -/
def exchange (s : Mpsc) (n : ℕ) : Mpsc :=
  { s with
    head := n
    ready := s.ready.erase n
    linking := s.linking ++ [(n, s.head)]
    exchanges := s.exchanges ++ [n] }

/-- `mpsc_push`: the store to `prev->next`. -/
def link (s : Mpsc) (n prev : ℕ) : Mpsc :=
  { s with
    next := Function.update s.next prev (some n)
    linking := s.linking.erase (n, prev) }

/-- `mpsc_pop`: the store to `q->tail`. -/
def advance (s : Mpsc) (next : ℕ) : Mpsc :=
  { s with tail := next, taken := s.taken ++ [s.tail] }

/-- End of `mpsc_pop`. -/
def ret (s : Mpsc) (r : Option ℕ) : Mpsc :=
  { s with pop := .idle, returned := s.returned ++ [(r, s.excused)] }

def takeTail (s : Mpsc) (next : ℕ) : Mpsc := (s.advance next).ret (some s.tail)

def popStep (s : Mpsc) : Mpsc :=
  match s.pop with
  | .idle =>
    let s := { s with excused := s.excuse }
    match s.next s.tail with
    | none => if s.tail = stub then s.ret none else { s with pop := .sawLast }
    | some next =>
      if s.tail = stub then { s.advance next with pop := .skipped } else s.takeTail next
  | .skipped =>
    match s.next s.tail with
    | none => { s with pop := .sawLast }
    | some next => s.takeTail next
  | .sawLast => if s.tail ≠ s.head then s.ret none else { s with pop := .clearStub }
  | .clearStub => { s.clear stub with pop := .exchangeStub }
  | .exchangeStub => { s.exchange stub with pop := .linkStub }
  | .linkStub =>
    match s.linking.find? (·.1 == stub) with
    | none => s
    | some x => { s.link x.1 x.2 with pop := .reload }
  | .reload =>
    match s.next s.tail with
    | none => s.ret none
    | some next => s.takeTail next

/-- A producer's step for node `n`, or the consumer's. -/
inductive Op
  | clear (n : ℕ)
  | exchange (n : ℕ)
  | link (n : ℕ)
  | pop
deriving DecidableEq, Repr

/-- A node is pushed when it is not queued and not being pushed; the stub is the consumer's. -/
def act (s : Mpsc) : Op → Mpsc
  | .clear n => if n = stub ∨ n ∈ s.ready ∨ n ∈ s.queue then s else s.clear n
  | .exchange n => if n = stub ∨ n ∉ s.ready then s else s.exchange n
  | .link n =>
    if n = stub then s
    else
      match s.linking.find? (·.1 == n) with
      | none => s
      | some x => s.link x.1 x.2
  | .pop => s.popStep

def note (s : Mpsc) : Mpsc := { s with excused := s.excused || s.excuse }

def step (s : Mpsc) (op : Op) : Mpsc := (s.act op).note

def run (s : Mpsc) (ops : List Op) : Mpsc := ops.foldl step s

/-! ### Chain -/

/-- The queued nodes `l` are a chain, with the links missing that are not stored yet. -/
structure Core (s : Mpsc) (l : List ℕ) : Prop where
  order : s.exchanges = s.taken ++ l
  chain : BrokenChain s.next s.linking l
  front : l.head? = some s.tail
  back : l.getLast? = some s.head
  linkers : (s.linking.map Prod.fst).Nodup
  readyNodup : s.ready.Nodup
  ready : ∀ n ∈ s.ready, n ∉ l ∧ s.next n = none

namespace Core

variable {s : Mpsc} {l : List ℕ}

theorem queue (h : s.Core l) : s.queue = l := by
  rw [Mpsc.queue, h.order, drop_left]

theorem eq_cons (h : s.Core l) : ∃ rest, l = s.tail :: rest := by
  cases l with
  | nil => exact absurd h.front (by simp)
  | cons a rest => exact ⟨rest, by rw [Option.some.inj h.front]⟩

variable {x : ℕ × ℕ} {n : ℕ}

theorem mem_of_linking (h : s.Core l) (hx : x ∈ s.linking) : x.1 ∈ l :=
  (h.chain.adjacent x hx).subset (by simp)

theorem frame (h : s.Core l) (pop : MpscPop) (excused : Bool) (returned : List (Option ℕ × Bool)) :
    ({ s with pop := pop, excused := excused, returned := returned } : Mpsc).Core l :=
  ⟨h.order, h.chain, h.front, h.back, h.linkers, h.readyNodup, h.ready⟩

theorem clear (h : s.Core l) (hl : n ∉ l) (hready : n ∉ s.ready) : (s.clear n).Core l := by
  refine ⟨h.order, h.chain.update_of_notMem hl none, h.front, h.back, h.linkers, ?_, ?_⟩
  · exact nodup_append.mpr ⟨h.readyNodup, nodup_singleton n,
      fun a ha b hb hab => hready (by rw [← mem_singleton.mp hb, ← hab]; exact ha)⟩
  intro m hm
  rcases mem_append.mp hm with hm | hm
  · have hne : m ≠ n := fun heq => hready (heq ▸ hm)
    refine ⟨(h.ready m hm).1, ?_⟩
    simp only [Mpsc.clear, Function.update_of_ne hne]
    exact (h.ready m hm).2
  · obtain rfl := mem_singleton.mp hm
    exact ⟨hl, Function.update_self _ _ _⟩

theorem exchange (h : s.Core l) (hready : n ∈ s.ready) : (s.exchange n).Core (l ++ [n]) := by
  obtain ⟨hl, hnext⟩ := h.ready n hready
  refine ⟨?_, h.chain.push h.back hl hnext, ?_, List.getLast?_concat, ?_, h.readyNodup.erase n, ?_⟩
  · simp only [Mpsc.exchange, h.order, append_assoc]
  · obtain ⟨rest, rfl⟩ := h.eq_cons
    rfl
  · simp only [Mpsc.exchange, map_append, map_singleton]
    refine nodup_append.mpr ⟨h.linkers, nodup_singleton n, fun a ha b hb hab => hl ?_⟩
    obtain ⟨x, hx, rfl⟩ := mem_map.mp ha
    rw [← mem_singleton.mp hb, ← hab]
    exact h.mem_of_linking hx
  intro m hm
  obtain ⟨hne, hm⟩ := h.readyNodup.mem_erase_iff.mp hm
  refine ⟨?_, (h.ready m hm).2⟩
  rw [mem_append, mem_singleton, not_or]
  exact ⟨(h.ready m hm).1, hne⟩

theorem link (h : s.Core l) (hx : x ∈ s.linking) : (s.link x.1 x.2).Core l := by
  have hprev : x.2 ∈ l := (h.chain.adjacent x hx).subset (by simp)
  refine ⟨h.order, h.chain.link h.linkers.of_map hx, h.front, h.back,
    h.linkers.sublist (erase_sublist.map _), h.readyNodup, fun m hm => ?_⟩
  have hne : m ≠ x.2 := fun heq => (h.ready m hm).1 (heq ▸ hprev)
  refine ⟨(h.ready m hm).1, ?_⟩
  simp only [Mpsc.link, Function.update_of_ne hne]
  exact (h.ready m hm).2

theorem advance (h : s.Core l) (hnext : s.next s.tail = some n) :
    ∃ rest, l = s.tail :: rest ∧ (s.advance n).Core rest := by
  obtain ⟨rest, rfl⟩ := h.eq_cons
  obtain ⟨hfront, hchain⟩ := h.chain.advance hnext
  refine ⟨rest, rfl, ?_, hchain, hfront, ?_, h.linkers, h.readyNodup, fun m hm => ?_⟩
  · simp only [Mpsc.advance, h.order, append_assoc, singleton_append]
  · cases rest with
    | nil => simp at hfront
    | cons a rest =>
      have hback := h.back
      rwa [List.getLast?_cons_cons] at hback
  · exact ⟨fun hin => (h.ready m hm).1 (mem_cons_of_mem _ hin), (h.ready m hm).2⟩

theorem notMem_linkers_link (h : s.Core l) (hx : x ∈ s.linking) :
    x.1 ∉ (s.link x.1 x.2).linking.map Prod.fst := by
  intro hin
  obtain ⟨y, hy, hyx⟩ := mem_map.mp hin
  obtain ⟨hne, hy⟩ := h.linkers.of_map.mem_erase_iff.mp hy
  exact hne (inj_on_of_nodup_map h.linkers hy hx hyx)

/-- A tail without a link is alone in the queue, or the node behind it is about to be linked. -/
theorem next_none (h : s.Core l) (hnext : s.next s.tail = none) :
    l = [s.tail] ∨ ∃ n, (n, s.tail) ∈ s.linking := by
  obtain ⟨rest, rfl⟩ := h.eq_cons
  rcases h.chain.exists_linking hnext with rfl | ⟨b, -, hb⟩
  exacts [.inl rfl, .inr ⟨b, hb⟩]

end Core

/-! ### Invariant -/

def StubIdle (s : Mpsc) : Prop := stub ∉ s.ready ∧ stub ∉ s.linking.map Prod.fst

def Phase (s : Mpsc) (l : List ℕ) : Prop :=
  match s.pop with
  | .idle => s.StubIdle
  | .skipped => s.StubIdle ∧ s.tail ≠ stub
  | .sawLast => s.StubIdle ∧ s.tail ≠ stub ∧ (s.excused = true ∨ l = [s.tail])
  | .clearStub => s.StubIdle ∧ s.tail ≠ stub ∧ stub ∉ l
  | .exchangeStub => (stub ∈ s.ready ∧ stub ∉ s.linking.map Prod.fst) ∧ s.tail ≠ stub
  | .linkStub => (stub ∉ s.ready ∧ stub ∈ s.linking.map Prod.fst) ∧ s.tail ≠ stub
  | .reload => s.StubIdle ∧ s.tail ≠ stub ∧ stub ∈ l

/-- What holds of the logs and of the answers given. -/
structure Logs (s : Mpsc) : Prop where
  popped : s.returned.filterMap Prod.fst = s.taken.filter (· ≠ stub)
  excuses : ∀ x ∈ s.returned, x.1 = none → x.2 = true

structure Inv (s : Mpsc) (l : List ℕ) : Prop extends Core s l, Logs s where
  phase : s.Phase l
  noted : s.pop ≠ .idle → s.excuse = true → s.excused = true

variable {s : Mpsc}

theorem excuse_of_linking {x : ℕ × ℕ} (hx : x ∈ s.linking) (hne : x.1 ≠ stub) :
    s.excuse = true := by
  rw [excuse, Bool.or_eq_true, any_eq_true]
  exact .inr ⟨x, hx, by simpa using hne⟩

theorem Core.note {l : List ℕ} (hcore : s.Core l) (hlogs : s.Logs)
    (hphase : s.note.Phase l) : s.note.Inv l where
  order := hcore.order
  chain := hcore.chain
  front := hcore.front
  back := hcore.back
  linkers := hcore.linkers
  readyNodup := hcore.readyNodup
  ready := hcore.ready
  popped := hlogs.popped
  excuses := hlogs.excuses
  phase := hphase
  noted := fun _ (hexcuse : s.excuse = true) => by
    change (s.excused || s.excuse) = true
    rw [hexcuse, Bool.or_true]

/-- The phase depends on the stub's push, the tail and the queue only, and on the excuse. -/
theorem Phase.congr {s' : Mpsc} {l l' : List ℕ} (h : s.Phase l) (hpop : s'.pop = s.pop)
    (htail : s'.tail = s.tail) (hready : stub ∈ s'.ready ↔ stub ∈ s.ready)
    (hlinking : stub ∈ s'.linking.map Prod.fst ↔ stub ∈ s.linking.map Prod.fst)
    (hmem : stub ∈ l' ↔ stub ∈ l)
    (hlast : s.excused = true ∨ l = [s.tail] → s'.excused = true ∨ l' = [s.tail]) :
    s'.Phase l' := by
  simp only [Phase, StubIdle, hpop, htail, hready, hlinking, hmem] at h ⊢
  generalize s.pop = phase at h
  cases phase with
  | sawLast => exact ⟨h.1, h.2.1, hlast h.2.2⟩
  | idle => exact h
  | skipped => exact h
  | clearStub => exact h
  | exchangeStub => exact h
  | linkStub => exact h
  | reload => exact h

theorem inv_init : init.Inv [stub] where
  order := rfl
  chain := ⟨nodup_singleton _, fun a b hab => by simpa using hab.length_le, fun _ _ => rfl,
    by simp [init], by simp [init]⟩
  front := rfl
  back := rfl
  linkers := .nil
  readyNodup := .nil
  ready := by simp [init]
  popped := rfl
  excuses := by simp [init]
  phase := by simp [Phase, StubIdle, init]
  noted := fun h => absurd rfl h

namespace Inv

variable {s : Mpsc} {l : List ℕ}

/-! #### Producers -/

variable {n : ℕ}

theorem clear (h : s.Inv l) (hstub : n ≠ stub) (hl : n ∉ l) (hready : n ∉ s.ready) :
    (s.clear n).note.Inv l := by
  refine (h.toCore.clear hl hready).note ⟨h.popped, h.excuses⟩ ?_
  refine h.phase.congr rfl rfl ?_ Iff.rfl Iff.rfl (Or.imp_left fun he => ?_)
  · change stub ∈ s.ready ++ [n] ↔ _
    rw [mem_append, mem_singleton]
    exact or_iff_left hstub.symm
  · change (s.excused || _) = true
    rw [he, Bool.true_or]

theorem exchange (h : s.Inv l) (hstub : n ≠ stub) (hready : n ∈ s.ready) :
    (s.exchange n).note.Inv (l ++ [n]) := by
  refine (h.toCore.exchange hready).note ⟨h.popped, h.excuses⟩ ?_
  refine h.phase.congr rfl rfl ?_ ?_ ?_ fun _ => .inl ?_
  · exact mem_erase_of_ne hstub.symm
  · change stub ∈ (s.linking ++ [(n, s.head)]).map Prod.fst ↔ _
    rw [map_append, mem_append, map_singleton, mem_singleton]
    exact or_iff_left hstub.symm
  · rw [mem_append, mem_singleton]
    exact or_iff_left hstub.symm
  -- this push is between its exchange and its store
  change (s.excused || (s.exchange n).excuse) = true
  have hexcuse : (s.exchange n).excuse = true :=
    excuse_of_linking (x := (n, s.head)) (by simp [Mpsc.exchange]) hstub
  rw [hexcuse, Bool.or_true]

theorem link (h : s.Inv l) {x : ℕ × ℕ} (hstub : x.1 ≠ stub) (hx : x ∈ s.linking) :
    (s.link x.1 x.2).note.Inv l := by
  refine (h.toCore.link hx).note ⟨h.popped, h.excuses⟩ ?_
  refine h.phase.congr rfl rfl Iff.rfl ?_ Iff.rfl (Or.imp_left fun he => ?_)
  · change stub ∈ (s.linking.erase x).map Prod.fst ↔ _
    simp only [mem_map]
    refine exists_congr fun y => and_congr_left fun hy => mem_erase_of_ne fun heq => hstub ?_
    rw [← heq, hy]
  · change (s.excused || _) = true
    rw [he, Bool.true_or]

/-! #### The consumer -/

/-- With the stub not on its way, a tail without a link is alone or a producer is to link it. -/
theorem excuse_of_next_none (h : s.Core l) (hidle : s.StubIdle) (hnext : s.next s.tail = none) :
    l = [s.tail] ∨ s.excuse = true := by
  rcases h.next_none hnext with hone | ⟨n, hn⟩
  · exact .inl hone
  · refine .inr (excuse_of_linking hn fun heq => hidle.2 ?_)
    exact mem_map.mpr ⟨_, hn, heq⟩

theorem ret_none (h : s.Core l) (hlogs : s.Logs) (hidle : s.StubIdle) (hexcused : s.excused = true) :
    (s.ret none).note.Inv l := by
  refine Core.note (h.frame _ _ _) ⟨?_, ?_⟩ hidle
  · simp only [ret, filterMap_append, hlogs.popped]
    simp
  intro x hx hnone
  rcases mem_append.mp hx with hx | hx
  · exact hlogs.excuses x hx hnone
  · rw [mem_singleton.mp hx]
    exact hexcused

theorem takeTail (h : s.Core l) (hlogs : s.Logs) (hidle : s.StubIdle) (hstub : s.tail ≠ stub)
    (hnext : s.next s.tail = some n) : ∃ l', (s.takeTail n).note.Inv l' := by
  obtain ⟨rest, -, hcore⟩ := h.advance hnext
  refine ⟨rest, Core.note (hcore.frame _ _ _) ⟨?_, ?_⟩ hidle⟩
  · simp only [Mpsc.takeTail, ret, Mpsc.advance, filterMap_append, filter_append, hlogs.popped]
    rw [filter_singleton]
    simp [hstub]
  intro x hx hnone
  rcases mem_append.mp hx with hx | hx
  · exact hlogs.excuses x hx hnone
  · rw [mem_singleton.mp hx] at hnone
    cases hnone

theorem loadNext (h : s.Core l) (hlogs : s.Logs) (hidle : s.StubIdle) (hstub : s.tail ≠ stub)
    (hnoted : s.excuse = true → s.excused = true) (hnext : s.next s.tail = none) :
    ({ s with pop := .sawLast } : Mpsc).note.Inv l := by
  refine Core.note (h.frame _ _ _) ⟨hlogs.popped, hlogs.excuses⟩ ⟨hidle, hstub, ?_⟩
  rcases excuse_of_next_none h hidle hnext with hone | hexcuse
  · exact .inr hone
  · left
    change (s.excused || _) = true
    rw [hnoted hexcuse, Bool.true_or]

theorem popStart (h : s.Inv l) (hpop : s.pop = .idle) : ∃ l', s.popStep.note.Inv l' := by
  have hidle : s.StubIdle := by
    have := h.phase
    simpa only [Phase, hpop] using this
  have hcore : ({ s with excused := s.excuse, pop := .idle } : Mpsc).Core l := h.frame _ _ _
  have hlogs : ({ s with excused := s.excuse, pop := .idle } : Mpsc).Logs := ⟨h.popped, h.excuses⟩
  rcases hnext : s.next s.tail with _ | n
  · by_cases hstub : s.tail = stub
    · simp only [popStep, hpop, hnext, if_pos hstub]
      refine ⟨l, ret_none hcore hlogs hidle ?_⟩
      rcases excuse_of_next_none h.toCore hidle hnext with hone | hexcuse
      · simp only [excuse, h.toCore.queue, hone, hstub]
        rfl
      · exact hexcuse
    · simp only [popStep, hpop, hnext, if_neg hstub]
      exact ⟨l, loadNext hcore hlogs hidle hstub id hnext⟩
  by_cases hstub : s.tail = stub
  · simp only [popStep, hpop, hnext, if_pos hstub]
    obtain ⟨rest, rfl, hadv⟩ := hcore.advance hnext
    refine ⟨rest, Core.note (hadv.frame _ _ _) ⟨?_, h.excuses⟩ ⟨hidle, ?_⟩⟩
    · simp only [Mpsc.advance, filter_append, h.popped, hstub]
      simp
    -- the stub was the tail and is in the queue once
    intro heq
    have hmem : n ∈ rest := mem_of_head? hadv.front
    rw [show n = stub from heq, ← hstub] at hmem
    exact (nodup_cons.mp h.chain.nodup).1 hmem
  · simp only [popStep, hpop, hnext, if_neg hstub]
    exact takeTail hcore hlogs hidle hstub hnext

theorem popSkipped (h : s.Inv l) (hpop : s.pop = .skipped) : ∃ l', s.popStep.note.Inv l' := by
  obtain ⟨hidle, hstub⟩ : s.StubIdle ∧ s.tail ≠ stub := by
    have := h.phase
    simpa only [Phase, hpop] using this
  rcases hnext : s.next s.tail with _ | n
  · simp only [popStep, hpop, hnext]
    exact ⟨l, loadNext h.toCore h.toLogs hidle hstub (h.noted (by simp [hpop])) hnext⟩
  · simp only [popStep, hpop, hnext]
    exact takeTail h.toCore h.toLogs hidle hstub hnext

theorem popSawLast (h : s.Inv l) (hpop : s.pop = .sawLast) : ∃ l', s.popStep.note.Inv l' := by
  obtain ⟨hidle, hstub, hlast⟩ :
      s.StubIdle ∧ s.tail ≠ stub ∧ (s.excused = true ∨ l = [s.tail]) := by
    have := h.phase
    simpa only [Phase, hpop] using this
  by_cases hhead : s.tail = s.head
  · have hstep : s.popStep = { s with pop := .clearStub } := by
      simp only [popStep, hpop, ne_eq, hhead, not_true_eq_false, if_false]
    rw [hstep]
    refine ⟨l, Core.note (h.frame _ _ _) ⟨h.popped, h.excuses⟩ ⟨hidle, hstub, fun hin => ?_⟩⟩
    -- the tail is the head, so it is all there is
    obtain ⟨rest, rfl⟩ := h.eq_cons
    have hback := h.back
    cases rest with
    | nil => exact hstub (mem_singleton.mp hin).symm
    | cons a rest =>
      rw [List.getLast?_cons_cons, ← hhead] at hback
      exact (nodup_cons.mp h.chain.nodup).1 (mem_of_getLast? hback)
  simp only [popStep, hpop, ne_eq, hhead, not_false_eq_true, if_true]
  refine ⟨l, ret_none h.toCore h.toLogs hidle (hlast.resolve_right fun hone => hhead ?_)⟩
  have hback := h.back
  rw [hone] at hback
  exact Option.some.inj hback

theorem popPushStub (h : s.Inv l)
    (hpop : s.pop = .clearStub ∨ s.pop = .exchangeStub ∨ s.pop = .linkStub) :
    ∃ l', s.popStep.note.Inv l' := by
  have hphase := h.phase
  rcases hpop with hpop | hpop | hpop
  · simp only [Phase, hpop] at hphase
    obtain ⟨hidle, hstub, hl⟩ := hphase
    have hcore := h.toCore.clear hl hidle.1
    simp only [popStep, hpop]
    refine ⟨l, Core.note (hcore.frame _ _ _) ⟨h.popped, h.excuses⟩ ⟨⟨?_, hidle.2⟩, hstub⟩⟩
    exact mem_append_right _ (mem_singleton.mpr rfl)
  · simp only [Phase, hpop] at hphase
    obtain ⟨⟨hready, hlinking⟩, hstub⟩ := hphase
    have hcore := h.toCore.exchange hready
    simp only [popStep, hpop]
    refine ⟨l ++ [stub], Core.note (hcore.frame _ _ _) ⟨h.popped, h.excuses⟩ ⟨⟨?_, ?_⟩, hstub⟩⟩
    · exact fun hin => (h.readyNodup.mem_erase_iff.mp hin).1 rfl
    · change stub ∈ (s.linking ++ [(stub, s.head)]).map Prod.fst
      simp
  simp only [Phase, hpop] at hphase
  obtain ⟨⟨hready, hlinking⟩, hstub⟩ := hphase
  obtain ⟨x, hfind, hx, hx1⟩ : ∃ x, s.linking.find? (·.1 == stub) = some x ∧ x ∈ s.linking ∧
      x.1 = stub := by
    obtain ⟨y, hy, hy1⟩ := mem_map.mp hlinking
    have hsome : (s.linking.find? (·.1 == stub)).isSome := by
      rw [List.find?_isSome]
      exact ⟨y, hy, by simpa using hy1⟩
    obtain ⟨x, hx⟩ := Option.isSome_iff_exists.mp hsome
    exact ⟨x, hx, mem_of_find?_eq_some hx, by simpa using List.find?_some hx⟩
  have hcore := h.toCore.link hx
  have hout := h.toCore.notMem_linkers_link hx
  simp only [popStep, hpop, hfind]
  refine ⟨l, Core.note (hcore.frame _ _ _) ⟨h.popped, h.excuses⟩ ⟨⟨hready, ?_⟩, hstub, ?_⟩⟩
  · rw [← hx1]
    exact hout
  · rw [← hx1]
    exact h.toCore.mem_of_linking hx

theorem popReload (h : s.Inv l) (hpop : s.pop = .reload) : ∃ l', s.popStep.note.Inv l' := by
  obtain ⟨hidle, hstub, hl⟩ : s.StubIdle ∧ s.tail ≠ stub ∧ stub ∈ l := by
    have := h.phase
    simpa only [Phase, hpop] using this
  rcases hnext : s.next s.tail with _ | n
  · simp only [popStep, hpop, hnext]
    refine ⟨l, ret_none h.toCore h.toLogs hidle (h.noted (by simp [hpop]) ?_)⟩
    refine (excuse_of_next_none h.toCore hidle hnext).resolve_left fun hone => hstub ?_
    rw [hone] at hl
    exact (mem_singleton.mp hl).symm
  · simp only [popStep, hpop, hnext]
    exact takeTail h.toCore h.toLogs hidle hstub hnext

theorem skip (h : s.Inv l) : s.note.Inv l := by
  refine h.toCore.note h.toLogs (h.phase.congr rfl rfl Iff.rfl Iff.rfl Iff.rfl
    (Or.imp_left fun he => ?_))
  change (s.excused || _) = true
  rw [he, Bool.true_or]

/-- **Every step keeps the invariant.** -/
theorem step (h : s.Inv l) (op : Op) : ∃ l', (s.step op).Inv l' := by
  cases op with
  | clear n =>
    rw [Mpsc.step, act]
    by_cases hskip : n = stub ∨ n ∈ s.ready ∨ n ∈ s.queue
    · rw [if_pos hskip]
      exact ⟨l, h.skip⟩
    · rw [if_neg hskip]
      rw [not_or, not_or, h.toCore.queue] at hskip
      exact ⟨l, h.clear hskip.1 hskip.2.2 hskip.2.1⟩
  | exchange n =>
    rw [Mpsc.step, act]
    by_cases hskip : n = stub ∨ n ∉ s.ready
    · rw [if_pos hskip]
      exact ⟨l, h.skip⟩
    · rw [if_neg hskip]
      rw [not_or, not_not] at hskip
      exact ⟨_, h.exchange hskip.1 hskip.2⟩
  | link n =>
    rw [Mpsc.step, act]
    by_cases hstub : n = stub
    · rw [if_pos hstub]
      exact ⟨l, h.skip⟩
    rw [if_neg hstub]
    rcases hfind : s.linking.find? (·.1 == n) with _ | x
    · simp only [hfind]
      exact ⟨l, h.skip⟩
    · have hx1 : x.1 = n := by simpa using List.find?_some hfind
      simp only [hfind]
      exact ⟨l, h.link (hx1 ▸ hstub) (mem_of_find?_eq_some hfind)⟩
  | pop =>
    rw [Mpsc.step, act]
    rcases hpop : s.pop with _ | _ | _ | _ | _ | _ | _
    exacts [h.popStart hpop, h.popSkipped hpop, h.popSawLast hpop, h.popPushStub (.inl hpop),
      h.popPushStub (.inr (.inl hpop)), h.popPushStub (.inr (.inr hpop)), h.popReload hpop]

theorem run (ops : List Op) (h : s.Inv l) : ∃ l', (s.run ops).Inv l' := by
  induction ops generalizing s l with
  | nil => exact ⟨l, h⟩
  | cons op ops ih =>
    obtain ⟨l', h'⟩ := h.step op
    exact ih h'

end Inv

end Mpsc

/-- **The queue hands out every node once, in the order of the head exchanges**, for any number of
producers and any interleaving. The nodes popped are the first ones pushed; those after them are
queued, none twice. The stub is never returned. `mpsc_pop` returns `NULL` only if, at some moment of
the call, every node was popped or a producer was between its exchange and its store. -/
theorem mpsc_order (ops : List Mpsc.Op) (s : Mpsc) (hs : s = Mpsc.init.run ops) :
    s.exchanges.filter (· ≠ Mpsc.stub) =
        s.returned.filterMap Prod.fst ++ s.queue.filter (· ≠ Mpsc.stub) ∧
      s.queue.Nodup ∧
      (∀ x ∈ s.returned, x.1 ≠ some Mpsc.stub) ∧
      ∀ x ∈ s.returned, x.1 = none → x.2 = true := by
  obtain ⟨l, h⟩ := Mpsc.inv_init.run ops
  rw [← hs] at h
  rw [h.toCore.queue]
  refine ⟨?_, h.chain.nodup, fun x hx heq => ?_, h.excuses⟩
  · rw [h.order, filter_append, h.popped]
  · have hmem : Mpsc.stub ∈ s.returned.filterMap Prod.fst := mem_filterMap.mpr ⟨x, hx, heq⟩
    rw [h.popped, mem_filter] at hmem
    simpa using hmem.2

/-- The theorem on a run of two producers, with the stub pushed in between. -/
theorem mpsc_order_two : ∃ s : Mpsc,
    s = Mpsc.init.run [.clear 1, .exchange 1, .clear 2, .link 1, .exchange 2, .pop, .pop, .link 2,
      .pop, .pop, .pop, .pop, .pop, .pop, .pop, .pop] ∧
    s.returned.filterMap Prod.fst = [1, 2] ∧ s.queue.Nodup :=
  ⟨_, rfl, by decide +kernel, (mpsc_order _ _ rfl).2.1⟩

/-- **An empty answer may come too late for its excuse**: the push that was in progress is over when
the consumer returns `NULL`. -/
theorem mpsc_pop_spurious : ∃ ops : List Mpsc.Op,
    (Mpsc.init.run ops).returned.map Prod.fst = [none] ∧ (Mpsc.init.run ops).queue = [1, 2] ∧
      (Mpsc.init.run ops).linking = [] ∧ (Mpsc.init.run ops).pop = .idle :=
  ⟨[.clear 1, .exchange 1, .link 1, .pop, .pop, .clear 2, .exchange 2, .link 2, .pop],
    by decide +kernel⟩

end TlZephyr
