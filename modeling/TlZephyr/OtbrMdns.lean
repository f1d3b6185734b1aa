import TlZephyr.DnsUnpack

/-!
# Questions of an mDNS Query

How the border router reads a query (`soc/telink/tlsr/common/otbr/otbr_mdns_fmt.c`).
`otbr_mdns_fmt_query_get` calls its callback for each question behind the header of a message;
`otbr_mdns_fmt_query_get_str` writes the name of a question as text.

The first function does not use the counts of the header, and takes the other sections for questions
as well. At a pointer it gives the callback the place the pointer leads to, so the labels in front
of the pointer are lost, and it leaves the question out if that place is behind the start of the
last name without a pointer. The second function does not follow pointers. `Plain` describes the
questions for which this makes no difference.
-/

namespace TlZephyr.Dns

open Fuel List

variable {msg : Msg}

/-! ### Model -/

/-- A call of the callback, with the position of the name. -/
structure QueryCall where
  qtype : ℕ
  qclass : ℕ
  qname : ℕ
  deriving DecidableEq

/-- Local variables of `otbr_mdns_fmt_query_get`, with the calls so far; `stop` is `end`. -/
structure QueryScan where
  data : ℕ
  qname : Option ℕ
  stop : ℕ
  calls : List QueryCall

/-- One round of `otbr_mdns_fmt_query_get`; `data_len` is the length of the rest. -/
def queryRound (msg : Msg) (s : QueryScan) : QueryScan ⊕ List QueryCall :=
  if msg.size - s.data = 0 then .inr s.calls
  else if (msg.byte s.data).toNat = 0 then
    if msg.size - s.data > 4 then
      .inl ⟨s.data + 5, none, s.qname.getD s.data, s.calls ++
        [⟨msg.ntohs (s.data + 1), msg.ntohs (s.data + 3), s.qname.getD s.data⟩]⟩
    else .inr s.calls
  else if (msg.byte s.data).toNat < 64 then
    if msg.size - s.data > (msg.byte s.data).toNat then
      .inl { s with
        data := s.data + 1 + (msg.byte s.data).toNat
        qname := some (s.qname.getD s.data) }
    else .inr s.calls
  else if msg.size - s.data > 5 then
    .inl ⟨s.data + 6, none, s.stop,
      if 12 ≤ msg.ntohs s.data &&& 0x3fff ∧ msg.ntohs s.data &&& 0x3fff ≤ s.stop then
        s.calls ++ [⟨msg.ntohs (s.data + 2), msg.ntohs (s.data + 4), msg.ntohs s.data &&& 0x3fff⟩]
      else s.calls⟩
  else .inr s.calls

/-- `otbr_mdns_fmt_query_get` with a callback: the calls. -/
def otbrMdnsFmtQueryGet (msg : Msg) (fuel : ℕ) : Option (List QueryCall) :=
  if msg.size < 12 then some []
  else if msg.ntohs 2 &&& 0x8000 ≠ 0 then some []
  else loop (queryRound msg) fuel ⟨12, none, 0, []⟩

/-- Local variables of `otbr_mdns_fmt_query_get_str`, with the text so far. -/
structure GetStr where
  qname : ℕ
  strLen : ℕ
  text : List UInt8

/-- One round of `otbr_mdns_fmt_query_get_str`. -/
def getStrRound (msg : Msg) (s : GetStr) : GetStr ⊕ Option (List UInt8) :=
  if (msg.byte s.qname).toNat = 0 then .inr (if s.strLen ≠ 0 then some s.text else none)
  else if (msg.byte s.qname).toNat < s.strLen then
    .inl ⟨s.qname + 1 + (msg.byte s.qname).toNat, s.strLen - (1 + (msg.byte s.qname).toNat),
      s.text ++ (msg.slice (s.qname + 1) (msg.byte s.qname).toNat ++ [46])⟩
  else .inr none

/-- `otbr_mdns_fmt_query_get_str` with a string of `strLen` bytes. -/
def otbrMdnsFmtQueryGetStr (msg : Msg) (strLen qname fuel : ℕ) : Option (Option (List UInt8)) :=
  loop (getStrRound msg) fuel ⟨qname, strLen, []⟩

/-! ### Queries -/

structure Question where
  labels : List (List UInt8)
  qtype : ℕ
  qclass : ℕ

def nameText (labels : List (List UInt8)) : List UInt8 := labels.flatMap (· ++ [46])

/-- Questions from one position to another, with names of at most 255 bytes. -/
inductive Questions (msg : Msg) : ℕ → List Question → ℕ → Prop
  | nil {p : ℕ} : Questions msg p [] p
  | cons {p eol hops q : ℕ} {labels : List (List UInt8)} {qs : List Question} :
      Name msg p labels eol hops → (nameText labels).length + 1 ≤ 255 → eol + 4 ≤ msg.size →
      Questions msg (eol + 4) qs q →
      Questions msg p (⟨labels, msg.ntohs eol, msg.ntohs (eol + 2)⟩ :: qs) q

/-- A number of resource records from one position to another. -/
inductive Records (msg : Msg) : ℕ → ℕ → ℕ → Prop
  | nil {p : ℕ} : Records msg p 0 p
  | cons {p eol hops n q : ℕ} {labels : List (List UInt8)} :
      Name msg p labels eol hops → (nameText labels).length + 1 ≤ 255 →
      Records msg (eol + 10 + msg.ntohs (eol + 8)) n q → Records msg p (n + 1) q

structure Msg.IsQuery (msg : Msg) (qs : List Question) : Prop where
  header : 12 ≤ msg.size
  query : msg.ntohs 2 &&& 0x8000 = 0
  qdcount : msg.ntohs 4 = qs.length
  sections : ∃ p, Questions msg 12 qs p ∧
    Records msg p (msg.ntohs 6 + msg.ntohs 8 + msg.ntohs 10) msg.size

/-- A call reports a question: the type, the class, and the name in a string of 255 bytes. -/
structure Reports (msg : Msg) (call : QueryCall) (q : Question) : Prop where
  qtype : call.qtype = q.qtype
  qclass : call.qclass = q.qclass
  name : Ends (otbrMdnsFmtQueryGetStr msg 255 call.qname) (some (nameText q.labels))

/-- Questions from a position to the end, when the last name without pointers started at `last`:
each name has no pointer, or is only a pointer to such a name, not behind `last`. -/
inductive Plain (msg : Msg) : ℕ → ℕ → Prop
  | nil {last : ℕ} : Plain msg last msg.size
  | direct {last p eol : ℕ} {labels : List (List UInt8)} : Name msg p labels eol 0 →
      Plain msg p (eol + 4) → Plain msg last p
  | pointer {last p eol : ℕ} {labels : List (List UInt8)} : p < msg.size →
      0xc0 ≤ (msg.byte p).toNat → 12 ≤ msg.target p → msg.target p ≤ last →
      Name msg (msg.target p) labels eol 0 → Plain msg last (p + 6) → Plain msg last p

/-! ### Names -/

variable {eol hops p : ℕ} {labels : List (List UInt8)} {qs : List Question}

theorem Name.pos_lt (h : Name msg p labels eol hops) : p < msg.size := by
  induction h with
  | root hlt => exact hlt
  | label _ _ _ ih => omega
  | pointer _ hlt => omega

theorem Name.unique
    (h : Name msg p labels eol hops) : ∀ {labels' : List (List UInt8)} {eol' hops' : ℕ},
      Name msg p labels' eol' hops' → labels = labels' ∧ eol = eol' := by
  induction h with
  | root _ hz =>
    intro _ _ _ h'
    obtain ⟨rfl, rfl, -⟩ := h'.root_inv (by simp [hz])
    exact ⟨rfl, rfl⟩
  | label h0 h63 _ ih =>
    intro _ _ _ h'
    obtain ⟨_, rfl, hrest⟩ := h'.label_inv h0 h63
    obtain ⟨rfl, rfl⟩ := ih hrest
    exact ⟨rfl, rfl⟩
  | pointer htag _ _ ih =>
    intro _ _ _ h'
    obtain ⟨-, rfl, _, _, rfl, hrest⟩ := h'.pointer_inv (by omega)
    exact ⟨(ih hrest).1, rfl⟩

theorem ntohs_and (msg : Msg) (p : ℕ) : msg.ntohs p &&& 0x3fff = msg.target p := by
  have h1 := (msg.byte (p + 1)).toNat_lt
  rw [Msg.ntohs, Msg.target, Nat.shiftLeft_eq, show 0x3fff = 2 ^ 14 - 1 from rfl,
    show 63 = 2 ^ 6 - 1 from rfl, Nat.and_two_pow_sub_one_eq_mod, Nat.and_two_pow_sub_one_eq_mod]
  omega

theorem loop_direct (h : Name msg p labels eol hops) (h0 : hops = 0) (heol : eol + 4 ≤ msg.size) :
    ∀ (qname : Option ℕ) (stop : ℕ) (calls : List QueryCall) {r : List QueryCall},
      Ends (fun n => loop (queryRound msg) n ⟨eol + 4, none, qname.getD p,
        calls ++ [⟨msg.ntohs eol, msg.ntohs (eol + 2), qname.getD p⟩]⟩) r →
      Ends (fun n => loop (queryRound msg) n ⟨p, qname, stop, calls⟩) r := by
  induction h with
  | root hlt hz =>
    intro qname stop calls r hr
    refine (ends_loop_inl ?_).mpr hr
    simp only [queryRound]
    rw [if_neg (by omega), if_pos (by simp [hz]), if_pos (by omega)]
  | label hpos h63 hrest ih =>
    intro qname stop calls r hr
    have hlt := hrest.pos_lt
    refine (ends_loop_inl ?_).mpr (ih h0 heol (some (qname.getD _)) stop calls hr)
    simp only [queryRound]
    rw [if_neg (by omega), if_neg (by omega), if_pos (by omega), if_pos (by omega)]
  | pointer => omega

/-- `otbr_mdns_fmt_query_get_str` writes a name without pointers, if there is space for it. -/
theorem getStr_direct (h : Name msg p labels eol hops) (h0 : hops = 0) :
    ∀ (strLen : ℕ) (text : List UInt8), (nameText labels).length < strLen →
      Ends (fun n => loop (getStrRound msg) n ⟨p, strLen, text⟩)
        (some (text ++ nameText labels)) := by
  induction h with
  | root hlt hz =>
    intro strLen text hlen
    refine (ends_loop_inr ?_).mpr rfl
    simp only [getStrRound]
    rw [if_pos (by simp [hz]), if_pos (by omega), nameText, flatMap_nil, append_nil]
  | @label p _ _ _ hpos h63 hrest ih =>
    intro strLen text hlen
    simp only [nameText, flatMap_cons, length_append, Msg.length_slice, length_singleton] at hlen
    have hr := ih h0 (strLen - (1 + (msg.byte p).toNat))
      (text ++ (msg.slice (p + 1) (msg.byte p).toNat ++ [46])) (by rw [nameText]; omega)
    rw [append_assoc] at hr
    refine (ends_loop_inl ?_).mpr hr
    simp only [getStrRound]
    rw [if_neg (by omega), if_pos (by omega)]
  | pointer => omega

/-! ### Exact reports -/

theorem Questions.eq_nil {q : ℕ} (h : Questions msg p qs q) (hp : msg.size ≤ p) : qs = [] := by
  cases h with
  | nil => rfl
  | cons hname =>
    have := hname.pos_lt
    omega

theorem Questions.cons_inv {q : ℕ} (h : Questions msg p qs q)
    (hp : p < q) : ∃ labels eol hops qs', Name msg p labels eol hops ∧
      (nameText labels).length + 1 ≤ 255 ∧ eol + 4 ≤ msg.size ∧ Questions msg (eol + 4) qs' q ∧
      qs = ⟨labels, msg.ntohs eol, msg.ntohs (eol + 2)⟩ :: qs' := by
  cases h with
  | nil => omega
  | cons hname hlen heol hrest => exact ⟨_, _, _, _, hname, hlen, heol, hrest, rfl⟩

theorem Plain.reports {last : ℕ} (h : Plain msg last p) :
    ∀ {qs : List Question}, Questions msg p qs msg.size → ∀ calls : List QueryCall,
      ∃ calls', List.Forall₂ (Reports msg) calls' qs ∧
        Ends (fun n => loop (queryRound msg) n ⟨p, none, last, calls⟩) (calls ++ calls') := by
  induction h with
  | nil =>
    intro qs hqs calls
    obtain rfl := hqs.eq_nil le_rfl
    refine ⟨[], .nil, (ends_loop_inr ?_).mpr (append_nil _)⟩
    rw [queryRound, if_pos (Nat.sub_self _)]
  | @direct last p eol labels hname _ ih =>
    intro qs hqs calls
    obtain ⟨_, _, _, qs', hname', hlen, heol, hrest, rfl⟩ := hqs.cons_inv hname.pos_lt
    obtain ⟨rfl, rfl⟩ := hname.unique hname'
    obtain ⟨calls', hall, hend⟩ := ih hrest (calls ++ [⟨msg.ntohs eol, msg.ntohs (eol + 2), p⟩])
    rw [append_assoc] at hend
    exact ⟨⟨_, _, p⟩ :: calls', .cons ⟨rfl, rfl, getStr_direct hname rfl 255 [] (by omega)⟩ hall,
      loop_direct hname rfl heol none last calls hend⟩
  | @pointer last p eol labels hp htag h12 hle hname _ ih =>
    intro qs hqs calls
    obtain ⟨labels', eol', _, qs', hname', hlen, heol, hrest, rfl⟩ := hqs.cons_inv hp
    obtain ⟨-, rfl, _, _, -, htarget⟩ := hname'.pointer_inv (by omega)
    obtain ⟨rfl, -⟩ := hname.unique htarget
    obtain ⟨calls', hall, hend⟩ := ih hrest
      (calls ++ [⟨msg.ntohs (p + 2), msg.ntohs (p + 4), msg.target p⟩])
    rw [append_assoc] at hend
    refine ⟨⟨_, _, msg.target p⟩ :: calls',
      .cons ⟨rfl, rfl, getStr_direct hname rfl 255 [] (by omega)⟩ hall,
      (ends_loop_inl ?_).mpr hend⟩
    simp only [queryRound]
    rw [if_neg (by omega), if_neg (by omega), if_neg (by omega), if_pos (by omega),
      ntohs_and, if_pos ⟨h12, hle⟩]

theorem Msg.IsQuery.get_eq (h : msg.IsQuery qs) (fuel : ℕ) :
    otbrMdnsFmtQueryGet msg fuel = loop (queryRound msg) fuel ⟨12, none, 0, []⟩ := by
  rw [otbrMdnsFmtQueryGet, if_neg (by have := h.header; omega), if_neg (not_not.mpr h.query)]

/-- **Exact reports.** If a well-formed query has no records behind its questions, and these are
plain, the callback is called once for each, in order, with type, class and full name. -/
theorem query_exact {qs : List Question} (h : msg.IsQuery qs)
    (hcounts : msg.ntohs 6 = 0 ∧ msg.ntohs 8 = 0 ∧ msg.ntohs 10 = 0) (hplain : Plain msg 0 12) :
    ∃ calls, Ends (otbrMdnsFmtQueryGet msg) calls ∧ List.Forall₂ (Reports msg) calls qs := by
  obtain ⟨p, hqs, hrec⟩ := h.sections
  rw [hcounts.1, hcounts.2.1, hcounts.2.2] at hrec
  cases hrec
  obtain ⟨calls, hall, hend⟩ := hplain.reports hqs []
  exact ⟨calls, hend.congr h.get_eq, hall⟩

/-- A query for the addresses of `a`, and for any record of the same name, which is written as a
pointer. -/
def pointerQuery : Msg :=
  .ofList [0, 0, 0, 0, 0, 2, 0, 0, 0, 0, 0, 0, 1, 97, 0, 0, 28, 0, 1, 192, 12, 0, 255, 0, 1]

/-- Both questions are reported. -/
theorem query_exact_pointer : ∃ calls, Ends (otbrMdnsFmtQueryGet pointerQuery) calls ∧
    List.Forall₂ (Reports pointerQuery) calls [⟨[[97]], 28, 1⟩, ⟨[[97]], 255, 1⟩] := by
  have hname : Name pointerQuery 12 [[97]] 15 0 :=
    .label (by decide) (by decide) (.root (by decide) rfl)
  refine query_exact ⟨by decide, by decide, rfl, 25, ?_, .nil⟩ (by decide) ?_
  · exact .cons hname (by decide) (by decide)
      (.cons (.pointer (by decide) (by decide) hname) (by decide) (by decide) .nil)
  · exact .direct hname (.pointer (by decide) (by decide) (by decide) (by decide) hname .nil)

/-- A query for the address of `a` with a known answer. -/
def knownAnswer : Msg :=
  .ofList [0, 0, 0, 0, 0, 1, 0, 1, 0, 0, 0, 0, 1, 97, 0, 0, 1, 0, 1,
    192, 12, 0, 1, 0, 1, 0, 0, 0, 120, 0, 4, 10, 0, 0, 1]

/-- The answer is reported as a question, and so is what follows the first byte of its time to
live. -/
theorem query_reports_answer : ∃ (msg : Msg) (qs : List Question), msg.IsQuery qs ∧
    ¬ ∃ calls, Ends (otbrMdnsFmtQueryGet msg) calls ∧ List.Forall₂ (Reports msg) calls qs := by
  have hname : Name knownAnswer 12 [[97]] 15 0 :=
    .label (by decide) (by decide) (.root (by decide) rfl)
  have hrun : loop (queryRound knownAnswer) 6 ⟨12, none, 0, []⟩ =
      some [⟨1, 1, 12⟩, ⟨1, 1, 12⟩, ⟨0, 30720, 25⟩] := by decide +kernel
  have hquery : knownAnswer.IsQuery [⟨[[97]], 1, 1⟩] :=
    ⟨by decide, by decide, rfl, 19, .cons hname (by decide) (by decide) .nil,
      .cons (.pointer (by decide) (by decide) hname) (by decide) .nil⟩
  refine ⟨knownAnswer, _, hquery, ?_⟩
  rintro ⟨calls, hend, hall⟩
  obtain rfl := hend.unique ((ends_loop_of_eq_some hrun).congr hquery.get_eq)
  cases hall with
  | cons _ hrest => cases hrest

end TlZephyr.Dns
