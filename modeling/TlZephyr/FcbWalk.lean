import TlZephyr.FcbRecover

/-!
# Walking the Flash Circular Buffer

`fcb_walk` calls its callback for the entries it finds, from the oldest sector to the active one, or in
one sector. It finds the entries with the end marker expected: those that were finished, and those that
were not but whose CRC is the erase value.
-/

namespace TlZephyr

open List Option

namespace Fcb

open Memory LittleEndian

variable {cfg : Cfg}

def goods (cfg : Cfg) (xs : List Entry) : List Entry := xs.filter fun x => x.Good cfg

section goods

variable {xs ys : List Entry} {x : Entry}

@[simp] theorem goods_nil : goods cfg [] = [] := rfl

@[simp] theorem goods_append : goods cfg (xs ++ ys) = goods cfg xs ++ goods cfg ys :=
  filter_append ..

theorem goods_cons_of_good (h : x.Good cfg) : goods cfg (x :: xs) = x :: goods cfg xs :=
  filter_cons_of_pos (by simpa using h)

theorem goods_cons_of_bad (h : ¬ x.Good cfg) : goods cfg (x :: xs) = goods cfg xs :=
  filter_cons_of_neg (by simpa using h)

theorem goods_eq_nil (h : ∀ y ∈ xs, ¬ y.Good cfg) : goods cfg xs = [] :=
  filter_eq_nil_iff.mpr fun y hy => by simpa using h y hy

end goods

/-! ### Next entry -/

/-- The next good entry after those before `zs`: in `zs`, in a later sector, or none. -/
inductive NextGood (cfg : Cfg) (els : ℕ → List Entry) (last n : ℕ) (zs : List Entry) :
    ℤ × Loc → Prop
  | here (pre : List Entry) (x : Entry) (post : List Entry) (hels : els n = pre ++ x :: post)
      (hgoods : goods cfg zs = x :: goods cfg post) : NextGood cfg els last n zs (0, x.loc)
  | later (n' : ℕ) (pre : List Entry) (x : Entry) (post : List Entry) (hlt : n < n')
      (hle : n' ≤ last) (hels : els n' = pre ++ x :: post) (hnone : goods cfg zs = [])
      (hgoods : goods cfg (entries els (n + 1) (last - n)) =
        x :: (goods cfg post ++ goods cfg (entries els (n' + 1) (last - n')))) :
      NextGood cfg els last n zs (0, x.loc)
  | none (r : ℤ × Loc) (hr : r.1 = -ENOTSUP) (hnone : goods cfg zs = [])
      (hlater : goods cfg (entries els (n + 1) (last - n)) = []) : NextGood cfg els last n zs r

section next

variable {fcb : State} {first k n rounds : ℕ} {els : ℕ → List Entry} {top : ℕ → ℕ} {zs : List Entry}
  {r : ℤ × Loc}

variable {x : Entry}

theorem loc_eq {s : ℕ} (h : x.sector = s) : (⟨s, x.elemOff, x.dataOff, x.len⟩ : Loc) = x.loc := by
  rw [Entry.loc, h]

theorem NextGood.of_succ {last : ℕ} (hlt : n < last) (hnone : goods cfg zs = [])
    (h : NextGood cfg els last (n + 1) (els (n + 1)) r) : NextGood cfg els last n zs r := by
  have hsub : last - n = last - (n + 1) + 1 := by omega
  have hentries : goods cfg (entries els (n + 1) (last - n)) =
      goods cfg (els (n + 1)) ++ goods cfg (entries els (n + 1 + 1) (last - (n + 1))) := by
    rw [hsub, entries_succ, goods_append]
  cases h with
  | here pre x post hels hgoods =>
    refine .later (n + 1) pre x post (by omega) (by omega) hels hnone ?_
    rw [hentries, hgoods, cons_append]
  | later n' pre x post hlt' hle hels hnone' hgoods =>
    refine .later n' pre x post (by omega) hle hels hnone ?_
    rw [hentries, hnone', nil_append, hgoods]
  | none r hr hnone' hlater =>
    refine .none r hr hnone ?_
    rw [hentries, hnone', nil_append, hlater]

theorem enter_sector (h : Rep cfg fcb first k els top) (h1 : first ≤ n) (h2 : n ≤ first + k)
    (hend : ∀ l rounds', l.sector = n % cfg.sectorCnt → rounds ≤ rounds' + 1 →
      goods cfg (els n) = [] → ∃ r, getnextLoop cfg fcb rounds' .nextSector l = some r ∧
        NextGood cfg els (first + k) n (els n) r) (hrounds : 0 < rounds) (d m : ℕ) :
    ∃ r, (if (elemInfo cfg fcb.flash ⟨n % cfg.sectorCnt, hdrLen cfg, d, m⟩).1 = 0 then
        some (0, (elemInfo cfg fcb.flash ⟨n % cfg.sectorCnt, hdrLen cfg, d, m⟩).2)
      else if (elemInfo cfg fcb.flash ⟨n % cfg.sectorCnt, hdrLen cfg, d, m⟩).1 = -EBADMSG then
        getnextLoop cfg fcb rounds .whileBad
          (elemInfo cfg fcb.flash ⟨n % cfg.sectorCnt, hdrLen cfg, d, m⟩).2
      else
        getnextLoop cfg fcb rounds .nextSector
          (elemInfo cfg fcb.flash ⟨n % cfg.sectorCnt, hdrLen cfg, d, m⟩).2) = some r ∧
      NextGood cfg els (first + k) n (els n) r := by
  have hused := h.layout.used n h1 (by omega)
  have hsec := h.layout.sector n h1 (by omega)
  have helems := hused.elems
  rcases rounds with _ | rounds
  · omega
  rcases hels : els n with _ | ⟨x, xs⟩
  · rw [hels] at helems
    rw [elems_nil.mp helems, elemInfo_erased hused.erased]
    dsimp only
    rw [if_neg (by decide), if_neg (by decide)]
    rw [hels] at hend
    exact hend _ _ rfl (Nat.le_succ _) rfl
  rw [hels] at helems hsec hend
  rw [elemInfo_entry helems.1]
  dsimp only
  by_cases hgood : x.Good cfg
  · rw [if_pos hgood, if_pos rfl, ← helems.1.elemOff, loc_eq (hsec x (by simp))]
    exact ⟨_, rfl, .here [] x xs hels (goods_cons_of_good hgood)⟩
  rw [if_neg hgood, if_neg (by decide), if_pos rfl, getnextLoop]
  have hlands := getnextInSector_spec helems hused.erased x.dataOff x.len
  generalize getnextInSector cfg fcb.flash _ = r at hlands
  rcases hlands with ⟨pre, y, post, rfl, hpre, hy, rfl⟩ | ⟨hall, hrc, hs, -⟩
  · dsimp only
    rw [if_pos rfl, loc_eq (hsec y (by simp))]
    refine ⟨_, rfl, .here (x :: pre) y post (by rw [hels, cons_append]) ?_⟩
    rw [goods_cons_of_bad hgood, goods_append, goods_eq_nil hpre, nil_append, goods_cons_of_good hy]
  obtain ⟨rc, l'⟩ := r
  dsimp only at hrc hs ⊢
  rw [hrc, if_neg (by decide), if_pos (by decide)]
  exact hend l' rounds hs (le_refl _) (by rw [goods_cons_of_bad hgood, goods_eq_nil hall])

theorem getnextLoop_spec {l : Loc} (h : Rep cfg fcb first k els top) (h1 : first ≤ n)
    (h2 : n ≤ first + k) (hl : l.sector = n % cfg.sectorCnt)
    (hrounds : 2 * (first + k - n) < rounds) (hnone : goods cfg zs = []) :
    ∃ r, getnextLoop cfg fcb rounds .nextSector l = some r ∧
      NextGood cfg els (first + k) n zs r := by
  have hle := h.layout.le
  induction hd : first + k - n generalizing n rounds l zs with
  | zero =>
    obtain rfl : n = first + k := by omega
    rcases rounds with _ | rounds
    · omega
    rw [getnextLoop, if_pos (by rw [hl, h.activeSector])]
    refine ⟨_, rfl, .none _ rfl hnone ?_⟩
    rw [Nat.sub_self, entries_zero, goods_nil]
  | succ d ih =>
    rcases rounds with _ | rounds
    · omega
    have hne : ¬ l.sector = fcb.activeSector := by
      rw [hl, h.activeSector]
      exact mod_ne (by omega) (by omega) (by omega)
    rw [getnextLoop, if_neg hne, hl, getnextSector_mod]
    obtain ⟨r, hloop, hnext⟩ := enter_sector h (n := n + 1) (by omega) (by omega)
      (fun l' rounds' hl' hr hgoods => ih (by omega) (by omega) hl' (by omega) hgoods (by omega))
      (by omega : 0 < rounds) l.dataOff l.dataLen
    exact ⟨r, hloop, hnext.of_succ (by omega) hnone⟩

theorem getnextNolock_next {pre post : List Entry} (h : Rep cfg fcb first k els top)
    (h1 : first ≤ n) (h2 : n ≤ first + k) (hels : els n = pre ++ x :: post) :
    ∃ r, getnextNolock cfg fcb (some x.sector) x.loc = some r ∧
      NextGood cfg els (first + k) n post r := by
  have hle := h.layout.le
  have hused := h.layout.used n h1 (by omega)
  have hsec := h.layout.sector n h1 (by omega)
  rw [hels] at hused hsec
  have hx : x.sector = n % cfg.sectorCnt := hsec x (by simp)
  obtain ⟨o, hpre, hpost⟩ := elems_append.mp hused.elems
  have hoff : x.elemOff = o := hpost.1.elemOff
  have hpos : ¬ o = 0 := by
    have := hpre.le
    have := le_hdrLen cfg
    omega
  rw [getnextNolock, Entry.loc, hx, hoff]
  dsimp only [getD_some]
  rw [if_neg hpos]
  have hlands := getnextInSector_spec hpost hused.erased x.dataOff x.len
  generalize getnextInSector cfg fcb.flash _ = r at hlands
  rcases hlands with ⟨pre', y, post', rfl, hpre', hy, rfl⟩ | ⟨hall, hrc, hs, -⟩
  · dsimp only
    rw [if_pos rfl, loc_eq (hsec y (by simp))]
    refine ⟨_, rfl, .here (pre ++ x :: pre') y post' (by rw [hels]; simp) ?_⟩
    rw [goods_append, goods_eq_nil hpre', nil_append, goods_cons_of_good hy]
  · obtain ⟨rc, l'⟩ := r
    dsimp only at hrc hs ⊢
    rw [hrc, if_neg (by decide), if_pos rfl]
    exact getnextLoop_spec h h1 h2 hs (by omega) (goods_eq_nil hall)

/-- **The first entry of a sector in use**, or one of a later sector. -/
theorem getnextNolock_first (h : Rep cfg fcb first k els top) (h1 : first ≤ n) (h2 : n ≤ first + k)
    {s : Option ℕ} (hs : s.getD fcb.oldest = n % cfg.sectorCnt) :
    ∃ r, getnextNolock cfg fcb s ⟨0, 0, 0, 0⟩ = some r ∧
      NextGood cfg els (first + k) n (els n) r := by
  have hle := h.layout.le
  rw [getnextNolock, hs]
  dsimp only
  rw [if_pos rfl]
  exact enter_sector h h1 h2
    (fun l rounds' hl hr hgoods => getnextLoop_spec h h1 h2 hl (by omega) hgoods) (by omega) 0 0

end next

/-! ### Walking -/

/-- State of a callback that is called for a list of entries, until it returns an error. -/
def visit {σ : Type} (cb : σ → Loc → ℤ × σ) (st : σ) : List Loc → ℤ × σ
  | [] => (0, st)
  | loc :: locs => if (cb st loc).1 ≠ 0 then cb st loc else visit cb (cb st loc).2 locs

section walks

variable {fcb : State} {first k n rounds : ℕ} {els : ℕ → List Entry} {top : ℕ → ℕ} {σ : Type}
  {cb : σ → Loc → ℤ × σ} {st : σ}

/-- Entries that are left, in all sectors or in one. -/
def left (cfg : Cfg) (els : ℕ → List Entry) (last n : ℕ) (zs : List Entry) :
    Option ℕ → List Entry
  | none => goods cfg zs ++ goods cfg (entries els (n + 1) (last - n))
  | some _ => goods cfg zs

variable {zs : List Entry} {l : Loc} {r : ℤ × Loc}

theorem walkLoop_next {s start : Option ℕ}
    (h : Rep cfg fcb first k els top) (h1 : first ≤ n) (h2 : n ≤ first + k)
    (hs : ∀ s', s = some s' → s' = n % cfg.sectorCnt)
    (hget : getnextNolock cfg fcb start l = some r) (hnext : NextGood cfg els (first + k) n zs r)
    (hrounds : (left cfg els (first + k) n zs s).length < rounds) :
    walkLoop cfg fcb s cb rounds start l st =
      some (visit cb st ((left cfg els (first + k) n zs s).map Entry.loc)) := by
  have hle := h.layout.le
  induction rounds generalizing n zs start l r st with
  | zero => omega
  | succ rounds ih =>
    simp only [walkLoop, hget, bind_eq_bind, bind_some]
    cases hnext with
    | here pre x post hels hgoods =>
      have hx := h.layout.sector n h1 (by omega) x (by simp [hels])
      have hsame : ¬ (s.isSome = true ∧ s ≠ some x.loc.sector) := by
        rintro ⟨hsome, hne⟩
        obtain ⟨s', rfl⟩ := isSome_iff_exists.mp hsome
        exact hne (by rw [hs s' rfl, Entry.loc, hx])
      have hleft : left cfg els (first + k) n zs s = x :: left cfg els (first + k) n post s := by
        cases s with
        | none => rw [left, hgoods, cons_append, left]
        | some s => rw [left, hgoods, left]
      rw [hleft, length_cons] at hrounds
      dsimp only
      rw [hleft, map_cons, visit, if_neg (by decide), if_neg hsame]
      split_ifs
      · rfl
      · obtain ⟨r, hget', hnext'⟩ := getnextNolock_next h h1 h2 hels
        exact ih h1 h2 hs hget' hnext' (by omega)
    | later n' pre x post hlt hle' hels hnone hgoods =>
      have hx := h.layout.sector n' (by omega) (by omega) x (by simp [hels])
      dsimp only
      rw [if_neg (by decide)]
      cases s with
      | none =>
        have hleft : left cfg els (first + k) n zs none =
            x :: left cfg els (first + k) n' post none := by
          rw [left, hnone, nil_append, hgoods, left]
        rw [hleft, length_cons] at hrounds
        rw [hleft, map_cons, visit, if_neg (by simp)]
        split_ifs
        · rfl
        · obtain ⟨r, hget', hnext'⟩ := getnextNolock_next h (by omega) hle' hels
          exact ih (by omega) hle' (fun _ hs' => by cases hs') hget' hnext' (by omega)
      | some s =>
        have hother : some s ≠ some x.loc.sector := by
          rw [hs s rfl, Entry.loc, hx]
          simpa using mod_ne (c := cfg.sectorCnt) (by omega : n ≠ n') (by omega) (by omega)
        rw [if_pos ⟨rfl, hother⟩, left, hnone]
        rfl
    | none r hr hnone hlater =>
      rw [if_pos hr]
      cases s with
      | none =>
        rw [left, hnone, hlater]
        rfl
      | some s =>
        rw [left, hnone]
        rfl

/-- **A walk visits the good entries of the log**, in order. -/
theorem walk_spec (h : Rep cfg fcb first k els top)
    (hrounds : (goods cfg (entries els first (k + 1))).length < rounds) :
    walk cfg fcb none cb rounds st =
      some (visit cb st ((goods cfg (entries els first (k + 1))).map Entry.loc)) := by
  obtain ⟨r, hget, hnext⟩ := getnextNolock_first h (le_refl first) (by omega) (s := none) h.oldest
  have hleft : left cfg els (first + k) first (els first) none =
      goods cfg (entries els first (k + 1)) := by
    rw [left, entries_succ, goods_append, Nat.add_sub_cancel_left]
  rw [← hleft] at hrounds ⊢
  exact walkLoop_next h (le_refl _) (by omega) (fun _ hs => by cases hs) hget hnext hrounds

theorem entries_sector {a m c : ℕ} (hsec : ∀ j, a ≤ j → j < a + m → ∀ x ∈ els j, x.sector = j % c)
    (hne : ∀ j, a ≤ j → j < a + m → j ≠ n → j % c ≠ n % c) :
    (entries els a m).filter (fun x => x.sector = n % c) =
      if a ≤ n ∧ n < a + m then els n else [] := by
  induction m generalizing a with
  | zero => rw [entries_zero, filter_nil, if_neg (by omega)]
  | succ m ih =>
    rw [entries_succ, filter_append, ih (fun j h1 h2 => hsec j (by omega) (by omega))
      (fun j h1 h2 => hne j (by omega) (by omega))]
    rcases eq_or_ne a n with rfl | han
    · rw [if_neg (by omega), if_pos (by omega), append_nil, filter_eq_self]
      intro x hx
      simpa using hsec a (le_refl _) (by omega) x hx
    have hnil : (els a).filter (fun x => x.sector = n % c) = [] := by
      refine filter_eq_nil_iff.mpr fun x hx => ?_
      rw [hsec a (le_refl _) (by omega) x hx]
      simpa using hne a (le_refl _) (by omega) han
    rw [hnil, nil_append]
    split_ifs <;> first | rfl | omega

/-- **A walk of a sector in use** visits its good entries. -/
theorem walk_used (h : Rep cfg fcb first k els top) (h1 : first ≤ n) (h2 : n ≤ first + k)
    (hrounds : (goods cfg (els n)).length < rounds) :
    walk cfg fcb (some (n % cfg.sectorCnt)) cb rounds st =
      some (visit cb st ((goods cfg (els n)).map Entry.loc)) := by
  obtain ⟨r, hget, hnext⟩ := getnextNolock_first h h1 h2 (s := some (n % cfg.sectorCnt)) rfl
  refine walkLoop_next h h1 h2 ?_ hget hnext hrounds
  rintro s' hs
  exact (Option.some.inj hs).symm

theorem NextGood.sector (h : Rep cfg fcb first k els top)
    (h1 : first ≤ n) (h2 : n ≤ first + k) (hnext : NextGood cfg els (first + k) n zs r) :
    r.1 = -ENOTSUP ∨ ∃ n', first ≤ n' ∧ n' ≤ first + k ∧ r.2.sector = n' % cfg.sectorCnt := by
  cases hnext with
  | here pre x post hels hgoods =>
    exact .inr ⟨n, h1, h2, h.layout.sector n h1 (by omega) x (by simp [hels])⟩
  | later n' pre x post hlt hle hels hnone hgoods =>
    exact .inr ⟨n', by omega, hle, h.layout.sector n' (by omega) (by omega) x (by simp [hels])⟩
  | none r hr hnone hlater => exact .inl hr

theorem getnextLoop_free (h : Rep cfg fcb first k els top) (h1 : first + k < n)
    (h2 : n < first + cfg.sectorCnt) (hl : l.sector = n % cfg.sectorCnt)
    (hrounds : first + cfg.sectorCnt - n + 2 * k + 2 ≤ rounds) :
    ∃ r, getnextLoop cfg fcb rounds .nextSector l = some r ∧
      (r.1 = -ENOTSUP ∨ ∃ n', first ≤ n' ∧ n' ≤ first + k ∧ r.2.sector = n' % cfg.sectorCnt) := by
  induction hd : first + cfg.sectorCnt - n generalizing n rounds l with
  | zero => omega
  | succ d ih =>
    rcases rounds with _ | rounds
    · omega
    have hne : ¬ l.sector = fcb.activeSector := by
      rw [hl, h.activeSector]
      exact mod_ne (by omega) (by omega) (by omega)
    rw [getnextLoop, if_neg hne, hl, getnextSector_mod]
    rcases Nat.lt_or_ge (n + 1) (first + cfg.sectorCnt) with hlt | hge
    · dsimp only
      rw [elemInfo_erased fun y _ hy => h.layout.free (n + 1) (by omega) hlt y hy]
      dsimp only
      rw [if_neg (by decide), if_neg (by decide)]
      exact ih (by omega) hlt rfl (by omega) (by omega)
    have hwrap : (n + 1) % cfg.sectorCnt = first % cfg.sectorCnt := by
      rw [show n + 1 = first + cfg.sectorCnt by omega, Nat.add_mod_right]
    rw [hwrap]
    obtain ⟨r, hloop, hnext⟩ := enter_sector h (le_refl first) (by omega)
      (fun l' rounds' hl' hr hgoods => getnextLoop_spec h (le_refl _) (by omega) hl' (by omega)
        hgoods) (by omega : 0 < rounds) l.dataOff l.dataLen
    exact ⟨r, hloop, hnext.sector h (le_refl _) (by omega)⟩

theorem walk_free (h : Rep cfg fcb first k els top) (h1 : first + k < n)
    (h2 : n < first + cfg.sectorCnt) (hrounds : 0 < rounds) :
    walk cfg fcb (some (n % cfg.sectorCnt)) cb rounds st = some (0, st) := by
  rcases rounds with _ | rounds
  · omega
  obtain ⟨r, hget, hr⟩ : ∃ r,
      getnextNolock cfg fcb (some (n % cfg.sectorCnt)) ⟨0, 0, 0, 0⟩ = some r ∧
      (r.1 = -ENOTSUP ∨ ∃ n', first ≤ n' ∧ n' ≤ first + k ∧ r.2.sector = n' % cfg.sectorCnt) := by
    rw [getnextNolock]
    dsimp only [getD_some]
    rw [if_pos rfl, elemInfo_erased fun y _ hy => h.layout.free n (by omega) h2 y hy]
    dsimp only
    rw [if_neg (by decide), if_neg (by decide)]
    exact getnextLoop_free h h1 h2 rfl (by omega)
  simp only [walk, walkLoop, hget, bind_eq_bind, bind_some]
  rcases eq_or_ne r.1 (-ENOTSUP) with hend | hend
  · rw [if_pos hend]
    rfl
  obtain ⟨n', h1', h2', hsec⟩ := hr.resolve_left hend
  have hne : some (n % cfg.sectorCnt) ≠ some r.2.sector := by
    rw [hsec]
    simpa using mod_ne (c := cfg.sectorCnt) (by omega : n ≠ n') (by omega) (by omega)
  rw [if_neg hend, if_pos ⟨rfl, hne⟩]
  rfl

end walks

/-! ### Every run -/

section runs

variable {sys : Sys} {σ : Type}

/-- Every entry of the log that `fcb_elem_info` accepts was finished. -/
def OnlyFinished (cfg : Cfg) (sys : Sys) : Prop := ∀ x ∈ sys.log, x.Good cfg → x.finished = true

theorem goods_eq_finished {xs : List Entry} (h : ∀ x ∈ xs, x.Good cfg → x.finished = true) :
    goods cfg xs = xs.filter fun x => x.finished := by
  refine filter_congr fun x hx => ?_
  rw [Bool.eq_iff_iff, decide_eq_true_iff]
  exact ⟨h x hx, Entry.Good.of_finished⟩

theorem Inv.walk_sector (h : Inv cfg sys) {s : ℕ} (hs : s < cfg.sectorCnt)
    (cb : σ → Loc → ℤ × σ) (st : σ) {rounds : ℕ} (hrounds : sys.log.length < rounds) :
    walk cfg sys.fcb (some s) cb rounds st =
      some (visit cb st (((goods cfg sys.log).filter fun x => x.sector = s).map Entry.loc)) := by
  obtain ⟨first, k, els, top, hrep, hlog⟩ := h
  have hle := hrep.layout.le
  obtain ⟨hmod, h1, h2⟩ := numberOf_spec cfg first hs
  generalize numberOf cfg first s = n at hmod h1 h2
  have hsector : (goods cfg sys.log).filter (fun x => x.sector = s) =
      goods cfg (if first ≤ n ∧ n < first + (k + 1) then els n else []) := by
    rw [← hmod, hlog, goods, filter_comm, entries_sector hrep.layout.sector
      fun j hj1 hj2 hne => mod_ne hne (by omega) (by omega), goods]
  have hlen : (goods cfg (if first ≤ n ∧ n < first + (k + 1) then els n else [])).length ≤
      sys.log.length := by
    rw [← hsector]
    exact (length_filter_le _ _).trans (length_filter_le _ _)
  rw [hsector, ← hmod]
  split_ifs at hlen ⊢ with hused
  · exact walk_used hrep h1 (by omega) (by omega)
  · exact walk_free hrep (by omega) h2 (by omega)

/-- **Walks are exact.** While `fcb_init` finds the ids of the sectors in order, a walk visits just
the finished entries, in order, if no other entry has a CRC that is the erase value. Their data is
in flash. -/
theorem fcb_walk_exact
    (h : Reach cfg (fun sys op => op = .init → idGt (oldestId sys.fcb) sys.fcb.activeId = false) sys)
    (hcrc : OnlyFinished cfg sys) :
    (∀ (cb : σ → Loc → ℤ × σ) (st : σ) (rounds : ℕ), sys.log.length < rounds →
      walk cfg sys.fcb none cb rounds st =
        some (visit cb st ((sys.log.filter fun x => x.finished).map Entry.loc)) ∧
      ∀ s < cfg.sectorCnt, walk cfg sys.fcb (some s) cb rounds st =
        some (visit cb st (((sys.log.filter fun x => x.finished).filter
          fun x => x.sector = s).map Entry.loc))) ∧
    (∀ x ∈ sys.log, x.len ≤ FCB_MAX_LEN ∧
      loadBytes (sys.fcb.flash x.sector) x.dataOff x.len = x.data) ∧
    ∀ len ≤ FCB_MAX_LEN, ∃ buf, putLen cfg len = some buf ∧
      ∀ buf0 buf1, buf <+: [buf0, buf1] → getLen cfg buf0 buf1 = some (buf.length, len) := by
  have hinv : Inv cfg sys := h.inv fun sys hok => hok rfl
  rw [← goods_eq_finished hcrc]
  refine ⟨fun cb st rounds hrounds => ⟨?_, fun s hs => hinv.walk_sector hs cb st hrounds⟩, ?_, ?_⟩
  · obtain ⟨first, k, els, top, hrep, hlog⟩ := hinv
    rw [hlog] at hrounds ⊢
    exact walk_spec hrep (Nat.lt_of_le_of_lt (length_filter_le _ _) hrounds)
  · intro x hx
    obtain ⟨first, k, els, top, hrep, hlog⟩ := hinv
    rw [hlog] at hx
    have hentry := hrep.entryAt hx
    exact ⟨hentry.len_le, hentry.data⟩
  · intro len hlen
    exact ⟨_, putLen_eq hlen, fun buf0 buf1 hbuf => getLen_putLen cfg hlen (putLen_eq hlen) hbuf⟩

end runs

section twoSectors

def collect (locs : List Loc) (loc : Loc) : ℤ × List Loc := (0, locs ++ [loc])

def appendByte (j : ℕ) (byte : UInt8) : List Op := [.append 1, .write j 0 [byte], .finish j]

/-- The walk of a buffer with one entry. -/
theorem fcb_walk_exact_one : ∃ sys, run twoSectors ⟨rotated 0, []⟩ (appendByte 0 97) = some sys ∧
    OnlyFinished twoSectors sys ∧ sys.log.length = 1 ∧ walk twoSectors sys.fcb none collect 2 [] =
      some (visit collect [] ((sys.log.filter fun x => x.finished).map Entry.loc)) := by
  have hsome : (run twoSectors ⟨rotated 0, []⟩ (appendByte 0 97)).isSome = true := by
    decide +kernel
  obtain ⟨sys, hrun⟩ := isSome_iff_exists.mp hsome
  have hlog : (run twoSectors ⟨rotated 0, []⟩ (appendByte 0 97)).map Sys.log =
      some [⟨0, 8, 9, 1, [97], true⟩] := by decide +kernel
  rw [hrun, map_some, Option.some.injEq] at hlog
  have hfinished : OnlyFinished twoSectors sys := by
    intro x hx _
    rw [hlog, mem_singleton] at hx
    rw [hx]
  have hstart : Reach twoSectors (fun sys op => op = .init →
      idGt (oldestId sys.fcb) sys.fcb.activeId = false) ⟨rotated 0, []⟩ :=
    .start (fun _ _ _ _ => rfl) init_blank
  have hreach := hstart.run (by
    intro op hop _ hinit
    rw [hinit] at hop
    simp [appendByte] at hop) hrun
  have hlen : sys.log.length = 1 := by rw [hlog, length_singleton]
  exact ⟨sys, hrun, hfinished, hlen,
    ((fcb_walk_exact hreach hfinished).1 collect [] 2 (by omega)).1⟩

/-- An entry in each of the sectors, and `fcb_init`. -/
def twoEntries : List Op := appendByte 0 97 ++ .appendToScratch :: appendByte 1 98 ++ [.init]

theorem run_twoEntries : ∃ sys, run twoSectors ⟨rotated 32767, []⟩ twoEntries = some sys ∧
    sys.log = [⟨1, 8, 9, 1, [97], true⟩, ⟨0, 8, 9, 1, [98], true⟩] ∧
    walk twoSectors sys.fcb none collect 3 [] = some (0, [⟨0, 8, 9, 1⟩, ⟨1, 8, 9, 1⟩]) := by
  have hlog : (run twoSectors ⟨rotated 32767, []⟩ twoEntries).map Sys.log =
      some [⟨1, 8, 9, 1, [97], true⟩, ⟨0, 8, 9, 1, [98], true⟩] := by decide +kernel
  have hwalk : ((run twoSectors ⟨rotated 32767, []⟩ twoEntries).bind
      fun sys => walk twoSectors sys.fcb none collect 3 []) =
      some (0, [⟨0, 8, 9, 1⟩, ⟨1, 8, 9, 1⟩]) := by decide +kernel
  obtain ⟨sys, hrun, hsys⟩ := bind_eq_some_iff.mp hwalk
  obtain ⟨sys', hrun', hsys'⟩ := map_eq_some_iff.mp hlog
  obtain rfl : sys = sys' := Option.some.inj (hrun.symm.trans hrun')
  exact ⟨sys, hrun, hsys', hsys⟩

/-- With the ids 0x7FFF and 0x8000 in use, a walk after `fcb_init` is out of order. -/
theorem walk_out_of_order : init twoSectors blank = .ok (0, rotated 0) ∧
    ∃ sys, run twoSectors ⟨rotated 0, []⟩ (List.replicate 32767 .rotate ++ twoEntries) = some sys ∧
      sys.log = [⟨1, 8, 9, 1, [97], true⟩, ⟨0, 8, 9, 1, [98], true⟩] ∧
      walk twoSectors sys.fcb none collect 3 [] = some (0, [⟨0, 8, 9, 1⟩, ⟨1, 8, 9, 1⟩]) := by
  obtain ⟨sys, hrun, hlog, hwalk⟩ := run_twoEntries
  refine ⟨init_blank, sys, ?_, hlog, hwalk⟩
  rw [run_append, run_rotations, Nat.zero_add, bind_some, hrun]

end twoSectors

end Fcb

end TlZephyr
