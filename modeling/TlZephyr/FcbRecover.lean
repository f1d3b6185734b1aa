import TlZephyr.FcbRing

/-!
# Recovery of the Flash Circular Buffer

`fcb_init` finds the oldest and the newest sector by their ids. The macro that compares two ids
subtracts `int16_t` values, which are promoted to `int` first, so that the ids are compared as signed
numbers and do not wrap around.
-/

namespace TlZephyr

open List

namespace Fcb

open Memory LittleEndian

variable {cfg : Cfg}

/-! ### Scan -/

/-- The ids found are the smallest and the largest of those seen, with their sectors. -/
structure FoundIn (seen : ℕ → ℕ → Prop) (found : Found) : Prop where
  oldest : seen found.oldestSector found.oldest
  newest : seen found.newestSector found.newest
  bounds : ∀ s id, seen s id → toInt16 found.oldest ≤ toInt16 id ∧ toInt16 id ≤ toInt16 found.newest

section scan

variable {flash : Flash} {found : Found} {s id : ℕ}

theorem idGt_iff {a b : ℕ} : idGt a b = true ↔ toInt16 b < toInt16 a := by
  rw [idGt, decide_eq_true_iff]
  omega

variable {seen : ℕ → ℕ → Prop}

theorem FoundIn.update (h : FoundIn seen found) (s id : ℕ) :
    FoundIn (fun s' id' => seen s' id' ∨ (s' = s ∧ id' = id)) (Found.update (some found) s id) := by
  have hold := (h.bounds _ _ h.oldest).2
  rw [Found.update]
  split_ifs with hnew hold'
  · rw [idGt_iff] at hnew
    refine ⟨.inl h.oldest, .inr ⟨rfl, rfl⟩, ?_⟩
    rintro s' id' (hseen | ⟨rfl, rfl⟩)
    · have := h.bounds s' id' hseen
      exact ⟨this.1, by dsimp only; omega⟩
    · exact ⟨by dsimp only; omega, le_refl _⟩
  · rw [idGt_iff] at hnew hold'
    refine ⟨.inr ⟨rfl, rfl⟩, .inl h.newest, ?_⟩
    rintro s' id' (hseen | ⟨rfl, rfl⟩)
    · have := h.bounds s' id' hseen
      exact ⟨by dsimp only; omega, this.2⟩
    · exact ⟨le_refl _, by dsimp only; omega⟩
  rw [idGt_iff] at hnew hold'
  refine ⟨.inl h.oldest, .inl h.newest, ?_⟩
  rintro s' id' (hseen | ⟨rfl, rfl⟩)
  · exact h.bounds s' id' hseen
  · omega

def Scanned (seen : ℕ → ℕ → Prop) : Option Found → Prop
  | none => ∀ s id, ¬ seen s id
  | some found => FoundIn seen found

/-- **What the scan finds**, where `ids` are the ids of the sectors with data. -/
theorem scan_spec (ids : ℕ → Option ℕ) {l : List ℕ} {found : Option Found}
    (hread : ∀ s ∈ l, sectorHdrRead cfg flash s = .ok (ids s)) (h : Scanned seen found) :
    ∃ found', scan cfg flash l found = .ok found' ∧
      Scanned (fun s id => seen s id ∨ (s ∈ l ∧ ids s = some id)) found' := by
  induction l generalizing seen found with
  | nil =>
    refine ⟨found, rfl, ?_⟩
    simpa using h
  | cons s l ih =>
    obtain ⟨hs, hl⟩ := forall_mem_cons.mp hread
    rw [scan, hs]
    cases hids : ids s with
    | none =>
      obtain ⟨found', hscan, hfound⟩ := ih hl h
      refine ⟨found', hscan, ?_⟩
      have hiff : ∀ s' id', (s' ∈ s :: l ∧ ids s' = some id') ↔ s' ∈ l ∧ ids s' = some id' := by
        intro s' id'
        rw [mem_cons]
        constructor
        · rintro ⟨rfl | hmem, heq⟩
          · rw [hids] at heq
            cases heq
          · exact ⟨hmem, heq⟩
        · rintro ⟨hmem, heq⟩
          exact ⟨.inr hmem, heq⟩
      simpa only [hiff] using hfound
    | some id =>
      have hupdate : Scanned (fun s' id' => seen s' id' ∨ (s' = s ∧ id' = id))
          (some (Found.update found s id)) := by
        cases found with
        | none =>
          refine ⟨.inr ⟨rfl, rfl⟩, .inr ⟨rfl, rfl⟩, ?_⟩
          rintro s' id' (hseen | ⟨rfl, rfl⟩)
          · exact absurd hseen (h s' id')
          · exact ⟨le_refl _, le_refl _⟩
        | some found => exact FoundIn.update h s id
      obtain ⟨found', hscan, hfound⟩ := ih hl hupdate
      refine ⟨found', hscan, ?_⟩
      have hiff : ∀ s' id', (seen s' id' ∨ (s' ∈ s :: l ∧ ids s' = some id')) ↔
          (seen s' id' ∨ (s' = s ∧ id' = id)) ∨ (s' ∈ l ∧ ids s' = some id') := by
        intro s' id'
        rw [mem_cons, or_assoc]
        refine or_congr_right ⟨?_, ?_⟩
        · rintro ⟨rfl | hmem, heq⟩
          · rw [hids, Option.some.injEq] at heq
            exact .inl ⟨rfl, heq.symm⟩
          · exact .inr ⟨hmem, heq⟩
        · rintro (⟨rfl, rfl⟩ | ⟨hmem, heq⟩)
          · exact ⟨.inl rfl, hids⟩
          · exact ⟨.inr hmem, heq⟩
      simpa only [hiff] using hfound

end scan

/-! ### Recovery -/

def oldestId (fcb : State) : ℕ := leValue (loadBytes (fcb.flash fcb.oldest) 6 2)

/-- `fcb_init` on the flash gives the state in memory. -/
def Recovers (cfg : Cfg) (fcb : State) : Prop :=
  ∃ fcb', init cfg fcb.flash = .ok (0, fcb') ∧ fcb'.oldest = fcb.oldest ∧
    fcb'.activeSector = fcb.activeSector ∧ fcb'.activeId = fcb.activeId ∧
    fcb'.activeOff = fcb.activeOff

section recovery

variable {fcb : State} {first k : ℕ} {els : ℕ → List Entry} {top : ℕ → ℕ}

theorem Rep.oldestId_eq (h : Rep cfg fcb first k els top) : oldestId fcb = first % 2 ^ 16 := by
  have hheader := (h.layout.used first (le_refl _) (by omega)).header
  rw [← h.oldest] at hheader
  have hparts : loadBytes (fcb.flash fcb.oldest) 0 8 =
      loadBytes (fcb.flash fcb.oldest) 0 6 ++ loadBytes (fcb.flash fcb.oldest) 6 2 :=
    loadBytes_add _ 0 6 2
  rw [hparts, hdrBytes] at hheader
  rw [oldestId, (append_inj' hheader (by simp)).2]
  exact leValue_leBytes_of_lt (Nat.mod_lt _ (by norm_num))

variable {flash : Flash} {n : ℕ}

theorem Layout.hdrRead (h : Layout cfg flash first k els top)
    (h1 : first ≤ n) (h2 : n < first + cfg.sectorCnt) :
    sectorHdrRead cfg flash (n % cfg.sectorCnt) =
      .ok (if n < first + k then some (n % 2 ^ 16) else none) := by
  have hsize := cfg.header_le (n % cfg.sectorCnt) (Nat.mod_lt _ (cnt_pos cfg))
  split_ifs with hlt
  · exact sectorHdrRead_header (Nat.mod_lt _ (by norm_num)) hsize (h.used n h1 hlt).header
  · exact sectorHdrRead_erased hsize (h.free n (by omega) h2)

def numberOf (cfg : Cfg) (first s : ℕ) : ℕ :=
  first + (s + cfg.sectorCnt - first % cfg.sectorCnt) % cfg.sectorCnt

theorem numberOf_spec (cfg : Cfg) (first : ℕ) {s : ℕ} (hs : s < cfg.sectorCnt) :
    numberOf cfg first s % cfg.sectorCnt = s ∧ first ≤ numberOf cfg first s ∧
      numberOf cfg first s < first + cfg.sectorCnt := by
  have hpos := cnt_pos cfg
  have hlt := Nat.mod_lt first hpos
  refine ⟨?_, Nat.le_add_right _ _, Nat.add_lt_add_left (Nat.mod_lt _ hpos) _⟩
  have hsum : first % cfg.sectorCnt + (s + cfg.sectorCnt - first % cfg.sectorCnt) =
      s + cfg.sectorCnt := by omega
  rw [numberOf, Nat.add_mod_mod, ← Nat.mod_add_mod, hsum, Nat.add_mod_right, Nat.mod_eq_of_lt hs]

theorem Layout.scan (h : Layout cfg flash first (k + 1) els top) :
    ∃ found, Fcb.scan cfg flash (List.range cfg.sectorCnt) none = .ok (some found) ∧
      FoundIn (fun s id => ∃ n, first ≤ n ∧ n < first + (k + 1) ∧ s = n % cfg.sectorCnt ∧
        id = n % 2 ^ 16) found := by
  have hle := h.le
  have hread : ∀ s ∈ List.range cfg.sectorCnt, sectorHdrRead cfg flash s =
      .ok (if numberOf cfg first s < first + (k + 1) then
        some (numberOf cfg first s % 2 ^ 16) else none) := by
    intro s hs
    obtain ⟨hmod, h1, h2⟩ := numberOf_spec cfg first (mem_range.mp hs)
    have hread := h.hdrRead h1 h2
    rwa [hmod] at hread
  have hstart : Scanned (fun _ _ => False) none := fun _ _ => not_false
  obtain ⟨found, hscan, hfound⟩ := scan_spec _ hread hstart
  have hiff : ∀ s id, (False ∨ (s ∈ List.range cfg.sectorCnt ∧
      (if numberOf cfg first s < first + (k + 1) then
        some (numberOf cfg first s % 2 ^ 16) else none) = some id)) ↔
      ∃ n, first ≤ n ∧ n < first + (k + 1) ∧ s = n % cfg.sectorCnt ∧ id = n % 2 ^ 16 := by
    intro s id
    rw [false_or, mem_range]
    constructor
    · rintro ⟨hs, heq⟩
      obtain ⟨hmod, h1, h2⟩ := numberOf_spec cfg first hs
      rw [Option.ite_none_right_eq_some] at heq
      exact ⟨_, h1, heq.1, hmod.symm, (Option.some.inj heq.2).symm⟩
    rintro ⟨n, h1, h2, rfl, rfl⟩
    have hs := Nat.mod_lt n (cnt_pos cfg)
    obtain ⟨hmod, h1', h2'⟩ := numberOf_spec cfg first hs
    have heq : numberOf cfg first (n % cfg.sectorCnt) = n := by
      by_contra hne
      exact mod_ne hne (by omega) (by omega) hmod
    rw [heq]
    exact ⟨hs, if_pos h2⟩
  simp only [hiff] at hfound
  cases found with
  | none => exact absurd ⟨first, le_refl _, by omega, rfl, rfl⟩ (hfound _ _)
  | some found => exact ⟨found, hscan, hfound⟩

theorem toInt16_add (hk : k < 2 ^ 15) (h1 : first ≤ n) (h2 : n ≤ first + k)
    (h : toInt16 (first % 2 ^ 16) ≤ toInt16 ((first + k) % 2 ^ 16)) :
    toInt16 (n % 2 ^ 16) = toInt16 (first % 2 ^ 16) + (n - first : ℕ) := by
  simp only [toInt16] at h ⊢
  split_ifs at h ⊢ <;> omega

/-- What `fcb_init` makes of the flash: the numbers with the smallest and the largest id. -/
theorem Rep.init_spec (h : Rep cfg fcb first k els top) :
    ∃ n₁ n₂, (first ≤ n₁ ∧ n₁ ≤ first + k) ∧ (first ≤ n₂ ∧ n₂ ≤ first + k) ∧
      (∀ n, first ≤ n → n ≤ first + k → toInt16 (n₁ % 2 ^ 16) ≤ toInt16 (n % 2 ^ 16) ∧
        toInt16 (n % 2 ^ 16) ≤ toInt16 (n₂ % 2 ^ 16)) ∧
      init cfg fcb.flash = .ok (0, ⟨n₁ % cfg.sectorCnt, n₂ % cfg.sectorCnt, top n₂, n₂ % 2 ^ 16,
        fcb.flash⟩) := by
  obtain ⟨found, hscan, hfound⟩ := h.layout.scan
  obtain ⟨n₁, h₁, h₁', hsec₁, hid₁⟩ := hfound.oldest
  obtain ⟨n₂, h₂, h₂', hsec₂, hid₂⟩ := hfound.newest
  have hused := h.layout.used n₂ h₂ h₂'
  obtain ⟨loc, hend, hoff⟩ := endLoop_spec (d := 0) (n := 0) hused.elems hused.erased
    (Nat.lt_succ_of_le hused.elems.length_le_size)
  refine ⟨n₁, n₂, ⟨h₁, by omega⟩, ⟨h₂, by omega⟩, fun n h1 h2 => ?_, ?_⟩
  · have hbounds := hfound.bounds _ _ ⟨n, h1, by omega, rfl, rfl⟩
    rwa [hid₁, hid₂] at hbounds
  · simp only [init, hscan, initAt, hsec₂, hend, hoff, hsec₁, hid₂]

theorem Rep.init_eq (h : Rep cfg fcb first k els top)
    (horder : toInt16 (first % 2 ^ 16) ≤ toInt16 ((first + k) % 2 ^ 16)) :
    init cfg fcb.flash = .ok (0, fcb) := by
  have hle := h.layout.le
  have hcnt := cfg.cnt_lt
  obtain ⟨n₁, n₂, h₁, h₂, hbounds, hinit⟩ := h.init_spec
  have hk : k < 2 ^ 15 := by omega
  have hval₁ := toInt16_add hk h₁.1 h₁.2 horder
  have hval₂ := toInt16_add hk h₂.1 h₂.2 horder
  have hvalk := toInt16_add hk (by omega : first ≤ first + k) (le_refl _) horder
  have hfirst := hbounds first (le_refl _) (by omega)
  have hlast := hbounds (first + k) (by omega) (le_refl _)
  obtain rfl : n₁ = first := by omega
  obtain rfl : n₂ = n₁ + k := by omega
  rw [hinit, ← h.oldest, ← h.activeSector, ← h.activeId, ← h.activeOff]

/-- **The state is recovered just if the ids in use are in order as signed numbers.** -/
theorem recovers_iff (h : Rep cfg fcb first k els top) :
    Recovers cfg fcb ↔ idGt (oldestId fcb) fcb.activeId = false := by
  have hle := h.layout.le
  rw [Bool.eq_false_iff, Ne, idGt_iff, not_lt, h.oldestId_eq, h.activeId]
  constructor
  · rintro ⟨fcb', hinit', -, hactive, -, -⟩
    obtain ⟨n₁, n₂, h₁, h₂, hbounds, hinit⟩ := h.init_spec
    cases hinit.symm.trans hinit'
    have hnum : n₂ = first + k := by
      by_contra hne
      exact mod_ne hne (by omega) (by omega) (hactive.trans h.activeSector)
    rw [← hnum]
    exact (hbounds first (le_refl _) (by omega)).2
  · intro horder
    exact ⟨fcb, h.init_eq horder, rfl, rfl, rfl, rfl⟩

end recovery

/-! ### Runs -/

/-- States that operations with the property `ok` lead to, from erased flash on. -/
inductive Reach (cfg : Cfg) (ok : Sys → Op → Prop) : Sys → Prop
  | start {flash : Flash} {fcb : State}
      (herased : ∀ s < cfg.sectorCnt, ∀ y < cfg.size s, flash s y = cfg.eraseValue)
      (hinit : init cfg flash = .ok (0, fcb)) : Reach cfg ok ⟨fcb, []⟩
  | step {sys sys' : Sys} (op : Op) (h : Reach cfg ok sys) (hok : ok sys op)
      (hexec : exec cfg sys op = some sys') : Reach cfg ok sys'

def run (cfg : Cfg) : Sys → List Op → Option Sys
  | sys, [] => some sys
  | sys, op :: ops => (exec cfg sys op).bind fun sys => run cfg sys ops

section runs

variable {sys sys' : Sys} {ok : Sys → Op → Prop}

theorem init_erased {flash : Flash} {fcb : State} {rc : ℤ}
    (herased : ∀ s < cfg.sectorCnt, ∀ y < cfg.size s, flash s y = cfg.eraseValue)
    (hinit : init cfg flash = .ok (rc, fcb)) :
    rc = 0 ∧ Rep cfg fcb 0 0 (fun _ => []) (fun _ => hdrLen cfg) := by
  have hpos := cnt_pos cfg
  have hlayout : Layout cfg flash 0 0 (fun _ => []) (fun _ => hdrLen cfg) :=
    ⟨Nat.zero_le _, fun n _ h2 => absurd h2 (by omega), fun n _ h2 => absurd h2 (by omega),
      fun n _ _ => herased _ (Nat.mod_lt _ hpos)⟩
  obtain ⟨flash', hhdr, hlayout'⟩ := hlayout.start hpos
  have hread : ∀ s ∈ List.range cfg.sectorCnt, sectorHdrRead cfg flash s = .ok none := by
    intro s hs
    have hs := mem_range.mp hs
    exact sectorHdrRead_erased (cfg.header_le s hs) (herased s hs)
  have hstart : Scanned (fun _ _ => False) none := fun _ _ => not_false
  obtain ⟨found, hscan, hfound⟩ := scan_spec _ hread hstart
  cases found with
  | some found =>
    obtain hnone | ⟨-, hnone⟩ := hfound.oldest
    · exact absurd hnone not_false
    · cases hnone
  | none =>
    have hused := hlayout'.used 0 (le_refl _) (by omega)
    rw [Nat.zero_mod, Nat.zero_mod, Function.update_self, Function.update_self] at hused
    obtain ⟨loc, hend, hoff⟩ := endLoop_spec (d := 0) (n := 0) hused.elems hused.erased
      (Nat.lt_succ_of_le (Nat.zero_le (cfg.size 0)))
    rw [Nat.add_zero, Nat.zero_mod, Nat.zero_mod] at hhdr
    simp only [init, hscan, hhdr, initAt, hend, hoff] at hinit
    cases hinit
    refine ⟨rfl, ?_, ?_, ?_, ?_, ?_⟩
    · simpa using hlayout'
    · rw [Nat.zero_mod]
    · rw [Nat.zero_mod]
    · rfl
    · rfl

theorem Inv.exec {op : Op} (h : Inv cfg sys) (hexec : Fcb.exec cfg sys op = some sys')
    (hinit : op = .init → idGt (oldestId sys.fcb) sys.fcb.activeId = false) : Inv cfg sys' := by
  cases op with
  | append len => exact h.append hexec
  | write j off bytes => exact h.write hexec
  | finish j => exact h.finish hexec
  | rotate =>
    cases hexec
    exact h.rotate
  | appendToScratch =>
    cases hexec
    obtain ⟨first, k, els, top, hrep, hlog⟩ := h
    obtain ⟨k', els', top', hrep', hents⟩ := hrep.appendToScratch
    exact ⟨first, k', els', top', hrep', hlog.trans hents.symm⟩
  | clear =>
    obtain ⟨first, k, els, top, hrep, hlog⟩ := h
    obtain ⟨fcb', first', k', els', top', hclear, hrep', hents⟩ := hrep.clear
    simp only [Fcb.exec, hclear, Option.bind_eq_bind, Option.bind_some, Option.pure_def,
      Option.some.injEq] at hexec
    subst hexec
    exact ⟨first', k', els', top', hrep', hents.symm⟩
  | init =>
    obtain ⟨first, k, els, top, hrep, hlog⟩ := h
    have horder := hinit rfl
    rw [Bool.eq_false_iff, Ne, idGt_iff, not_lt, hrep.oldestId_eq, hrep.activeId] at horder
    simp only [Fcb.exec, hrep.init_eq horder, Option.some.injEq] at hexec
    subst hexec
    exact ⟨first, k, els, top, hrep, hlog⟩

theorem Reach.inv (h : Reach cfg ok sys)
    (hinit : ∀ sys, ok sys .init → idGt (oldestId sys.fcb) sys.fcb.activeId = false) :
    Inv cfg sys := by
  induction h with
  | start herased hstart =>
    exact ⟨0, 0, _, _, (init_erased herased hstart).2, rfl⟩
  | step op _ hok hexec ih =>
    refine ih.exec hexec ?_
    rintro rfl
    exact hinit _ hok

variable {ops : List Op}

theorem Reach.run (h : Reach cfg ok sys) (hok : ∀ op ∈ ops, ∀ sys, ok sys op)
    (hrun : Fcb.run cfg sys ops = some sys') : Reach cfg ok sys' := by
  induction ops generalizing sys with
  | nil =>
    cases hrun
    exact h
  | cons op ops ih =>
    obtain ⟨sys₁, hexec, hrun⟩ := Option.bind_eq_some_iff.mp hrun
    obtain ⟨hop, hops⟩ := forall_mem_cons.mp hok
    exact ih (h.step op (hop sys) hexec) hops hrun

theorem run_append {ops' : List Op} :
    run cfg sys (ops ++ ops') = (run cfg sys ops).bind fun sys => run cfg sys ops' := by
  induction ops generalizing sys with
  | nil => rfl
  | cons op ops ih => simp only [cons_append, run, ih, Option.bind_assoc]

/-- **Recovery.** After every run, `fcb_init` on the flash gives the state in memory just if the ids
of the sectors in use are in order as signed 16-bit numbers. -/
theorem fcb_recovery (h : Reach cfg (fun _ op => op ≠ .init) sys) :
    Recovers cfg sys.fcb ↔ idGt (oldestId sys.fcb) sys.fcb.activeId = false := by
  obtain ⟨first, k, els, top, hrep, -⟩ := h.inv fun _ hok => absurd rfl hok
  exact recovers_iff hrep

end runs

/-! ### Two sectors -/

section twoSectors

theorem two_lt_cnt : 2 < 2 ^ 8 := by norm_num

theorem zero_lt_magic : 0 < 2 ^ 32 - 1 := by norm_num

theorem align_one : ∃ k < 8, 1 = 2 ^ k := ⟨0, by norm_num, rfl⟩

def twoSectors : Cfg where
  magic := 0
  version := 0
  sectorCnt := 2
  scratchCnt := 0
  size := fun _ => 32
  align := 1
  eraseValue := 0xff
  allowFixed := false
  crcDisabled := false
  magic_lt := zero_lt_magic
  cnt_lt := two_lt_cnt
  scratch_lt := Nat.two_pos
  header_le := fun _ _ => Nat.le_add_left 8 24
  align_pow := align_one

def blank : Flash := fun _ _ => 0xff

/-- State after `n` rotations of an empty buffer. -/
def rotated (n : ℕ) : State where
  oldest := n % 2
  activeSector := n % 2
  activeOff := 8
  activeId := n % 2 ^ 16
  flash := Function.update blank (n % 2)
    (storeBytes (blank (n % 2)) 0 (hdrBytes twoSectors (n % 2 ^ 16)))

theorem init_blank : init twoSectors blank = .ok (0, rotated 0) := by
  rfl

theorem rotate_rotated (n : ℕ) : rotate twoSectors (rotated n) = (0, rotated (n + 1)) := by
  have hnext : getnextSector twoSectors (n % 2) = (n + 1) % 2 := getnextSector_mod twoSectors n
  have herase : eraseSector twoSectors (rotated n).flash (n % 2) = blank := by
    rw [eraseSector, rotated, Function.update_idem]
    exact Function.update_eq_self _ _
  have hwrite : sectorHdrInit twoSectors blank ((n + 1) % 2) ((n + 1) % 2 ^ 16) =
      some (rotated (n + 1)).flash := by
    have hsize : ¬ 0 + 8 > twoSectors.size ((n + 1) % 2) := by simp [twoSectors]
    rw [sectorHdrInit, ← hdrBytes, flashWrite, length_hdrBytes, if_neg hsize]
    rfl
  have hid : ((rotated n).activeId + 1) % 2 ^ 16 = (n + 1) % 2 ^ 16 := Nat.mod_add_mod n _ 1
  have hold : (rotated n).oldest = n % 2 := rfl
  have hactive : (rotated n).oldest = (rotated n).activeSector := rfl
  rw [rotate, if_pos hactive, hold, herase, hnext]
  simp only [activate, hid, hwrite, Option.bind_eq_bind, Option.bind_some, Option.pure_def]
  rw [hnext]
  rfl

theorem run_rotations (n i : ℕ) :
    run twoSectors ⟨rotated i, []⟩ (List.replicate n .rotate) = some ⟨rotated (i + n), []⟩ := by
  induction n generalizing i with
  | zero => rfl
  | succ n ih =>
    rw [replicate_succ, run, exec, rotate_rotated, Option.bind_some, filter_nil, ih,
      Nat.add_right_comm, Nat.add_assoc]

/-- The recovery of a buffer that was just initialised. -/
theorem fcb_recovery_blank :
    Reach twoSectors (fun _ op => op ≠ .init) ⟨rotated 0, []⟩ ∧ Recovers twoSectors (rotated 0) := by
  have hstart : Reach twoSectors (fun _ op => op ≠ .init) ⟨rotated 0, []⟩ :=
    .start (fun _ _ _ _ => rfl) init_blank
  exact ⟨hstart, (fcb_recovery hstart).mpr (by decide +kernel)⟩

/-- After 32767 rotations the ids are 0x7FFF and 0x8000, and the oldest sector is not found. -/
theorem recovery_fails : ∃ sys, run twoSectors ⟨rotated 0, []⟩
      (List.replicate 32767 .rotate ++ [.appendToScratch]) = some sys ∧
    Reach twoSectors (fun _ op => op ≠ .init) sys ∧ ¬ Recovers twoSectors sys.fcb := by
  have hrun : run twoSectors ⟨rotated 0, []⟩ (List.replicate 32767 .rotate ++ [.appendToScratch]) =
      some ⟨(appendToScratch twoSectors (rotated 32767)).2, []⟩ := by
    rw [run_append, run_rotations, Nat.zero_add]
    rfl
  have hstart : Reach twoSectors (fun _ op => op ≠ .init) ⟨rotated 0, []⟩ :=
    .start (fun _ _ _ _ => rfl) init_blank
  have hreach := hstart.run (by
    intro op hop _
    rcases mem_append.mp hop with hop | hop
    · rw [eq_of_mem_replicate hop]
      simp
    · rw [mem_singleton.mp hop]
      simp) hrun
  obtain ⟨first, k, els, top, hrep, -⟩ := hreach.inv fun _ hok => absurd rfl hok
  refine ⟨_, hrun, hreach, ?_⟩
  rw [recovers_iff hrep, Bool.eq_false_iff, not_not]
  decide +kernel

end twoSectors

end Fcb

end TlZephyr
