import Mathlib

/-!
# Red-Black Trees with a Path to the Root

Binary search trees with red and black nodes, and the bottom-up repair of their balance along a
path from the node changed to the root. A path is a list of frames, the parent first; a frame is
a node with a hole on one side. `fixRed` repairs a red node under a red parent, `fixBlack` a
subtree that misses a black node, and `insert` and `remove` are built from them.

Black height alone bounds the height of a tree by twice itself. `DepthBound d` adds what lets an
insertion depth stand for the height of all later trees: `d` bounds the height and is at least
twice the black height less one.
-/

namespace RedBlack

open List (length_cons mem_append mem_cons)

inductive Color
  | red
  | black
deriving DecidableEq, Repr

inductive Side
  | left
  | right
deriving DecidableEq, Repr

def Side.other : Side → Side
  | .left => .right
  | .right => .left

inductive ColTree (α : Type*)
  | nil
  | node (c : Color) (l : ColTree α) (k : α) (r : ColTree α)
deriving DecidableEq, Repr

variable {α : Type*}

namespace ColTree

def toList : ColTree α → List α
  | nil => []
  | node _ l k r => l.toList ++ k :: r.toList

def height : ColTree α → ℕ
  | nil => 0
  | node _ l _ r => max l.height r.height + 1

def isRed : ColTree α → Bool
  | node .red _ _ _ => true
  | _ => false

def blacken : ColTree α → ColTree α
  | nil => nil
  | node _ l k r => node .black l k r

/-- A node with the subtree `t` on side `s`. -/
def join (s : Side) (c : Color) (t : ColTree α) (k : α) (u : ColTree α) : ColTree α :=
  match s with
  | .left => node c t k u
  | .right => node c u k t

end ColTree

open ColTree

/-- The one of two subtrees on side `s`. -/
def pick (s : Side) (l r : ColTree α) : ColTree α :=
  match s with
  | .left => l
  | .right => r

structure Frame (α : Type*) where
  color : Color
  side : Side
  key : α
  sib : ColTree α
deriving DecidableEq, Repr

def Frame.fill (f : Frame α) (t : ColTree α) : ColTree α := join f.side f.color t f.key f.sib

/-- The whole tree around a subtree, given the path from it to the root. -/
def plug : List (Frame α) → ColTree α → ColTree α
  | [], t => t
  | f :: fs, t => plug fs (f.fill t)

/-! ### Repair -/

/-- Tree for a red node `t` under a red parent `p` and a black grandparent `g`: rotations. -/
def rotateRed (p g : Frame α) (t : ColTree α) : ColTree α :=
  if p.side = g.side then
    join g.side .black t p.key (join g.side .red p.sib g.key g.sib)
  else
    match t with
    | nil => nil
    | node _ l k r =>
      join g.side .black (join p.side .red (pick p.side.other l r) p.key p.sib) k
        (join g.side .red (pick p.side l r) g.key g.sib)

/-- The red node `t` may have a red parent. -/
def fixRed : List (Frame α) → ColTree α → ColTree α
  | [], t => t.blacken
  | [p], t => plug [p] t
  | p :: g :: fs, t =>
    if p.color = .black then plug (p :: g :: fs) t
    else if g.sib.isRed then
      fixRed fs (join g.side .red (join p.side .black t p.key p.sib) g.key g.sib.blacken)
    else plug fs (rotateRed p g t)

/-- `t` beside a black sibling misses a black node: the parent's tree, and whether it still misses
one. -/
def settle (p : Frame α) (t : ColTree α) : Option (Bool × ColTree α) :=
  match p.sib with
  | node .black l k r =>
    if !l.isRed && !r.isRed then
      some (p.color == .black, join p.side .black t p.key (node .red l k r))
    else if (pick p.side.other l r).isRed then
      some (false, join p.side p.color (join p.side .black t p.key (pick p.side l r)) k
        (pick p.side.other l r).blacken)
    else
      match pick p.side l r with
      | nil => none
      | node _ l' k' r' =>
        some (false, join p.side p.color (join p.side .black t p.key (pick p.side l' r')) k'
          (join p.side .black (pick p.side.other l' r') k (pick p.side.other l r)))
  | _ => none

/-- The subtree `t` misses a black node. -/
def fixBlack : List (Frame α) → ColTree α → Option (ColTree α)
  | [], t => some t
  | p :: fs, t =>
    match p.sib with
    | nil => none
    | node .red l k r =>
      -- the sibling goes up, and the parent gets a black one
      (settle ⟨.red, p.side, p.key, pick p.side l r⟩ t).map fun x =>
        plug (⟨.black, p.side, k, pick p.side.other l r⟩ :: fs) x.2
    | node .black _ _ _ =>
      (settle p t).bind fun x => if x.1 then fixBlack fs x.2 else some (plug fs x.2)

/-! ### Operations -/

section operations

variable [DecidableEq α] (lt : α → α → Bool)

/-- Path to `x`, or to the place where it belongs. -/
def find (x : α) : ColTree α → List (Frame α) → List (Frame α) × ColTree α
  | nil, fs => (fs, nil)
  | node c l k r, fs =>
    if k = x then (fs, node c l k r)
    else if lt x k then find x l (⟨c, .left, k, r⟩ :: fs)
    else find x r (⟨c, .right, k, l⟩ :: fs)

/-- A tree with `x`, which was not in it. -/
def insert (x : α) (t : ColTree α) : ColTree α :=
  match t with
  | nil => node .black nil x nil
  | _ => fixRed (find lt x t []).1 (node .red nil x nil)

/-- Path to the greatest key of a tree, and its node's color, left subtree and key. -/
def last : ColTree α → List (Frame α) → Option (List (Frame α) × Color × ColTree α × α)
  | nil, _ => none
  | node c l k nil, fs => some (fs, c, l, k)
  | node c l k (node c' l' k' r'), fs => last (node c' l' k' r') (⟨c, .right, k, l⟩ :: fs)

/-- Tree without a node of color `c` that has at most one child. -/
def unlink (fs : List (Frame α)) (c : Color) (child : ColTree α) : Option (ColTree α) :=
  match fs, child with
  | [], child => some child.blacken
  | fs, nil => if c = .black then fixBlack fs nil else some (plug fs nil)
  | fs, child => some (plug fs (if c = .red ∨ child.isRed then child.blacken else child))

/-- Tree without the node found. A node with two children changes places with the one
before it. -/
def removeAt (fs : List (Frame α)) (t : ColTree α) : Option (ColTree α) :=
  match t with
  | nil => some (plug fs nil)
  | node c nil _ r => unlink fs c r
  | node c l _ nil => unlink fs c l
  | node c l _ r =>
    (last l []).bind fun x => unlink (x.1 ++ ⟨c, .left, x.2.2.2, r⟩ :: fs) x.2.1 x.2.2.1

/-- Tree without `x`. -/
def remove (x : α) (t : ColTree α) : Option (ColTree α) :=
  let z := find lt x t []
  removeAt z.1 z.2

end operations

/-! ### Keys -/

def before : List (Frame α) → List α
  | [] => []
  | f :: fs => before fs ++ (match f.side with | .left => [] | .right => f.sib.toList ++ [f.key])

def after : List (Frame α) → List α
  | [] => []
  | f :: fs => (match f.side with | .left => f.key :: f.sib.toList | .right => []) ++ after fs

@[simp] theorem toList_blacken (t : ColTree α) : t.blacken.toList = t.toList := by
  cases t <;> rfl

open Frame

theorem toList_plug (fs : List (Frame α)) (t : ColTree α) :
    (plug fs t).toList = before fs ++ t.toList ++ after fs := by
  induction fs generalizing t with
  | nil => simp [plug, before, after]
  | cons f fs ih =>
    obtain ⟨c, s, k, u⟩ := f
    rw [plug, ih]
    cases s <;> simp [fill, join, toList, before, after]

theorem toList_plug_congr (fs : List (Frame α)) {t u : ColTree α} (h : t.toList = u.toList) :
    (plug fs t).toList = (plug fs u).toList := by
  rw [toList_plug, toList_plug, h]

theorem toList_rotateRed (p g : Frame α) {t : ColTree α} (ht : t ≠ nil) :
    (rotateRed p g t).toList = (g.fill (p.fill t)).toList := by
  obtain ⟨cp, sp, kp, up⟩ := p
  obtain ⟨cg, sg, kg, ug⟩ := g
  cases t with
  | nil => exact absurd rfl ht
  | node c l k r =>
    cases sp <;> cases sg <;>
      simp [rotateRed, fill, join, pick, Side.other, toList]

theorem toList_fixRed (fs : List (Frame α)) {t : ColTree α} (ht : t ≠ nil) :
    (fixRed fs t).toList = (plug fs t).toList := by
  induction fs, t using fixRed.induct with
  | case1 t => rw [fixRed, toList_blacken, plug]
  | case2 p t => rw [fixRed]
  | case3 p g fs t hp => rw [fixRed, if_pos hp]
  | case4 p g fs t hp hred ih =>
    have hne : join g.side .red (join p.side .black t p.key p.sib) g.key g.sib.blacken ≠ nil := by
      cases g.side <;> simp [join]
    rw [fixRed, if_neg hp, if_pos hred, ih hne, plug, plug]
    refine toList_plug_congr fs ?_
    obtain ⟨cp, sp, kp, up⟩ := p
    obtain ⟨cg, sg, kg, ug⟩ := g
    cases sp <;> cases sg <;> simp [fill, join, toList]
  | case5 p g fs t hp hred =>
    rw [fixRed, if_neg hp, if_neg hred, plug, plug]
    exact toList_plug_congr fs (toList_rotateRed p g ht)

theorem toList_settle {p : Frame α} {t : ColTree α} {x : Bool × ColTree α}
    (h : settle p t = some x) : x.2.toList = (p.fill t).toList := by
  obtain ⟨c, s, kp, sib⟩ := p
  cases sib with
  | nil => cases h
  | node cs l k r =>
    cases cs with
    | red => cases h
    | black =>
      simp only [settle] at h
      split_ifs at h
      · cases h
        cases s <;> simp [fill, join, toList]
      · cases h
        cases s <;> simp [fill, join, toList, pick, Side.other]
      cases s with
      | left =>
        cases l with
        | nil => cases h
        | node cl l' k' r' =>
          cases h
          simp [fill, join, toList, pick, Side.other]
      | right =>
        cases r with
        | nil => cases h
        | node cl l' k' r' =>
          cases h
          simp [fill, join, toList, pick, Side.other]

theorem toList_fixBlack {fs : List (Frame α)} {t u : ColTree α} (h : fixBlack fs t = some u) :
    u.toList = (plug fs t).toList := by
  induction fs generalizing t with
  | nil =>
    cases h
    rfl
  | cons p fs ih =>
    rw [fixBlack] at h
    split at h
    · cases h
    · rename_i l k r hsib
      obtain ⟨x, hx, rfl⟩ := Option.map_eq_some_iff.mp h
      have := toList_settle hx
      rw [plug, plug]
      refine toList_plug_congr fs ?_
      obtain ⟨c, s, kp, sib⟩ := p
      subst hsib
      cases s <;> simp_all [fill, join, toList, pick, Side.other]
    obtain ⟨x, hx, hu⟩ := Option.bind_eq_some_iff.mp h
    have hlist := toList_settle hx
    split_ifs at hu
    · rw [ih hu, plug]
      exact toList_plug_congr fs hlist
    · cases hu
      rw [plug]
      exact toList_plug_congr fs hlist

/-! ### Balance -/

/-- A balanced tree with the color of its root and its black height. -/
inductive RB : ColTree α → Color → ℕ → Prop
  | nil : RB nil .black 0
  | red {l r : ColTree α} {k : α} {h : ℕ} :
      RB l .black h → RB r .black h → RB (node .red l k r) .red h
  | black {l r : ColTree α} {k : α} {c c' : Color} {h : ℕ} :
      RB l c h → RB r c' h → RB (node .black l k r) .black (h + 1)

/-- A path in a tree of black height `b`, with a hole for a tree of color `c` and height `h`. -/
inductive Path (b : ℕ) : List (Frame α) → Color → ℕ → Prop
  | root : Path b [] .black b
  | red {s : Side} {k : α} {u : ColTree α} {fs : List (Frame α)} {h : ℕ} :
      RB u .black h → Path b fs .red h → Path b (⟨.red, s, k, u⟩ :: fs) .black h
  | black {s : Side} {k : α} {u : ColTree α} {fs : List (Frame α)} {c c' : Color} {h : ℕ} :
      RB u c h → Path b fs .black (h + 1) → Path b (⟨.black, s, k, u⟩ :: fs) c' h

section balance

variable {t u l r : ColTree α} {fs : List (Frame α)} {c c' : Color} {b h d : ℕ} {k : α} {s : Side}

theorem RB.join_red (ht : RB t .black h) (hu : RB u .black h) : RB (join s .red t k u) .red h := by
  cases s with
  | left => exact .red ht hu
  | right => exact .red hu ht

theorem RB.join_black (ht : RB t c h) (hu : RB u c' h) : RB (join s .black t k u) .black (h + 1) := by
  cases s with
  | left => exact .black ht hu
  | right => exact .black hu ht

theorem RB.pick_black (hl : RB l .black h) (hr : RB r .black h) : RB (pick s l r) .black h := by
  cases s with
  | left => exact hl
  | right => exact hr

theorem RB.pick (hl : RB l c h) (hr : RB r c' h) : ∃ c, RB (pick s l r) c h := by
  cases s with
  | left => exact ⟨_, hl⟩
  | right => exact ⟨_, hr⟩

theorem RB.isRed (h : RB t c b) : t.isRed = (c == .red) := by
  cases h <;> rfl

theorem RB.blacken_red (ht : RB t .red h) : RB t.blacken .black (h + 1) := by
  cases ht with
  | red hl hr => exact .black hl hr

theorem RB.plug (hp : Path b fs c h) (ht : RB t c h) : RB (plug fs t) .black b := by
  induction hp generalizing t with
  | root => exact ht
  | red hu _ ih => exact ih (ht.join_red hu)
  | black hu _ ih => exact ih (ht.join_black hu)

theorem Path.weaken (hp : Path b fs c h) : Path b fs .black h := by
  cases hp with
  | root => exact .root
  | red hu hp => exact .red hu hp
  | black hu hp => exact .black hu hp

theorem RB.height_le (ht : RB t c h) : t.height ≤ 2 * h + (if c = .red then 1 else 0) := by
  induction ht with
  | nil => exact le_rfl
  | red _ _ ihl ihr =>
    simp only [height, reduceCtorEq, if_true, if_false] at *
    omega
  | black _ _ ihl ihr =>
    simp only [height, reduceCtorEq, if_false] at *
    split_ifs at ihl ihr <;> omega

theorem Path.length_le (hp : Path b fs c h) :
    fs.length + 2 * h + (if c = .red then 1 else 0) ≤ 2 * b := by
  induction hp with
  | root => simp
  | red _ _ ih =>
    simp only [length_cons, reduceCtorEq, if_true, if_false] at *
    omega
  | black _ _ ih =>
    simp only [length_cons, reduceCtorEq, if_false] at *
    split_ifs <;> omega

/-- The subtrees beside a path are no deeper than `d`. -/
def Within (d : ℕ) : List (Frame α) → Prop
  | [] => True
  | f :: fs => fs.length + 1 + f.sib.height ≤ d ∧ Within d fs

theorem Within.mono {d' : ℕ} (hle : d ≤ d') : ∀ {fs : List (Frame α)}, Within d fs → Within d' fs
  | [], _ => trivial
  | _ :: _, ⟨h, hw⟩ => ⟨h.trans hle, hw.mono hle⟩

theorem height_join (s : Side) (c : Color) (t : ColTree α) (k : α) (u : ColTree α) :
    (join s c t k u).height = max t.height u.height + 1 := by
  cases s with
  | left => rfl
  | right => rw [join, height, Nat.max_comm]

theorem height_plug_le : (plug fs t).height ≤ d ↔ fs.length + t.height ≤ d ∧ Within d fs := by
  induction fs generalizing t with
  | nil => simp [RedBlack.plug, Within]
  | cons f fs ih =>
    rw [RedBlack.plug, ih, Within, fill, height_join, length_cons]
    constructor
    · rintro ⟨hle, hw⟩
      exact ⟨by omega, by omega, hw⟩
    · rintro ⟨hle, hsib, hw⟩
      exact ⟨by omega, hw⟩

theorem height_blacken (t : ColTree α) : t.blacken.height = t.height := by
  cases t <;> rfl

/-! ### Insertion -/

theorem Path.grandparent {p g : Frame α} (hp : Path b (p :: g :: fs) c h)
    (hred : p.color ≠ .black) :
    RB p.sib .black h ∧ ∃ cg, RB g.sib cg h ∧ Path b fs .black (h + 1) := by
  cases hp with
  | black _ _ => exact absurd rfl hred
  | red hu hp =>
    cases hp with
    | black hg hp => exact ⟨hu, _, hg, hp⟩

/-- A red node under a red parent: rotation makes a balanced tree of the grandparent. -/
theorem RB.rotateRed {p g : Frame α} (ht : RB t .red h) (hp : RB p.sib .black h)
    (hg : RB g.sib .black h) : RB (rotateRed p g t) .black (h + 1) := by
  cases ht with
  | @red l r k _ hl hr =>
    rw [RedBlack.rotateRed]
    split_ifs
    · exact (RB.red hl hr).join_black (hp.join_red hg)
    · exact ((RB.pick_black hl hr).join_red hp).join_black ((RB.pick_black hl hr).join_red hg)

theorem height_rotateRed {p g : Frame α} (ht : RB t .red h) :
    (rotateRed p g t).height ≤ max (g.fill (p.fill t)).height (g.sib.height + 2) := by
  cases ht with
  | @red l r k _ hl hr =>
    obtain ⟨cp, sp, kp, up⟩ := p
    obtain ⟨cg, sg, kg, ug⟩ := g
    cases sp <;> cases sg <;>
      simp only [RedBlack.rotateRed, fill, height_join, height, RedBlack.pick, Side.other,
        reduceCtorEq, if_true, if_false] <;> omega

/-- What bounds the depth of the paths of this and all later trees. -/
structure DepthBound (d b : ℕ) (t : ColTree α) : Prop where
  height_le : t.height ≤ d
  black_le : 2 * b ≤ d + 1

theorem RB.fixRed (ht : RB t .red h) (hp : Path b fs .black h)
    (hd : DepthBound d b (RedBlack.plug fs t)) (hlevel : fs.length + 2 * h + 1 ≤ d) :
    ∃ b', RB (fixRed fs t) .black b' ∧ DepthBound d b' (fixRed fs t) := by
  induction fs, t using fixRed.induct generalizing h with
  | case1 t =>
    cases hp
    refine ⟨b + 1, by rw [RedBlack.fixRed]; exact ht.blacken_red, ?_, ?_⟩
    · rw [RedBlack.fixRed]
      cases ht with
      | red hl hr => exact hd.height_le
    · simp only [List.length_nil] at hlevel
      omega
  | case2 p t =>
    rw [RedBlack.fixRed]
    cases hp with
    | red _ hp => cases hp
    | black hu hp => exact ⟨b, RB.plug (.black hu hp) ht, hd⟩
  | case3 p g fs t hblack =>
    rw [RedBlack.fixRed, if_pos hblack]
    cases hp with
    | red _ hp => cases hblack
    | black hu hp => exact ⟨b, RB.plug (.black hu hp) ht, hd⟩
  | case4 p g fs t hred haunt ih =>
    rw [RedBlack.fixRed, if_neg hred, if_pos haunt]
    obtain ⟨hpsib, cg, hgsib, hrest⟩ := hp.grandparent hred
    rw [hgsib.isRed, beq_iff_eq] at haunt
    subst haunt
    rw [RedBlack.plug, RedBlack.plug] at hd
    obtain ⟨hheight, hwithin⟩ := height_plug_le.mp hd.height_le
    simp only [length_cons] at hlevel
    refine ih ((ht.join_black hpsib).join_red hgsib.blacken_red) hrest
      ⟨height_plug_le.mpr ⟨?_, hwithin⟩, hd.black_le⟩ (by omega)
    simpa only [fill, height_join, height_blacken] using hheight
  | case5 p g fs t hred haunt =>
    rw [RedBlack.fixRed, if_neg hred, if_neg haunt]
    obtain ⟨hpsib, cg, hgsib, hrest⟩ := hp.grandparent hred
    have hblack : cg = .black := by
      cases cg with
      | black => rfl
      | red => exact absurd hgsib.isRed haunt
    subst hblack
    rw [RedBlack.plug, RedBlack.plug] at hd
    obtain ⟨hheight, hwithin⟩ := height_plug_le.mp hd.height_le
    have hrot := height_rotateRed (p := p) (g := g) ht
    have haunt := hgsib.height_le
    simp only [length_cons, reduceCtorEq, if_false] at hlevel haunt
    refine ⟨b, RB.plug hrest (ht.rotateRed hpsib hgsib),
      height_plug_le.mpr ⟨by omega, hwithin⟩, hd.black_le⟩

/-! ### Removal -/

theorem RB.black_cases (ht : RB t .black (h + 1)) :
    ∃ l k r cl cr, t = node .black l k r ∧ RB l cl h ∧ RB r cr h := by
  cases ht with
  | black hl hr => exact ⟨_, _, _, _, _, rfl, hl, hr⟩

/-- Beside a black sibling either the sibling becomes red, or rotations repair the parent's tree. -/
structure Settled (p : Frame α) (t : ColTree α) (h : ℕ) (x : Bool × ColTree α) : Prop where
  red : p.color = .red → x.1 = false ∧ ∃ c, RB x.2 c (h + 1)
  missing : p.color = .black → x.1 = true → RB x.2 .black (h + 1) ∧ x.2.height = (p.fill t).height
  repaired : p.color = .black → x.1 = false → RB x.2 .black (h + 2)
  height_le : x.2.height ≤ max (p.fill t).height (t.height + 2)

theorem isRed_pick (s : Side) (l r : ColTree α) :
    (!l.isRed && !r.isRed) = (!(pick s l r).isRed && !(pick s.other l r).isRed) := by
  cases s with
  | left => rfl
  | right => exact Bool.and_comm _ _

theorem height_pick (s : Side) (l r : ColTree α) :
    max l.height r.height = max (pick s l r).height (pick s.other l r).height := by
  cases s with
  | left => rfl
  | right => exact Nat.max_comm _ _

theorem RB.join_color (ht : RB t .black h) (hu : RB u .black h) :
    (c = .red → RB (join s c t k u) .red h) ∧ (c = .black → RB (join s c t k u) .black (h + 1)) := by
  refine ⟨?_, ?_⟩
  · rintro rfl
    exact ht.join_red hu
  · rintro rfl
    exact ht.join_black hu

theorem exists_settle {p : Frame α} (hsib : RB p.sib .black (h + 1)) (ht : RB t .black h) :
    ∃ x, settle p t = some x ∧ Settled p t h x := by
  obtain ⟨cp, s, kp, sib⟩ := p
  obtain ⟨l, k, r, cl, cr, rfl, hl, hr⟩ := hsib.black_cases
  obtain ⟨cn, hnear⟩ := RB.pick (s := s) hl hr
  obtain ⟨cf, hfar⟩ := RB.pick (s := s.other) hl hr
  have hpick := height_pick s l r
  simp only [settle, isRed_pick s, hnear.isRed, hfar.isRed]
  cases cf with
  | red =>
    -- the outer child goes up and becomes black
    rw [if_neg (by simp), if_pos (by simp)]
    refine ⟨_, rfl, ?_⟩
    have hrb := RB.join_color (c := cp) (s := s) (k := k) (ht.join_black hnear (k := kp) (s := s))
      hfar.blacken_red
    refine ⟨fun hc => ⟨rfl, _, hrb.1 hc⟩, fun _ hx => (by cases hx), fun hc _ => hrb.2 hc, ?_⟩
    simp only [fill, height_join, height_blacken, height]
    omega
  | black =>
    cases cn with
    | red =>
      -- the inner child goes up twice
      rw [if_neg (by simp), if_neg (by simp)]
      generalize hn : pick s l r = near at hnear hpick
      cases hnear with
      | @red l' r' k' _ hl' hr' =>
        refine ⟨_, rfl, ?_⟩
        have hrb := RB.join_color (c := cp) (s := s) (k := k')
          (ht.join_black (RB.pick_black (s := s) hl' hr') (k := kp) (s := s))
          ((RB.pick_black (s := s.other) hl' hr').join_black hfar (k := k) (s := s))
        have hpick' := height_pick s l' r'
        refine ⟨fun hc => ⟨rfl, _, hrb.1 hc⟩, fun _ hx => (by cases hx), fun hc _ => hrb.2 hc, ?_⟩
        simp only [fill, height_join, height] at hpick ⊢
        omega
    | black =>
      -- the sibling becomes red
      rw [if_pos (by simp)]
      have hred : RB (node .red l k r) .red h := by
        cases s with
        | left => exact .red hnear hfar
        | right => exact .red hfar hnear
      refine ⟨_, rfl, fun hc => ⟨?_, _, ht.join_black hred⟩,
        fun _ _ => ⟨ht.join_black hred, ?_⟩, fun hc hx => ?_, ?_⟩
      · obtain rfl : cp = .red := hc
        rfl
      · simp only [fill, height_join, height]
      · obtain rfl : cp = .black := hc
        cases hx
      · simp only [fill, height_join, height]
        omega

theorem RB.fixBlack (ht : RB t .black h) (hp : Path b fs .black (h + 1))
    (hd : DepthBound d b (RedBlack.plug fs t)) :
    ∃ u b', RedBlack.fixBlack fs t = some u ∧ RB u .black b' ∧ DepthBound d b' u := by
  induction fs generalizing t h with
  | nil =>
    cases hp
    exact ⟨t, h, rfl, ht, hd.height_le, by have := hd.black_le; omega⟩
  | cons p fs ih =>
    have hblack := hd.black_le
    have htop := ht.height_le
    rw [RedBlack.plug] at hd
    obtain ⟨hheight, hwithin⟩ := height_plug_le.mp hd.height_le
    simp only [reduceCtorEq, if_false] at htop
    cases hp with
    | @red s k sib _ _ hsib hp =>
      -- below a red parent the sibling is black
      obtain ⟨x, hx, hs⟩ := exists_settle (p := ⟨.red, s, k, sib⟩) hsib ht
      obtain ⟨hdone, c, hrb⟩ := hs.red rfl
      have hlen := hp.length_le
      simp only [if_true] at hlen
      have hle := hs.height_le
      obtain ⟨l, k', r, cl, cr, rfl, -, -⟩ := hsib.black_cases
      have hrb' : RB (RedBlack.plug fs x.2) .black b := by
        cases c with
        | red => exact RB.plug hp hrb
        | black => exact RB.plug hp.weaken hrb
      refine ⟨_, b, by rw [RedBlack.fixBlack, hx, Option.bind_some, hdone]; rfl, hrb',
        height_plug_le.mpr ⟨by omega, hwithin⟩, hblack⟩
    | @black s k sib _ cs _ _ hsib hp =>
      have hlen := hp.length_le
      simp only [reduceCtorEq, if_false] at hlen
      cases cs with
      | black =>
        obtain ⟨x, hx, hs⟩ := exists_settle (p := ⟨.black, s, k, sib⟩) hsib ht
        have hle := hs.height_le
        obtain ⟨l, k', r, cl, cr, rfl, -, -⟩ := hsib.black_cases
        rw [RedBlack.fixBlack, hx, Option.bind_some]
        obtain ⟨missing, u⟩ := x
        cases missing with
        | true =>
          obtain ⟨hu, hsame⟩ := hs.missing rfl rfl
          exact ih hu hp ⟨height_plug_le.mpr ⟨hsame ▸ hheight, hwithin⟩, hblack⟩
        | false =>
          refine ⟨_, b, rfl, RB.plug hp (hs.repaired rfl rfl),
            height_plug_le.mpr ⟨?_, hwithin⟩, hblack⟩
          dsimp only at hle ⊢
          omega
      | red =>
        -- a red sibling goes up
        cases hsib with
        | @red l r k' _ hl hr =>
          have hnear := RB.pick_black (s := s) hl hr
          have hfar := RB.pick_black (s := s.other) hl hr
          obtain ⟨x, hx, hs⟩ :=
            exists_settle (p := ⟨.red, s, k, RedBlack.pick s l r⟩) hnear ht
          obtain ⟨-, c, hrb⟩ := hs.red rfl
          have hle := hs.height_le
          have hpick := height_pick s l r
          simp only [fill, height_join, height] at hle hheight
          refine ⟨_, b, by simp only [RedBlack.fixBlack]; rw [hx]; rfl,
            RB.plug (.black hfar hp) hrb, height_plug_le.mpr ⟨?_, ?_, hwithin⟩, hblack⟩
          · simp only [length_cons]
            omega
          · dsimp only
            omega

theorem RB.join_inv (hn : RB (join s c t k u) c' h) :
    (c = .red ∧ c' = .red ∧ RB t .black h ∧ RB u .black h) ∨
      (c = .black ∧ c' = .black ∧ ∃ h' ct cu, h = h' + 1 ∧ RB t ct h' ∧ RB u cu h') := by
  cases s with
  | left =>
    cases hn with
    | red ht hu => exact Or.inl ⟨rfl, rfl, ht, hu⟩
    | black ht hu => exact Or.inr ⟨rfl, rfl, _, _, _, rfl, ht, hu⟩
  | right =>
    cases hn with
    | red hu ht => exact Or.inl ⟨rfl, rfl, ht, hu⟩
    | black hu ht => exact Or.inr ⟨rfl, rfl, _, _, _, rfl, ht, hu⟩

theorem RB.eq_nil_of_black_zero (ht : RB t .black 0) : t = ColTree.nil := by
  cases ht
  rfl

theorem RB.height_zero_of_nil (ht : RB (ColTree.nil : ColTree α) c h) : c = .black ∧ h = 0 := by
  cases ht
  exact ⟨rfl, rfl⟩

/-- A node without a second child: a red leaf, or a black node with no child or a red one. -/
theorem RB.one_child (hn : RB (join s c t k ColTree.nil) c' h) :
    (c = .red ∧ c' = .red ∧ t = ColTree.nil ∧ h = 0) ∨
      (c = .black ∧ c' = .black ∧ h = 1 ∧ (t = ColTree.nil ∨ RB t .red 0)) := by
  rcases hn.join_inv with ⟨rfl, rfl, ht, hu⟩ | ⟨rfl, rfl, h', ct, cu, rfl, ht, hu⟩
  · obtain ⟨-, rfl⟩ := hu.height_zero_of_nil
    exact Or.inl ⟨rfl, rfl, ht.eq_nil_of_black_zero, rfl⟩
  obtain ⟨-, rfl⟩ := hu.height_zero_of_nil
  refine Or.inr ⟨rfl, rfl, rfl, ?_⟩
  cases ct with
  | red => exact Or.inr ht
  | black => exact Or.inl ht.eq_nil_of_black_zero

theorem DepthBound.plug_le (hd : DepthBound d b (RedBlack.plug fs t)) (hle : u.height ≤ t.height) :
    DepthBound d b (RedBlack.plug fs u) := by
  obtain ⟨hheight, hwithin⟩ := height_plug_le.mp hd.height_le
  exact ⟨height_plug_le.mpr ⟨by omega, hwithin⟩, hd.black_le⟩

theorem RB.unlink (hn : RB (join s c t k ColTree.nil) c' h) (hp : Path b fs c' h)
    (hd : DepthBound d b (RedBlack.plug fs (join s c t k ColTree.nil))) :
    ∃ u b', RedBlack.unlink fs c t = some u ∧ RB u .black b' ∧ DepthBound d b' u := by
  have hlt : t.height ≤ (join s c t k ColTree.nil).height := by
    rw [height_join]
    omega
  have hdt := hd.plug_le hlt
  cases fs with
  | nil =>
    -- the root is removed
    cases hp
    have hblack := hd.black_le
    rcases hn.one_child with ⟨-, hc, -⟩ | ⟨-, -, rfl, rfl | hred⟩
    · cases hc
    · exact ⟨_, 0, rfl, .nil, Nat.zero_le _, by omega⟩
    · exact ⟨_, 1, rfl, hred.blacken_red, by rw [height_blacken]; exact hdt.height_le, hblack⟩
  | cons f fs =>
    rcases hn.one_child with ⟨rfl, rfl, rfl, rfl⟩ | ⟨rfl, rfl, rfl, rfl | hred⟩
    · exact ⟨_, b, rfl, RB.plug hp.weaken .nil, hdt⟩
    · exact RB.fixBlack .nil hp hdt
    · have hblack := hred.blacken_red
      have hd' := hdt.plug_le (height_blacken t).le
      cases hred with
      | red hl hr => exact ⟨_, b, rfl, RB.plug hp hblack, hd'⟩

theorem last_path {t : ColTree α} {fs : List (Frame α)}
    {z : List (Frame α) × Color × ColTree α × α} (hz : last t fs = some z) :
    RedBlack.plug z.1 (node z.2.1 z.2.2.1 z.2.2.2 ColTree.nil) = RedBlack.plug fs t ∧
      ∃ gs, z.1 = gs ++ fs ∧ ∀ g ∈ gs, g.side = .right := by
  induction t, fs using last.induct with
  | case1 fs => cases hz
  | case2 c l k fs =>
    cases hz
    exact ⟨rfl, [], rfl, by simp⟩
  | case3 c l k c' l' k' r' fs ih =>
    obtain ⟨hplug, gs, hgs, hside⟩ := ih hz
    refine ⟨hplug, gs ++ [⟨c, .right, k, l⟩], by simpa using hgs, ?_⟩
    intro g hg
    rcases mem_append.mp hg with hg | hg
    · exact hside g hg
    · rw [List.mem_singleton.mp hg]

theorem length_last_lt {t : ColTree α} {fs : List (Frame α)}
    {z : List (Frame α) × Color × ColTree α × α} (hz : last t fs = some z) :
    z.1.length < fs.length + t.height := by
  induction t, fs using last.induct with
  | case1 fs => cases hz
  | case2 c l k fs =>
    cases hz
    simp [height]
  | case3 c l k c' l' k' r' fs ih =>
    have := ih hz
    simp only [length_cons] at this
    rw [height]
    omega

theorem exists_last (ht : RB t c h) (hp : Path b fs c h) (hne : t ≠ ColTree.nil) :
    ∃ fs' c' l k h', last t fs = some (fs', c', l, k) ∧ RB (node c' l k ColTree.nil) c' h' ∧
      Path b fs' c' h' ∧ RedBlack.plug fs' (node c' l k ColTree.nil) = RedBlack.plug fs t := by
  induction t, fs using last.induct generalizing c h with
  | case1 fs => exact absurd rfl hne
  | case2 c' l k fs =>
    have hc : c = c' := by cases ht <;> rfl
    subst hc
    exact ⟨fs, c, l, k, h, rfl, ht, hp, rfl⟩
  | case3 c' l k c₂ l₂ k₂ r₂ fs ih =>
    have hright : ∃ cr hr, RB (node c₂ l₂ k₂ r₂) cr hr ∧
        Path b (⟨c', .right, k, l⟩ :: fs) cr hr := by
      cases ht with
      | red hl hr => exact ⟨_, _, hr, .red hl hp⟩
      | black hl hr => exact ⟨_, _, hr, .black hl hp⟩
    obtain ⟨cr, hr, hrb, hpath⟩ := hright
    obtain ⟨fs', c'', l', k', h', hlast, hn, hp', hplug⟩ := ih hrb hpath (by simp)
    exact ⟨fs', c'', l', k', h', hlast, hn, hp', hplug⟩

theorem last_append (t : ColTree α) (fs gs : List (Frame α)) :
    last t (fs ++ gs) = (last t fs).map fun x => (x.1 ++ gs, x.2) := by
  induction t, fs using last.induct with
  | case1 fs => rfl
  | case2 c l k fs => rfl
  | case3 c l k c' l' k' r' fs ih => exact ih

theorem RB.removeAt (ht : RB t c h) (hp : Path b fs c h)
    (hd : DepthBound d b (RedBlack.plug fs t)) :
    ∃ u b', RedBlack.removeAt fs t = some u ∧ RB u .black b' ∧ DepthBound d b' u := by
  cases t with
  | nil =>
    obtain ⟨rfl, rfl⟩ := ht.height_zero_of_nil
    exact ⟨_, b, rfl, RB.plug hp .nil, hd⟩
  | node c₁ l k r =>
    have hleft : ∀ k', ∃ cl hl, RB l cl hl ∧ Path b (⟨c₁, .left, k', r⟩ :: fs) cl hl := by
      intro k'
      cases ht with
      | red hl hr => exact ⟨_, _, hl, .red hr hp⟩
      | black hl hr => exact ⟨_, _, hl, .black hr hp⟩
    cases l with
    | nil => exact RB.unlink (s := .right) ht hp hd
    | node cl ll kl rl =>
      cases r with
      | nil => exact RB.unlink (s := .left) ht hp hd
      | node cr lr kr rr =>
        -- the last node of the left subtree, with its key in the place of `k`
        obtain ⟨_, _, hl, hpl⟩ := hleft k
        obtain ⟨_, _, _, _, _, hlast, -⟩ := exists_last hl hpl (by simp)
        have happ := fun k' => last_append (node cl ll kl rl) []
          (⟨c₁, .left, k', node cr lr kr rr⟩ :: fs)
        simp only [List.nil_append] at happ
        rw [happ, Option.map_eq_some_iff] at hlast
        obtain ⟨x, hx, -⟩ := hlast
        obtain ⟨_, _, hl', hpl'⟩ := hleft x.2.2.2
        obtain ⟨fs', c', l', k', h', hlast', hn, hp', hplug⟩ :=
          exists_last hl' hpl' (by simp)
        rw [happ, hx, Option.map_some, Option.some_inj] at hlast'
        obtain ⟨rfl, hx₂⟩ := Prod.ext_iff.mp hlast'
        dsimp only at hx₂
        rw [RedBlack.removeAt, hx, Option.bind_some]
        · rw [hx₂]
          rw [hx₂] at hp' hplug
          refine RB.unlink (s := .left) hn hp' ?_
          rw [ColTree.join, hplug]
          exact hd.plug_le le_rfl
        · simp
        · simp

/-! ### Place of a key -/

variable [DecidableEq α] {lt : α → α → Bool} {x : α}

theorem RB.find (lt : α → α → Bool) (x : α) (ht : RB t c h) (hp : Path b fs c h) :
    ∃ c' h', RB (find lt x t fs).2 c' h' ∧ Path b (find lt x t fs).1 c' h' := by
  induction ht generalizing fs with
  | nil => exact ⟨_, _, .nil, hp⟩
  | red hl hr ihl ihr =>
    rw [RedBlack.find]
    split_ifs
    · exact ⟨_, _, .red hl hr, hp⟩
    · exact ihl (.red hr hp)
    · exact ihr (.red hl hp)
  | black hl hr ihl ihr =>
    rw [RedBlack.find]
    split_ifs
    · exact ⟨_, _, .black hl hr, hp⟩
    · exact ihl (.black hr hp)
    · exact ihr (.black hl hp)

theorem plug_find (lt : α → α → Bool) (x : α) (t : ColTree α) (fs : List (Frame α)) :
    RedBlack.plug (find lt x t fs).1 (find lt x t fs).2 = RedBlack.plug fs t := by
  induction t generalizing fs with
  | nil => rfl
  | node c l k r ihl ihr =>
    rw [RedBlack.find]
    split_ifs
    · rfl
    · exact ihl _
    · exact ihr _

theorem find_eq_nil_or (lt : α → α → Bool) (x : α) (t : ColTree α) (fs : List (Frame α)) :
    (find lt x t fs).2 = ColTree.nil ∨ ∃ c l r, (find lt x t fs).2 = node c l x r := by
  induction t generalizing fs with
  | nil => exact Or.inl rfl
  | node c l k r ihl ihr =>
    rw [RedBlack.find]
    split_ifs with hk
    · exact Or.inr ⟨c, l, r, by rw [hk]⟩
    · exact ihl _
    · exact ihr _

theorem find_key_ne (lt : α → α → Bool) (x : α) (t : ColTree α) {fs : List (Frame α)}
    (hfs : ∀ f ∈ fs, f.key ≠ x) : ∀ f ∈ (find lt x t fs).1, f.key ≠ x := by
  induction t generalizing fs with
  | nil => exact hfs
  | node c l k r ihl ihr =>
    rw [RedBlack.find]
    split_ifs with hk
    · exact hfs
    · exact ihl (List.forall_mem_cons.mpr ⟨hk, hfs⟩)
    · exact ihr (List.forall_mem_cons.mpr ⟨hk, hfs⟩)

theorem find_side (lt : α → α → Bool) (x : α) {t : ColTree α} (ht : t ≠ ColTree.nil)
    (fs : List (Frame α)) (hx : (find lt x t fs).2 = ColTree.nil) :
    ∃ f gs, (find lt x t fs).1 = f :: gs ∧ f.side = if lt x f.key then .left else .right := by
  induction t generalizing fs with
  | nil => exact absurd rfl ht
  | node c l k r ihl ihr =>
    rw [RedBlack.find] at hx ⊢
    split_ifs at hx ⊢ with hk hlt
    · cases l with
      | nil => exact ⟨_, _, rfl, (if_pos hlt).symm⟩
      | node cl ll kl rl => exact ihl (by simp) _ hx
    · cases r with
      | nil => exact ⟨_, _, rfl, (if_neg hlt).symm⟩
      | node cr lr kr rr => exact ihr (by simp) _ hx

/-- **Insertion keeps the tree balanced**; only the new node can exceed the depth bound. -/
theorem RB.insert (ht : RB t .black b) (hd : DepthBound d b t)
    (hx : (RedBlack.find lt x t []).2 = ColTree.nil) :
    ∃ b', RB (insert lt x t) .black b' ∧
      DepthBound (max d ((RedBlack.find lt x t []).1.length + 1)) b' (insert lt x t) := by
  obtain ⟨c', h', hrb, hp⟩ := RB.find lt x ht .root
  have hplug := plug_find lt x t []
  rw [hx] at hrb hplug
  obtain ⟨rfl, rfl⟩ := hrb.height_zero_of_nil
  cases t with
  | nil =>
    cases ht
    exact ⟨1, .black .nil .nil, le_max_right _ _, by simp [RedBlack.find]⟩
  | node c l k r =>
    rw [RedBlack.plug] at hplug
    have hle := hd.height_le
    rw [← hplug, height_plug_le] at hle
    have hblack := hd.black_le
    refine RB.fixRed (.red .nil .nil) hp ⟨height_plug_le.mpr ⟨le_max_right _ _, ?_⟩, ?_⟩ ?_
    · exact hle.2.mono (le_max_left _ _)
    · omega
    · omega

/-- **Removal keeps the tree balanced**, and the depth bound. -/
theorem RB.remove (lt : α → α → Bool) (x : α) (ht : RB t .black b) (hd : DepthBound d b t) :
    ∃ u b', RedBlack.remove lt x t = some u ∧ RB u .black b' ∧ DepthBound d b' u := by
  obtain ⟨c', h', hrb, hp⟩ := RB.find lt x ht .root
  refine RB.removeAt hrb hp ?_
  rw [plug_find]
  exact hd

end balance

/-! ### Keys after an operation -/

section keys

variable {t u l r : ColTree α} {fs : List (Frame α)} {c : Color} {k x : α}

theorem plug_append (fs gs : List (Frame α)) (t : ColTree α) :
    plug (fs ++ gs) t = plug gs (plug fs t) := by
  induction fs generalizing t with
  | nil => rfl
  | cons f fs ih => exact ih _

theorem toList_unlink (h : unlink fs c t = some u) : u.toList = (plug fs t).toList := by
  rcases fs with _ | ⟨f, fs⟩
  · cases h
    exact toList_blacken t
  cases t with
  | nil =>
    simp only [unlink] at h
    split_ifs at h
    · exact toList_fixBlack h
    · cases h
      rfl
  | node ct l k r =>
    simp only [unlink, Option.some_inj] at h
    subst h
    refine toList_plug_congr _ ?_
    split_ifs
    · exact toList_blacken _
    · rfl

theorem toList_last {x : List (Frame α) × Color × ColTree α × α} (h : last t fs = some x) :
    before fs ++ t.toList = before x.1 ++ x.2.2.1.toList ++ [x.2.2.2] ∧ after x.1 = after fs := by
  induction t, fs using last.induct with
  | case1 fs => cases h
  | case2 c l k fs =>
    cases h
    simp [toList]
  | case3 c l k c' l' k' r' fs ih =>
    obtain ⟨hb, ha⟩ := ih h
    refine ⟨?_, ha⟩
    rw [← hb]
    simp [before, toList]

theorem toList_removeAt (h : removeAt fs (node c l k r) = some u) :
    u.toList = before fs ++ (l.toList ++ r.toList) ++ after fs := by
  cases l with
  | nil =>
    rw [toList_unlink h, toList_plug, toList, List.nil_append]
  | node cl ll kl rl =>
    cases r with
    | nil =>
      rw [toList_unlink h, toList_plug, toList, toList, List.append_nil]
    | node cr lr kr rr =>
      obtain ⟨x, hx, hu⟩ := Option.bind_eq_some_iff.mp h
      obtain ⟨hb, ha⟩ := toList_last hx
      have hlast : (plug x.1 x.2.2.1).toList ++ [x.2.2.2] = (node cl ll kl rl).toList := by
        rw [toList_plug, ha]
        simpa [before, after] using hb.symm
      rw [toList_unlink hu, plug_append, plug, toList_plug, fill, join, toList, ← hlast]
      simp only [List.append_assoc, List.singleton_append]

variable {lt : α → α → Bool}

def Sorted (lt : α → α → Bool) (t : ColTree α) : Prop := t.toList.Pairwise fun a b => lt a b

/-- A place for `x`: between the keys before it and those after it. -/
structure Around (lt : α → α → Bool) (x : α) (fs : List (Frame α)) : Prop where
  before_lt : ∀ y ∈ before fs, lt y x
  lt_after : ∀ y ∈ after fs, lt x y

variable [IsStrictTotalOrder α fun a b => lt a b]

theorem lt_chain {a b c : α} (hab : lt a b) (hbc : lt b c) : lt a c :=
  IsTrans.trans (r := fun a b => lt a b = true) a b c hab hbc

theorem not_lt_self (a : α) : ¬lt a a :=
  Std.Irrefl.irrefl (r := fun a b => lt a b = true) a

variable [DecidableEq α]

theorem Around.find (hs : Sorted lt t) (ha : Around lt x fs) :
    Around lt x (RedBlack.find lt x t fs).1 := by
  induction t generalizing fs with
  | nil => exact ha
  | node c l k r ihl ihr =>
    obtain ⟨hl, hr, hlr⟩ := List.pairwise_append.mp hs
    obtain ⟨hk, hr⟩ := List.pairwise_cons.mp hr
    rw [RedBlack.find]
    split_ifs with heq hlt
    · exact ha
    · refine ihl hl ⟨?_, ?_⟩
      · simpa [before] using ha.before_lt
      intro y hy
      simp only [after, mem_append, mem_cons] at hy
      rcases hy with (rfl | hy) | hy
      · exact hlt
      · exact lt_chain hlt (hk y hy)
      · exact ha.lt_after y hy
    have hgt : lt k x := by
      rcases trichotomous_of (fun a b => lt a b = true) k x with h | h | h
      · exact h
      · exact absurd h heq
      · exact absurd h hlt
    refine ihr hr ⟨?_, ?_⟩
    · intro y hy
      simp only [before, mem_append, List.mem_singleton] at hy
      rcases hy with hy | hy | rfl
      · exact ha.before_lt y hy
      · exact lt_chain (hlr y hy k (by simp)) hgt
      · exact hgt
    · simpa [after] using ha.lt_after

theorem around_find (hs : Sorted lt t) : Around lt x (find lt x t []).1 :=
  Around.find hs ⟨by simp [before], by simp [after]⟩

omit [IsStrictTotalOrder α fun a b => lt a b] in
theorem toList_find (lt : α → α → Bool) (x : α) (t : ColTree α) :
    t.toList = before (find lt x t []).1 ++ (find lt x t []).2.toList ++
      after (find lt x t []).1 := by
  rw [← toList_plug, plug_find, plug]

theorem find_eq_nil_iff (hs : Sorted lt t) : (find lt x t []).2 = nil ↔ x ∉ t.toList := by
  have ha := around_find (x := x) hs
  rw [toList_find lt x t]
  constructor
  · intro hnil hx
    rw [hnil] at hx
    simp only [toList, List.append_nil, mem_append] at hx
    rcases hx with hx | hx
    · exact not_lt_self x (ha.before_lt x hx)
    · exact not_lt_self x (ha.lt_after x hx)
  · intro hx
    rcases find_eq_nil_or lt x t [] with hnil | ⟨c, l, r, hnode⟩
    · exact hnil
    · exact absurd (by rw [hnode]; simp [toList]) hx

omit [IsStrictTotalOrder α fun a b => lt a b] in
theorem toList_insert (hx : (find lt x t []).2 = nil) :
    (insert lt x t).toList = before (find lt x t []).1 ++ x :: after (find lt x t []).1 := by
  cases t with
  | nil => rfl
  | node c l k r =>
    rw [insert, toList_fixRed _ (by simp), toList_plug]
    · simp [toList]
    · simp

/-- **Insertion into a search tree**: the new key and no other comes in. -/
theorem Sorted.insert (hs : Sorted lt t) (hx : x ∉ t.toList) :
    Sorted lt (insert lt x t) ∧ ∀ y, y ∈ (insert lt x t).toList ↔ y = x ∨ y ∈ t.toList := by
  have ha := around_find (x := x) hs
  have hnil := (find_eq_nil_iff hs).mpr hx
  have hlist := toList_find lt x t
  rw [hnil, toList, List.append_nil] at hlist
  rw [Sorted, toList_insert hnil]
  rw [Sorted, hlist] at hs
  obtain ⟨hb, ha', hba⟩ := List.pairwise_append.mp hs
  refine ⟨List.pairwise_append.mpr ⟨hb, List.pairwise_cons.mpr ⟨ha.lt_after, ha'⟩, ?_⟩, ?_⟩
  · intro y hy z hz
    rcases mem_cons.mp hz with rfl | hz
    · exact ha.before_lt y hy
    · exact hba y hy z hz
  · intro y
    rw [hlist]
    simp only [mem_append, mem_cons]
    tauto

/-- **Removal from a search tree**: `x` and no other key goes. -/
theorem Sorted.remove (hs : Sorted lt t) (h : remove lt x t = some u) :
    Sorted lt u ∧ ∀ y, y ∈ u.toList ↔ y ∈ t.toList ∧ y ≠ x := by
  have ha := around_find (x := x) hs
  have hlist := toList_find lt x t
  rcases find_eq_nil_or lt x t [] with hnil | ⟨c, l, r, hnode⟩
  · have hx := (find_eq_nil_iff hs).mp hnil
    rw [RedBlack.remove, hnil, removeAt, Option.some_inj, ← hnil, plug_find, plug] at h
    subst h
    refine ⟨hs, fun y => ⟨fun hy => ⟨hy, ?_⟩, And.left⟩⟩
    rintro rfl
    exact hx hy
  rw [RedBlack.remove, hnode] at h
  have hu := toList_removeAt h
  rw [hnode, toList] at hlist
  have hsplit : ∀ a b : List α, t.toList = a ++ x :: b → u.toList = a ++ b →
      Sorted lt u ∧ ∀ y, y ∈ u.toList ↔ y ∈ t.toList ∧ y ≠ x := by
    intro a b ht hu
    rw [Sorted, ht] at hs
    obtain ⟨hp, hxq, hpq⟩ := List.pairwise_append.mp hs
    have hx := (List.pairwise_cons.mp hxq).1
    rw [Sorted, ht, hu]
    refine ⟨hs.sublist ((List.sublist_cons_self x b).append_left a), fun y => ?_⟩
    have hya : y ∈ a → y ≠ x := by
      rintro hy rfl
      exact not_lt_self y (hpq y hy y (List.mem_cons_self ..))
    have hyb : y ∈ b → y ≠ x := by
      rintro hy rfl
      exact not_lt_self y (hx y hy)
    simp only [mem_append, mem_cons]
    tauto
  refine hsplit (before (RedBlack.find lt x t []).1 ++ l.toList)
    (r.toList ++ after (RedBlack.find lt x t []).1) ?_ ?_
  · simpa only [List.append_assoc, List.cons_append] using hlist
  · simpa only [List.append_assoc] using hu

end keys

end RedBlack
