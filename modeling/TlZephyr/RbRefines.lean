import TlZephyr.Lib.Owned
import TlZephyr.Rb

/-!
# Red/Black Tree: Trees in Memory

The pointer code of `Rb` against the trees and paths of `RedBlack`. A node is read as a cell, its
color and its two children, which hides how the color shares a word with a pointer
(`view_setChild`, `view_setColor`). The cells of a tree and of a path are multisets, and
`Holds m S` says that the memory holds them; a path is also in the array on the C stack
(`Stacked`).
-/

namespace TlZephyr.Rb

open RedBlack RedBlack.ColTree Owned Owns
open Option (bind_eq_bind bind_some)
open Function (update_of_ne update_self)
open Multiset (cons_add cons_swap le_cons_self singleton_add)

/-! ### Cells -/

/-- A node as the functions that access it see it. -/
structure Cell where
  color : Color
  child : Side → Option RbAddr

def view (m : RbMem) (n : RbAddr) : Cell := ⟨getColor m n, getChild m n⟩

variable {b : ℕ} {β : Type*} {x : RbAddr}

theorem or_low_bit {a : ℕ} (ha : a % 2 = 0) (hb : b < 2) : a ||| b = a + b := by
  obtain ⟨q, rfl⟩ := Nat.dvd_of_mod_eq_zero ha
  exact (Nat.two_pow_add_eq_or_of_lt (i := 1) hb q).symm

theorem clear_low_bit (w : ℕ) : w >>> 1 <<< 1 = 2 * (w / 2) := by
  rw [Nat.shiftLeft_eq, Nat.shiftRight_eq_div_pow, pow_one, Nat.mul_comm]

theorem toWord_even (p : Option RbAddr) : toWord p % 2 = 0 := by
  cases p with
  | none => rfl
  | some a => exact a.2.2

theorem toPointer_or (p : Option RbAddr) (hb : b < 2) : toPointer (toWord p ||| b) = p := by
  have hclear : (toWord p ||| b) >>> 1 <<< 1 = toWord p := by
    have := toWord_even p
    rw [or_low_bit this hb, clear_low_bit]
    omega
  cases p with
  | none =>
    rw [toPointer]
    exact dif_pos hclear
  | some a =>
    rw [toPointer, dif_neg (by rw [hclear]; exact a.2.1), Option.some_inj]
    exact Subtype.ext hclear

theorem toWord_toPointer (w : ℕ) : toWord (toPointer w) = w >>> 1 <<< 1 := by
  rw [toPointer]
  split_ifs with h
  · exact h.symm
  · rfl

theorem colorBit_lt (c : Color) : colorBit c < 2 := by
  cases c <;> decide

theorem view_setChild (m : RbMem) (n : RbAddr) (s : Side) (v : Option RbAddr) :
    view (setChild m n s v) =
      Function.update (view m) n ⟨(view m n).color, Function.update (view m n).child s v⟩ := by
  funext k
  by_cases hk : k = n
  · subst hk
    rw [update_self]
    have hbit : (m k).children0 &&& 1 < 2 := by
      rw [Nat.and_one_is_mod]
      omega
    cases s with
    | right =>
      simp only [view, getColor, setChild, update_self, Cell.mk.injEq, true_and]
      funext s
      cases s <;> simp [getChild]
    | left =>
      have heven := toWord_even v
      simp only [view, getColor, setChild, update_self, Cell.mk.injEq]
      refine ⟨?_, ?_⟩
      · rw [or_low_bit heven hbit, Nat.and_one_is_mod, Nat.and_one_is_mod]
        congr 2
        omega
      funext s
      cases s with
      | left =>
        simp only [getChild, update_self]
        exact toPointer_or v hbit
      | right => simp [getChild]
  · rw [update_of_ne hk]
    simp only [view, getColor, setChild, update_of_ne hk, Cell.mk.injEq, true_and]
    funext s
    cases s <;> simp [getChild, update_of_ne hk]

theorem view_setColor (m : RbMem) (n : RbAddr) (c : Color) :
    view (setColor m n c) = Function.update (view m) n ⟨c, (view m n).child⟩ := by
  funext k
  by_cases hk : k = n
  · subst hk
    rw [update_self]
    have hbit := colorBit_lt c
    have heven : (m k).children0 >>> 1 <<< 1 % 2 = 0 := by
      rw [clear_low_bit]
      omega
    simp only [view, getColor, setColor, update_self, Cell.mk.injEq]
    refine ⟨?_, ?_⟩
    · rw [or_low_bit heven hbit, Nat.and_one_is_mod, Nat.add_mod, heven]
      cases c <;> rfl
    funext s
    cases s with
    | left =>
      simp only [getChild, update_self]
      rw [← toWord_toPointer, toPointer_or _ hbit]
    | right => simp [getChild]
  · rw [update_of_ne hk]
    simp only [view, getColor, setColor, update_of_ne hk, Cell.mk.injEq, true_and]
    funext s
    cases s <;> simp [getChild, update_of_ne hk]

/-- Children of a node, `x` on side `s` and `y` on the other. -/
def kids (s : Side) (x y : Option RbAddr) : Side → Option RbAddr := fun s' => if s' = s then x else y

theorem kids_other (s : Side) (x y : Option RbAddr) : kids s.other x y = kids s y x := by
  funext s'
  cases s <;> cases s' <;> rfl

theorem update_kids (s : Side) (x y v : Option RbAddr) :
    Function.update (kids s x y) s v = kids s v y := by
  funext s'
  cases s <;> cases s' <;> rfl

def Holds (m : RbMem) (S : Multiset (RbAddr × Cell)) : Prop := Owns (view m) S

theorem cons_cons_add (a b : β) (S T : Multiset β) : a ::ₘ b ::ₘ (S + T) = a ::ₘ b ::ₘ S + T := by
  rw [cons_add, cons_add]

theorem cons_rotate (a b c : β) (S : Multiset β) : a ::ₘ b ::ₘ c ::ₘ S = c ::ₘ a ::ₘ b ::ₘ S := by
  rw [cons_swap b, cons_swap a]

section holds

variable {m : RbMem} {S T : Multiset (RbAddr × Cell)} {k : RbAddr} {c : Color} {s : Side}
  {x y : Option RbAddr}

theorem Holds.of_eq (h : Holds m S) (heq : S = T) : Holds m T := heq ▸ h

section

variable (h : Holds m ((k, ⟨c, kids s x y⟩) ::ₘ S))
include h

theorem Holds.getChild : getChild m k s = x := by
  have := congrArg Cell.child (head h)
  simp only [view] at this
  rw [this, kids, if_pos rfl]

theorem Holds.flip : Holds m ((k, ⟨c, kids s.other y x⟩) ::ₘ S) := by
  rwa [kids_other]

theorem Holds.getColor : getColor m k = c :=
  congrArg Cell.color (head h)

theorem Holds.setChild (v : Option RbAddr) :
    Holds (setChild m k s v) ((k, ⟨c, kids s v y⟩) ::ₘ S) := by
  rw [Holds, view_setChild, head h, update_kids]
  exact update h

theorem Holds.setChild_other (v : Option RbAddr) :
    Holds (Rb.setChild m k s.other v) ((k, ⟨c, kids s x v⟩) ::ₘ S) := by
  rw [← kids_other]
  exact h.flip.setChild v

theorem Holds.setColor (c' : Color) : Holds (setColor m k c') ((k, ⟨c', kids s x y⟩) ::ₘ S) := by
  rw [Holds, view_setColor, head h]
  exact update h

end

theorem Holds.getSide {n : RbAddr} (h : Holds m ((k, ⟨c, kids s (some n) y⟩) ::ₘ S))
    (hy : y ≠ some n) : getSide m k n = s := by
  rw [Rb.getSide]
  cases s with
  | right => rw [h.getChild, if_pos rfl]
  | left =>
    have := h.flip.getChild
    rw [Side.other] at this
    rw [this, if_neg hy]

end holds

/-! ### Trees and paths in memory -/

def ptr : ColTree RbAddr → Option RbAddr
  | nil => none
  | node _ _ k _ => some k

def cells : ColTree RbAddr → Multiset (RbAddr × Cell)
  | nil => 0
  | node c l k r => (k, ⟨c, kids .left (ptr l) (ptr r)⟩) ::ₘ (cells l + cells r)

/-- Cells around a hole that holds the pointer `q`. -/
def ctx : List (Frame RbAddr) → Option RbAddr → Multiset (RbAddr × Cell)
  | [], _ => 0
  | f :: fs, q =>
    (f.key, ⟨f.color, kids f.side q (ptr f.sib)⟩) ::ₘ (cells f.sib + ctx fs (some f.key))

@[simp] theorem ptr_node (c : Color) (l : ColTree RbAddr) (k : RbAddr) (r : ColTree RbAddr) :
    ptr (node c l k r) = some k := rfl

@[simp] theorem ptr_nil : ptr nil = none := rfl

theorem ptr_join (s : Side) (c : Color) (t : ColTree RbAddr) (k : RbAddr) (u : ColTree RbAddr) :
    ptr (join s c t k u) = some k := by
  cases s <;> rfl

theorem cells_join (s : Side) (c : Color) (t : ColTree RbAddr) (k : RbAddr) (u : ColTree RbAddr) :
    cells (join s c t k u) = (k, ⟨c, kids s (ptr t) (ptr u)⟩) ::ₘ (cells t + cells u) := by
  cases s with
  | left => rfl
  | right => rw [join, cells, add_comm (cells u), ← kids_other, Side.other]

theorem cells_plug (fs : List (Frame RbAddr)) (t : ColTree RbAddr) :
    cells (plug fs t) = ctx fs (ptr t) + cells t := by
  induction fs generalizing t with
  | nil => rw [plug, ctx, zero_add]
  | cons f fs ih =>
    rw [plug, ih, Frame.fill, cells_join, ptr_join, ctx, ← singleton_add, ← singleton_add]
    abel

def Stacked (st : Stack) : List (Frame RbAddr) → Prop
  | [] => True
  | f :: fs => st.slot fs.length = some f.key ∧ Stacked st fs

section stack

variable {st : Stack} {fs : List (Frame RbAddr)} {i n d : ℕ} {k : RbAddr}

def Stack.put (st : Stack) (i : ℕ) (n : RbAddr) : Stack :=
  { st with slot := Function.update st.slot i (some n) }

theorem Stack.set_eq (h : i < st.size) : st.set i k = some (st.put i k) := if_pos h

@[simp] theorem Stack.put_size : (st.put i k).size = st.size := rfl

@[simp] theorem Stack.put_slot_self : (st.put i k).slot i = some k := update_self ..

theorem Stack.put_slot_ne (h : n ≠ i) : (st.put i k).slot n = st.slot n :=
  update_of_ne h _ _

theorem Stack.top_add (st : Stack) (n d : ℕ) : st.top (n + d) d = st.slot n := by
  rw [Stack.top, if_pos (Nat.le_add_left d n), Nat.add_sub_cancel]

theorem Stacked.put (h : Stacked st fs) (hi : fs.length ≤ i) : Stacked (st.put i k) fs := by
  induction fs with
  | nil => trivial
  | cons f fs ih =>
    rw [List.length_cons] at hi
    exact ⟨(Stack.put_slot_ne (by omega)).trans h.1, ih h.2 (by omega)⟩

end stack

open Stack

variable {m : RbMem} {S : Multiset (RbAddr × Cell)} {t : ColTree RbAddr}

theorem Holds.ptr_ne {k : RbAddr} {x : Cell}
    (h : Holds m ((k, x) ::ₘ (cells t + S))) : ptr t ≠ some k := by
  cases t with
  | nil => exact Option.some_ne_none k ∘ Eq.symm
  | node c l k' r =>
    intro heq
    cases heq
    exact ne h (Multiset.mem_add.mpr (Or.inl (Multiset.mem_cons_self _ _))) rfl

/-! ### Rotation -/

section rotate

variable {m : RbMem} {fs : List (Frame RbAddr)} {p k : RbAddr} {cp ck : Color} {s : Side}
  {a b u : Option RbAddr} {R : Multiset (RbAddr × Cell)}

/-- The parent of `p`, if there is one, points to `k` instead. -/
def retarget (m : RbMem) : List (Frame RbAddr) → RbAddr → RbAddr → RbMem
  | [], _, _ => m
  | g :: _, p, k => setChild m g.key (getSide m g.key p) (some k)

theorem Holds.retarget {x : Cell} (hm : Holds m (ctx fs (some p) + (p, x) ::ₘ R)) :
    Holds (retarget m fs p k) (ctx fs (some k) + (p, x) ::ₘ R) := by
  rcases fs with _ | ⟨g, gs⟩
  · exact hm
  have hne : ptr g.sib ≠ some p := by
    refine Holds.ptr_ne (S := (g.key, ⟨g.color, kids g.side (some p) (ptr g.sib)⟩) ::ₘ
      (ctx gs (some g.key) + R)) (x := x) (hm.of_eq ?_)
    simp only [ctx, ← singleton_add]
    abel
  rw [ctx, cons_add] at hm ⊢
  rw [Rb.retarget, hm.getSide hne]
  exact hm.setChild _

theorem rotate_spec (st : Stack) (fs : List (Frame RbAddr))
    (hm : Holds m ((k, ⟨ck, kids s a b⟩) ::ₘ (p, ⟨cp, kids s (some k) u⟩) ::ₘ
      (ctx fs (some p) + R)))
    (hu : u ≠ some k) (hst : Stacked st fs) (hp : st.slot fs.length = some p)
    (hk : st.slot (fs.length + 1) = some k) (hsize : fs.length + 1 < st.size) :
    ∃ m', rotate m st (fs.length + 2) = some (m', (st.put fs.length k).put (fs.length + 1) p) ∧
      Holds m' ((k, ⟨ck, kids s a (some p)⟩) ::ₘ (p, ⟨cp, kids s b u⟩) ::ₘ
        (ctx fs (some k) + R)) := by
  have hside : getSide m p k = s := (hm.of_eq (cons_swap _ _ _)).getSide hu
  have ha := hm.getChild
  have hb := hm.flip.getChild
  have htop : st.top (fs.length + 2) 1 = some k := (st.top_add (fs.length + 1) 1).trans hk
  have hparent : st.top (fs.length + 2) 2 = some p := (st.top_add fs.length 2).trans hp
  have hm₁ : Holds (retarget m fs p k) ((k, ⟨ck, kids s a b⟩) ::ₘ
      (p, ⟨cp, kids s (some k) u⟩) ::ₘ (ctx fs (some k) + R)) := by
    refine Holds.of_eq (Holds.retarget (x := ⟨cp, kids s (some k) u⟩)
      (R := (k, ⟨ck, kids s a b⟩) ::ₘ R) (hm.of_eq ?_)) ?_ <;>
    · simp only [← singleton_add]
      abel
  have hm₂ := (hm₁.setChild a).setChild_other (some p)
  have hm₃ := (hm₂.of_eq (cons_swap _ _ _)).setChild b
  refine ⟨_, ?_, hm₃.of_eq (cons_swap _ _ _)⟩
  have hset : st.set (fs.length + 2 - 2) k = some (st.put fs.length k) :=
    set_eq (Nat.lt_of_succ_lt hsize)
  have hset' : (st.put fs.length k).set (fs.length + 2 - 1) p =
      some ((st.put fs.length k).put (fs.length + 1) p) := set_eq hsize
  simp only [rotate, htop, hparent, hside, ha, hb, hset, hset', bind_eq_bind, bind_some]
  rcases fs with _ | ⟨g, gs⟩
  · rfl
  have hg : st.top (gs.length + 1 + 2) 3 = some g.key := (st.top_add gs.length 3).trans hst.1
  rw [List.length_cons, if_pos (by omega), hg]
  rfl

end rotate

/-! ### Search -/

section search

variable {lt : RbAddr → RbAddr → Bool} {m : RbMem} {x : RbAddr} {R : Multiset (RbAddr × Cell)}

/-- Result of `find_and_stack`: the nodes of the path, and the node itself if it is there. -/
structure Found (st : Stack) (sz : ℕ) (x : RbAddr) (fs : List (Frame RbAddr))
    (t : ColTree RbAddr) : Prop where
  stacked : Stacked st fs
  absent : t = nil → sz = fs.length
  present : t ≠ nil → sz = fs.length + 1 ∧ st.slot fs.length = some x

variable {t : ColTree RbAddr}

theorem findLoop_spec {fs : List (Frame RbAddr)} {st : Stack} {fuel : ℕ}
    (hm : Holds m (cells t + R)) (ht : t ≠ nil) (hst : Stacked st fs)
    (htop : st.slot fs.length = ptr t) (hfuel : t.height ≤ fuel)
    (hsize : fs.length + t.height ≤ st.size) :
    ∃ st' sz, findLoop lt m x fuel st (fs.length + 1) = some (st', sz) ∧ st'.size = st.size ∧
      Found st' sz x (find lt x t fs).1 (find lt x t fs).2 := by
  induction t generalizing fs st fuel R with
  | nil => exact absurd rfl ht
  | node c l k r ihl ihr =>
    rcases fuel with _ | fuel
    · simp [height] at hfuel
    have hread : st.top (fs.length + 1) 1 = some k := (st.top_add fs.length 1).trans htop
    have hm' := hm
    rw [cells, cons_add] at hm'
    have hleft : Holds m (cells l + (cells r + R)) := by
      rw [← add_assoc]
      exact mono hm' (le_cons_self _ _)
    have hright : Holds m (cells r + (cells l + R)) := by
      rw [← add_assoc, add_comm (cells r)]
      exact mono hm' (le_cons_self _ _)
    rw [height] at hfuel hsize
    simp only [findLoop, hread, bind_eq_bind, bind_some]
    rw [find]
    split_ifs with hk hlt
    · subst hk
      exact ⟨st, _, rfl, rfl, hst, fun h => (by cases h), fun _ => ⟨rfl, htop⟩⟩
    · rw [hm'.getChild]
      cases l with
      | nil => exact ⟨st, _, rfl, rfl, ⟨htop, hst⟩, fun _ => rfl, fun h => absurd rfl h⟩
      | node cl ll kl rl =>
        simp only [height] at hfuel hsize
        have hset : st.set (fs.length + 1) kl = some (st.put (fs.length + 1) kl) :=
          set_eq (by omega)
        have hpush : Stacked (st.put (fs.length + 1) kl) (⟨c, .left, k, r⟩ :: fs) :=
          ⟨(put_slot_ne (by omega)).trans htop, hst.put (Nat.le_succ _)⟩
        simp only [ptr_node, hset, bind_some]
        refine ihl hleft (by simp) hpush put_slot_self ?_ ?_
        · rw [height]
          omega
        · rw [height, List.length_cons, put_size]
          omega
    have hchild := hm'.flip.getChild
    rw [Side.other] at hchild
    rw [hchild]
    cases r with
    | nil => exact ⟨st, _, rfl, rfl, ⟨htop, hst⟩, fun _ => rfl, fun h => absurd rfl h⟩
    | node cr lr kr rr =>
      simp only [height] at hfuel hsize
      have hset : st.set (fs.length + 1) kr = some (st.put (fs.length + 1) kr) :=
        set_eq (by omega)
      have hpush : Stacked (st.put (fs.length + 1) kr) (⟨c, .right, k, l⟩ :: fs) :=
        ⟨(put_slot_ne (by omega)).trans htop, hst.put (Nat.le_succ _)⟩
      simp only [ptr_node, hset, bind_some]
      refine ihr hright (by simp) hpush put_slot_self ?_ ?_
      · rw [height]
        omega
      · rw [height, List.length_cons, put_size]
        omega

theorem findAndStack_spec (lt : RbAddr → RbAddr → Bool) (x : RbAddr) {root : RbAddr} {d : ℕ} (hm : Holds m (cells t + R))
    (hroot : ptr t = some root) (hd : t.height ≤ d) :
    ∃ st sz, findAndStack lt m root x (.new (d + 1)) = some (st, sz) ∧ st.size = d + 1 ∧
      Found st sz x (find lt x t []).1 (find lt x t []).2 := by
  have hset : (new (d + 1)).set 0 root = some ((new (d + 1)).put 0 root) :=
    set_eq (Nat.succ_pos d)
  have hst : Stacked ((new (d + 1)).put 0 root) [] := trivial
  rw [findAndStack, hset]
  refine findLoop_spec hm ?_ hst (hroot.symm ▸ put_slot_self) (hd.trans (Nat.le_succ d)) ?_
  · rintro rfl
    cases hroot
  · rw [List.length_nil, Nat.zero_add]
    exact hd.trans (Nat.le_succ d)

end search

/-! ### Insertion -/

theorem Holds.redNode (h : Holds m (cells t + S)) : redNode m (ptr t) = t.isRed := by
  cases t with
  | nil => rfl
  | node c l k r =>
    rw [cells, cons_add] at h
    rw [ptr, Rb.redNode, isRed, h.getColor]
    cases c <;> rfl

theorem Stacked.root {st : Stack} {fs : List (Frame RbAddr)}
    (hst : Stacked st fs) (htop : st.slot fs.length = ptr t) : st.slot 0 = ptr (plug fs t) := by
  induction fs generalizing t with
  | nil => exact htop
  | cons f fs ih =>
    refine ih hst.2 ?_
    rw [hst.1, Frame.fill, ptr_join]

theorem join_pick (s : Side) (c : Color) (l : ColTree RbAddr) (k : RbAddr) (r : ColTree RbAddr) :
    node c l k r = join s c (pick s l r) k (pick s.other l r) := by
  cases s <;> rfl

section insertion

variable {m : RbMem} {st : Stack} {fs : List (Frame RbAddr)} {p g k : RbAddr} {c cp cg ck : Color}
  {s : Side} {t : ColTree RbAddr} {a b u : Option RbAddr} {R : Multiset (RbAddr × Cell)}

/-- The last part of `fix_extra_red`: the node below the grandparent goes up and becomes black. -/
theorem raise_spec (st : Stack) (fs : List (Frame RbAddr))
    (hm : Holds m ((k, ⟨ck, kids s a b⟩) ::ₘ (g, ⟨cg, kids s (some k) u⟩) ::ₘ
      (ctx fs (some g) + R)))
    (hu : u ≠ some k) (hst : Stacked st fs) (hg : st.slot fs.length = some g)
    (hk : st.slot (fs.length + 1) = some k) (hsize : fs.length + 1 < st.size) :
    ∃ m' st', ((rotate m st (fs.length + 2)).bind fun x =>
        (x.2.top (fs.length + 3) 3).bind fun top => (x.2.top (fs.length + 3) 2).bind fun below =>
          some (setColor (setColor x.1 top .black) below .red, x.2)) = some (m', st') ∧
      Holds m' ((k, ⟨.black, kids s a (some g)⟩) ::ₘ (g, ⟨.red, kids s b u⟩) ::ₘ
        (ctx fs (some k) + R)) ∧ Stacked st' fs ∧ st'.slot fs.length = some k := by
  obtain ⟨m', hrot, hm'⟩ := rotate_spec st fs hm hu hst hg hk hsize
  have hm₁ := hm'.setColor .black
  have hm₂ := (hm₁.of_eq (cons_swap _ _ _)).setColor .red
  have hslot : ((st.put fs.length k).put (fs.length + 1) g).slot fs.length = some k := by
    rw [put_slot_ne (by omega), put_slot_self]
  refine ⟨_, _, ?_, hm₂.of_eq (cons_swap _ _ _), (hst.put le_rfl).put (Nat.le_succ _), hslot⟩
  rw [hrot, bind_some]
  have htop := (top_add ((st.put fs.length k).put (fs.length + 1) g) fs.length 3).trans hslot
  have hbelow := (top_add ((st.put fs.length k).put (fs.length + 1) g) (fs.length + 1) 2).trans
    put_slot_self
  rw [htop, bind_some, hbelow, bind_some]

variable {x y : Option RbAddr}

theorem Holds.isBlack (h : Holds m ((k, ⟨c, kids s x y⟩) ::ₘ R)) :
    isBlack m k = (c = .black : Bool) := by
  rw [Rb.isBlack, h.getColor]

theorem fixExtraRed_black {n : ℕ}
    (hm : Holds m ((p, ⟨.black, kids s x y⟩) ::ₘ R)) (hk : st.slot (n + 1) = some k)
    (hp : st.slot n = some p) : fixExtraRed m st (n + 2) = some (m, st) := by
  have hk' : st.top (n + 2) 1 = some k := (st.top_add (n + 1) 1).trans hk
  have hp' : st.top (n + 2) 2 = some p := (st.top_add n 2).trans hp
  simp only [fixExtraRed, hk', hp', hm.isBlack, bind_eq_bind, bind_some]
  rfl

theorem Holds.frame {f : Frame RbAddr} {x : Cell}
    (hm : Holds m ((k, x) ::ₘ (ctx (f :: fs) (some k) + R))) :
    Rb.getSide m f.key k = f.side ∧ Rb.getChild m f.key f.side.other = ptr f.sib ∧
      ptr f.sib ≠ some k ∧ Rb.redNode m (ptr f.sib) = f.sib.isRed := by
  have hne : ptr f.sib ≠ some k := by
    refine Holds.ptr_ne (x := x) (S := (f.key, ⟨f.color, kids f.side (some k) (ptr f.sib)⟩) ::ₘ
      (ctx fs (some f.key) + R)) (hm.of_eq ?_)
    simp only [ctx, ← singleton_add]
    abel
  have hf : Holds m ((f.key, ⟨f.color, kids f.side (some k) (ptr f.sib)⟩) ::ₘ
      (cells f.sib + (ctx fs (some f.key) + (k, x) ::ₘ R))) := by
    refine hm.of_eq ?_
    simp only [ctx, ← singleton_add]
    abel
  exact ⟨hf.getSide hne, hf.flip.getChild, hne, Holds.redNode (mono hf (le_cons_self _ _))⟩

theorem topThree {p g : Frame RbAddr} (hm : Holds m (ctx (p :: g :: fs) (some k) + cells t))
    (hst : Stacked st (p :: g :: fs)) (htop : st.slot (fs.length + 2) = some k) :
    st.top (fs.length + 1 + 2) 1 = some k ∧ st.top (fs.length + 1 + 2) 2 = some p.key ∧
      st.top (fs.length + 1 + 2) 3 = some g.key ∧
      Holds m ((p.key, ⟨p.color, kids p.side (some k) (ptr p.sib)⟩) ::ₘ
        (ctx (g :: fs) (some p.key) + (cells p.sib + cells t))) := by
  refine ⟨(st.top_add (fs.length + 2) 1).trans htop, (st.top_add (fs.length + 1) 2).trans hst.1,
    (st.top_add fs.length 3).trans hst.2.1, hm.of_eq ?_⟩
  rw [ctx, ← singleton_add, ← singleton_add]
  abel

theorem fixExtraRed_spec {b h : ℕ} (hm : Holds m (ctx fs (some k) + cells t))
    (hk : ptr t = some k) (hst : Stacked st fs) (htop : st.slot fs.length = some k)
    (hsize : fs.length < st.size) (hp : Path b fs .black h) :
    ∃ m' st', fixExtraRed m st (fs.length + 1) = some (m', st') ∧
      Holds m' (cells (fixRed fs t)) ∧ st'.slot 0 = ptr (fixRed fs t) := by
  induction fs, t using fixRed.induct generalizing m st h k with
  | case1 t =>
    cases t with
    | nil => cases hk
    | node c l k r =>
      cases hk
      rw [ctx, zero_add, cells] at hm
      refine ⟨_, st, ?_, hm.setColor .black, htop⟩
      rw [List.length_nil, fixExtraRed, ← List.length_nil, htop]
      rfl
  | case2 p t =>
    have hblack : p.color = .black := by
      cases hp with
      | red _ hp => cases hp
      | black _ _ => rfl
    rw [fixRed]
    refine ⟨m, st, ?_, by rwa [cells_plug, hk], hst.root (htop.trans hk.symm)⟩
    rw [ctx, hblack, cons_add] at hm
    exact fixExtraRed_black hm htop hst.1
  | case3 p g fs t hblack =>
    rw [fixRed, if_pos hblack]
    refine ⟨m, st, ?_, by rwa [cells_plug, hk], hst.root (htop.trans hk.symm)⟩
    rw [ctx, hblack, cons_add] at hm
    exact fixExtraRed_black hm htop hst.1
  | case4 p g fs t hred haunt ih =>
    obtain ⟨-, cg, -, hp'⟩ := hp.grandparent hred
    obtain ⟨hnode, hpar, hgrand, hm₁⟩ := topThree hm hst htop
    obtain ⟨hside, haunt', -, hredaunt⟩ := hm₁.frame
    have hpc := hm₁.isBlack
    rw [decide_eq_false hred] at hpc
    rw [fixRed, if_neg hred, if_pos haunt]
    obtain ⟨cg, sg, kg, aunt⟩ := g
    cases aunt with
    | nil => cases haunt
    | node ca l ka r =>
      have hm₂ : Holds m ((kg, ⟨cg, kids sg (some p.key) (some ka)⟩) ::ₘ
          (p.key, ⟨p.color, kids p.side (some k) (ptr p.sib)⟩) ::ₘ
          (ka, ⟨ca, kids .left (ptr l) (ptr r)⟩) ::ₘ
          (cells l + cells r + ctx fs (some kg) + cells p.sib + cells t)) := by
        refine hm.of_eq ?_
        simp only [ctx, cells, ptr_node, ← singleton_add]
        abel
      have hm₃ := ((hm₂.setColor .red).of_eq (cons_swap _ _ _)).setColor .black
      have hm₄ := (hm₃.of_eq (cons_rotate _ _ _ _)).setColor .black
      obtain ⟨m', st', hfix, hm', hroot⟩ := ih (hm₄.of_eq (by
        simp only [cells_join, ptr_join, blacken, cells, ptr_node, hk, ← singleton_add]
        abel)) (ptr_join ..) hst.2.2 hst.2.1 (by simp only [List.length_cons] at hsize; omega) hp'
      refine ⟨m', st', ?_, hm', hroot⟩
      rw [← hfix, List.length_cons, List.length_cons, fixExtraRed]
      have hred' : redNode m (some ka) = true := hredaunt.trans haunt
      simp only [hnode, hpar, hgrand, hpc, hside, haunt', hred', bind_eq_bind,
        bind_some, ptr_node, Bool.false_eq_true, if_false, if_true]
  | case5 p g fs t hred haunt =>
    obtain ⟨hnode, hpar, hgrand, hm₁⟩ := topThree hm hst htop
    obtain ⟨hside, haunt', hne, hredaunt⟩ := hm₁.frame
    have hpc := hm₁.isBlack
    rw [decide_eq_false hred] at hpc
    have hred' : redNode m (ptr g.sib) = false := hredaunt.trans (Bool.eq_false_iff.mpr haunt)
    cases t with
    | nil => cases hk
    | node c l k' r =>
      cases hk
      have hm₀ : Holds m ((k, ⟨c, kids .left (ptr l) (ptr r)⟩) ::ₘ
          (ctx (p :: g :: fs) (some k) + (cells l + cells r))) := by
        refine hm.of_eq ?_
        simp only [cells, ← singleton_add]
        abel
      obtain ⟨hside', -, hne', -⟩ := hm₀.frame
      simp only [List.length_cons] at hsize htop
      rw [fixRed, if_neg hred, if_neg haunt, rotateRed]
      simp only [fixExtraRed, List.length_cons, hnode, hpar, hgrand, hpc, hside, hside', haunt',
        hred', bind_eq_bind, bind_some, Bool.false_eq_true, if_false]
      by_cases hsame : p.side = g.side
      · rw [if_neg (not_not.mpr hsame), if_pos hsame]
        obtain ⟨m', st', hraise, hm', hst', hslot⟩ := raise_spec st fs
          (R := cells p.sib + cells (node c l k r) + cells g.sib) (hm.of_eq (by
            simp only [ctx, hsame, ← singleton_add]
            abel)) hne hst.2.2 hst.2.1 hst.1 (by omega)
        refine ⟨m', st', hraise, hm'.of_eq ?_, hst'.root (hslot.trans (ptr_join ..).symm)⟩
        simp only [cells_plug, cells_join, ptr_join, ptr_node, ← singleton_add]
        abel
      rw [if_pos hsame, if_neg hsame]
      have hother : g.side = p.side.other := by
        revert hsame
        cases p.side <;> cases g.side <;> simp [Side.other]
      obtain ⟨m₁, hrot, hm₂⟩ := rotate_spec st (g :: fs)
        (R := cells p.sib + cells (pick p.side l r) + cells (pick p.side.other l r))
        (hm.of_eq (by
          rw [join_pick p.side, cells_join, ctx]
          simp only [← singleton_add]
          abel)) hne' hst.2 hst.1 htop hsize
      simp only [List.length_cons] at hrot
      rw [hrot, bind_some]
      obtain ⟨-, -, hne₂, -⟩ := Holds.frame (R := (p.key, ⟨p.color, kids p.side
          (ptr (pick p.side.other l r)) (ptr p.sib)⟩) ::ₘ
          (cells p.sib + cells (pick p.side l r) + cells (pick p.side.other l r)))
        (hm₂.of_eq (by
          simp only [← singleton_add]
          abel))
      obtain ⟨m', st', hraise, hm', hst', hslot⟩ := raise_spec
        ((st.put (fs.length + 1) k).put (fs.length + 1 + 1) p.key) fs (s := g.side)
        (a := some p.key) (b := ptr (pick p.side l r)) (k := k)
        (R := (p.key, ⟨p.color, kids p.side (ptr (pick p.side.other l r)) (ptr p.sib)⟩) ::ₘ
          (cells p.sib + cells (pick p.side l r) + cells (pick p.side.other l r) + cells g.sib))
        (hm₂.of_eq (by
          simp only [ctx, hother, kids_other, ← singleton_add]
          abel)) hne₂ ((hst.2.2.put (Nat.le_succ _)).put (by omega))
        (by rw [put_slot_ne (by omega), put_slot_ne (by omega)]; exact hst.2.1)
        (by rw [put_slot_ne (by omega), put_slot_self])
        (by simp only [put_size]; omega)
      refine ⟨m', st', hraise, hm'.of_eq ?_, hst'.root (hslot.trans (ptr_join ..).symm)⟩
      have hcolor : p.color = .red := by
        revert hred
        cases p.color <;> simp
      simp only [cells_plug, cells_join, ptr_join, hcolor, ← singleton_add]
      abel

end insertion

/-- Tree `t` in memory. -/
structure Rep (s : State) (t : ColTree RbAddr) : Prop where
  root : s.root = ptr t
  holds : Holds s.mem (cells t)

/-- State of a balanced tree whose array is large enough. -/
structure Balanced (s : State) (t : ColTree RbAddr) : Prop extends Rep s t where
  balance : ∃ b, RB t .black b ∧ DepthBound s.maxDepth b t

theorem cells_keys (t : ColTree RbAddr) : (cells t).map Prod.fst = (t.toList : Multiset RbAddr) := by
  induction t with
  | nil => rfl
  | node c l k r ihl ihr =>
    rw [cells, toList, Multiset.map_cons, Multiset.map_add, ihl, ihr, Multiset.coe_add,
      Multiset.cons_coe]
    exact Multiset.coe_eq_coe.mpr List.perm_middle.symm

theorem kids_eta (f : Side → Option RbAddr) : kids .left (f .left) (f .right) = f := by
  funext s
  cases s <;> rfl

/-- The first lines of `rb_insert`: a node not in the tree becomes one without children. -/
theorem Holds.clear (h : Holds m S) (hx : x ∉ S.map Prod.fst) :
    ∃ c, Holds (Rb.setChild (Rb.setChild m x .left none) x .right none)
      ((x, ⟨c, kids .left none none⟩) ::ₘ S) := by
  have h₁ : Holds (Rb.setChild m x .left none)
      ((x, ⟨(view m x).color, kids .left none ((view m x).child .right)⟩) ::ₘ S) := by
    rw [Holds, view_setChild, ← update_kids _ ((view m x).child .left), kids_eta]
    exact alloc h hx
  exact ⟨_, h₁.setChild_other none⟩

theorem rbInsert_spec {lt : RbAddr → RbAddr → Bool} {s : State}
    (hs : Balanced s t) (hx : x ∉ t.toList) (hfind : (find lt x t []).2 = nil) :
    ∃ s', rbInsert lt s x = some s' ∧ Balanced s' (RedBlack.insert lt x t) := by
  obtain ⟨b, hrb, hd⟩ := hs.balance
  obtain ⟨c, hm⟩ := hs.holds.clear (x := x) (by rwa [cells_keys])
  have hroot := hs.root
  cases t with
  | nil =>
    refine ⟨⟨setColor (setChild (setChild s.mem x .left none) x .right none) x .black, some x, 1⟩,
      ?_, ⟨rfl, hm.setColor .black⟩, 1, .black .nil .nil, le_rfl, le_rfl⟩
    simp only [rbInsert, hroot, ptr_nil]
  | node ct l k r =>
    obtain ⟨b', hrb', hd'⟩ := hrb.insert hd hfind
    obtain ⟨st, sz, hst, hsize, hfound⟩ :=
      findAndStack_spec lt x (hm.of_eq (singleton_add _ _ |>.symm.trans (add_comm _ _)))
        (ptr_node ct l k r) hd.height_le
    obtain ⟨ch, hh, hrbf, hpath⟩ := hrb.find lt x .root
    obtain ⟨f, gs, hfs, hside⟩ := find_side lt x (by simp) [] hfind
    have hplug : plug _ _ = node ct l k r := plug_find lt x (node ct l k r) []
    have hsz := hfound.absent hfind
    have hstack := hfound.stacked
    rw [hfind] at hplug hrbf
    obtain ⟨rfl, rfl⟩ := hrbf.height_zero_of_nil
    rw [hfs] at hplug hsz hstack hpath hd'
    subst hsz
    have hlen : (f :: gs).length ≤ s.maxDepth := by
      have := hd.height_le
      rw [← hplug, height_plug_le] at this
      exact this.1
    have hparent : st.top (f :: gs).length 1 = some f.key := (st.top_add gs.length 1).trans hstack.1
    have hset : st.set (f :: gs).length x = some (st.put (f :: gs).length x) :=
      set_eq (by omega)
    rw [← hplug, cells_plug] at hm
    have hm₁ := (hm.of_eq (T := (f.key, ⟨f.color, kids f.side none (ptr f.sib)⟩) ::ₘ
      (x, ⟨c, kids .left none none⟩) ::ₘ (cells f.sib + ctx gs (some f.key))) (by
        simp only [ctx, cells, ptr_nil, ← singleton_add]
        abel)).setChild (some x)
    have hm₂ := (hm₁.of_eq (cons_swap _ _ _)).setColor .red
    obtain ⟨m', st', hfix, hm', hroot'⟩ := fixExtraRed_spec (t := node .red nil x nil)
      (hm₂.of_eq (by
        simp only [ctx, cells, ptr_nil, ← singleton_add]
        abel)) rfl (hstack.put le_rfl) put_slot_self (by rw [put_size]; omega) hpath
    refine ⟨⟨m', st'.slot 0, if (f :: gs).length + 1 > s.maxDepth then (f :: gs).length + 1
      else s.maxDepth⟩, ?_, ⟨?_, ?_⟩, b', hrb', ?_⟩
    · simp only [rbInsert, hroot, ptr_node, hst, hparent, hset, ← hside, hfix,
        bind_eq_bind, bind_some]
    · simp only [RedBlack.insert, hfs]
      exact hroot'
    · simp only [RedBlack.insert, hfs]
      exact hm'
    · convert hd' using 1
      dsimp only
      split_ifs <;> omega

end TlZephyr.Rb
