import TlZephyr.RbRefines

/-!
# Red/Black Tree: Removal in Memory

The removal of a node against `RedBlack.remove`. The node is first swapped with the last one below
its left child if it has two children, and a black leaf stays linked in while the tree is repaired
around it (`Focus`).
-/

namespace TlZephyr.Rb

open RedBlack RedBlack.ColTree Owned Stack Frame Owns
open List (length_cons)
open Option (bind_eq_bind bind_some some_inj)
open Multiset (cons_add cons_swap le_cons_self singleton_add)

/-! ### A missing black node -/

/-- Subtree that misses a black node, in memory and in the tree: they differ while the removed
node stands for the empty subtree. -/
structure Focus (nullNode n : RbAddr) (t₀ t : ColTree RbAddr) : Prop where
  ptr_mem : ptr t₀ = some n
  ptr_eq : ptr t = if n = nullNode then none else some n
  cells_le : cells t ≤ cells t₀

section removal

variable {m : RbMem} {st : Stack} {fs : List (Frame RbAddr)} {nullNode n p k o : RbAddr}
  {c d e : Color} {s w : Side} {t t₀ : ColTree RbAddr} {a b x y : Option RbAddr}
  {R : Multiset (RbAddr × Cell)}

theorem dropNull_spec (hf : Focus nullNode n t₀ t)
    (hm : Holds m ((p, ⟨c, kids s (some n) y⟩) ::ₘ R)) :
    Holds (dropNull m n nullNode p s) ((p, ⟨c, kids s (ptr t) y⟩) ::ₘ R) := by
  rw [dropNull, hf.ptr_eq]
  split_ifs
  · exact hm.setChild none
  · exact hm

theorem Focus.holds (hf : Focus nullNode n t₀ t) (hm : Holds m (R + cells t₀)) :
    Holds m (R + cells t) :=
  mono hm (add_le_add_right hf.cells_le R)

theorem liftSibling_spec (st : Stack) (hf : Focus nullNode n t₀ t)
    (hm : Holds m ((k, ⟨c, kids s.other (some o) b⟩) ::ₘ
      (p, ⟨d, kids s.other (some k) (some n)⟩) ::ₘ (o, ⟨e, kids w x y⟩) ::ₘ
      (ctx fs (some p) + R + cells t₀)))
    (hst : Stacked st fs) (hp : st.slot fs.length = some p)
    (hsize : fs.length + 1 < st.size) :
    ∃ m' st', liftSibling m st (fs.length + 2) nullNode n p s k o = some (m', st') ∧
      Holds m' ((k, ⟨d, kids s.other (some o) (some p)⟩) ::ₘ
        (p, ⟨.black, kids s (ptr t) b⟩) ::ₘ (o, ⟨.black, kids w x y⟩) ::ₘ
        (ctx fs (some k) + R + cells t)) ∧
      Stacked st' fs ∧ st'.slot fs.length = some k ∧ st'.size = st.size := by
  have hne : some n ≠ some k := by
    rw [← hf.ptr_mem]
    refine Holds.ptr_ne (x := ⟨c, kids s.other (some o) b⟩)
      (S := (p, ⟨d, kids s.other (some k) (some n)⟩) ::ₘ (o, ⟨e, kids w x y⟩) ::ₘ
        (ctx fs (some p) + R)) (hm.of_eq ?_)
    simp only [← singleton_add]
    abel
  have hcolor := (hm.of_eq (cons_swap _ _ _)).getColor
  have hm₁ := ((hm.setColor d).of_eq (cons_swap _ _ _)).setColor .black
  have hm₂ := (hm₁.of_eq (cons_rotate _ _ _ _)).setColor .black
  have hset : st.set (fs.length + 2 - 1) k = some (st.put (fs.length + 1) k) := set_eq hsize
  obtain ⟨m', hrot, hm'⟩ := rotate_spec (st.put (fs.length + 1) k) fs
    (R := (o, ⟨.black, kids w x y⟩) ::ₘ (R + cells t₀)) (hm₂.of_eq (by
      simp only [← singleton_add]
      abel)) hne (hst.put (Nat.le_succ _))
    ((put_slot_ne (by omega)).trans hp) put_slot_self hsize
  have hm₃ := hm'.of_eq (cons_swap _ _ _)
  rw [kids_other s b] at hm₃
  have hm₄ := hf.holds (R := (p, ⟨.black, kids s (ptr t) b⟩) ::ₘ
    (k, ⟨d, kids s.other (some o) (some p)⟩) ::ₘ (o, ⟨.black, kids w x y⟩) ::ₘ
    (ctx fs (some k) + R)) ((dropNull_spec hf hm₃).of_eq (by
      simp only [← singleton_add]
      abel))
  refine ⟨_, ((st.put (fs.length + 1) k).put fs.length k).put (fs.length + 1) p, ?_, hm₄.of_eq ?_,
    ((hst.put (Nat.le_succ _)).put le_rfl).put (Nat.le_succ _), ?_, rfl⟩
  · simp only [liftSibling, hcolor, hset, hrot, bind_eq_bind, bind_some]
  · simp only [← singleton_add]
    abel
  · rw [put_slot_ne (by omega), put_slot_self]

variable {u l r : ColTree RbAddr} {q f : Frame RbAddr} {z : Bool × ColTree RbAddr}
  {gs : List (Frame RbAddr)}

/-- The far child of the sibling `k` is not red: the near child `o` goes up and takes its
place. -/
theorem turnSibling_spec (hf : Focus nullNode n t₀ t)
    (hm : Holds m ((o, ⟨c, kids s a b⟩) ::ₘ (k, ⟨.black, kids s (some o) (ptr u)⟩) ::ₘ
      (p, ⟨d, kids s.other (some k) (some n)⟩) ::ₘ (ctx fs (some p) + R + cells u + cells t₀)))
    (hu : u.isRed = false) (hst : Stacked st fs) (hp : st.slot fs.length = some p)
    (hsize : fs.length + 2 < st.size) :
    ∃ m' st', turnSibling m st (fs.length + 2) n s k = some (m', st', o, k) ∧
      Holds m' ((o, ⟨.black, kids s.other (some k) a⟩) ::ₘ
        (p, ⟨d, kids s.other (some o) (some n)⟩) ::ₘ (k, ⟨.red, kids s b (ptr u)⟩) ::ₘ
        (ctx fs (some p) + (R + cells u) + cells t₀)) ∧
      Stacked st' fs ∧ st'.slot fs.length = some p ∧ st'.size = st.size := by
  have hk := hm.of_eq (cons_swap _ _ _)
  have hne : ptr u ≠ some o := by
    refine Holds.ptr_ne (x := ⟨c, kids s a b⟩) (S := (k, ⟨.black, kids s (some o) (ptr u)⟩) ::ₘ
      (p, ⟨d, kids s.other (some k) (some n)⟩) ::ₘ (ctx fs (some p) + R + cells t₀))
      (hm.of_eq ?_)
    simp only [← singleton_add]
    abel
  have hred : redNode m (ptr u) = false := by
    have hle : cells u ≤ ctx fs (some p) + R + cells u + cells t₀ :=
      (Multiset.le_add_left _ _).trans (Multiset.le_add_right _ _)
    refine (Holds.redNode (S := 0) ?_).trans hu
    rw [add_zero]
    exact mono hm (hle.trans ((le_cons_self _ _).trans
      ((le_cons_self _ _).trans (le_cons_self _ _))))
  have hset₁ : st.set (fs.length + 2 - 1) k = some (st.put (fs.length + 1) k) :=
    set_eq (by omega)
  have hset₂ : (st.put (fs.length + 1) k).set (fs.length + 2) o =
      some ((st.put (fs.length + 1) k).put (fs.length + 2) o) := set_eq hsize
  -- the rotation is below the parent, whose other child is the subtree in focus
  have hstq : Stacked ((st.put (fs.length + 1) k).put (fs.length + 2) o)
      (⟨d, s.other, p, t₀⟩ :: fs) := by
    refine ⟨?_, (hst.put (Nat.le_succ _)).put (by omega)⟩
    rw [put_slot_ne (by omega), put_slot_ne (by omega)]
    exact hp
  obtain ⟨m₁, hrot, hm₁⟩ := rotate_spec _ _ (R := R + cells u)
    (hm.of_eq (by
      simp only [ctx, hf.ptr_mem, ← singleton_add]
      abel)) hne hstq
    (by rw [length_cons, put_slot_ne (by omega), put_slot_self])
    put_slot_self hsize
  simp only [length_cons] at hrot
  have hm₂ := ((hm₁.of_eq (cons_swap _ _ _)).setColor .red).of_eq
    (cons_swap _ _ _) |>.setColor .black
  have hinner := hk.getChild
  have houter := hk.flip.getChild
  have hnew := hm₂.flip.getChild
  have hsize₂ : ((st.put (fs.length + 1) k).put (fs.length + 2) o).size = st.size := rfl
  generalize (st.put (fs.length + 1) k).put (fs.length + 2) o = st₂ at *
  have hsib : ((st₂.put (fs.length + 1) o).put (fs.length + 1 + 1) k).top (fs.length + 2 + 1) 2 =
      some o := by
    refine (top_add _ (fs.length + 1) 2).trans ?_
    rw [put_slot_ne (by omega), put_slot_self]
  have hset₃ : ((st₂.put (fs.length + 1) o).put (fs.length + 1 + 1) k).set (fs.length + 2 - 1) n =
      some (((st₂.put (fs.length + 1) o).put (fs.length + 1 + 1) k).put (fs.length + 1) n) := by
    refine set_eq ?_
    simp only [put_size]
    omega
  refine ⟨_, ((st₂.put (fs.length + 1) o).put (fs.length + 1 + 1) k).put (fs.length + 1) n, ?_,
    hm₂.of_eq ?_, ?_, ?_, hsize₂⟩
  · simp only [turnSibling, houter, hred, hinner, hset₁, hset₂, hrot, hsib, hnew, hset₃,
      bind_eq_bind, bind_some, Bool.false_eq_true, if_false]
  · simp only [ctx, hf.ptr_mem, kids_other, ← singleton_add]
    abel
  · exact ((hstq.2.put (Nat.le_succ _)).put (by omega)).put (Nat.le_succ _)
  · rw [put_slot_ne (by omega), put_slot_ne (by omega), put_slot_ne (by omega)]
    exact hstq.1

theorem settleSibling_spec
    (hf : Focus nullNode n t₀ t) (hm : Holds m (ctx (q :: fs) (some n) + cells t₀))
    (hz : settle q t = some z) (hsib : q.sib = node .black l k r) (hst : Stacked st (q :: fs))
    (hsize : fs.length + 1 + q.sib.height < st.size) :
    ∃ m' st', settleSibling m st (fs.length + 2) nullNode n q.key q.side k = some (z.1, m', st') ∧
      Holds m' (ctx fs (ptr z.2) + cells z.2) ∧ Stacked st' fs ∧
      st'.slot fs.length = ptr z.2 ∧ st'.size = st.size := by
  obtain ⟨cq, s, kq, sib⟩ := q
  cases hsib
  dsimp only at hsize
  have hk : Holds m ((k, ⟨.black, kids .left (ptr l) (ptr r)⟩) ::ₘ
      (kq, ⟨cq, kids s (some n) (some k)⟩) ::ₘ
      (cells l + cells r + ctx fs (some kq) + cells t₀)) := by
    refine hm.of_eq ?_
    simp only [ctx, cells, ptr_node, ← singleton_add]
    abel
  have hlr : Holds m (cells l + cells r + ctx fs (some kq) + cells t₀) :=
    mono hk ((le_cons_self _ _).trans (le_cons_self _ _))
  have hl : redNode m (ptr l) = l.isRed := by
    rw [add_assoc, add_assoc] at hlr
    exact hlr.redNode
  have hr : redNode m (ptr r) = r.isRed := by
    rw [add_comm (cells l), add_assoc, add_assoc] at hlr
    exact hlr.redNode
  have hgl := hk.getChild
  have hgr := hk.flip.getChild
  rw [Side.other] at hgr
  simp only [settle] at hz
  simp only [settleSibling, hgl, hgr, hl, hr]
  by_cases hblack : (!l.isRed && !r.isRed) = true
  · -- the sibling becomes red
    rw [if_pos hblack, some_inj] at hz
    subst hz
    rw [if_pos hblack]
    have hm₁ := ((dropNull_spec hf (hk.of_eq (cons_swap _ _ _))).of_eq
      (cons_swap _ _ _)).setColor .red
    have hm₂ := hm₁.of_eq (cons_swap _ _ _)
    have hdone : ∀ {m'}, Holds m' ((kq, ⟨.black, kids s (ptr t) (some k)⟩) ::ₘ
        (k, ⟨.red, kids .left (ptr l) (ptr r)⟩) ::ₘ
        (cells l + cells r + ctx fs (some kq) + cells t₀)) →
        Holds m' (ctx fs (some kq) + cells (join s .black t kq (node .red l k r))) := by
      intro m' hm'
      refine (hf.holds (hm'.of_eq (cons_cons_add _ _ _ _))).of_eq ?_
      simp only [cells_join, cells, ptr_node, ← singleton_add]
      abel
    dsimp only
    rw [ptr_join, hm₂.isBlack]
    cases cq with
    | black => exact ⟨_, st, rfl, hdone hm₂, hst.2, hst.1, rfl⟩
    | red => exact ⟨_, st, rfl, hdone (hm₂.setColor .black), hst.2, hst.1, rfl⟩
  rw [if_neg hblack] at hz ⊢
  have hfar' : Holds m ((k, ⟨.black, kids s (ptr (pick s l r)) (ptr (pick s.other l r))⟩) ::ₘ
      (kq, ⟨cq, kids s (some n) (some k)⟩) ::ₘ
      (cells (pick s l r) + cells (pick s.other l r) + ctx fs (some kq) + cells t₀)) := by
    refine hm.of_eq ?_
    rw [ctx, join_pick s, cells_join, ptr_join]
    simp only [← singleton_add]
    abel
  have hredfar : redNode m (ptr (pick s.other l r)) = (pick s.other l r).isRed := by
    cases s with
    | left => exact hr
    | right => exact hl
  have hheight : (pick s l r).height < (node .black l k r).height := by
    have := height_pick s l r
    rw [height]
    omega
  generalize pick s l r = near at *
  generalize pick s.other l r = far at *
  by_cases hfar : far.isRed = true
  · -- the far child becomes black
    rw [if_pos hfar, some_inj] at hz
    subst hz
    cases far with
    | nil => cases hfar
    | node cf lf kf rf =>
      have hturn : turnSibling m st (fs.length + 2) n s k = some (m, st, k, kf) := by
        simp only [turnSibling, hfar'.flip.getChild, hredfar, hfar, if_true]
        rfl
      obtain ⟨m', st', hlift, hm', hst', hslot, hsz⟩ := liftSibling_spec (s := s) st
        (R := cells near + cells lf + cells rf) hf (hfar'.of_eq (by
          simp only [kids_other, cells, ptr_node, ← singleton_add]
          abel)) hst.2 hst.1 (by omega)
      simp only [hturn, bind_eq_bind, bind_some, hlift]
      refine ⟨m', st', rfl, hm'.of_eq ?_, hst', by rw [hslot, ptr_join], hsz⟩
      simp only [cells_join, cells, ptr_node, ptr_join, blacken, kids_other, ← singleton_add]
      abel
  -- the near child takes the place of the sibling
  rw [if_neg hfar] at hz
  cases near with
  | nil => cases hz
  | node cn l' k' r' =>
    simp only [some_inj] at hz
    subst hz
    rw [height] at hheight
    obtain ⟨m₁, st₁, hturn, hm₁, hst₁, hslot₁, hsz₁⟩ := turnSibling_spec (s := s) (u := far)
      (o := k') (k := k) (R := cells (pick s l' r') + cells (pick s.other l' r')) hf
      (hfar'.of_eq (by
        rw [join_pick s cn, cells_join, ptr_join]
        simp only [kids_other, ← singleton_add]
        abel)) (Bool.eq_false_iff.mpr hfar) hst.2 hst.1 (by omega)
    obtain ⟨m', st', hlift, hm', hst', hslot, hsz⟩ :=
      liftSibling_spec st₁ hf hm₁ hst₁ hslot₁ (by omega)
    simp only [hturn, bind_eq_bind, bind_some, hlift]
    refine ⟨m', st', rfl, hm'.of_eq ?_, hst', by rw [hslot, ptr_join], hsz.trans hsz₁⟩
    simp only [cells_join, ptr_join, kids_other, ← singleton_add]
    abel

/-- A red sibling goes up: the path gets one frame more, and the parent a black child instead. -/
theorem raiseSibling_spec (hf : Focus nullNode n t₀ t)
    (hm : Holds m (ctx (q :: fs) (some n) + cells t₀)) (hsib : q.sib = node .red l k r)
    (hnear : ptr (pick q.side l r) = some o) (hst : Stacked st (q :: fs))
    (hsize : fs.length + 2 < st.size) :
    ∃ m' st', raiseSibling m st (fs.length + 2) n q.key q.side k =
        some (m', st', fs.length + 3, q.key, o) ∧
      Holds m' (ctx (⟨.red, q.side, q.key, pick q.side l r⟩ ::
        ⟨.black, q.side, k, pick q.side.other l r⟩ :: fs) (some n) + cells t₀) ∧
      Stacked st' (⟨.red, q.side, q.key, pick q.side l r⟩ ::
        ⟨.black, q.side, k, pick q.side.other l r⟩ :: fs) ∧ st'.size = st.size := by
  obtain ⟨cq, s, kq, sib⟩ := q
  cases hsib
  dsimp only at hnear ⊢
  have hm₁ : Holds m ((k, ⟨.red, kids s.other (ptr (pick s.other l r)) (ptr (pick s l r))⟩) ::ₘ
      (kq, ⟨cq, kids s.other (some k) (some n)⟩) ::ₘ (ctx fs (some kq) +
        (cells (pick s l r) + cells (pick s.other l r) + cells t₀))) := by
    refine hm.of_eq ?_
    rw [ctx, join_pick s, cells_join, ptr_join]
    simp only [kids_other, ← singleton_add]
    abel
  have hne : some n ≠ some k := by
    rw [← hf.ptr_mem]
    refine Holds.ptr_ne (x := ⟨.red, kids s.other (ptr (pick s.other l r)) (ptr (pick s l r))⟩)
      (S := (kq, ⟨cq, kids s.other (some k) (some n)⟩) ::ₘ (ctx fs (some kq) +
        (cells (pick s l r) + cells (pick s.other l r)))) (hm₁.of_eq ?_)
    simp only [← singleton_add]
    abel
  have hred : isBlack m k = false := hm₁.isBlack
  have hset : st.set (fs.length + 2 - 1) k = some (st.put (fs.length + 1) k) :=
    set_eq (by omega)
  obtain ⟨m₁, hrot, hm₂⟩ := rotate_spec (st.put (fs.length + 1) k) fs hm₁ hne
    (hst.2.put (Nat.le_succ _)) ((put_slot_ne (by omega)).trans hst.1) put_slot_self
    (by rw [put_size]; omega)
  have hm₃ := ((hm₂.of_eq (cons_swap _ _ _)).setColor .red).of_eq
    (cons_swap _ _ _) |>.setColor .black
  have hm₄ := hm₃.of_eq (cons_swap _ _ _)
  have hchild := hm₄.getChild
  generalize hst₂ : ((st.put (fs.length + 1) k).put fs.length k).put (fs.length + 1) kq = st₂ at *
  have hsize₂ : st₂.size = st.size := by rw [← hst₂]; rfl
  have hstacked : Stacked st₂ fs := by
    rw [← hst₂]
    exact ((hst.2.put (Nat.le_succ _)).put le_rfl).put (Nat.le_succ _)
  have hslotk : st₂.slot fs.length = some k := by
    rw [← hst₂, put_slot_ne (by omega), put_slot_self]
  have hslotq : st₂.slot (fs.length + 1) = some kq := by rw [← hst₂, put_slot_self]
  have hset₂ : st₂.set (fs.length + 2) n = some (st₂.put (fs.length + 2) n) :=
    set_eq (by omega)
  have hparent : (st₂.put (fs.length + 2) n).top (fs.length + 2 + 1) 2 = some kq :=
    (top_add _ (fs.length + 1) 2).trans ((put_slot_ne (by omega)).trans hslotq)
  refine ⟨_, st₂.put (fs.length + 2) n, ?_, hm₄.of_eq ?_, ⟨?_, ?_, hstacked.put (by omega)⟩, hsize₂⟩
  · simp only [raiseSibling, hred, hset, hrot, hset₂, hparent, hchild, hnear,
      bind_eq_bind, bind_some, Bool.false_eq_true, if_false]
  · simp only [ctx, kids_other, ← singleton_add]
    abel
  · exact (put_slot_ne (by simp)).trans hslotq
  · exact (put_slot_ne (by simp)).trans hslotk

theorem settle_sib (hz : settle q t = some z) : ∃ l k r, q.sib = node .black l k r := by
  obtain ⟨cq, s, kq, sib⟩ := q
  cases sib with
  | nil => cases hz
  | node c l k r =>
    cases c with
    | red => cases hz
    | black => exact ⟨l, k, r, rfl⟩

theorem settle_more (hz : settle q t = some z)
    (hmore : z.1 = true) : q.color = .black ∧ ptr z.2 = some q.key := by
  obtain ⟨cq, s, kq, sib⟩ := q
  obtain ⟨l, k, r, rfl⟩ := settle_sib hz
  simp only [settle] at hz
  split_ifs at hz with hblack hfar
  · cases hz
    exact ⟨by simpa using hmore, ptr_join ..⟩
  · cases hz
    cases hmore
  cases hn : pick s l r with
  | nil =>
    rw [hn] at hz
    cases hz
  | node c' l' k' r' =>
    rw [hn] at hz
    cases hz
    cases hmore

theorem Focus.frame (hf : Focus nullNode n t₀ t)
    (hm : Holds m (ctx (q :: fs) (some n) + cells t₀)) :
    getSide m q.key n = q.side ∧ getChild m q.key q.side.other = ptr q.sib := by
  cases t₀ with
  | nil => cases hf.ptr_mem
  | node c l k r =>
    cases hf.ptr_mem
    have hn : Holds m ((n, ⟨c, kids .left (ptr l) (ptr r)⟩) ::ₘ
        (ctx (q :: fs) (some n) + (cells l + cells r))) := by
      refine hm.of_eq ?_
      simp only [cells, ← singleton_add]
      abel
    exact ⟨hn.frame.1, hn.frame.2.1⟩

theorem fixMissingBlack_spec {d fuel : ℕ} (hf : Focus nullNode n t₀ t)
    (hm : Holds m (ctx fs (some n) + cells t₀)) (hu : fixBlack fs t = some u)
    (hst : Stacked st fs) (htop : st.slot fs.length = some n) (hw : Within d fs)
    (hsize : st.size = d + 1) (hnull : n = nullNode → fs ≠ [])
    (hkeys : ∀ f ∈ fs, f.key ≠ nullNode) (hfuel : fs.length < fuel) :
    ∃ m' st', fixMissingBlack nullNode fuel m st (fs.length + 1) = some (m', st') ∧
      Holds m' (cells u) ∧ st'.slot 0 = ptr u := by
  induction fs generalizing m st n t₀ t fuel with
  | nil =>
    rcases fuel with _ | fuel
    · cases hfuel
    cases hu
    have hn : n ≠ nullNode := fun h => hnull h rfl
    refine ⟨m, st, rfl, ?_, ?_⟩
    · have := hf.holds hm
      rwa [ctx, zero_add] at this
    · rw [hf.ptr_eq, if_neg hn]
      exact htop
  | cons p fs ih =>
    rcases fuel with _ | fuel
    · cases hfuel
    obtain ⟨hside, hsib⟩ := hf.frame hm
    have hn : st.top (fs.length + 1 + 1) 1 = some n := (st.top_add (fs.length + 1) 1).trans htop
    have hparent : st.top (fs.length + 1 + 1) 2 = some p.key :=
      (st.top_add fs.length 2).trans hst.1
    have hstep : ¬fs.length + 1 + 1 ≤ 1 := by omega
    have hdepth := hw.1
    rw [length_cons, fixMissingBlack]
    simp only [hstep, if_false, hn, hparent, hside, hsib, bind_eq_bind, bind_some]
    rw [fixBlack] at hu
    split at hu
    · cases hu
    · rename_i l k r hred
      obtain ⟨z, hz, rfl⟩ := Option.map_eq_some_iff.mp hu
      obtain ⟨l', o, r', hnear⟩ := settle_sib hz
      dsimp only at hnear
      have hheight : (pick p.side l r).height + 1 ≤ p.sib.height := by
        have := height_pick p.side l r
        rw [hred, height]
        omega
      have hpos : 0 < (pick p.side l r).height := by
        rw [hnear, height]
        omega
      obtain ⟨m₁, st₁, hraise, hm₁, hst₁, hsize₁⟩ := raiseSibling_spec hf hm hred
        (by rw [hnear, ptr_node]) hst (by omega)
      obtain ⟨m', st', hsettle, hm', hst', hslot, hsize'⟩ := settleSibling_spec hf hm₁ hz hnear
        hst₁ (by dsimp only [length_cons]; omega)
      have hdone : z.1 = false := by
        by_contra hmore
        have := (settle_more hz (by simpa using hmore)).1
        cases this
      simp only [length_cons] at hsettle
      refine ⟨m', st', ?_, ?_, hst'.root hslot⟩
      · simp [hred, ptr_node, hraise, hsettle, hdone, bind_some]
      · rwa [cells_plug]
    rename_i l k r hblack
    obtain ⟨z, hz, hu⟩ := Option.bind_eq_some_iff.mp hu
    have hheight : 0 < p.sib.height := by
      rw [hblack, height]
      omega
    have hraise : raiseSibling m st (fs.length + 1 + 1) n p.key p.side k =
        some (m, st, fs.length + 1 + 1, p.key, k) := by
      have hk : Holds m ((k, ⟨.black, kids .left (ptr l) (ptr r)⟩) ::ₘ
          ((p.key, ⟨p.color, kids p.side (some n) (some k)⟩) ::ₘ
          (cells l + cells r + ctx fs (some p.key) + cells t₀))) := by
        refine hm.of_eq ?_
        simp only [ctx, hblack, cells, ptr_node, ← singleton_add]
        abel
      rw [raiseSibling, hk.isBlack]
      rfl
    obtain ⟨m₁, st₁, hsettle, hm₁, hst₁, hslot, hsize₁⟩ :=
      settleSibling_spec hf hm hz hblack hst (by omega)
    simp only [hblack, ptr_node, hraise, hsettle, bind_some]
    cases hmore : z.1 with
    | false =>
      rw [hmore] at hu
      cases hu
      exact ⟨m₁, st₁, rfl, by rwa [cells_plug], hst₁.root hslot⟩
    | true =>
      rw [hmore] at hu
      have hptr := (settle_more hz hmore).2
      have hp : p.key ≠ nullNode := hkeys p (List.mem_cons_self ..)
      rw [hptr] at hm₁ hslot
      exact ih ⟨hptr, by rw [hptr, if_neg hp], le_rfl⟩ hm₁ hu hst₁ hslot hw.2
        (hsize₁.trans hsize) (fun h => absurd h hp)
        (fun f hf => hkeys f (List.mem_cons_of_mem _ hf)) (Nat.lt_of_succ_lt_succ hfuel)

/-! ### Node that takes the removed one's place -/

/-- Pointer that the outermost of the frames `gs` is behind. -/
def ptrUp : List (Frame RbAddr) → Option RbAddr → Option RbAddr
  | [], q => q
  | g :: gs, _ => ptrUp gs (some g.key)

theorem ctx_append (gs fs : List (Frame RbAddr)) (q : Option RbAddr) :
    ctx (gs ++ fs) q = ctx gs q + ctx fs (ptrUp gs q) := by
  induction gs generalizing q with
  | nil => rw [List.nil_append, ctx, zero_add, ptrUp]
  | cons g gs ih =>
    rw [List.cons_append, ctx, ih, ctx, ptrUp, cons_add, add_assoc]

theorem swap_tail {q : Option RbAddr}
    (hm : Holds m ((p, ⟨c, kids .left a q⟩) ::ₘ (k, ⟨d, kids .left b none⟩) ::ₘ R)) :
    Holds (setColor (setColor (setChild (setChild m k .right (getChild m p .right)) p .right none) p
        (getColor (setChild (setChild m k .right (getChild m p .right)) p .right none) k)) k
        (getColor (setChild (setChild m k .right (getChild m p .right)) p .right none) p))
      ((p, ⟨d, kids .left a none⟩) ::ₘ (k, ⟨c, kids .left b q⟩) ::ₘ R) := by
  have hq : getChild m p .right = q := hm.flip.getChild
  rw [hq]
  have hm₁ := (hm.of_eq (cons_swap _ _ _)).setChild_other q
  have hm₂ := (hm₁.of_eq (cons_swap _ _ _)).setChild_other none
  rw [Side.other] at hm₂
  rw [hm₂.getColor, (hm₂.of_eq (cons_swap _ _ _)).getColor]
  exact (((hm₂.setColor d).of_eq (cons_swap _ _ _)).setColor c).of_eq (cons_swap _ _ _)

theorem hiparent_eq (hst : Stacked st fs) :
    (if fs.length + 1 > 1 then st.top (fs.length + 1) 2 else none) = (fs.head?).map key := by
  cases fs with
  | nil => rfl
  | cons f fs =>
    rw [if_pos (by simp)]
    exact (st.top_add fs.length 2).trans hst.1

theorem swapNodes_up (lo : RbAddr) : swapNodes m ((fs.head?).map key) lo p k =
    swapNodes (retarget m fs p k) none lo p k := by
  cases fs with
  | nil => rfl
  | cons f fs => rfl

theorem swapNodes_child
    (hm : Holds m (ctx fs (some p) + (p, ⟨c, kids .left (some k) y⟩) ::ₘ
      (k, ⟨d, kids .left x none⟩) ::ₘ R)) :
    Holds (swapNodes m ((fs.head?).map key) p p k)
      ((p, ⟨d, kids .left x none⟩) ::ₘ (k, ⟨c, kids .left (some p) y⟩) ::ₘ
        (ctx fs (some k) + R)) := by
  have hm₁ := hm.retarget (k := k)
  rw [swapNodes_up]
  generalize retarget m fs p k = m₁ at hm₁ ⊢
  have hm₂ : Holds m₁ ((k, ⟨d, kids .left x none⟩) ::ₘ (p, ⟨c, kids .left (some k) y⟩) ::ₘ
      (ctx fs (some k) + R)) := by
    refine hm₁.of_eq ?_
    simp only [← singleton_add]
    abel
  simp only [swapNodes, if_true, hm₂.getChild]
  have hm₃ := (hm₂.of_eq (cons_swap _ _ _)).setChild x
  have hm₄ := (hm₃.of_eq (cons_swap _ _ _)).setChild (some p)
  exact swap_tail (hm₄.of_eq (cons_swap _ _ _))

theorem swapNodes_below (hm : Holds m (ctx fs (some p) + (p, ⟨c, kids .left a y⟩) ::ₘ
      (k, ⟨d, kids .left x none⟩) ::ₘ (o, ⟨e, kids .right (some k) (ptr u)⟩) ::ₘ (cells u + R))) :
    Holds (swapNodes m ((fs.head?).map key) o p k)
      ((p, ⟨d, kids .left x none⟩) ::ₘ (k, ⟨c, kids .left a y⟩) ::ₘ
        (ctx fs (some k) + (o, ⟨e, kids .right (some p) (ptr u)⟩) ::ₘ (cells u + R))) := by
  have hm₁ := hm.retarget (k := k)
  rw [swapNodes_up]
  generalize retarget m fs p k = m₁ at hm₁ ⊢
  have hm₂ : Holds m₁ ((o, ⟨e, kids .right (some k) (ptr u)⟩) ::ₘ (p, ⟨c, kids .left a y⟩) ::ₘ
      (k, ⟨d, kids .left x none⟩) ::ₘ (ctx fs (some k) + (cells u + R))) := by
    refine hm₁.of_eq ?_
    simp only [← singleton_add]
    abel
  have hne : o ≠ p := ne hm₂ (Multiset.mem_cons_self _ _)
  have hside : getSide m₁ o k = .right := by
    refine hm₂.getSide (Holds.ptr_ne (x := ⟨d, kids .left x none⟩)
      (S := (o, ⟨e, kids .right (some k) (ptr u)⟩) ::ₘ (p, ⟨c, kids .left a y⟩) ::ₘ
        (ctx fs (some k) + R)) (hm₂.of_eq ?_))
    simp only [← singleton_add]
    abel
  simp only [swapNodes, if_neg hne, hside]
  have hm₃ := (hm₂.setChild (some p)).of_eq ((cons_rotate _ _ _ _).trans (cons_rotate _ _ _ _))
  have hleft := hm₃.getChild
  have hnode2 := (hm₃.of_eq (cons_swap _ _ _)).getChild
  rw [hleft, hnode2]
  have hm₄ := (hm₃.setChild x).of_eq (cons_swap _ _ _)
  have hm₅ := (hm₄.setChild a).of_eq (cons_swap _ _ _)
  refine (swap_tail hm₅).of_eq ?_
  simp only [← singleton_add]
  abel

theorem lastLoop_spec {z : List (Frame RbAddr) × Color × ColTree RbAddr × RbAddr} {fuel : ℕ}
    (hm : Holds m (cells t + R)) (hk : ptr t = some k) (hz : last t fs = some z)
    (hst : Stacked st fs) (htop : st.slot fs.length = some k) (hfuel : t.height ≤ fuel)
    (hsize : fs.length + t.height ≤ st.size) :
    ∃ st', lastLoop m fuel st (fs.length + 1) k = some (st', z.1.length + 1, z.2.2.2) ∧
      Stacked st' z.1 ∧ st'.slot z.1.length = some z.2.2.2 ∧ st'.size = st.size := by
  induction t, fs using last.induct generalizing st k R fuel with
  | case1 fs => cases hk
  | case2 c l k' fs =>
    cases hk
    cases hz
    rcases fuel with _ | fuel
    · simp [height] at hfuel
    rw [cells, cons_add] at hm
    have hright : getChild m k' .right = none := hm.flip.getChild
    exact ⟨st, by simp only [lastLoop, hright], hst, htop, rfl⟩
  | case3 c l k' c' l' k₂ r' fs ih =>
    cases hk
    rcases fuel with _ | fuel
    · simp [height] at hfuel
    have hm' := hm
    rw [cells, cons_add] at hm'
    have hright : getChild m k' .right = some k₂ := hm'.flip.getChild
    rw [height] at hfuel hsize
    have hheight : (node c' l' k₂ r').height ≠ 0 := by simp [height]
    have hset : st.set (fs.length + 1) k₂ = some (st.put (fs.length + 1) k₂) :=
      set_eq (by omega)
    have hpush : Stacked (st.put (fs.length + 1) k₂) (⟨c, .right, k', l⟩ :: fs) :=
      ⟨(put_slot_ne (by omega)).trans htop, hst.put (Nat.le_succ _)⟩
    have hsub : Holds m (cells (node c' l' k₂ r') + (cells l + R)) := by
      rw [← add_assoc, add_comm (cells (node c' l' k₂ r'))]
      exact mono hm' (le_cons_self _ _)
    simp only [lastLoop, hright, hset, bind_eq_bind, bind_some]
    refine ih hsub rfl hz hpush put_slot_self (by omega) ?_
    rw [length_cons, put_size]
    omega

theorem Stacked.slot_middle (h : Stacked st (gs ++ f :: fs)) : st.slot fs.length = some f.key := by
  induction gs with
  | nil => exact h.1
  | cons g gs ih => exact ih h.2

theorem Stacked.put_middle (h : Stacked st (gs ++ f :: fs)) :
    Stacked (st.put fs.length k) (gs ++ { f with key := k } :: fs) := by
  induction gs with
  | nil => exact ⟨put_slot_self, h.2.put le_rfl⟩
  | cons g gs ih =>
    have hslot : st.slot (gs ++ f :: fs).length = some g.key := h.1
    have hlen : (gs ++ { f with key := k } :: fs).length = (gs ++ f :: fs).length := by simp
    rw [List.cons_append, Stacked]
    refine ⟨?_, ih h.2⟩
    rw [hlen, put_slot_ne (by simp only [List.length_append, length_cons]; omega), hslot]

theorem ptr_plug (gs : List (Frame RbAddr)) (t : ColTree RbAddr) :
    ptr (plug gs t) = ptrUp gs (ptr t) := by
  induction gs generalizing t with
  | nil => rfl
  | cons g gs ih => rw [plug, ih, fill, ptr_join, ptrUp]

theorem swapNodes_spec {hs : List (Frame RbAddr)} {l₂ : ColTree RbAddr}
    (hm : Holds m (ctx fs (some p) + cells (node c l p r)))
    (hl : plug gs (node d l₂ k nil) = l) (hside : ∀ g ∈ gs, g.side = .right)
    (hlo : gs ++ ⟨c, .left, p, r⟩ :: fs = f :: hs) :
    Holds (swapNodes m ((fs.head?).map key) f.key p k)
      (ctx (gs ++ ⟨c, .left, k, r⟩ :: fs) (some p) + cells (node d l₂ p nil)) := by
  have hptr : ptr l = ptrUp gs (some k) := by rw [← hl, ptr_plug, ptr_node]
  have hcells : cells l = ctx gs (some k) + cells (node d l₂ k nil) := by
    rw [← hl, cells_plug, ptr_node]
  rw [cells, hptr, hcells] at hm
  cases gs with
  | nil =>
    cases hlo
    rw [ctx, ptrUp] at hm
    have hm' : Holds m (ctx fs (some p) + (p, ⟨c, kids .left (some k) (ptr r)⟩) ::ₘ
        (k, ⟨d, kids .left (ptr l₂) none⟩) ::ₘ (cells l₂ + cells r)) := by
      refine hm.of_eq ?_
      simp only [cells, ptr_nil, ← singleton_add]
      abel
    refine (swapNodes_child hm').of_eq ?_
    simp only [ctx, List.nil_append, cells, ptr_nil, ← singleton_add]
    abel
  | cons g gs =>
    cases hlo
    have hg : f.side = .right := hside f (List.mem_cons_self ..)
    rw [ctx, ptrUp, hg] at hm
    have hm' : Holds m (ctx fs (some p) + (p, ⟨c, kids .left (ptrUp gs (some f.key)) (ptr r)⟩) ::ₘ
        (k, ⟨d, kids .left (ptr l₂) none⟩) ::ₘ
        (f.key, ⟨f.color, kids .right (some k) (ptr f.sib)⟩) ::ₘ
        (cells f.sib + (ctx gs (some f.key) + cells l₂ + cells r))) := by
      refine hm.of_eq ?_
      simp only [cells, ptr_nil, ← singleton_add]
      abel
    refine (swapNodes_below hm').of_eq ?_
    rw [ctx_append]
    simp only [ctx, ptrUp, hg, cells, ptr_nil, ← singleton_add]
    abel

theorem swapWithLast_spec {z : List (Frame RbAddr) × Color × ColTree RbAddr × RbAddr}
    (hm : Holds m (ctx fs (some p) + cells (node c l p r)))
    (hk : ptr l = some k) (hz : last l [] = some z) (hst : Stacked st fs)
    (htop : st.slot fs.length = some p) (hsize : fs.length + (node c l p r).height < st.size) :
    ∃ m' st', swapWithLast m st (fs.length + 1) p =
        some (m', st', (z.1 ++ ⟨c, .left, z.2.2.2, r⟩ :: fs).length + 1) ∧
      Holds m' (ctx (z.1 ++ ⟨c, .left, z.2.2.2, r⟩ :: fs) (some p) +
        cells (node z.2.1 z.2.2.1 p nil)) ∧
      Stacked st' (z.1 ++ ⟨c, .left, z.2.2.2, r⟩ :: fs) ∧
      st'.slot (z.1 ++ ⟨c, .left, z.2.2.2, r⟩ :: fs).length = some p ∧ st'.size = st.size := by
  obtain ⟨hplug, gs, hgs, hside⟩ := last_path hz
  rw [List.append_nil] at hgs
  subst hgs
  have hlast : last l (⟨c, .left, p, r⟩ :: fs) = some (z.1 ++ ⟨c, .left, p, r⟩ :: fs, z.2) := by
    have := last_append l [] (⟨c, .left, p, r⟩ :: fs)
    rwa [hz] at this
  have hleft : getChild m p .left = some k := by
    have hp := hm.of_eq (T := (p, ⟨c, kids .left (ptr l) (ptr r)⟩) ::ₘ
      (ctx fs (some p) + (cells l + cells r))) (by
        simp only [cells, ← singleton_add]
        abel)
    rw [hp.getChild, hk]
  have hsub : Holds m (cells l + ((p, ⟨c, kids .left (ptr l) (ptr r)⟩) ::ₘ
      (ctx fs (some p) + cells r))) := by
    refine hm.of_eq ?_
    simp only [cells, ← singleton_add]
    abel
  rw [height] at hsize
  have hset : st.set (fs.length + 1) k = some (st.put (fs.length + 1) k) :=
    set_eq (by omega)
  have hpush : Stacked (st.put (fs.length + 1) k) (⟨c, .left, p, r⟩ :: fs) :=
    ⟨(put_slot_ne (by omega)).trans htop, hst.put (Nat.le_succ _)⟩
  have hfuel : l.height ≤ st.size := by omega
  have hlength := length_last_lt hlast
  obtain ⟨st₁, hloop, hst₁, hslot₁, hsize₁⟩ := lastLoop_spec hsub hk hlast hpush
    put_slot_self hfuel (by
      rw [length_cons, put_size]
      omega)
  rw [put_size] at hsize₁
  obtain ⟨f, hs, hlo⟩ : ∃ f hs, z.1 ++ ⟨c, .left, p, r⟩ :: fs = f :: hs := by
    cases z.1 with
    | nil => exact ⟨_, _, rfl⟩
    | cons g gs => exact ⟨_, _, rfl⟩
  have hm' := swapNodes_spec hm hplug hside hlo
  have hlen : (z.1 ++ ⟨c, .left, z.2.2.2, r⟩ :: fs).length = (f :: hs).length := by
    rw [← hlo]
    simp
  have hmid := hst₁.put_middle (k := z.2.2.2)
  have hfs : fs.length < (f :: hs).length := by
    rw [← hlen]
    simp only [List.length_append, length_cons]
    omega
  have hp : st₁.top (fs.length + 1) 1 = some p := (st₁.top_add fs.length 1).trans hst₁.slot_middle
  dsimp only at hloop hslot₁ hlength
  rw [hlo] at hloop hslot₁ hst₁ hlength
  have hloop' : lastLoop m st.size (st.put (fs.length + 1) k) (fs.length + 1 + 1) k =
      some (st₁, (f :: hs).length + 1, z.2.2.2) := hloop
  have hlo₁ : st₁.top ((f :: hs).length + 1) 2 = some f.key :=
    (st₁.top_add hs.length 2).trans hst₁.1
  have hlast₁ : st₁.top ((f :: hs).length + 1) 1 = some z.2.2.2 :=
    (st₁.top_add (f :: hs).length 1).trans hslot₁
  have hbound : (f :: hs).length < st.size := by
    simp only [length_cons] at hlength ⊢
    omega
  have hset₁ : st₁.set (fs.length + 1 - 1) z.2.2.2 = some (st₁.put fs.length z.2.2.2) :=
    set_eq (by omega)
  have hset₂ : (st₁.put fs.length z.2.2.2).set ((f :: hs).length + 1 - 1) p =
      some ((st₁.put fs.length z.2.2.2).put (f :: hs).length p) :=
    set_eq (by rwa [put_size, hsize₁])
  refine ⟨_, (st₁.put fs.length z.2.2.2).put (f :: hs).length p, ?_, hm', ?_, ?_, ?_⟩
  · simp only [swapWithLast, hleft, hiparent_eq hst, hset, put_size, hloop', hlo₁, hp, hlast₁,
      hset₁, hset₂, hlen, bind_eq_bind, bind_some]
  · exact hmid.put hlen.le
  · rw [hlen, put_slot_self]
  · exact hsize₁

/-! ### Taking the node out -/

theorem Stacked.root_of_cons (hst : Stacked st (f :: fs))
    (t : ColTree RbAddr) : st.slot 0 = ptr (plug (f :: fs) t) := by
  rw [plug]
  refine hst.2.root ?_
  rw [hst.1, fill, ptr_join]

theorem Holds.frames_ne {x : Cell} (hm : Holds m ((p, x) ::ₘ (ctx fs b + R))) :
    ∀ f ∈ fs, f.key ≠ p := by
  induction fs generalizing b R with
  | nil => simp
  | cons g fs ih =>
    rw [ctx] at hm
    intro f hf
    rcases List.mem_cons.mp hf with rfl | hf
    · refine (ne hm (w := ⟨f.color, kids f.side b (ptr f.sib)⟩) ?_).symm
      simp
    · refine ih (b := some g.key) (R := (g.key, ⟨g.color, kids g.side b (ptr g.sib)⟩) ::ₘ
        (cells g.sib + R)) (hm.of_eq ?_) f hf
      simp only [← singleton_add]
      abel

theorem Holds.firstChild (hm : Holds m ((p, ⟨c, kids s a none⟩) ::ₘ R)) : firstChild m p = a := by
  have hs := hm.getChild
  have hother := hm.flip.getChild
  rw [Rb.firstChild]
  cases s with
  | left =>
    rw [Side.other] at hother
    rw [hs]
    cases a with
    | none => exact hother
    | some _ => rfl
  | right =>
    rw [Side.other] at hother
    rw [hother]
    exact hs

/-- The node `p`, with the child `t` on side `s` and none on the other, is taken out. -/
theorem removeNode_spec {σ : State} {d : ℕ}
    (hm : Holds m (ctx fs (some p) + cells (join s c t p nil))) (hu : unlink fs c t = some u)
    (hst : Stacked st fs) (htop : st.slot fs.length = some p) (hw : Within d fs)
    (hsize : st.size = d + 1) :
    ∃ σ', removeNode σ m st (fs.length + 1) p = some σ' ∧ Rep σ' u ∧
      (σ'.maxDepth = σ.maxDepth ∨ u = nil) := by
  have hp : Holds m ((p, ⟨c, kids s (ptr t) none⟩) ::ₘ (ctx fs (some p) + cells t)) := by
    refine hm.of_eq ?_
    simp only [cells_join, cells, ptr_nil, ← singleton_add]
    abel
  have hchild := hp.firstChild
  have hctx : Holds m (ctx fs (some p) + cells t) := mono hp (le_cons_self _ _)
  cases fs with
  | nil =>
    -- the root is removed
    cases hu
    rw [ctx, zero_add] at hctx
    cases t with
    | nil =>
      refine ⟨⟨m, none, 0⟩, ?_, ⟨rfl, hctx⟩, Or.inr rfl⟩
      simp only [removeNode, List.length_nil, hchild, ptr_nil]
      rfl
    | node ct l k r =>
      rw [cells] at hctx
      refine ⟨⟨setColor m k .black, some k, σ.maxDepth⟩, ?_, ⟨rfl, hctx.setColor .black⟩,
        Or.inl rfl⟩
      simp only [removeNode, List.length_nil, hchild, ptr_node]
      rfl
  | cons f fs =>
    have hparent : st.top (fs.length + 1 + 1) 2 = some f.key := (st.top_add fs.length 2).trans hst.1
    have hstep : ¬fs.length + 1 + 1 < 2 := by omega
    obtain ⟨hside, -⟩ := hp.frame
    have hroot := hst.root_of_cons
    cases t with
    | nil =>
      simp only [unlink] at hu
      simp only [removeNode, length_cons, hchild, ptr_nil, hstep, if_false, hparent,
        hp.isBlack, hside, bind_eq_bind, bind_some]
      cases c with
      | black =>
        have hf : Focus p p (join s .black nil p nil) nil :=
          ⟨ptr_join .., (if_pos rfl).symm, Multiset.zero_le _⟩
        obtain ⟨m', st', hfix, hm', hroot'⟩ := fixMissingBlack_spec hf hm hu hst htop hw hsize
          (fun _ => List.cons_ne_nil f fs) hp.frames_ne (Nat.lt_succ_self _)
        refine ⟨⟨m', st'.slot 0, σ.maxDepth⟩, ?_, ⟨hroot', hm'⟩, Or.inl rfl⟩
        simp only [length_cons] at hfix
        simp [hfix, bind_some]
      | red =>
        cases hu
        rw [ctx, cons_add] at hctx
        refine ⟨⟨setChild m f.key f.side none, st.slot 0, σ.maxDepth⟩, rfl,
          ⟨hroot nil, (hctx.setChild none).of_eq ?_⟩, Or.inl rfl⟩
        rw [cells_plug, ctx, cons_add, ptr_nil]
    | node ct l k r =>
      simp only [unlink, some_inj] at hu
      subst hu
      have hm₁ : Holds m ((f.key, ⟨f.color, kids f.side (some p) (ptr f.sib)⟩) ::ₘ
          (p, ⟨c, kids s (some k) none⟩) ::ₘ (k, ⟨ct, kids .left (ptr l) (ptr r)⟩) ::ₘ
          (cells f.sib + ctx fs (some f.key) + cells l + cells r)) := by
        refine hp.of_eq ?_
        simp only [ctx, cells, ptr_node, ← singleton_add]
        abel
      have hm₂ := hm₁.setChild (some k)
      have hpred := (hm₂.of_eq (cons_swap _ _ _)).getColor
      have hkred := (hm₂.of_eq (cons_rotate _ _ _ _)).getColor
      have hm₃ := hm₂.of_eq (cons_rotate _ _ _ _)
      have hdone : ∀ {m' : RbMem} {e : Color}, Holds m' ((k, ⟨e, kids .left (ptr l) (ptr r)⟩) ::ₘ
          (f.key, ⟨f.color, kids f.side (some k) (ptr f.sib)⟩) ::ₘ
          (p, ⟨c, kids s (some k) none⟩) ::ₘ
          (cells f.sib + ctx fs (some f.key) + cells l + cells r)) →
          Holds m' (cells (plug (f :: fs) (node e l k r))) := by
        intro m' e hm'
        have hdrop : Holds m' ((p, ⟨c, kids s (some k) none⟩) ::ₘ
            cells (plug (f :: fs) (node e l k r))) := by
          refine hm'.of_eq ?_
          simp only [cells_plug, ctx, cells, ptr_node, ← singleton_add]
          abel
        exact mono hdrop (le_cons_self _ _)
      simp only [removeNode, length_cons, hchild, ptr_node, hstep, if_false, hparent, hside,
        isRed, hpred, hkred, bind_eq_bind, bind_some]
      by_cases hred : c = .red ∨ (node ct l k r).isRed = true
      · have htest : (decide (c = Color.red) || decide (ct = Color.red)) = true := by
          rcases hred with rfl | hred
          · rfl
          · cases ct with
            | red => exact Bool.or_true _
            | black => cases hred
        rw [if_pos hred, if_pos htest]
        exact ⟨_, rfl, ⟨hroot _, hdone (hm₃.setColor .black)⟩, Or.inl rfl⟩
      have htest : ¬(decide (c = Color.red) || decide (ct = Color.red)) = true := by
        intro h
        rcases Bool.or_eq_true_iff.mp h with h | h
        · exact hred (Or.inl (of_decide_eq_true h))
        · refine hred (Or.inr ?_)
          rw [of_decide_eq_true h]
          rfl
      rw [if_neg hred, if_neg htest]
      exact ⟨_, rfl, ⟨hroot _, hdone hm₃⟩, Or.inl rfl⟩

end removal

variable {x : RbAddr}

theorem within_last {fs : List (Frame RbAddr)} {c : Color} {l r : ColTree RbAddr}
    {z : List (Frame RbAddr) × Color × ColTree RbAddr × RbAddr} {d : ℕ}
    (hz : last l [] = some z) (hd : (plug fs (node c l x r)).height ≤ d) :
    Within d (z.1 ++ ⟨c, .left, z.2.2.2, r⟩ :: fs) := by
  have hplug : plug (z.1 ++ ⟨c, .left, z.2.2.2, r⟩ :: fs) (node z.2.1 z.2.2.1 z.2.2.2 nil) =
      plug fs (node c l z.2.2.2 r) := by
    rw [plug_append, (last_path hz).1]
    rfl
  have hle : (plug fs (node c l z.2.2.2 r)).height ≤ d := by
    rw [height_plug_le] at hd ⊢
    exact hd
  rw [← hplug, height_plug_le] at hle
  exact hle.2

theorem rbRemove_found {s : State} {st : Stack} {fs : List (Frame RbAddr)} {c : Color}
    {l r u : ColTree RbAddr} (hm : Holds s.mem (ctx fs (some x) + cells (node c l x r)))
    (hu : removeAt fs (node c l x r) = some u) (hst : Stacked st fs)
    (htop : st.slot fs.length = some x) (hd : (plug fs (node c l x r)).height ≤ s.maxDepth)
    (hsize : st.size = s.maxDepth + 1) :
    ∃ s', ((if getChild s.mem x .left ≠ none ∧ getChild s.mem x .right ≠ none then
        swapWithLast s.mem st (fs.length + 1) x else some (s.mem, st, fs.length + 1)).bind fun y =>
          removeNode s y.1 y.2.1 y.2.2 x) = some s' ∧ Rep s' u ∧
      (s'.maxDepth = s.maxDepth ∨ u = nil) := by
  have hx : Holds s.mem ((x, ⟨c, kids .left (ptr l) (ptr r)⟩) ::ₘ
      (ctx fs (some x) + (cells l + cells r))) := by
    refine hm.of_eq ?_
    simp only [cells, ← singleton_add]
    abel
  have hleft := hx.getChild
  have hright : getChild s.mem x .right = ptr r := hx.flip.getChild
  have hw := (height_plug_le.mp hd).2
  rw [hleft, hright]
  cases l with
  | nil => exact removeNode_spec (s := .right) hm hu hst htop hw hsize
  | node cl ll kl rl =>
    cases r with
    | nil => exact removeNode_spec (s := .left) hm hu hst htop hw hsize
    | node cr lr kr rr =>
      obtain ⟨z, hz, hu⟩ := Option.bind_eq_some_iff.mp hu
      have hdepth := (height_plug_le.mp hd).1
      obtain ⟨m', st', hswap, hm', hst', htop', hsize'⟩ :=
        swapWithLast_spec hm (ptr_node cl ll kl rl) hz hst htop (by omega)
      rw [if_pos (by simp), hswap, bind_some]
      exact removeNode_spec (s := .left) hm' hu hst' htop' (within_last hz hd) (hsize'.trans hsize)

/-- **`rb_remove` refines the removal from a tree.** -/
theorem rbRemove_spec {lt : RbAddr → RbAddr → Bool} {s : State} {t : ColTree RbAddr}
    (hs : Balanced s t) (ht : t ≠ nil) :
    ∃ s' u, rbRemove lt s x = some s' ∧ remove lt x t = some u ∧ Balanced s' u := by
  obtain ⟨b, hrb, hd⟩ := hs.balance
  obtain ⟨u, b', hu, hrb', hd'⟩ := hrb.remove lt x hd
  obtain ⟨root, hroot⟩ : ∃ root, ptr t = some root := by
    cases t with
    | nil => exact absurd rfl ht
    | node c l k r => exact ⟨k, rfl⟩
  have hsroot := hs.root.trans hroot
  have hholds := hs.holds
  obtain ⟨st, sz, hst, hsize, hfound⟩ := findAndStack_spec lt x (R := 0)
    (hholds.of_eq (add_zero _).symm) hroot hd.height_le
  have hplug : plug _ _ = t := plug_find lt x t []
  rcases find_eq_nil_or lt x t [] with hnil | ⟨c, l, r, hnode⟩
  · -- the node is not in the tree
    obtain ⟨f, gs, hfs, -⟩ := find_side lt x ht [] hnil
    have hkeys : ∀ g ∈ (find lt x t []).1, g.key ≠ x := find_key_ne lt x t (by simp)
    have hne := hkeys f (by rw [hfs]; exact List.mem_cons_self ..)
    have htop : st.top sz 1 = some f.key := by
      have hstacked := hfound.stacked
      rw [hfs] at hstacked
      rw [hfound.absent hnil, hfs]
      exact (st.top_add gs.length 1).trans hstacked.1
    refine ⟨s, u, ?_, hu, ?_⟩
    · simp [rbRemove, hsroot, hst, htop, bind_eq_bind, bind_some, hne.symm]
    have hut : u = t := by
      rw [remove, hnil, removeAt, ← hnil, hplug] at hu
      exact (some_inj.mp hu).symm
    rw [hut]
    exact hs
  obtain ⟨rfl, htop⟩ := hfound.present (by rw [hnode]; simp)
  rw [hnode] at hplug
  have hu' := hu
  rw [remove, hnode] at hu'
  rw [← hplug] at hd
  rw [← hplug, cells_plug] at hholds
  obtain ⟨s', hrem, hrep, hdepth⟩ := rbRemove_found hholds hu' hfound.stacked htop hd.height_le hsize
  have htop' := (st.top_add _ 1).trans htop
  refine ⟨s', u, ?_, hu, ⟨hrep, ?_⟩⟩
  · rw [← hrem]
    simp only [rbRemove, hsroot, hst, htop', bind_eq_bind, bind_some, ne_eq,
      not_true_eq_false, if_false]
    split_ifs <;> rfl
  · rcases hdepth with hdepth | rfl
    · exact ⟨b', hrb', by rwa [hdepth]⟩
    · exact ⟨0, .nil, Nat.zero_le _, Nat.zero_le _⟩

end TlZephyr.Rb
