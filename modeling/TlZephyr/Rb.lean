import TlZephyr.Lib.RedBlack

/-!
# Red/Black Tree: Source Model

`lib/utils/rb.c`. A node is two words, the left child and the right one, and the lowest bit of the
first word is the color. There are no parent pointers: an operation walks down with an array of
`max_depth + 1` nodes on the C stack, and repairs the tree along it.

A `struct rbnode *` is `Option RbAddr`, where an `RbAddr` is a node's address; what dereferences a
null pointer, reads an entry of the array that was not written or writes past its end is `none`.

The variant for `CONFIG_MISRA_SANE`, which keeps the array in the tree, and the recursive walk
(`z_rb_walk`) are not modelled.
-/

namespace TlZephyr.Rb

open RedBlack

/-- Address of a node: not null, and aligned, so that the lowest bit is free. -/
abbrev RbAddr := {a : ℕ // a ≠ 0 ∧ a % 2 = 0}

/-- `struct rbnode`. The color is in the lowest bit of the first word. -/
structure RbNode where
  children0 : ℕ
  children1 : Option RbAddr
deriving DecidableEq

abbrev RbMem := RbAddr → RbNode

/-! ### Words -/

/-- Word without its lowest bit, as a pointer. -/
def toPointer (w : ℕ) : Option RbAddr :=
  if h : w >>> 1 <<< 1 = 0 then none
  else some ⟨w >>> 1 <<< 1, h, by rw [Nat.shiftLeft_eq]; exact Nat.mul_mod_left _ 2⟩

def toWord : Option RbAddr → ℕ
  | none => 0
  | some a => a.val

/-- `enum rb_color`. -/
def colorBit : Color → ℕ
  | .red => 0
  | .black => 1

variable (m : RbMem)

def getChild (n : RbAddr) : Side → Option RbAddr
  | .right => (m n).children1
  | .left => toPointer (m n).children0

def setChild (n : RbAddr) (side : Side) (val : Option RbAddr) : RbMem :=
  Function.update m n
    (match side with
    | .right => { m n with children1 := val }
    | .left => { m n with children0 := toWord val ||| ((m n).children0 &&& 1) })

def getColor (n : RbAddr) : Color :=
  if (m n).children0 &&& 1 = 1 then .black else .red

def isBlack (n : RbAddr) : Bool := getColor m n = .black

def isRed (n : RbAddr) : Bool := getColor m n = .red

def setColor (n : RbAddr) (color : Color) : RbMem :=
  Function.update m n { m n with children0 := (m n).children0 >>> 1 <<< 1 ||| colorBit color }

def getSide (parent child : RbAddr) : Side :=
  if getChild m parent .right = some child then .right else .left

/-! ### Array of nodes on the way down -/

/-- `struct rbnode *stack[size]`. -/
structure Stack where
  size : ℕ
  slot : ℕ → Option RbAddr

def Stack.new (size : ℕ) : Stack := ⟨size, fun _ => none⟩

/-- `stack[stacksz - d]`. -/
def Stack.top (st : Stack) (stacksz d : ℕ) : Option RbAddr :=
  if d ≤ stacksz then st.slot (stacksz - d) else none

/-- `stack[i] = n`. -/
def Stack.set (st : Stack) (i : ℕ) (n : RbAddr) : Option Stack :=
  if i < st.size then some { st with slot := Function.update st.slot i (some n) } else none

section search

variable (lessthan_fn : RbAddr → RbAddr → Bool)

/-- Loop of `find_and_stack`, one entry a round. -/
def findLoop (m : RbMem) (node : RbAddr) : ℕ → Stack → ℕ → Option (Stack × ℕ)
  | 0, _, _ => none
  | fuel + 1, st, sz => do
    let top ← st.top sz 1
    if top = node then
      some (st, sz)
    else
      match getChild m top (if lessthan_fn node top then .left else .right) with
      | none => some (st, sz)
      | some ch => do
        let st ← st.set sz ch
        findLoop m node fuel st (sz + 1)

def findAndStack (m : RbMem) (root node : RbAddr) (st : Stack) : Option (Stack × ℕ) := do
  let st ← st.set 0 root
  findLoop lessthan_fn m node st.size st 1

end search

/-! ### Insertion -/

def rotate (st : Stack) (stacksz : ℕ) : Option (RbMem × Stack) := do
  let parent ← st.top stacksz 2
  let child ← st.top stacksz 1
  let side := getSide m parent child
  let a := getChild m child side
  let b := getChild m child side.other
  let m ← if 3 ≤ stacksz then do
      let grandparent ← st.top stacksz 3
      some (setChild m grandparent (getSide m grandparent parent) (some child))
    else some m
  let m := setChild m child side a
  let m := setChild m child side.other (some parent)
  let m := setChild m parent side b
  let st ← st.set (stacksz - 2) child
  let st ← st.set (stacksz - 1) parent
  some (m, st)

/-- A pointer to a red node; a null pointer counts as black. -/
def redNode (p : Option RbAddr) : Bool :=
  match p with
  | none => false
  | some n => isRed m n

/-- The loop body goes up two entries, so the recursion is on the number of entries. -/
def fixExtraRed (m : RbMem) (st : Stack) : ℕ → Option (RbMem × Stack)
  | 0 | 1 => do
    let root ← st.slot 0
    some (setColor m root .black, st)
  | n + 2 => do
    let node ← st.top (n + 2) 1
    let parent ← st.top (n + 2) 2
    if isBlack m parent then
      some (m, st)
    else
      let grandparent ← st.top (n + 2) 3
      let side := getSide m grandparent parent
      let aunt := getChild m grandparent side.other
      if redNode m aunt then do
        let aunt ← aunt
        let m := setColor m grandparent .red
        let m := setColor m parent .black
        let m := setColor m aunt .black
        fixExtraRed m st n
      else
        let (m, st) ← if getSide m parent node ≠ side then rotate m st (n + 2) else some (m, st)
        let (m, st) ← rotate m st (n + 1)
        let top ← st.top (n + 2) 3
        let below ← st.top (n + 2) 2
        let m := setColor m top .black
        let m := setColor m below .red
        some (m, st)

/-- `struct rbtree`, with the memory its nodes are in. -/
structure State where
  mem : RbMem
  root : Option RbAddr
  maxDepth : ℕ

section operations

variable (lessthan_fn : RbAddr → RbAddr → Bool)

def rbInsert (s : State) (node : RbAddr) : Option State :=
  let m := setChild s.mem node .left none
  let m := setChild m node .right none
  match s.root with
  | none => some ⟨setColor m node .black, some node, 1⟩
  | some root => do
    let (st, stacksz) ← findAndStack lessthan_fn m root node (.new (s.maxDepth + 1))
    let parent ← st.top stacksz 1
    let side := if lessthan_fn node parent then .left else .right
    let m := setChild m parent side (some node)
    let m := setColor m node .red
    let st ← st.set stacksz node
    let (m, st) ← fixExtraRed m st (stacksz + 1)
    some ⟨m, st.slot 0, if stacksz + 1 > s.maxDepth then stacksz + 1 else s.maxDepth⟩

end operations

/-! ### Removal -/

/-- A red sibling of `n` goes up and gives `n` a black one. -/
def raiseSibling (st : Stack) (stacksz : ℕ) (n parent : RbAddr) (nSide : Side)
    (sib : RbAddr) : Option (RbMem × Stack × ℕ × RbAddr × RbAddr) :=
  if isBlack m sib then
    some (m, st, stacksz, parent, sib)
  else do
    let st ← st.set (stacksz - 1) sib
    let (m, st) ← rotate m st stacksz
    let m := setColor m parent .red
    let m := setColor m sib .black
    let st ← st.set stacksz n
    let parent ← st.top (stacksz + 1) 2
    let sib ← getChild m parent nSide.other
    some (m, st, stacksz + 1, parent, sib)

/-- The sibling of `n` has a red child: the one on the far side from `n` is made red. -/
def turnSibling (st : Stack) (stacksz : ℕ) (n : RbAddr) (nSide : Side)
    (sib : RbAddr) : Option (RbMem × Stack × RbAddr × RbAddr) :=
  let outer := getChild m sib nSide.other
  if redNode m outer then do
    let outer ← outer
    some (m, st, sib, outer)
  else do
    let inner ← getChild m sib nSide
    let st ← st.set (stacksz - 1) sib
    let st ← st.set stacksz inner
    let (m, st) ← rotate m st (stacksz + 1)
    let m := setColor m sib .red
    let m := setColor m inner .black
    let sib ← st.top (stacksz + 1) 2
    let outer ← getChild m sib nSide.other
    let st ← st.set (stacksz - 1) n
    some (m, st, sib, outer)

/-- The removed node itself stands for the empty subtree, until it is taken out of its parent. -/
def dropNull (n nullNode parent : RbAddr) (nSide : Side) : RbMem :=
  if n = nullNode then setChild m parent nSide none else m

/-- Last lines of `fix_missing_black`: the sibling changes places with the parent. -/
def liftSibling (st : Stack) (stacksz : ℕ) (nullNode n parent : RbAddr) (nSide : Side)
    (sib outer : RbAddr) : Option (RbMem × Stack) := do
  let m := setColor m sib (getColor m parent)
  let m := setColor m parent .black
  let m := setColor m outer .black
  let st ← st.set (stacksz - 1) sib
  let (m, st) ← rotate m st stacksz
  some (dropNull m n nullNode parent nSide, st)

/-- Rest of a round of `fix_missing_black`, below a black sibling; the flag says whether to go
on. -/
def settleSibling (st : Stack) (stacksz : ℕ) (nullNode n parent : RbAddr)
    (nSide : Side) (sib : RbAddr) : Option (Bool × RbMem × Stack) :=
  if !redNode m (getChild m sib .left) && !redNode m (getChild m sib .right) then
    let m := dropNull m n nullNode parent nSide
    let m := setColor m sib .red
    if isBlack m parent then
      some (true, m, st)
    else
      some (false, setColor m parent .black, st)
  else do
    let (m, st, sib, outer) ← turnSibling m st stacksz n nSide sib
    let (m, st) ← liftSibling m st stacksz nullNode n parent nSide sib outer
    some (false, m, st)

def fixMissingBlack (nullNode : RbAddr) : ℕ → RbMem → Stack → ℕ → Option (RbMem × Stack)
  | 0, _, _, _ => none
  | fuel + 1, m, st, stacksz =>
    if stacksz ≤ 1 then
      some (m, st)
    else do
      let n ← st.top stacksz 1
      let parent ← st.top stacksz 2
      let nSide := getSide m parent n
      let sib ← getChild m parent nSide.other
      let (m, st, stacksz, parent, sib) ← raiseSibling m st stacksz n parent nSide sib
      let (more, m, st) ← settleSibling m st stacksz nullNode n parent nSide sib
      if more then fixMissingBlack nullNode fuel m st (stacksz - 1) else some (m, st)

/-- Loop that goes to the biggest node below `node2`. -/
def lastLoop (m : RbMem) : ℕ → Stack → ℕ → RbAddr → Option (Stack × ℕ × RbAddr)
  | 0, _, _, _ => none
  | fuel + 1, st, sz, node2 =>
    match getChild m node2 .right with
    | none => some (st, sz, node2)
    | some ch => do
      let st ← st.set sz ch
      lastLoop m fuel st (sz + 1) ch

/-- New places of `node` and the biggest node below its left child, `node2`, in memory. -/
def swapNodes (hiparent : Option RbAddr) (loparent node node2 : RbAddr) : RbMem :=
  let m := match hiparent with
    | some hiparent => setChild m hiparent (getSide m hiparent node) (some node2)
    | none => m
  let m :=
    if loparent = node then
      let m := setChild m node .left (getChild m node2 .left)
      setChild m node2 .left (some node)
    else
      let m := setChild m loparent (getSide m loparent node2) (some node)
      let tmp := getChild m node .left
      let m := setChild m node .left (getChild m node2 .left)
      setChild m node2 .left tmp
  let m := setChild m node2 .right (getChild m node .right)
  let m := setChild m node .right none
  let ctmp := getColor m node
  let m := setColor m node (getColor m node2)
  setColor m node2 ctmp

/-- A node with two children changes places with the biggest node below its left child. -/
def swapWithLast (st : Stack) (stacksz : ℕ) (node : RbAddr) : Option (RbMem × Stack × ℕ) := do
  let node2 ← getChild m node .left
  let hiparent := if stacksz > 1 then st.top stacksz 2 else none
  let st ← st.set stacksz node2
  let (st, sz, node2) ← lastLoop m st.size st (stacksz + 1) node2
  let loparent ← st.top sz 2
  let m := swapNodes m hiparent loparent node node2
  let tmp ← st.top stacksz 1
  let last ← st.top sz 1
  let st ← st.set (stacksz - 1) last
  let st ← st.set (sz - 1) tmp
  some (m, st, sz)

/-- The left child, or the right one if there is none. -/
def firstChild (node : RbAddr) : Option RbAddr :=
  match getChild m node .left with
  | none => getChild m node .right
  | some child => some child

/-- The node, which has at most one child, is taken out. -/
def removeNode (s : State) (m : RbMem) (st : Stack) (stacksz : ℕ) (node : RbAddr) : Option State :=
  if stacksz < 2 then
    match firstChild m node with
    | some child => some ⟨setColor m child .black, some child, s.maxDepth⟩
    | none => some ⟨m, none, 0⟩
  else do
    let parent ← st.top stacksz 2
    let (m, st) ← match firstChild m node with
      | none =>
        if isBlack m node then
          fixMissingBlack node stacksz m st stacksz
        else
          some (setChild m parent (getSide m parent node) none, st)
      | some child =>
        let m := setChild m parent (getSide m parent node) (some child)
        if isRed m node || isRed m child then
          some (setColor m child .black, st)
        else
          some (m, st)
    some ⟨m, st.slot 0, s.maxDepth⟩

section operations

variable (lessthan_fn : RbAddr → RbAddr → Bool)

def rbRemove (s : State) (node : RbAddr) : Option State := do
  let root ← s.root
  let (st, stacksz) ← findAndStack lessthan_fn s.mem root node (.new (s.maxDepth + 1))
  let top ← st.top stacksz 1
  if node ≠ top then
    some s
  else
    let (m, st, stacksz) ←
      if getChild s.mem node .left ≠ none ∧ getChild s.mem node .right ≠ none then
        swapWithLast s.mem st stacksz node
      else
        some (s.mem, st, stacksz)
    removeNode s m st stacksz node

/-! ### Queries -/

def rbContainsLoop (m : RbMem) (node : RbAddr) : ℕ → Option RbAddr → Option Bool
  | 0, _ => none
  | _ + 1, none => some false
  | fuel + 1, some n =>
    if n = node then some true
    else rbContainsLoop m node fuel (getChild m n (if lessthan_fn n node then .right else .left))

def rbContains (fuel : ℕ) (s : State) (node : RbAddr) : Option Bool :=
  rbContainsLoop lessthan_fn s.mem node fuel s.root

end operations

def getMinmaxLoop (m : RbMem) (side : Side) : ℕ → RbAddr → Option RbAddr
  | 0, _ => none
  | fuel + 1, n =>
    match getChild m n side with
    | none => some n
    | some ch => getMinmaxLoop m side fuel ch

/-- `z_rb_get_minmax`: `rb_get_min` on the left side, `rb_get_max` on the right one. -/
def getMinmax (fuel : ℕ) (s : State) (side : Side) : Option (Option RbAddr) :=
  match s.root with
  | none => some none
  | some root => (getMinmaxLoop s.mem side fuel root).map some

/-! ### Iteration -/

/-- `struct _rb_foreach`; `size` is `top + 1`. -/
structure Foreach where
  stack : Stack
  isLeft : ℕ → Bool
  size : ℕ

/-- `_RB_FOREACH_INIT`. -/
def Foreach.init (s : State) : Foreach := ⟨.new s.maxDepth, fun _ => false, 0⟩

def Foreach.push (f : Foreach) (n : RbAddr) (left : Bool) : Option Foreach := do
  let stack ← f.stack.set f.size n
  some ⟨stack, Function.update f.isLeft f.size left, f.size + 1⟩

def leftLoop (m : RbMem) : ℕ → Option RbAddr → Foreach → Option Foreach
  | _, none, f => some f
  | 0, some _, _ => none
  | fuel + 1, some n, f => do
    let f ← f.push n true
    leftLoop m fuel (getChild m n .left) f

/-- Node in `stack[top]`. -/
def Foreach.node (f : Foreach) : Option (Option RbAddr × Foreach) := do
  let n ← f.stack.top f.size 1
  some (some n, f)

def stackLeftLimb (n : RbAddr) (f : Foreach) : Option (Option RbAddr × Foreach) := do
  let f ← f.push n false
  let f ← leftLoop m f.stack.size (getChild m n .left) f
  f.node

def upLoop (isLeft : ℕ → Bool) : ℕ → ℕ
  | 0 => 0
  | 1 => 1
  | n + 2 => if isLeft (n + 1) then n + 2 else upLoop isLeft (n + 1)

/-- `z_rb_foreach_next`. -/
def foreachNext (s : State) (f : Foreach) : Option (Option RbAddr × Foreach) :=
  match s.root with
  | none => some (none, f)
  | some root =>
    if f.size = 0 then
      stackLeftLimb s.mem root f
    else do
      let top ← f.stack.top f.size 1
      match getChild s.mem top .right with
      | some n => stackLeftLimb s.mem n f
      | none =>
        if f.isLeft (f.size - 1) then
          Foreach.node { f with size := f.size - 1 }
        else
          let f := { f with size := upLoop f.isLeft f.size - 1 }
          if 0 < f.size then f.node else some (none, f)

def foreachRun (s : State) (f : Foreach) : ℕ → Option Foreach
  | 0 => some f
  | n + 1 => do
    let (_, f) ← foreachNext s f
    foreachRun s f n

/-! ### Runs -/

/-- A call of the interface that changes the tree. -/
inductive Op
  | insert (node : RbAddr)
  | remove (node : RbAddr)
deriving DecidableEq

section runs

variable (lessthan_fn : RbAddr → RbAddr → Bool)

def step (s : State) : Op → Option State
  | .insert node => rbInsert lessthan_fn s node
  | .remove node => rbRemove lessthan_fn s node

def run (s : State) : List Op → Option State
  | [] => some s
  | op :: ops => (step lessthan_fn s op).bind fun s => run s ops

end runs

/-- The empty tree; the nodes not in a tree have any contents. -/
def initState : State := ⟨m, none, 0⟩

end TlZephyr.Rb
