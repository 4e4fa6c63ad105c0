import Sysint.Lib.RedBlack

/-! The red-black tree of `include/lib/rbtree.h`, with its nodes in a memory of
nodes. A loop takes a bound on its steps and gives `none` if the bound is too
small; the bounds used are the number of nodes ever made. -/
namespace Sysint.Rbtree
open RedBlack (Side)

/-- `operator<` and `operator==` of the key type. -/
structure Order (K : Type) where
  lt : K → K → Bool
  eq : K → K → Bool

structure Node (K : Type) where
  key : K
  red : Bool
  l : Nat
  r : Nat
  p : Nat

/-- The null pointer, and the address of the tree's sentinel `nil`. -/
def null : Nat := 0

def nil : Nat := 1

variable {K : Type}

def Node.child (n : Node K) : Side → Nat
  | .l => n.l
  | .r => n.r

def Node.setChild (n : Node K) (s : Side) (a : Nat) : Node K :=
  match s with
  | .l => { n with l := a }
  | .r => { n with r := a }

end Sysint.Rbtree

namespace Sysint

structure Rbtree (K : Type) where
  node : Nat → Rbtree.Node K
  root : Nat
  sz : Nat
  /-- The address the next `new` returns. -/
  fresh : Nat

end Sysint

namespace Sysint.Rbtree
open RedBlack (Side)

variable {K : Type}

def modify (t : Rbtree K) (a : Nat) (f : Node K → Node K) : Rbtree K :=
  { t with node := Function.update t.node a (f (t.node a)) }

def setChild (t : Rbtree K) (a : Nat) (s : Side) (b : Nat) : Rbtree K :=
  t.modify a fun n => n.setChild s b

def setP (t : Rbtree K) (a b : Nat) : Rbtree K := t.modify a fun n => { n with p := b }

def setRed (t : Rbtree K) (a : Nat) (red : Bool) : Rbtree K :=
  t.modify a fun n => { n with red := red }

/-- The constructor; `sz` is 0 because trees have static storage. -/
def empty [Inhabited K] : Rbtree K := ⟨fun _ => ⟨default, false, nil, nil, nil⟩, nil, 0, 2⟩

/-- Put `y` where the parent of `x`, or the root, has `x`. -/
def replaceChild (t : Rbtree K) (x y : Nat) : Rbtree K :=
  let p := (t.node x).p
  if p = nil then { t with root := y }
  else if x = (t.node p).l then t.setChild p .l y
  else t.setChild p .r y

/-- The first half of a rotation: what is between `x` and its child `y` goes to
`x`, and `y` gets the parent of `x`. -/
def rotateLow (t : Rbtree K) (a : Side) (x : Nat) : Rbtree K :=
  let y := (t.node x).child a.other
  let t := t.setChild x a.other ((t.node y).child a)
  let t := if (t.node y).child a ≠ nil then t.setP ((t.node y).child a) x else t
  t.setP y (t.node x).p

/-- `_l_rotate` for side `l`, `_r_rotate` for side `r`. -/
def rotate (t : Rbtree K) (a : Side) (x : Nat) : Rbtree K :=
  let y := (t.node x).child a.other
  let t := (t.rotateLow a x).replaceChild x y
  let t := t.setChild y a x
  t.setP x y

/-- The loop of every search: from `x` down to the sentinel or to a key with
`here`, to the left at a key with `left`. Returns the place where it stops and
the node before it. -/
def walk (t : Rbtree K) (here left : K → Bool) : Nat → Nat → Nat → Option (Nat × Nat)
  | 0, _, _ => none
  | fuel + 1, x, y =>
    if x = nil ∨ here (t.node x).key then some (x, y)
    else walk t here left fuel (if left (t.node x).key then (t.node x).l else (t.node x).r) x

/-! ## insert -/

/-- A new node between its parent and its grandparent changes places with its
parent. `b` is the side of the parent below the grandparent. -/
def insertFixInner (t : Rbtree K) (b : Side) (z : Nat) : Rbtree K × Nat :=
  let p := (t.node z).p
  if z = (t.node p).child b.other then (t.rotate b p, p) else (t, z)

/-- The parent takes the place of the grandparent. -/
def insertFixOuter (t : Rbtree K) (b : Side) (z : Nat) : Rbtree K :=
  let t := t.setRed (t.node z).p false
  let t := t.setRed (t.node (t.node z).p).p true
  t.rotate b.other (t.node (t.node z).p).p

/-- The body of the loop of `_insert_fixup`. With a red uncle `y` only colours
change, and `z` stays. -/
def insertFix (t : Rbtree K) (b : Side) (z : Nat) : Rbtree K × Nat :=
  let p := (t.node z).p
  let y := (t.node (t.node p).p).child b.other
  if (t.node y).red then
    let t := t.setRed p false
    let t := t.setRed y false
    (t.setRed (t.node p).p true, z)
  else
    let r := t.insertFixInner b z
    (r.1.insertFixOuter b r.2, r.2)

def insertFixup : Nat → Rbtree K → Nat → Option (Rbtree K)
  | 0, _, _ => none
  | fuel + 1, t, z =>
    let p := (t.node z).p
    if (t.node p).red then
      let r := t.insertFix (if p = (t.node (t.node p).p).l then .l else .r) z
      insertFixup fuel r.1 r.2
    else some (t.setRed t.root false)

/-- Link the new node `z` below `y`. -/
def attach (o : Order K) (t : Rbtree K) (k : K) (z y : Nat) : Rbtree K :=
  let t := t.setP z y
  if y = nil then { t with root := z }
  else if o.lt k (t.node y).key then t.setChild y .l z
  else t.setChild y .r z

/-- `new node(nil, k, RED, nil, nil)`. -/
def alloc (t : Rbtree K) (k : K) : Rbtree K :=
  { t with
    node := Function.update t.node t.fresh ⟨k, true, nil, nil, null⟩
    fresh := t.fresh + 1 }

/-- The way down in `insert`: the node that holds the key, or the sentinel and
the node below which the key belongs. -/
def locate (o : Order K) (t : Rbtree K) (k : K) : Option (Nat × Nat) :=
  t.walk (fun a => o.eq k a) (fun a => o.lt k a) t.fresh t.root nil

/-- `insert` returns the tree and the node of the key. -/
def insert (o : Order K) (t : Rbtree K) (k : K) : Option (Rbtree K × Nat) :=
  let z := t.fresh
  let t := t.alloc k
  (locate o t k).bind fun found =>
    if found.1 ≠ nil then some (t, found.1)
    else (insertFixup t.fresh (attach o t k z found.2) z).map fun t =>
      ({ t with sz := t.sz + 1 }, z)

/-! ## erase -/

def transplant (t : Rbtree K) (u v : Nat) : Rbtree K :=
  (t.replaceChild u v).setP v (t.node u).p

/-- `node::min`. -/
def min (t : Rbtree K) (x : Nat) : Option Nat :=
  (t.walk (fun _ => false) (fun _ => true) t.fresh x nil).map Prod.snd

/-- The first half of a round of `_remove_fixup`: a red sibling becomes the
grandparent. `b` is the side of `x` below its parent. -/
def removeFixRed (t : Rbtree K) (b : Side) (x : Nat) : Rbtree K :=
  let p := (t.node x).p
  let w := (t.node p).child b.other
  if (t.node w).red then ((t.setRed w false).setRed p true).rotate b p else t

/-- A sibling whose far child is black gets a red far child. -/
def removeFixNear (t : Rbtree K) (b : Side) (x : Nat) : Rbtree K :=
  let a := b.other
  let w := (t.node (t.node x).p).child a
  if (t.node ((t.node w).child a)).red then t
  else ((t.setRed ((t.node w).child b) false).setRed w true).rotate a w

/-- The last case: the sibling takes the place of the parent. -/
def removeFixFar (t : Rbtree K) (b : Side) (x : Nat) : Rbtree K :=
  let a := b.other
  let p := (t.node x).p
  let w := (t.node p).child a
  let t := t.setRed w (t.node p).red
  let t := t.setRed p false
  let t := t.setRed ((t.node w).child a) false
  t.rotate b p

/-- The second half of a round, with a black sibling. -/
def removeFixBlack (t : Rbtree K) (b : Side) (x : Nat) : Rbtree K × Nat :=
  let w := (t.node (t.node x).p).child b.other
  if (t.node (t.node w).l).red = false ∧ (t.node (t.node w).r).red = false then
    (t.setRed w true, (t.node x).p)
  else
    let t := (t.removeFixNear b x).removeFixFar b x
    (t, t.root)

/-- The body of the loop of `_remove_fixup`. -/
def removeFix (t : Rbtree K) (b : Side) (x : Nat) : Rbtree K × Nat :=
  (t.removeFixRed b x).removeFixBlack b x

def removeFixup : Nat → Rbtree K → Nat → Option (Rbtree K)
  | 0, _, _ => none
  | fuel + 1, t, x =>
    if x ≠ t.root ∧ (t.node x).red = false then
      let r := t.removeFix (if x = (t.node (t.node x).p).l then .l else .r) x
      removeFixup fuel r.1 r.2
    else some (t.setRed x false)

/-- Take `y`, the successor of `z`, out of its place and give it the right child
of `z`. -/
def takeOut (t : Rbtree K) (z y : Nat) : Rbtree K :=
  let x := (t.node y).r
  if (t.node y).p = z then t.setP x y
  else
    let t := t.transplant y x
    let t := t.setChild y .r (t.node z).r
    t.setP (t.node y).r y

/-- Put `y` in the place of `z`. -/
def replaceBy (t : Rbtree K) (z y : Nat) : Rbtree K :=
  let t := t.transplant z y
  let t := t.setChild y .l (t.node z).l
  let t := t.setP (t.node y).l y
  t.setRed y (t.node z).red

/-- Take `z` out of the tree. Returns the tree, the node `x` that moved up and
the colour that is missing. -/
def splice (t : Rbtree K) (z : Nat) : Option (Rbtree K × Nat × Bool) :=
  let n := t.node z
  if n.l = nil then some (t.transplant z n.r, n.r, n.red)
  else if n.r = nil then some (t.transplant z n.l, n.l, n.red)
  else (t.min n.r).map fun y =>
    ((t.takeOut z y).replaceBy z y, (t.node y).r, (t.node y).red)

def erase (t : Rbtree K) (z : Nat) : Option (Rbtree K) :=
  if z = nil ∨ z = null then some t
  else
    (t.splice z).bind fun r =>
      (if r.2.2 then some r.1 else removeFixup t.fresh r.1 r.2.1).map fun t =>
        let t := (t.setChild z .l null).setChild z .r null
        { t with sz := t.sz - 1 }

/-! ## Searches -/

/-- `find` for any type of search key: `eq` and `lt` compare a key of the tree with
it. -/
def find (t : Rbtree K) (eq lt : K → Bool) : Option Nat :=
  (t.walk eq (fun a => !lt a) t.fresh t.root nil).map Prod.fst

/-- `begin`: the node with the least key, or the sentinel. -/
def begin (t : Rbtree K) : Option Nat := t.min t.root

/-- The loop of `succ`: up from `x` to the first parent `y` that has it on its
left. -/
def climb (t : Rbtree K) : Nat → Nat → Nat → Option Nat
  | 0, _, _ => none
  | fuel + 1, x, y =>
    if y ≠ nil ∧ x = (t.node y).r then climb t fuel y (t.node y).p else some y

/-- `node::succ`. -/
def succ (t : Rbtree K) (x : Nat) : Option Nat :=
  if x = nil then some nil
  else if (t.node x).r ≠ nil then t.min (t.node x).r
  else t.climb t.fresh x (t.node x).p

/-- `node::max`. -/
def max (t : Rbtree K) (x : Nat) : Option Nat :=
  (t.walk (fun _ => false) (fun _ => false) t.fresh x nil).map Prod.snd

/-- The loop of `pred`: up from `x` to the first parent `y` that has it on its
right. -/
def climbLeft (t : Rbtree K) : Nat → Nat → Nat → Option Nat
  | 0, _, _ => none
  | fuel + 1, x, y =>
    if y ≠ nil ∧ x = (t.node y).l then climbLeft t fuel y (t.node y).p else some y

/-- `node::pred`. -/
def pred (t : Rbtree K) (x : Nat) : Option Nat :=
  if x = nil then some nil
  else if (t.node x).l ≠ nil then t.max (t.node x).l
  else t.climbLeft t.fresh x (t.node x).p

/-- The loop of `lower_bound` and `upper_bound`. -/
def bound (o : Order K) (t : Rbtree K) (k : K) : Option (Nat × Nat) :=
  t.walk (fun a => o.eq a k) (fun a => o.lt k a) t.fresh t.root nil

def lowerBound (o : Order K) (t : Rbtree K) (k : K) : Option Nat :=
  (bound o t k).map fun r => if r.1 = nil then r.2 else r.1

def upperBound (o : Order K) (t : Rbtree K) (k : K) : Option Nat :=
  (bound o t k).bind fun r => if r.1 = nil then some r.2 else t.succ r.1

/-- `for (; it != end(); it = next(it))` with the keys it meets. -/
def visit (t : Rbtree K) (next : Nat → Option Nat) : Nat → Nat → Option (List K)
  | 0, _ => none
  | fuel + 1, it =>
    if it = nil then some []
    else (next it).bind fun it' => (visit t next fuel it').map fun ks => (t.node it).key :: ks

end Sysint.Rbtree
