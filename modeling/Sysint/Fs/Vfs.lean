import Mathlib.Data.List.Basic
import Sysint.Lib.Machine

/-! The name space of `kernel/fs/vfs.cpp` and `kernel/include/fs.h`: nodes with
their children and bind points. A string is the list of its characters before the
NUL. Nodes are not destroyed, so `parent.lock()` is null only where no parent was
set. -/
namespace Sysint.Fs.Vfs
open Machine List

def maxNameLen : Nat := 256

/-- `strcmp`; where a list ends the source reads the NUL. -/
def strcmp : List Char → List Char → Int
  | [], [] => 0
  | [], d :: _ => 0 - d.toNat
  | c :: _, [] => c.toNat - 0
  | c :: s, d :: s' => if c = d then strcmp s s' else c.toNat - d.toNat

/-- A node. `ind` is whether its inode is a directory, or `none` if it has no
inode; nodes and superblocks are given by their addresses. -/
structure Node where
  ind : Option Bool
  parent : Option Nat
  name : List Char
  bindPoints : List Nat
  children : List Nat

/-- The nodes, and the root of each superblock. The bind points form no cycle. -/
structure NameSpace where
  node : Nat → Node
  root : Nat → Nat
  level : Nat → Nat
  acyclic : ∀ a, ∀ sb ∈ (node a).bindPoints, level (root sb) < level a

namespace NameSpace

/-- `node::get`, and `superblock::get` at the bind points. -/
def get (fs : NameSpace) (a : Nat) (name : List Char) : Option Nat :=
  if (fs.node a).ind = some true then
    -- bind points first, in order
    match (fs.node a).bindPoints.attach.findSome? fun sb => fs.get (fs.root sb.1) name with
    | some nd => some nd
    | none => (fs.node a).children.find? fun nd =>
        (fs.node nd).ind.isSome && strcmp (fs.node nd).name name == 0
  else none
termination_by fs.level a
decreasing_by exact fs.acyclic a sb.1 sb.2

theorem get_eq (fs : NameSpace) (a : Nat) (name : List Char) : fs.get a name =
      if (fs.node a).ind = some true then
        ((fs.node a).bindPoints.findSome? fun sb => fs.get (fs.root sb) name).or
          ((fs.node a).children.find? fun nd =>
            (fs.node nd).ind.isSome && strcmp (fs.node nd).name name == 0)
      else none := by
  have hattach : ((fs.node a).bindPoints.attach.findSome? fun sb => fs.get (fs.root sb.1) name) =
      (fs.node a).bindPoints.findSome? fun sb => fs.get (fs.root sb) name := by
    have h := List.findSome?_map (f := Subtype.val) (p := fun sb => fs.get (fs.root sb) name)
      (l := (fs.node a).bindPoints.attach)
    rw [attach_map_subtype_val] at h
    exact h.symm
  rw [get, hattach]
  cases (fs.node a).bindPoints.findSome? fun sb => fs.get (fs.root sb) name <;> rfl

/-- The inner loop of `walk`, with room for `n` characters: what it copies and the
rest of the path. -/
def takeName : Nat → List Char → List Char × List Char
  | 0, path => ([], path)
  | _ + 1, [] => ([], [])
  | n + 1, c :: path =>
    if c = '/' then ([], c :: path) else (c :: (takeName n path).1, (takeName n path).2)

theorem takeName_append (n : Nat) (path : List Char) :
    (takeName n path).1 ++ (takeName n path).2 = path := by
  induction n generalizing path with
  | zero => rfl
  | succ n ih =>
    cases path with
    | nil => rfl
    | cons c path =>
      rw [takeName]
      split_ifs
      · rfl
      · rw [cons_append, ih]

/-- The path after a leading slash. -/
def skipSlash (path : List Char) : List Char :=
  if path.head? = some '/' then path.tail else path

theorem skipSlash_slash (path : List Char) : skipSlash ('/' :: path) = path := rfl

theorem skipSlash_of_ne {c : Char} (hc : c ≠ '/') (path : List Char) :
    skipSlash (c :: path) = c :: path := by simp [skipSlash, hc]

/-- A turn of the outer loop takes at least one character. -/
theorem takeName_lt {path : List Char} (h : path ≠ []) :
    (takeName maxNameLen (skipSlash path)).2.length < path.length := by
  have hlen (n : Nat) (p : List Char) : (takeName n p).2.length ≤ p.length := by
    have h := congrArg List.length (takeName_append n p)
    rw [length_append] at h
    omega
  cases path with
  | nil => exact absurd rfl h
  | cons c path =>
    by_cases hc : c = '/'
    · rw [hc, skipSlash_slash]
      exact Nat.lt_succ_of_le (hlen _ path)
    · rw [skipSlash_of_ne hc, maxNameLen, takeName, if_neg hc]
      exact Nat.lt_succ_of_le (hlen _ path)

/-- The outer loop of `walk`. It returns as soon as there is no node, so `nd` is
one. -/
def walkLoop (fs : NameSpace) (nd : Nat) (path : List Char) : Option Nat :=
  if h : path = [] then some nd
  else
    let r := takeName maxNameLen (skipSlash path)
    have : r.2.length < path.length := takeName_lt h
    if maxNameLen ≤ r.1.length ∧ r.2 ≠ [] ∧ r.2.head? ≠ some '/' then none
    else if r.1 = [] ∨ strcmp r.1 ['.'] = 0 then fs.walkLoop nd r.2
    else if strcmp r.1 ['.', '.'] = 0 then (fs.node nd).parent.bind fun nd => fs.walkLoop nd r.2
    else (fs.get nd r.1).bind fun nd => fs.walkLoop nd r.2
termination_by path.length

/-- `node::walk`. -/
def walk (fs : NameSpace) (a : Nat) : Option (List Char) → Option Nat
  | none => none
  | some path => fs.walkLoop a path

/-! ## Components -/

/-- What one component does to the node reached so far. -/
def visit (fs : NameSpace) (nd : Nat) (comp : List Char) : Option Nat :=
  if maxNameLen < comp.length then none
  else if comp = [] ∨ comp = ['.'] then some nd
  else if comp = ['.', '.'] then (fs.node nd).parent
  else fs.get nd comp

/-- The left fold over the components of a path; null stays null. -/
def follow (fs : NameSpace) (nd : Nat) (path : List Char) : Option Nat :=
  (path.splitOn '/').foldlM fs.visit nd

end NameSpace

theorem strcmp_eq_zero {s s' : List Char} (hs : '\x00' ∉ s) (hs' : '\x00' ∉ s') :
    strcmp s s' = 0 ↔ s = s' := by
  have hnul {c : Char} (h : '\x00' ≠ c) : c.toNat ≠ 0 := fun h0 => h (Char.toNat_inj.mp h0).symm
  induction s generalizing s' with
  | nil =>
    cases s' with
    | nil => simp [strcmp]
    | cons d s' =>
      have hd := hnul (ne_of_not_mem_cons hs')
      simp [strcmp, hd]
  | cons c s ih =>
    have hc := hnul (ne_of_not_mem_cons hs)
    cases s' with
    | nil => simp [strcmp, hc]
    | cons d s' =>
      rw [strcmp]
      split_ifs with hcd
      · have hrest := ih (not_mem_of_not_mem_cons hs) (not_mem_of_not_mem_cons hs')
        simp [hrest, hcd]
      · have hne : c.toNat ≠ d.toNat := fun h => hcd (Char.toNat_inj.mp h)
        simp only [List.cons.injEq, hcd, false_and, iff_false]
        omega

namespace NameSpace

variable {fs : NameSpace} {nd : Nat} {path comp tail : List Char}

/-- The inner loop stops at the end of the component or when its buffer is full. -/
theorem takeName_component (n : Nat) (hcomp : '/' ∉ comp)
    (htail : tail = [] ∨ tail.head? = some '/') :
    takeName n (comp ++ tail) = (comp.take n, comp.drop n ++ tail) := by
  induction n generalizing comp with
  | zero => rfl
  | succ n ih =>
    cases comp with
    | nil =>
      cases tail with
      | nil => rfl
      | cons c tail =>
        obtain rfl : c = '/' := by simpa using htail
        rfl
    | cons c comp =>
      have hc : c ≠ '/' := (ne_of_not_mem_cons hcomp).symm
      rw [cons_append, takeName, if_neg hc, ih (not_mem_of_not_mem_cons hcomp)]
      rfl

theorem visit_nil : fs.visit nd [] = some nd := by simp [visit]

/-- The slash that a turn skips ends an empty component. -/
theorem follow_slash : fs.follow nd ('/' :: path) = fs.follow nd path := by
  have h := splitOn_append_cons_self_of_not_mem (not_mem_nil (a := '/')) path
  rw [nil_append] at h
  rw [follow, h, foldlM_cons, visit_nil]
  rfl

/-- A component is visited, then the rest of the path. -/
theorem follow_append (hcomp : '/' ∉ comp) (htail : tail = [] ∨ tail.head? = some '/') :
    fs.follow nd (comp ++ tail) = (fs.visit nd comp).bind fun nd => fs.follow nd tail := by
  cases tail with
  | nil =>
    rw [append_nil, follow, splitOn_eq_singleton hcomp, foldlM_cons]
    simp [follow, visit_nil]
  | cons c tail =>
    obtain rfl : c = '/' := by simpa using htail
    rw [follow, splitOn_append_cons_self_of_not_mem hcomp, foldlM_cons]
    exact congrArg _ (funext fun nd => follow_slash.symm)

/-- The first component of a path. -/
theorem exists_component (path : List Char) :
    ∃ comp tail, path = comp ++ tail ∧ '/' ∉ comp ∧ (tail = [] ∨ tail.head? = some '/') := by
  induction path with
  | nil => exact ⟨[], [], rfl, not_mem_nil, .inl rfl⟩
  | cons c path ih =>
    by_cases hc : c = '/'
    · exact ⟨[], c :: path, rfl, not_mem_nil, .inr (congrArg some hc)⟩
    · obtain ⟨comp, tail, rfl, hcomp, htail⟩ := ih
      refine ⟨c :: comp, tail, rfl, ?_, htail⟩
      rw [mem_cons, not_or]
      exact ⟨fun h => hc h.symm, hcomp⟩

theorem follow_skipSlash : fs.follow nd (skipSlash path) = fs.follow nd path := by
  cases path with
  | nil => rfl
  | cons c path =>
    by_cases hc : c = '/'
    · rw [hc, skipSlash_slash, follow_slash]
    · rw [skipSlash_of_ne hc]

/-- A turn of the outer loop. -/
theorem walkLoop_turn {buf rest : List Char} (h : path ≠ [])
    (htake : takeName maxNameLen (skipSlash path) = (buf, rest)) : fs.walkLoop nd path =
      if maxNameLen ≤ buf.length ∧ rest ≠ [] ∧ rest.head? ≠ some '/' then none
      else if buf = [] ∨ strcmp buf ['.'] = 0 then fs.walkLoop nd rest
      else if strcmp buf ['.', '.'] = 0 then
        (fs.node nd).parent.bind fun nd => fs.walkLoop nd rest
      else (fs.get nd buf).bind fun nd => fs.walkLoop nd rest := by
  rw [walkLoop, dif_neg h]
  simp [htake]

/-- A turn visits one component. -/
theorem walkLoop_component (h : path ≠ []) (hpath : skipSlash path = comp ++ tail)
    (hnul : '\x00' ∉ comp) (hcomp : '/' ∉ comp) (htail : tail = [] ∨ tail.head? = some '/') :
    fs.walkLoop nd path = (fs.visit nd comp).bind fun nd => fs.walkLoop nd tail := by
  have htake := takeName_component maxNameLen hcomp htail
  rw [walkLoop_turn h (by rw [hpath, htake]), visit]
  by_cases hlong : maxNameLen < comp.length
  · -- the buffer is full in the middle of the component
    have hlen : maxNameLen ≤ (comp.take maxNameLen).length := by
      rw [length_take]
      omega
    have hrest : comp.drop maxNameLen ≠ [] := by
      intro h0
      have := congrArg List.length h0
      rw [length_drop, length_nil] at this
      omega
    have hhead : (comp.drop maxNameLen ++ tail).head? ≠ some '/' := by
      rw [List.head?_append_of_ne_nil _ hrest]
      intro h0
      exact hcomp (mem_of_mem_drop (mem_of_mem_head? h0))
    rw [if_pos hlong, if_pos ⟨hlen, by simp [hrest], hhead⟩]
    rfl
  · rw [if_neg hlong, take_of_length_le (by omega), drop_eq_nil_of_le (by omega),
      nil_append, if_neg fun h0 => htail.elim h0.2.1 h0.2.2]
    simp only [strcmp_eq_zero hnul (show '\x00' ∉ ['.'] by decide),
      strcmp_eq_zero hnul (show '\x00' ∉ ['.', '.'] by decide)]
    split_ifs <;> rfl

/-- The loop is the fold over the components. -/
theorem walkLoop_eq_follow (hp : '\x00' ∉ path) : fs.walkLoop nd path = fs.follow nd path := by
  induction hn : path.length using Nat.strongRecOn generalizing nd path with
  | ind n ih =>
    subst hn
    by_cases hnil : path = []
    · rw [walkLoop, dif_pos hnil, hnil, follow, splitOn_nil, foldlM_cons, visit_nil]
      rfl
    obtain ⟨comp, tail, hpath, hcomp, htail⟩ := exists_component (skipSlash path)
    have hsub : '\x00' ∉ comp ++ tail := by
      rw [← hpath, skipSlash]
      split_ifs
      · exact fun h => hp (mem_of_mem_tail h)
      · exact hp
    rw [mem_append, not_or] at hsub
    have hlt : tail.length < path.length := by
      have h := takeName_lt hnil
      rw [hpath, takeName_component _ hcomp htail, length_append] at h
      omega
    rw [walkLoop_component hnil hpath hsub.1 hcomp htail, ← follow_skipSlash, hpath,
      follow_append hcomp htail]
    exact congrArg _ (funext fun nd => ih _ hlt hsub.2 rfl)

theorem follow_concat (p q : List Char) :
    fs.follow nd (p ++ '/' :: q) = (fs.follow nd p).bind fun nd => fs.follow nd q := by
  rw [follow, splitOn_append_cons_self, foldlM_append]
  rfl

theorem walk_eq_follow (hp : '\x00' ∉ path) : fs.walk nd (some path) = fs.follow nd path :=
  walkLoop_eq_follow hp

theorem walk_concat {p q : List Char} (hp : '\x00' ∉ p) (hq : '\x00' ∉ q) :
    fs.walk nd (some (p ++ '/' :: q)) =
      (fs.walk nd (some p)).bind fun nd => fs.walk nd (some q) := by
  have hpq : '\x00' ∉ p ++ '/' :: q := by simp [hp, hq]
  rw [walk_eq_follow hpq, walk_eq_follow hp, follow_concat]
  exact congrArg _ (funext fun nd => (walk_eq_follow hq).symm)

end NameSpace

/-- Walking a path is the left fold over its components, and walking `p/q` is
walking `p` and then `q`. -/
theorem walk_is_fold (fs : NameSpace) (nd : Nat) (path : List Char) (hp : '\x00' ∉ path) :
    fs.walk nd (some path) = (path.splitOn '/').foldlM fs.visit nd ∧
      ∀ q, '\x00' ∉ q → fs.walk nd (some (path ++ '/' :: q)) =
        (fs.walk nd (some path)).bind fun nd => fs.walk nd (some q) :=
  ⟨NameSpace.walk_eq_follow hp, fun _ hq => NameSpace.walk_concat hp hq⟩

/-! ## Building a name space -/

namespace NameSpace

def addChild (fs : NameSpace) (d c : Nat) : NameSpace where
  node a := { fs.node a with
    parent := if a = c then some d else (fs.node a).parent
    children := if a = d then (fs.node a).children ++ [c] else (fs.node a).children }
  root := fs.root
  level := fs.level
  acyclic := fs.acyclic

def bind (fs : NameSpace) (d sb : Nat) (h : fs.level (fs.root sb) < fs.level d) : NameSpace where
  node a := { fs.node a with
    bindPoints := if a = d then (fs.node a).bindPoints ++ [sb] else (fs.node a).bindPoints }
  root := fs.root
  level := fs.level
  acyclic := by
    intro a sb' hsb
    split_ifs at hsb with ha
    · obtain hsb | hsb := mem_append.mp hsb
      · exact fs.acyclic a sb' hsb
      · rw [mem_singleton.mp hsb, ha]
        exact h
    · exact fs.acyclic a sb' hsb

end NameSpace

inductive Op where
  | addChild (d c : Nat)
  | bind (d sb : Nat)

/-- A call that builds the name space. The levels are fixed for a run; that a
`bind` respects them says that the bind points form no cycle. -/
def step (fs : NameSpace) : Op → Option NameSpace
  | .addChild d c => some (fs.addChild d c)
  | .bind d sb =>
    if h : fs.level (fs.root sb) < fs.level d then some (fs.bind d sb h) else none

/-- No node is linked to another. -/
def Empty (fs : NameSpace) : Prop :=
  ∀ a, (fs.node a).parent = none ∧ (fs.node a).children = [] ∧ (fs.node a).bindPoints = []

/-- A child has no parent yet, or it is added once more to the same one. -/
def AddOk (fs : NameSpace) : Op → Prop
  | .addChild d c => (fs.node c).parent = none ∨ (fs.node c).parent = some d
  | .bind _ _ => True

/-- The parent of every child is the node that lists it. -/
def ParentsOk (fs : NameSpace) : Prop :=
  ∀ d, ∀ c ∈ (fs.node d).children, (fs.node c).parent = some d

variable {fs : NameSpace} {x : List Char}

theorem ParentsOk.step {fs' : NameSpace} {a : Op} (hI : ParentsOk fs) (hok : AddOk fs a)
    (h : step fs a = some fs') : ParentsOk fs' := by
  cases a with
  | addChild d c =>
    cases h
    intro e b hb
    simp only [NameSpace.addChild] at hb ⊢
    by_cases hbc : b = c
    · rw [if_pos hbc]
      split_ifs at hb with he
      · rw [he]
      · -- a child of another node would have that node as its parent
        have hp := hI e b hb
        rw [hbc] at hp
        rw [AddOk, hp] at hok
        exact congrArg some (by simpa using hok : e = d).symm
    · rw [if_neg hbc]
      split_ifs at hb with he
      · obtain hb | hb := mem_append.mp hb
        · exact hI e b hb
        · exact absurd (mem_singleton.mp hb) hbc
      · exact hI e b hb
  | bind d sb =>
    simp only [Vfs.step, Option.dite_none_right_eq_some, Option.some.injEq] at h
    obtain ⟨-, rfl⟩ := h
    exact hI

theorem parents_ok (h : Reach Empty step AddOk fs) : ParentsOk fs := by
  refine h.invariant (fun fs hempty d c hc => ?_) fun fs a fs' hI hok hs => hI.step hok hs
  rw [(hempty d).2.1] at hc
  cases hc

/-- A name of a node: one component, and not one of the two special ones. -/
structure IsName (x : List Char) : Prop where
  ne_nil : x ≠ []
  slash : '/' ∉ x
  nul : '\x00' ∉ x
  dot : x ≠ ['.']
  dotdot : x ≠ ['.', '.']

namespace NameSpace

/-- Walking one component. -/
theorem walk_component {d : Nat} (hslash : '/' ∉ x)
    (hnul : '\x00' ∉ x) : fs.walk d (some x) = fs.visit d x := by
  rw [walk_eq_follow hnul, follow, splitOn_eq_singleton hslash, foldlM_cons]
  simp

end NameSpace

theorem IsName.visit {d nd : Nat} (hx : IsName x)
    (h : fs.visit d x = some nd) : fs.get d x = some nd := by
  simp only [NameSpace.visit, hx.ne_nil, hx.dot, hx.dotdot, or_self, if_false] at h
  split_ifs at h
  exact h

/-- What no bind point of `d` has is a child of `d`. -/
theorem mem_children_of_get {d nd : Nat}
    (hbind : ∀ sb ∈ (fs.node d).bindPoints, fs.get (fs.root sb) x = none)
    (h : fs.get d x = some nd) : nd ∈ (fs.node d).children := by
  rw [NameSpace.get_eq, List.findSome?_eq_none_iff.mpr hbind, Option.none_or] at h
  split_ifs at h
  exact mem_of_find?_eq_some h

/-- In a name space in which every child was added to one parent only, `..` leads
back from a name that no bind point of `d` has. -/
theorem dotdot_undoes {fs : NameSpace} (h : Reach Empty step AddOk fs) {d nd : Nat}
    {x : List Char} (hx : IsName x)
    (hbind : ∀ sb ∈ (fs.node d).bindPoints, fs.get (fs.root sb) x = none)
    (hwalk : fs.walk d (some x) = some nd) : fs.walk d (some (x ++ ['/', '.', '.'])) = some d := by
  have hget := hx.visit ((NameSpace.walk_component hx.slash hx.nul).symm.trans hwalk)
  have hparent := parents_ok h d nd (mem_children_of_get hbind hget)
  rw [NameSpace.walk_concat hx.nul (by decide), hwalk, Option.bind_some,
    NameSpace.walk_component (by decide) (by decide)]
  simp [NameSpace.visit, maxNameLen, hparent]

/-! The nodes of `vfs.cpp` and `devfs.cpp`: the root, `/dev`, and the device file
system with its terminal. -/

def devNodes : NameSpace where
  node
    | 0 => ⟨some true, none, ['r', 'o', 'o', 't'], [], []⟩
    | 1 => ⟨some true, none, ['d', 'e', 'v'], [], []⟩
    | 2 => ⟨some true, none, ['d', 'e', 'v'], [], []⟩
    | 3 => ⟨some false, none, ['t', 't', 'y'], [], []⟩
    | _ => ⟨none, none, [], [], []⟩
  root _ := 2
  level a := if a = 1 then 1 else 0
  acyclic := by
    intro a sb hsb
    split at hsb <;> cases hsb

theorem devNodes_empty : Empty devNodes := by
  intro a
  simp only [devNodes]
  split <;> exact ⟨rfl, rfl, rfl⟩

/-- The name space after both `init`. -/
def withDevfs : NameSpace :=
  ((devNodes.addChild 0 1).addChild 2 3).bind 1 0 (by decide)

theorem withDevfs_reach : Reach Empty step AddOk withDevfs := by
  have h0 : Reach Empty step AddOk devNodes := .init devNodes_empty
  have h1 : Reach Empty step AddOk (devNodes.addChild 0 1) :=
    h0.step (a := .addChild 0 1) (.inl rfl) rfl
  have h2 : Reach Empty step AddOk ((devNodes.addChild 0 1).addChild 2 3) :=
    h1.step (a := .addChild 2 3) (.inl rfl) rfl
  exact h2.step (a := .bind 1 0) trivial rfl

theorem withDevfs_dev : withDevfs.walk 0 (some ['d', 'e', 'v']) = some 1 := by
  rw [NameSpace.walk_component (by decide) (by decide), NameSpace.visit, NameSpace.get_eq]
  rfl

theorem withDevfs_tty : withDevfs.walk 1 (some ['t', 't', 'y']) = some 3 := by
  have hget : withDevfs.get 2 ['t', 't', 'y'] = some 3 := by
    rw [NameSpace.get_eq]
    rfl
  have hbind : (withDevfs.node 1).bindPoints = [0] := rfl
  rw [NameSpace.walk_component (by decide) (by decide), NameSpace.visit, NameSpace.get_eq, hbind,
    List.findSome?_cons, show withDevfs.root 0 = 2 from rfl, hget]
  rfl

theorem dotdot_from_dev : withDevfs.walk 0 (some ['d', 'e', 'v', '/', '.', '.']) = some 0 :=
  dotdot_undoes withDevfs_reach ⟨by decide, by decide, by decide, by decide, by decide⟩
    (by intro sb hsb; cases hsb) withDevfs_dev

/-- `/dev/tty/..` is the root of the device file system and not `/dev`. -/
theorem dotdot_stays_in_devfs : Reach Empty step AddOk withDevfs ∧ IsName ['t', 't', 'y'] ∧
      withDevfs.walk 0 (some ['d', 'e', 'v']) = some 1 ∧
      withDevfs.walk 1 (some ['t', 't', 'y']) = some 3 ∧
      withDevfs.walk 1 (some ['t', 't', 'y', '/', '.', '.']) = some 2 := by
  refine ⟨withDevfs_reach, ⟨by decide, by decide, by decide, by decide, by decide⟩, withDevfs_dev,
    withDevfs_tty, ?_⟩
  have hup : withDevfs.walk 3 (some ['.', '.']) = some 2 := by
    rw [NameSpace.walk_component (by decide) (by decide)]
    rfl
  have h : withDevfs.walk 1 (some (['t', 't', 'y'] ++ '/' :: ['.', '.'])) = _ :=
    NameSpace.walk_concat (by decide) (by decide)
  rw [withDevfs_tty, Option.bind_some, hup] at h
  exact h

theorem walk_is_fold_dev : withDevfs.walk 0 (some ['/', 'd', 'e', 'v', '/']) =
        (['/', 'd', 'e', 'v', '/'].splitOn '/').foldlM withDevfs.visit 0 ∧
      withDevfs.walk 0 (some (['/', 'd', 'e', 'v', '/'] ++ '/' :: ['.'])) =
        (withDevfs.walk 0 (some ['/', 'd', 'e', 'v', '/'])).bind fun nd =>
          withDevfs.walk nd (some ['.']) := by
  obtain ⟨hfold, hcat⟩ := walk_is_fold withDevfs 0 ['/', 'd', 'e', 'v', '/'] (by decide)
  exact ⟨hfold, hcat ['.'] (by decide)⟩

end Sysint.Fs.Vfs
