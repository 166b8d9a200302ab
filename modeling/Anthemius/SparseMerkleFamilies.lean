import Mathlib.Data.List.Count
import Mathlib.Logic.Function.Basic
import Mathlib.Logic.Relation
import Mathlib.Tactic.Common

/-!
# Families of in-memory sparse Merkle trees

A tree holds the trees that were spawned from it. Branch trackers lead from a tree to the oldest one
that it descends from. They change only under the family lock, but references go away at any time.
-/
namespace Anthemius.Scratchpad

/-- A tree, with the one that it was spawned from, the handles to it, and whether its children have
been taken out for a drop. -/
structure Inner where
  parent : Option ℕ
  children : List ℕ
  branchTracker : ℕ
  handles : ℕ
  drained : Bool

/-- The links to trees are weak. -/
structure BranchTracker where
  head : Option ℕ
  next : Option ℕ
  parent : Option ℕ

/-- A drop that holds the family lock has a stack of descendants and those that are processed. The
processed ones of a drop are freed after it has released the lock. -/
structure Family where
  size : ℕ
  inner : ℕ → Inner
  numTrackers : ℕ
  tracker : ℕ → BranchTracker
  dropping : Option (List ℕ × List ℕ)
  freeing : List ℕ

namespace Family

/-- One tree with one handle. A tree that is not spawned yet counts as taken apart. -/
def new : Family where
  size := 1
  inner x := if x = 0 then ⟨none, [], 0, 1, false⟩ else ⟨none, [], 0, 0, true⟩
  numTrackers := 1
  tracker _ := ⟨some 0, none, none⟩
  dropping := none
  freeing := []

variable (f : Family)

/-- The references to trees that drops hold. -/
def buffered : List ℕ :=
  (match f.dropping with
    | some (stack, processed) => stack ++ processed
    | none => []) ++ f.freeing

def strongCount (x : ℕ) : ℕ :=
  (f.inner x).handles +
    (match (f.inner x).parent with
      | some p => (f.inner p).children.count x
      | none => 0) +
    f.buffered.count x

def upgrade (link : Option ℕ) : Option ℕ :=
  link.filter fun x => 0 < f.strongCount x

/-! ## Trackers -/

/-- If the head is being dropped, its first child takes its place. -/
def head (t : ℕ) : Option ℕ := (f.upgrade (f.tracker t).head).or (f.upgrade (f.tracker t).next)

def setInner (x : ℕ) (value : Inner) : Family :=
  { f with inner := Function.update f.inner x value }

def setTracker (t : ℕ) (value : BranchTracker) : Family :=
  { f with tracker := Function.update f.tracker t value }

/-- The tree detaches its tracker from the parent branch. -/
def becomeOldest (x : ℕ) : Family :=
  f.setTracker (f.inner x).branchTracker ⟨some x, (f.inner x).children.head?, none⟩

def setHandles (x handles : ℕ) : Family := f.setInner x { f.inner x with handles := handles }

/-- Each child becomes the oldest of its branch. -/
def drainChildrenForDrop (x : ℕ) : Family :=
  (f.inner x).children.foldl becomeOldest
    (f.setInner x { f.inner x with children := [], drained := true })

/-! ## Calls -/

/-- The first child stays in the branch of its parent; every other one starts a branch. -/
def spawn (x : ℕ) : Family :=
  let child := f.size
  let t := (f.inner x).branchTracker
  let g := { f.setInner x { f.inner x with children := (f.inner x).children ++ [child] } with
    size := child + 1 }
  if (f.inner x).children.isEmpty then
    let g := g.setInner child ⟨some x, [], t, 1, false⟩
    if (f.upgrade (f.tracker t).next).isNone then
      g.setTracker t { f.tracker t with next := some child }
    else g
  else
    { g.setInner child ⟨some x, [], f.numTrackers, 1, false⟩ with
      numTrackers := f.numTrackers + 1
      tracker := Function.update f.tracker f.numTrackers ⟨some child, none, some t⟩ }

/-- The loop over parent branches; it has at most as many rounds as there are trackers. -/
def climb : ℕ → ℕ → Option ℕ → Option ℕ
  | _, ret, none => some ret
  | 0, _, some _ => none
  | fuel + 1, ret, some t =>
    match f.head t with
    | some h => climb fuel h (f.tracker t).parent
    | none => some ret

/-- It panics if the branch of the tree has no head. -/
def getOldestAncestor (x : ℕ) : Option ℕ := do
  let ret ← f.head (f.inner x).branchTracker
  f.climb f.numTrackers ret (f.tracker (f.inner x).branchTracker).parent

/-- The drop of a tree takes the lock. -/
def startDrop (x : ℕ) : Family :=
  { f.drainChildrenForDrop x with dropping := some ((f.inner x).children, []) }

/-- One round of the loop: a descendant that only the stack refers to is taken apart as well. -/
def popDescendant (rest processed : List ℕ) (d : ℕ) : Family :=
  if f.strongCount d = 1 then
    { f.drainChildrenForDrop d with
      dropping := some (rest ++ (f.inner d).children, processed ++ [d]) }
  else { f with dropping := some (rest, processed ++ [d]) }

/-! ## Interleavings -/

/-- What any thread may do next. Handles are cloned and dropped at any time; all else needs the
lock. A tree that is already taken apart has nothing to do when it is dropped. -/
inductive Step : Family → Family → Prop
  | clone (f : Family) (x : ℕ) (h : 0 < (f.inner x).handles) :
    Step f (f.setHandles x ((f.inner x).handles + 1))
  | dropHandle (f : Family) (x : ℕ) (h : 0 < (f.inner x).handles) :
    Step f (f.setHandles x ((f.inner x).handles - 1))
  | spawn (f : Family) (x : ℕ) (hlock : f.dropping = none) (h : 0 < (f.inner x).handles) :
    Step f (f.spawn x)
  | getOldestAncestor (f : Family) (x ret : ℕ) (hlock : f.dropping = none)
    (h : 0 < (f.inner x).handles) (hret : f.getOldestAncestor x = some ret) :
    Step f (f.setHandles ret ((f.inner ret).handles + 1))
  | startDrop (f : Family) (x : ℕ) (hlock : f.dropping = none)
    (hdrained : (f.inner x).drained = false) (h : f.strongCount x = 0) : Step f (f.startDrop x)
  | popDescendant (f : Family) (rest processed : List ℕ) (d : ℕ)
    (h : f.dropping = some (rest ++ [d], processed)) : Step f (f.popDescendant rest processed d)
  | endDrop (f : Family) (processed : List ℕ) (h : f.dropping = some ([], processed)) :
    Step f { f with dropping := none, freeing := f.freeing ++ processed }
  | free (f : Family) (d : ℕ) (h : d ∈ f.freeing) :
    Step f { f with freeing := f.freeing.erase d }

/-- A family at any moment of any interleaving. -/
def Reachable (f : Family) : Prop := Relation.ReflTransGen Step new f

/-- The tree `x` is `a` or was spawned from it over any number of trees. -/
def AncestorOrSelf (a x : ℕ) : Prop :=
  Relation.ReflTransGen (fun c p => (f.inner c).parent = some p) x a

end Family

end Anthemius.Scratchpad
