import Anthemius.SparseMerkleFamilies

/-!
# The oldest ancestor of a tree

Trees are taken apart from the oldest on. What is left are subtrees of the family, and the tracker
of each branch of them has the first tree of the branch and its first child.
-/
namespace Anthemius.Scratchpad.Family
variable {f g : Family} {x p c d : ℕ}

/-! ## The shape of a family -/

/-- A tree that is not taken apart holds all that were spawned from it. What drops hold was taken
from a tree, and what is taken apart has no handles and only such ancestors. -/
structure Shape (f : Family) : Prop where
  unborn : ∀ x, f.size ≤ x → (f.inner x).drained = true ∧ (f.inner x).parent = none
  parent_lt : ∀ c p, (f.inner c).parent = some p → p < c
  child : ∀ p c, c ∈ (f.inner p).children → (f.inner c).parent = some p
  joined : ∀ p c, (f.inner c).parent = some p → (f.inner p).drained = false →
    c ∈ (f.inner p).children
  children : ∀ x, (f.inner x).drained = true → (f.inner x).children = []
  handles : ∀ x, (f.inner x).drained = true → (f.inner x).handles = 0
  above : ∀ x p, (f.inner x).drained = true → (f.inner x).parent = some p →
    (f.inner p).drained = true
  buffered : ∀ d ∈ f.buffered, ∃ p, (f.inner d).parent = some p ∧ (f.inner p).drained = true

/-- The tree is not taken apart, but all above it are. -/
structure Top (f : Family) (x : ℕ) : Prop where
  drained : (f.inner x).drained = false
  above : ∀ p, (f.inner x).parent = some p → (f.inner p).drained = true

namespace Shape

theorem drained_of_mem (h : f.Shape) (hc : c ∈ (f.inner p).children) :
    (f.inner p).drained = false := by
  by_contra hdrained
  rw [h.children p (Bool.not_eq_false _ ▸ hdrained)] at hc
  cases hc

theorem child_drained (h : f.Shape) (hc : c ∈ (f.inner p).children) :
    (f.inner c).drained = false := by
  by_contra hdrained
  have hp := h.above c p (Bool.not_eq_false _ ▸ hdrained) (h.child p c hc)
  rw [h.drained_of_mem hc] at hp
  cases hp

theorem drained_of_handles (h : f.Shape) (hx : 0 < (f.inner x).handles) :
    (f.inner x).drained = false := by
  by_contra hdrained
  rw [h.handles x (Bool.not_eq_false _ ▸ hdrained)] at hx
  cases hx

theorem lt_size (h : f.Shape) (hx : (f.inner x).drained = false) : x < f.size := by
  by_contra hle
  rw [(h.unborn x (Nat.not_lt.mp hle)).1] at hx
  cases hx

theorem strongCount_pos (h : f.Shape) (hc : c ∈ (f.inner p).children) : 0 < f.strongCount c := by
  have hcount : 0 < (f.inner p).children.count c := List.count_pos_iff.mpr hc
  rw [strongCount, h.child p c hc]
  dsimp only
  omega

theorem top_of_strongCount (h : f.Shape) (hx : (f.inner x).drained = false)
    (hzero : f.strongCount x = 0) : f.Top x := by
  refine ⟨hx, fun p hp => ?_⟩
  by_contra hdrained
  have hpos := h.strongCount_pos (h.joined p x hp (Bool.not_eq_true _ ▸ hdrained))
  omega

/-- A tree that is taken apart is only held by drops. -/
theorem strongCount_drained (h : f.Shape) (hx : (f.inner x).drained = true) :
    f.strongCount x = f.buffered.count x := by
  rw [strongCount, h.handles x hx, Nat.zero_add]
  cases hp : (f.inner x).parent with
  | none => exact Nat.zero_add _
  | some p =>
    dsimp only
    rw [h.children p (h.above x p hx hp), List.count_nil, Nat.zero_add]

end Shape

/-! ## Trackers -/

/-- The first child is in the branch of its parent. Every other tree has a tracker of its own, below
that of its parent or, if that is taken apart, alone. -/
structure Linked (f : Family) : Prop extends Shape f where
  tracker_lt : ∀ x, (f.inner x).drained = false → (f.inner x).branchTracker < f.numTrackers
  shares : ∀ p c, (f.inner p).children.head? = some c →
    (f.inner c).branchTracker = (f.inner p).branchTracker
  starts : ∀ p c, c ∈ (f.inner p).children → (f.inner p).children.head? ≠ some c →
    f.tracker (f.inner c).branchTracker =
        ⟨some c, (f.inner c).children.head?, some (f.inner p).branchTracker⟩ ∧
      (f.inner p).branchTracker < (f.inner c).branchTracker
  oldest : ∀ x, f.Top x →
    f.tracker (f.inner x).branchTracker = ⟨some x, (f.inner x).children.head?, none⟩

/-- The tree is the first one of its branch. -/
structure StartsBranch (f : Family) (x : ℕ) : Prop where
  drained : (f.inner x).drained = false
  notFirst : ∀ p, (f.inner p).children.head? ≠ some x

namespace Linked

theorem head_eq (h : f.Linked) (hx : f.StartsBranch x) :
    (f.tracker (f.inner x).branchTracker).head = some x ∧
      (f.tracker (f.inner x).branchTracker).next = (f.inner x).children.head? := by
  by_cases htop : ∀ p, (f.inner x).parent = some p → (f.inner p).drained = true
  · rw [h.oldest x ⟨hx.drained, htop⟩]
    exact ⟨rfl, rfl⟩
  · push Not at htop
    obtain ⟨p, hp, hdrained⟩ := htop
    have hmem := h.joined p x hp (Bool.not_eq_true _ ▸ hdrained)
    rw [(h.starts p x hmem (hx.notFirst p)).1]
    exact ⟨rfl, rfl⟩

theorem eq_of_tracker (h : f.Linked) {y : ℕ} (hx : f.StartsBranch x) (hy : f.StartsBranch y)
    (heq : (f.inner x).branchTracker = (f.inner y).branchTracker) : x = y := by
  have hhead := (h.head_eq hx).1
  rw [heq, (h.head_eq hy).1] at hhead
  exact (Option.some.inj hhead).symm

theorem startsBranch_of_top (h : f.Linked) (hx : f.Top x) : f.StartsBranch x := by
  refine ⟨hx.drained, fun p hp => ?_⟩
  have hmem := List.mem_of_mem_head? hp
  have hdrained := hx.above p (h.child p x hmem)
  rw [h.drained_of_mem hmem] at hdrained
  cases hdrained

theorem startsBranch_of_mem (h : f.Linked) (hc : c ∈ (f.inner p).children)
    (hfirst : (f.inner p).children.head? ≠ some c) : f.StartsBranch c := by
  refine ⟨h.child_drained hc, fun q hq => ?_⟩
  have hparent := h.child q c (List.mem_of_mem_head? hq)
  rw [h.child p c hc] at hparent
  cases hparent
  exact hfirst hq

end Linked

/-! ## Taking a tree apart -/

theorem exists_tracker (cs : List ℕ) (f : Family) :
    ∃ tracker, cs.foldl becomeOldest f = { f with tracker := tracker } ∧
      (∀ t, (∀ c ∈ cs, (f.inner c).branchTracker ≠ t) → tracker t = f.tracker t) ∧
      ((∀ c ∈ cs, ∀ d ∈ cs, (f.inner c).branchTracker = (f.inner d).branchTracker → c = d) →
        ∀ c ∈ cs,
          tracker (f.inner c).branchTracker = ⟨some c, (f.inner c).children.head?, none⟩) := by
  induction cs generalizing f with
  | nil => exact ⟨f.tracker, rfl, fun _ _ => rfl, fun _ c hc => absurd hc List.not_mem_nil⟩
  | cons first rest ih =>
    obtain ⟨tracker, heq, hother, hset⟩ := ih (f.becomeOldest first)
    refine ⟨tracker, heq, fun t ht => ?_, fun hdistinct c hc => ?_⟩
    · rw [hother t fun c hc => ht c (List.mem_cons_of_mem _ hc)]
      exact Function.update_of_ne (ht first List.mem_cons_self).symm _ _
    · by_cases hrest : c ∈ rest
      · refine hset (fun a ha b hb => ?_) c hrest
        exact hdistinct a (List.mem_cons_of_mem _ ha) b (List.mem_cons_of_mem _ hb)
      · obtain rfl := (List.mem_cons.mp hc).resolve_right hrest
        rw [hother _ fun d hd heq => hrest ?_]
        · exact Function.update_self ..
        · have hsame := hdistinct d (List.mem_cons_of_mem _ hd) c hc heq
          exact hsame ▸ hd

theorem Linked.children_distinct (h : f.Linked) (hx : f.Top x) :
    ∀ c ∈ (f.inner x).children, ∀ d ∈ (f.inner x).children,
      (f.inner c).branchTracker = (f.inner d).branchTracker → c = d := by
  -- the first child is in the branch that its parent starts
  have hfirst : ∀ {c d}, (f.inner x).children.head? = some c → d ∈ (f.inner x).children →
      (f.inner x).children.head? ≠ some d →
      (f.inner c).branchTracker ≠ (f.inner d).branchTracker := by
    intro c d hc hd hne heq
    rw [h.shares x c hc] at heq
    have hsame := h.eq_of_tracker (h.startsBranch_of_top hx) (h.startsBranch_of_mem hd hne) heq
    exact Nat.lt_irrefl x (hsame ▸ h.parent_lt d x (h.child x d hd))
  intro c hc d hd heq
  by_cases hc' : (f.inner x).children.head? = some c
  · by_cases hd' : (f.inner x).children.head? = some d
    · exact Option.some.inj (hc'.symm.trans hd')
    · exact absurd heq (hfirst hc' hd hd')
  · by_cases hd' : (f.inner x).children.head? = some d
    · exact absurd heq.symm (hfirst hd' hc hc')
    · exact h.eq_of_tracker (h.startsBranch_of_mem hc hc') (h.startsBranch_of_mem hd hd') heq

/-- The trees outside keep their trackers. -/
theorem Linked.tracker_ne {y : ℕ} (h : f.Linked) (hx : f.Top x) (hy : f.StartsBranch y)
    (hne : y ≠ x) (hout : y ∉ (f.inner x).children) :
    ∀ c ∈ (f.inner x).children, (f.inner c).branchTracker ≠ (f.inner y).branchTracker := by
  intro c hc heq
  by_cases hc' : (f.inner x).children.head? = some c
  · rw [h.shares x c hc'] at heq
    exact hne (h.eq_of_tracker (h.startsBranch_of_top hx) hy heq).symm
  · obtain rfl := h.eq_of_tracker (h.startsBranch_of_mem hc hc') hy heq
    exact hout hc

/-- What changes where a tree is taken apart. -/
structure TakesApart (f g : Family) (x : ℕ) : Prop where
  parent : ∀ y, (g.inner y).parent = (f.inner y).parent
  branchTracker : ∀ y, (g.inner y).branchTracker = (f.inner y).branchTracker
  handles : ∀ y, (g.inner y).handles = (f.inner y).handles
  children : ∀ y, (g.inner y).children = if y = x then [] else (f.inner y).children
  drained : ∀ y, (g.inner y).drained = true ↔ y = x ∨ (f.inner y).drained = true

theorem takesApart_of_update (hinner : g.inner = Function.update f.inner x
    { f.inner x with children := [], drained := true }) : f.TakesApart g x := by
  constructor <;> intro y <;> rw [hinner] <;> by_cases hy : y = x <;> simp [hy]

namespace TakesApart

theorem mem_children (hg : f.TakesApart g x) :
    c ∈ (g.inner p).children ↔ p ≠ x ∧ c ∈ (f.inner p).children := by
  rw [hg.children, List.mem_ite_nil_left]

theorem children_of_ne (hg : f.TakesApart g x) (hp : p ≠ x) :
    (g.inner p).children = (f.inner p).children := by
  rw [hg.children, if_neg hp]

theorem not_drained (hg : f.TakesApart g x) :
    (g.inner p).drained = false ↔ p ≠ x ∧ (f.inner p).drained = false := by
  have hiff := hg.drained p
  grind

end TakesApart

theorem Shape.drain (h : f.Shape) (hx : f.Top x) (hhandles : (f.inner x).handles = 0)
    (hg : f.TakesApart g x) (hsize : g.size = f.size)
    (hbuffered : ∀ d ∈ g.buffered, d ∈ f.buffered ∨ d ∈ (f.inner x).children) : g.Shape := by
  constructor
  case unborn =>
    intro y hy
    rw [hg.parent, hg.drained]
    exact ⟨Or.inr (h.unborn y (hsize ▸ hy)).1, (h.unborn y (hsize ▸ hy)).2⟩
  case parent_lt => simpa only [hg.parent] using h.parent_lt
  case child =>
    intro p c hc
    rw [hg.parent]
    exact h.child p c (hg.mem_children.mp hc).2
  case joined =>
    intro p c hp hd
    obtain ⟨hne, hd⟩ := hg.not_drained.mp hd
    exact hg.mem_children.mpr ⟨hne, h.joined p c (hg.parent c ▸ hp) hd⟩
  case children =>
    intro y hy
    rw [hg.children, ite_eq_left_iff]
    intro hne
    exact h.children y (((hg.drained y).mp hy).resolve_left hne)
  case handles =>
    intro y hy
    rw [hg.handles]
    obtain rfl | hy := (hg.drained y).mp hy
    · exact hhandles
    · exact h.handles y hy
  case above =>
    intro y p hy hp
    rw [hg.parent] at hp
    rw [hg.drained] at hy ⊢
    obtain rfl | hy := hy
    · exact Or.inr (hx.above p hp)
    · exact Or.inr (h.above y p hy hp)
  case buffered =>
    intro d hd
    simp only [hg.parent, hg.drained]
    obtain hd | hd := hbuffered d hd
    · obtain ⟨p, hp, hpd⟩ := h.buffered d hd
      exact ⟨p, hp, Or.inr hpd⟩
    · exact ⟨x, h.child x d hd, Or.inl rfl⟩

theorem Linked.takesApart (h : f.Linked) (hx : f.Top x) (hhandles : (f.inner x).handles = 0)
    (hg : f.TakesApart g x) (hsize : g.size = f.size) (hnum : g.numTrackers = f.numTrackers)
    (hbuffered : ∀ d ∈ g.buffered, d ∈ f.buffered ∨ d ∈ (f.inner x).children)
    (hother : ∀ t, (∀ c ∈ (f.inner x).children, (f.inner c).branchTracker ≠ t) →
      g.tracker t = f.tracker t)
    (hset : ∀ c ∈ (f.inner x).children,
      g.tracker (f.inner c).branchTracker = ⟨some c, (f.inner c).children.head?, none⟩) :
    g.Linked := by
  refine ⟨h.toShape.drain hx hhandles hg hsize hbuffered, ?tracker_lt, ?shares, ?starts, ?oldest⟩
  case tracker_lt =>
    intro y hy
    rw [hg.branchTracker, hnum]
    exact h.tracker_lt y (hg.not_drained.mp hy).2
  case shares =>
    intro p c hc
    have hp := (hg.mem_children.mp (List.mem_of_mem_head? hc)).1
    rw [hg.children_of_ne hp] at hc
    rw [hg.branchTracker, hg.branchTracker]
    exact h.shares p c hc
  case starts =>
    intro p c hc hfirst
    obtain ⟨hp, hc⟩ := hg.mem_children.mp hc
    rw [hg.children_of_ne hp] at hfirst
    have hcx : c ≠ x := by
      rintro rfl
      have hdrained := hx.above p (h.child p c hc)
      rw [h.drained_of_mem hc] at hdrained
      cases hdrained
    have hout : c ∉ (f.inner x).children := by
      intro hin
      have hparent := h.child p c hc
      rw [h.child x c hin] at hparent
      exact hp (Option.some.inj hparent).symm
    rw [hg.branchTracker, hg.branchTracker, hg.children_of_ne hcx,
      hother _ (h.tracker_ne hx (h.startsBranch_of_mem hc hfirst) hcx hout)]
    exact h.starts p c hc hfirst
  case oldest =>
    rintro y ⟨hdrained, habove⟩
    obtain ⟨hyx, hdrained⟩ := hg.not_drained.mp hdrained
    rw [hg.branchTracker, hg.children_of_ne hyx]
    by_cases hin : y ∈ (f.inner x).children
    · exact hset y hin
    · have htop : f.Top y := by
        refine ⟨hdrained, fun p hp => ?_⟩
        have hd := (hg.drained p).mp (habove p ((hg.parent y).trans hp))
        exact hd.resolve_left fun hpx => hin (h.joined x y (hpx ▸ hp) hx.drained)
      rw [hother _ (h.tracker_ne hx (h.startsBranch_of_top htop) hyx hin)]
      exact h.oldest y htop

theorem Linked.drain (h : f.Linked) (hx : f.Top x) (hhandles : (f.inner x).handles = 0)
    {dropping : Option (List ℕ × List ℕ)}
    (hbuffered : ∀ d ∈ { f with dropping := dropping }.buffered,
      d ∈ f.buffered ∨ d ∈ (f.inner x).children) :
    { f.drainChildrenForDrop x with dropping := dropping }.Linked := by
  obtain ⟨tracker, heq, hother, hset⟩ := exists_tracker (f.inner x).children
    (f.setInner x { f.inner x with children := [], drained := true })
  have hg : f.TakesApart (f.setInner x { f.inner x with children := [], drained := true }) x :=
    takesApart_of_update rfl
  simp only [hg.branchTracker] at hother hset
  rw [drainChildrenForDrop, heq]
  refine h.takesApart hx hhandles (takesApart_of_update rfl) rfl rfl hbuffered hother
    fun c hc => ?_
  have hne : c ≠ x := by
    rintro rfl
    exact Nat.lt_irrefl _ (h.parent_lt c c (h.child c c hc))
  rw [← hg.children_of_ne hne]
  exact hset (h.children_distinct hx) c hc

/-! ## Handles and buffers -/

/-- Only the handles of trees that are not taken apart change, and drops hold nothing new. -/
theorem Linked.frame (h : f.Linked)
    (hinner : ∀ y, g.inner y = { f.inner y with handles := (g.inner y).handles })
    (hhandles : ∀ y, (f.inner y).drained = true → (g.inner y).handles = 0)
    (hsize : g.size = f.size) (hnum : g.numTrackers = f.numTrackers)
    (htracker : g.tracker = f.tracker) (hbuffered : ∀ d ∈ g.buffered, d ∈ f.buffered) :
    g.Linked := by
  have hparent : ∀ y, (g.inner y).parent = (f.inner y).parent := fun y => by rw [hinner y]
  have hchildren : ∀ y, (g.inner y).children = (f.inner y).children := fun y => by rw [hinner y]
  have hbranch : ∀ y, (g.inner y).branchTracker = (f.inner y).branchTracker :=
    fun y => by rw [hinner y]
  have hdrained : ∀ y, (g.inner y).drained = (f.inner y).drained := fun y => by rw [hinner y]
  refine ⟨⟨?unborn, ?parent_lt, ?child, ?joined, ?children, ?handles, ?above, ?buffered⟩,
    ?tracker_lt, ?shares, ?starts, ?oldest⟩
  case unborn => simpa only [hparent, hdrained, hsize] using h.unborn
  case parent_lt => simpa only [hparent] using h.parent_lt
  case child => simpa only [hparent, hchildren] using h.child
  case joined => simpa only [hparent, hchildren, hdrained] using h.joined
  case children => simpa only [hchildren, hdrained] using h.children
  case handles => simpa only [hdrained] using hhandles
  case above => simpa only [hparent, hdrained] using h.above
  case buffered =>
    intro d hd
    simpa only [hparent, hdrained] using h.buffered d (hbuffered d hd)
  case tracker_lt => simpa only [hbranch, hdrained, hnum] using h.tracker_lt
  case shares => simpa only [hbranch, hchildren] using h.shares
  case starts => simpa only [hbranch, hchildren, htracker] using h.starts
  case oldest =>
    rintro y ⟨hy, habove⟩
    simp only [hparent, hdrained] at hy habove
    rw [htracker, hbranch, hchildren]
    exact h.oldest y ⟨hy, habove⟩

theorem Linked.setHandles (h : f.Linked) (hx : (f.inner x).drained = false) (handles : ℕ) :
    (f.setHandles x handles).Linked := by
  refine h.frame (fun y => ?_) (fun y hy => ?_) rfl rfl rfl fun _ hd => hd
  · by_cases hyx : y = x
    · simp only [Family.setHandles, setInner, hyx, Function.update_self]
    · simp only [Family.setHandles, setInner, Function.update_of_ne hyx]
  · have hyx : y ≠ x := by
      rintro rfl
      rw [hx] at hy
      cases hy
    simp only [Family.setHandles, setInner, Function.update_of_ne hyx]
    exact h.handles y hy

/-! ## Spawning -/

theorem Shape.parent_ne_size (h : f.Shape) (hp : (f.inner c).parent = some p) : p ≠ f.size := by
  rintro rfl
  by_cases hc : f.size ≤ c
  · rw [(h.unborn c hc).2] at hp
    cases hp
  · exact hc (Nat.le_of_lt (h.parent_lt c _ hp))

/-- What changes where a tree with the tracker `t` is spawned from `x`. -/
structure Spawns (f g : Family) (x t : ℕ) : Prop where
  new : g.inner f.size = ⟨some x, [], t, 1, false⟩
  parent : ∀ c p, (g.inner c).parent = some p ↔ (f.inner c).parent = some p ∨ c = f.size ∧ p = x
  children : ∀ y, (g.inner y).children =
    if y = x then (f.inner x).children ++ [f.size] else (f.inner y).children
  branchTracker : ∀ y, y ≠ f.size → (g.inner y).branchTracker = (f.inner y).branchTracker
  handles : ∀ y, y ≠ f.size → (g.inner y).handles = (f.inner y).handles
  drained : ∀ y, (g.inner y).drained = true ↔ y ≠ f.size ∧ (f.inner y).drained = true

theorem Shape.spawns (h : f.Shape) (hx : (f.inner x).drained = false) {t : ℕ}
    (hinner : g.inner = Function.update (Function.update f.inner x
      { f.inner x with children := (f.inner x).children ++ [f.size] }) f.size
        ⟨some x, [], t, 1, false⟩) : f.Spawns g x t := by
  have hne : x ≠ f.size := Nat.ne_of_lt (h.lt_size hx)
  obtain ⟨hunborn, hnone⟩ := h.unborn f.size (Nat.le_refl _)
  have hempty := h.children f.size hunborn
  constructor
  case new => rw [hinner, Function.update_self]
  all_goals
    intro y
    rw [hinner]
    by_cases hy : y = f.size
    · grind [Function.update_self]
    · by_cases hyx : y = x
      · subst hyx
        simp [hne]
      · simp [hy, hyx]

namespace Spawns
variable {t : ℕ}

theorem mem_children (hg : f.Spawns g x t) :
    c ∈ (g.inner p).children ↔ c ∈ (f.inner p).children ∨ p = x ∧ c = f.size := by
  rw [hg.children]
  by_cases hp : p = x <;> simp [hp]

theorem head?_children (hg : f.Spawns g x t) :
    (g.inner p).children.head? = some c ↔ (f.inner p).children.head? = some c ∨
      (f.inner p).children = [] ∧ p = x ∧ c = f.size := by
  rw [hg.children]
  by_cases hp : p = x
  · subst hp
    cases (f.inner p).children <;> simp [eq_comm]
  · simp [hp]

theorem not_drained (hg : f.Spawns g x t) :
    (g.inner p).drained = false ↔ p = f.size ∨ (f.inner p).drained = false := by
  have hiff := hg.drained p
  grind

end Spawns

theorem Shape.spawn (h : f.Shape) (hx : (f.inner x).drained = false) {t : ℕ}
    (hg : f.Spawns g x t) (hsize : g.size = f.size + 1) (hbuffered : g.buffered = f.buffered) :
    g.Shape := by
  constructor
  case unborn =>
    intro y hy
    have hne : y ≠ f.size := by omega
    obtain ⟨hdrained, hnone⟩ := h.unborn y (by omega)
    refine ⟨(hg.drained y).mpr ⟨hne, hdrained⟩, ?_⟩
    refine Option.eq_none_iff_forall_ne_some.mpr fun p hp => ?_
    obtain hp | ⟨heq, -⟩ := (hg.parent y p).mp hp
    · rw [hnone] at hp
      cases hp
    · exact hne heq
  case parent_lt =>
    intro c p hp
    obtain hp | ⟨rfl, rfl⟩ := (hg.parent c p).mp hp
    · exact h.parent_lt c p hp
    · exact h.lt_size hx
  case child =>
    intro p c hc
    exact (hg.parent c p).mpr ((hg.mem_children.mp hc).imp (h.child p c) And.symm)
  case joined =>
    intro p c hp hd
    obtain hp | ⟨rfl, rfl⟩ := (hg.parent c p).mp hp
    · have hd := (hg.not_drained.mp hd).resolve_left (h.parent_ne_size hp)
      exact hg.mem_children.mpr (Or.inl (h.joined p c hp hd))
    · exact hg.mem_children.mpr (Or.inr ⟨rfl, rfl⟩)
  case children =>
    intro y hy
    obtain ⟨-, hy⟩ := (hg.drained y).mp hy
    have hne : y ≠ x := by
      rintro rfl
      rw [hx] at hy
      cases hy
    rw [hg.children, if_neg hne]
    exact h.children y hy
  case handles =>
    intro y hy
    obtain ⟨hne, hy⟩ := (hg.drained y).mp hy
    rw [hg.handles y hne]
    exact h.handles y hy
  case above =>
    intro y p hy hp
    obtain ⟨hne, hy⟩ := (hg.drained y).mp hy
    have hp := ((hg.parent y p).mp hp).resolve_right fun hnew => hne hnew.1
    exact (hg.drained p).mpr ⟨h.parent_ne_size hp, h.above y p hy hp⟩
  case buffered =>
    intro d hd
    obtain ⟨p, hp, hpd⟩ := h.buffered d (hbuffered ▸ hd)
    exact ⟨p, (hg.parent d p).mpr (Or.inl hp), (hg.drained p).mpr ⟨h.parent_ne_size hp, hpd⟩⟩

/-- The new tree joins the branch of its parent or starts one. Of the old branches only that of the
parent may change, where a first child is set. -/
theorem Linked.attach (h : f.Linked) (hx : (f.inner x).drained = false) {t : ℕ}
    (hg : f.Spawns g x t) (hsize : g.size = f.size + 1)
    (hbuffered : g.buffered = f.buffered) (hnum : f.numTrackers ≤ g.numTrackers)
    (ht : t < g.numTrackers)
    (hfirst : (f.inner x).children = [] → t = (f.inner x).branchTracker)
    (hfork : (f.inner x).children ≠ [] → (f.inner x).branchTracker < t ∧
      g.tracker t = ⟨some f.size, none, some (f.inner x).branchTracker⟩)
    (hkeep : ∀ y, f.StartsBranch y → y ≠ x →
      g.tracker (f.inner y).branchTracker = f.tracker (f.inner y).branchTracker)
    (hset : f.StartsBranch x → g.tracker (f.inner x).branchTracker =
      { f.tracker (f.inner x).branchTracker with
        next := ((f.inner x).children ++ [f.size]).head? }) : g.Linked := by
  have hbranch : ∀ y, (f.inner y).drained = false →
      (g.inner y).branchTracker = (f.inner y).branchTracker :=
    fun y hy => hg.branchTracker y (Nat.ne_of_lt (h.lt_size hy))
  refine ⟨h.toShape.spawn hx hg hsize hbuffered, ?tracker_lt, ?shares, ?starts, ?oldest⟩
  case tracker_lt =>
    intro y hy
    obtain rfl | hy := hg.not_drained.mp hy
    · rw [hg.new]
      exact ht
    · rw [hbranch y hy]
      exact Nat.lt_of_lt_of_le (h.tracker_lt y hy) hnum
  case shares =>
    intro p c hc
    obtain hc | ⟨hnil, rfl, rfl⟩ := hg.head?_children.mp hc
    · have hmem := List.mem_of_mem_head? hc
      rw [hbranch p (h.drained_of_mem hmem), hbranch c (h.child_drained hmem)]
      exact h.shares p c hc
    · rw [hg.new, hbranch p hx]
      exact hfirst hnil
  case starts =>
    intro p c hc hhead
    obtain hc | ⟨rfl, rfl⟩ := hg.mem_children.mp hc
    · have hold : (f.inner p).children.head? ≠ some c :=
        fun heq => hhead (hg.head?_children.mpr (Or.inl heq))
      have hstarts := h.startsBranch_of_mem hc hold
      obtain ⟨htracker, hlt⟩ := h.starts p c hc hold
      rw [hbranch p (h.drained_of_mem hc), hbranch c (h.child_drained hc)]
      refine ⟨?_, hlt⟩
      by_cases hcx : c = x
      · subst hcx
        rw [hset hstarts, htracker, hg.children, if_pos rfl]
      · rw [hkeep c hstarts hcx, hg.children, if_neg hcx]
        exact htracker
    · have hsome : (f.inner p).children ≠ [] :=
        fun hnil => hhead (hg.head?_children.mpr (Or.inr ⟨hnil, rfl, rfl⟩))
      rw [hg.new, hbranch p hx]
      exact ⟨(hfork hsome).2, (hfork hsome).1⟩
  case oldest =>
    rintro y ⟨hy, habove⟩
    obtain rfl | hy := hg.not_drained.mp hy
    · -- the parent of the new tree is not taken apart
      have hdrained := habove x ((hg.parent _ x).mpr (Or.inr ⟨rfl, rfl⟩))
      rw [hg.drained, hx] at hdrained
      cases hdrained.2
    · have htop : f.Top y :=
        ⟨hy, fun p hp => ((hg.drained p).mp (habove p ((hg.parent y p).mpr (Or.inl hp)))).2⟩
      have hstarts := h.startsBranch_of_top htop
      rw [hbranch y hy]
      by_cases hyx : y = x
      · subst hyx
        rw [hset hstarts, h.oldest y htop, hg.children, if_pos rfl]
      · rw [hkeep y hstarts hyx, hg.children, if_neg hyx]
        exact h.oldest y htop

theorem Linked.exists_next (h : f.Linked) (hfirst : (f.inner p).children.head? = some x) :
    ∃ n, f.upgrade (f.tracker (f.inner x).branchTracker).next = some n := by
  induction p using Nat.strongRecOn generalizing x with
  | ind p ih =>
    have hmem := List.mem_of_mem_head? hfirst
    rw [h.shares p x hfirst]
    by_cases hp : ∃ q, (f.inner q).children.head? = some p
    · obtain ⟨q, hq⟩ := hp
      exact ih q (h.parent_lt p q (h.child q p (List.mem_of_mem_head? hq))) hq
    · have hstarts : f.StartsBranch p := ⟨h.drained_of_mem hmem, fun q hq => hp ⟨q, hq⟩⟩
      rw [(h.head_eq hstarts).2, hfirst]
      exact ⟨x, Option.filter_some_pos (decide_eq_true (h.strongCount_pos hmem))⟩

theorem Linked.spawn (h : f.Linked) (hx : 0 < (f.inner x).handles) : (f.spawn x).Linked := by
  have hdrained := h.drained_of_handles hx
  have hlt := h.tracker_lt x hdrained
  rw [Family.spawn]
  by_cases hempty : (f.inner x).children = []
  · rw [if_pos (List.isEmpty_iff.mpr hempty)]
    -- the link to the next tree is free exactly if the parent starts its branch
    by_cases hstarts : f.StartsBranch x
    · have hfree : (f.upgrade (f.tracker (f.inner x).branchTracker).next).isNone = true := by
        rw [(h.head_eq hstarts).2, hempty]
        rfl
      rw [if_pos hfree]
      refine h.attach hdrained (h.spawns hdrained rfl) rfl rfl (Nat.le_refl _) hlt (fun _ => rfl)
        (fun hne => absurd hempty hne) (fun y hy hne => ?_) (fun _ => ?_)
      · refine Function.update_of_ne (fun heq => hne (h.eq_of_tracker hy hstarts heq)) _ _
      · rw [hempty]
        exact Function.update_self ..
    · obtain ⟨p, hp⟩ : ∃ p, (f.inner p).children.head? = some x := by
        by_contra hnone
        exact hstarts ⟨hdrained, fun p hp => hnone ⟨p, hp⟩⟩
      obtain ⟨n, hn⟩ := h.exists_next hp
      rw [hn, if_neg (by simp)]
      exact h.attach hdrained (h.spawns hdrained rfl) rfl rfl (Nat.le_refl _) hlt (fun _ => rfl)
        (fun hne => absurd hempty hne) (fun _ _ _ => rfl) fun hs => absurd hs hstarts
  · rw [if_neg (mt List.isEmpty_iff.mp hempty)]
    have hold : ∀ y, f.StartsBranch y → (f.inner y).branchTracker ≠ f.numTrackers :=
      fun y hy => Nat.ne_of_lt (h.tracker_lt y hy.drained)
    refine h.attach hdrained (h.spawns hdrained rfl) rfl rfl (Nat.le_succ _) (Nat.lt_succ_self _)
      (fun hnil => absurd hnil hempty) (fun _ => ⟨hlt, Function.update_self ..⟩)
      (fun y hy _ => Function.update_of_ne (hold y hy) _ _) fun hs => ?_
    have hnext := (h.head_eq hs).2
    have hsame : ((f.inner x).children ++ [f.size]).head? = (f.inner x).children.head? := by
      obtain ⟨first, rest, hcons⟩ := List.exists_cons_of_ne_nil hempty
      rw [hcons]
      rfl
    rw [hsame, ← hnext]
    exact Function.update_of_ne (hold x hs) _ _

/-! ## The search -/

/-- A tree whose last reference is gone is answered with its first child. -/
def answer (f : Family) (a : ℕ) : Option ℕ :=
  if 0 < f.strongCount a then some a else (f.inner a).children.head?

theorem exists_answer (f : Family) {a : ℕ}
    (h : 0 < f.strongCount a ∨ (f.inner a).children ≠ []) : ∃ ret, f.answer a = some ret := by
  rw [answer]
  split
  · exact ⟨a, rfl⟩
  next hzero =>
    obtain ⟨c, rest, hcons⟩ := List.exists_cons_of_ne_nil (h.resolve_left hzero)
    rw [hcons]
    exact ⟨c, rfl⟩

theorem upgrade_some (f : Family) (x : ℕ) :
    f.upgrade (some x) = if 0 < f.strongCount x then some x else none := by
  rw [upgrade, Option.filter_some]
  simp only [decide_eq_true_eq]

theorem head_of_tracker {t : ℕ} {parent : Option ℕ}
    (h : f.tracker t = ⟨some x, (f.inner x).children.head?, parent⟩) (hshape : f.Shape) :
    f.head t = f.answer x := by
  rw [head, answer, h]
  dsimp only
  rw [upgrade_some]
  split
  · rfl
  · cases hfirst : (f.inner x).children.head? with
    | none => rfl
    | some c =>
      rw [upgrade_some, if_pos (hshape.strongCount_pos (List.mem_of_mem_head? hfirst))]
      rfl

/-- The search ends at the only ancestor that is not taken apart and has nothing above. -/
theorem Linked.climbs (h : f.Linked) (x : ℕ) (hx : (f.inner x).drained = false)
    (hheld : 0 < f.strongCount x ∨ (f.inner x).children ≠ []) :
    ∃ a, f.Top a ∧ f.AncestorOrSelf a x ∧ (0 < f.strongCount a ∨ (f.inner a).children ≠ []) ∧
      ∃ ret, f.head (f.inner x).branchTracker = some ret ∧
        ∀ fuel, (f.inner x).branchTracker ≤ fuel →
          f.climb fuel ret (f.tracker (f.inner x).branchTracker).parent = f.answer a := by
  induction x using Nat.strongRecOn with
  | ind x ih =>
    by_cases habove : ∀ p, (f.inner x).parent = some p → (f.inner p).drained = true
    · have htracker := h.oldest x ⟨hx, habove⟩
      obtain ⟨ret, hret⟩ := f.exists_answer hheld
      refine ⟨x, ⟨hx, habove⟩, .refl, hheld, ret, ?_, fun fuel _ => ?_⟩
      · rw [head_of_tracker htracker h.toShape, hret]
      · rw [htracker, hret]
        cases fuel <;> rfl
    · push Not at habove
      obtain ⟨p, hp, hdrained⟩ := habove
      have hmem := h.joined p x hp (Bool.not_eq_true _ ▸ hdrained)
      obtain ⟨a, htop, hancestor, halive, ret, hhead, hclimb⟩ :=
        ih p (h.parent_lt x p hp) (h.drained_of_mem hmem) (Or.inr (List.ne_nil_of_mem hmem))
      refine ⟨a, htop, .head hp hancestor, halive, ?_⟩
      by_cases hfirst : (f.inner p).children.head? = some x
      · rw [h.shares p x hfirst]
        exact ⟨ret, hhead, hclimb⟩
      · obtain ⟨htracker, hlt⟩ := h.starts p x hmem hfirst
        refine ⟨x, ?_, fun fuel hfuel => ?_⟩
        · rw [head_of_tracker htracker h.toShape, answer, if_pos (h.strongCount_pos hmem)]
        · obtain ⟨k, rfl⟩ := Nat.exists_eq_succ_of_ne_zero (Nat.ne_of_gt (Nat.lt_of_lt_of_le
            (Nat.zero_lt_of_lt hlt) hfuel))
          rw [htracker, climb, hhead]
          exact hclimb k (by omega)

theorem Linked.getOldestAncestor (h : f.Linked) (hx : 0 < (f.inner x).handles) :
    ∃ a ret, f.Top a ∧ f.AncestorOrSelf a x ∧ f.getOldestAncestor x = some ret ∧
      f.answer a = some ret := by
  have hdrained := h.drained_of_handles hx
  have hpos : 0 < f.strongCount x := by
    rw [strongCount]
    omega
  obtain ⟨a, htop, hancestor, halive, first, hhead, hclimb⟩ := h.climbs x hdrained (Or.inl hpos)
  have hget : f.getOldestAncestor x = f.answer a := by
    rw [Family.getOldestAncestor, hhead]
    exact hclimb _ (Nat.le_of_lt (h.tracker_lt x hdrained))
  obtain ⟨ret, hret⟩ := f.exists_answer halive
  exact ⟨a, ret, htop, hancestor, hget.trans hret, hret⟩

/-! ## Interleavings -/

theorem linked_new : Linked new := by
  have hchildren : ∀ y, (new.inner y).children = [] := by
    intro y
    rw [Family.new]
    dsimp only
    split <;> rfl
  have hparent : ∀ y, (new.inner y).parent = none := by
    intro y
    rw [Family.new]
    dsimp only
    split <;> rfl
  have hzero : ∀ y, (new.inner y).drained = false → y = 0 := by
    intro y hy
    by_contra hne
    rw [Family.new] at hy
    dsimp only at hy
    rw [if_neg hne] at hy
    cases hy
  refine ⟨⟨?unborn, ?parent_lt, ?child, ?joined, ?children, ?handles, ?above, ?buffered⟩,
    ?tracker_lt, ?shares, ?starts, ?oldest⟩
  case unborn =>
    intro y hy
    have hne : y ≠ 0 := Nat.ne_of_gt hy
    refine ⟨?_, hparent y⟩
    by_contra hdrained
    exact hne (hzero y (Bool.not_eq_true _ ▸ hdrained))
  case handles =>
    intro y hy
    rw [Family.new] at hy ⊢
    dsimp only at hy ⊢
    split
    next h =>
      rw [if_pos h] at hy
      cases hy
    · rfl
  case tracker_lt =>
    intro y hy
    rw [hzero y hy]
    exact Nat.zero_lt_one
  case oldest =>
    rintro y ⟨hy, -⟩
    rw [hzero y hy]
    rfl
  case children => exact fun y _ => hchildren y
  case buffered => exact fun d hd => absurd hd List.not_mem_nil
  all_goals simp [hchildren, hparent]

theorem Linked.startDrop (h : f.Linked) (hlock : f.dropping = none)
    (hdrained : (f.inner x).drained = false) (hzero : f.strongCount x = 0) :
    (f.startDrop x).Linked := by
  refine h.drain (h.top_of_strongCount hdrained hzero) ?_ fun d hd => ?_
  · rw [strongCount] at hzero
    omega
  · simp only [buffered, List.append_nil, List.mem_append] at hd
    rw [buffered, hlock, List.nil_append]
    exact hd.symm

theorem Linked.popDescendant (h : f.Linked) {rest processed : List ℕ}
    (hdropping : f.dropping = some (rest ++ [d], processed)) :
    (f.popDescendant rest processed d).Linked := by
  have hbuffered : f.buffered = rest ++ [d] ++ processed ++ f.freeing := by
    rw [buffered, hdropping]
  have hd : d ∈ f.buffered := by
    rw [hbuffered]
    simp
  obtain ⟨p, hp, hpd⟩ := h.buffered d hd
  rw [Family.popDescendant]
  split
  next hone =>
    have hcount : 0 < f.buffered.count d := List.count_pos_iff.mpr hd
    have hhandles : (f.inner d).handles = 0 := by
      rw [strongCount] at hone
      omega
    by_cases hdrained : (f.inner d).drained = true
    · -- it was taken apart before
      have hchildren := h.children d hdrained
      have hsame : { f.inner d with children := [], drained := true } = f.inner d := by
        rw [← hchildren, ← hdrained]
      rw [drainChildrenForDrop, hsame, hchildren, List.foldl_nil, List.append_nil]
      refine h.frame (fun y => ?_) (fun y hy => ?_) rfl rfl rfl fun a ha => ?_
      · simp only [setInner, Function.update_eq_self]
      · simp only [setInner, Function.update_eq_self]
        exact h.handles y hy
      · rw [hbuffered]
        simp only [buffered, setInner, List.mem_append] at ha ⊢
        tauto
    · have htop : f.Top d := by
        refine ⟨Bool.not_eq_true _ ▸ hdrained, fun q hq => ?_⟩
        rw [hp] at hq
        cases hq
        exact hpd
      refine h.drain htop hhandles fun a ha => ?_
      rw [hbuffered]
      simp only [buffered, List.mem_append] at ha ⊢
      tauto
  · refine h.frame (fun _ => rfl) h.handles rfl rfl rfl fun a ha => ?_
    rw [hbuffered]
    simp only [buffered, List.mem_append] at ha ⊢
    tauto

theorem Linked.answer_drained (h : f.Linked) {a ret : ℕ} (htop : f.Top a)
    (hret : f.answer a = some ret) : (f.inner ret).drained = false ∧ 0 < f.strongCount ret := by
  rw [answer] at hret
  split at hret
  next hlive =>
    cases hret
    exact ⟨htop.drained, hlive⟩
  · have hmem := List.mem_of_mem_head? hret
    exact ⟨h.child_drained hmem, h.strongCount_pos hmem⟩

theorem Step.linked (hstep : Step f g) (h : f.Linked) : g.Linked := by
  cases hstep with
  | clone x hx => exact h.setHandles (h.drained_of_handles hx) _
  | dropHandle x hx => exact h.setHandles (h.drained_of_handles hx) _
  | spawn x hlock hx => exact h.spawn hx
  | getOldestAncestor x ret hlock hx hret =>
    obtain ⟨a, ret', htop, -, hget, hanswer⟩ := h.getOldestAncestor hx
    rw [hret] at hget
    cases hget
    exact h.setHandles (h.answer_drained htop hanswer).1 _
  | startDrop x hlock hdrained hzero => exact h.startDrop hlock hdrained hzero
  | popDescendant rest processed d hdropping => exact h.popDescendant hdropping
  | endDrop processed hdropping =>
    refine h.frame (fun _ => rfl) h.handles rfl rfl rfl fun a ha => ?_
    rw [buffered, hdropping]
    simp only [buffered, List.mem_append] at ha ⊢
    tauto
  | free d hd =>
    refine h.frame (fun _ => rfl) h.handles rfl rfl rfl fun a ha => ?_
    rw [buffered, List.mem_append] at ha ⊢
    exact ha.imp_right List.mem_of_mem_erase

theorem Reachable.linked (h : f.Reachable) : f.Linked := by
  induction h with
  | refl => exact linked_new
  | tail _ hstep ih => exact hstep.linked ih

/-! ## The answer -/

/-- Of the ancestors of a tree, only one is not taken apart and has nothing above. -/
theorem Shape.top_unique (h : f.Shape) {a b : ℕ} (ha : f.Top a) (hb : f.Top b)
    (hax : f.AncestorOrSelf a x) (hbx : f.AncestorOrSelf b x) : a = b := by
  have hbelow : ∀ {a b}, f.Top a → f.Top b → f.AncestorOrSelf a b → a = b := by
    intro a b ha hb hab
    -- what is above a top tree is taken apart
    have habove : b = a ∨ (f.inner a).drained = true := by
      clear ha
      induction hab with
      | refl => exact Or.inl rfl
      | tail _ hp ih =>
        obtain rfl | hdrained := ih
        · exact Or.inr (hb.above _ hp)
        · exact Or.inr (h.above _ _ hdrained hp)
    obtain rfl | hdrained := habove
    · rfl
    · rw [ha.drained] at hdrained
      cases hdrained
  have hunique : Relator.RightUnique fun c p => (f.inner c).parent = some p := by
    intro c p q hp hq
    rw [hp] at hq
    exact Option.some.inj hq
  obtain hab | hba := hax.total_of_right_unique hunique hbx
  · exact (hbelow hb ha hab).symm
  · exact hbelow ha hb hba

/-- The search always finds a live tree. It is an ancestor or the tree itself, with a parent that
nothing refers to, exactly if the tree is below the first child of an ancestor that is about to be
dropped, and the references that drops still hold are not to the parent of the oldest one. -/
theorem oldest_ancestor_found (h : f.Reachable) (hlock : f.dropping = none)
    (hx : 0 < (f.inner x).handles) :
    ∃ ret, f.getOldestAncestor x = some ret ∧ 0 < f.strongCount ret ∧
      ((f.AncestorOrSelf ret x ∧
          ∀ p, (f.inner ret).parent = some p → f.strongCount p = 0) ↔
        (∀ a, f.AncestorOrSelf a x → (f.inner a).drained = false → f.strongCount a = 0 →
          ∃ c, (f.inner a).children.head? = some c ∧ f.AncestorOrSelf c x) ∧
        ∀ a p, f.AncestorOrSelf a x → (f.inner a).drained = false → 0 < f.strongCount a →
          (f.inner a).parent = some p → (f.inner p).drained = true → p ∉ f.freeing) := by
  have hlinked := h.linked
  obtain ⟨a, ret, htop, hancestor, hget, hanswer⟩ := hlinked.getOldestAncestor hx
  refine ⟨ret, hget, (hlinked.answer_drained htop hanswer).2, ?_⟩
  have hunique : ∀ b, f.AncestorOrSelf b x → f.Top b → b = a :=
    fun b hbx hb => hlinked.top_unique hb htop hbx hancestor
  have hpending : ∀ b, f.AncestorOrSelf b x → (f.inner b).drained = false →
      f.strongCount b = 0 → b = a :=
    fun b hbx hb hzero => hunique b hbx (hlinked.top_of_strongCount hb hzero)
  have htop_of : ∀ {b p}, (f.inner b).drained = false → (f.inner b).parent = some p →
      (f.inner p).drained = true → f.Top b := by
    intro b p hb hp hpd
    refine ⟨hb, fun q hq => ?_⟩
    rw [hp] at hq
    cases hq
    exact hpd
  have hbuffered : f.buffered = f.freeing := by
    rw [buffered, hlock, List.nil_append]
  rw [answer] at hanswer
  split at hanswer
  next hlive =>
    cases hanswer
    -- what is left above is only held by drops
    have hcount : ∀ p, (f.inner a).parent = some p →
        (f.strongCount p = 0 ↔ p ∉ f.freeing) := by
      intro p hp
      rw [hlinked.strongCount_drained (htop.above p hp), hbuffered, List.count_eq_zero]
    constructor
    · rintro ⟨-, hparent⟩
      refine ⟨fun b hbx hb hzero => ?_, fun b p hbx hb hpos hp hpd => ?_⟩
      · rw [hpending b hbx hb hzero] at hzero
        omega
      · obtain rfl := hunique b hbx (htop_of hb hp hpd)
        exact (hcount p hp).mp (hparent p hp)
    · rintro ⟨-, hfreed⟩
      refine ⟨hancestor, fun p hp => (hcount p hp).mpr ?_⟩
      exact hfreed a p hancestor htop.drained hlive hp (htop.above p hp)
  next hzero =>
    have hzero : f.strongCount a = 0 := Nat.eq_zero_of_not_pos hzero
    have hmem := List.mem_of_mem_head? hanswer
    constructor
    · rintro ⟨hbelow, -⟩
      refine ⟨fun b hbx hb hbzero => ?_, fun b p hbx hb hpos hp hpd => ?_⟩
      · obtain rfl := hpending b hbx hb hbzero
        exact ⟨ret, hanswer, hbelow⟩
      · rw [hunique b hbx (htop_of hb hp hpd)] at hpos
        omega
    · rintro ⟨hfirst, -⟩
      obtain ⟨c, hc, hcx⟩ := hfirst a hancestor htop.drained hzero
      rw [hanswer] at hc
      cases hc
      refine ⟨hcx, fun p hp => ?_⟩
      rw [hlinked.child a ret hmem] at hp
      cases hp
      exact hzero

/-- Two trees are spawned from the first one, and then its last handle is dropped. -/
def forked : Family := ((new.spawn 0).spawn 0).setHandles 0 0

theorem reachable_forked : forked.Reachable :=
  ((Relation.ReflTransGen.refl.tail (.spawn new 0 rfl Nat.zero_lt_one)).tail
    (.spawn _ 0 rfl Nat.zero_lt_one)).tail (.dropHandle _ 0 Nat.zero_lt_one)

/-- The first child is found while its parent is about to be dropped. -/
theorem oldest_ancestor_found_first : forked.strongCount 0 = 0 ∧
    ∃ ret, forked.getOldestAncestor 1 = some ret ∧ 0 < forked.strongCount ret := by
  obtain ⟨ret, hget, hlive, -⟩ := oldest_ancestor_found (x := 1) reachable_forked rfl (by decide)
  exact ⟨by decide, ret, hget, hlive⟩

/-- For the second child the first one is found. -/
theorem oldest_ancestor_found_fails : ∃ f : Family, f.Reachable ∧ f.dropping = none ∧
    ∃ x ret, 0 < (f.inner x).handles ∧ f.getOldestAncestor x = some ret ∧
      ¬ f.AncestorOrSelf ret x := by
  refine ⟨forked, reachable_forked, rfl, 2, 1, by decide, by decide, fun hancestor => ?_⟩
  have hparent : ∀ y, forked.AncestorOrSelf y 2 → y = 2 ∨ y = 0 := by
    intro y hy
    induction hy with
    | refl => exact Or.inl rfl
    | tail _ hp ih =>
      obtain rfl | rfl := ih
      · exact Or.inr (Option.some.inj hp).symm
      · cases hp
  obtain h | h := hparent 1 hancestor <;> cases h

end Anthemius.Scratchpad.Family
