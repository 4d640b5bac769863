import UiCatalog.Graph.Basic
/-!
# Strongly connected components

One depth-first pass finds the components. A node that is reached gets the next number and is put on
a stack, and it learns the lowest number of a node on the stack that it can go back to. A node that
cannot go back behind itself was the first one of its component to be reached, and its component is
what is on the stack from there on.
-/

namespace UiCatalog.Graph

/-- A node whose links are being followed, and how many of them have been. -/
structure Call where
  node : Nat
  next : Nat

/-- A pass through a graph. -/
structure Pass (g : Graph) where
  /-- The number of each node that has been reached. -/
  index : Vector (Option Nat) g.size
  /-- The lowest number that is known to be on the way back from a node. -/
  lowlink : Vector Nat g.size
  onStack : Vector Bool g.size
  /-- The nodes on the current way, the last one first. -/
  calls : List Call
  /-- The nodes that have been reached and are in no component yet, the latest first. -/
  stack : List Nat
  counter : Nat
  /-- The components, the latest first. -/
  found : List (List Nat)

/-- How much work nodes will make that have not been reached. -/
def freshWork (g : Graph) (fresh : List Nat) : Nat :=
  total (fresh.map fun v => (g.targets v).length + 2)

theorem freshWork_erase (g : Graph) {v : Nat} {fresh : List Nat} (h : v ∈ fresh) :
    freshWork g (fresh.erase v) + ((g.targets v).length + 2) = freshWork g fresh := by
  induction fresh with
  | nil => simp at h
  | cons u us ih =>
    by_cases hu : u = v
    · subst hu
      simp only [freshWork, List.erase_cons_head, List.map_cons, total]
      omega
    · have hv : v ∈ us := by simpa [Ne.symm hu] using h
      have hne : (u == v) = false := by simpa using hu
      have := ih hv
      simp only [freshWork, List.erase_cons, hne, Bool.false_eq_true, if_false, List.map_cons,
        total] at this ⊢
      omega

def cut (v : Nat) : List Nat → List Nat × List Nat
  | [] => ([], [])
  | w :: stack => if w = v then ([w], stack) else (w :: (cut v stack).1, (cut v stack).2)

namespace Pass

variable {g : Graph}

def start (g : Graph) : Pass g :=
  { index := Vector.replicate g.size none
    lowlink := Vector.replicate g.size 0
    onStack := Vector.replicate g.size false
    calls := []
    stack := []
    counter := 0
    found := [] }

def fresh (s : Pass g) : List Nat :=
  g.nodes.filter (s.index[·]? = some none)

def low (s : Pass g) (v : Nat) : Nat :=
  (s.lowlink[v]?).getD 0

def enter (s : Pass g) (v : Nat) : Pass g :=
  { s with
    index := s.index.setIfInBounds v (some s.counter)
    lowlink := s.lowlink.setIfInBounds v s.counter
    onStack := s.onStack.setIfInBounds v true
    calls := ⟨v, 0⟩ :: s.calls
    stack := v :: s.stack
    counter := s.counter + 1 }

/-- The pass when it is known that there is a way back from `v` to the number `n`. -/
def lower (s : Pass g) (v n : Nat) : Pass g :=
  { s with lowlink := s.lowlink.setIfInBounds v (min (s.low v) n) }

def follow (s : Pass g) (v w : Nat) : Pass g :=
  match s.index[w]? with
  | some none => s.enter w
  | some (some index) => if s.onStack[w]? = some true then s.lower v index else s
  | none => s

/-- The pass when all that is on the stack down to `v` is a component. -/
def complete (s : Pass g) (v : Nat) : Pass g :=
  let (members, rest) := cut v s.stack
  { s with
    onStack := members.foldl (fun onStack w => onStack.setIfInBounds w false) s.onStack
    stack := rest
    found := members :: s.found }

/-- The pass when the innermost call is told what is known of `v`, which it has come back from. -/
def tell (s : Pass g) (v : Nat) : Pass g :=
  match s.calls with
  | [] => s
  | outer :: _ => s.lower outer.node (s.low v)

def leave (s : Pass g) (v : Nat) : Pass g :=
  let s := s.tell v
  if s.index[v]? = some (some (s.low v)) then s.complete v else s

def work (s : Pass g) : Nat :=
  freshWork g s.fresh + total (s.calls.map fun c => (g.targets c.node).length - c.next + 1)

theorem fresh_enter (s : Pass g) (v : Nat) : (s.enter v).fresh = s.fresh.erase v := by
  have hnodup : s.fresh.Nodup := List.nodup_range.filter _
  rw [hnodup.erase_eq_filter, fresh, fresh, List.filter_filter]
  refine List.filter_congr fun u _ => ?_
  rw [Bool.eq_iff_iff]
  simp only [enter, Vector.getElem?_setIfInBounds]
  by_cases hu : v = u
  · simp [hu]
  · simp [hu, Ne.symm hu]

theorem mem_fresh_iff {s : Pass g} {v : Nat} : v ∈ s.fresh ↔ s.index[v]? = some none := by
  simp only [fresh, nodes, List.mem_filter, List.mem_range, decide_eq_true_eq]
  exact ⟨And.right, fun hv => ⟨(Vector.getElem?_eq_some_iff.mp hv).1, hv⟩⟩

private theorem work_enter (s : Pass g) {v : Nat} (hv : s.index[v]? = some none) :
    (s.enter v).work < s.work := by
  have hfresh := freshWork_erase g (mem_fresh_iff.mpr hv)
  rw [work, fresh_enter]
  simp only [work, enter, List.map_cons, total]
  omega

private theorem work_follow (s : Pass g) (v w : Nat) : (s.follow v w).work ≤ s.work := by
  unfold follow
  split
  · rename_i hw
    exact Nat.le_of_lt (s.work_enter hw)
  · split <;> exact Nat.le_refl _
  · exact Nat.le_refl _

private theorem work_tell (s : Pass g) (v : Nat) : (s.tell v).work = s.work := by
  unfold tell
  split <;> rfl

private theorem work_leave (s : Pass g) (v : Nat) : (s.leave v).work = s.work := by
  rw [← work_tell s v, leave]
  split <;> rfl

def run (s : Pass g) : Pass g :=
  match _h : s.calls with
  | [] => s
  | ⟨v, next⟩ :: calls =>
    match _hw : (g.targets v)[next]? with
    | some w => run ({ s with calls := ⟨v, next + 1⟩ :: calls }.follow v w)
    | none => run ({ s with calls := calls }.leave v)
termination_by s.work
decreasing_by
  · refine Nat.lt_of_le_of_lt (work_follow _ v w) ?_
    obtain ⟨hnext, _⟩ := List.getElem?_eq_some_iff.mp ‹_›
    simp only [work, fresh, ‹s.calls = _›, List.map_cons, total]
    omega
  · rw [work_leave]
    simp only [work, fresh, ‹s.calls = _›, List.map_cons, total]
    omega

def visit (s : Pass g) (v : Nat) : Pass g :=
  if s.index[v]? = some none then (s.enter v).run else s

end Pass

def pass (g : Graph) : Pass g :=
  g.nodes.foldl Pass.visit (Pass.start g)

/-- The strongly connected components of a graph, the latest first. -/
def stronglyConnected (g : Graph) : List (List Nat) :=
  g.pass.found

/-- The strongly connected components of a graph, each with its nodes in ascending order. -/
def components (g : Graph) : List (List Nat) :=
  g.stronglyConnected.map fun members => g.nodes.filter (· ∈ members)

/-- Whether a component contains a cycle: it has two nodes, or one that links to itself. -/
def hasCycle (g : Graph) (component : List Nat) : Bool :=
  match component with
  | [] => false
  | [v] => v ∈ g.targets v
  | _ :: _ :: _ => true

/-- The components that contain a cycle, in the order of their lowest nodes. -/
def cyclicComponents (g : Graph) : List (List Nat) :=
  let cyclic := g.components.filter g.hasCycle
  g.nodes.filterMap fun v => cyclic.find? (·.head? == some v)

end UiCatalog.Graph
