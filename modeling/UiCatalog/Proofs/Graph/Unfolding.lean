import Mathlib.Data.List.Chain
import Mathlib.Data.List.Nodup
import Mathlib.Logic.Relation
import Mathlib.Order.WellFoundedSet
import UiCatalog.Graph.Unfolding
/-!
# What a tree lists

The listing of a tree is the recursive pre-order of its nodes. Where no node stands below itself, a
way down meets no node twice, so it is shorter than the number of nodes and the limit on the depth
cuts nothing off: a tree lists exactly what stands below its root. Upwards, every way ends at a node
that stands below nothing.
-/

namespace UiCatalog.Graph

open Relation

/-- The nodes of a tree with their depths, in pre-order, if the tree is cut off `height` levels
further down. -/
def outline (children : Nat → List Nat) : Nat → Nat → Nat → List (Nat × Nat)
  | 0, depth, v => [(v, depth)]
  | height + 1, depth, v =>
    (v, depth) :: (children v).flatMap (outline children height (depth + 1))

def TreeEntry.mark (e : TreeEntry) : Nat × Nat :=
  (e.node, e.depth)

private theorem addEntry_marks (listing : Array TreeEntry) (w : Waiting) :
    (addEntry listing w).toList.map TreeEntry.mark =
      listing.toList.map TreeEntry.mark ++ [(w.node, w.depth)] := by
  have hmodify (parent place : Nat) :
      (listing.modify parent fun entry =>
        { entry with children := entry.children ++ [place] }).toList.map TreeEntry.mark =
      listing.toList.map TreeEntry.mark := by
    rw [Array.toList_modify]
    apply List.ext_getElem?
    intro i
    rw [List.getElem?_map, List.getElem?_map, List.getElem?_modify]
    cases listing.toList[i]? with
    | none => rfl
    | some entry => by_cases hi : parent = i <;> simp [hi, TreeEntry.mark]
  obtain ⟨node, depth, parent⟩ := w
  cases parent with
  | none => simp [addEntry, TreeEntry.mark]
  | some parent =>
    simp only [addEntry, Array.toList_push, List.map_append, hmodify]
    rfl

private theorem waitingBelow_outline (children : Nat → List Nat) (limit place : Nat) (w : Waiting) :
    (w.node, w.depth) :: (waitingBelow children limit place w).flatMap (fun below =>
        outline children (limit - below.depth) below.depth below.node) =
      outline children (limit - w.depth) w.depth w.node := by
  by_cases hdepth : w.depth < limit
  · obtain ⟨height, hheight⟩ : ∃ height, limit - w.depth = height + 1 :=
      ⟨limit - w.depth - 1, by omega⟩
    have hbelow : limit - (w.depth + 1) = height := by omega
    simp only [waitingBelow, if_pos hdepth, List.flatMap_map, hbelow, hheight, outline]
  · have hheight : limit - w.depth = 0 := by omega
    simp only [waitingBelow, if_neg hdepth, List.flatMap_nil, hheight, outline]

/-- The listing goes on with the pre-order of everything that waits. -/
private theorem unfoldFrom_marks (children : Nat → List Nat) (limit : Nat)
    (listing : Array TreeEntry) (waiting : List Waiting) :
    (unfoldFrom children limit listing waiting).toList.map TreeEntry.mark =
      listing.toList.map TreeEntry.mark ++
        waiting.flatMap fun w => outline children (limit - w.depth) w.depth w.node := by
  fun_induction unfoldFrom children limit listing waiting with
  | case1 listing => simp
  | case2 listing w waiting below ih =>
    rw [ih, addEntry_marks, List.flatMap_append, List.flatMap_cons,
      ← waitingBelow_outline children limit listing.size w]
    simp only [below, List.append_assoc, List.cons_append, List.nil_append]

private theorem unfold_marks (children : Nat → List Nat) (limit v : Nat) :
    (unfold children limit v).toList.map TreeEntry.mark = outline children limit 0 v := by
  have hmarks := unfoldFrom_marks children limit #[] [⟨v, 0, none⟩]
  simpa [unfold] using hmarks

/-- `v` stands directly below `u`. -/
def Below (children : Nat → List Nat) (u v : Nat) : Prop :=
  v ∈ children u

section

variable {children : Nat → List Nat}

private theorem mem_outline {height depth v u d : Nat}
    (h : (u, d) ∈ outline children height depth v) :
    u = v ∧ d = depth ∨ depth < d ∧ TransGen (Below children) v u := by
  induction height generalizing depth v with
  | zero =>
    simp only [outline, List.mem_singleton, Prod.mk.injEq] at h
    exact Or.inl h
  | succ height ih =>
    rw [outline, List.mem_cons, Prod.mk.injEq, List.mem_flatMap] at h
    rcases h with hroot | ⟨c, hc, hbelow⟩
    · exact Or.inl hroot
    · right
      rcases ih hbelow with ⟨rfl, rfl⟩ | ⟨hdepth, hway⟩
      · exact ⟨by omega, TransGen.single hc⟩
      · exact ⟨by omega, TransGen.head hc hway⟩

private theorem mem_outline_of_chain {height depth v u : Nat} {way : List Nat}
    (hway : (v :: way).IsChain (Below children)) (hlast : (v :: way).getLast? = some u)
    (hlength : way.length ≤ height) :
    (u, depth + way.length) ∈ outline children height depth v := by
  induction way generalizing height depth v with
  | nil =>
    obtain rfl : v = u := by simpa using hlast
    cases height <;> simp [outline]
  | cons c way ih =>
    obtain ⟨hc, hrest⟩ := List.isChain_cons_cons.mp hway
    cases height with
    | zero => simp at hlength
    | succ height =>
      have hend : (c :: way).getLast? = some u := by simpa using hlast
      have hlisted : (u, depth + 1 + way.length) ∈ outline children height (depth + 1) c :=
        ih hrest hend (Nat.le_of_succ_le_succ hlength)
      have hdepth : depth + (c :: way).length = depth + 1 + way.length := by
        rw [List.length_cons]
        omega
      rw [hdepth, outline]
      exact List.mem_cons_of_mem _ (List.mem_flatMap.mpr ⟨c, hc, hlisted⟩)

variable (hacyclic : ∀ v, ¬TransGen (Below children) v v)

include hacyclic in
private theorem nodup_of_chain {way : List Nat} (hway : way.IsChain (Below children)) :
    way.Nodup := by
  have hchain : way.IsChain (TransGen (Below children)) := hway.imp fun _ _ => TransGen.single
  have hpairwise := List.isChain_iff_pairwise.mp hchain
  apply hpairwise.imp
  intro u v hbelow heq
  exact hacyclic u (heq ▸ hbelow)

variable {size : Nat} (hsize : ∀ u, ∀ v ∈ children u, v < size)

include hacyclic hsize in
theorem length_lt_of_chain {v : Nat} {way : List Nat} (hv : v < size)
    (hway : (v :: way).IsChain (Below children)) : way.length < size := by
  have hnodes : ∀ u ∈ v :: way, u < size := by
    induction way generalizing v with
    | nil => simpa using hv
    | cons c way ih =>
      obtain ⟨hc, hrest⟩ := List.isChain_cons_cons.mp hway
      exact List.forall_mem_cons.mpr ⟨hv, ih (hsize v c hc) hrest⟩
  have hsubset : v :: way ⊆ List.range size := fun u hu => List.mem_range.mpr (hnodes u hu)
  have hle := (List.subperm_of_subset (nodup_of_chain hacyclic hway) hsubset).length_le
  rw [List.length_range, List.length_cons] at hle
  omega

include hacyclic hsize in
private theorem mem_outline_of_reaches {v u : Nat} (hv : v < size)
    (hreach : ReflTransGen (Below children) v u) : ∃ d, (u, d) ∈ outline children size 0 v := by
  obtain ⟨way, hway, hlast⟩ := List.exists_isChain_cons_of_relationReflTransGen hreach
  have hlength := length_lt_of_chain hacyclic hsize hv hway
  have hend : (v :: way).getLast? = some u := by
    rw [List.getLast?_eq_some_getLast (List.cons_ne_nil v way), hlast]
  exact ⟨_, mem_outline_of_chain hway hend hlength.le⟩

private theorem exists_entry_iff (children : Nat → List Nat) (limit : Nat) {v : Nat}
    {P : Nat → Nat → Prop} : (∃ e ∈ unfold children limit v, P e.node e.depth) ↔
      ∃ u d, (u, d) ∈ outline children limit 0 v ∧ P u d := by
  rw [← unfold_marks]
  simp only [List.mem_map, Array.mem_toList_iff, TreeEntry.mark, Prod.mk.injEq]
  constructor
  · rintro ⟨e, he, hP⟩
    exact ⟨_, _, ⟨e, he, rfl, rfl⟩, hP⟩
  · rintro ⟨_, _, ⟨e, he, rfl, rfl⟩, hP⟩
    exact ⟨e, he, hP⟩

include hacyclic hsize in
/-- A tree lists its root and what stands below it. -/
theorem exists_entry_node_iff {v u : Nat} (hv : v < size) :
    (∃ e ∈ unfold children size v, e.node = u) ↔ ReflTransGen (Below children) v u := by
  rw [exists_entry_iff children size (P := fun node _ => node = u)]
  constructor
  · rintro ⟨_, d, hmem, rfl⟩
    rcases mem_outline hmem with ⟨rfl, _⟩ | ⟨_, hway⟩
    · exact ReflTransGen.refl
    · exact hway.to_reflTransGen
  · intro hreach
    obtain ⟨d, hmem⟩ := mem_outline_of_reaches hacyclic hsize hv hreach
    exact ⟨u, d, hmem, rfl⟩

include hacyclic hsize in
/-- What a tree lists at a depth is what stands below its root. -/
theorem exists_entry_depth_iff {v u : Nat} (hv : v < size) :
    (∃ e ∈ unfold children size v, 1 ≤ e.depth ∧ e.node = u) ↔ TransGen (Below children) v u := by
  rw [exists_entry_iff children size (P := fun node depth => 1 ≤ depth ∧ node = u)]
  constructor
  · rintro ⟨_, d, hmem, hdepth, rfl⟩
    rcases mem_outline hmem with ⟨_, rfl⟩ | ⟨_, hway⟩
    · omega
    · exact hway
  · intro hway
    obtain ⟨d, hmem⟩ := mem_outline_of_reaches hacyclic hsize hv hway.to_reflTransGen
    rcases mem_outline hmem with ⟨rfl, _⟩ | ⟨hdepth, _⟩
    · exact absurd hway (hacyclic u)
    · exact ⟨u, d, hmem, hdepth, rfl⟩

include hacyclic in
theorem exists_top {v : Nat} (hv : v < size) (hparents : ∀ u c, Below children u c → u < size) :
    ∃ top, ReflTransGen (Below children) top v ∧ ∀ u, ¬Below children u top := by
  have : IsStrictOrder Nat (TransGen (Below children)) :=
    { irrefl := hacyclic
      trans := fun _ _ _ => TransGen.trans }
  have hwf : (Set.Iio size).WellFoundedOn (TransGen (Below children)) :=
    (Set.finite_Iio size).wellFoundedOn
  apply hwf.induction hv
  intro v hv ih
  by_cases htop : ∃ u, Below children u v
  · obtain ⟨u, hu⟩ := htop
    obtain ⟨top, hreach, hnone⟩ := ih u (hparents u v hu) (TransGen.single hu)
    exact ⟨top, hreach.tail hu, hnone⟩
  · exact ⟨v, ReflTransGen.refl, fun u hu => htop ⟨u, hu⟩⟩

end

end UiCatalog.Graph
