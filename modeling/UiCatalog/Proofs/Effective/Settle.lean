import Mathlib.Data.List.Nodup
import UiCatalog.Effective
/-!
# Settling attributes

Attributes are settled one after the other, so settling a list in two parts is settling it at once.
Nothing is surplus if and only if no name occurs twice.
-/

namespace UiCatalog.Effective

theorem settle_append (standing l l' : List Declared) :
    settle standing (l ++ l') =
      ((settle (settle standing l).1 l').1,
        (settle standing l).2 ++ (settle (settle standing l).1 l').2) := by
  induction l generalizing standing with
  | nil => rfl
  | cons a l ih =>
    rw [List.cons_append, settle, settle]
    cases standing.find? (·.content.name == a.content.name) with
    | some first => simp only [ih, List.cons_append]
    | none => simp only [ih]

def names (l : List Declared) : List String :=
  l.map (·.content.name)

theorem find?_eq_none_iff {standing : List Declared} {name : String} :
    standing.find? (·.content.name == name) = none ↔ name ∉ names standing := by
  simp [names]

private theorem settle_surplus_eq_nil_iff {standing l : List Declared}
    (hstanding : (names standing).Nodup) :
    (settle standing l).2 = [] ↔ (names (standing ++ l)).Nodup := by
  induction l generalizing standing with
  | nil => simpa [settle] using hstanding
  | cons a l ih =>
    rw [settle]
    cases hfind : standing.find? (·.content.name == a.content.name) with
    | some first =>
      have hmem : a.content.name ∈ names standing := by
        by_contra hnot
        rw [find?_eq_none_iff.mpr hnot] at hfind
        simp at hfind
      simp only [reduceCtorEq, names, List.map_append, List.map_cons, false_iff]
      exact fun hnodup => (List.disjoint_of_nodup_append hnodup) hmem List.mem_cons_self
    | none =>
      have hnot := find?_eq_none_iff.mp hfind
      have hnodup : (names (standing ++ [a])).Nodup := by
        rw [names, List.map_append]
        exact List.Nodup.append hstanding (List.nodup_singleton _)
          (List.disjoint_singleton.mpr hnot)
      rw [ih hnodup, List.append_assoc, List.singleton_append]

private theorem settle_nil_surplus_eq_nil_iff {l : List Declared} :
    (settle [] l).2 = [] ↔ (names l).Nodup := by
  have hnil : (names []).Nodup := List.nodup_nil
  exact settle_surplus_eq_nil_iff hnil

private theorem mem_of_mem_settle_surplus {standing l : List Declared} {q : Declared × Declared}
    (hq : q ∈ (settle standing l).2) : q.1 ∈ l := by
  induction l generalizing standing with
  | nil => simp [settle] at hq
  | cons a l ih =>
    rw [settle] at hq
    cases hfind : standing.find? (·.content.name == a.content.name) with
    | some first =>
      rw [hfind] at hq
      rcases List.mem_cons.mp hq with rfl | hq
      · exact List.mem_cons_self
      · exact List.mem_cons_of_mem a (ih hq)
    | none =>
      rw [hfind] at hq
      exact List.mem_cons_of_mem a (ih hq)

theorem forall_mem_settle {P : Declared → Prop} {standing l : List Declared}
    (hstanding : ∀ a ∈ standing, P a) (hl : ∀ a ∈ l, P a) :
    (∀ a ∈ (settle standing l).1, P a) ∧ ∀ q ∈ (settle standing l).2, P q.1 ∧ P q.2 := by
  induction l generalizing standing with
  | nil => exact ⟨hstanding, by simp [settle]⟩
  | cons a l ih =>
    obtain ⟨ha, hl⟩ := List.forall_mem_cons.mp hl
    rw [settle]
    cases hfind : standing.find? (·.content.name == a.content.name) with
    | some first =>
      obtain ⟨hstand, hsurplus⟩ := ih hstanding hl
      refine ⟨hstand, List.forall_mem_cons.mpr ⟨⟨ha, ?_⟩, hsurplus⟩⟩
      exact hstanding first (List.mem_of_find?_eq_some hfind)
    | none =>
      apply ih _ hl
      intro b hb
      rcases List.mem_append.mp hb with hb | hb
      · exact hstanding b hb
      · exact List.mem_singleton.mp hb ▸ ha

variable {r : Registry}

theorem owner_of_mem_declared {h : Handle} {a : Declared} (ha : a ∈ declared r h) :
    a.owner = h := by
  obtain ⟨_, _, rfl⟩ := List.mem_map.mp ha
  rfl

theorem names_declared {h : Handle} {d : Definition} (hd : r.get? h = some d) :
    names (declared r h) = d.attributes.map Attribute.name := by
  have hplaces : d.attributes.zipIdx.map (Attribute.name ∘ Prod.fst) =
      d.attributes.map Attribute.name := by
    rw [← List.map_map, List.zipIdx_map_fst]
  rw [names, declared, hd, List.map_map]
  exact hplaces

/-- If nothing is wrong with the attributes above a type, then what is wrong with its own ones is
all that is left over. -/
theorem ofChain_problems_eq_nil_iff {h : Handle} {chain : List Handle}
    (habove : (names (chain.reverse.flatMap (declared r))).Nodup) :
    (ofChain r (h :: chain)).2 = [] ↔
      (names ((h :: chain).reverse.flatMap (declared r))).Nodup := by
  have hall : (settle [] ((h :: chain).reverse.flatMap (declared r))).2 =
      (settle (settle [] (chain.reverse.flatMap (declared r))).1 (declared r h)).2 := by
    have hnone : (settle [] (chain.reverse.flatMap (declared r))).2 = [] :=
      settle_nil_surplus_eq_nil_iff.mpr habove
    rw [List.reverse_cons, List.flatMap_append, settle_append, hnone]
    simp
  have hown : ∀ q ∈ (settle [] ((h :: chain).reverse.flatMap (declared r))).2,
      ((h :: chain).head? == some q.1.owner) = true := by
    intro q hq
    rw [hall] at hq
    rw [owner_of_mem_declared (mem_of_mem_settle_surplus hq)]
    simp
  have hproblems : (ofChain r (h :: chain)).2 = [] ↔
      (settle [] ((h :: chain).reverse.flatMap (declared r))).2 = [] := by
    unfold ofChain
    dsimp only
    rw [List.map_eq_nil_iff, List.filter_eq_self.mpr hown]
  rw [hproblems, settle_nil_surplus_eq_nil_iff]

end UiCatalog.Effective
