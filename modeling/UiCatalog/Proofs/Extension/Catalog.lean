import UiCatalog.Proofs.Extension.Ancestry
import UiCatalog.Proofs.Extension.Navigation
/-!
# A catalog with one more entity

The entity of an unknown definition comes last and leaves the others as they are. Problems are filed
under the definitions that they are problems of, and those of the others stay, in their order.
-/

namespace UiCatalog

private theorem exists_eq_append_singleton {α : Type} {l l' : List α}
    (hlength : l'.length = l.length + 1) (hget : ∀ i, i ≠ l.length → l'[i]? = l[i]?) :
    ∃ a, l' = l ++ [a] := by
  have hlt : l.length < l'.length := by omega
  refine ⟨l'[l.length], List.ext_getElem? fun i => ?_⟩
  by_cases hi : i = l.length
  · subst hi
    rw [List.getElem?_concat_length, List.getElem?_eq_getElem hlt]
  · rw [hget i hi]
    rcases Nat.lt_or_gt_of_ne hi with hless | hmore
    · rw [List.getElem?_append_left hless]
    · rw [List.getElem?_eq_none (Nat.le_of_lt hmore), List.getElem?_eq_none]
      rw [List.length_append, List.length_singleton]
      omega

/-- Lists of problems, each filed under its place. -/
def filed (pss : List (List Problem)) : List (Handle × Problem) :=
  pss.zipIdx.flatMap fun (ps, h) => ps.map (h, ·)

private theorem lt_of_mem_filed {pss : List (List Problem)} {q : Handle × Problem}
    (hq : q ∈ filed pss) : q.1 < pss.length := by
  obtain ⟨⟨ps, h⟩, hps, hq⟩ := List.mem_flatMap.mp hq
  obtain ⟨p, _, rfl⟩ := List.mem_map.mp hq
  exact (List.getElem?_eq_some_iff.mp (List.mk_mem_zipIdx_iff_getElem?.mp hps)).1

private theorem filed_append_singleton (pss : List (List Problem)) (ps : List Problem) :
    filed (pss ++ [ps]) = filed pss ++ ps.map (pss.length, ·) := by
  simp [filed, List.zipIdx_append]

theorem filed_filter_eq (pss : List (List Problem)) (h : Handle) :
    ((filed pss).filter (·.1 = h)).map Prod.snd = (pss[h]?).getD [] := by
  induction pss using List.reverseRecOn with
  | nil => rfl
  | append_singleton pss ps ih =>
    rw [filed_append_singleton, List.filter_append, List.map_append, ih, List.filter_map,
      List.map_map]
    rcases Nat.lt_trichotomy h pss.length with hlt | rfl | hgt
    · simp [List.getElem?_append_left hlt, Function.comp_def, Nat.ne_of_gt hlt]
    · simp [Function.comp_def]
    · have hnone : (pss ++ [ps])[h]? = none :=
        List.getElem?_eq_none (by simpa using Nat.succ_le_of_lt hgt)
      simp [hnone, Function.comp_def, Nat.ne_of_lt hgt, Nat.le_of_lt hgt]

private theorem filed_filter {pss pss' : List (List Problem)} {size : Nat}
    (hlength : pss.length = size) (hlength' : pss'.length = size + 1)
    (hget : ∀ h, h ≠ size → pss'[h]? = pss[h]?) : (filed pss').filter (·.1 ≠ size) = filed pss := by
  subst hlength
  obtain ⟨ps, rfl⟩ := exists_eq_append_singleton hlength' hget
  rw [filed_append_singleton]
  exact filter_append_eq_left (fun q hq => decide_eq_true (Nat.ne_of_lt (lt_of_mem_filed hq)))
    (by simp)

namespace Registry

variable {r : Registry} {d e : Definition} {h : Handle}

private theorem ancestry_problems_eq_filed (a : Ancestry) :
    a.problems = filed (a.lineages.map fun l => (l.map Lineage.problems).getD []) := by
  rw [filed, List.zipIdx_map, List.flatMap_map]
  rfl

theorem effectiveProblems_eq_filed (r : Registry) (a : Ancestry) :
    r.effectiveProblems a =
      filed ((Effective.ofAncestry r a).map fun found => (found.map Prod.snd).getD []) := by
  rw [filed, List.zipIdx_map, List.flatMap_map]
  rfl

private theorem linkProblems_eq_filed (r : Registry) (o : Options) :
    r.linkProblems o = filed (r.definitions.map (Links.problems r o)) := by
  rw [filed, List.zipIdx_map, List.flatMap_map]
  rfl

theorem lt_of_mem_problems {o : Options} {p : Problem} (hp : (h, p) ∈ r.problems o) :
    h < r.size := by
  rcases mem_problems_iff.mp hp with hp | hp | hp | ⟨c, hc, hp⟩
  · rw [ancestry_problems_eq_filed] at hp
    simpa [Ancestry.ofRegistry, size] using lt_of_mem_filed hp
  · obtain ⟨_, he, _⟩ := mem_effectiveProblems_iff.mp hp
    exact get?_eq_some_lt he
  · obtain ⟨_, he, _⟩ := mem_linkProblems_iff.mp hp
    exact get?_eq_some_lt he
  · exact (report_of_menuCycle_problem? hc hp).1

namespace Unknown

private theorem ne_size_of_mem_chain (hne : h ≠ r.size) :
    ∀ k ∈ ((Ancestry.ofRegistry r).chain? h).getD [h], k ≠ r.size := by
  cases hchain : (Ancestry.ofRegistry r).chain? h with
  | none => simpa using hne
  | some chain =>
    obtain ⟨_, _, rfl⟩ := Ancestry.chain?_eq_some_iff.mp hchain
    exact fun k hk => ne_size_of_mem_ascent hk

private theorem effectiveOf (hd : r.Unknown d) (hne : h ≠ r.size) :
    (r.extend d).effectiveOf h = r.effectiveOf h := by
  rw [Registry.effectiveOf, hd.chain? hne, Effective.ofChain_extend d (ne_size_of_mem_chain hne),
    Registry.effectiveOf]

private theorem attributeOf (hd : r.Unknown d) {a : Declared} (hne : a.owner ≠ r.size) :
    Entity.attributeOf (r.extend d).links a = Entity.attributeOf r.links a := by
  rw [Entity.attributeOf, hd.links_get? hne, Entity.attributeOf]

private theorem entityOf (hd : r.Unknown d) (he : r.get? h = some e) :
    (r.extend d).entityOf h e = r.entityOf h e := by
  have hne := ne_size_of_get? he
  have hattributes : ∀ a ∈ (((if e.kind = .type then some (r.effectiveOf h).1 else none).map
      Effective.attributes).getD []),
      Entity.attributeOf (r.extend d).links a = Entity.attributeOf r.links a := by
    split
    · exact fun a ha =>
        hd.attributeOf (Effective.owner_of_mem_ofChain (ne_size_of_mem_chain hne) a ha)
    · simp
  simp only [Registry.entityOf, Entity.ofDefinition, hd.parent? hne, hd.chain? hne,
    hd.effectiveOf hne, hd.links_get? hne, hd.isCyclic hne, List.map_congr_left hattributes]

/-- The entities stay under their handles, and one with the new name is added. -/
theorem entities (hd : r.Unknown d) (o : Options) :
    ∃ e, (Catalog.ofRegistry o (r.extend d)).1.entities =
      (Catalog.ofRegistry o r).1.entities ++ [e] ∧ e.name = d.name := by
  have hlength (r : Registry) : (Catalog.ofRegistry o r).1.entities.length = r.size := by
    simp [Catalog.ofRegistry, effective, Effective.ofAncestry, size]
  have hget : ∀ h, h ≠ (Catalog.ofRegistry o r).1.entities.length →
      (Catalog.ofRegistry o (r.extend d)).1.entities[h]? =
        (Catalog.ofRegistry o r).1.entities[h]? := by
    intro h hne
    rw [hlength] at hne
    rw [entities_get?, get?_extend d hne, entities_get?]
    exact Option.map_congr fun e he => hd.entityOf he
  obtain ⟨e, he⟩ := exists_eq_append_singleton
    (by rw [hlength, hlength, size_extend]) hget
  refine ⟨e, he, ?_⟩
  have hlast := entities_get? o (r.extend d) r.size
  rw [he, get?_extend_size, ← hlength r, List.getElem?_concat_length] at hlast
  rw [Option.some.inj hlast]
  rfl

theorem tree?_name (hd : r.Unknown d) (o : Options) {name : String} (hname : name ≠ d.name) :
    (Catalog.ofRegistry o (r.extend d)).1.tree? name = (Catalog.ofRegistry o r).1.tree? name := by
  rw [Catalog.tree?_ofRegistry, find?_extend hname, Catalog.tree?_ofRegistry]
  cases hf : r.find? name with
  | none => rw [Option.bind_none, Option.bind_none]
  | some h => rw [Option.bind_some, hd.tree? (ne_size_of_find? hf), Option.bind_some]

private theorem ancestry_problems_filter (hd : r.Unknown d) :
    (Ancestry.ofRegistry (r.extend d)).problems.filter (·.1 ≠ r.size) =
      (Ancestry.ofRegistry r).problems := by
  rw [ancestry_problems_eq_filed, ancestry_problems_eq_filed]
  apply filed_filter
  · simp [Ancestry.ofRegistry, size]
  · simp [Ancestry.ofRegistry, size, extend]
  · intro h hne
    rw [List.getElem?_map, hd.lineages_get? hne, List.getElem?_map]

private theorem effectiveProblems_filter (hd : r.Unknown d) :
    ((r.extend d).effectiveProblems (Ancestry.ofRegistry (r.extend d))).filter (·.1 ≠ r.size) =
      r.effectiveProblems (Ancestry.ofRegistry r) := by
  rw [effectiveProblems_eq_filed, effectiveProblems_eq_filed]
  apply filed_filter
  · simp [Effective.ofAncestry, size]
  · simp [Effective.ofAncestry, size, extend]
  · intro h hne
    rw [List.getElem?_map, ofAncestry_get?, get?_extend d hne, hd.effectiveOf hne,
      List.getElem?_map, ofAncestry_get?]

private theorem linkProblems_filter (hd : r.Unknown d) (o : Options) :
    ((r.extend d).linkProblems o).filter (·.1 ≠ r.size) = r.linkProblems o := by
  rw [linkProblems_eq_filed, linkProblems_eq_filed]
  apply filed_filter
  · simp [size]
  · simp [size, extend]
  · intro h hne
    rw [List.getElem?_map, List.getElem?_map]
    change ((r.extend d).get? h).map _ = (r.get? h).map _
    rw [get?_extend d hne]
    exact Option.map_congr fun e he => hd.linkProblemsOf (List.mem_of_getElem? he) o

/-- The problems of others stay in their order. -/
theorem problems_filter (hd : r.Unknown d) (o : Options) :
    ((r.extend d).problems o).filter (·.1 ≠ r.size) = r.problems o := by
  rw [problems_eq, problems_eq]
  simp only [List.filter_append, hd.ancestry_problems_filter, hd.effectiveProblems_filter,
    hd.linkProblems_filter, hd.menuCycle_problems]

end Unknown

end Registry

end UiCatalog
