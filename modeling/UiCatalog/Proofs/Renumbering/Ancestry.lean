import UiCatalog.Effective
import UiCatalog.Proofs.Ancestry.Cycles
import UiCatalog.Proofs.Renumbering.Registry
/-!
# Ancestry in renumbered registries

The way up asks only whether a handle is still fresh, and a cycle is put into order by names alone.
So chains, cycles and what a type has from its ancestors follow a renumbering, and the problems,
which tell names, stay the same.
-/

namespace UiCatalog

private theorem ascend_perm {next : Handle → Option Handle} {fresh fresh' : List Handle}
    (hperm : fresh.Perm fresh') (h : Handle) : ascend next fresh h = ascend next fresh' h := by
  fun_induction ascend next fresh h generalizing fresh' with
  | case1 fresh h hmem hnext =>
    rw [ascend, if_pos (hperm.mem_iff.mp hmem)]
    simp [hnext]
  | case2 fresh h hmem p hnext above =>
    rename_i ih
    rw [ascend.eq_def next fresh', if_pos (hperm.mem_iff.mp hmem)]
    simp only [hnext]
    rw [← ih (hperm.erase h)]
  | case3 fresh h hmem => rw [ascend, if_neg fun hmem' => hmem (hperm.mem_iff.mpr hmem')]

/-- The same way with other handles. -/
def Ascent.renumber (f : Handle → Handle) (a : Ascent) : Ascent :=
  ⟨a.path.map f, a.back.map f⟩

private theorem ascend_map {next next' : Handle → Option Handle} {σ : Equiv.Perm Handle}
    (hnext : ∀ h, next' (σ h) = (next h).map σ) (fresh : List Handle) (h : Handle) :
    ascend next' (fresh.map σ) (σ h) = (ascend next fresh h).renumber σ := by
  fun_induction ascend next fresh h with
  | case1 fresh h hmem hnone =>
    rw [ascend, if_pos ((List.mem_map_of_injective σ.injective).mpr hmem)]
    simp [hnext, hnone, Ascent.renumber]
  | case2 fresh h hmem p hp above ih =>
    rw [ascend.eq_def next', if_pos ((List.mem_map_of_injective σ.injective).mpr hmem)]
    simp only [hnext, hp, Option.map_some]
    rw [← List.map_erase σ.injective, ih]
    rfl
  | case3 fresh h hmem =>
    rw [ascend, if_neg fun hmem' => hmem ((List.mem_map_of_injective σ.injective).mp hmem')]
    rfl

namespace Renumbers

variable {σ : Equiv.Perm Handle} {r r' : Registry}

private theorem ascent (hσ : Renumbers σ r r') (h : Handle) :
    r'.ascent (σ h) = (r.ascent h).renumber σ := by
  rw [Registry.ascent, ascend_perm hσ.handles, ascend_map hσ.parentType?]
  rfl

private theorem dropWhile_ne (σ : Equiv.Perm Handle) (hs : List Handle) (m : Handle) :
    (hs.map σ).dropWhile (· != σ m) = (hs.dropWhile (· != m)).map σ := by
  rw [List.dropWhile_map]
  congr 2
  funext h
  simp [bne, beq_eq_beq, σ.injective.eq_iff]

private theorem takeWhile_ne (σ : Equiv.Perm Handle) (hs : List Handle) (m : Handle) :
    (hs.map σ).takeWhile (· != σ m) = (hs.takeWhile (· != m)).map σ := by
  rw [List.takeWhile_map]
  congr 2
  funext h
  simp [bne, beq_eq_beq, σ.injective.eq_iff]

private theorem fromLowest (hσ : Renumbers σ r r') (c : List Handle) :
    r'.fromLowest (c.map σ) = (r.fromLowest c).map σ := by
  rw [Registry.fromLowest, Registry.fromLowest, hσ.lowest?]
  cases r.lowest? c with
  | none => rfl
  | some m =>
    simp only [Option.map_some]
    rw [dropWhile_ne, takeWhile_ne, List.map_append]

private theorem cycleProblems (hσ : Renumbers σ r r') (h : Handle) (subject : String)
    (c : List Handle) :
    Lineage.cycleProblems r' (σ h) subject (c.map σ) = Lineage.cycleProblems r h subject c := by
  unfold Lineage.cycleProblems
  dsimp only
  rw [hσ.fromLowest, hσ.map_name]
  simp [List.mem_map_of_injective σ.injective]

private theorem parentProblems (hσ : Renumbers σ r r') (subject parent : String) :
    Lineage.parentProblems r' subject parent = Lineage.parentProblems r subject parent := by
  have hkind : (r'.find? parent).bind r'.kind? = (r.find? parent).bind r.kind? := by
    rw [hσ.find?]
    cases r.find? parent with
    | none => rfl
    | some p => exact hσ.kind? p
  rw [Lineage.parentProblems, Lineage.parentProblems, hkind]

private theorem lineage (hσ : Renumbers σ r r') (h : Handle) (d : Definition) :
    Lineage.ofType r' (σ h) d =
      { parent := (Lineage.ofType r h d).parent.map fun p => { p with target := p.target.map σ }
        chain := (Lineage.ofType r h d).chain.map (List.map σ)
        problems := (Lineage.ofType r h d).problems } := by
  have hascent := hσ.ascent h
  unfold Registry.ascent at hascent
  have hparent : Lineage.parentProblems r' d.name = Lineage.parentProblems r d.name :=
    funext (hσ.parentProblems d.name)
  unfold Lineage.ofType
  dsimp only
  rw [hascent, hσ.parentType?, hparent]
  cases hback : (ascend r.parentType? r.handles h).back with
  | none => simp [Ascent.renumber, hback, Option.map_map, Function.comp_def]
  | some m =>
    simp only [Ascent.renumber, hback, Option.map_some, dropWhile_ne, hσ.cycleProblems]
    simp [Option.map_map, Function.comp_def]

private theorem lineage? (hσ : Renumbers σ r r') (h : Handle) :
    (Ancestry.ofRegistry r').lineage? (σ h) = ((Ancestry.ofRegistry r).lineage? h).map fun l =>
      { parent := l.parent.map fun p => { p with target := p.target.map σ }
        chain := l.chain.map (List.map σ)
        problems := l.problems } := by
  rw [Ancestry.lineage?_ofRegistry, Ancestry.lineage?_ofRegistry, hσ.get?]
  cases r.get? h with
  | none => rfl
  | some d =>
    rw [Option.bind_some, Option.bind_some]
    split
    · rw [hσ.lineage]
      rfl
    · rfl

theorem chain? (hσ : Renumbers σ r r') (h : Handle) :
    (Ancestry.ofRegistry r').chain? (σ h) =
      ((Ancestry.ofRegistry r).chain? h).map (List.map σ) := by
  rw [Ancestry.chain?, hσ.lineage?, Ancestry.chain?]
  cases (Ancestry.ofRegistry r).lineage? h <;> rfl

theorem parent? (hσ : Renumbers σ r r') (h : Handle) :
    (Ancestry.ofRegistry r').parent? (σ h) =
      ((Ancestry.ofRegistry r).parent? h).map fun p => { p with target := p.target.map σ } := by
  rw [Ancestry.parent?, hσ.lineage?, Ancestry.parent?]
  cases (Ancestry.ofRegistry r).lineage? h <;> rfl

theorem mem_ancestry_problems (hσ : Renumbers σ r r') {h : Handle} {p : Problem}
    (hp : (h, p) ∈ (Ancestry.ofRegistry r).problems) :
    (σ h, p) ∈ (Ancestry.ofRegistry r').problems := by
  obtain ⟨l, hl, hp⟩ := Ancestry.mem_problems_iff.mp hp
  have hl' := hσ.lineage? h
  rw [hl, Option.map_some] at hl'
  exact Ancestry.mem_problems_iff.mpr ⟨_, hl', hp⟩

end Renumbers

/-- The same declared attribute with another handle of its owner. -/
def Declared.renumber (f : Handle → Handle) (a : Declared) : Declared :=
  { a with owner := f a.owner }

namespace Effective

/-- Which attributes stand is decided by their names alone. -/
private theorem settle_renumber (f : Handle → Handle) (standing later : List Declared) :
    settle (standing.map (Declared.renumber f)) (later.map (Declared.renumber f)) =
      ((settle standing later).1.map (Declared.renumber f),
        (settle standing later).2.map (Prod.map (Declared.renumber f) (Declared.renumber f))) := by
  induction later generalizing standing with
  | nil => rfl
  | cons a later ih =>
    have hfind : (standing.map (Declared.renumber f)).find?
        (·.content.name == (a.renumber f).content.name) =
        (standing.find? (·.content.name == a.content.name)).map (Declared.renumber f) := by
      rw [List.find?_map]
      rfl
    rw [List.map_cons, settle, settle, hfind]
    cases standing.find? (·.content.name == a.content.name) with
    | some first =>
      simp only [Option.map_some]
      rw [ih]
      rfl
    | none =>
      simp only [Option.map_none]
      rw [← ih (standing ++ [a]), List.map_append]
      rfl

end Effective

namespace Renumbers

variable {σ : Equiv.Perm Handle} {r r' : Registry}

private theorem declared (hσ : Renumbers σ r r') (h : Handle) :
    Effective.declared r' (σ h) = (Effective.declared r h).map (Declared.renumber σ) := by
  rw [Effective.declared, hσ.get?, Effective.declared, List.map_map]
  rfl

theorem ofChain (hσ : Renumbers σ r r') (chain : List Handle) :
    Effective.ofChain r' (chain.map σ) =
      ({ (Effective.ofChain r chain).1 with
          attributes := (Effective.ofChain r chain).1.attributes.map (Declared.renumber σ) },
        (Effective.ofChain r chain).2) := by
  have hdeclared : (chain.map σ).reverse.flatMap (Effective.declared r') =
      (chain.reverse.flatMap (Effective.declared r)).map (Declared.renumber σ) := by
    rw [← List.map_reverse, List.flatMap_map, List.map_flatMap]
    congr 1
    funext h
    exact hσ.declared h
  have hproperties (ps : Properties) : (chain.map σ).reverse.foldl
        (fun ps h => Properties.setAll ps (Effective.ownProperties r' h)) ps =
      chain.reverse.foldl (fun ps h => Properties.setAll ps (Effective.ownProperties r h)) ps := by
    rw [← List.map_reverse, List.foldl_map]
    congr 1
    funext ps h
    rw [Effective.ownProperties, hσ.get?, Effective.ownProperties]
  have hown (a : Declared) :
      ((chain.map σ).head? == some (a.renumber σ).owner) = (chain.head? == some a.owner) := by
    cases chain with
    | nil => rfl
    | cons h chain => simp [Declared.renumber, beq_eq_beq, σ.injective.eq_iff]
  have hsettle := Effective.settle_renumber σ [] (chain.reverse.flatMap (Effective.declared r))
  rw [List.map_nil] at hsettle
  unfold Effective.ofChain
  dsimp only
  rw [hdeclared, hproperties, hsettle]
  refine Prod.ext rfl ?_
  simp only [List.filter_map, List.map_map, Function.comp_def, Prod.map, hown]
  refine List.map_congr_left fun q _ => ?_
  simp [Declared.renumber, hσ.name]

end Renumbers

end UiCatalog
