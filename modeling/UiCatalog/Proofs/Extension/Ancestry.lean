import UiCatalog.Proofs.Ancestry.Cycles
import UiCatalog.Proofs.Effective.Settle
import UiCatalog.Proofs.Extension.Registry
/-!
# Ancestors of the other types

The way up from a type that does not mention the new name never gets to the new definition, so the
ancestors of such a type, its cycle if it is on one, and what it has from its ancestors stay as they
are.
-/

namespace UiCatalog

private theorem ascend_append {next next' : Handle → Option Handle} {new : Handle}
    (hnext : ∀ h, h ≠ new → next' h = next h) (hnew : ∀ h, next h ≠ some new)
    (fresh : List Handle) {h : Handle} (hne : h ≠ new) :
    ascend next' (fresh ++ [new]) h = ascend next fresh h := by
  fun_induction ascend next fresh h with
  | case1 fresh h hmem hnone =>
    rw [ascend, if_pos (List.mem_append_left [new] hmem)]
    simp only [hnext h hne, hnone]
  | case2 fresh h hmem p hp above ih =>
    have hpne : p ≠ new := fun heq => hnew h (heq ▸ hp)
    rw [ascend.eq_def next', if_pos (List.mem_append_left [new] hmem)]
    simp only [hnext h hne, hp]
    rw [List.erase_append_left [new] hmem, ih hpne]
  | case3 fresh h hmem =>
    have hmem' : h ∉ fresh ++ [new] := by simpa [hne] using hmem
    rw [ascend, if_neg hmem']

namespace Registry

variable {r : Registry} {d e : Definition} {h : Handle}

theorem ne_size_of_mem_ascent {k : Handle} (hk : k ∈ (r.ascent h).path) : k ≠ r.size :=
  Nat.ne_of_lt (mem_handles.mp (mem_of_mem_ascend hk))

private theorem cycleProblems_extend (d : Definition) (h : Handle) (subject : String)
    {c : List Handle} (hc : ∀ k ∈ c, k ≠ r.size) :
    Lineage.cycleProblems (r.extend d) h subject c = Lineage.cycleProblems r h subject c := by
  have hmembers : ∀ k ∈ r.fromLowest c, k ≠ r.size := fun k hk => hc k (mem_of_mem_fromLowest hk)
  simp only [Lineage.cycleProblems, fromLowest_extend d hc, map_name_extend d hmembers]

namespace Unknown

private theorem ascent (hd : r.Unknown d) (hne : h ≠ r.size) :
    (r.extend d).ascent h = r.ascent h := by
  rw [Registry.ascent, handles_extend, Registry.ascent]
  exact ascend_append (fun _ => hd.parentType?) parentType?_ne_size r.handles hne

private theorem lineage (hd : r.Unknown d) (he : r.get? h = some e) :
    Lineage.ofType (r.extend d) h e = Lineage.ofType r h e := by
  have hne := ne_size_of_get? he
  have hascent := hd.ascent hne
  unfold Registry.ascent at hascent
  have hparent : e.parent.map (Lineage.parentProblems (r.extend d) e.name) =
      e.parent.map (Lineage.parentProblems r e.name) := by
    cases hparent : e.parent with
    | none => rfl
    | some parent =>
      have hname := hd.parent_ne (List.mem_of_getElem? he) hparent
      rw [Option.map_some, Lineage.parentProblems, bind_kind?_extend hname, Option.map_some,
        Lineage.parentProblems]
  unfold Lineage.ofType
  dsimp only
  rw [hascent, hd.parentType? hne, hparent]
  cases hback : (ascend r.parentType? r.handles h).back with
  | none => rfl
  | some m =>
    have hcycle : ∀ k ∈ (ascend r.parentType? r.handles h).path.dropWhile (· != m), k ≠ r.size :=
      fun k hk => ne_size_of_mem_ascent ((List.dropWhile_sublist _).mem hk)
    simp only [cycleProblems_extend d h e.name hcycle]

theorem lineages_get? (hd : r.Unknown d) (hne : h ≠ r.size) :
    (Ancestry.ofRegistry (r.extend d)).lineages[h]? = (Ancestry.ofRegistry r).lineages[h]? := by
  have hlineages (r : Registry) : (Ancestry.ofRegistry r).lineages[h]? =
      (r.get? h).map fun e => if e.kind = .type then some (Lineage.ofType r h e) else none := by
    simp only [Ancestry.ofRegistry, Registry.get?, List.getElem?_map, List.getElem?_zipIdx]
    cases r.definitions[h]? <;> simp
  rw [hlineages, hlineages, get?_extend d hne]
  cases he : r.get? h with
  | none => rfl
  | some e => rw [Option.map_some, Option.map_some, hd.lineage he]

private theorem lineage? (hd : r.Unknown d) (hne : h ≠ r.size) :
    (Ancestry.ofRegistry (r.extend d)).lineage? h = (Ancestry.ofRegistry r).lineage? h := by
  rw [Ancestry.lineage?, hd.lineages_get? hne, Ancestry.lineage?]

theorem chain? (hd : r.Unknown d) (hne : h ≠ r.size) :
    (Ancestry.ofRegistry (r.extend d)).chain? h = (Ancestry.ofRegistry r).chain? h := by
  rw [Ancestry.chain?, hd.lineage? hne, Ancestry.chain?]

theorem parent? (hd : r.Unknown d) (hne : h ≠ r.size) :
    (Ancestry.ofRegistry (r.extend d)).parent? h = (Ancestry.ofRegistry r).parent? h := by
  rw [Ancestry.parent?, hd.lineage? hne, Ancestry.parent?]

end Unknown

end Registry

namespace Effective

variable {r : Registry}

private theorem declared_extend (d : Definition) {h : Handle} (hne : h ≠ r.size) :
    declared (r.extend d) h = declared r h := by
  rw [declared, Registry.get?_extend d hne, declared]

private theorem ownProperties_extend (d : Definition) {h : Handle} (hne : h ≠ r.size) :
    ownProperties (r.extend d) h = ownProperties r h := by
  rw [ownProperties, Registry.get?_extend d hne, ownProperties]

private theorem owner_of_mem_flatMap_declared {hs : List Handle} {P : Handle → Prop}
    (hhs : ∀ h ∈ hs, P h) : ∀ a ∈ hs.flatMap (declared r), P a.owner := by
  intro a ha
  obtain ⟨h, hh, ha⟩ := List.mem_flatMap.mp ha
  rw [owner_of_mem_declared ha]
  exact hhs h hh

theorem owner_of_mem_ofChain {chain : List Handle} {P : Handle → Prop} (hchain : ∀ h ∈ chain, P h) :
    ∀ a ∈ (ofChain r chain).1.attributes, P a.owner := by
  have hreverse : ∀ h ∈ chain.reverse, P h := fun h hh => hchain h (List.mem_reverse.mp hh)
  have hnone : ∀ a ∈ ([] : List Declared), P a.owner := by simp
  exact (forall_mem_settle (P := fun a => P a.owner) hnone
    (owner_of_mem_flatMap_declared hreverse)).1

theorem ofChain_extend (d : Definition) {chain : List Handle}
    (hchain : ∀ h ∈ chain, h ≠ r.size) : ofChain (r.extend d) chain = ofChain r chain := by
  have hreverse : ∀ h ∈ chain.reverse, h ≠ r.size := fun h hh => hchain h (List.mem_reverse.mp hh)
  have hdeclared : chain.reverse.flatMap (declared (r.extend d)) =
      chain.reverse.flatMap (declared r) :=
    List.flatMap_congr fun h hh => declared_extend d (hreverse h hh)
  have hproperties : chain.reverse.foldl
        (fun ps h => Properties.setAll ps (ownProperties (r.extend d) h)) [] =
      chain.reverse.foldl (fun ps h => Properties.setAll ps (ownProperties r h)) [] :=
    List.foldl_ext _ _ _ fun ps h hh => by rw [ownProperties_extend d (hreverse h hh)]
  have hnone : ∀ a ∈ ([] : List Declared), a.owner ≠ r.size := by simp
  have howners := (forall_mem_settle (P := fun a => a.owner ≠ r.size) hnone
    (owner_of_mem_flatMap_declared (r := r) hreverse)).2
  unfold ofChain
  dsimp only
  rw [hdeclared, hproperties]
  refine Prod.ext rfl ?_
  refine List.map_congr_left fun q hq => ?_
  obtain ⟨hfirst, hlast⟩ := howners q (List.mem_filter.mp hq).1
  rw [Registry.name_extend d hfirst, Registry.name_extend d hlast]

end Effective

end UiCatalog
