import UiCatalog.Proofs.Effective.Settle
/-!
# Attributes along a chain

Of the attributes that are declared along a chain, the root's first, the first one of each name
stands. So what stands on an ancestor stands on its descendants too, in front of what they add, and
each attribute that a type declares in vain is a problem of that type.
-/

namespace UiCatalog.Effective

def declaredAlong (r : Registry) (chain : List Handle) : List Declared :=
  chain.reverse.flatMap (declared r)

/-- Of the attributes with one name the first, in order. -/
def firstOfEachName (l : List Declared) : List Declared :=
  l.eraseDupsBy fun a b => a.content.name == b.content.name

private theorem firstOfEachName_cons (a : Declared) (l : List Declared) :
    firstOfEachName (a :: l) =
      a :: firstOfEachName (l.filter (·.content.name ≠ a.content.name)) := by
  rw [firstOfEachName, List.eraseDupsBy_cons, firstOfEachName]
  simp only [beq_eq_false_iff_ne]

/-! ## What stands -/

/-- What stands is what stood before and then the first attribute of each name that did not. -/
private theorem settle_standing (standing l : List Declared) :
    (settle standing l).1 =
      standing ++ firstOfEachName (l.filter (·.content.name ∉ names standing)) := by
  induction l generalizing standing with
  | nil => simp [settle, firstOfEachName]
  | cons a l ih =>
    rw [settle]
    cases hfind : standing.find? (·.content.name == a.content.name) with
    | some first =>
      have hmem : a.content.name ∈ names standing := by
        by_contra hnot
        simp [find?_eq_none_iff.mpr hnot] at hfind
      rw [List.filter_cons_of_neg (by simpa using hmem)]
      exact ih standing
    | none =>
      have hnot := find?_eq_none_iff.mp hfind
      have hnames (b : Declared) : b.content.name ∉ names (standing ++ [a]) ↔
          b.content.name ≠ a.content.name ∧ b.content.name ∉ names standing := by
        simp [names, not_or, and_comm]
      rw [List.filter_cons_of_pos (by simpa using hnot), firstOfEachName_cons, List.filter_filter,
        ih, List.append_assoc, List.singleton_append]
      simp only [hnames, Bool.decide_and]

private theorem settle_nil_standing (l : List Declared) : (settle [] l).1 = firstOfEachName l := by
  rw [settle_standing, List.nil_append, List.filter_eq_self.mpr (by simp [names])]

private theorem prefix_settle (standing l : List Declared) : standing <+: (settle standing l).1 :=
  ⟨_, (settle_standing standing l).symm⟩

private theorem mem_of_mem_settle {standing l : List Declared} {a : Declared}
    (ha : a ∈ (settle standing l).1) : a ∈ standing ++ l :=
  (forall_mem_settle (P := (· ∈ standing ++ l)) (fun _ => List.mem_append_left l)
    fun _ => List.mem_append_right standing).1 a ha

private theorem nodup_names_settle {standing : List Declared} (h : (names standing).Nodup)
    (l : List Declared) : (names (settle standing l).1).Nodup := by
  induction l generalizing standing with
  | nil => exact h
  | cons a l ih =>
    rw [settle]
    cases hfind : standing.find? (·.content.name == a.content.name) with
    | some first => exact ih h
    | none =>
      refine ih ?_
      rw [names, List.map_append]
      exact List.Nodup.append h (List.nodup_singleton _)
        (List.disjoint_singleton.mpr (find?_eq_none_iff.mp hfind))

private theorem firstOfEachName_prefix (l l' : List Declared) :
    firstOfEachName l <+: firstOfEachName (l ++ l') := by
  rw [← settle_nil_standing, ← settle_nil_standing, settle_append]
  exact prefix_settle _ _

theorem mem_of_mem_firstOfEachName {l : List Declared} {a : Declared}
    (ha : a ∈ firstOfEachName l) : a ∈ l := by
  rw [← settle_nil_standing] at ha
  exact mem_of_mem_settle ha

/-! ## What does not stand -/

private theorem settle_surplus_fst {standing l : List Declared} (h : (standing ++ l).Nodup) :
    (settle standing l).2.map Prod.fst = l.filter (· ∉ (settle standing l).1) := by
  induction l generalizing standing with
  | nil => rfl
  | cons a l ih =>
    rw [settle]
    cases hfind : standing.find? (·.content.name == a.content.name) with
    | some first =>
      obtain ⟨hnot, hrest⟩ := List.nodup_cons.mp (List.nodup_middle.mp h)
      have hstands : a ∉ (settle standing l).1 := fun ha => hnot (mem_of_mem_settle ha)
      rw [List.filter_cons_of_pos (by simpa using hstands), ← ih hrest]
      rfl
    | none =>
      have hstands : a ∈ (settle (standing ++ [a]) l).1 :=
        (prefix_settle (standing ++ [a]) l).subset (by simp)
      rw [List.filter_cons_of_neg (by simpa using hstands)]
      exact ih (List.append_cons standing a l ▸ h)

private theorem stands_of_mem_settle_surplus {standing l : List Declared} {q : Declared × Declared}
    (hq : q ∈ (settle standing l).2) :
    q.2 ∈ (settle standing l).1 ∧ q.2.content.name = q.1.content.name := by
  induction l generalizing standing with
  | nil => simp [settle] at hq
  | cons a l ih =>
    rw [settle] at hq ⊢
    cases hfind : standing.find? (·.content.name == a.content.name) with
    | some first =>
      rw [hfind] at hq
      rcases List.mem_cons.mp hq with rfl | hq
      · refine ⟨(prefix_settle standing l).subset (List.mem_of_find?_eq_some hfind), ?_⟩
        simpa using List.find?_some hfind
      · exact ih hq
    | none =>
      rw [hfind] at hq
      exact ih hq

/-! ## Chains -/

variable {r : Registry}

theorem mem_declared_iff {h : Handle} {a : Declared} :
    a ∈ declared r h ↔ a.owner = h ∧
      ∃ d, r.get? h = some d ∧ d.attributes[a.index]? = some a.content := by
  obtain ⟨owner, index, content⟩ := a
  cases hd : r.get? h with
  | none => simp [declared, hd]
  | some d => simp [declared, hd, List.mk_mem_zipIdx_iff_getElem?, eq_comm, and_comm]

private theorem nodup_declared (r : Registry) (h : Handle) : (declared r h).Nodup := by
  refine List.Nodup.of_map Declared.index ?_
  rw [declared, List.map_map]
  change (List.map Prod.snd _).Nodup
  rw [List.zipIdx_map_snd]
  exact List.nodup_range'

private theorem nodup_declaredAlong {chain : List Handle} (hchain : chain.Nodup) :
    (declaredAlong r chain).Nodup := by
  refine List.nodup_flatMap.mpr ⟨fun h _ => nodup_declared r h, ?_⟩
  refine (List.nodup_reverse.mpr hchain).imp fun hne => ?_
  intro a ha ha'
  exact hne ((owner_of_mem_declared ha).symm.trans (owner_of_mem_declared ha'))

private theorem declaredAlong_cons (r : Registry) (h : Handle) (chain : List Handle) :
    declaredAlong r (h :: chain) = declaredAlong r chain ++ declared r h := by
  simp [declaredAlong]

/-- What stands on a chain stands below it too, in front of everything else. -/
theorem firstOfEachName_prefix_of_suffix {chain lower : List Handle} (h : chain <:+ lower) :
    firstOfEachName (declaredAlong r chain) <+: firstOfEachName (declaredAlong r lower) := by
  obtain ⟨below, rfl⟩ := h
  rw [declaredAlong, declaredAlong, List.reverse_append, List.flatMap_append]
  exact firstOfEachName_prefix _ _

private theorem declaredAlong_filter_owner {h : Handle} {chain : List Handle} (hnot : h ∉ chain) :
    (declaredAlong r (h :: chain)).filter (·.owner = h) = declared r h := by
  have habove : (declaredAlong r chain).filter (·.owner = h) = [] := by
    refine List.filter_eq_nil_iff.mpr fun a ha => ?_
    obtain ⟨k, hk, ha⟩ := List.mem_flatMap.mp ha
    rw [owner_of_mem_declared ha, decide_eq_true_eq]
    rintro rfl
    exact hnot (List.mem_reverse.mp hk)
  have hown : (declared r h).filter (·.owner = h) = declared r h :=
    List.filter_eq_self.mpr fun a ha => decide_eq_true (owner_of_mem_declared ha)
  rw [declaredAlong_cons, List.filter_append, habove, hown, List.nil_append]

theorem ofChain_attributes (r : Registry) (chain : List Handle) :
    (ofChain r chain).1.attributes = firstOfEachName (declaredAlong r chain) :=
  settle_nil_standing _

theorem nodup_names_ofChain (r : Registry) (chain : List Handle) :
    (names (ofChain r chain).1.attributes).Nodup := by
  have hnil : (names []).Nodup := List.nodup_nil
  exact nodup_names_settle hnil _

/-- The problem that an attribute is when it does not stand although one of its name does. -/
def SurplusProblem (r : Registry) (standing : List Declared) (a : Declared) (p : Problem) : Prop :=
  ∃ first ∈ standing, first.content.name = a.content.name ∧
    p = ⟨r.name a.owner, .duplicateAttribute a.content.name (r.name first.owner)⟩

/-- The problems of the type at the head of a chain are its own attributes that do not stand, one
problem for each of them in their order. -/
theorem ofChain_problems {h : Handle} {chain : List Handle} (hchain : (h :: chain).Nodup) :
    List.Forall₂ (SurplusProblem r (ofChain r (h :: chain)).1.attributes)
      ((declared r h).filter (· ∉ (ofChain r (h :: chain)).1.attributes))
      (ofChain r (h :: chain)).2 := by
  let surplus := (settle [] (declaredAlong r (h :: chain))).2
  let own := surplus.filter fun q => (h :: chain).head? == some q.1.owner
  have hfst : own.map Prod.fst =
      (declared r h).filter (· ∉ (ofChain r (h :: chain)).1.attributes) := by
    have hsurplus : surplus.map Prod.fst = (declaredAlong r (h :: chain)).filter
        (· ∉ (ofChain r (h :: chain)).1.attributes) :=
      settle_surplus_fst (nodup_declaredAlong hchain)
    calc own.map Prod.fst
        = (surplus.map Prod.fst).filter (·.owner = h) := by
          rw [List.filter_map]
          refine congrArg (List.map Prod.fst) (List.filter_congr fun q _ => Bool.eq_iff_iff.mpr ?_)
          rw [beq_iff_eq, List.head?_cons, Option.some_inj, eq_comm, Function.comp_apply,
            decide_eq_true_eq]
      _ = ((declaredAlong r (h :: chain)).filter (·.owner = h)).filter
            (· ∉ (ofChain r (h :: chain)).1.attributes) := by
          rw [hsurplus, List.filter_comm]
      _ = (declared r h).filter (· ∉ (ofChain r (h :: chain)).1.attributes) := by
          rw [declaredAlong_filter_owner (List.nodup_cons.mp hchain).1]
  have hproblems : (ofChain r (h :: chain)).2 = own.map fun q =>
      ⟨r.name q.1.owner, .duplicateAttribute q.1.content.name (r.name q.2.owner)⟩ := rfl
  rw [← hfst, hproblems, List.forall₂_map_left_iff, List.forall₂_map_right_iff,
    List.forall₂_same]
  intro q hq
  obtain ⟨hstands, hname⟩ := stands_of_mem_settle_surplus (List.mem_filter.mp hq).1
  exact ⟨q.2, hstands, hname, rfl⟩

end UiCatalog.Effective
