import UiCatalog.Proofs.Graph.Segments
/-!
# The pass finds the segments

The calls of a pass fall into the segments of its way. Within a segment every call but the outermost
has been told, by itself or by one further in, of a way back behind itself, and the outermost has
not. So a component is complete exactly when a segment is given up, and the pass finds what the
search by segments finds.
-/

namespace UiCatalog.Graph

/-! ## Calls of one segment -/

/-- Calls from the inside out, the last one at `root`, when the lowest number told so far is `m`:
all but the last are told of a number below their own. -/
inductive Spans (num low : Nat → Nat) : Nat → List Nat → Nat → Prop
  | root {m v : Nat} (hroot : num v ≤ m) : Spans num low m [v] v
  | step {m v u root : Nat} {us : List Nat} (hback : m < num v)
      (houter : Spans num low (min m (low u)) (u :: us) root) : Spans num low m (v :: u :: us) root

namespace Spans

variable {num low num' low' : Nat → Nat} {m m' root root' : Nat} {vs vs' : List Nat}

private theorem num_root_le (h : Spans num low m vs root) : num root ≤ m := by
  induction h with
  | root hroot => exact hroot
  | step _ _ ih => exact Nat.le_trans ih (Nat.min_le_left _ _)

private theorem lower (h : Spans num low m vs root) (hle : m' ≤ m) (hroot : num root ≤ m') :
    Spans num low m' vs root := by
  induction h generalizing m' with
  | root => exact .root hroot
  | step hback houter ih =>
    have hlow := Nat.le_trans houter.num_root_le (Nat.min_le_right _ _)
    refine .step (Nat.lt_of_le_of_lt hle hback) (ih ?_ (Nat.le_min.mpr ⟨hroot, hlow⟩))
    exact Nat.le_min.mpr ⟨Nat.le_trans (Nat.min_le_left _ _) hle, Nat.min_le_right _ _⟩

private theorem congr (h : Spans num low m vs root) (hnum : ∀ v ∈ vs, num' v = num v)
    (hlow : ∀ v ∈ vs.tail, low' v = low v) : Spans num' low' m vs root := by
  induction h with
  | root hroot => exact .root (hnum _ List.mem_cons_self ▸ hroot)
  | @step m v u root us hback _ ih =>
    obtain ⟨hv, hnum⟩ := List.forall_mem_cons.mp hnum
    obtain ⟨hu, hus⟩ := List.forall_mem_cons.mp hlow
    refine .step (hv ▸ hback) ?_
    rw [hu]
    exact ih hnum hus

/-- Two segments are one when the inner one is told of a number below its outermost call. -/
private theorem join {x : Nat} {xs : List Nat} (h : Spans num low m vs root)
    (houter : Spans num low (low x) (x :: xs) root') (hle : m' ≤ m) (hback : m' < num root)
    (hroot : num root' ≤ m') : Spans num low m' (vs ++ x :: xs) root' := by
  induction h generalizing m' with
  | root =>
    refine .step hback (houter.lower (Nat.min_le_right _ _) ?_)
    exact Nat.le_min.mpr ⟨hroot, houter.num_root_le⟩
  | @step m v u root us hstep hspans ih =>
    refine .step (Nat.lt_of_le_of_lt hle hstep) (ih ?_ ?_ ?_)
    · exact Nat.le_min.mpr ⟨Nat.le_trans (Nat.min_le_left _ _) hle, Nat.min_le_right _ _⟩
    · exact Nat.lt_of_le_of_lt (Nat.min_le_left _ _) hback
    · have hlow := Nat.le_trans hspans.num_root_le (Nat.min_le_right _ _)
      exact Nat.le_min.mpr ⟨hroot, Nat.le_trans (by omega) hlow⟩

end Spans

def Call.pending (g : Graph) (c : Call) : List Nat :=
  (g.targets c.node).drop c.next

/-- Calls, the innermost first and the outermost at `root`, that make up a segment when the lowest
number told so far is `m`. -/
structure Covers (g : Graph) (num low : Nat → Nat) (m root : Nat) (c : Call) (cs : List Call)
    (s : Segment) : Prop where
  pending : s.pending = (c :: cs).flatMap (Call.pending g)
  sublist : ((c :: cs).map Call.node).Sublist s.members
  root_last : ∃ upper, s.members = upper ++ [root]
  spans : Spans num low m ((c :: cs).map Call.node) root

/-- Calls that make up the segments of a way. -/
inductive Matches (g : Graph) (num low : Nat → Nat) : List Call → List Segment → Prop
  | nil : Matches g num low [] []
  | cons {c : Call} {cs calls : List Call} {s : Segment} {way : List Segment} {root : Nat}
      (hcovers : Covers g num low (low c.node) root c cs s) (hway : Matches g num low calls way) :
      Matches g num low (c :: (cs ++ calls)) (s :: way)

def Descending (num : Nat → Nat) (stack : List Nat) : Prop :=
  stack.Pairwise fun a b => num b < num a

private theorem Descending.nodup {num : Nat → Nat} {stack : List Nat} (h : Descending num stack) :
    stack.Nodup :=
  h.imp fun hlt => ne_of_apply_ne num (Nat.ne_of_gt hlt)

section Matching

variable {g : Graph} {num low num' low' : Nat → Nat} {m root : Nat} {c : Call}
  {cs calls : List Call} {s : Segment} {way : List Segment}

namespace Covers

private theorem root_mem (h : Covers g num low m root c cs s) : root ∈ s.members := by
  obtain ⟨upper, hmembers⟩ := h.root_last
  simp [hmembers]

private theorem num_root_le_of_mem (h : Covers g num low m root c cs s)
    (hdesc : Descending num s.members) {w : Nat} (hw : w ∈ s.members) : num root ≤ num w := by
  obtain ⟨upper, hmembers⟩ := h.root_last
  rw [hmembers] at hdesc hw
  rcases List.mem_append.mp hw with hw | hw
  · exact Nat.le_of_lt ((List.pairwise_append.mp hdesc).2.2 w hw root List.mem_cons_self)
  · exact Nat.le_of_eq (congrArg num (List.mem_singleton.mp hw).symm)

private theorem node_mem (h : Covers g num low m root c cs s) : c.node ∈ s.members :=
  h.sublist.subset List.mem_cons_self

private theorem congr (h : Covers g num low m root c cs s) (hnum : ∀ v ∈ s.members, num' v = num v)
    (hlow : ∀ v ∈ cs.map Call.node, low' v = low v) : Covers g num' low' m root c cs s :=
  { h with spans := h.spans.congr (fun v hv => hnum v (h.sublist.subset hv)) hlow }

private theorem join {m' root' : Nat} {c' : Call} {cs' : List Call} {s' : Segment}
    (h : Covers g num low m root c cs s) (h' : Covers g num low (low c'.node) root' c' cs' s')
    (hle : m' ≤ m) (hback : m' < num root) (hroot : num root' ≤ m') :
    Covers g num low m' root' c (cs ++ c' :: cs') (s.join s') where
  pending := by simp [Segment.join, h.pending, h'.pending]
  sublist := by
    rw [← List.cons_append, List.map_append]
    exact h.sublist.append h'.sublist
  root_last := by
    obtain ⟨upper, hmembers⟩ := h'.root_last
    exact ⟨s.members ++ upper, by rw [Segment.join, hmembers, List.append_assoc]⟩
  spans := by
    rw [← List.cons_append, List.map_append]
    exact h.spans.join h'.spans hle hback hroot

end Covers

namespace Matches

private theorem congr (h : Matches g num low calls way)
    (hnum : ∀ v ∈ way.flatMap Segment.members, num' v = num v)
    (hlow : ∀ v ∈ way.flatMap Segment.members, low' v = low v) : Matches g num' low' calls way := by
  induction h with
  | nil => exact .nil
  | cons hcovers _ ih =>
    obtain ⟨hnum, hnums⟩ := List.forall_mem_append.mp hnum
    obtain ⟨hlow, hlows⟩ := List.forall_mem_append.mp hlow
    have hcovers' := hcovers.congr hnum fun v hv =>
      hlow v (hcovers.sublist.subset (List.mem_cons_of_mem _ hv))
    rw [← hlow _ hcovers.node_mem] at hcovers'
    exact .cons hcovers' (ih hnums hlows)

private theorem sublist (h : Matches g num low calls way) :
    (calls.map Call.node).Sublist (way.flatMap Segment.members) := by
  induction h with
  | nil => exact List.Sublist.refl []
  | cons hcovers _ ih =>
    rw [← List.cons_append, List.map_append, List.flatMap_cons]
    exact hcovers.sublist.append ih

private theorem exists_of_cons (h : Matches g num low (c :: calls) way) :
    ∃ cs outer inner rest root, calls = cs ++ outer ∧ way = inner :: rest ∧
      Covers g num low (low c.node) root c cs inner ∧ Matches g num low outer rest := by
  cases h with
  | cons hcovers hway => exact ⟨_, _, _, _, _, rfl, rfl, hcovers, hway⟩

private theorem told {inner : Segment} {m' : Nat} (hcovers : Covers g num low m root c cs inner)
    (hway : Matches g num low calls way)
    (hdesc : Descending num ((inner :: way).flatMap Segment.members)) (hle : m' ≤ m)
    (hroot : num root ≤ m') (hlow : low' c.node = m') (hother : ∀ u, u ≠ c.node → low' u = low u) :
    Matches g num low' (c :: (cs ++ calls)) (inner :: way) := by
  obtain ⟨hinner, _, hacross⟩ := List.pairwise_append.mp hdesc
  have hnodup := (Descending.nodup hinner).sublist hcovers.sublist
  have hrest : Matches g num low' calls way := by
    refine hway.congr (fun _ _ => rfl) fun u hu => hother u ?_
    rintro rfl
    exact Nat.lt_irrefl _ (hacross _ hcovers.node_mem _ hu)
  have hlower : Covers g num low m' root c cs inner :=
    { hcovers with spans := hcovers.spans.lower hle hroot }
  have hcovers' : Covers g num low' m' root c cs inner := by
    refine hlower.congr (fun _ _ => rfl) fun u hu => hother u ?_
    rintro rfl
    exact (List.nodup_cons.mp hnodup).1 hu
  rw [← hlow] at hcovers'
  exact .cons hcovers' hrest

/-- When the innermost call is told of `w`, the segments up to that of `w` are one. -/
private theorem close {inner : Segment} {l w : Nat} (hcovers : Covers g num low m root c cs inner)
    (hway : Matches g num low calls way)
    (hdesc : Descending num ((inner :: way).flatMap Segment.members))
    (hw : w ∈ (inner :: way).flatMap Segment.members) (hle : min l (num w) ≤ m)
    (hroot : num root ≤ l) (hlow : low' c.node = min l (num w))
    (hother : ∀ u, u ≠ c.node → low' u = low u) :
    Matches g num low' (c :: (cs ++ calls)) (Graph.close w inner way) := by
  fun_induction Graph.close w inner way generalizing cs calls root m with
  | case1 inner =>
    have hback := hcovers.num_root_le_of_mem (by simpa using hdesc) (by simpa using hw)
    exact told hcovers hway hdesc hle (Nat.le_min.mpr ⟨hroot, hback⟩) hlow hother
  | case2 inner outer way hmem =>
    have hback := hcovers.num_root_le_of_mem (List.pairwise_append.mp hdesc).1 hmem
    exact told hcovers hway hdesc hle (Nat.le_min.mpr ⟨hroot, hback⟩) hlow hother
  | case3 inner outer way hnot _ ih =>
    have hacross := (List.pairwise_append.mp hdesc).2.2 root hcovers.root_mem
    have hw := (List.mem_append.mp hw).resolve_left hnot
    have hwroot : num w < num root := hacross w hw
    have hbound := hcovers.spans.num_root_le
    cases hway with
    | @cons c' cs' calls' _ _ root' hcovers' hway =>
      have hroots : num root' < num root :=
        hacross root' (List.mem_append_left _ hcovers'.root_mem)
      -- the joined segment need not reach down to `w` yet
      have hjoined : Covers g num low (max (min l (num w)) (num root')) root' c (cs ++ c' :: cs')
          (inner.join outer) := hcovers.join hcovers' (by omega) (by omega) (by omega)
      have hcalls : cs ++ c' :: (cs' ++ calls') = (cs ++ c' :: cs') ++ calls' := by simp
      rw [hcalls]
      refine ih hjoined hway ?_ ?_ (by omega) (by omega)
      · simpa [Segment.join, List.append_assoc] using hdesc
      · simp only [Segment.join, List.flatMap_cons, List.append_assoc]
        exact List.mem_append_right _ hw
  | case4 inner outer way hnot hany =>
    obtain ⟨s, hs, hw⟩ := List.mem_flatMap.mp ((List.mem_append.mp hw).resolve_left hnot)
    exact absurd (List.any_eq_true.mpr ⟨s, hs, by simpa using hw⟩) hany

end Matches

end Matching

/-! ## The pass and its way -/

namespace Pass

variable {g : Graph} {s : Pass g} {c : Call} {calls : List Call} {way : List Segment} {v w : Nat}

def num (s : Pass g) (v : Nat) : Nat :=
  ((s.index[v]?).join).getD 0

private theorem lt_size_of_index (hv : s.index[v]? = some none) : v < g.size :=
  (Vector.getElem?_eq_some_iff.mp hv).1

private theorem num_enter (hv : v < g.size) (u : Nat) :
    (s.enter v).num u = if u = v then s.counter else s.num u := by
  simp only [num, enter, Vector.getElem?_setIfInBounds, hv, if_true]
  by_cases hu : u = v
  · simp [hu]
  · simp [hu, Ne.symm hu]

private theorem low_enter (hv : v < g.size) (u : Nat) :
    (s.enter v).low u = if u = v then s.counter else s.low u := by
  simp only [low, enter, Vector.getElem?_setIfInBounds, hv, if_true]
  by_cases hu : u = v
  · simp [hu]
  · simp [hu, Ne.symm hu]

private theorem low_lower (n u : Nat) :
    (s.lower v n).low u = if u = v then min (s.low v) n else s.low u := by
  simp only [low, lower, Vector.getElem?_setIfInBounds]
  by_cases hu : u = v
  · subst hu
    by_cases hv : u < g.size
    · simp [hv]
    · simp [hv]
  · simp [hu, Ne.symm hu]

private theorem low_lower_self (s : Pass g) (v n : Nat) :
    (s.lower v n).low v = min (s.low v) n := by
  rw [low_lower, if_pos rfl]

private theorem low_lower_of_ne (s : Pass g) (n : Nat) {u : Nat} (hu : u ≠ v) :
    (s.lower v n).low u = s.low u := by
  rw [low_lower, if_neg hu]

private theorem low_lower_le (s : Pass g) (v n u : Nat) : (s.lower v n).low u ≤ s.low u := by
  by_cases hu : u = v
  · subst hu
    exact s.low_lower_self u n ▸ Nat.min_le_left _ _
  · exact Nat.le_of_eq (s.low_lower_of_ne n hu)

@[simp] theorem tell_index (s : Pass g) (v : Nat) : (s.tell v).index = s.index := by
  unfold tell
  split <;> rfl

@[simp] theorem tell_onStack (s : Pass g) (v : Nat) : (s.tell v).onStack = s.onStack := by
  unfold tell
  split <;> rfl

@[simp] theorem tell_calls (s : Pass g) (v : Nat) : (s.tell v).calls = s.calls := by
  unfold tell
  split <;> rfl

@[simp] theorem tell_stack (s : Pass g) (v : Nat) : (s.tell v).stack = s.stack := by
  unfold tell
  split <;> rfl

@[simp] theorem tell_counter (s : Pass g) (v : Nat) : (s.tell v).counter = s.counter := by
  unfold tell
  split <;> rfl

@[simp] theorem tell_found (s : Pass g) (v : Nat) : (s.tell v).found = s.found := by
  unfold tell
  split <;> rfl

private theorem low_tell (h : ∀ c ∈ s.calls.head?, s.low c.node ≤ s.low v) :
    (s.tell v).low = s.low := by
  unfold tell
  split
  · rfl
  · rename_i outer _ hcalls
    have hle := h outer (by rw [hcalls]; rfl)
    funext x
    rw [low_lower]
    split
    · rename_i hx
      rw [hx, Nat.min_eq_left hle]
    · rfl

private theorem cut_append {upper : List Nat} (hv : v ∉ upper) (stack : List Nat) :
    cut v (upper ++ v :: stack) = (upper ++ [v], stack) := by
  induction upper with
  | nil => simp [cut]
  | cons w upper ih =>
    obtain ⟨hne, hv⟩ := not_or.mp fun hor => hv (List.mem_cons.mpr hor)
    rw [List.cons_append, cut, if_neg (Ne.symm hne), ih hv, List.cons_append]

private theorem onStack_cleared {n : Nat} (members : List Nat) (onStack : Vector Bool n) (u : Nat) :
    (members.foldl (fun onStack w => onStack.setIfInBounds w false) onStack)[u]? = some true ↔
      onStack[u]? = some true ∧ u ∉ members := by
  induction members generalizing onStack with
  | nil => simp
  | cons w members ih =>
    rw [List.foldl_cons, ih, Vector.getElem?_setIfInBounds]
    by_cases hw : w = u
    · subst hw
      simp
    · simp [hw, Ne.symm hw]

/-- What holds at every point of a pass whose calls fall into the segments of a way. -/
structure Tracks (s : Pass g) (way : List Segment) : Prop where
  calls : Matches g s.num s.low s.calls way
  stack : s.stack = way.flatMap Segment.members
  descending : Descending s.num s.stack
  onStack : ∀ v, s.onStack[v]? = some true ↔ v ∈ s.stack
  reached : ∀ v ∈ s.stack, s.index[v]? = some (some (s.num v))
  low_le : ∀ v ∈ s.stack, s.low v ≤ s.num v
  num_lt : ∀ v ∈ s.stack, s.num v < s.counter

namespace Tracks

private theorem start (g : Graph) : Tracks (Pass.start g) [] where
  calls := .nil
  stack := rfl
  descending := List.Pairwise.nil
  onStack v := by
    simp only [Pass.start, Vector.getElem?_replicate]
    split <;> simp
  reached := by simp [Pass.start]
  low_le := by simp [Pass.start]
  num_lt := by simp [Pass.start]

private theorem enter (h : Tracks s way) (hw : s.index[w]? = some none) :
    Tracks (s.enter w) (Segment.start g w :: way) := by
  have hlt := lt_size_of_index hw
  have hne : ∀ u ∈ s.stack, u ≠ w := by
    rintro u hu rfl
    simp [h.reached u hu] at hw
  have hnum : ∀ u ∈ s.stack, (s.enter w).num u = s.num u := fun u hu => by
    rw [num_enter hlt, if_neg (hne u hu)]
  have hlow : ∀ u ∈ s.stack, (s.enter w).low u = s.low u := fun u hu => by
    rw [low_enter hlt, if_neg (hne u hu)]
  have hnumw : (s.enter w).num w = s.counter := by rw [num_enter hlt, if_pos rfl]
  have hloww : (s.enter w).low w = s.counter := by rw [low_enter hlt, if_pos rfl]
  refine ⟨?_, ?_, ?_, ?_, ?_, ?_, ?_⟩
  · have hcovers : Covers g (s.enter w).num (s.enter w).low ((s.enter w).low w) w ⟨w, 0⟩ []
        (Segment.start g w) :=
      ⟨by simp [Segment.start, Call.pending], List.Sublist.refl _, ⟨[], rfl⟩,
        .root (Nat.le_of_eq (hnumw.trans hloww.symm))⟩
    exact Matches.cons (c := ⟨w, 0⟩) hcovers (h.calls.congr (h.stack ▸ hnum) (h.stack ▸ hlow))
  · exact congrArg (w :: ·) h.stack
  · refine List.pairwise_cons.mpr ⟨fun u hu => ?_, h.descending.imp_of_mem fun ha hb hlt => ?_⟩
    · rw [hnumw, hnum u hu]
      exact h.num_lt u hu
    · rwa [hnum _ ha, hnum _ hb]
  · intro u
    simp only [Pass.enter, Vector.getElem?_setIfInBounds, hlt, if_true, List.mem_cons]
    by_cases hu : u = w
    · simp [hu]
    · simp [hu, Ne.symm hu, h.onStack]
  · refine List.forall_mem_cons.mpr ⟨?_, fun u hu => ?_⟩
    · rw [hnumw]
      simp [Pass.enter, hlt]
    · rw [hnum u hu, ← h.reached u hu]
      simp [Pass.enter, Ne.symm (hne u hu)]
  · refine List.forall_mem_cons.mpr ⟨Nat.le_of_eq (hloww.trans hnumw.symm), fun u hu => ?_⟩
    rw [hnum u hu, hlow u hu]
    exact h.low_le u hu
  · refine List.forall_mem_cons.mpr ⟨?_, fun u hu => ?_⟩
    · rw [hnumw]
      exact Nat.lt_succ_self s.counter
    · rw [hnum u hu]
      exact Nat.lt_succ_of_lt (h.num_lt u hu)

private theorem advance {next : Nat} (h : Tracks s way) (hcalls : s.calls = ⟨v, next⟩ :: calls)
    (hw : (g.targets v)[next]? = some w) :
    ∃ members pending outer, way = ⟨members, w :: pending⟩ :: outer ∧
      Tracks { s with calls := ⟨v, next + 1⟩ :: calls } (⟨members, pending⟩ :: outer) := by
  obtain ⟨cs, calls, ⟨members, pending⟩, outer, root, rfl, rfl, hcovers, hway⟩ :=
    (hcalls ▸ h.calls).exists_of_cons
  have hpending : pending =
      w :: (Call.mk v (next + 1) :: cs).flatMap (Call.pending g) := by
    have hlinks : Call.pending g ⟨v, next⟩ = w :: Call.pending g ⟨v, next + 1⟩ := by
      rw [Call.pending, List.drop_eq_getElem?_toList_append, hw]
      rfl
    have hall : pending = (Call.mk v next :: cs).flatMap (Call.pending g) := hcovers.pending
    rw [hall, List.flatMap_cons, hlinks]
    rfl
  have hcovers' : Covers g s.num s.low (s.low v) root ⟨v, next + 1⟩ cs
      ⟨members, (Call.mk v (next + 1) :: cs).flatMap (Call.pending g)⟩ :=
    ⟨rfl, hcovers.sublist, hcovers.root_last, hcovers.spans⟩
  exact ⟨members, _, outer, by rw [hpending], { h with calls := .cons hcovers' hway }⟩

private theorem lower {inner : Segment} (h : Tracks s (inner :: way))
    (hcalls : s.calls = c :: calls) (hw : w ∈ s.stack) :
    Tracks (s.lower c.node (s.num w)) (Graph.close w inner way) := by
  obtain ⟨cs, outer, _, _, root, rfl, heq, hcovers, hway⟩ := (hcalls ▸ h.calls).exists_of_cons
  obtain ⟨rfl, rfl⟩ := List.cons.inj heq
  refine { h with calls := ?_, stack := ?_, low_le := fun u hu => ?_ }
  · have hclose := Matches.close hcovers hway (h.stack ▸ h.descending) (h.stack ▸ hw)
      (Nat.min_le_left _ _) hcovers.spans.num_root_le (s.low_lower_self c.node (s.num w))
      fun u hu => s.low_lower_of_ne (s.num w) hu
    rw [← hcalls] at hclose
    exact hclose
  · rw [flatMap_members_close]
    exact h.stack
  · exact Nat.le_trans (s.low_lower_le c.node (s.num w) u) (h.low_le u hu)

/-- A call that goes back inside its segment tells the next one a number below its own. -/
private theorem leave_within {next root : Nat} {u : Call} {us : List Call} {inner : Segment}
    (h : Tracks s (inner :: way))
    (hcovers : Covers g s.num s.low (s.low v) root ⟨v, next⟩ (u :: us) inner)
    (hway : Matches g s.num s.low calls way) (hend : Call.pending g ⟨v, next⟩ = []) :
    (Pass.leave { s with calls := u :: (us ++ calls) } v).fresh = s.fresh ∧
      (Pass.leave { s with calls := u :: (us ++ calls) } v).found = s.found ∧
      Tracks (Pass.leave { s with calls := u :: (us ++ calls) } v) (inner :: way) := by
  obtain ⟨hinner, _, hacross⟩ := List.pairwise_append.mp (h.stack ▸ h.descending)
  have hspans : Spans s.num s.low (s.low v) (v :: u.node :: us.map Call.node) root := hcovers.spans
  obtain ⟨hvus, huus⟩ := List.nodup_cons.mp ((Descending.nodup hinner).sublist hcovers.sublist)
  have hvu : v ≠ u.node := fun heq => hvus (heq ▸ List.mem_cons_self)
  have humem : u.node ∈ inner.members := hcovers.sublist.subset (by simp)
  have hvmem : v ∈ s.stack := by
    rw [h.stack]
    exact List.mem_append_left _ hcovers.node_mem
  cases hspans with
  | step hback houter =>
    let told := Pass.lower { s with calls := u :: (us ++ calls) } u.node (s.low v)
    have hlow (x : Nat) (hx : x ≠ u.node) : told.low x = s.low x := low_lower_of_ne _ (s.low v) hx
    have hlowu : told.low u.node = min (s.low v) (s.low u.node) :=
      (low_lower_self _ u.node (s.low v)).trans (Nat.min_comm _ _)
    have hleave : Pass.leave { s with calls := u :: (us ++ calls) } v = told := by
      have hindex : told.index[v]? = some (some (s.num v)) := h.reached v hvmem
      refine if_neg fun hroot => ?_
      have hnum : s.num v = told.low v :=
        Option.some.inj (Option.some.inj (hindex.symm.trans hroot))
      rw [hlow v hvu] at hnum
      omega
    rw [hleave]
    refine ⟨rfl, rfl, ?_⟩
    have hcovers' : Covers g s.num told.low (told.low u.node) root u us inner := by
      refine ⟨?_, List.sublist_of_cons_sublist hcovers.sublist, hcovers.root_last, ?_⟩
      · rw [hcovers.pending, List.flatMap_cons, hend, List.nil_append]
      · rw [hlowu]
        refine houter.congr (fun _ _ => rfl) fun x hx => hlow x ?_
        rintro rfl
        exact (List.nodup_cons.mp huus).1 hx
    have hway' : Matches g s.num told.low calls way := by
      refine hway.congr (fun _ _ => rfl) fun x hx => hlow x ?_
      rintro rfl
      exact Nat.lt_irrefl _ (hacross _ humem _ hx)
    refine { h with calls := Matches.cons hcovers' hway', low_le := fun x hx => ?_ }
    exact Nat.le_trans (low_lower_le _ u.node (s.low v) x) (h.low_le x hx)

private theorem complete {t : Pass g} {inner : Segment} (h : Tracks s (inner :: way))
    (hindex : t.index = s.index) (hlow : t.low = s.low) (honStack : t.onStack = s.onStack)
    (hcounter : t.counter = s.counter) (hcalls : Matches g s.num s.low t.calls way)
    (hcut : cut v t.stack = (inner.members, way.flatMap Segment.members)) :
    Tracks (t.complete v) way := by
  obtain ⟨_, hrest, hacross⟩ := List.pairwise_append.mp (h.stack ▸ h.descending)
  have hcomplete : t.complete v =
      { t with
        onStack := inner.members.foldl (fun onStack w => onStack.setIfInBounds w false) t.onStack
        stack := way.flatMap Segment.members
        found := inner.members :: t.found } := by
    rw [Pass.complete, hcut]
  have hnum : (t.complete v).num = s.num := by
    rw [hcomplete]
    funext x
    simp only [num, hindex]
  have hlow : (t.complete v).low = s.low := by
    rw [hcomplete]
    exact hlow
  have hstack : (t.complete v).stack = way.flatMap Segment.members := by rw [hcomplete]
  have hbelow : ∀ x ∈ (t.complete v).stack, x ∈ s.stack := by
    rw [hstack, h.stack]
    exact fun x => List.mem_append_right _
  refine ⟨?_, hstack, ?_, fun x => ?_, fun x hx => ?_, fun x hx => ?_, fun x hx => ?_⟩
  · rw [hnum, hlow, hcomplete]
    exact hcalls
  · rw [hnum, hstack]
    exact hrest
  · have hin : x ∈ s.stack ↔ x ∈ inner.members ∨ x ∈ way.flatMap Segment.members := by
      rw [h.stack]
      exact List.mem_append
    rw [hstack, hcomplete]
    change (List.foldl _ t.onStack inner.members)[x]? = some true ↔ _
    rw [onStack_cleared, honStack, h.onStack, hin, and_comm, and_or_left]
    simp only [not_and_self_iff, false_or, and_iff_right_iff_imp]
    exact fun hx hmem => Nat.lt_irrefl _ (hacross x hmem x hx)
  · rw [hnum, ← h.reached x (hbelow x hx), hcomplete]
    exact congrArg (·[x]?) hindex
  · rw [hnum, hlow]
    exact h.low_le x (hbelow x hx)
  · rw [hnum, hcomplete]
    exact hcounter ▸ h.num_lt x (hbelow x hx)

private theorem cut_stack {m root : Nat} {cs : List Call} {inner : Segment}
    (h : Tracks s (inner :: way)) (hcovers : Covers g s.num s.low m root c cs inner) :
    cut root s.stack = (inner.members, way.flatMap Segment.members) := by
  obtain ⟨upper, hmembers⟩ := hcovers.root_last
  have hstack : s.stack = upper ++ root :: way.flatMap Segment.members := by
    rw [h.stack, List.flatMap_cons, hmembers, List.append_assoc]
    rfl
  have hupper : root ∉ upper := by
    have hnodup := h.descending.nodup
    rw [hstack] at hnodup
    exact fun hmem => (List.nodup_append.mp hnodup).2.2 root hmem root List.mem_cons_self rfl
  rw [hstack, cut_append hupper, hmembers]

/-- A call that goes back out of its segment completes a component. -/
private theorem leave_root {next root : Nat} {inner : Segment} (h : Tracks s (inner :: way))
    (hcovers : Covers g s.num s.low (s.low v) root ⟨v, next⟩ [] inner)
    (hway : Matches g s.num s.low calls way) :
    (Pass.leave { s with calls := calls } v).fresh = s.fresh ∧
      (Pass.leave { s with calls := calls } v).found = inner.members :: s.found ∧
      Tracks (Pass.leave { s with calls := calls } v) way := by
  have hacross := (List.pairwise_append.mp (h.stack ▸ h.descending)).2.2
  have hvmem : v ∈ s.stack := by
    rw [h.stack]
    exact List.mem_append_left _ hcovers.node_mem
  obtain ⟨rfl, hroot⟩ : root = v ∧ s.num v ≤ s.low v := by
    have hspans : Spans s.num s.low (s.low v) [v] root := hcovers.spans
    cases hspans with
    | root hroot => exact ⟨rfl, hroot⟩
  have hlowroot : s.low root = s.num root := Nat.le_antisymm (h.low_le root hvmem) hroot
  let told := Pass.tell { s with calls := calls } root
  have hlow : told.low = s.low := by
    refine low_tell fun c hc => ?_
    have hcmem : c.node ∈ way.flatMap Segment.members :=
      hway.sublist.subset (List.mem_map_of_mem (List.mem_of_mem_head? hc))
    have hle : s.low c.node ≤ s.num c.node :=
      h.low_le c.node (h.stack ▸ List.mem_append_right _ hcmem)
    have hlt : s.num c.node < s.num root := hacross root hcovers.node_mem _ hcmem
    change s.low c.node ≤ s.low root
    omega
  have hcut : cut root told.stack = (inner.members, way.flatMap Segment.members) :=
    (congrArg (cut root) (tell_stack _ root)).trans (h.cut_stack hcovers)
  have hindex : told.index = s.index := tell_index _ root
  have hleave : Pass.leave { s with calls := calls } root = told.complete root := by
    refine if_pos ?_
    rw [tell_index, hlow, hlowroot]
    exact h.reached root hvmem
  rw [hleave]
  refine ⟨?_, ?_, ?_⟩
  · simp only [Pass.complete, fresh, hindex]
  · rw [Pass.complete, hcut]
    exact congrArg (inner.members :: ·) (tell_found _ root)
  · exact h.complete hindex hlow (tell_onStack _ root) (tell_counter _ root)
      ((tell_calls _ root).symm ▸ hway) hcut

private theorem leave {next : Nat} (h : Tracks s way) (hcalls : s.calls = ⟨v, next⟩ :: calls)
    (hend : (g.targets v)[next]? = none) :
    ∃ way', Tracks (Pass.leave { s with calls := calls } v) way' ∧
      search g s.fresh way s.found =
        search g (Pass.leave { s with calls := calls } v).fresh way'
          (Pass.leave { s with calls := calls } v).found := by
  obtain ⟨cs, calls, inner, outer, root, rfl, rfl, hcovers, hway⟩ :=
    (hcalls ▸ h.calls).exists_of_cons
  have hpending : Call.pending g ⟨v, next⟩ = [] :=
    List.drop_eq_nil_of_le (List.getElem?_eq_none_iff.mp hend)
  cases cs with
  | nil =>
    obtain ⟨hfresh, hfound, htracks⟩ := h.leave_root hcovers hway
    obtain ⟨members, pending⟩ := inner
    obtain rfl : pending = [] := by simpa [hpending] using hcovers.pending
    refine ⟨outer, htracks, ?_⟩
    rw [search]
    exact congrArg₂ (search g · outer ·) hfresh.symm hfound.symm
  | cons u us =>
    obtain ⟨hfresh, hfound, htracks⟩ := h.leave_within hcovers hway hpending
    exact ⟨inner :: outer, htracks,
      congrArg₂ (search g · (inner :: outer) ·) hfresh.symm hfound.symm⟩

private theorem close_of_notMem {inner : Segment}
    (hw : w ∉ (inner :: way).flatMap Segment.members) : Graph.close w inner way = inner :: way := by
  obtain ⟨hinner, hway⟩ := not_or.mp fun hor => hw (List.mem_append.mpr hor)
  cases way with
  | nil => rfl
  | cons outer way =>
    have hany : ¬(outer :: way).any (w ∈ ·.members) = true := by
      intro hany
      obtain ⟨s, hs, hmem⟩ := List.any_eq_true.mp hany
      exact hway (List.mem_flatMap.mpr ⟨s, hs, by simpa using hmem⟩)
    rw [Graph.close, if_neg hinner, if_neg hany]

private theorem follow {inner : Segment} (h : Tracks s (inner :: way))
    (hcalls : s.calls = c :: calls) (hw : w < g.size) :
    ∃ way', Tracks (s.follow c.node w) way' ∧
      search g s.fresh (⟨inner.members, w :: inner.pending⟩ :: way) s.found =
        search g (s.follow c.node w).fresh way' (s.follow c.node w).found := by
  have hfresh : w ∈ s.fresh ↔ s.index[w]? = some none := mem_fresh_iff
  unfold Pass.follow
  split
  · rename_i hnew
    refine ⟨_, h.enter hnew, ?_⟩
    rw [search, if_pos (hfresh.mpr hnew), fresh_enter]
    rfl
  · rename_i index hindex
    have hold : w ∉ s.fresh := by simp [hfresh, hindex]
    rw [search, if_neg hold]
    split
    · rename_i hon
      have hnum : s.num w = index := by simp [num, hindex]
      exact ⟨_, hnum ▸ h.lower hcalls ((h.onStack w).mp hon), rfl⟩
    · rename_i hoff
      have hstack : w ∉ (inner :: way).flatMap Segment.members := by
        rw [← h.stack, ← h.onStack]
        exact hoff
      exact ⟨_, h, by rw [close_of_notMem hstack]⟩
  · rename_i hnone
    simp [hw] at hnone

/-- A pass until its way has been gone back is as far as the search by segments then. -/
private theorem run (hg : g.Valid) (h : Tracks s way) :
    Tracks s.run [] ∧ search g s.fresh way s.found = search g s.run.fresh [] s.run.found := by
  fun_induction Pass.run s generalizing way with
  | case1 s hcalls =>
    have hmatches := h.calls
    rw [hcalls] at hmatches
    cases hmatches
    exact ⟨h, rfl⟩
  | case2 s v next calls hcalls w hw ih =>
    obtain ⟨members, pending, outer, rfl, hadvance⟩ := h.advance hcalls hw
    obtain ⟨way, htracks, heq⟩ := hadvance.follow rfl (hg v w (List.mem_of_getElem? hw))
    obtain ⟨hrun, hrest⟩ := ih htracks
    exact ⟨hrun, heq.trans hrest⟩
  | case3 s v next calls hcalls hend ih =>
    obtain ⟨way, htracks, heq⟩ := h.leave hcalls hend
    obtain ⟨hrun, hrest⟩ := ih htracks
    exact ⟨hrun, heq.trans hrest⟩

end Tracks

private theorem fresh_start (g : Graph) : (start g).fresh = g.nodes := by
  refine List.filter_eq_self.mpr fun v hv => ?_
  have hlt := mem_nodes.mp hv
  simp [start, hlt]

private theorem fresh_eq_cons {before vs : List Nat} (hnodes : g.nodes = before ++ v :: vs)
    (hbefore : ∀ u ∈ before, u ∉ s.fresh) (hnew : s.index[v]? = some none) :
    s.fresh = v :: s.fresh.erase v := by
  have hnone : before.filter (s.index[·]? = some none) = [] := by
    simpa [mem_fresh_iff] using hbefore
  rw [fresh, hnodes, List.filter_append, hnone, List.nil_append,
    List.filter_cons_of_pos (by simpa using hnew), List.erase_cons_head]

private theorem fresh_follow_subset (s : Pass g) (v w : Nat) : (s.follow v w).fresh ⊆ s.fresh := by
  unfold follow
  split
  · rw [fresh_enter]
    exact List.erase_subset
  · split <;> exact List.Subset.refl _
  · exact List.Subset.refl _

private theorem fresh_leave (s : Pass g) (v : Nat) : (s.leave v).fresh = s.fresh := by
  unfold leave
  dsimp only
  split <;> simp [fresh, complete]

private theorem fresh_run_subset (s : Pass g) : s.run.fresh ⊆ s.fresh := by
  fun_induction Pass.run s with
  | case1 => exact List.Subset.refl _
  | case2 s v next calls _ w _ ih => exact List.Subset.trans ih (fresh_follow_subset _ v w)
  | case3 s v next calls _ _ ih =>
    rw [fresh_leave] at ih
    exact ih

/-- Every number has been given to a node that is no longer fresh. -/
def Counted (s : Pass g) : Prop :=
  s.counter + s.fresh.length = g.size

namespace Counted

variable {s : Pass g}

private theorem start (g : Graph) : (Pass.start g).Counted := by
  rw [Counted, fresh_start, nodes, List.length_range]
  exact Nat.zero_add _

private theorem enter (h : s.Counted) {v : Nat} (hv : s.index[v]? = some none) :
    (s.enter v).Counted := by
  have hmem := mem_fresh_iff.mpr hv
  have hpos := List.length_pos_of_mem hmem
  unfold Counted at h ⊢
  rw [fresh_enter, List.length_erase_of_mem hmem, ← h]
  simp only [Pass.enter]
  omega

private theorem calling (h : s.Counted) (calls : List Call) : { s with calls := calls }.Counted :=
  h

private theorem follow (h : s.Counted) (v w : Nat) : (s.follow v w).Counted := by
  unfold Pass.follow
  split
  · exact h.enter ‹_›
  · split <;> exact h
  · exact h

private theorem leave (h : s.Counted) (v : Nat) : (s.leave v).Counted := by
  unfold Counted at h ⊢
  rw [fresh_leave, ← h]
  unfold Pass.leave tell
  dsimp only
  split <;> split <;> rfl

private theorem run (h : s.Counted) : s.run.Counted := by
  fun_induction Pass.run s with
  | case1 => exact h
  | case2 s v next calls _ w _ ih => exact ih ((h.calling _).follow v w)
  | case3 s v next calls _ _ ih => exact ih ((h.calling _).leave v)

private theorem visit (h : s.Counted) (v : Nat) : (s.visit v).Counted := by
  unfold Pass.visit
  split
  · exact (h.enter ‹_›).run
  · exact h

end Counted

/-- A pass gives no more numbers than there are nodes. -/
theorem counter_pass_le (g : Graph) : g.pass.counter ≤ g.size :=
  Nat.le.intro (List.foldlRecOn g.nodes Pass.visit (Counted.start g) fun _ h v _ => h.visit v)

end Pass

private theorem Pass.Tracks.foldl {g : Graph} (hg : g.Valid) {s : Pass g} (h : Tracks s [])
    {before vs : List Nat} (hnodes : g.nodes = before ++ vs) (hbefore : ∀ v ∈ before, v ∉ s.fresh) :
    search g s.fresh [] s.found = (vs.foldl Pass.visit s).found := by
  induction vs generalizing s before with
  | nil =>
    have hfresh : s.fresh = [] := by
      refine List.eq_nil_iff_forall_not_mem.mpr fun v hv => hbefore v ?_ hv
      have hmem := (List.mem_filter.mp hv).1
      rwa [hnodes, List.append_nil] at hmem
    rw [hfresh, search]
    rfl
  | cons v vs ih =>
    have hnext := hnodes.trans (List.append_cons before v vs)
    rw [List.foldl_cons, Pass.visit]
    split
    · rename_i hnew
      have hnodup : s.fresh.Nodup := g.nodup_nodes.filter _
      have hfresh := Pass.fresh_eq_cons hnodes hbefore hnew
      obtain ⟨hrun, heq⟩ := (h.enter hnew).run hg
      rw [Pass.fresh_enter] at heq
      rw [← ih hrun hnext fun u hu hmem => ?_, ← heq, hfresh, search, List.erase_cons_head]
      · rfl
      have hmem := s.fresh_enter v ▸ (s.enter v).fresh_run_subset hmem
      rcases List.mem_append.mp hu with hu | hu
      · exact hbefore u hu (List.mem_of_mem_erase hmem)
      · obtain rfl := List.mem_singleton.mp hu
        exact hnodup.not_mem_erase hmem
    · rename_i hold
      refine ih h hnext fun u hu => ?_
      rcases List.mem_append.mp hu with hu | hu
      · exact hbefore u hu
      · obtain rfl := List.mem_singleton.mp hu
        rwa [Pass.mem_fresh_iff]

/-- The pass finds what the search by segments finds. -/
theorem stronglyConnected_eq_search {g : Graph} (hg : g.Valid) :
    g.stronglyConnected = search g g.nodes [] [] := by
  have hfold := (Pass.Tracks.start g).foldl hg (List.nil_append g.nodes).symm (by simp)
  rw [Pass.fresh_start] at hfold
  exact hfold.symm

end UiCatalog.Graph
