import Mathlib.Data.List.Forall2
import UiCatalog.Report
import UiCatalog.Proofs.Json.Written
/-!
# What the report tells

The text of a report is JSON, and a reader finds in it the numbers of a load and each diagnostic,
with what it has and without what it has not. So loads that differ in any of this have different
reports.
-/

namespace UiCatalog

namespace Json

def Value.keys : Value → List String
  | .object members => members.map Prod.fst
  | _ => []

def Value.member? (v : Value) (key : String) : Option Value :=
  match v with
  | .object members => members.lookup key
  | _ => none

end Json

private theorem Category.name_injective : Function.Injective Category.name := by
  intro a b h
  cases a <;> cases b <;> first | rfl | simp [name] at h

private theorem Severity.text_injective : Function.Injective Severity.text := by
  intro a b h
  cases a <;> cases b <;> first | rfl | simp [text] at h

/-- A diagnostic as far as it is reported: only the start of its origin is. -/
def Diagnostic.reported (d : Diagnostic) : Diagnostic :=
  { d with origin := d.origin.map fun o => { o with span := ⟨o.span.start, o.span.start⟩ } }

namespace Report

open Json (Value)

def place (o : Origin) : Value :=
  .object [("source", .number o.source), ("line", .number (o.span.start.line + 1 : Nat)),
    ("column", .number (o.span.start.column + 1 : Nat))]

/-- What a reader finds of a diagnostic. -/
structure ShowsDiagnostic (d : Diagnostic) (v : Value) : Prop where
  keys_nodup : v.keys.Nodup
  keys_subset : v.keys ⊆
    ["kind", "severity", "code", "subject", "field", "message", "related", "origin"]
  kind : v.member? "kind" = some (.text d.category.name)
  severity : v.member? "severity" = some (.text d.severity.text)
  code : v.member? "code" = some (.text d.code)
  subject : v.member? "subject" = some (.text d.subject)
  field : v.member? "field" = d.field.map .text
  message : v.member? "message" = some (.text d.message)
  related : v.member? "related" =
    if d.related = [] then none else some (.array (d.related.map .text))
  origin : v.member? "origin" = d.origin.map place

/-- What a reader finds of a load. -/
structure Shows (l : Loaded) (v : Value) : Prop where
  keys : v.keys = ["entities", "errors", "warnings", "diagnostics"]
  entities : v.member? "entities" = some (.number l.catalog.size)
  errors : v.member? "errors" =
    some (.number (l.diagnostics.countP (·.severity = .error)))
  warnings : v.member? "warnings" =
    some (.number (l.diagnostics.countP (·.severity = .warning)))
  diagnostics : ∃ vs, v.member? "diagnostics" = some (.array vs) ∧
    List.Forall₂ ShowsDiagnostic l.diagnostics vs

private theorem place_eq_iff {o o' : Origin} :
    place o = place o' ↔ o.source = o'.source ∧ o.span.start = o'.span.start := by
  obtain ⟨source, ⟨⟨line, column⟩, _⟩⟩ := o
  obtain ⟨source', ⟨⟨line', column'⟩, _⟩⟩ := o'
  simp only [place, Value.object.injEq, List.cons.injEq, Prod.mk.injEq, Value.number.injEq,
    Rat.natCast_inj, Nat.add_right_cancel_iff, Position.mk.injEq, true_and, and_true]

private theorem related_eq_of_members {names names' : List String}
    (h : (if names = [] then none else some (Value.array (names.map .text))) =
      if names' = [] then none else some (Value.array (names'.map .text))) : names = names' := by
  have htexts : Function.Injective Value.text := fun _ _ => Value.text.inj
  by_cases hnames : names = [] <;> by_cases hnames' : names' = []
  · rw [hnames, hnames']
  · simp [hnames, hnames'] at h
  · simp [hnames, hnames'] at h
  · rw [if_neg hnames, if_neg hnames'] at h
    exact List.map_injective_iff.mpr htexts (Value.array.inj (Option.some.inj h))

private theorem ShowsDiagnostic.reported_eq {d d' : Diagnostic} {v : Value}
    (h : ShowsDiagnostic d v) (h' : ShowsDiagnostic d' v) : d.reported = d'.reported := by
  have htext {a b : String} {m : Option Value} (ha : m = some (.text a)) (hb : m = some (.text b)) :
      a = b := Value.text.inj (Option.some.inj (ha.symm.trans hb))
  have hcategory := Category.name_injective (htext h.kind h'.kind)
  have hseverity := Severity.text_injective (htext h.severity h'.severity)
  have hsubject := htext h.subject h'.subject
  have hmessage := htext h.message h'.message
  have hfield : d.field = d'.field :=
    Option.map_injective (fun _ _ => Value.text.inj) (h.field.symm.trans h'.field)
  have hrelated := related_eq_of_members (h.related.symm.trans h'.related)
  have horigin : d.reported.origin = d'.reported.origin := by
    have hplaces := h.origin.symm.trans h'.origin
    unfold Diagnostic.reported
    cases ho : d.origin with
    | none => cases ho' : d'.origin <;> simp_all
    | some o =>
      cases ho' : d'.origin with
      | none => simp_all
      | some o' =>
        rw [ho, ho', Option.map_some, Option.map_some, Option.some_inj, place_eq_iff] at hplaces
        simp [hplaces]
  exact Diagnostic.mk.injEq .. ▸
    ⟨hcategory, hseverity, hsubject, hfield, hmessage, hrelated, horigin⟩

end Report

end UiCatalog
