import Mathlib.Logic.Relation
import UiCatalog.Links
import UiCatalog.Options
import UiCatalog.Proofs.Definition.Contents
/-!
# Well formed blocks

What blocks must be like for a load of them to have nothing to report. All of it is said about the
names and statements in the blocks, without a registry and without looking anything up.
-/

namespace UiCatalog

open Relation

namespace Blocks

/-- Whether a block has a name and one of some kinds. -/
def Offer (blocks : List Block) (name : String) (kinds : List Kind) : Prop :=
  ∃ b ∈ blocks, b.name = name ∧ b.kind ∈ kinds

/-- Whether `p` is declared as the parent of `a`. -/
def Parent (blocks : List Block) (a p : String) : Prop :=
  ∃ b ∈ blocks, b.name = a ∧ .setParent p ∈ b.statements

/-- Whether `c` is declared as a child of `a`. -/
def Child (blocks : List Block) (a c : String) : Prop :=
  ∃ b ∈ blocks, b.name = a ∧ ∃ kind, .addChild kind c ∈ b.statements

/-- A type, its parent and so on up to a type without parent. -/
inductive Lineage (blocks : List Block) : List Block → Prop where
  | root {b : Block} (hb : b ∈ blocks) (hkind : b.kind = .type)
    (hnone : ∀ p, .setParent p ∉ b.statements) : Lineage blocks [b]
  | step {b p : Block} {ps : List Block} (hb : b ∈ blocks) (hkind : b.kind = .type)
    (hp : .setParent p.name ∈ b.statements) (hps : Lineage blocks (p :: ps)) :
    Lineage blocks (b :: p :: ps)

end Blocks

/-- Whether everything that a block mentions is there, with a kind that may stand where it is
mentioned. -/
structure Block.Linked (o : Options) (blocks : List Block) (b : Block) : Prop where
  children : ∀ kind name, .addChild kind name ∈ b.statements →
    Blocks.Offer blocks name (if o.checkChildKinds then [kind.kind] else [.command, .menu])
  table : ∀ name, .addTargetTable name ∈ b.statements → Blocks.Offer blocks name [.table]
  form : ∀ name, .addTargetForm name ∈ b.statements → Blocks.Offer blocks name [.form]
  menu : ∀ name, .addTargetMenu name ∈ b.statements → Blocks.Offer blocks name [.menu]
  queryTypes : b.kind.isNavigable → ∀ text, b.property? "TargetQueryTypes" = some text →
    ∀ name ∈ Target.separatedNames o.separator text, Blocks.Offer blocks name [.type]
  expand : b.kind.isNavigable → ∀ text, b.property? "TargetExpand" = some text →
    Text.trim text ≠ "" → Blocks.Offer blocks (splitExpand (Text.trim text)).1 [.type]
  typeLinks : ∀ name body, .addAttribute name body ∈ b.statements →
    ∀ link, ⟨.typeLink, link⟩ ∈ body → Blocks.Offer blocks link [.type]
  linkTypes : ∀ name body, .addAttribute name body ∈ b.statements →
    ∀ tag ∈ ["Link", "LinkWithRanges", "Status"], ⟨.type, tag⟩ ∈ body →
    ∃ link, ⟨.typeLink, link⟩ ∈ body

end UiCatalog
