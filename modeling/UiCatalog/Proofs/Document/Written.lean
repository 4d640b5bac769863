import UiCatalog.Document
import UiCatalog.Proofs.Block.File
import UiCatalog.Proofs.Block.Writing
/-!
# Written texts

Blocks that have been written as a text can be read back, whatever characters their texts have.
-/

namespace UiCatalog

open Grammar

namespace Block

private theorem exists_isFile_writeAll {blocks : List Block}
    (hnames : ∀ block ∈ blocks, Text.trim block.name ≠ "")
    (hattributes : ∀ block ∈ blocks, ∀ name body,
      .addAttribute name body ∈ block.statements → Text.trim name ≠ "") :
    ∃ read, IsFile (Token.scan (writeAll blocks)) read ∧ read.map Prod.fst = blocks.map bare := by
  have hfile {ts : List Token} {blocks : List Block}
      (h : Many (fun ts block => ∃ extent, IsBlock ts (block.bare, extent)) ts blocks) :
      ∃ read, IsFile ts read ∧ read.map Prod.fst = blocks.map bare := by
    induction h with
    | nil => exact ⟨[], .nil, rfl⟩
    | @cons _ _ block _ hblock _ ih =>
      obtain ⟨extent, hblock⟩ := hblock
      obtain ⟨read, hread, hmap⟩ := ih
      exact ⟨(block.bare, extent) :: read, .cons hblock hread, congrArg (block.bare :: ·) hmap⟩
  have hspells : ∀ block ∈ blocks, Token.Spells block.write fun ts =>
      ∃ extent, IsBlock ts (block.bare, extent) := by
    intro block hblock
    exact spells_write (hnames block hblock) (hattributes block hblock)
  exact hfile (spells_join hspells).scan

end Block

namespace Document

/-- Blocks whose names and attributes' names are not blank are read back from what is written of
them, without fault and but for their origins the same. -/
theorem ofText_writeAll (source : SourceId) {blocks : List Block}
    (hnames : ∀ block ∈ blocks, Text.trim block.name ≠ "")
    (hattributes : ∀ block ∈ blocks, ∀ name body,
      .addAttribute name body ∈ block.statements → Text.trim name ≠ "") :
    (ofText source (Block.writeAll blocks)).faults = [] ∧
      (ofText source (Block.writeAll blocks)).blocks.map Block.bare = blocks.map Block.bare := by
  obtain ⟨read, hfile, hmap⟩ := Block.exists_isFile_writeAll hnames hattributes
  have hread := Block.readAll_complete hfile
  refine ⟨by rw [ofText, ofTokens, hread]; rfl, ?_⟩
  calc (ofText source (Block.writeAll blocks)).blocks.map Block.bare
      = (read.map Prod.fst).map Block.bare := by
        simp only [ofText, ofTokens, hread, Outcome.clean, List.map_map]
        rfl
    _ = (blocks.map Block.bare).map Block.bare := by rw [hmap]
    _ = blocks.map Block.bare := by
        rw [List.map_map]
        rfl

/-- Quotes, backslashes, line feeds and what would open a comment are no different. -/
theorem ofText_writeAll_menu :
    let menu : Block := ⟨.menu, "A \"//\" \\", [.addChild .command "/*",
      .addAttribute "\n\\n" [⟨.typeLink, "*/\""⟩], .addProperty "" "\x7d"], none⟩
    Text.trim menu.name ≠ "" ∧ Text.trim "\n\\n" ≠ "" ∧
      (ofText 0 (Block.writeAll [menu])).faults = [] ∧
      (ofText 0 (Block.writeAll [menu])).blocks.map Block.bare = [menu] := by
  intro menu
  have hname : Text.trim menu.name ≠ "" := by decide
  have hattribute : Text.trim "\n\\n" ≠ "" := by decide
  have hnames : ∀ block ∈ [menu], Text.trim block.name ≠ "" := by
    intro block hblock
    rw [List.mem_singleton.mp hblock]
    exact hname
  have hattributes : ∀ block ∈ [menu], ∀ name body,
      .addAttribute name body ∈ block.statements → Text.trim name ≠ "" := by
    intro block hblock name body hstatement
    rw [List.mem_singleton.mp hblock] at hstatement
    have hdeclared : name = "\n\\n" ∧ body = [⟨.typeLink, "*/\""⟩] := by
      simpa [menu] using hstatement
    rw [hdeclared.1]
    exact hattribute
  obtain ⟨hfaults, hblocks⟩ := ofText_writeAll 0 hnames hattributes
  exact ⟨hname, hattribute, hfaults, hblocks⟩

end Document

end UiCatalog
