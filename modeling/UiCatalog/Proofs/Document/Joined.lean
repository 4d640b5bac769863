import UiCatalog.Document
import UiCatalog.Proofs.Block.File
import UiCatalog.Proofs.Block.Moved
/-!
# Joined texts

A text without fault does not matter to what comes after it on a new line: the blocks and the faults
of the second text are what they are without the first one, only further down.
-/

namespace UiCatalog

def Block.down (n : Nat) (block : Block) : Block :=
  { block with origin := block.origin.map fun origin => ⟨origin.source, origin.span.down n⟩ }

/-- The fault in a text that starts `m` bytes and `n` lines further down. -/
def LocatedFault.down (m n : Nat) (f : LocatedFault) : LocatedFault :=
  ⟨f.fault.move m, f.span.down n⟩

namespace LineStarts

variable (a b : String)

private theorem span_append_left {e : Extent} (hstart : e.start ≤ a.utf8ByteSize)
    (hstop : e.stop ≤ a.utf8ByteSize) :
    (ofText (a ++ "\n" ++ b)).span e = (ofText a).span e := by
  rw [span, span, position_append_left a b hstart, position_append_left a b hstop]

private theorem span_append_right (e : Extent) :
    (ofText (a ++ "\n" ++ b)).span (e.move (a.utf8ByteSize + 1)) =
      ((ofText b).span e).down (a.toList.count '\n' + 1) := by
  rw [span, Extent.move, position_append_right, position_append_right]
  rfl

end LineStarts

namespace Token

private theorem scan_append_lineFeed {a : String} (ha : Grammar.AllValid (scan a)) (b : String) :
    scan (a ++ "\n" ++ b) = scan a ++ (scan b).map (move (a.utf8ByteSize + 1)) := by
  rw [scan, toList_append_lineFeed, scanFrom_append_lineFeed ha, utf8Len_toList, Nat.zero_add,
    scan, scan, ← scanFrom_move, Nat.zero_add]

private theorem stop_le_of_mem_scan {a : String} {t : Token} (ht : t ∈ scan a) :
    t.stop ≤ a.utf8ByteSize := by
  obtain ⟨_, hstop⟩ := scanFrom_bounds ht
  rwa [Nat.zero_add, utf8Len_toList] at hstop

end Token

section

open Grammar

variable {a : String} {blocks : List (Block × Extent)} (hfile : IsFile (Token.scan a) blocks)
  (b : String)

include hfile

private theorem Block.readAll_scan_append :
    readAll (Token.scan (a ++ "\n" ++ b)) =
      ⟨blocks ++ (readAll (Token.scan b)).value.map (moved (a.utf8ByteSize + 1)),
        (readAll (Token.scan b)).faults.map (Fault.move (a.utf8ByteSize + 1)),
        (readAll (Token.scan b)).rest.map (Token.move (a.utf8ByteSize + 1))⟩ := by
  rw [Token.scan_append_lineFeed hfile.valid, readAll_append hfile, readAll_move]
  rfl

private theorem LineStarts.span_block {block : Block} {extent : Extent}
    (hblock : (block, extent) ∈ blocks) :
    (ofText (a ++ "\n" ++ b)).span extent = (ofText a).span extent := by
  obtain ⟨k, hk, d, hd, rfl⟩ := hfile.exists_extent hblock
  have hstart : k.start ≤ a.utf8ByteSize :=
    (Nat.le_add_right k.start _).trans (Token.stop_le_of_mem_scan hk)
  have hstop : d.stop ≤ a.utf8ByteSize := Token.stop_le_of_mem_scan hd
  exact span_append_left a b hstart hstop

namespace Document

variable (source : SourceId)

private theorem blocks_append_lineFeed :
    (ofText source (a ++ "\n" ++ b)).blocks = (ofText source a).blocks ++
      (ofText source b).blocks.map (Block.down (a.toList.count '\n' + 1)) := by
  have hclean := Block.readAll_complete hfile
  have hread := Block.readAll_scan_append hfile b
  simp only [ofText, ofTokens, hread, hclean, Outcome.clean, List.map_append, List.map_map]
  congr 1
  · apply List.map_congr_left
    rintro ⟨block, extent⟩ hblock
    rw [LineStarts.span_block hfile b hblock]
  · apply List.map_congr_left
    rintro ⟨block, extent⟩ _
    simp only [Function.comp_apply, Block.moved, LineStarts.span_append_right]
    rfl

private theorem faults_append_lineFeed :
    (ofText source (a ++ "\n" ++ b)).faults = (ofText source b).faults.map
      (LocatedFault.down (a.utf8ByteSize + 1) (a.toList.count '\n' + 1)) := by
  have hsize : (a ++ "\n" ++ b).utf8ByteSize = b.utf8ByteSize + (a.utf8ByteSize + 1) := by
    rw [String.utf8ByteSize_append, String.utf8ByteSize_append, Nat.add_comm]
    rfl
  simp only [ofText, ofTokens, Block.readAll_scan_append hfile, hsize, List.map_map]
  apply List.map_congr_left
  intro fault _
  simp only [Function.comp_apply, Fault.extent_move, LineStarts.span_append_right]
  rfl

end Document

end

namespace Document

private theorem exists_isFile_of_isSound {source : SourceId} {a : String}
    (ha : (ofText source a).isSound = true) : ∃ blocks, Grammar.IsFile (Token.scan a) blocks := by
  have hfaults : (Block.readAll (Token.scan a)).faults = [] := by
    simpa [isSound, ofText, ofTokens] using ha
  exact Block.readAll_sound hfaults

/-- The blocks of a text without fault are unchanged by what follows on a new line, and the blocks
and the faults of the text that follows are unchanged but for the lines on which they stand; the
faults are of the same sort and have the same messages. -/
theorem ofText_append_lineFeed (source : SourceId) {a : String}
    (ha : (ofText source a).isSound = true) (b : String) :
    (ofText source (a ++ "\n" ++ b)).blocks = (ofText source a).blocks ++
      (ofText source b).blocks.map (Block.down (a.toList.count '\n' + 1)) ∧
    (ofText source (a ++ "\n" ++ b)).faults = (ofText source b).faults.map
      (LocatedFault.down (a.utf8ByteSize + 1) (a.toList.count '\n' + 1)) ∧
    (ofText source (a ++ "\n" ++ b)).faults.map
        (fun f => (f.fault.isStatementFault, f.fault.message)) =
      (ofText source b).faults.map fun f => (f.fault.isStatementFault, f.fault.message) := by
  obtain ⟨blocks, hfile⟩ := exists_isFile_of_isSound ha
  have hfaults := faults_append_lineFeed hfile b source
  refine ⟨blocks_append_lineFeed hfile b source, hfaults, ?_⟩
  rw [hfaults, List.map_map]
  apply List.map_congr_left
  intro f _
  exact Prod.ext f.fault.isStatementFault_move f.fault.message_move

/-- What ends too early on the third line is reported there. -/
theorem ofText_append_lineFeed_truncated :
    (ofText 0 "Menu(\"A\") \x7b\n\x7d // end").isSound = true ∧
    (ofText 0 ("Menu(\"A\") \x7b\n\x7d // end" ++ "\n" ++ "Command(\"B\"")).faults =
      [⟨.unexpectedEnd (.token .closeParen), ⟨⟨2, 11⟩, ⟨2, 11⟩⟩⟩] := by
  have hsound : (ofText 0 "Menu(\"A\") \x7b\n\x7d // end").isSound = true := by
    decide +kernel
  obtain ⟨_, hfaults, _⟩ := ofText_append_lineFeed 0 hsound "Command(\"B\""
  refine ⟨hsound, hfaults.trans ?_⟩
  decide +kernel

end Document

end UiCatalog
