import EditScript.Proofs.Document.Accepted
import EditScript.Proofs.Json.Lexical

namespace EditScript

namespace Document

open Lexical (nesting)

theorem ofText_compact {document : Document} (ha : document.Apart)
    (hn : nesting document.toJson.compact ≤ 127) :
    ofText document.toJson.compact = .ok document := by
  rw [Lexical.nesting_compact] at hn
  have hr : Reader.Reads Document.reader Scan.depthLimit document.toJson document := reads ha hn
  rw [ofText, ofScan, Json.compact, Scan.read_spell hr Json.Spacing.blank_compact]
  rfl

/-- Whatever the input was, a document that is read from it can be written and read again. -/
theorem ofScan_fits {scan : Scan} {document : Document} (h : ofScan scan = .ok document) :
    document.Apart ∧ nesting document.toJson.compact ≤ 127 := by
  obtain ⟨read, hr, h⟩ := Outcome.bind_eq_ok.mp (Outcome.mapError_eq_ok.mp h)
  obtain ⟨_, -, h⟩ := Outcome.bind_eq_ok.mp h
  cases h
  rw [Lexical.nesting_compact]
  exact reader_fits hr

/-- The document was read, from a text or from the bytes of a stream. -/
def Accepted (document : Document) : Prop :=
  (∃ text, ofText text = .ok document) ∨ ∃ bytes ending, ofBytes bytes ending = .ok document

theorem Accepted.fits {document : Document} (h : document.Accepted) :
    document.Apart ∧ nesting document.toJson.compact ≤ 127 := by
  rcases h with ⟨text, h⟩ | ⟨bytes, ending, h⟩
  · exact ofScan_fits h
  · exact ofScan_fits h

/-- A document is read back from its text if no unknown kind in it has the name of a known kind or
of a position and its brackets nest at most 127 deep. Both hold of every document that was read, so
that one comes out the same when it is written and read again. -/
theorem text_round_trip :
    (∀ document : Document, document.Apart → nesting document.toJson.compact ≤ 127 →
      ofText document.toJson.compact = .ok document) ∧
    (∀ document : Document, document.Accepted →
      document.Apart ∧ nesting document.toJson.compact ≤ 127 ∧
        ofText document.toJson.compact = .ok document) := by
  refine ⟨fun document => ofText_compact, ?_⟩
  intro document h
  obtain ⟨ha, hn⟩ := h.fits
  exact ⟨ha, hn, ofText_compact ha hn⟩

def outline : Document where
  id := none
  title := some "\"Outline\""
  content := [.paragraph (.styled "Title\n" .bold),
    .table ⟨1, 1, [[[.paragraph ⟨[.object "logo", .unsupported "pageBreak"], .empty⟩,
      .unsupported "sectionBreak"]]]⟩]
  inlineObjects := .ofList [("logo", .image "logo.png")]

theorem apart_outline : outline.Apart := by decide +kernel

theorem nesting_outline : nesting outline.toJson.compact ≤ 127 := by
  rw [Lexical.nesting_compact]
  decide +kernel

theorem accepted_outline : outline.Accepted :=
  .inl ⟨_, ofText_compact apart_outline nesting_outline⟩

theorem text_round_trip_outline :
    ofText outline.toJson.compact = .ok outline ∧ outline.Apart ∧
      nesting outline.toJson.compact ≤ 127 :=
  ⟨text_round_trip.1 outline apart_outline nesting_outline,
    (text_round_trip.2 outline accepted_outline).1,
    (text_round_trip.2 outline accepted_outline).2.1⟩

end Document
end EditScript
