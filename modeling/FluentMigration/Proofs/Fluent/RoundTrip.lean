import FluentMigration.Proofs.Fluent.ParsedResource
import FluentMigration.Proofs.Fluent.ResourceReading
/-!
Parsing and serializing settle after one round: what was parsed is written so that parsing it again
gives the same entries, junk left out.
-/

namespace FluentMigration
namespace Fluent

def Resource.withoutJunk (r : Resource) : Resource := ⟨r.body.filter (!·.isJunk)⟩

theorem serialize_withoutJunk (r : Resource) : r.withoutJunk.serialize = r.serialize := by
  simp [Resource.serialize, Resource.print, Resource.withoutJunk]

theorem stable_withoutJunk {source : String} (h : Text.ReturnsPaired source.toList) :
    ∀ e ∈ (Resource.parse source).withoutJunk.body, e.WellFormed Printable ∧ e.reread = e := by
  intro e he
  obtain ⟨hbody, hjunk⟩ := List.mem_filter.1 he
  rcases parsed_parse (fun _ => Text.noReturn_normalizeNewlines h) e hbody with hj | hstable
  · simp [hj] at hjunk
  · exact ⟨hstable.wellFormed h, hstable.same⟩

/-- Serialized source is read back without junk, and is serialized to the same text again. -/
theorem parse_serialize_parse (source : String) (h : Text.ReturnsPaired source.toList) :
    Resource.parse (Resource.parse source).serialize = (Resource.parse source).withoutJunk ∧
      (Resource.parse (Resource.parse source).serialize).serialize =
        (Resource.parse source).serialize := by
  have hstable := stable_withoutJunk h
  have hparse : Resource.parse (Resource.parse source).serialize =
      (Resource.parse source).withoutJunk := by
    rw [← serialize_withoutJunk, parse_serialize fun e he => (hstable e he).1]
    have hsame : (Resource.parse source).withoutJunk.body.map Entry.reread =
        (Resource.parse source).withoutJunk.body :=
      (List.map_congr_left fun e he => (hstable e he).2).trans (List.map_id _)
    rw [hsame]
  exact ⟨hparse, by rw [hparse, serialize_withoutJunk]⟩

/-- Line endings, junk, a block with a deeper first line, and a nested choice. -/
theorem parse_serialize_parse_mixed :
    Text.ReturnsPaired
        "a =\r\n    x\r\n  y\r\njunk\r\nb = \x7b $n ->\r\n *[o] [o\r\n\x7d\r\n".toList ∧
      Resource.parse (Resource.parse
        "a =\r\n    x\r\n  y\r\njunk\r\nb = \x7b $n ->\r\n *[o] [o\r\n\x7d\r\n").serialize =
      (Resource.parse
        "a =\r\n    x\r\n  y\r\njunk\r\nb = \x7b $n ->\r\n *[o] [o\r\n\x7d\r\n").withoutJunk := by
  have hpaired : Text.ReturnsPaired
      "a =\r\n    x\r\n  y\r\njunk\r\nb = \x7b $n ->\r\n *[o] [o\r\n\x7d\r\n".toList := by
    simp [Text.ReturnsPaired]
  exact ⟨hpaired, (parse_serialize_parse _ hpaired).1⟩

end Fluent
end FluentMigration
