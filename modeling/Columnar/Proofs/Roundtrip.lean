import Columnar.Proofs.Ingestion
import Columnar.Proofs.Json.Written

/-!
# Written values are read back

A builder that takes in the text of some values is the builder that takes the values themselves,
but for the bits of what is not a number: these have no text, and any of them is read as the
same one.

## Main results

* `Builder.pushBytes_lines` — **taking in what was written is taking the values.**
-/

namespace Columnar

namespace Builder

/-- **Taking in what was written is taking the values.**  Whatever the settings of a builder, for
all values of the kinds that JSON has, of which strings and reals that are not finite are told
apart, that nest no deeper than the limit for texts, and that a new builder takes:  they have a
text, on one line each or on several ones with any blanks before them, and a new builder that
takes it in counts as many values and is the builder that takes the values, with one real for
all that are not a number.  Reals are spelled by any library that does what it is said to do. -/
theorem pushBytes_lines (o : Options) {wo : WriteOptions} {ro : ReadOptions} {vs : List Value}
    {b : Builder} (hreals : wo.reals.IsDocumented) (h : wo.Suits ro) (hcheck : ro.check = false)
    (hvs : ∀ v ∈ vs, v.Portable wo ro ∧ v.depth ≤ ro.maxDepth) (hext : (new o).extend vs = .ok b) :
    ∃ text, Value.lines wo vs = .ok text ∧
      (new o).pushBytes ro (Utf8.encodeString text)
        = ⟨b.mapReals Binary64.canonical, .ok vs.length⟩ := by
  obtain ⟨text, js, hlines, htexts, hvalues⟩ := Value.exists_lines hreals h fun v hv => (hvs v hv).1
  have hdepth : Value.itemsDepth (Value.mapRealsItems Binary64.canonical vs) ≤ ro.maxDepth := by
    rw [Value.itemsDepth_mapReals]
    exact Value.itemsDepth_le_iff.mpr fun v hv => (hvs v hv).2
  have hbytes := pushBytes_of_jsonTexts hcheck htexts hvalues hdepth
    (extend_mapReals Binary64.keepsInts_canonical hext)
  have hlen := Json.length_itemValues? hvalues
  rw [Value.length_mapRealsItems] at hlen
  exact ⟨text, hlines, by rw [hbytes, hlen]⟩

/-- Text on several lines, with a string for what is not a number. -/
def tabbedText : WriteOptions := { pretty := true, indent := "\t", nan? := some "NaN" }

/-- That string is read as what is not a number. -/
def namedNaN : ReadOptions := { nan? := some "NaN" }

/-- A list with a real, a record with something that is not a number, and a string with escapes. -/
def mixedValues : List Value :=
  [.list [.int (-1), .null, .real ⟨0x3fb999999999999a⟩],
    .record none [("\"", .real ⟨0x7ff8000000000001⟩)], .string "\n\x7f"]

theorem suits_tabbedText : tabbedText.Suits namedNaN where
  blank := fun _ _ hc => .inr (.inl (List.mem_singleton.mp hc))
  decimals := rfl
  spellings := ⟨nofun, nofun, nofun⟩

/-- Values with all that the text has to tell apart. -/
theorem pushBytes_lines_mixedValues : ∃ b text, (new {}).extend mixedValues = .ok b ∧
    Value.lines tabbedText mixedValues = .ok text ∧
    (new {}).pushBytes namedNaN (Utf8.encodeString text)
      = ⟨b.mapReals Binary64.canonical, .ok 3⟩ := by
  have hvs : ∀ v ∈ mixedValues, v.Portable tabbedText namedNaN ∧ v.depth ≤ namedNaN.maxDepth := by
    have hnan : (Value.real ⟨0x7ff8000000000001⟩).Portable tabbedText namedNaN :=
      fun _ => ⟨"NaN", by decide, by decide⟩
    have hrecord : (Value.record none [("\"", .real ⟨0x7ff8000000000001⟩)]).Portable tabbedText
        namedNaN := ⟨hnan, trivial⟩
    have hstring : (Value.string "\n\x7f").Portable tabbedText namedNaN := by
      show namedNaN.nonFinite? "\n\x7f" = none
      decide
    have hlist : (Value.list [.int (-1), .null, .real ⟨0x3fb999999999999a⟩]).Portable tabbedText
        namedNaN := ⟨trivial, trivial, nofun, trivial⟩
    intro v hv
    simp only [mixedValues, List.mem_cons, List.not_mem_nil, or_false] at hv
    rcases hv with rfl | rfl | rfl
    · exact ⟨hlist, by decide⟩
    · exact ⟨hrecord, by decide⟩
    · exact ⟨hstring, by decide⟩
  obtain ⟨text, hlines, hbytes⟩ := pushBytes_lines {} (RealLibrary.isDocumented_shortest _)
    suits_tabbedText rfl hvs
    (show (new {}).extend mixedValues = .ok _ from rfl)
  exact ⟨_, text, rfl, hlines, hbytes⟩

end Builder

end Columnar
