import StoreCheck.Proofs.Json.Nesting

/-!
# Specifications survive their JSON form

A specification that is written, as one line or over indented lines, and read again is the same specification, as long as its form
nests no deeper than the reader allows. Whatever was read from a text can be written and read again: it may have come from other
forms of records, from defaults or from escapes, but it nests no deeper than the text did.
-/

namespace StoreCheck

/-- Both texts of the specification denote it. -/
def Spec.IsReadBack (s : Spec) : Prop := Spec.parse? s.toJson.compact = some s ∧ Spec.parse? s.toJson.pretty = some s

theorem Spec.isReadBack_of_depth {s : Spec} (h : s.toJson.depth ≤ Json.maxNesting) : s.IsReadBack := by
  obtain ⟨hcompact, hpretty⟩ := Json.parse?_written s.writable_toJson h
  have hread : Json.spec? s.toJson = some s := spec?_toJson s (Nat.lt_succ_of_le h)
  exact ⟨by rw [Spec.parse?, hcompact]; exact hread, by rw [Spec.parse?, hpretty]; exact hread⟩

/-- Every specification whose form nests at most as deep as the reader allows is read back from its texts, and so is every
specification that was read from some text. -/
theorem specs_round_trip :
    (∀ s : Spec, s.toJson.depth ≤ Json.maxNesting → s.IsReadBack) ∧
      ∀ (text : String) (s : Spec), Spec.parse? text = some s → s.IsReadBack := by
  refine ⟨fun s => Spec.isReadBack_of_depth, fun text s h => Spec.isReadBack_of_depth ?_⟩
  obtain ⟨v, hv, hs⟩ := Option.bind_eq_some_iff.mp h
  have htext := Json.depth_parse? hv
  have hspec := depth_spec? hs
  have hroom : 6 ≤ Json.maxNesting := by decide
  omega

namespace Hotel

/-- Guests with names in several scripts, and what happens to them when the season ends. -/
def season : Spec where
  classes := [⟨"Gäste \"客\"", []⟩, ⟨"a\\b\n\x01", ["Gäste \"客\""]⟩]
  relations := [⟨"Gäste \"客\"", "knows", "Gäste \"客\"", ⟨2, some 4294967295⟩, none⟩]
  actions := [⟨"leave", [⟨"p", "a\\b\n\x01", .one⟩], [
    .forEach "g" (.subset (.union [.var "p", .deref (.var "p") "knows"])) [
      .either [[.delete (.iterator "g")], []],
      .ifElse (.isEmpty (.oneOf (.allOf "Gäste \"客\""))) [.create "a\\b\n\x01" none] []] .chained]⟩]
  invariants := [⟨"known", .forAll [⟨"x", .allOf "Gäste \"客\""⟩] (.not (.equal [.var "x", .deref (.var "x") "knows"])), some ""⟩]

/-- A specification in few characters: records as arrays, defaults left out, an escaped letter, a member that nobody reads. -/
def shorthand : String := "\x7b\"classes\":[[\"\\u0041\"]], \"note\":1e9, \"actions\":[[\"go\",[],[[\"if\",[\"bool\",\"true\"],[]]]]]\x7d"

end Hotel

theorem specs_round_trip_hotel :
    Hotel.season.toJson.depth ≤ Json.maxNesting ∧ Hotel.season.IsReadBack ∧
      ∃ s, Spec.parse? Hotel.shorthand = some s ∧ s.IsReadBack := by
  have hdepth : Hotel.season.toJson.depth ≤ Json.maxNesting := by decide +kernel
  have hread : (Spec.parse? Hotel.shorthand).isSome = true := by decide +kernel
  obtain ⟨s, hs⟩ := Option.isSome_iff_exists.mp hread
  exact ⟨hdepth, specs_round_trip.1 _ hdepth, s, hs, specs_round_trip.2 _ _ hs⟩

end StoreCheck
