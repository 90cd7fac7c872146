import GrammarFragments.Proofs.Simulation.Recognizers

/-!
A tag that is left in the memory of a scanner has no effect. Two scans of one reader run in step
when their contexts have the same in-string flag, whatever bytes the two tags hold: a closer is
compared only with a tag that the same quoted text has opened with, never with one from before.

The relation that a whole scan keeps says what becomes of the two tags (`AgreeButForTags`). Either
both have been forgotten, or each is still the one that its side began with; no side can be left
with a tag of the other, nor with one that was read on the way.

Main statement: a scan and every recognizer give the same from contexts that differ in nothing but
their tags (`staleTag_unobserved`).
-/

set_option autoImplicit false
set_option relaxedAutoImplicit false

namespace GrammarFragments

/-- The contexts of two sides that began with the tags `tag` and `otherTag`: the in-string flags are
the same, and either neither side has a tag any more or each has the one it began with. -/
structure AgreeButForTags (tag otherTag : List UInt8) (context other : Context) : Prop where
  inString_eq : context.inString = other.inString
  tags_cases : (context.tag = [] ∧ other.tag = []) ∨ (context.tag = tag ∧ other.tag = otherTag)

namespace AgreeButForTags

variable {tag otherTag : List UInt8}

/-- Contexts with one flag agree but for their own tags. -/
theorem start (inString : Bool) (tag otherTag : List UInt8) :
    AgreeButForTags tag otherTag ⟨inString, tag⟩ ⟨inString, otherTag⟩ :=
  ⟨rfl, .inr ⟨rfl, rfl⟩⟩

theorem clearTag {context other : Context} (hagree : AgreeButForTags tag otherTag context other) :
    AgreeButForTags tag otherTag context.clearTag other.clearTag :=
  ⟨hagree.inString_eq, .inl ⟨rfl, rfl⟩⟩

theorem toggle {context other : Context} (hagree : AgreeButForTags tag otherTag context other) :
    AgreeButForTags tag otherTag { context with inString := !context.inString }
      { other with inString := !other.inString } :=
  ⟨congrArg not hagree.inString_eq, hagree.tags_cases⟩

end AgreeButForTags

variable {ρ : Type} [SeekReader ρ]

/-- Two runs of one reader simulate each other while their contexts agree but for the tags. -/
theorem staleTag_simulation (tag otherTag : List UInt8) :
    ScanSimulation (fun reader other : ρ ↦ reader = other) (AgreeButForTags tag otherTag) where
  current_alike := by
    rintro reader other rfl -
    exact Alike.refl _
  atEnd_eq := by
    rintro reader other rfl -
    rfl
  advance_related := by
    rintro reader other rfl
    rfl
  seek_related := by
    rintro reader other rfl -
    rfl
  commit_related := by
    rintro reader other rfl
    rfl
  clearTag_akin hagree := hagree.clearTag
  inString_eq hagree := hagree.inString_eq
  toggle_akin hagree := hagree.toggle

/-- From contexts that differ in nothing but their tags, which may hold any bytes, a scan and each
of the recognizers give the same verdict, leave the reader in the same state, and end with the same
in-string flag. The tags afterwards are both empty, or each is the one from before. -/
theorem staleTag_unobserved (requested : Request) (reader : ρ) (inString : Bool)
    (tag otherTag : List UInt8) :
    let context : Context := ⟨inString, tag⟩
    let other : Context := ⟨inString, otherTag⟩
    let agree := OutcomesRelated (fun first second : ρ ↦ first = second)
      (AgreeButForTags tag otherTag)
    ScansRelated (fun first second : ρ ↦ first = second) (AgreeButForTags tag otherTag)
        (scan requested reader context) (scan requested reader other) ∧
      agree (readComment reader context) (readComment reader other) ∧
      agree (readCode reader context) (readCode reader other) ∧
      agree (readType reader context) (readType reader other) ∧
      agree (readPayload reader context) (readPayload reader other) ∧
      agree (QuotedText.read reader context) (QuotedText.read reader other) := by
  intro context other agree
  have hsim : ScanSimulation (fun first second : ρ ↦ first = second)
      (AgreeButForTags tag otherTag) := staleTag_simulation tag otherTag
  have hstart := AgreeButForTags.start inString tag otherTag
  exact ⟨hsim.scan_related requested rfl hstart, hsim.readComment_related rfl hstart,
    hsim.readCode_related rfl hstart, hsim.readType_related rfl hstart,
    hsim.readPayload_related rfl hstart, hsim.quotedText_related rfl hstart⟩

end GrammarFragments
