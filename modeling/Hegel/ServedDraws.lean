/-
Test cases that replay chosen values.  As long as there is room for them and
they fit the draws, draws return these values one after the other.
-/
import Hegel.DrawLaws
import Hegel.MachineSelection

namespace Hegel

variable {Rng : Type}

/-- A new test case that replays some values. -/
def Source.forChoices (Rng : Type) (values : List ChoiceValue) : Source Rng where
  family := .new usizeMax
  stream := ⟨.new [], ⟨values, none, none, values.length, none⟩⟩

/-- The next draws can be served with these values. -/
structure Source.Serves (source : Source Rng) (values : List ChoiceValue) :
    Prop where
  opened : source.family.conclusion = none
  prefixed : values <+:
    source.stream.input.prefixValues.drop source.stream.record.nodes.length
  room : source.stream.record.nodes.length + values.length ≤
    source.stream.input.maxSize
  budget : source.family.totalDraws + values.length ≤ source.family.budget

theorem Source.serves_forChoices {values : List ChoiceValue}
    (hlength : values.length ≤ usizeMax) :
    (Source.forChoices Rng values).Serves values := by
  constructor
  · rfl
  · exact List.prefix_rfl
  · exact (Nat.zero_add _).le
  · exact (Nat.zero_add _).le.trans hlength

variable (sampler : Sampler Rng) {source : Source Rng}
  {values : List ChoiceValue}

/-- A value that a draw can hand out is served. -/
theorem drawValue_serves {op : DrawOp} {request : DrawRequest Rng}
    {drawn : Drawn} {wasForced : Bool}
    (hrequest : op.request sampler source.family = .ok request)
    (hproduces : request.Produces drawn wasForced)
    (hserves : source.Serves (drawn.data.value :: values)) :
    ∃ after, drawValue sampler op source = (.ok drawn.reply, after) ∧
      after.Serves values := by
  have hroom := hserves.room
  have hbudget := hserves.budget
  rw [List.length_cons] at hroom hbudget
  obtain ⟨rest, hrest⟩ := hserves.prefixed
  have hvalue : source.stream.input.prefixValues[
      source.stream.record.nodes.length]? = some drawn.data.value := by
    rw [← List.head?_drop, ← hrest]
    rfl
  have hperform := performDraw_replays
    (DrawOp.request_lawful sampler hrequest) hproduces hserves.opened (by omega)
    (by omega) hvalue rfl
  have hregistered : (source.family.counted.register drawn).conclusion =
      source.family.conclusion ∧
      (source.family.counted.register drawn).totalDraws =
        source.family.totalDraws + 1 ∧
      (source.family.counted.register drawn).budget =
        source.family.budget := by
    rw [FamilyCore.register]
    split <;> exact ⟨rfl, rfl, rfl⟩
  refine ⟨⟨source.family.counted.register drawn,
    source.stream.recordDrawn source.stream.input drawn wasForced⟩,
    ?_, hregistered.1.trans hserves.opened, ⟨rest, ?_⟩, ?_, ?_⟩
  · simp only [drawValue, hrequest, hperform]
  · have htail := congrArg List.tail hrest
    rw [List.tail_drop] at htail
    change values ++ rest = List.drop (List.length (_ ++ [_])) _
    rw [List.length_append]
    exact htail
  · change List.length (_ ++ [_]) + values.length ≤ _
    rw [List.length_append, List.length_singleton]
    exact (by omega : source.stream.record.nodes.length + 1 + values.length ≤
      source.stream.input.maxSize)
  · rw [hregistered.2.1, hregistered.2.2]
    omega

theorem drawInt_serves {minValue maxValue v : Int}
    (hserves : source.Serves (.integer v :: values)) (hmin : minValue ≤ v)
    (hmax : v ≤ maxValue) :
    ∃ after, drawInt sampler minValue maxValue source = (.ok v, after) ∧
      after.Serves values := by
  have hrange := hmin.trans hmax
  have hrequest : (DrawOp.integer minValue maxValue).request sampler
      source.family = .ok (.resolve (drawIntegerFrom
        ⟨minValue, maxValue, 0, hrange⟩
        (sampler.integer ⟨minValue, maxValue, 0, hrange⟩))) := by
    rw [DrawOp.request, drawInteger, dif_pos hrange]
  have hproduces : (DrawRequest.resolve (drawIntegerFrom
      ⟨minValue, maxValue, 0, hrange⟩
      (sampler.integer ⟨minValue, maxValue, 0, hrange⟩))).Produces
        (.plain (.integer ⟨minValue, maxValue, 0, hrange⟩ v)) false := by
    refine ⟨.replayed (.integer v) ?_, rfl⟩
    have hvalid := (IntegerChoice.validate_iff
      ⟨minValue, maxValue, 0, hrange⟩ v).mpr ⟨hmin, hmax⟩
    simp only [drawIntegerFrom, Draw.typed, ChoiceValue.asInteger,
      Option.filter_some, hvalid, if_true, Option.map_some]
  obtain ⟨after, hdraw, hafter⟩ :=
    drawValue_serves sampler hrequest hproduces hserves
  refine ⟨after, ?_, hafter⟩
  simp only [drawInt, bind, Attempt.bind, hdraw]
  rfl

/-- Unless a boolean is decided already, both of its values are served. -/
theorem drawWeighted_serves {p : Binary64} {forced : Option Bool} {b : Bool}
    (hserves : source.Serves (.boolean b :: values))
    (hfree : ∀ f, forcedBoolean p forced = some f → b = f) :
    ∃ after, drawWeighted sampler p forced source = (.ok b, after) ∧
      after.Serves values := by
  have hrequest : (DrawOp.weighted p forced).request sampler source.family =
      .ok (Hegel.weighted sampler p forced) := rfl
  have hproduces : ∃ wasForced, (Hegel.weighted sampler p forced).Produces
      (.plain (.boolean ⟨p⟩ b)) wasForced := by
    rw [weighted, weightedWith]
    cases hforced : forcedBoolean p forced with
    | some f =>
        rw [hfree f hforced]
        exact ⟨true, rfl, rfl⟩
    | none => exact ⟨false, .replayed (.boolean b) rfl, rfl⟩
  obtain ⟨wasForced, hproduces⟩ := hproduces
  obtain ⟨after, hdraw, hafter⟩ :=
    drawValue_serves sampler hrequest hproduces hserves
  refine ⟨after, ?_, hafter⟩
  simp only [drawWeighted, bind, Attempt.bind, hdraw]
  rfl

/-- Opening a span does not take any of the values. -/
theorem Source.Serves.openSpan (label : Nat) (hserves : source.Serves values)
    (hdepth : source.stream.record.spanStack.length < maxDepth) :
    (openSpan label source).2.Serves values := by
  have hshallow : ¬ source.stream.record.spanStack.length + 1 > maxDepth := by
    omega
  have hopened : (Hegel.openSpan label source).2 =
      ⟨source.family, source.stream.record.startSpan label,
        source.stream.input⟩ := by
    simp only [Hegel.openSpan, Attempt.modify, if_neg hshallow]
  rw [hopened]
  exact ⟨hserves.opened, hserves.prefixed, hserves.room, hserves.budget⟩

end Hegel
