/-
Identifiers that are drawn.  The registry of a family only grows and a fresh
identifier is not in it, so no two streams are handed the same one; a member of
a set of identifiers is recorded by its value and stays what it is for as long
as it is a member.
-/
import Hegel.Steps
import Mathlib.Data.List.TakeWhile

namespace Hegel

variable {Rng : Type} {sampler : Sampler Rng}

section Registry

namespace IdSet

theorem mem_insert {used : IdSet} {id id' : Nat} :
    id' ∈ (used.insert id).ids ↔ id' = id ∨ id' ∈ used.ids := by
  rw [insert]
  by_cases hmem : id ∈ used.ids
  · rw [if_pos hmem]
    constructor
    · exact .inr
    · rintro (rfl | hmem')
      · exact hmem
      · exact hmem'
  · rw [if_neg hmem]
    exact List.mem_orderedInsert _

theorem neg_one_le_largest (used : IdSet) : -1 ≤ used.largest := by
  rw [largest]
  cases used.ids.getLast? with
  | none => exact le_rfl
  | some id =>
      have hid := Int.natCast_nonneg id
      show -1 ≤ (id : Int)
      omega

end IdSet

/-- What a typed draw hands out is made of some value. -/
theorem Draw.typed_eq {Value : Type} {drawn : Value → Drawn}
    {validate : Value → Bool} {extract : ChoiceValue → Option Value}
    {simplest unit : Except InternalError Value}
    {sample : Rng → Except InternalError (Value × Rng)} {d : Drawn}
    (hd : (Draw.typed drawn validate extract simplest unit sample).Produces d) :
    ∃ v, drawn v = d := by
  cases hd with
  | simplest hdrawn =>
      obtain ⟨v, -, heq⟩ := map_eq_ok hdrawn
      exact ⟨v, heq⟩
  | unit hdrawn =>
      obtain ⟨v, -, heq⟩ := map_eq_ok hdrawn
      exact ⟨v, heq⟩
  | replayed value hdrawn =>
      obtain ⟨v, -, heq⟩ := Option.map_eq_some_iff.mp hdrawn
      exact ⟨v, heq⟩
  | sampled rng rng' hdrawn =>
      obtain ⟨⟨v, rng''⟩, -, heq⟩ := map_eq_ok hdrawn
      cases heq
      exact ⟨v, rfl⟩

/-- A fresh identifier is within the window and not in use. -/
theorem drawFreshId_produces {used : IdSet} {drawn : Drawn} {wasForced : Bool}
    (hproduces : (@drawFreshId Rng used).Produces drawn wasForced) :
    ∃ id : Nat, id ≤ (used.largest + 2).toNat ∧ id ∉ used.ids ∧
      wasForced = false ∧
        drawn = ⟨.integer (idWindow (used.largest + 2).toNat) id,
          .integer id, some id⟩ := by
  obtain ⟨hunused, hle⟩ := used.smallestUnusedId_spec
  have hfallback : (decide (used.smallestUnusedId ≤
      (used.largest + 2).toNat) &&
        decide (used.smallestUnusedId ∉ used.ids)) = true := by
    simp [hunused, hle]
  obtain ⟨hdraw, hforced⟩ := hproduces
  obtain ⟨id, hvalid, rfl⟩ := Draw.typed_produces
    (fun v hv => by cases hv; exact hfallback)
    (fun v hv => by cases hv; exact hfallback)
    (fun rng v rng' hv => by cases hv; exact hfallback) hdraw
  rw [Bool.and_eq_true, decide_eq_true_eq, decide_eq_true_eq] at hvalid
  exact ⟨id, hvalid.1, hvalid.2, hforced, rfl⟩

theorem step_draw {state next : TestCaseFamily Rng} {handle : Nat} {op : DrawOp}
    {value : ChoiceValue}
    (hanswer : step sampler state ⟨handle, .draw op⟩ =
      .ok (.drawn value, next)) :
    ∃ stream drawRequest drawn input wasForced,
      state.streams[handle]? = some stream ∧
      op.request sampler state.family = .ok drawRequest ∧
      drawRequest.Produces drawn wasForced ∧ value = drawn.reply ∧
        next = ⟨state.family.counted.register drawn,
          state.streams.set handle
            (stream.recordDrawn input drawn wasForced)⟩ := by
  rw [step] at hanswer
  dsimp only at hanswer
  cases hstream : state.streams[handle]? with
  | none =>
      rw [hstream] at hanswer
      cases hanswer
  | some stream =>
      rw [hstream] at hanswer
      dsimp only at hanswer
      obtain ⟨drawRequest, hrequest, hrest⟩ := bind_eq_ok hanswer
      obtain ⟨answer, hperformed, heq⟩ := bind_eq_ok hrest
      cases performDraw_cases hperformed with
      | refused hconcluded => cases heq
      | overran draws hopen hdraws => cases heq
      | drew drawn input wasForced hopen hbudget hproduces =>
          cases heq
          exact ⟨stream, drawRequest, drawn, input, wasForced, rfl, hrequest,
            hproduces, rfl, rfl⟩

/-- An identifier stays registered. -/
theorem step_registered {state next : TestCaseFamily Rng}
    {request : StreamRequest} {reply : StreamReply}
    (hanswer : step sampler state request = .ok (reply, next)) {id : Nat}
    (hid : id ∈ state.family.freshIds.ids) :
    id ∈ next.family.freshIds.ids := by
  cases step_cases hanswer with
  | unchanged => exact hid
  | overran draws hopen hdraws => exact hid
  | drew drawn input wasForced hstream hrequest hopen hbudget hproduces =>
      dsimp only
      rw [FamilyCore.register]
      cases drawn.freshId with
      | none => exact hid
      | some id' => exact IdSet.mem_insert.mpr (.inr hid)
  | tooDeep hstream hop hopen hbudget hdepth => exact hid
  | cloned childRng input hstream hopen hbudget hdepth => exact hid
  | recorded hstream hop hrecorded hfamily hrecord =>
      dsimp only
      rw [hfamily.same]
      exact hid

/-- A stream has recorded one more choice, which its constraint admits. -/
structure RecordsNode (state next : TestCaseFamily Rng) (handle : Nat)
    (data : ChoiceData) : Prop where
  admitted : data.validate = true
  appended : ∃ stream stream', state.streams[handle]? = some stream ∧
    next.streams[handle]? = some stream' ∧
      stream'.record.nodes = stream.record.nodes ++ [.mk data false]

theorem recordsNode_set {state : TestCaseFamily Rng} {handle : Nat}
    {stream : NativeTestCase Rng}
    (hstream : state.streams[handle]? = some stream) (drawn : Drawn)
    (hvalid : drawn.data.validate = true) (family : FamilyCore)
    (input : StreamInput Rng) :
    RecordsNode state ⟨family, state.streams.set handle
      (stream.recordDrawn input drawn false)⟩ handle drawn.data := by
  obtain ⟨hlt, -⟩ := List.getElem?_eq_some_iff.mp hstream
  exact ⟨hvalid, stream, _, hstream, List.getElem?_set_self hlt, rfl⟩

/-- A fresh identifier was not registered, is from now on, and is recorded by
value in its window. -/
theorem step_freshId {state next : TestCaseFamily Rng} {handle : Nat}
    {value : ChoiceValue}
    (hanswer : step sampler state ⟨handle, .draw .freshId⟩ =
      .ok (.drawn value, next)) :
    ∃ id : Nat, value = .integer id ∧
      id ∉ state.family.freshIds.ids ∧ id ∈ next.family.freshIds.ids ∧
        RecordsNode state next handle (.integer
          (idWindow (state.family.freshIds.largest + 2).toNat) id) := by
  obtain ⟨stream, drawRequest, drawn, input, wasForced, hstream, hrequest,
    hproduces, rfl, rfl⟩ := step_draw hanswer
  cases hrequest
  obtain ⟨id, hle, hunused, rfl, rfl⟩ := drawFreshId_produces hproduces
  refine ⟨id, rfl, hunused, IdSet.mem_insert.mpr (.inl rfl), ?_⟩
  exact recordsNode_set hstream ⟨.integer _ id, .integer id, some id⟩
    (idWindow_validate.mpr ⟨Int.natCast_nonneg id, Int.ofNat_le.mpr hle⟩) _ _

end Registry

section Distinctness

/-- The identifiers that were handed out, whichever streams asked for them. -/
def handedOut : List StreamRequest → List StreamReply → List ChoiceValue
  | ⟨_, .draw .freshId⟩ :: requests, .drawn value :: replies =>
      value :: handedOut requests replies
  | _ :: requests, _ :: replies => handedOut requests replies
  | _, _ => []

theorem handedOut_cons (request : StreamRequest) (reply : StreamReply)
    (requests : List StreamRequest) (replies : List StreamReply) :
    (∃ handle value, request = ⟨handle, .draw .freshId⟩ ∧
      reply = .drawn value ∧ handedOut (request :: requests)
        (reply :: replies) = value :: handedOut requests replies) ∨
    handedOut (request :: requests) (reply :: replies) =
      handedOut requests replies := by
  obtain ⟨handle, op⟩ := request
  cases op with
  | draw op =>
      cases op with
      | freshId =>
          cases reply with
          | drawn value => exact .inl ⟨handle, value, rfl, rfl, rfl⟩
          | _ => exact .inr rfl
      | _ => exact .inr rfl
  | cloneStream => exact .inr rfl
  | record op => exact .inr rfl

/-- What is handed out was not registered before, and stays registered. -/
theorem handedOut_fresh {requests : List StreamRequest}
    {replies : List StreamReply} {state final : TestCaseFamily Rng}
    (hrun : Interaction.answerAll (step sampler) requests state =
      .ok (replies, final)) :
    (handedOut requests replies).Nodup ∧
      ∀ value ∈ handedOut requests replies, ∃ id : Nat,
        value = .integer id ∧ id ∉ state.family.freshIds.ids := by
  induction requests generalizing state replies with
  | nil =>
      cases hrun
      exact ⟨List.nodup_nil, nofun⟩
  | cons request requests ih =>
      obtain ⟨reply, next, rest, hanswer, hrest, rfl⟩ :=
        Interaction.answerAll_cons hrun
      obtain ⟨hnodup, hfresh⟩ := ih hrest
      have hearlier : ∀ value ∈ handedOut requests rest, ∃ id : Nat,
          value = .integer id ∧ id ∉ state.family.freshIds.ids := by
        intro value hmem
        obtain ⟨id, hvalue, hunused⟩ := hfresh value hmem
        exact ⟨id, hvalue, fun hid => hunused (step_registered hanswer hid)⟩
      rcases handedOut_cons request reply requests rest with
        ⟨handle, value, rfl, rfl, hcons⟩ | hcons
      · obtain ⟨id, rfl, hunused, hregistered, -⟩ := step_freshId hanswer
        rw [hcons, List.nodup_cons]
        refine ⟨⟨fun hmem => ?_, hnodup⟩, ?_⟩
        · obtain ⟨id', heq, hunused'⟩ := hfresh _ hmem
          obtain rfl : id = id' := by
            injection heq with heq
            exact Int.ofNat_inj.mp heq
          exact hunused' hregistered
        · intro other hmem
          rcases List.mem_cons.mp hmem with rfl | hmem
          · exact ⟨id, rfl, hunused⟩
          · exact hearlier other hmem
      · rw [hcons]
        exact ⟨hnodup, hearlier⟩

end Distinctness

section Members

variable {sorted : List Int} {smallest raw raw' : Int}

/-- A first member that is not above the value is chosen unless a later one
is. -/
theorem chooseMember_cons (smallest first : Int) (rest : List Int)
    (hle : first ≤ raw) :
    chooseMember smallest (first :: rest) raw =
      chooseMember first rest raw := by
  rw [chooseMember, chooseMember,
    List.takeWhile_cons_of_pos (by simpa using hle), List.getLast?_cons]
  rfl

/-- No member that is not above the value is above the chosen one. -/
theorem le_chooseMember (hsorted : sorted.Pairwise (· < ·)) {member : Int}
    (hmember : member ∈ sorted) (hle : member ≤ raw) :
    member ≤ chooseMember smallest sorted raw := by
  induction sorted generalizing smallest with
  | nil => cases hmember
  | cons first rest ih =>
      obtain ⟨hfirst, hrest⟩ := List.pairwise_cons.mp hsorted
      rcases List.mem_cons.mp hmember with rfl | hmem
      · rw [chooseMember_cons smallest member rest hle, chooseMember]
        cases hlast : (rest.takeWhile (· ≤ raw)).getLast? with
        | none => exact le_rfl
        | some last =>
            have hlater := (List.takeWhile_subset _)
              (List.mem_of_getLast? hlast)
            exact (hfirst last hlater).le
      · have hbelow := (hfirst member hmem).le.trans hle
        rw [chooseMember_cons smallest first rest hbelow]
        exact ih hrest hmem

theorem chooseMember_le (smallest : Int) (sorted : List Int) (raw : Int) :
    chooseMember smallest sorted raw ≤ raw ∨
      chooseMember smallest sorted raw = smallest := by
  rw [chooseMember]
  cases hlast : (sorted.takeWhile (· ≤ raw)).getLast? with
  | none => exact .inr rfl
  | some member =>
      left
      have hkept := List.mem_takeWhile_imp (List.mem_of_getLast? hlast)
      exact of_decide_eq_true hkept

/-- A larger value chooses no smaller member. -/
theorem chooseMember_mono (hsorted : sorted.Pairwise (· < ·))
    (hmem : smallest ∈ sorted)
    (hsmallest : ∀ member ∈ sorted, smallest ≤ member) (hle : raw ≤ raw') :
    chooseMember smallest sorted raw ≤ chooseMember smallest sorted raw' := by
  rcases chooseMember_le smallest sorted raw with hbelow | heq
  · exact le_chooseMember hsorted (chooseMember_mem hmem) (hbelow.trans hle)
  · rw [heq]
    exact hsmallest _ (chooseMember_mem hmem)

end Members

section Sets

/-- The members of a set in order, each once. -/
theorem sortedMembers (members : List Int) :
    (members.insertionSort (· ≤ ·)).dedup.Pairwise (· < ·) ∧
      ∀ m, m ∈ (members.insertionSort (· ≤ ·)).dedup ↔ m ∈ members := by
  constructor
  · have hle := (List.pairwise_insertionSort (· ≤ ·) members).sublist
      (List.dedup_sublist _)
    exact (hle.and (List.nodup_dedup _)).imp fun h =>
      lt_of_le_of_ne h.1 h.2
  · intro m
    rw [List.mem_dedup, List.mem_insertionSort]

/-- A draw from a set of identifiers chooses among its members, within the
window. -/
theorem drawFromSet_eq (sampler : Sampler Rng) {used : IdSet}
    {members : List Int} (hne : members ≠ [])
    (hmembers : ∀ m ∈ members, 0 ≤ m ∧ m ≤ used.largest + 1) :
    ∃ smallest rest, (members.insertionSort (· ≤ ·)).dedup =
        smallest :: rest ∧
      drawFromSet sampler used members = .ok (.resolve (.typed
        (fun raw => .plain (.integer (idWindow (used.largest + 1).toNat)
          (chooseMember smallest (smallest :: rest) raw)))
        (idWindow (used.largest + 1).toNat).validate
        ChoiceValue.asInteger (.ok smallest) (.ok smallest)
        (fun rng =>
          let (idx, rng) := sampler.position (smallest :: rest).length rng
          .ok ((smallest :: rest).getD idx smallest, rng)))) := by
  obtain ⟨-, hmem⟩ := sortedMembers members
  rw [drawFromSet]
  cases hsorted : (members.insertionSort (· ≤ ·)).dedup with
  | nil =>
      rw [hsorted] at hmem
      obtain ⟨m, hm⟩ := List.exists_mem_of_ne_nil members hne
      exact absurd ((hmem m).mpr hm) List.not_mem_nil
  | cons smallest rest =>
      rw [hsorted] at hmem
      refine ⟨smallest, rest, rfl, ?_⟩
      have hlow := hmembers smallest ((hmem _).mp List.mem_cons_self)
      have hhigh := hmembers _ ((hmem _).mp
        (List.getLast_mem (List.cons_ne_nil smallest rest)))
      dsimp only
      rw [if_neg (by omega), if_neg (by omega)]

variable {used : IdSet} {members : List Int} {draw : Draw Rng}

/-- What a draw from a set hands out is a member, recorded in the window. -/
theorem drawFromSet_produces (hne : members ≠ [])
    (hmembers : ∀ m ∈ members, 0 ≤ m ∧ m ≤ used.largest + 1)
    {request : DrawRequest Rng}
    (hrequest : drawFromSet sampler used members = .ok request)
    {drawn : Drawn} {wasForced : Bool}
    (hproduces : request.Produces drawn wasForced) :
    wasForced = false ∧ ∃ m ∈ members, drawn =
      .plain (.integer (idWindow (used.largest + 1).toNat) m) := by
  obtain ⟨smallest, rest, hsorted, heq⟩ :=
    drawFromSet_eq sampler hne hmembers
  obtain ⟨-, hmem⟩ := sortedMembers members
  rw [hsorted] at hmem
  rw [heq] at hrequest
  cases hrequest
  obtain ⟨hdraw, hforced⟩ := hproduces
  obtain ⟨raw, rfl⟩ := Draw.typed_eq hdraw
  exact ⟨hforced, _, (hmem _).mp (chooseMember_mem List.mem_cons_self), rfl⟩

/-- A replayed value within the window chooses a member: itself if it is one,
and no smaller one for a larger value. -/
theorem drawFromSet_replays (hne : members ≠ [])
    (hmembers : ∀ m ∈ members, 0 ≤ m ∧ m ≤ used.largest + 1)
    (hrequest : drawFromSet sampler used members = .ok (.resolve draw)) :
    ∃ choose : Int → Int, (∀ raw, choose raw ∈ members) ∧
      (∀ m ∈ members, choose m = m) ∧
      (∀ raw raw', raw ≤ raw' → choose raw ≤ choose raw') ∧
      (∀ raw, 0 ≤ raw → raw ≤ used.largest + 1 →
        draw.fromPrefix (.integer raw) = some (.plain
          (.integer (idWindow (used.largest + 1).toNat) (choose raw)))) ∧
      (∀ raw, raw < 0 ∨ used.largest + 1 < raw →
        draw.fromPrefix (.integer raw) = none) ∧
      ∃ least ∈ members, (∀ m ∈ members, least ≤ m) ∧
        draw.simplest = .ok (.plain
          (.integer (idWindow (used.largest + 1).toNat) least)) ∧
          draw.unit = draw.simplest := by
  obtain ⟨smallest, rest, hsorted, heq⟩ :=
    drawFromSet_eq sampler hne hmembers
  obtain ⟨hordered, hmem⟩ := sortedMembers members
  rw [hsorted] at hordered hmem
  rw [heq] at hrequest
  cases hrequest
  have hleast : ∀ m ∈ smallest :: rest, smallest ≤ m := by
    intro m hm
    rcases List.mem_cons.mp hm with rfl | hlater
    · exact le_rfl
    · exact (List.rel_of_pairwise_cons hordered hlater).le
  refine ⟨chooseMember smallest (smallest :: rest), ?_, ?_, ?_, ?_, ?_, ?_⟩
  · exact fun raw => (hmem _).mp (chooseMember_mem List.mem_cons_self)
  · exact fun m hm => chooseMember_of_mem hordered ((hmem m).mpr hm)
  · exact fun raw raw' hle =>
      chooseMember_mono hordered List.mem_cons_self hleast hle
  · intro raw hlow hhigh
    have hvalid : (idWindow (used.largest + 1).toNat).validate raw = true :=
      idWindow_validate.mpr ⟨hlow, by omega⟩
    show ((some raw).filter _).map _ = _
    rw [Option.filter_some, if_pos hvalid, Option.map_some]
  · intro raw houtside
    have hinvalid :
        ¬(idWindow (used.largest + 1).toNat).validate raw = true := by
      have hlargest := used.neg_one_le_largest
      rw [idWindow_validate]
      omega
    show ((some raw).filter _).map _ = _
    rw [Option.filter_some, if_neg hinvalid, Option.map_none]
  · refine ⟨smallest, (hmem _).mp List.mem_cons_self,
      fun m hm => hleast m ((hmem m).mpr hm), ?_, rfl⟩
    show Except.ok (Drawn.plain (.integer _ (chooseMember smallest
      (smallest :: rest) smallest))) = _
    rw [chooseMember_of_mem hordered List.mem_cons_self]

theorem step_fromSet {state next : TestCaseFamily Rng} {handle : Nat}
    {value : ChoiceValue} (hne : members ≠ [])
    (hmembers : ∀ m ∈ members,
      0 ≤ m ∧ m ≤ state.family.freshIds.largest + 1)
    (hanswer : step sampler state ⟨handle, .draw (.fromSet members)⟩ =
      .ok (.drawn value, next)) :
    ∃ m ∈ members, value = .integer m ∧ RecordsNode state next handle
      (.integer (idWindow (state.family.freshIds.largest + 1).toNat) m) := by
  obtain ⟨stream, drawRequest, drawn, input, wasForced, hstream, hrequest,
    hproduces, rfl, rfl⟩ := step_draw hanswer
  obtain ⟨rfl, m, hm, rfl⟩ :=
    drawFromSet_produces hne hmembers hrequest hproduces
  refine ⟨m, hm, rfl, ?_⟩
  have hbounds := hmembers m hm
  exact recordsNode_set hstream (.plain (.integer _ m))
    (idWindow_validate.mpr ⟨hbounds.1, by omega⟩) _ _

end Sets

section Samples

/-- Two identifiers are drawn, then one of them, all of them replayed. -/
def replayedIdentifiers (raw : Int) :
    Except InternalError (List StreamReply × TestCaseFamily Unit) :=
  Interaction.answerAll (step .simplest)
    [⟨0, .draw .freshId⟩, ⟨0, .draw .freshId⟩, ⟨0, .draw (.fromSet [0, 1])⟩]
    (forChoices [.integer 0, .integer 1, .integer raw] none)

/-- The member that was drawn. -/
def drawnMember (raw : Int) : Option Int :=
  match replayedIdentifiers raw with
  | .ok ([_, _, .drawn (.integer m)], _) => some m
  | _ => none

end Samples

end Hegel
