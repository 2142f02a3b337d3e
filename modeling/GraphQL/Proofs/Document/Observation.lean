import GraphQL.Proofs.Document.Arena

/-! What is told of the parts that an assembly adds. It is told while the document still grows, and
is true of the finished document: nothing that is added later comes above a part, so neither its
parent nor its depth changes. It does not matter whether the tree was read from a text. -/
namespace GraphQL

namespace Document

/-- What is above a part is up to the parts with lower numbers. -/
theorem ancestors_congr {document new : Document} {id : Nat}
    (h : ∀ i : Nat, i ≤ id → new.parent? i = document.parent? i) :
    new.ancestors id = document.ancestors id := by
  induction id using Nat.strong_induction_on with
  | _ id ih =>
      rw [ancestors, ancestors, h id (Nat.le_refl id)]
      cases document.parent? id with
      | none => rfl
      | some parent =>
          by_cases hLt : parent < id
          · have hBelow := ih parent hLt fun i hi => h i (Nat.le_trans hi (Nat.le_of_lt hLt))
            simp only [if_pos hLt, hBelow]
          · simp only [if_neg hLt]

namespace Sound

variable {document : Document} (h : document.Sound)
include h

/-- The ancestors of a part are its parent and the ancestors of that. -/
theorem ancestors_eq {id parent : Nat} (hParent : document.parent? id = some parent) :
    document.ancestors id = parent :: document.ancestors parent := by
  rw [ancestors, hParent]
  simp only [if_pos (h.above id parent hParent)]

theorem depth_eq {id parent : Nat} (hParent : document.parent? id = some parent) :
    document.depth id = document.depth parent + 1 := by
  rw [depth, h.ancestors_eq hParent, List.length_cons]
  rfl

/-- Below its parent a part is one deep, and below others one deeper than its parent. -/
theorem relativeDepth?_eq {id parent : Nat} (hParent : document.parent? id = some parent)
    (ancestor : Nat) : document.relativeDepth? ancestor id =
      if ancestor = parent then some 1
      else (document.relativeDepth? ancestor parent).map (· + 1) := by
  rw [relativeDepth?, h.ancestors_eq hParent, List.findIdx?_cons, relativeDepth?]
  by_cases hSame : ancestor = parent
  · simp [hSame]
  · simp [hSame, Ne.symm hSame, Function.comp_def]

/-- The parts above a part come before it and are less deep, by as many places as they are above
it. -/
theorem of_mem_ancestors {id ancestor : Nat} (hAncestor : ancestor ∈ document.ancestors id) :
    ancestor < id ∧ document.depth ancestor < document.depth id ∧
      document.relativeDepth? ancestor id =
        some (document.depth id - document.depth ancestor) := by
  induction id using Nat.strong_induction_on with
  | _ id ih =>
      cases hParent : document.parent? id with
      | none =>
          rw [ancestors, hParent] at hAncestor
          cases hAncestor
      | some parent =>
          have hAbove := h.above id parent hParent
          rw [h.ancestors_eq hParent] at hAncestor
          rw [h.depth_eq hParent, h.relativeDepth?_eq hParent]
          rcases List.mem_cons.1 hAncestor with rfl | hAncestor
          · refine ⟨hAbove, Nat.lt_succ_self _, ?_⟩
            rw [if_pos rfl, Nat.add_sub_cancel_left]
          · obtain ⟨hLt, hDepth, hRelative⟩ := ih parent hAbove hAncestor
            refine ⟨Nat.lt_trans hLt hAbove, Nat.lt_succ_of_lt hDepth, ?_⟩
            rw [if_neg (Nat.ne_of_lt hLt), hRelative, Option.map_some,
              Nat.sub_add_comm (Nat.le_of_lt hDepth)]

end Sound

end Document

/-- Whether an event is about the part `id` of a document and says what the document says of it. -/
structure PartAdded.Describes (document : Document) (id : Nat) (event : PartAdded) : Prop where
  part : event.part = id
  parent : document.parent? id = some event.parent
  type : document.type? id = some event.type
  depth : event.depth = document.depth id

namespace Progress

/-- Whether one event was told of each part but the root, in the order of their numbers. -/
structure Told (progress : Progress) : Prop where
  sound : progress.document.Sound
  count : progress.events.length + 1 = progress.document.size
  event : ∀ (i : Nat) (event : PartAdded), progress.events[i]? = some event →
    event.Describes progress.document (i + 1)

/-- Before anything is put there is nothing to tell. -/
theorem Told.empty (location : Position) : Told ⟨.empty location, []⟩ :=
  ⟨Document.Sound.empty location, rfl, nofun⟩

/-- A new part is told of, and what was told of the others stays true. -/
theorem Told.put {progress : Progress} (h : progress.Told) {parent : PartId}
    (hParent : parent < progress.document.size) (location : Position) (data : PartData) :
    (progress.put parent location data).Told := by
  let listed := progress.document.attached parent location data
  have hSound : listed.Sound := h.sound.attached hParent location data
  -- The depth is told before the field map is changed, and that does not change what is above.
  have hDepth (i : Nat) : (progress.put parent location data).document.depth i =
      listed.depth i :=
    congrArg List.length (Document.ancestors_congr fun j _ =>
      listed.parent?_registered parent progress.document.size data j)
  constructor
  case sound => exact hSound.registered parent progress.document.size data
  case count =>
    rw [Progress.put, List.length_append, List.length_singleton, h.count]
    exact (Document.size_put progress.document parent location data).symm
  case event =>
    intro i event hEvent
    have hParents : (progress.put parent location data).document.parent? (i + 1) =
        listed.parent? (i + 1) := listed.parent?_registered ..
    have hTypes : (progress.put parent location data).document.type? (i + 1) =
        listed.type? (i + 1) := listed.type?_registered ..
    rw [Document.parent?_attached] at hParents
    rw [Document.type?_attached] at hTypes
    rcases Nat.lt_trichotomy i progress.events.length with hOld | hNew | hNone
    · have hKept : progress.events[i]? = some event :=
        (List.getElem?_append_left hOld).symm.trans hEvent
      have hLt : i + 1 < progress.document.size := h.count ▸ Nat.succ_lt_succ hOld
      have hSame : listed.depth (i + 1) = progress.document.depth (i + 1) := by
        refine congrArg List.length (Document.ancestors_congr fun j hj => ?_)
        rw [Document.parent?_attached, if_neg (Nat.ne_of_lt (Nat.lt_of_le_of_lt hj hLt))]
      rw [if_neg (Nat.ne_of_lt hLt)] at hParents hTypes
      obtain ⟨hPart, hAbove, hType, hDeep⟩ := h.event i event hKept
      exact ⟨hPart, hParents.trans hAbove, hTypes.trans hType,
        hDeep.trans ((hDepth _).trans hSame).symm⟩
    · have hLast : i + 1 = progress.document.size := by rw [hNew, h.count]
      have hTold := List.getElem?_concat_length (l := progress.events)
        (a := (⟨progress.document.size, parent, data.type, listed.depth progress.document.size⟩ :
          PartAdded))
      rw [← hNew] at hTold
      cases hTold.symm.trans hEvent
      rw [if_pos hLast] at hParents hTypes
      refine ⟨hLast.symm, hParents, hTypes, ?_⟩
      rw [hDepth, hLast]
    · obtain ⟨hLt, -⟩ := List.getElem?_eq_some_iff.1 hEvent
      rw [Progress.put, List.length_append] at hLt
      exact absurd hLt (Nat.not_lt.2 hNone)

end Progress

namespace Assembly

variable {source : Source} {progress after : Progress}

/-- An outcome that is taken into the assembly leaves it as it is. -/
theorem eq_ok_of_lift {α : Type} {x : Except AssemblyError α} {a : α}
    (h : lift x progress = .ok a after) : x = .ok a ∧ after = progress := by
  cases x with
  | error error => cases h
  | ok value =>
      cases h
      exact ⟨rfl, rfl⟩

/-- A part is added under a part that is there. -/
theorem lt_of_addPart {parent id : PartId} {location : Position} {data : PartData}
    (h : addPart parent location data progress = .ok id after) :
    parent < progress.document.size := by
  obtain ⟨found, middle, hFound, hRest⟩ := estate_bind_eq_ok.1 h
  cases hFound
  obtain ⟨result, then', hLift, -⟩ := estate_bind_eq_ok.1 hRest
  have hAttach := (eq_ok_of_lift hLift).1
  rcases progress.document.attach_cases parent parent location data with
    ⟨hParent, -⟩ | ⟨error, hError, -⟩
  · exact hParent
  · rw [hError] at hAttach
    cases hAttach

/-- What it takes for a relation between two states of an assembly to hold of every walk in a part:
it goes from state to state, and a walk that adds a part has it if the walk in that part does. -/
structure Carries (R : PartId → Progress → Progress → Prop) : Prop where
  refl : ∀ (parent : PartId) (progress : Progress), R parent progress progress
  trans : ∀ {parent : PartId} {first second third : Progress},
    R parent first second → R parent second third → R parent first third
  part : ∀ {parent : PartId} {progress after : Progress} (location : Position) (data : PartData),
    parent < progress.document.size →
    R progress.document.size (progress.put parent location data) after → R parent progress after

variable {R : PartId → Progress → Progress → Prop}

mutual

/-- What every step of the assembly carries over the walk of a phrase does. -/
theorem walk_carries (rule : Carries R) {context : Context} {parent : PartId}
    {progress after : Progress} : (phrase : Outline) →
    walk source context parent phrase progress = .ok () after → R parent progress after
  | .missing index, hWalk => nomatch hWalk
  | .node label children, hWalk => by
      rw [walk] at hWalk
      cases hGroup : context.group? label.type with
      | some inside =>
          rw [hGroup] at hWalk
          exact walkAll_carries rule children hWalk
      | none =>
          rw [hGroup] at hWalk
          obtain ⟨data, middle, hData, hRest⟩ := estate_bind_eq_ok.1 hWalk
          obtain ⟨-, rfl⟩ := eq_ok_of_lift hData
          obtain ⟨part, added, hAdd, -⟩ := estate_bind_eq_ok.1 hRest
          have hParent := lt_of_addPart hAdd
          rw [add_eq hParent] at hRest
          apply rule.part label.location data hParent
          cases hInside : label.type.inside with
          | all inside =>
              rw [hInside] at hRest
              exact walkAll_carries rule children hRest
          | firstValue =>
              rw [hInside] at hRest
              exact walkFirst_carries rule children hRest
          | nothing =>
              rw [hInside] at hRest
              cases hRest
              exact rule.refl _ _

/-- What every step of the assembly carries over the walk of several phrases does. -/
theorem walkAll_carries (rule : Carries R) {context : Context} {parent : PartId}
    {progress after : Progress} : (phrases : List Outline) →
    walkAll source context parent phrases progress = .ok () after → R parent progress after
  | [], hWalk => by
      cases hWalk
      exact rule.refl _ _
  | phrase :: rest, hWalk => by
      rw [walkAll] at hWalk
      obtain ⟨_, middle, hFirst, hRest⟩ := estate_bind_eq_ok.1 hWalk
      exact rule.trans (walk_carries rule phrase hFirst) (walkAll_carries rule rest hRest)

theorem walkFirst_carries (rule : Carries R) {type : NodeType} {parent : PartId}
    {progress after : Progress} : (phrases : List Outline) →
    walkFirst source type parent phrases progress = .ok () after → R parent progress after
  | [], hWalk => nomatch hWalk
  | phrase :: _, hWalk => walk_carries rule phrase hWalk

end

/-- A run has what its walk in the root has. -/
theorem run_carries (rule : Carries R) {phrase : Outline}
    (h : run source phrase = .ok () progress) :
    ∃ location, R 0 ⟨.empty location, []⟩ progress := by
  cases phrase with
  | missing index => cases h
  | node label children => exact ⟨label.location, walkAll_carries rule children h⟩

/-- What was told stays true when a phrase is walked over, and is told of its parts too. -/
theorem told_carries : Carries fun _ progress after => progress.Told → after.Told :=
  { refl := fun _ _ h => h
    trans := fun hFirst hSecond h => hSecond (hFirst h)
    part := fun location data hParent hInside h => hInside (h.put hParent location data) }

/-- Once a phrase is assembled its events tell of its parts. -/
theorem told_of_run {phrase : Outline} (h : run source phrase = .ok () progress) :
    progress.Told := by
  obtain ⟨location, hTold⟩ := run_carries told_carries h
  exact hTold (Progress.Told.empty location)

end Assembly

/-- In every document that is read from a text, parts, child lists and indexes agree. -/
theorem Document.IsRead.sound {document : Document} (h : document.IsRead) : document.Sound := by
  obtain ⟨source, events, hDocument⟩ := h
  unfold Source.document at hDocument
  split at hDocument
  · cases hDocument
  · next phrase _ =>
      split at hDocument
      · next _ progress hRun =>
          cases hDocument
          exact (Assembly.told_of_run hRun).sound
      · cases hDocument

/-- The document that was assembled, if it was finished. -/
def Assembled.document? : Assembled → Option Document
  | .complete document _ => some document
  | .failed _ _ => none

/-- Whether what was told of a document is what the document says. -/
structure Document.Observed (document : Document) (events : List PartAdded) : Prop where
  count : events.length + 1 = document.size
  event : ∀ (i : Nat) (event : PartAdded), events[i]? = some event →
    event.Describes document (i + 1)
  /-- A part is one place deeper than the part above it. -/
  deeper : ∀ (i : Nat) (event : PartAdded), events[i]? = some event →
    document.depth (i + 1) = document.depth event.parent + 1
  /-- How far a part is below one above it is found from the depth that was told. -/
  below : ∀ event ∈ events, ∀ ancestor ∈ document.ancestors event.part, ∃ d,
    document.relativeDepth? ancestor event.part = some d ∧
      depthBelow? event.depth (document.depth ancestor) = some d

namespace SyntaxTree

variable {tree : SyntaxTree} {source : Source} {document : Document} {events : List PartAdded}

/-- A document that is assembled from a tree is assembled from the phrase of the tree. -/
theorem exists_run_of_assemble (h : tree.assemble source = .ok (.complete document events)) :
    ∃ phrase, Assembly.run source phrase = .ok () ⟨document, events⟩ := by
  obtain ⟨found, -, hRest⟩ := except_bind_eq_ok.1 h
  cases found with
  | none => cases hRest
  | some id =>
      refine ⟨tree.outline id.index, ?_⟩
      cases hRun : Assembly.run source (tree.outline id.index) with
      | ok _ progress =>
          simp only [hRun] at hRest
          cases hRest
          rfl
      | error error progress =>
          simp only [hRun] at hRest
          cases error <;> cases hRest

/-- Once a tree is assembled its events tell of its parts. -/
theorem told_of_assemble (h : tree.assemble source = .ok (.complete document events)) :
    Progress.Told ⟨document, events⟩ := by
  obtain ⟨phrase, hRun⟩ := exists_run_of_assemble h
  exact Assembly.told_of_run hRun

/-- Every assembly that succeeds tells of each part but the root what the finished document says of
it. How far a part is below one above it is found from the depths that were told. -/
theorem assemble_told (h : tree.assemble source = .ok (.complete document events)) :
    document.Observed events := by
  have hTold := told_of_assemble h
  refine ⟨hTold.count, hTold.event, fun i event hEvent => ?_, fun event hEvent => ?_⟩
  · exact hTold.sound.depth_eq (hTold.event i event hEvent).parent
  · obtain ⟨i, hEvent⟩ := List.mem_iff_getElem?.1 hEvent
    have hDescribes := hTold.event i event hEvent
    intro ancestor hAncestor
    rw [hDescribes.part] at hAncestor ⊢
    obtain ⟨-, hLt, hRelative⟩ := hTold.sound.of_mem_ancestors hAncestor
    refine ⟨_, hRelative, ?_⟩
    rw [depthBelow?, hDescribes.depth, if_pos hLt]

/-- A tree that is no text's: the directive stands after the selections. -/
theorem assemble_told_unordered : ∃ document events,
    (graft {} 0 (.node { type := .document, location := {} }
      [.node { type := .operation, location := {} }
        [.node { type := .fieldCollection, location := {} }
          [.node { type := .field, primary := some ⟨0, 1⟩, location := {} }
            [.node { type := .fieldCollection, location := {} }
              [.node { type := .field, primary := some ⟨1, 2⟩, location := {} } []],
            .node { type := .directive, primary := some ⟨1, 2⟩, location := {} } []]]]])).assemble
      { text := "ab" } = .ok (.complete document events) ∧ document.Observed events := by
  generalize hTree : graft {} 0 _ = tree
  have hComplete : ((tree.assemble { text := "ab" }).toOption.bind Assembled.document?).isSome =
      true := by
    rw [← hTree]
    decide +kernel
  cases hAssemble : tree.assemble { text := "ab" } with
  | error stale =>
      rw [hAssemble] at hComplete
      cases hComplete
  | ok assembled =>
      rw [hAssemble] at hComplete
      cases assembled with
      | complete document events => exact ⟨document, events, rfl, assemble_told hAssemble⟩
      | failed error events => cases hComplete

end SyntaxTree

end GraphQL
