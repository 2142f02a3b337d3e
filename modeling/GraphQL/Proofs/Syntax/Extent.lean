import GraphQL.Proofs.Syntax.Lexemes
import GraphQL.Proofs.Syntax.Root
import GraphQL.Proofs.Token.Sites

/-! Where the texts of a phrase stand. The labels of a phrase come in the order of its tokens, and
every label has its texts from tokens between its own place and that of the label after it. -/
namespace GraphQL

namespace Outline

mutual

/-- The labels of a phrase, each before those of the phrases in it. -/
def labels : Outline → List Label
  | .node label children => label :: labelsAll children
  | .missing _ => []

def labelsAll : List Outline → List Label
  | [] => []
  | child :: rest => child.labels ++ labelsAll rest

end

theorem labelsAll_append (first second : List Outline) :
    labelsAll (first ++ second) = labelsAll first ++ labelsAll second := by
  induction first with
  | nil => rfl
  | cons child rest ih => rw [List.cons_append, labelsAll, labelsAll, ih, List.append_assoc]

mutual

/-- The labels of a phrase are those of its nodes in the order of the array. -/
theorem labels_layout (start parent : Nat) :
    (phrase : Outline) → (phrase.layout start parent).map Node.label = phrase.labels
  | .node label children => by
      rw [layout, labels, List.map_cons, labels_layoutAll (start + 1) start children]
  | .missing _ => rfl

theorem labels_layoutAll (start parent : Nat) :
    (phrases : List Outline) → (layoutAll start parent phrases).map Node.label = labelsAll phrases
  | [] => rfl
  | child :: rest => by
      rw [layoutAll, labelsAll, List.map_append, labels_layout start parent child,
        labels_layoutAll (start + child.count) parent rest]

end

end Outline

open Outline

/-- Whether a range of a text holds characters, and all that it holds of any. -/
structure Source.HasText (source : Source) (range : ByteRange) : Prop where
  nonempty : range.start < range.stop
  boundaries : source.IsBoundary range.start ∧ source.IsBoundary range.stop

/-- Whether the texts of a label stand where the label is or after that, and before `stop`. -/
def Label.Fits (source : Source) (label : Label) (stop : Nat) : Prop :=
  ∀ range ∈ label.ranges, source.HasText range ∧ label.location.offset ≤ range.start ∧
    range.stop ≤ stop

namespace Source

/-- Whether tokens stand in a text one after another between two offsets. -/
inductive Spaced (source : Source) (stop : Nat) : Nat → List Token → Prop where
  | nil {start : Nat} (hStop : start ≤ stop) : Spaced source stop start []
  | cons {start : Nat} {token : Token} {rest : List Token} (hStart : start ≤ token.start.offset)
      (hText : source.HasText token.bytes) (more : Spaced source stop token.stop.offset rest) :
      Spaced source stop start (token :: rest)

/-- Whether labels stand in a text one after another between two offsets, and the texts of each
before the next. -/
inductive Threads (source : Source) (stop : Nat) : Nat → List Label → Prop where
  | nil {start : Nat} (hStop : start ≤ stop) : Threads source stop start []
  | cons {start next : Nat} {label : Label} {rest : List Label}
      (hStart : start ≤ label.location.offset) (hNext : label.location.offset ≤ next)
      (hFits : label.Fits source next) (more : Threads source stop next rest) :
      Threads source stop start (label :: rest)

variable {source : Source} {start middle stop : Nat} {tokens : List Token}

namespace Spaced

theorem le (h : source.Spaced stop start tokens) : start ≤ stop := by
  induction h with
  | nil hStop => exact hStop
  | @cons start token rest hStart hText more ih =>
      have hToken : token.start.offset < token.stop.offset := hText.nonempty
      omega

/-- A row of tokens can be cut anywhere. -/
theorem of_append {more : List Token} (h : source.Spaced stop start (tokens ++ more)) :
    ∃ middle, source.Spaced middle start tokens ∧ source.Spaced stop middle more := by
  induction tokens generalizing start with
  | nil => exact ⟨start, .nil (Nat.le_refl _), h⟩
  | cons token rest ih =>
      cases h with
      | cons hStart hText hMore =>
          obtain ⟨middle, hRest, hAfter⟩ := ih hMore
          exact ⟨middle, .cons hStart hText hRest, hAfter⟩

/-- Tokens in a row are in a row from the first of them on. -/
theorem from_first {token : Token} (h : source.Spaced stop start (token :: tokens)) :
    source.Spaced stop token.start.offset (token :: tokens) := by
  cases h with
  | cons hStart hText more => exact .cons (Nat.le_refl _) hText more

theorem mem (h : source.Spaced stop start tokens) : ∀ token ∈ tokens,
    source.HasText token.bytes ∧ start ≤ token.start.offset ∧ token.stop.offset ≤ stop := by
  induction h with
  | nil => exact List.forall_mem_nil _
  | @cons start first rest hStart hText more ih =>
      have hFirst : first.start.offset < first.stop.offset := hText.nonempty
      refine List.forall_mem_cons.2 ⟨⟨hText, hStart, more.le⟩, fun token hToken => ?_⟩
      obtain ⟨hHas, hAfter, hStop⟩ := ih token hToken
      exact ⟨hHas, by omega, hStop⟩

/-- What tokens in a row cover is text from the first of them to the last. -/
theorem cover (h : source.Spaced stop start tokens) (hTokens : tokens ≠ []) :
    source.HasText (Token.cover tokens) ∧ start ≤ (Token.cover tokens).start ∧
      (Token.cover tokens).stop ≤ stop := by
  induction h with
  | nil => exact absurd rfl hTokens
  | @cons start first rest hStart hText more ih =>
      cases rest with
      | nil => exact ⟨hText, hStart, more.le⟩
      | cons second rest =>
          obtain ⟨hRest, hAfter, hStop⟩ := ih (List.cons_ne_nil _ _)
          have hCover : Token.cover (first :: second :: rest) =
              ⟨first.start.offset, (Token.cover (second :: rest)).stop⟩ := by
            simp [Token.cover]
          have hFirst : first.start.offset < first.stop.offset := hText.nonempty
          have hInside := hRest.nonempty
          have hWhole : first.start.offset < (Token.cover (second :: rest)).stop := by omega
          rw [hCover]
          exact ⟨⟨hWhole, hText.boundaries.1, hRest.boundaries.2⟩, hStart, hStop⟩

end Spaced

/-- Tokens in order that have text between two offsets are a row between them. -/
theorem spaced_of_ordered
    (hOrdered : tokens.Pairwise fun earlier later => earlier.stop.offset ≤ later.start.offset)
    (hTexts : ∀ token ∈ tokens, source.HasText token.bytes ∧ start ≤ token.start.offset ∧
      token.stop.offset ≤ stop) (h : start ≤ stop) : source.Spaced stop start tokens := by
  induction tokens generalizing start with
  | nil => exact .nil h
  | cons token rest ih =>
      obtain ⟨hToken, hRest⟩ := List.forall_mem_cons.1 hTexts
      obtain ⟨hAfter, hLater⟩ := List.pairwise_cons.1 hOrdered
      refine .cons hToken.2.1 hToken.1 (ih hLater (fun other hOther => ?_) hToken.2.2)
      obtain ⟨hHas, -, hStop⟩ := hRest other hOther
      exact ⟨hHas, hAfter other hOther, hStop⟩

/-- The tokens of a text before its end are in a row. -/
theorem spaced_beforeEnd (source : Source) :
    source.Spaced source.byteSize 0 (Token.beforeEnd source.text) := by
  have hTiles : Lexer.Tiles 0 source.text.toList (Token.lex source.text) :=
    Lexer.tiles_tokensFrom {} source.text.toList
  have hInside := Token.beforeEnd_infix source.text
  refine spaced_of_ordered (hTiles.ordered.sublist hInside.sublist) (fun token hToken => ?_)
    (Nat.zero_le _)
  have hMem := hInside.subset hToken
  have hKind : token.kind ≠ .eof := by simpa using List.mem_takeWhile_imp hToken
  obtain ⟨hStart, hStop, -⟩ := Token.isPlace_of_mem_lex hMem
  exact ⟨⟨hTiles.nonempty token hMem hKind, Lexer.Tiles.isBoundary hStart.cuts,
    Lexer.Tiles.isBoundary hStop.cuts⟩, Nat.zero_le _, hStop.offset_le⟩

namespace Threads

variable {labels more : List Label} {label : Label}

/-- A row of labels may be taken to start earlier. -/
theorem of_le (hLe : middle ≤ start) (h : source.Threads stop start labels) :
    source.Threads stop middle labels := by
  cases h with
  | nil hStop => exact .nil (Nat.le_trans hLe hStop)
  | cons hStart hNext hFits rest => exact .cons (Nat.le_trans hLe hStart) hNext hFits rest

theorem append (h : source.Threads middle start labels) (hMore : source.Threads stop middle more) :
    source.Threads stop start (labels ++ more) := by
  induction h with
  | nil hStop => exact hMore.of_le hStop
  | cons hStart hNext hFits rest ih => exact .cons hStart hNext hFits ih

/-- A label whose texts fit is a row of its own. -/
theorem single (hStart : start ≤ label.location.offset) (hStop : label.location.offset ≤ stop)
    (hFits : label.Fits source stop) : source.Threads stop start [label] :=
  .cons hStart hStop hFits (.nil (Nat.le_refl _))

/-- Labels in a row are in a row from the place of the first on. -/
theorem from_first (h : source.Threads stop start (label :: labels)) :
    source.Threads stop label.location.offset (label :: labels) := by
  cases h with
  | cons hStart hNext hFits rest => exact .cons (Nat.le_refl _) hNext hFits rest

/-- No label of a row stands before it. -/
theorem le_location (h : source.Threads stop start labels) :
    ∀ label ∈ labels, start ≤ label.location.offset := by
  induction h with
  | nil => exact List.forall_mem_nil _
  | cons hStart hNext hFits more ih =>
      refine List.forall_mem_cons.2 ⟨hStart, fun label hLabel => ?_⟩
      exact Nat.le_trans hStart (Nat.le_trans hNext (ih label hLabel))

/-- All labels after one stand after its texts. -/
theorem pairwise (h : source.Threads stop start labels) : labels.Pairwise fun label later =>
    label.location.offset ≤ later.location.offset ∧
      ∀ range ∈ label.ranges, range.stop ≤ later.location.offset := by
  induction h with
  | nil => exact .nil
  | cons hStart hNext hFits more ih =>
      refine List.pairwise_cons.2 ⟨fun later hLater => ?_, ih⟩
      have hAfter := more.le_location later hLater
      exact ⟨Nat.le_trans hNext hAfter,
        fun range hRange => Nat.le_trans (hFits range hRange).2.2 hAfter⟩

theorem texts (h : source.Threads stop start labels) : ∀ label ∈ labels, ∀ range ∈ label.ranges,
    source.HasText range ∧ label.location.offset ≤ range.start := by
  induction h with
  | nil => exact List.forall_mem_nil _
  | cons hStart hNext hFits more ih =>
      refine List.forall_mem_cons.2 ⟨fun range hRange => ?_, ih⟩
      obtain ⟨hText, hAfter, -⟩ := hFits range hRange
      exact ⟨hText, hAfter⟩

end Threads

/-- Whether labels are in a row wherever tokens are. -/
def Follows (source : Source) (tokens : List Token) (labels : List Label) : Prop :=
  ∀ start stop, source.Spaced stop start tokens → source.Threads stop start labels

namespace Follows

variable {labels : List Label} {label : Label}

theorem nil (tokens : List Token) : source.Follows tokens [] :=
  fun _ _ hSpaced => .nil hSpaced.le

theorem append {more : List Token} {others : List Label} (h : source.Follows tokens labels)
    (hMore : source.Follows more others) : source.Follows (tokens ++ more) (labels ++ others) := by
  intro start stop hSpaced
  obtain ⟨middle, hTokens, hAfter⟩ := hSpaced.of_append
  exact (h start middle hTokens).append (hMore middle stop hAfter)

/-- A label without texts stands before what it is the label of. -/
theorem under {first : Token} {rest : List Token} (hLocation : label.location = first.start)
    (hPlain : label.ranges = []) (h : source.Follows (first :: rest) labels) :
    source.Follows (first :: rest) (label :: labels) := by
  intro start stop hSpaced
  have hStart := (hSpaced.mem first List.mem_cons_self).2.1
  have hFits : label.Fits source first.start.offset := by
    rw [Label.Fits, hPlain]
    exact List.forall_mem_nil _
  exact .cons (hLocation ▸ hStart) (Nat.le_of_eq (congrArg Position.offset hLocation)) hFits
    (h first.start.offset stop hSpaced.from_first)

theorem pieces {pieces : List Piece} (h : ∀ p ∈ pieces, source.Follows p.1 p.2.labels) :
    source.Follows (tokensOf pieces) (labelsAll (phrasesOf pieces)) := by
  induction pieces with
  | nil => exact nil []
  | cons piece rest ih =>
      obtain ⟨hPiece, hRest⟩ := List.forall_mem_cons.1 h
      exact hPiece.append (ih hRest)

end Follows

end Source

open Source

variable {source : Source}

/-- A label says where the first of its tokens stands, and has its texts from them. -/
theorem Head.ranges {type : NodeType} {tokens : List Token} {label : Label}
    (h : Head type tokens label) :
    (∃ first rest, tokens = first :: rest ∧ label.location = first.start) ∧
      ∀ range ∈ label.ranges, (∃ token ∈ tokens, range = token.bytes) ∨
        ∃ before run, run ≠ [] ∧ tokens = before ++ run ∧ range = Token.cover run := by
  cases h with
  | @declaration dollar name colon type hDollar hName hColon hType =>
      refine ⟨⟨_, _, rfl, rfl⟩, fun range hRange => ?_⟩
      rcases List.mem_cons.1 hRange with rfl | hRange
      · exact .inl ⟨name, by simp, rfl⟩
      · rw [List.mem_singleton.1 hRange]
        exact .inr ⟨[dollar, name, colon], type, hType.ne_nil, rfl, rfl⟩
  | _ =>
      refine ⟨⟨_, _, rfl, rfl⟩, fun range hRange => .inl ?_⟩
      grind [Label.ranges]

/-- The label of a head stands where its tokens do. -/
theorem Head.follows {type : NodeType} {tokens : List Token} {label : Label}
    (h : Head type tokens label) : source.Follows tokens [label] := by
  intro start stop hSpaced
  -- The tokens are in a row from the first on as well, which is where the label stands.
  obtain ⟨⟨first, rest, rfl, hLocation⟩, hRanges⟩ := h.ranges
  obtain ⟨hFirst, hStart, hStop⟩ := hSpaced.mem first List.mem_cons_self
  have hInside : first.start.offset < first.stop.offset := hFirst.nonempty
  rw [← hLocation] at hStart hInside
  refine .single hStart (by omega) fun range hRange => ?_
  have hFrom := hSpaced.from_first
  rw [← hLocation] at hFrom
  rcases hRanges range hRange with ⟨token, hToken, rfl⟩ | ⟨before, run, hRun, hTokens, rfl⟩
  · exact hFrom.mem token hToken
  · rw [hTokens] at hFrom
    obtain ⟨middle, hBefore, hAfter⟩ := hFrom.of_append
    obtain ⟨hText, hCover, hEnd⟩ := hAfter.cover hRun
    exact ⟨hText, Nat.le_trans hBefore.le hCover, hEnd⟩

/-- The labels of a phrase are in a row wherever its tokens are. -/
theorem Forms.follows {x : Symbol} {tokens : List Token} {phrase : Outline}
    (h : Forms x tokens phrase) : source.Follows tokens phrase.labels := by
  induction h with
  | atom hValue hHead => exact hHead.follows
  | @enclosed x item type enclosure hRule opening closing pieces hOpen hItems hClose ih =>
      have hInside : source.Follows (tokensOf pieces ++ [closing])
          (labelsAll (phrasesOf pieces) ++ []) := (Follows.pieces ih).append (.nil [closing])
      rw [List.append_nil] at hInside
      exact .under rfl rfl ((Follows.nil [opening]).append hInside)
  | argument hHead hValue ih =>
      rw [labels, labelsAll, labelsAll, List.append_nil]
      exact hHead.follows.append ih
  | directive hHead hArguments ih =>
      exact hHead.follows.append (.pieces (by simpa using ih))
  | field hHead hArguments hDirectives hSelections ihArguments ihDirectives ihSelections =>
      refine hHead.follows.append (.pieces ?_)
      simp only [List.forall_mem_append]
      exact ⟨⟨by simpa using ihArguments, ihDirectives⟩, by simpa using ihSelections⟩
  | spread hHead hDirectives ih => exact hHead.follows.append (.pieces ih)
  | inline hHead hDirectives hSelections ihDirectives ih =>
      exact hHead.follows.append (.pieces (List.forall_mem_append.2
        ⟨ihDirectives, List.forall_mem_singleton.2 ih⟩))
  | declaration default hHead hEquals hConstant hDefault hDirectives ihDefault ihDirectives =>
      rw [labels, labelsAll_append]
      refine hHead.follows.append (.append ?_ (.pieces ihDirectives))
      cases default with
      | none => exact .nil []
      | some written =>
          obtain ⟨equals, value⟩ := written
          have hValue : source.Follows value.1 value.2.labels := ihDefault (equals, value) rfl
          exact (Follows.nil [equals]).append (.pieces (List.forall_mem_singleton.2 hValue))
  | shorthand hSelections ih =>
      refine .under rfl rfl ?_
      rw [labelsAll, labelsAll, List.append_nil]
      exact ih
  | operation hHead hVariables hDirectives hSelections ihVariables ihDirectives ih =>
      refine hHead.follows.append (.pieces ?_)
      simp only [List.forall_mem_append]
      exact ⟨⟨by simpa using ihVariables, ihDirectives⟩, List.forall_mem_singleton.2 ih⟩
  | fragment hHead hDirectives hSelections ihDirectives ih =>
      exact hHead.follows.append (.pieces (List.forall_mem_append.2
        ⟨ihDirectives, List.forall_mem_singleton.2 ih⟩))
  | document hFirst hDefinitions ih =>
      refine .under rfl rfl ?_
      rw [← hFirst]
      exact .pieces ih

/-- The labels of a text that is read are in a row from its start to its end. -/
theorem Source.threads_of_outline {phrase : Outline} (h : source.outline = .ok phrase) :
    source.Threads source.byteSize 0 phrase.labels := by
  obtain ⟨-, hForms⟩ := Source.outline_eq_ok.1 h
  exact hForms.follows 0 source.byteSize source.spaced_beforeEnd

end GraphQL
