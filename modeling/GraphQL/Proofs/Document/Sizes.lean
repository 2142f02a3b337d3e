import GraphQL.Proofs.Document.Renumbering
import GraphQL.Proofs.Syntax.SourceOrder

/-! How large trees and documents are. A phrase has no more nodes than tokens, since an operation
without a keyword is paid for by the delimiters of its selections; only the document and the root
come on top. Parts are no more than nodes. So words of 32 bits number all of them in a text whose
bytes they can count. -/
namespace GraphQL

variable {source : Source}

namespace Outline

theorem countAll_append (first second : List Outline) :
    countAll (first ++ second) = countAll first + countAll second := by
  induction first with
  | nil => exact (Nat.zero_add _).symm
  | cons child rest ih => rw [List.cons_append, countAll, countAll, ih, Nat.add_assoc]

/-- Where each phrase has no more nodes than tokens, phrases in a row have no more either. -/
theorem countAll_phrasesOf {pieces : List Piece} (h : ∀ p ∈ pieces, p.2.count ≤ p.1.length) :
    countAll (phrasesOf pieces) ≤ (tokensOf pieces).length := by
  induction pieces with
  | nil => exact Nat.le_refl 0
  | cons piece rest ih =>
      obtain ⟨hPiece, hRest⟩ := List.forall_mem_cons.1 h
      rw [phrasesOf_cons, countAll, tokensOf_cons, List.length_append]
      exact Nat.add_le_add hPiece (ih hRest)

end Outline

open Outline

/-- How many nodes a phrase of a kind has at least to spare, if one more than its tokens is allowed:
a document uses the one, and delimiters of selections spare two. -/
def Symbol.spare : Symbol → Nat
  | .document => 0
  | .selectionSet => 2
  | _ => 1

/-- Whether a phrase has no more nodes than the tokens of its kind allow. -/
def Pays (x : Symbol) (tokens : List Token) (phrase : Outline) : Prop :=
  phrase.count + x.spare ≤ tokens.length + 1

/-- A phrase that pays for its nodes with tokens has no more nodes than tokens. -/
theorem Pays.le {x : Symbol} {tokens : List Token} {phrase : Outline} (h : Pays x tokens phrase)
    (hSpare : 1 ≤ x.spare) : phrase.count ≤ tokens.length := by
  unfold Pays at h
  omega

/-- Every item spares one token at least, and no collection more than its two delimiters. -/
theorem Encloses.spare {x item : Symbol} {type : NodeType} {enclosure : Enclosure}
    (h : Encloses x type enclosure item) : 1 ≤ item.spare ∧ x.spare ≤ 2 := by
  cases h <;> decide

/-- The node of a phrase is paid for by the first of its tokens. -/
theorem Head.pays {x : Symbol} {type : NodeType} {head tokens : List Token} {label : Label}
    {children : List Outline} (h : Head type head label) (hSpare : x.spare ≤ 1)
    (hChildren : countAll children ≤ tokens.length) :
    Pays x (head ++ tokens) (.node label children) := by
  have hHead : 0 < head.length := by cases h <;> exact Nat.succ_pos _
  rw [Pays, count, List.length_append]
  omega

/-- Every phrase pays for its nodes with its tokens, by induction over how it is formed. -/
theorem Forms.pays {x : Symbol} {tokens : List Token} {phrase : Outline}
    (h : Forms x tokens phrase) : Pays x tokens phrase := by
  induction h with
  | @atom type head label hValue hHead =>
      rw [← List.append_nil head]
      exact hHead.pays (Nat.le_refl 1) (Nat.le_refl 0)
  | @enclosed x item type enclosure hRule opening closing pieces hOpen hItems hClose ih =>
      obtain ⟨hItem, hSpare⟩ := hRule.spare
      have hPieces := countAll_phrasesOf fun p hp => (ih p hp).le hItem
      rw [Pays, count, List.length_cons, List.length_append, List.length_singleton]
      omega
  | argument hHead hValue ih => exact hHead.pays (Nat.le_refl 1) (ih.le (Nat.le_refl 1))
  | directive hHead hArguments ih =>
      refine hHead.pays (Nat.le_refl 1) (countAll_phrasesOf fun p hp => ?_)
      exact (ih p (Option.mem_toList.1 hp)).le (Nat.le_refl 1)
  | field hHead hArguments hDirectives hSelections ihArguments ihDirectives ihSelections =>
      refine hHead.pays (Nat.le_refl 1) (countAll_phrasesOf fun p hp => ?_)
      simp only [List.mem_append, Option.mem_toList] at hp
      obtain (hArgument | hDirective) | hSelection := hp
      · exact (ihArguments p hArgument).le (Nat.le_refl 1)
      · exact (ihDirectives p hDirective).le (Nat.le_refl 1)
      · exact (ihSelections p hSelection).le (Nat.le_succ 1)
  | spread hHead hDirectives ih =>
      exact hHead.pays (Nat.le_refl 1) (countAll_phrasesOf fun p hp => (ih p hp).le (Nat.le_refl 1))
  | inline hHead hDirectives hSelections ihDirectives ih
  | fragment hHead hDirectives hSelections ihDirectives ih =>
      refine hHead.pays (Nat.le_refl 1) (countAll_phrasesOf (List.forall_mem_append.2
        ⟨fun p hp => (ihDirectives p hp).le (Nat.le_refl 1), List.forall_mem_singleton.2 ?_⟩))
      exact ih.le (Nat.le_succ 1)
  | declaration default hHead hEquals hConstant hDefault hDirectives ihDefault ihDirectives =>
      have hRest := countAll_phrasesOf fun p hp => (ihDirectives p hp).le (Nat.le_refl 1)
      refine hHead.pays (Nat.le_refl 1) ?_
      rw [countAll_append, List.length_append]
      refine Nat.add_le_add ?_ hRest
      cases default with
      | none => exact Nat.le_refl 0
      | some written =>
          have hValue := (ihDefault written rfl).le (Nat.le_refl 1)
          simp only [defaultPhrases, defaultTokens, Option.toList_some, List.map_cons,
            List.map_nil, List.flatMap_cons, List.flatMap_nil, countAll, List.length_append,
            List.length_cons, List.length_nil]
          omega
  | shorthand hSelections ih =>
      -- The closing delimiter of the selections pays for the operation.
      exact ih
  | operation hHead hVariables hDirectives hSelections ihVariables ihDirectives ih =>
      refine hHead.pays (Nat.le_refl 1) (countAll_phrasesOf fun p hp => ?_)
      simp only [List.mem_append, Option.mem_toList, List.mem_singleton] at hp
      obtain (hVariable | hDirective) | rfl := hp
      · exact (ihVariables p hVariable).le (Nat.le_refl 1)
      · exact (ihDirectives p hDirective).le (Nat.le_refl 1)
      · exact ih.le (Nat.le_succ 1)
  | document hFirst hDefinitions ih =>
      have hPieces := countAll_phrasesOf fun p hp => (ih p hp).le (Nat.le_refl 1)
      rw [hFirst] at hPieces
      exact Nat.succ_le_succ hPieces

namespace Outline

mutual

/-- Every part that a phrase stands for has a node of the phrase to itself. -/
theorem countAll_parts {context : Context} {trees : List PartTree} : (phrase : Outline) →
    phrase.parts source context = .ok trees → PartTree.countAll trees ≤ phrase.count
  | .missing _, h => nomatch h
  | .node label children, h => by
      rw [count]
      cases hGroup : context.group? label.type with
      | some inside =>
          rw [parts_group hGroup] at h
          exact Nat.le_succ_of_le (countAll_partsAll children h)
      | none =>
          obtain ⟨data, below, -, hBelow, rfl⟩ := exists_of_parts hGroup h
          have hCount : PartTree.countAll below ≤ countAll children := by
            unfold partsInside at hBelow
            split at hBelow
            · exact countAll_partsAll children hBelow
            · exact countAll_partsFirst children hBelow
            · cases hBelow
              exact Nat.zero_le _
          exact Nat.succ_le_succ hCount

/-- Phrases have no more parts than nodes. -/
theorem countAll_partsAll {context : Context} {trees : List PartTree} : (phrases : List Outline) →
    partsAll source context phrases = .ok trees → PartTree.countAll trees ≤ countAll phrases
  | [], h => by
      cases h
      exact Nat.le_refl 0
  | phrase :: rest, h => by
      simp only [partsAll, except_bind_eq_ok, except_pure_eq_ok] at h
      obtain ⟨first, hFirst, others, hOthers, rfl⟩ := h
      rw [PartTree.countAll_append]
      exact Nat.add_le_add (countAll_parts phrase hFirst) (countAll_partsAll rest hOthers)

/-- The first phrase of a type has no more parts than all of them have nodes. -/
theorem countAll_partsFirst {type : NodeType} {trees : List PartTree} :
    (phrases : List Outline) → partsFirst source type phrases = .ok trees →
      PartTree.countAll trees ≤ countAll phrases
  | [], h => nomatch h
  | phrase :: _, h => Nat.le_add_right_of_le (countAll_parts phrase h)

end

end Outline

/-- A document has no more parts than the phrase of its text has nodes. -/
theorem Source.exists_document_within {phrase : Outline} (h : source.outline = .ok phrase) :
    ∃ document events, source.document = .ok (document, events) ∧
      document.size ≤ phrase.count := by
  obtain ⟨-, hForms⟩ := Source.outline_eq_ok.1 h
  obtain ⟨label, children, trees, rfl, -, hTrees⟩ :=
    hForms.parts_document (Token.beforeEnd_infix source.text)
  obtain ⟨document, events, hDocument, hParts, -⟩ := Source.document_eq h hTrees
  refine ⟨document, events, hDocument, ?_⟩
  have hSize : document.size = (PartTree.node label.location .document trees).count := by
    rw [← PartTree.length_layout 0 none, ← hParts]
    rfl
  rw [hSize, PartTree.count, count]
  exact Nat.succ_le_succ (countAll_partsAll children hTrees)

namespace Source

variable {start stop : Nat}

/-- Tokens in a row are no more than the bytes that they are among. -/
theorem Spaced.length_le {tokens : List Token} (h : source.Spaced stop start tokens) :
    start + tokens.length ≤ stop := by
  induction h with
  | nil hStop => exact hStop
  | @cons start token rest hStart hText more ih =>
      have hToken : token.start.offset < token.stop.offset := hText.nonempty
      rw [List.length_cons]
      omega

/-- A row of labels ends no earlier than it starts. -/
theorem Threads.le {labels : List Label} (h : source.Threads stop start labels) :
    start ≤ stop := by
  induction h with
  | nil hStop => exact hStop
  | cons hStart hNext hFits more ih => exact Nat.le_trans hStart (Nat.le_trans hNext ih)

/-- The texts of labels in a row are not empty and end where the row does at the latest. -/
theorem Threads.range_le {labels : List Label} (h : source.Threads stop start labels) :
    ∀ label ∈ labels, ∀ range ∈ label.ranges, range.start < range.stop ∧ range.stop ≤ stop := by
  induction h with
  | nil => exact List.forall_mem_nil _
  | cons hStart hNext hFits more ih =>
      refine List.forall_mem_cons.2 ⟨fun range hRange => ?_, ih⟩
      obtain ⟨hText, -, hStop⟩ := hFits range hRange
      exact ⟨hText.nonempty, Nat.le_trans hStop more.le⟩

/-- The texts of the nodes of a tree lie within the text that it was read from. -/
theorem range_le_of_parse {tree : SyntaxTree} (h : source.parse = .ok tree) :
    ∀ node ∈ tree.nodes, ∀ range ∈ node.label.ranges,
      range.start < range.stop ∧ range.stop ≤ source.byteSize := by
  obtain ⟨phrase, hOutline, rfl⟩ := Source.parse_eq_ok.1 h
  intro node hNode
  rw [← Array.mem_toList_iff, SyntaxTree.graft_nodes {} 0 phrase] at hNode
  rcases List.mem_append.1 hNode with hRoot | hNode
  · rw [List.mem_singleton.1 hRoot]
    exact nofun
  · have hLabel : node.label ∈ phrase.labels := by
      rw [← labels_layout]
      exact List.mem_map_of_mem hNode
    exact (Source.threads_of_outline hOutline).range_le node.label hLabel

/-- Every token before the end of input has a byte at least. -/
theorem length_beforeEnd_le (source : Source) :
    (Token.beforeEnd source.text).length ≤ source.byteSize := by
  have hLength := source.spaced_beforeEnd.length_le
  omega

end Source

/-- Whether a word of 32 bits holds a number as it is. -/
def IsWord (n : Nat) : Prop := (UInt32.ofNat n).toNat = n

/-- A number below the bound of a word is kept by one. -/
theorem isWord_of_lt {n : Nat} (h : n < UInt32.size) : IsWord n := UInt32.toNat_ofNat_of_lt' h

/-- Whether words hold all numbers that a tree and a document of a text are made with: the ends of
tokens, which all texts of nodes come from, and the places of nodes and parts. -/
structure Source.FitsWords (source : Source) (tree : SyntaxTree) (document : Document) : Prop where
  tokens : ∀ token ∈ Token.lex source.text, IsWord token.start.offset ∧ IsWord token.stop.offset
  texts : ∀ node ∈ tree.nodes, ∀ range ∈ node.label.ranges, IsWord range.start ∧ IsWord range.stop
  nodes : ∀ index < tree.size, IsWord index
  parts : ∀ id < document.size, IsWord id

/-- The tree of a text has at most two nodes more than the text has tokens, and its document no more
parts than the tree has nodes under its root. No token is empty, so words hold all numbers that come
up if the bytes of the text and two more can be counted with them. -/
theorem Source.sizes_of_parse {tree : SyntaxTree} (h : source.parse = .ok tree) :
    tree.size ≤ (Token.beforeEnd source.text).length + 2 ∧
    ∃ document events, source.document = .ok (document, events) ∧
      tree.assemble source = .ok (.complete document events) ∧
      document.size < tree.size ∧
      (source.byteSize < UInt32.size - 2 → source.FitsWords tree document) := by
  obtain ⟨phrase, hOutline, rfl⟩ := Source.parse_eq_ok.1 h
  obtain ⟨document, events, hDocument, hParts⟩ := Source.exists_document_within hOutline
  have hSize : (SyntaxTree.graft {} 0 phrase).size = phrase.count + 1 := by
    rw [SyntaxTree.size_graft, Nat.add_comm]
    rfl
  have hNodes : phrase.count ≤ (Token.beforeEnd source.text).length + 1 :=
    (Source.outline_eq_ok.1 hOutline).2.pays
  have hTokens := source.length_beforeEnd_le
  refine ⟨by omega, document, events, hDocument,
    SyntaxTree.assemble_graft hOutline hDocument, by omega, fun hBytes => ?_⟩
  constructor
  · intro token hToken
    obtain ⟨hStart, hStop, -⟩ := Token.isPlace_of_mem_lex hToken
    have hFirst := hStart.offset_le
    have hLast := hStop.offset_le
    exact ⟨isWord_of_lt (by omega), isWord_of_lt (by omega)⟩
  · intro node hNode range hRange
    obtain ⟨hInside, hStop⟩ := Source.range_le_of_parse h node hNode range hRange
    exact ⟨isWord_of_lt (by omega), isWord_of_lt (by omega)⟩
  · exact fun index hIndex => isWord_of_lt (by omega)
  · exact fun id hId => isWord_of_lt (show (id : Nat) < UInt32.size by omega)

/-- A single field without a keyword has as many nodes as there can be. -/
theorem Source.sizes_of_parse_field : ∃ tree document events,
    Source.parse { text := "\x7ba\x7d" } = .ok tree ∧
      Source.document { text := "\x7ba\x7d" } = .ok (document, events) ∧
      tree.size = (Token.beforeEnd "\x7ba\x7d").length + 2 ∧ document.size < 5 ∧
      Source.FitsWords { text := "\x7ba\x7d" } tree document := by
  have hSize : (Source.parse { text := "\x7ba\x7d" }).toOption.map SyntaxTree.size =
      some ((Token.beforeEnd "\x7ba\x7d").length + 2) := by
    decide +kernel
  have hTokens : (Token.beforeEnd "\x7ba\x7d").length = 3 := by decide +kernel
  cases hTree : Source.parse { text := "\x7ba\x7d" } with
  | error error =>
      rw [hTree] at hSize
      cases hSize
  | ok tree =>
      rw [hTree] at hSize
      have hNodes : tree.size = _ := Option.some.inj hSize
      obtain ⟨-, document, events, hDocument, -, hParts, hFits⟩ := Source.sizes_of_parse hTree
      rw [hNodes, hTokens] at hParts
      exact ⟨tree, document, events, rfl, hDocument, hNodes, hParts, hFits (by decide +kernel)⟩

end GraphQL
