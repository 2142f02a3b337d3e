import GraphQL.Proofs.Token.Stream
import Mathlib.Data.List.GetD

/-! Streams as plain lists with an index. What a stream answers to calls is what the list of its
tokens up to the end of input answers at an index, which moves on by one with each token left. Only
a place that leaves no room to count on is beyond a stream. -/
namespace GraphQL

namespace Overflow

/-- Every word but the greatest has one after it, whatever the build does at that. -/
theorem next?_of_ne (overflow : Overflow) {n : UInt64} (h : n ≠ greatest) :
    ∃ next, overflow.next? n = some next ∧ next.toNat = n.toNat + 1 := by
  have hLess : n.toNat + 1 < UInt64.size := by
    have hBound := n.toNat_lt_size
    have hOther : n.toNat ≠ greatest.toNat := fun hSame => h (UInt64.toNat_inj.1 hSame)
    have hGreatest : greatest.toNat + 1 = UInt64.size := rfl
    omega
  refine ⟨n + 1, ?_, ?_⟩
  · cases overflow with
    | stops => exact if_neg h
    | wraps => rfl
  · rw [UInt64.toNat_add]
    exact Nat.mod_eq_of_lt hLess

end Overflow

/-- What may be asked of a stream. -/
inductive StreamCall where
  | prime
  | advance
  | current
  | peek
  | peekNth (n : UInt64)
  /-- Whether the current token is of a kind. -/
  | isAt (kind : TokenKind)
  /-- Whether the current token is the name `word`. -/
  | isAtWord (word : String)
  /-- Whether the token after the cursor is the name `word`. -/
  | isBeforeWord (word : String)
  | previousEnd
deriving DecidableEq, Repr

inductive StreamAnswer where
  | primed (outcome : Except SyntaxError Unit)
  | left (outcome : Except SyntaxError Token)
  | token (token : Token)
  | truth (value : Bool)
  | place (position : Position)
  /-- The build stopped at a place that is too great to count on from. -/
  | overflow
deriving DecidableEq, Repr

/-- The answer that a look ahead gives. -/
def StreamAnswer.ofPeek : Option Token → StreamAnswer
  | some found => .token found
  | none => .overflow

namespace StreamCall

variable {σ τ : Type}

/-- Whether a call only inspects the stream. -/
def inspects : StreamCall → Bool
  | .prime | .advance => false
  | _ => true

/-- What calls that are made one after another leave behind, where `answer` is what one call gives
and leaves behind. -/
def after (answer : StreamCall → σ → StreamAnswer × σ) (calls : List StreamCall) (stream : σ) : σ :=
  calls.foldl (fun stream call => (answer call stream).2) stream

variable {first : StreamCall → σ → StreamAnswer × σ} {second : StreamCall → τ → StreamAnswer × τ}
  {Related : σ → τ → Prop}

/-- Streams that stay related through each call stay so through all. -/
theorem related_after (hStep : ∀ call s t, Related s t → Related (first call s).2 (second call t).2)
    (calls : List StreamCall) {s : σ} {t : τ} (h : Related s t) :
    Related (after first calls s) (after second calls t) := by
  induction calls generalizing s t with
  | nil => exact h
  | cons call rest ih => exact ih (hStep call s t h)

end StreamCall

namespace TokenStream

/-- The answer of a stream to a call, and the stream after it. -/
def answer (overflow : Overflow) (call : StreamCall) (stream : TokenStream) :
    StreamAnswer × TokenStream :=
  match call with
  | .prime => (.primed (stream.prime.1.map fun _ => ()), stream.prime.2)
  | .advance => (.left stream.advance.1, stream.advance.2)
  | .current => (.token stream.current, stream)
  | .peek => (.token stream.peek, stream.fetch 1)
  | .peekNth n => (.ofPeek (stream.peekNth overflow n).1, (stream.peekNth overflow n).2)
  | .isAt kind => (.truth (stream.isAt kind), stream)
  | .isAtWord word => (.truth (stream.isAtWord word), stream)
  | .isBeforeWord word => (.truth (stream.peek.isWord word), stream.fetch 1)
  | .previousEnd => (.place stream.previousEnd, stream)

end TokenStream

/-- The tokens of a source up to its first end of input. If there is none, all of them and an end
of input where the last one ends, or at the start of the text. -/
def wholeOf (source : List Token) : List Token :=
  source.takeWhile (·.kind != .eof) ++
    [(source.find? (·.kind == .eof)).getD (.eofAt ((source.getLast?.map Token.stop).getD {}))]

/-- An index into a list of tokens, which there is once the stream was primed. -/
structure IndexedStream where
  index : Option Nat := none
  previousEnd : Position := {}

namespace IndexedStream

section Tokens

variable (tokens : List Token)

/-- The token at an index, or the last one where there are not so many. -/
def tokenAt (index : Nat) : Token := tokens.getD (min index (tokens.length - 1)) (.eofAt {})

/-- What a move to a token gives: a fault is raised. -/
def landing {α : Type} (token : Token) (answer : α) : Except SyntaxError α :=
  match token.kind with
  | .error fault => .error { message := fault.message, span := token.span, kind := .lexical,
                             notes := fault.notes }
  | _ => .ok answer

def current (stream : IndexedStream) : Token :=
  match stream.index with
  | none => .eofAt {}
  | some i => tokenAt tokens i

def peekNth (stream : IndexedStream) (n : Nat) : Token :=
  match stream.index with
  | none => tokenAt tokens n
  | some i => tokenAt tokens (i + 1 + n)

def prime : Except SyntaxError Unit × IndexedStream :=
  (landing (tokenAt tokens 0) (), { index := some 0, previousEnd := {} })

def advance (stream : IndexedStream) : Except SyntaxError Token × IndexedStream :=
  match stream.index with
  | none => (.ok (.eofAt {}), stream)
  | some i =>
    if (tokenAt tokens i).kind = .eof then (.ok (tokenAt tokens i), stream)
    else (landing (tokenAt tokens (i + 1)) (tokenAt tokens i),
      { index := some (i + 1), previousEnd := (tokenAt tokens i).stop })

/-- The answer to a call, and the index after it. -/
def answer (call : StreamCall) (stream : IndexedStream) : StreamAnswer × IndexedStream :=
  match call with
  | .prime => (.primed (prime tokens).1, (prime tokens).2)
  | .advance => (.left (stream.advance tokens).1, (stream.advance tokens).2)
  | .current => (.token (stream.current tokens), stream)
  | .peek => (.token (stream.peekNth tokens 0), stream)
  | .peekNth n => (.token (stream.peekNth tokens n.toNat), stream)
  | .isAt kind => (.truth ((stream.current tokens).kind.same kind), stream)
  | .isAtWord word => (.truth ((stream.current tokens).isWord word), stream)
  | .isBeforeWord word => (.truth ((stream.peekNth tokens 0).isWord word), stream)
  | .previousEnd => (.place stream.previousEnd, stream)

end Tokens

variable {tokens : List Token}

/-- Questions about what is ahead do not move the index. -/
theorem answer_of_inspects {call : StreamCall} (h : call.inspects = true)
    (stream : IndexedStream) : (stream.answer tokens call).2 = stream := by
  cases call <;> first | rfl | cases h

/-- Calls that only inspect do not move the index. -/
theorem after_filter (calls : List StreamCall) (stream : IndexedStream) :
    StreamCall.after (answer tokens) (calls.filter fun call => !call.inspects) stream =
      StreamCall.after (answer tokens) calls stream := by
  induction calls generalizing stream with
  | nil => rfl
  | cons call rest ih =>
      rw [List.filter_cons]
      cases hInspects : call.inspects with
      | true =>
          have hSame : (stream.answer tokens call).2 = stream := answer_of_inspects hInspects stream
          have hNext := ih stream
          simp only [StreamCall.after, List.foldl_cons, hSame] at hNext ⊢
          exact hNext
      | false => exact ih (stream.answer tokens call).2

/-- What comes before shifts the indexes. -/
theorem tokenAt_append (before : List Token) (h : tokens ≠ []) (n : Nat) :
    tokenAt (before ++ tokens) (before.length + n) = tokenAt tokens n := by
  have hLength := List.length_pos_iff.2 h
  have hMin : min (before.length + n) ((before ++ tokens).length - 1) =
      before.length + min n (tokens.length - 1) := by
    rw [List.length_append]
    omega
  rw [tokenAt, hMin, List.getD_append_right _ _ _ _ (Nat.le_add_right _ _),
    Nat.add_sub_cancel_left, tokenAt]

/-- Beyond the tokens the last of them is repeated. -/
theorem tokenAt_eq_getD (h : tokens ≠ []) (other : Token) (n : Nat) :
    tokenAt tokens n = tokens.getD n (tokens.getLastD other) := by
  have hLength := List.length_pos_iff.2 h
  by_cases hn : n < tokens.length
  · rw [tokenAt, Nat.min_eq_left (by omega), List.getD_eq_getElem _ _ hn,
      List.getD_eq_getElem _ _ hn]
  · have hLast : tokens.length - 1 < tokens.length := by omega
    rw [tokenAt, Nat.min_eq_right (by omega), List.getD_eq_getElem _ _ hLast,
      List.getD_eq_default _ _ (by omega), List.getLastD_eq_getLast?,
      List.getLast?_eq_getElem?, List.getElem?_eq_getElem hLast, Option.getD_some]

end IndexedStream

namespace TokenStream

/-- Closed tokens end at their first end of input, or at one that is put behind the last. -/
theorem closeAt_eq_takeWhile (tokens : List Token) (last : Position) :
    closeAt last tokens = tokens.takeWhile (·.kind != .eof) ++ [(tokens.find? (·.kind == .eof)).getD
      (.eofAt ((tokens.getLast?.map Token.stop).getD last))] := by
  induction tokens generalizing last with
  | nil => rfl
  | cons token rest ih =>
      by_cases hEnd : token.kind = .eof
      · simp [closeAt, hEnd]
      · rw [closeAt, if_neg hEnd, ih, List.getLast?_cons]
        cases rest.getLast? <;> simp [hEnd]

/-- A new stream has the tokens that the index runs over. -/
theorem closeAt_eq_wholeOf (source : List Token) : closeAt {} source = wholeOf source :=
  closeAt_eq_takeWhile source {}

/-- The tokens that the index runs over are closed. -/
theorem closed_wholeOf (source : List Token) : Closed (wholeOf source) := by
  refine ⟨_, _, rfl, ?_, fun t ht => ?_⟩
  · cases hFound : source.find? (·.kind == .eof) with
    | none => rfl
    | some token => simpa using List.find?_some hFound
  · simpa using List.mem_takeWhile_imp ht

/-- Whether a stream is where an index points: before the first prime on an end of input of its
own, and afterwards on the token with that index. -/
structure IsAtIndex (whole : List Token) (stream : TokenStream) (indexed : IndexedStream) :
    Prop where
  tokens : stream.tokens = whole
  remaining : match indexed.index with
    | none => stream.current = .eofAt {} ∧ stream.ahead = whole
    | some i => ∃ before, whole = before ++ stream.remaining ∧ before.length = i
  previousEnd : stream.previousEnd = indexed.previousEnd

/-- A stream tells of a fault where the index lands on one. -/
theorem raised_fst (stream : TokenStream) (token : Token) :
    (stream.raised token).1 = IndexedStream.landing stream.current token := by
  unfold raised Token.error? IndexedStream.landing
  cases stream.current.kind <;> rfl

/-- What is made of an answer does not matter for whether it is one. -/
theorem landing_map {α β : Type} (token : Token) (answer : α) (change : α → β) :
    (IndexedStream.landing token answer).map change =
      IndexedStream.landing token (change answer) := by
  unfold IndexedStream.landing
  cases token.kind <;> rfl

/-- A look ahead with room to count on sees all tokens ahead that matter to it. -/
theorem lookAhead_succ (stream : TokenStream) (n : Nat) :
    (stream.lookAhead n (n + 1)).1 =
      stream.ahead.getD n (stream.ahead.getLastD stream.current) := by
  have hSeen : (stream.lookAhead n (n + 1)).1 =
      (stream.ahead.take (max stream.buffered (min (n + 1) stream.ahead.length))).getD n
        ((stream.ahead.take (max stream.buffered (min (n + 1) stream.ahead.length))).getLastD
          stream.current) := rfl
  rw [hSeen]
  by_cases hn : n < stream.ahead.length
  · rw [List.getD_eq_getElem?_getD, List.getElem?_take_of_lt (by omega),
      List.getElem?_eq_getElem hn, List.getD_eq_getElem _ _ hn]
    rfl
  · rw [List.take_of_length_le (by omega)]

/-- The next token is the first of those ahead. -/
theorem peek_eq_lookAhead (stream : TokenStream) : stream.peek = (stream.lookAhead 0 1).1 := by
  rw [lookAhead_succ, peek]
  cases stream.ahead <;> rfl

/-- A new stream is at the first index. -/
theorem isAtIndex_ofTokens (source : List Token) :
    IsAtIndex (wholeOf source) (.ofTokens source) {} where
  tokens := closeAt_eq_wholeOf source
  remaining := ⟨rfl, closeAt_eq_wholeOf source⟩
  previousEnd := rfl

namespace IsAtIndex

variable {whole : List Token} {stream : TokenStream} {indexed : IndexedStream}

theorem current (h : IsAtIndex whole stream indexed) : stream.current = indexed.current whole := by
  have hRemaining := h.remaining
  unfold IndexedStream.current
  cases hIndex : indexed.index with
  | none =>
      rw [hIndex] at hRemaining
      exact hRemaining.1
  | some i =>
      rw [hIndex] at hRemaining
      obtain ⟨before, rfl, rfl⟩ := hRemaining
      have hThere : stream.remaining ≠ [] := List.cons_ne_nil _ _
      exact (IndexedStream.tokenAt_append before hThere 0).symm

/-- A token that far ahead of the stream is that far behind the index. -/
theorem lookAhead (hWhole : whole ≠ []) (h : IsAtIndex whole stream indexed) (n : Nat) :
    (stream.lookAhead n (n + 1)).1 = indexed.peekNth whole n := by
  have hRemaining := h.remaining
  rw [lookAhead_succ]
  unfold IndexedStream.peekNth
  cases hIndex : indexed.index with
  | none =>
      rw [hIndex] at hRemaining
      rw [hRemaining.2, IndexedStream.tokenAt_eq_getD hWhole]
  | some i =>
      rw [hIndex] at hRemaining
      obtain ⟨before, rfl, rfl⟩ := hRemaining
      have hThere : stream.remaining ≠ [] := List.cons_ne_nil _ _
      simp only
      rw [Nat.add_assoc, IndexedStream.tokenAt_append before hThere,
        IndexedStream.tokenAt_eq_getD hThere stream.current, Nat.add_comm 1 n]
      simp [TokenStream.remaining, List.getLastD_eq_getLast?, List.getLast?_cons]

theorem fetch (h : IsAtIndex whole stream indexed) (count : Nat) :
    IsAtIndex whole (stream.fetch count) indexed := ⟨h.tokens, h.remaining, h.previousEnd⟩

/-- A look ahead leaves the stream where it is, and answers with the token at the place unless that
is the greatest. -/
theorem peekNth (overflow : Overflow) (hWhole : whole ≠ [])
    (h : IsAtIndex whole stream indexed) (n : UInt64) :
    (n ≠ Overflow.greatest →
      (stream.peekNth overflow n).1 = some (indexed.peekNth whole n.toNat)) ∧
    IsAtIndex whole (stream.peekNth overflow n).2 indexed := by
  constructor
  · intro hn
    obtain ⟨next, hNext, hCount⟩ := overflow.next?_of_ne hn
    simp only [TokenStream.peekNth, hNext, hCount]
    exact congrArg some (h.lookAhead hWhole n.toNat)
  · unfold TokenStream.peekNth
    cases overflow.next? n with
    | none => exact h
    | some count => exact h.fetch count.toNat

/-- Priming lands on the first token and tells of its fault. -/
theorem prime (hWhole : whole ≠ []) (h : IsAtIndex whole stream indexed) :
    stream.prime.1.map (fun _ => ()) = (IndexedStream.prime whole).1 ∧
      IsAtIndex whole stream.prime.2 (IndexedStream.prime whole).2 := by
  obtain ⟨first, rest, rfl⟩ := List.exists_cons_of_ne_nil hWhole
  have hTokens := h.tokens
  constructor
  · rw [TokenStream.prime, raised_fst, landing_map, hTokens]
    rfl
  · rw [TokenStream.prime, raised_snd, hTokens]
    exact ⟨rfl, ⟨[], rfl, rfl⟩, rfl⟩

/-- Leaving a token moves the index by one, up to the end of input. -/
theorem advance (hWhole : Closed whole) (h : IsAtIndex whole stream indexed) :
    stream.advance.1 = (indexed.advance whole).1 ∧
      IsAtIndex whole stream.advance.2 (indexed.advance whole).2 := by
  have hRemaining := h.remaining
  have hCurrent := h.current
  unfold TokenStream.advance IndexedStream.advance
  unfold IndexedStream.current at hCurrent
  cases hIndex : indexed.index with
  | none =>
      rw [hIndex] at hCurrent
      have hAtEnd : stream.atEnd = true := by
        rw [atEnd_iff, hCurrent]
        rfl
      rw [if_pos hAtEnd, hCurrent]
      exact ⟨rfl, h⟩
  | some i =>
      rw [hIndex] at hCurrent hRemaining
      simp only at hCurrent ⊢
      rw [← hCurrent]
      by_cases hEnd : stream.current.kind = .eof
      · rw [if_pos (atEnd_iff.2 hEnd), if_pos hEnd]
        exact ⟨rfl, h⟩
      · obtain ⟨before, hBefore, hLength⟩ := hRemaining
        have hClosed : Closed stream.remaining :=
          (hBefore ▸ hWhole).of_append (by simp [TokenStream.remaining])
        obtain ⟨next, rest, hAhead⟩ := List.exists_cons_of_ne_nil (hClosed.tail hEnd).ne_nil
        have hWholeNext : whole = (before ++ [stream.current]) ++ next :: rest := by
          rw [hBefore, TokenStream.remaining, hAhead, List.append_assoc, List.singleton_append]
        have hNext : IndexedStream.tokenAt whole (i + 1) = next := by
          have hShift := IndexedStream.tokenAt_append (before ++ [stream.current])
            (List.cons_ne_nil next rest) 0
          rwa [← hWholeNext, List.length_append, hLength] at hShift
        rw [if_neg (mt atEnd_iff.1 hEnd), if_neg hEnd, raised_fst, raised_snd, hNext, hAhead]
        exact ⟨rfl, h.tokens, ⟨before ++ [stream.current], hWholeNext, by simp [hLength]⟩, rfl⟩

/-- A stream answers each call as the index into its tokens does, but for a look ahead to the
greatest place. -/
theorem answer (overflow : Overflow) (hWhole : Closed whole) (call : StreamCall)
    (h : IsAtIndex whole stream indexed) :
    (call ≠ .peekNth Overflow.greatest →
      (stream.answer overflow call).1 = (indexed.answer whole call).1) ∧
    IsAtIndex whole (stream.answer overflow call).2 (indexed.answer whole call).2 := by
  have hPeek : stream.peek = indexed.peekNth whole 0 :=
    (peek_eq_lookAhead stream).trans (h.lookAhead hWhole.ne_nil 0)
  cases call with
  | prime =>
      obtain ⟨hOutcome, hNext⟩ := h.prime hWhole.ne_nil
      exact ⟨fun _ => congrArg StreamAnswer.primed hOutcome, hNext⟩
  | advance =>
      obtain ⟨hOutcome, hNext⟩ := h.advance hWhole
      exact ⟨fun _ => congrArg StreamAnswer.left hOutcome, hNext⟩
  | current => exact ⟨fun _ => congrArg StreamAnswer.token h.current, h⟩
  | peek => exact ⟨fun _ => congrArg StreamAnswer.token hPeek, h.fetch 1⟩
  | peekNth n =>
      obtain ⟨hToken, hNext⟩ := h.peekNth overflow hWhole.ne_nil n
      refine ⟨fun hCall => ?_, hNext⟩
      exact congrArg StreamAnswer.ofPeek (hToken fun hn => hCall (congrArg StreamCall.peekNth hn))
  | isAt kind =>
      exact ⟨fun _ => congrArg (fun token : Token => StreamAnswer.truth (token.kind.same kind))
        h.current, h⟩
  | isAtWord word =>
      exact ⟨fun _ => congrArg (fun token : Token => StreamAnswer.truth (token.isWord word))
        h.current, h⟩
  | isBeforeWord word =>
      exact ⟨fun _ => congrArg (fun token : Token => StreamAnswer.truth (token.isWord word)) hPeek,
        h.fetch 1⟩
  | previousEnd => exact ⟨fun _ => congrArg StreamAnswer.place h.previousEnd, h⟩

end IsAtIndex

end TokenStream

end GraphQL
