import GraphQL.Proofs.Grammar.Language

/-! What a production that reads a language makes of a stream. If it succeeds, what it read is the
only beginning that fits what it has seen; if it fails, what it read can still be completed, and
with the token at which it stops it no longer can. -/
namespace GraphQL

open TokenStream

/-- The cursor of `s` went over `tokens`, none of them a fault, to where that of `s'` is. -/
structure TokenStream.Passes (s : TokenStream) (tokens : List Token) (s' : TokenStream) : Prop where
  remaining : s.remaining = tokens ++ s'.remaining
  stop : s'.previousEnd = (tokens.getLast?.map Token.stop).getD s.previousEnd
  legal : ∀ t ∈ tokens, t.kind.isError = false

namespace TokenStream

variable {s middle s' : TokenStream} {tokens more : List Token}

/-- A stream that moved has passed the same tokens. -/
theorem Moves.passes (h : Moves s tokens s') (hLegal : s.current.kind.isError = false) :
    s.Passes tokens s' := ⟨h.remaining, h.stop, (h.legal hLegal).1⟩

theorem Passes.refl (s : TokenStream) : s.Passes [] s := ⟨rfl, rfl, nofun⟩

theorem Passes.trans (first : s.Passes tokens middle) (second : middle.Passes more s') :
    s.Passes (tokens ++ more) s' where
  remaining := by rw [first.remaining, second.remaining, List.append_assoc]
  stop := by
    rw [second.stop, first.stop, List.getLast?_append]
    cases more.getLast? <;> simp
  legal := List.forall_mem_append.2 ⟨first.legal, second.legal⟩

/-- The cursor of a stream is the first token that it went over, or where it still is. -/
theorem first_of_remaining (h : s.remaining = tokens ++ s'.remaining) :
    [s.current] <+: tokens ++ [s'.current] := by
  cases tokens with
  | nil => rw [current_of_remaining h]; exact List.prefix_refl _
  | cons t tokens => rw [current_of_remaining h]; exact ⟨tokens ++ [s'.current], rfl⟩

theorem isAt_eq_false_iff {kind : TokenKind} (h : kind.isError = false) :
    s.isAt kind = false ↔ s.current.kind ≠ kind := by
  rw [← Bool.not_eq_true, isAt_iff h]

theorem atEnd_eq_false_iff : s.atEnd = false ↔ s.current.kind ≠ .eof := by
  rw [← Bool.not_eq_true, atEnd_iff]

/-- The token behind the cursor is where the cursor is after the next one. -/
theorem peek_eq {token : Token} (h : s.remaining = [token] ++ s'.remaining) :
    s.peek = s'.current := by
  have hAhead : s.ahead = s'.current :: s'.ahead := (List.cons.inj h).2
  simp [peek, hAhead]

/-- A stream that can be read, with at most `n` tokens left. -/
structure Ready (n : Nat) (s : TokenStream) : Prop where
  closed : Closed s.remaining
  legal : s.current.kind.isError = false
  length : s.remaining.length ≤ n

variable {n : Nat}

/-- A stream that is ready stays so when it moves. -/
theorem Ready.move (h : s.Ready n) (hMoves : Moves s tokens s') : s'.Ready n where
  closed := hMoves.closed
  legal := (hMoves.legal h.legal).2
  length := by
    have hLength := h.length
    rw [hMoves.remaining, List.length_append] at hLength
    omega

/-- A stream that moves over a token at least has one less ahead. -/
theorem Ready.leave (h : s.Ready (n + 1)) (hMoves : Moves s tokens s') (hTokens : tokens ≠ []) :
    s'.Ready n where
  closed := hMoves.closed
  legal := (hMoves.legal h.legal).2
  length := by
    have hLength := h.length
    have hSome := List.length_pos_iff.2 hTokens
    rw [hMoves.remaining, List.length_append] at hLength
    omega

theorem Ready.fetch (h : s.Ready n) (count : Nat) : (s.fetch count).Ready n :=
  ⟨h.closed, h.legal, h.length⟩

theorem Ready.mono {m : Nat} (h : s.Ready m) (hn : m ≤ n) : s.Ready n :=
  ⟨h.closed, h.legal, Nat.le_trans h.length hn⟩

theorem Ready.tight (h : s.Ready n) : s.Ready s.remaining.length :=
  ⟨h.closed, h.legal, Nat.le_refl _⟩

/-- There is always the end of input ahead. -/
theorem not_ready_zero : ¬ s.Ready 0 := fun h => absurd h.length (by simp [TokenStream.remaining])

/-- An advance that fails has come to a fault, which is the error. -/
theorem passes_advance {error : SyntaxError} (h : s.Ready n) (hEnd : s.current.kind ≠ .eof)
    (hAdvance : s.advance = (.error error, s')) :
    s.Passes [s.current] s' ∧ s'.current.error? = some error := by
  have hAtEnd := atEnd_eq_false_iff.2 hEnd
  obtain ⟨first, rest, hAhead⟩ := List.exists_cons_of_ne_nil (h.closed.tail hEnd).ne_nil
  rw [advance, hAtEnd, if_neg Bool.false_ne_true] at hAdvance
  obtain ⟨hError, rfl⟩ := raised_eq_error.1 hAdvance
  exact ⟨⟨by simp [TokenStream.remaining, hAhead], rfl, by simpa using h.legal⟩, hError⟩

end TokenStream

/-- A fault stands for an error of its own, which is at the fault. -/
theorem Token.error?_eq_some {token : Token} {error : SyntaxError}
    (h : token.error? = some error) :
    token.kind.isError = true ∧ error.span = token.span ∧ error.kind = .lexical := by
  unfold Token.error? at h
  split at h
  · next fault hKind =>
      obtain rfl := Option.some.inj h
      exact ⟨by rw [hKind]; rfl, rfl, rfl⟩
  · cases h

namespace Language

/-- Whatever of the language goes on with `read` and the token after it, where `Next` may follow, is
just `read`. -/
def Decides (A : Language) (Next : Token → Prop) (read : List Token) (ahead : Token) : Prop :=
  ∀ u v, A.has false u → Begins Next v → read ++ [ahead] <+: u ++ v → u = read

/-- Nothing of the language, where `Next` may follow, goes on with `read` and the token after it. -/
def Excludes (A : Language) (Next : Token → Prop) (read : List Token) (ahead : Token) : Prop :=
  ∀ u v, A.has false u → Begins Next v → ¬ read ++ [ahead] <+: u ++ v

/-- Some tokens can be completed to a list of the strict or of the loose form. -/
def Allows (A : Language) (b : Bool) (read : List Token) : Prop := ∃ more, A.has b (read ++ more)

variable {A B : Language} {P Next Q : Token → Prop} {read more : List Token} {ahead : Token}
  {b : Bool}

theorem exists_has_of (A : Language) (b : Bool) : ∃ ts, A.has b ts := by
  cases b with
  | true => exact A.exists_has
  | false => exact A.exists_has.imp fun _ => A.loosen

theorem allows_nil (A : Language) (b : Bool) : A.Allows b [] := A.exists_has_of b

theorem allows_of_has (h : A.has b read) : A.Allows b read := ⟨[], by rwa [List.append_nil]⟩

/-- The start of the first part is a start of both. -/
theorem Allows.left (h : A.Allows b read) : (A.seq B).Allows b read := by
  obtain ⟨more, hMore⟩ := h
  obtain ⟨v, hv⟩ := B.exists_has_of b
  exact ⟨more ++ v, _, v, hMore, hv, (List.append_assoc ..).symm⟩

/-- Behind the whole of the first part the start of the second is a start of both. -/
theorem Allows.right (hRead : A.has b read) (h : B.Allows b more) :
    (A.seq B).Allows b (read ++ more) := by
  obtain ⟨rest, hRest⟩ := h
  exact ⟨rest, read, _, hRead, hRest, List.append_assoc ..⟩

theorem has_of_strict (h : A.has true read) : A.has b read := by
  cases b with
  | true => exact h
  | false => exact A.loosen h

/-- What cannot go on in the first part cannot go on at all, if the second may follow the first. -/
theorem Excludes.left (h : A.Excludes Q read ahead) (hB : B.Leads Next Q) :
    (A.seq B).Excludes Next read ahead := by
  rintro _ w ⟨u, v, hu, hv, rfl⟩ hw hRead
  rw [List.append_assoc] at hRead
  exact h u (v ++ w) hu (hB v w hv hw) hRead

/-- What follows a part that is decided is looked at alone. -/
theorem Decides.cancel {first : Token} (h : A.Decides Q read first) (hB : B.Leads Next Q)
    (hFirst : [first] <+: more ++ [ahead]) {u v w : List Token} (hu : A.has false u)
    (hv : B.has false v) (hw : Begins Next w)
    (hRead : read ++ more ++ [ahead] <+: u ++ v ++ w) :
    u = read ∧ more ++ [ahead] <+: v ++ w := by
  rw [List.append_assoc, List.append_assoc] at hRead
  have hStart : read ++ [first] <+: u ++ (v ++ w) :=
    ((List.prefix_append_right_inj read).2 hFirst).trans hRead
  obtain rfl := h u (v ++ w) hu (hB v w hv hw) hStart
  exact ⟨rfl, (List.prefix_append_right_inj u).1 hRead⟩

/-- Behind a first part that is decided only the second is left to go on, so what it excludes is
excluded. -/
theorem Excludes.right {first : Token} (hA : A.Decides Q read first) (hB : B.Leads Next Q)
    (hFirst : [first] <+: more ++ [ahead]) (h : B.Excludes Next more ahead) :
    (A.seq B).Excludes Next (read ++ more) ahead := by
  rintro _ w ⟨u, v, hu, hv, rfl⟩ hw hRead
  exact h v w hv hw (hA.cancel hB hFirst hu hv hw hRead).2

/-- Two parts are decided together if the first is where the second begins, and the second is at the
end. -/
theorem Decides.seq {first : Token} (hA : A.Decides Q read first) (hB : B.Leads Next Q)
    (hFirst : [first] <+: more ++ [ahead]) (h : B.Decides Next more ahead) :
    (A.seq B).Decides Next (read ++ more) ahead := by
  rintro _ w ⟨u, v, hu, hv, rfl⟩ hw hRead
  obtain ⟨rfl, hMore⟩ := hA.cancel hB hFirst hu hv hw hRead
  rw [h v w hv hw hMore]

theorem leads_any (A : Language) (Next : Token → Prop) : A.Leads Next fun _ => True := by
  intro u v _ hv
  cases u with
  | nil => exact hv.mono fun _ _ => trivial
  | cons t u => trivial

/-- Tokens of which the first begins nothing of the language are excluded. -/
theorem Leads.excludes {first : Token} (h : A.Leads Next Q) (hFirst : [first] <+: read ++ [ahead])
    (hNot : ¬ Q first) : A.Excludes Next read ahead := by
  intro u v hu hv hRead
  have hBegins := h u v hu hv
  obtain ⟨rest, hRest⟩ := hFirst.trans hRead
  rw [← hRest] at hBegins
  exact hNot hBegins

/-- A choice excludes what both excludes. -/
theorem Excludes.either (hA : A.Excludes Next read ahead) (hB : B.Excludes Next read ahead) :
    (A.either B).Excludes Next read ahead := by
  rintro u v (hu | hu) hv
  · exact hA u v hu hv
  · exact hB u v hu hv

/-- A choice is decided by the one if the other is excluded. -/
theorem Decides.left (hA : A.Decides Next read ahead) (hB : B.Excludes Next read ahead) :
    (A.either B).Decides Next read ahead := by
  rintro u v (hu | hu) hv hRead
  · exact hA u v hu hv hRead
  · exact absurd hRead (hB u v hu hv)

theorem either_comm (A B : Language) : A.either B = B.either A :=
  eq_of_has fun _ _ => or_comm

/-- A single token is decided once it is read. -/
theorem decides_one (h : ∃ t, P t) (token : Token) : (one P h).Decides Next [token] ahead := by
  rintro _ v ⟨t, -, rfl⟩ - hRead
  obtain ⟨rest, hRest⟩ := hRead
  rw [(List.cons.inj hRest).1]

/-- Some tokens are read up to the end of a default, of which the tokens at `span` are the first
variable. No default before it has one. -/
inductive Refuses (A : Language) : List Token → Span → Prop where
  | default {start clear rest : List Token} {equals dollar name : Token}
      (hStart : A.Allows true (start ++ [equals])) (hEquals : equals.kind = .equals)
      (hClear : Constant clear) (hDollar : dollar.kind = .dollar) (hName : name.kind = .name)
      (hValue : (of .value).has false (clear ++ dollar :: name :: rest)) :
      Refuses A (start ++ equals :: (clear ++ dollar :: name :: rest)) ⟨dollar.start, name.stop⟩

/-- A default that is refused is refused with more before it. -/
theorem Refuses.imp {span : Span} (h : A.Refuses read span) (before : List Token)
    (hAllows : ∀ ts, A.Allows true ts → B.Allows true (before ++ ts)) :
    B.Refuses (before ++ read) span := by
  cases h with
  | default hStart hEquals hClear hDollar hName hValue =>
      have hMore := hAllows _ hStart
      rw [← List.append_assoc] at hMore ⊢
      exact .default hMore hEquals hClear hDollar hName hValue

end Language

/-- What an error of some kind at `span` says of the stream `s` where it was met, when `read` of the
language was read. Only if `Refusing` may the error be that a default has a variable. -/
def Justifies (Refusing : Prop) (A : Language) (Next : Token → Prop) (read : List Token)
    (s : TokenStream) (span : Span) : SyntaxErrorKind → Prop
  | .lexical => s.current.kind.isError = true ∧ span = s.current.span
  | .unexpectedToken _ _ | .mismatchedDelimiter _ _ | .reservedName _ =>
    s.current.kind.isError = false ∧ s.current.kind ≠ .eof ∧ span = s.current.span ∧
      A.Excludes Next read s.current
  | .unexpectedEnd _ | .unclosedDelimiter _ =>
    s.current.kind = .eof ∧ span = .emptyAt s.previousEnd ∧ A.Excludes Next read s.current
  | .invalidSyntax => Refusing ∧ A.Refuses read span

/-- How a production of the language ends on the stream `s`. -/
def Explains {α : Type} (Refusing : Prop) (s : TokenStream) (A : Language) (Next : Token → Prop) :
    EStateM.Result Failure TokenStream α → Prop
  | .ok _ s' => ∃ read, Moves s read s' ∧ A.has true read ∧ A.Decides Next read s'.current
  | .error failure s' => ∃ read, s.Passes read s' ∧ A.Allows false read ∧
      Justifies Refusing A Next read s' failure.error.span failure.error.kind

/-- A production reads the language from every stream that is ready. -/
def Explained {α : Type} (Refusing : Prop) (n : Nat) (p : Parser α) (A : Language)
    (Next : Token → Prop) : Prop :=
  ∀ s : TokenStream, s.Ready n → Explains Refusing s A Next (p s)

section Explaining

open GraphQL.Language GraphQL.Parser

variable {α β : Type} {Refusing : Prop} {A B : Language} {P Next Q : Token → Prop}
  {s s' : TokenStream} {n : Nat} {p : Parser α} {f : α → Parser β}

/-- A justification depends on the language only through what it excludes and refuses. -/
theorem Justifies.imp {Refusing' : Prop} {read more : List Token} {span : Span}
    {kind : SyntaxErrorKind} (h : Justifies Refusing A Q read s span kind)
    (hExcludes : A.Excludes Q read s.current → B.Excludes Next more s.current)
    (hRefuses : Refusing ∧ A.Refuses read span → Refusing' ∧ B.Refuses more span) :
    Justifies Refusing' B Next more s span kind := by
  cases kind with
  | lexical => exact h
  | unexpectedToken | mismatchedDelimiter | reservedName =>
      exact ⟨h.1, h.2.1, h.2.2.1, hExcludes h.2.2.2⟩
  | unexpectedEnd | unclosedDelimiter => exact ⟨h.1, h.2.1, hExcludes h.2.2⟩
  | invalidSyntax => exact hRefuses h

/-- A production that fails has failed where it is the first of two. -/
theorem explains_first {failure : Failure}
    (h : Explains Refusing s A Q (.error failure s' : EStateM.Result Failure TokenStream α))
    (hB : B.Leads Next Q) :
    Explains Refusing s (A.seq B) Next
      (.error failure s' : EStateM.Result Failure TokenStream β) := by
  obtain ⟨read, hPasses, hRead, hWhy⟩ := h
  exact ⟨read, hPasses, hRead.left, hWhy.imp (·.left hB)
    (And.imp_right fun hRefuses => hRefuses.imp [] fun _ => .left)⟩

/-- What a production says that comes after another says of both. -/
theorem explains_second {read : List Token} {result : EStateM.Result Failure TokenStream α}
    (hMoves : Moves s read s') (hRead : A.has true read) (hDecides : A.Decides Q read s'.current)
    (hB : B.Leads Next Q) (hLegal : s.current.kind.isError = false)
    (h : Explains Refusing s' B Next result) : Explains Refusing s (A.seq B) Next result := by
  cases result with
  | error failure last =>
      obtain ⟨more, hPasses, hMore, hWhy⟩ := h
      have hFirst := first_of_remaining hPasses.remaining
      exact ⟨read ++ more, (hMoves.passes hLegal).trans hPasses, .right (has_of_strict hRead) hMore,
        hWhy.imp (.right hDecides hB hFirst)
          (And.imp_right fun hRefuses => hRefuses.imp read fun _ => .right hRead)⟩
  | ok a last =>
      obtain ⟨more, hMoves', hMore, hDecides'⟩ := h
      have hFirst := first_of_remaining hMoves'.remaining
      exact ⟨read ++ more, hMoves.trans hMoves', ⟨read, more, hRead, hMore, rfl⟩,
        hDecides.seq hB hFirst hDecides'⟩

/-- A second step that is explained where the first ended explains both, in one language for both.
-/
theorem explains_then (h : Explains Refusing s A Q (p s)) (hB : B.Leads Next Q)
    (hf : ∀ a s' read, p s = .ok a s' → Moves s read s' → A.has true read →
      A.Decides Q read s'.current → Explains Refusing s (A.seq B) Next (f a s')) :
    Explains Refusing s (A.seq B) Next ((p >>= f) s) := by
  cases hp : p s with
  | error failure s' =>
      rw [estate_bind_of_error hp]
      exact explains_first (hp ▸ h) hB
  | ok a s' =>
      rw [hp] at h
      obtain ⟨read, hMoves, hRead, hDecides⟩ := h
      rw [estate_bind_of_ok hp]
      exact hf a s' read hp hMoves hRead hDecides

/-- Two steps are explained one after the other. -/
theorem explains_bind (h : Explains Refusing s A Q (p s)) (hB : B.Leads Next Q)
    (hLegal : s.current.kind.isError = false)
    (hf : ∀ a s' read, p s = .ok a s' → Moves s read s' → A.has true read →
      Explains Refusing s' B Next (f a s')) :
    Explains Refusing s (A.seq B) Next ((p >>= f) s) :=
  explains_then h hB fun a s' read hp hMoves hRead hDecides =>
    explains_second hMoves hRead hDecides hB hLegal (hf a s' read hp hMoves hRead)

theorem Explained.bind (hp : Explained Refusing n p A Q) (hB : B.Leads Next Q)
    (hf : ∀ a, Explained Refusing n (f a) B Next) :
    Explained Refusing n (p >>= f) (A.seq B) Next := fun s hs =>
  explains_bind (hp s hs) hB hs.legal fun a s' _ _ hMoves _ => hf a s' (hs.move hMoves)

/-- What follows a part that leaves a token has one token less ahead. -/
theorem Explained.leave (hp : Explained Refusing (n + 1) p A Q) (hA : A.Starts P)
    (hB : B.Leads Next Q) (hf : ∀ a, Explained Refusing n (f a) B Next) :
    Explained Refusing (n + 1) (p >>= f) (A.seq B) Next := fun s hs =>
  explains_bind (hp s hs) hB hs.legal fun a s' _ _ hMoves hRead =>
    hf a s' (hs.leave hMoves (hA.has_ne_nil hRead))

theorem Explained.of_succ (h : Explained Refusing (n + 1) p A Next) :
    Explained Refusing n p A Next := fun s hs => h s (hs.mono (Nat.le_succ n))

theorem explains_pure (a : α) (hClosed : Closed s.remaining) :
    Explains Refusing s nothing Next ((pure a : Parser α) s) :=
  ⟨[], .refl hClosed, rfl, fun _ _ hu _ _ => hu⟩

/-- A step that only reckons with what was read reads nothing. -/
theorem explains_map (g : α → β) (h : Explains Refusing s A Next (p s))
    (hLegal : s.current.kind.isError = false) :
    Explains Refusing s A Next ((p >>= fun a => pure (g a)) s) := by
  rw [← seq_nothing A]
  exact explains_bind h (leads_nothing fun _ => id) hLegal
    fun a _ _ _ hMoves _ => explains_pure (g a) hMoves.closed

/-- A step that only reckons with what was read is explained by the reading. -/
theorem Explained.map (g : α → β) (h : Explained Refusing n p A Next) :
    Explained Refusing n (p >>= fun a => pure (g a)) A Next := fun s hs =>
  explains_map g (h s hs) hs.legal

/-- Looking further ahead leaves every token where it is. -/
theorem explains_fetch {result : EStateM.Result Failure TokenStream α} (count : Nat)
    (h : Explains Refusing (s.fetch count) A Next result) : Explains Refusing s A Next result := by
  cases result with
  | ok a s' =>
      obtain ⟨read, hMoves, hRest⟩ := h
      exact ⟨read, ⟨hMoves.remaining, hMoves.closed, hMoves.stop, hMoves.legal⟩, hRest⟩
  | error failure s' =>
      obtain ⟨read, hPasses, hRest⟩ := h
      exact ⟨read, ⟨hPasses.remaining, hPasses.stop, hPasses.legal⟩, hRest⟩

/-- The other part of a choice begins with nothing that stands at the cursor. -/
theorem Explains.left {result : EStateM.Result Failure TokenStream α}
    (h : Explains Refusing s A Next result) (hB : B.Leads Next Q) (hNot : ¬ Q s.current) :
    Explains Refusing s (A.either B) Next result := by
  cases result with
  | ok a s' =>
      obtain ⟨read, hMoves, hSays, hDecides⟩ := h
      exact ⟨read, hMoves, .inl hSays,
        hDecides.left (hB.excludes (first_of_remaining hMoves.remaining) hNot)⟩
  | error failure s' =>
      obtain ⟨read, hPasses, hRead, hWhy⟩ := h
      have hOther := hB.excludes (first_of_remaining hPasses.remaining) hNot
      refine ⟨read, hPasses, hRead.imp fun _ => .inl, ?_⟩
      exact hWhy.imp (·.either hOther) (And.imp_right fun hRefuses =>
        hRefuses.imp [] fun _ hAllows => hAllows.imp fun _ => .inl)

/-- The first part of a choice begins with nothing that stands at the cursor. -/
theorem Explains.right {result : EStateM.Result Failure TokenStream α}
    (h : Explains Refusing s B Next result) (hA : A.Leads Next Q) (hNot : ¬ Q s.current) :
    Explains Refusing s (A.either B) Next result := by
  rw [either_comm]
  exact h.left hA hNot

/-- An optional part is read exactly if it begins at the cursor. -/
theorem explains_opt {test : Bool} (a : α) (hReady : s.Ready n) (hA : A.Starts Q)
    (hTest : test = true ↔ Q s.current) (hNext : ∀ t, Next t → ¬ Q t)
    (h : test = true → Explains Refusing s A Next (p s)) :
    Explains Refusing s A.opt Next ((if test then p else pure a) s) := by
  cases test with
  | true =>
      have hHere : ¬ Next s.current := fun hHere => hNext _ hHere (hTest.1 rfl)
      exact (h rfl).right (leads_nothing fun _ => id) hHere
  | false =>
      have hNot : ¬ Q s.current := fun hHere => Bool.false_ne_true (hTest.2 hHere)
      exact (explains_pure a hReady.closed).left hA.leads_self hNot

/-- What follows an optional part begins with nothing that the part could begin with. -/
theorem explains_opt_seq {test : Bool} {a : α} (hReady : s.Ready n) (hA : A.Starts Q)
    (hTest : test = true ↔ Q s.current) (hB : B.Leads Next fun t => ¬ Q t)
    (h : test = true → Explains Refusing s A (fun t => ¬ Q t) (p s))
    (hf : ∀ a, Explained Refusing n (f a) B Next) :
    Explains Refusing s (A.opt.seq B) Next
      ((if test then p >>= f else pure a >>= f) s) := by
  have hWhole := explains_bind (explains_opt a hReady hA hTest (fun _ => id) h) hB hReady.legal
    fun a s' _ _ hMoves _ => hf a s' (hReady.move hMoves)
  cases test with
  | true => exact hWhole
  | false => exact hWhole

/-- What was built is no matter. -/
theorem explains_keeping (node : Outline) (h : Explains Refusing s A Next (p s')) :
    Explains Refusing s A Next (keeping node p s') := by
  unfold keeping
  split
  · next hp => rwa [hp] at h
  · next hp => rwa [hp] at h

/-- Leaving a token that is known reads it. -/
theorem explains_advance (hReady : s.Ready n) (hSome : ∃ t, P t) (hAt : P s.current)
    (hEnd : s.current.kind ≠ .eof) :
    Explains Refusing s (one P hSome) Next (Parser.advance s) := by
  unfold Parser.advance
  split
  · next token s' hAdvance =>
      obtain ⟨rfl, hMoves⟩ := moves_advance hReady.closed hEnd hAdvance
      exact ⟨_, hMoves, ⟨_, hAt, rfl⟩, decides_one hSome _⟩
  · next error s' hAdvance =>
      obtain ⟨hPasses, hError⟩ := passes_advance hReady hEnd hAdvance
      obtain ⟨hFault, hSpan, hKind⟩ := Token.error?_eq_some hError
      refine ⟨_, hPasses, allows_of_has ⟨_, hAt, rfl⟩, ?_⟩
      rw [hKind, hSpan]
      exact ⟨hFault, rfl⟩

theorem explains_sign {kind : TokenKind} (hReady : s.Ready n) (hHere : s.current.kind = kind)
    (hEnd : kind ≠ .eof) : Explains Refusing s (sign kind) Next (Parser.advance s) :=
  explains_advance hReady _ hHere (hHere ▸ hEnd)

/-- Nothing of the language begins at the cursor, and an error says so. -/
theorem explains_fail {error : SyntaxError} (hA : A.Leads Next Q)
    (hNot : ¬ Q s.current)
    (h : A.Excludes Next [] s.current → Justifies Refusing A Next [] s error.span error.kind) :
    Explains Refusing s A Next ((fail error : Parser α) s) :=
  ⟨[], .refl s, A.allows_nil false, h (hA.excludes (List.prefix_refl _) hNot)⟩

/-- What is missed at the cursor is justified if the language cannot go on there. -/
theorem justifies_unexpected (hReady : s.Ready n) (expected : List String) (context : String)
    (hA : A.Excludes Next [] s.current) :
    Justifies Refusing A Next [] s (s.unexpected expected context).span
      (s.unexpected expected context).kind := by
  unfold unexpected
  cases hEnd : s.atEnd with
  | true => exact ⟨atEnd_iff.1 hEnd, rfl, hA⟩
  | false =>
      have hNotEnd := atEnd_eq_false_iff.1 hEnd
      exact ⟨hReady.legal, hNotEnd, rfl, hA⟩

/-- Failing at the cursor is explained if nothing of the language begins there. -/
theorem explains_failExpecting (expected : List String) (context : String) (notes : List Note)
    (hReady : s.Ready n) (hA : A.Leads Next Q) (hNot : ¬ Q s.current) :
    Explains Refusing s A Next ((failExpecting expected context notes : Parser α) s) :=
  explains_fail hA hNot (justifies_unexpected hReady expected context)

/-- Nothing comes after a failure. -/
theorem explains_failExpecting_bind (expected : List String) (context : String)
    (notes : List Note) (hReady : s.Ready n) (hA : A.Leads Next Q) (hNot : ¬ Q s.current) :
    Explains Refusing s A Next ((failExpecting expected context notes >>= f) s) :=
  show Explains Refusing s A Next ((failExpecting expected context notes : Parser β) s) from
    explains_failExpecting expected context notes hReady hA hNot

theorem expect_of_at {kind : TokenKind} {context : String} (h : s.isAt kind = true) :
    expect kind context s = Parser.advance s := by
  rw [expect, isAt_bind, if_pos h]

theorem expectWord_of_at {w context : String} (h : s.isAtWord w = true) :
    expectWord w context s = Parser.advance s := by
  rw [expectWord, isAtWord_bind, if_pos h]

/-- A sign that is required is read, or missed where it cannot come. -/
theorem explained_expect {kind : TokenKind} (context : String)
    (hKind : kind.isError = false ∧ kind ≠ .eof) :
    Explained Refusing n (expect kind context) (sign kind) Next := by
  intro s hs
  cases hAt : s.isAt kind with
  | true =>
      rw [expect_of_at hAt]
      exact explains_sign hs ((isAt_iff hKind.1).1 hAt) hKind.2
  | false =>
      have hNot := (isAt_eq_false_iff hKind.1).1 hAt
      rw [expect, isAt_bind, hAt, if_neg Bool.false_ne_true]
      exact explains_failExpecting _ _ _ hs (starts_sign kind).leads_self hNot

theorem explained_expectName (context : String) :
    Explained Refusing n (expectName context) (sign .name) Next :=
  explained_expect context (by decide)

theorem explained_expectWord (w context : String) :
    Explained Refusing n (expectWord w context) (word w) Next := by
  intro s hs
  cases hAt : s.isAtWord w with
  | true =>
      have hEnd : s.current.kind ≠ .eof := by
        rw [(Grammar.isWord_iff.1 hAt).1]
        decide
      rw [expectWord_of_at hAt]
      exact explains_advance hs _ hAt hEnd
  | false =>
      rw [expectWord, isAtWord_bind, hAt, if_neg Bool.false_ne_true]
      exact explains_failExpecting _ _ _ hs (starts_word w).leads_self
        (Bool.eq_false_iff.1 hAt)

/-- To read a phrase into another reads the phrase. -/
theorem explains_grow {child : Parser Outline} (node : Outline)
    (hLegal : s.current.kind.isError = false) (h : Explains Refusing s A Next (child s)) :
    Explains Refusing s A Next (grow node child s) :=
  explains_map _ (explains_keeping node h) hLegal

section Growing

variable {child : Parser Outline}

theorem Explained.grow (node : Outline) (h : Explained Refusing n child A Next) :
    Explained Refusing n (grow node child) A Next := fun s hs =>
  explains_grow node hs.legal (h s hs)

/-- An optional part is read exactly if it begins at the cursor. -/
theorem explained_growAt {kind : TokenKind} (node : Outline)
    (hChild : Explained Refusing n child A Next) (hStarts : A.Starts (·.kind = kind))
    (hKind : kind.isError = false) (hNext : ∀ t, Next t → t.kind ≠ kind) :
    Explained Refusing n (growAt kind node child) A.opt Next := by
  intro s hs
  rw [growAt, isAt_bind]
  exact explains_opt node hs hStarts (isAt_iff hKind) hNext fun _ => hChild.grow node s hs

/-- By induction on the rounds: each leaves a token, so they are never used up. -/
theorem explains_growWhileAt {kind : TokenKind} {rounds : Nat} (node : Outline)
    (hChild : Explained Refusing n child A Q) (hStarts : A.Starts (·.kind = kind))
    (hKind : kind.isError = false) (hItem : ∀ t, t.kind = kind → Q t)
    (hNext : ∀ t, Next t → t.kind ≠ kind ∧ Q t) (hReady : s.Ready n) (hRounds : s.Ready rounds) :
    Explains Refusing s A.many Next (growWhileAt kind child rounds node s) := by
  induction rounds generalizing s node with
  | zero => exact absurd hRounds not_ready_zero
  | succ rounds ih =>
      rw [many_eq]
      cases hAt : s.isAt kind with
      | true =>
          rw [growWhileAt_of_at hAt]
          have hHere := (isAt_iff hKind).1 hAt
          have hMore := explains_bind (hChild.grow node s hReady)
            (hStarts.leads_many hItem fun t ht => (hNext t ht).2) hReady.legal
            fun grown s' read _ hMoves hRead =>
              ih grown (hReady.move hMoves) (hRounds.leave hMoves (hStarts.has_ne_nil hRead))
          exact hMore.right (leads_nothing fun _ => id) fun hAfter => (hNext _ hAfter).1 hHere
      | false =>
          rw [growWhileAt_of_not_at hAt]
          have hNot := (isAt_eq_false_iff hKind).1 hAt
          exact (explains_pure node hReady.closed).left hStarts.seq.leads_self hNot

/-- A token at which an enclosure ends: a closer, be it the wrong one, or the end of the text. -/
def Token.Ends (token : Token) : Prop := token.kind = .eof ∨ token.kind.isCloser = true

theorem closer_isCloser (enclosure : Enclosure) : enclosure.closer.isCloser = true := by
  cases enclosure <;> rfl

/-- An enclosure goes on where nothing ends. -/
theorem closes_of_not_ends {enclosure : Enclosure} (opening : Token) (h : ¬ s.current.Ends) :
    closes enclosure opening s = .ok false s := by
  obtain ⟨hEnd, hCloser⟩ := not_or.1 h
  refine closes_eq_ok.2 (.inr ⟨rfl, ?_, ?_, Bool.eq_false_iff.2 hCloser, rfl⟩)
  · refine (isAt_eq_false_iff (Grammar.closer_plain enclosure).1).2 fun hHere => hCloser ?_
    rw [hHere]
    exact closer_isCloser enclosure
  · exact atEnd_eq_false_iff.2 hEnd

/-- Where something ends the enclosure does, or it is an error. -/
theorem closes_true {enclosure : Enclosure} {opening : Token} {ends : Bool}
    (h : s.current.Ends) (hStep : closes enclosure opening s = .ok ends s') : ends = true := by
  obtain ⟨hTrue, -⟩ | ⟨-, -, hEnd, hCloser, -⟩ := closes_eq_ok.1 hStep
  · exact hTrue
  · exact absurd h (not_or.2 ⟨atEnd_eq_false_iff.1 hEnd, Bool.eq_false_iff.1 hCloser⟩)

/-- An enclosure ends at its own closer, and fails at any other and at the end of the text. -/
theorem explains_closes {enclosure : Enclosure} (opening : Token) (hReady : s.Ready n)
    (h : s.current.Ends) :
    Explains Refusing s (sign enclosure.closer) Next (closes enclosure opening s) := by
  have hCloser := Grammar.closer_plain enclosure
  rw [closes, isAt_bind]
  cases hAt : s.isAt enclosure.closer with
  | true =>
      have hHere := (isAt_iff hCloser.1).1 hAt
      exact explains_map _ (explains_sign hReady hHere hCloser.2) hReady.legal
  | false =>
      have hNot := (isAt_eq_false_iff hCloser.1).1 hAt
      have hLeads : (sign enclosure.closer).Leads Next (·.kind = enclosure.closer) :=
        (starts_sign _).leads_self
      rw [if_neg Bool.false_ne_true, get_bind]
      cases hEnd : s.atEnd with
      | true => exact explains_fail hLeads hNot fun hA => ⟨atEnd_iff.1 hEnd, rfl, hA⟩
      | false =>
          have hNotEnd := atEnd_eq_false_iff.1 hEnd
          rw [if_neg Bool.false_ne_true, if_pos (h.resolve_left hNotEnd)]
          exact explains_fail hLeads hNot fun hA => ⟨hReady.legal, hNotEnd, rfl, hA⟩

/-- Another item is read where nothing ends. -/
theorem growUntilClosed_of_not_ends {enclosure : Enclosure} {opening : Token} {node : Outline}
    {rounds : Nat} (h : ¬ s.current.Ends) :
    growUntilClosed enclosure opening child (rounds + 1) node s =
      (grow node child >>= growUntilClosed enclosure opening child rounds) s := by
  rw [growUntilClosed, estate_bind_of_ok (keeping_eq_ok.2 (closes_of_not_ends opening h)),
    if_neg Bool.false_ne_true]

/-- By induction on the rounds, as where the loop has no closing delimiter. -/
theorem explains_growUntilClosed {enclosure : Enclosure} {opening : Token} {rounds : Nat}
    (node : Outline) (hChild : Explained Refusing n child A Q) (hStarts : A.Starts P)
    (hInside : ∀ t, P t → ¬ t.Ends ∧ Q t) (hCloser : ∀ t, t.kind = enclosure.closer → Q t)
    (hReady : s.Ready n) (hRounds : s.Ready rounds) :
    Explains Refusing s (A.many.seq (sign enclosure.closer)) Next
      (growUntilClosed enclosure opening child rounds node s) := by
  induction rounds generalizing s node with
  | zero => exact absurd hRounds not_ready_zero
  | succ rounds ih =>
      rw [many_seq]
      by_cases hEnds : s.current.Ends
      · have hClose : Explains Refusing s (sign enclosure.closer) Next
            (growUntilClosed enclosure opening child (rounds + 1) node s) := by
          rw [← seq_nothing (sign enclosure.closer)]
          refine explains_bind (explains_keeping node (explains_closes opening hReady hEnds))
            (leads_nothing fun _ => id) hReady.legal fun ends s' read hStep hMoves hRead => ?_
          rw [keeping_eq_ok] at hStep
          obtain rfl := closes_true hEnds hStep
          exact explains_pure node hMoves.closed
        exact hClose.left hStarts.seq.leads_self fun hHere => (hInside _ hHere).1 hEnds
      · rw [growUntilClosed_of_not_ends hEnds]
        have hNot : ¬ s.current.kind = enclosure.closer := fun hHere =>
          hEnds (.inr (hHere ▸ closer_isCloser enclosure))
        have hMore := explains_bind (hChild.grow node s hReady)
          ((hStarts.leads_many (fun t ht => (hInside t ht).2) hCloser).seq
            (starts_sign enclosure.closer).leads_self) hReady.legal
          fun grown s' read _ hMoves hRead =>
            ih grown (hReady.move hMoves) (hRounds.leave hMoves (hStarts.has_ne_nil hRead))
        exact hMore.right (starts_sign _).leads_self hNot

/-- A collection is explained by its items, which have a token less ahead. -/
theorem explained_collection {enclosure : Enclosure} (type : NodeType)
    (hChild : Explained Refusing n child A Q) (hStarts : A.Starts P)
    (hInside : ∀ t, P t → ¬ t.Ends ∧ Q t) (hCloser : ∀ t, t.kind = enclosure.closer → Q t) :
    Explained Refusing (n + 1) (collection type enclosure child) (enclosed enclosure A) Next := by
  refine (explained_expect _ (Grammar.opener_plain enclosure)).leave (starts_sign _)
    (leads_any _ _) fun opening s hs => ?_
  rw [bound_bind]
  exact explains_growUntilClosed _ hChild hStarts hInside hCloser hs hs.tight

end Growing

end Explaining

end GraphQL
