import Mathlib.Data.List.TakeWhile
import GraphQL.Proofs.Outcome
import GraphQL.Token.Lexer

/-! The lexical grammar. A scan that finds no fault splits off exactly a lexeme of its kind, and it
finds the same lexeme again wherever the text after it does not lengthen it. -/
namespace GraphQL.Lexer

open Text

/-- One digit or more. -/
def IsDigits (cs : List Char) : Prop := cs ≠ [] ∧ ∀ c ∈ cs, c.isDigit = true

/-- The digits before a point: a lone `0`, or a run of digits that starts with another. -/
def IsWhole (cs : List Char) : Prop := IsDigits cs ∧ (cs.head? = some '0' → cs = ['0'])

def IsFraction (cs : List Char) : Prop := cs = [] ∨ ∃ digits, IsDigits digits ∧ cs = '.' :: digits

def IsExponent (cs : List Char) : Prop :=
  cs = [] ∨ ∃ mark sign digits, (mark = 'e' ∨ mark = 'E') ∧
    (sign = [] ∨ sign = ['+'] ∨ sign = ['-']) ∧ IsDigits digits ∧ cs = mark :: (sign ++ digits)

def IsNumber (cs : List Char) : Prop :=
  ∃ sign whole fraction exponent, (sign = [] ∨ sign = ['-']) ∧ IsWhole whole ∧
    IsFraction fraction ∧ IsExponent exponent ∧ cs = sign ++ (whole ++ fraction ++ exponent)

/-- The inside of a string with its closing quote. A backslash takes the next character along. -/
inductive IsStringInside : List Char → Prop where
  | close : IsStringInside ['"']
  | escape {c : Char} {cs : List Char} (hLine : isLineEnd c = false) (rest : IsStringInside cs) :
      IsStringInside ('\\' :: c :: cs)
  | char {c : Char} {cs : List Char} (hQuote : c ≠ '"') (hBackslash : c ≠ '\\')
      (hLine : isLineEnd c = false) (rest : IsStringInside cs) : IsStringInside (c :: cs)

/-- The inside of a block string with its closing quotes, which are the first that do not follow a
backslash. -/
inductive IsBlockInside : List Char → Prop where
  | close : IsBlockInside ['"', '"', '"']
  | escape {cs : List Char} (rest : IsBlockInside cs) :
      IsBlockInside ('\\' :: '"' :: '"' :: '"' :: cs)
  | char {c : Char} {cs : List Char} (hClose : ¬ ['"', '"', '"'] <+: c :: cs)
      (hEscape : ¬ ['\\', '"', '"', '"'] <+: c :: cs) (rest : IsBlockInside cs) :
      IsBlockInside (c :: cs)

/-- The lexemes of each kind of token. Neither the end of input nor a fault has any. -/
inductive Lexeme : TokenKind → List Char → Prop where
  | punctuator {kind : TokenKind} {text : String} (h : kind.punctuator? = some text) :
      Lexeme kind text.toList
  | name {c : Char} {cs : List Char} (hStart : isNameStart c = true)
      (hContinue : ∀ d ∈ cs, isNameContinue d = true) : Lexeme .name (c :: cs)
  | number {cs : List Char} (h : IsNumber cs) : Lexeme .number cs
  | string {inside : List Char} (h : IsStringInside inside) : Lexeme .string ('"' :: inside)
  | blockString {inside : List Char} (h : IsBlockInside inside) :
      Lexeme .string ('"' :: '"' :: '"' :: inside)

/-- `rest` does not lengthen a lexeme. The empty string is lengthened by a quote, since two quotes
may begin a block string. -/
def Delimits (kind : TokenKind) (lexeme rest : List Char) : Prop :=
  ∀ c ∈ rest.head?, match kind with
    | .name => isNameContinue c = false
    | .number => isNameContinue c = false ∧ c ≠ '.'
    | .string => lexeme = ['"', '"'] → c ≠ '"'
    | _ => True

theorem isLineEnd_iff {c : Char} : isLineEnd c = true ↔ c = '\n' ∨ c = '\r' := by
  simp [isLineEnd]

theorem takeWhile_append_stop {α : Type} {p : α → Bool} {cs rest : List α}
    (hAll : ∀ c ∈ cs, p c = true) (hStop : ∀ c ∈ rest.head?, p c = false) :
    (cs ++ rest).takeWhile p = cs := by
  rw [List.takeWhile_append_of_pos hAll]
  cases rest with
  | nil => simp
  | cons c rest => simp [hStop c rfl]

theorem dropWhile_append_stop {α : Type} {p : α → Bool} {cs rest : List α}
    (hAll : ∀ c ∈ cs, p c = true) (hStop : ∀ c ∈ rest.head?, p c = false) :
    (cs ++ rest).dropWhile p = rest := by
  rw [List.dropWhile_append_of_pos hAll]
  cases rest with
  | nil => simp
  | cons c rest => simp [hStop c rfl]

/-- The character that a run stops at is not in the run. -/
theorem stop_dropWhile (p : Char → Bool) (cs : List Char) :
    ∀ c ∈ (cs.dropWhile p).head?, p c = false := by
  intro c h
  have hNot := List.head?_dropWhile_not p cs
  simp only [Option.mem_def] at h
  simpa [h] using hNot

theorem startsWithDigit_eq_false {cs : List Char} :
    startsWithDigit cs = false ↔ ∀ c ∈ cs.head?, c.isDigit = false := by
  cases cs <;> simp [startsWithDigit]

/-- Digits are read to their end, wherever they stand before something else. -/
theorem spanDigits_lexeme {fault : NumberFault} {digits rest : List Char} (h : IsDigits digits)
    (hStop : ∀ c ∈ rest.head?, c.isDigit = false) :
    spanDigits fault (digits ++ rest) = .ok (digits, rest) := by
  obtain ⟨hNonempty, hDigits⟩ := h
  obtain ⟨d, ds, rfl⟩ := List.exists_cons_of_ne_nil hNonempty
  have hStart : startsWithDigit (d :: ds ++ rest) = true := hDigits d (by simp)
  rw [spanDigits, if_pos hStart, takeWhile_append_stop hDigits hStop,
    dropWhile_append_stop hDigits hStop]

/-- What is read as digits are all the digits there are, and one at least. -/
theorem isDigits_of_spanDigits {fault : NumberFault} {cs digits rest : List Char}
    (h : spanDigits fault cs = .ok (digits, rest)) :
    IsDigits digits ∧ ∀ c ∈ rest.head?, c.isDigit = false := by
  unfold spanDigits at h
  split at h
  · next hStart =>
      cases h
      refine ⟨⟨?_, fun c => List.mem_takeWhile_imp⟩, stop_dropWhile Char.isDigit cs⟩
      cases cs with
      | nil => simp [startsWithDigit] at hStart
      | cons c cs => simp [List.takeWhile_cons_of_pos (show c.isDigit = true from hStart)]
  · cases h

/-- A whole part that does not start with zero is the longest run of digits. -/
theorem spanWhole_of_ne_zero {c : Char} {cs : List Char} (h : c ≠ '0') :
    spanWhole (c :: cs) =
      .ok ((c :: cs).takeWhile Char.isDigit, (c :: cs).dropWhile Char.isDigit) := by
  unfold spanWhole
  split
  · next hEq => exact absurd (List.cons.inj hEq).1 h
  · rfl

/-- A whole part is read back if no digit follows it; after a zero one would be a fault. -/
theorem spanWhole_lexeme {whole rest : List Char} (h : IsWhole whole)
    (hStop : ∀ c ∈ rest.head?, c.isDigit = false) :
    spanWhole (whole ++ rest) = .ok (whole, rest) := by
  obtain ⟨⟨hNonempty, hDigits⟩, hZero⟩ := h
  obtain ⟨d, ds, rfl⟩ := List.exists_cons_of_ne_nil hNonempty
  by_cases hd : d = '0'
  · subst hd
    cases hZero rfl
    simp [spanWhole, startsWithDigit_eq_false.mpr hStop]
  · rw [List.cons_append, spanWhole_of_ne_zero hd, ← List.cons_append,
      takeWhile_append_stop hDigits hStop, dropWhile_append_stop hDigits hStop]

/-- What is read as a whole part is one, and no digit follows it. -/
theorem isWhole_of_spanWhole {cs whole rest : List Char} (hStart : startsWithDigit cs = true)
    (h : spanWhole cs = .ok (whole, rest)) :
    IsWhole whole ∧ ∀ c ∈ rest.head?, c.isDigit = false := by
  cases cs with
  | nil => simp [startsWithDigit] at hStart
  | cons c cs =>
      have hDigit : c.isDigit = true := hStart
      by_cases hc : c = '0'
      · subst hc
        simp only [spanWhole] at h
        split at h
        · cases h
        · next hNext =>
            cases h
            refine ⟨⟨⟨by simp, by simp [hDigit]⟩, fun _ => rfl⟩, ?_⟩
            exact startsWithDigit_eq_false.mp (by simpa using hNext)
      · rw [spanWhole_of_ne_zero hc] at h
        cases h
        refine ⟨⟨⟨by simp [hDigit], fun d => List.mem_takeWhile_imp⟩, ?_⟩, stop_dropWhile _ _⟩
        intro hHead
        simp [hDigit, hc] at hHead

theorem spanFraction_of_ne_dot {cs : List Char} (h : ∀ c ∈ cs.head?, c ≠ '.') :
    spanFraction cs = .ok ([], cs) := by
  fun_cases spanFraction cs with
  | case1 cs => exact absurd rfl (h '.' rfl)
  | case2 cs _ => exact absurd rfl (h '.' rfl)
  | case3 cs _ _ => rfl

/-- After a single dot a fraction is required: two dots in a row start no fraction. -/
theorem spanFraction_dot {cs : List Char} (h : ∀ c ∈ cs.head?, c ≠ '.') :
    spanFraction ('.' :: cs) =
      (spanDigits .noFractionDigit cs).map fun part => ('.' :: part.1, part.2) := by
  have hNext : ∀ tail, cs = '.' :: tail → False := by
    rintro tail rfl
    exact h '.' rfl rfl
  rw [spanFraction.eq_2 cs hNext]
  cases spanDigits .noFractionDigit cs <;> rfl

theorem isDigit_ne_dot {c : Char} (h : c.isDigit = true) : c ≠ '.' := by
  rintro rfl
  exact absurd h (by decide)

/-- A fraction is read back where neither a digit nor another dot follows. -/
theorem spanFraction_lexeme {fraction rest : List Char} (h : IsFraction fraction)
    (hDigit : ∀ c ∈ rest.head?, c.isDigit = false) (hDot : ∀ c ∈ rest.head?, c ≠ '.') :
    spanFraction (fraction ++ rest) = .ok (fraction, rest) := by
  rcases h with rfl | ⟨digits, hDigits, rfl⟩
  · exact spanFraction_of_ne_dot hDot
  · have hFirst : ∀ c ∈ (digits ++ rest).head?, c ≠ '.' := by
      obtain ⟨d, ds, rfl⟩ := List.exists_cons_of_ne_nil hDigits.1
      intro c hc
      cases hc
      exact isDigit_ne_dot (hDigits.2 d (by simp))
    rw [List.cons_append, spanFraction_dot hFirst, spanDigits_lexeme hDigits hDigit]
    rfl

/-- What is read as a fraction is one, perhaps empty, and no digit follows it. -/
theorem isFraction_of_spanFraction {cs fraction rest : List Char}
    (hDigit : ∀ c ∈ cs.head?, c.isDigit = false) (h : spanFraction cs = .ok (fraction, rest)) :
    IsFraction fraction ∧ ∀ c ∈ rest.head?, c.isDigit = false := by
  by_cases hDot : ∀ c ∈ cs.head?, c ≠ '.'
  · rw [spanFraction_of_ne_dot hDot] at h
    cases h
    exact ⟨.inl rfl, hDigit⟩
  · obtain ⟨cs, rfl⟩ : ∃ tail, cs = '.' :: tail := by
      cases cs with
      | nil => simp at hDot
      | cons c cs => exact ⟨cs, by simp_all⟩
    by_cases hNext : ∀ c ∈ cs.head?, c ≠ '.'
    · rw [spanFraction_dot hNext] at h
      cases hDigits : spanDigits .noFractionDigit cs with
      | error fault => simp [hDigits, Except.map] at h
      | ok part =>
          simp only [hDigits, Except.map] at h
          cases h
          obtain ⟨hPart, hStop⟩ := isDigits_of_spanDigits hDigits
          exact ⟨.inr ⟨part.1, hPart, rfl⟩, hStop⟩
    · obtain ⟨cs, rfl⟩ : ∃ tail, cs = '.' :: tail := by
        cases cs with
        | nil => simp at hNext
        | cons c cs => exact ⟨cs, by simp_all⟩
      cases h
      exact ⟨.inl rfl, hDigit⟩

/-- A sign, or none, is read back before digits. -/
theorem spanSign_lexeme {sign rest : List Char} (h : sign = [] ∨ sign = ['+'] ∨ sign = ['-'])
    (hStart : startsWithDigit rest = true) : spanSign (sign ++ rest) = (sign, rest) := by
  rcases h with rfl | rfl | rfl
  · fun_cases spanSign rest with
    | case1 cs => simp [startsWithDigit] at hStart
    | case2 cs => simp [startsWithDigit] at hStart
    | case3 => rfl
  · rfl
  · rfl

/-- After the mark of an exponent its digits are required, perhaps behind a sign. -/
theorem spanExponent_mark {mark : Char} {cs : List Char} (h : mark = 'e' ∨ mark = 'E') :
    spanExponent (mark :: cs) = (spanDigits .noExponentDigit (spanSign cs).2).map
      fun part => (mark :: ((spanSign cs).1 ++ part.1), part.2) := by
  have hMark : (mark == 'e' || mark == 'E') = true := by simpa using h
  rw [spanExponent, if_pos hMark]
  cases hDigits : spanDigits .noExponentDigit (spanSign cs).2 <;>
    simp [hDigits, bind, Except.bind, pure, Except.pure, Except.map]

theorem spanExponent_of_ne_mark {cs : List Char} (h : ∀ c ∈ cs.head?, c ≠ 'e' ∧ c ≠ 'E') :
    spanExponent cs = .ok ([], cs) := by
  cases cs with
  | nil => rfl
  | cons c cs => simp [spanExponent, h c rfl]

/-- An exponent is read back where neither a digit nor another mark follows. -/
theorem spanExponent_lexeme {exponent rest : List Char} (h : IsExponent exponent)
    (hDigit : ∀ c ∈ rest.head?, c.isDigit = false)
    (hMark : ∀ c ∈ rest.head?, c ≠ 'e' ∧ c ≠ 'E') :
    spanExponent (exponent ++ rest) = .ok (exponent, rest) := by
  rcases h with rfl | ⟨mark, sign, digits, hLetter, hSign, hDigits, rfl⟩
  · exact spanExponent_of_ne_mark hMark
  · have hStart : startsWithDigit (digits ++ rest) = true := by
      obtain ⟨d, ds, rfl⟩ := List.exists_cons_of_ne_nil hDigits.1
      exact hDigits.2 d (by simp)
    rw [List.cons_append, List.append_assoc, spanExponent_mark hLetter,
      spanSign_lexeme hSign hStart, spanDigits_lexeme hDigits hDigit]
    rfl

/-- At most one character is read as a sign. -/
theorem isSign_spanSign (cs : List Char) :
    (spanSign cs).1 = [] ∨ (spanSign cs).1 = ['+'] ∨ (spanSign cs).1 = ['-'] := by
  fun_cases spanSign cs <;> simp

/-- What is read as an exponent is one, perhaps empty, and no digit follows it. -/
theorem isExponent_of_spanExponent {cs exponent rest : List Char}
    (hDigit : ∀ c ∈ cs.head?, c.isDigit = false) (h : spanExponent cs = .ok (exponent, rest)) :
    IsExponent exponent ∧ ∀ c ∈ rest.head?, c.isDigit = false := by
  by_cases hMark : ∀ c ∈ cs.head?, c ≠ 'e' ∧ c ≠ 'E'
  · rw [spanExponent_of_ne_mark hMark] at h
    cases h
    exact ⟨.inl rfl, hDigit⟩
  · obtain ⟨mark, cs, rfl⟩ : ∃ mark tail, cs = mark :: tail := by
      cases cs with
      | nil => simp at hMark
      | cons c cs => exact ⟨c, cs, rfl⟩
    have hLetter : mark = 'e' ∨ mark = 'E' := by
      simpa [Classical.or_iff_not_imp_left] using hMark
    rw [spanExponent_mark hLetter] at h
    cases hDigits : spanDigits .noExponentDigit (spanSign cs).2 with
    | error fault => simp [hDigits, Except.map] at h
    | ok part =>
        simp only [hDigits, Except.map] at h
        cases h
        obtain ⟨hPart, hStop⟩ := isDigits_of_spanDigits hDigits
        exact ⟨.inr ⟨mark, _, part.1, hLetter, isSign_spanSign cs, hPart, rfl⟩, hStop⟩

/-- A number is read when its three parts are, one after another, and something may follow that does
not run into it. -/
theorem spanNumber_eq_ok {cs digits rest : List Char} :
    spanNumber cs = .ok (digits, rest) ↔ ∃ whole afterWhole fraction afterFraction exponent,
      spanWhole cs = .ok (whole, afterWhole) ∧
      spanFraction afterWhole = .ok (fraction, afterFraction) ∧
      spanExponent afterFraction = .ok (exponent, rest) ∧
      mayFollowNumber rest = true ∧ digits = whole ++ fraction ++ exponent := by
  simp only [spanNumber, except_bind_eq_ok, Prod.exists]
  constructor
  · rintro ⟨whole, afterWhole, hWhole, fraction, afterFraction, hFraction, exponent, last,
      hExponent, h⟩
    split at h
    · next hFollow =>
        cases h
        exact ⟨_, _, _, _, _, hWhole, hFraction, hExponent, hFollow, rfl⟩
    · cases h
  · rintro ⟨_, _, _, _, _, hWhole, hFraction, hExponent, hFollow, rfl⟩
    exact ⟨_, _, hWhole, _, _, hFraction, _, _, hExponent, by rw [if_pos hFollow]; rfl⟩

theorem isNameContinue_eq_false {c : Char} :
    isNameContinue c = false ↔ isNameStart c = false ∧ c.isDigit = false := by
  simp [isNameContinue, isNameStart, Char.isAlphanum, and_assoc]

/-- After the digits of a number a name, another digit or a dot may not follow. -/
theorem mayFollowNumber_iff {rest : List Char} (h : ∀ c ∈ rest.head?, c.isDigit = false) :
    mayFollowNumber rest = true ↔
      ∀ c ∈ rest.head?, isNameContinue c = false ∧ c ≠ '.' := by
  cases rest with
  | nil => simp [mayFollowNumber]
  | cons c rest =>
      have hc := h c rfl
      simp [mayFollowNumber, isNameContinue_eq_false, hc, and_comm]

/-- The three parts of a number are read back as the number. -/
theorem spanNumber_lexeme {whole fraction exponent rest : List Char} (hWhole : IsWhole whole)
    (hFraction : IsFraction fraction) (hExponent : IsExponent exponent)
    (hRest : ∀ c ∈ rest.head?, isNameContinue c = false ∧ c ≠ '.') :
    spanNumber (whole ++ fraction ++ exponent ++ rest) =
      .ok (whole ++ fraction ++ exponent, rest) := by
  have hDigit : ∀ c ∈ rest.head?, c.isDigit = false :=
    fun c hc => (isNameContinue_eq_false.mp (hRest c hc).1).2
  have hMark : ∀ c ∈ rest.head?, c ≠ 'e' ∧ c ≠ 'E' := by
    intro c hc
    have hContinue := (hRest c hc).1
    constructor <;> rintro rfl <;> exact absurd hContinue (by decide)
  have hHead : ∀ c ∈ (exponent ++ rest).head?, c.isDigit = false ∧ c ≠ '.' := by
    rcases hExponent with rfl | ⟨mark, sign, digits, hLetter, _, _, rfl⟩
    · exact fun c hc => ⟨hDigit c hc, (hRest c hc).2⟩
    · intro c hc
      cases hc
      rcases hLetter with rfl | rfl <;> decide
  have hHeadFraction : ∀ c ∈ (fraction ++ (exponent ++ rest)).head?, c.isDigit = false := by
    rcases hFraction with rfl | ⟨digits, _, rfl⟩
    · exact fun c hc => (hHead c hc).1
    · intro c hc
      cases hc
      decide
  rw [spanNumber_eq_ok]
  refine ⟨whole, fraction ++ (exponent ++ rest), fraction, exponent ++ rest, exponent, ?_, ?_,
    spanExponent_lexeme hExponent hDigit hMark, (mayFollowNumber_iff hDigit).mpr hRest, rfl⟩
  · rw [List.append_assoc, List.append_assoc]
    exact spanWhole_lexeme hWhole hHeadFraction
  · exact spanFraction_lexeme hFraction (fun c hc => (hHead c hc).1) fun c hc => (hHead c hc).2

/-- What is read as a number has the three parts of one, and nothing that belongs to it follows. -/
theorem isNumber_of_spanNumber {cs digits rest : List Char} (hStart : startsWithDigit cs = true)
    (h : spanNumber cs = .ok (digits, rest)) :
    (∃ whole fraction exponent, IsWhole whole ∧ IsFraction fraction ∧ IsExponent exponent ∧
      digits = whole ++ fraction ++ exponent) ∧
    ∀ c ∈ rest.head?, isNameContinue c = false ∧ c ≠ '.' := by
  obtain ⟨whole, afterWhole, fraction, afterFraction, exponent, hW, hF, hE, hFollow, rfl⟩ :=
    spanNumber_eq_ok.mp h
  obtain ⟨hWhole, hAfterWhole⟩ := isWhole_of_spanWhole hStart hW
  obtain ⟨hFraction, hAfterFraction⟩ := isFraction_of_spanFraction hAfterWhole hF
  obtain ⟨hExponent, hRest⟩ := isExponent_of_spanExponent hAfterFraction hE
  exact ⟨⟨whole, fraction, exponent, hWhole, hFraction, hExponent, rfl⟩,
    (mayFollowNumber_iff hRest).mp hFollow⟩

/-- The inside of a string is read up to the quotation mark that closes it, whatever follows. -/
theorem spanString_lexeme {inside : List Char} (h : IsStringInside inside) (rest : List Char) :
    spanString (inside ++ rest) = (.closed, inside, rest) := by
  induction h with
  | close => rfl
  | escape hLine _ ih => simp [spanString, hLine, ih]
  | char _ hBackslash hLine _ ih => simp [spanString, hBackslash, hLine, ih]

/-- What is read of a string that is closed is the inside of one. -/
theorem isStringInside_of_spanString {cs inside rest : List Char}
    (h : spanString cs = (.closed, inside, rest)) : IsStringInside inside := by
  fun_induction spanString cs generalizing inside with
  | case1 => cases h
  | case2 cs =>
      cases h
      exact .close
  | case3 c cs hLine => cases h
  | case4 c cs hLine ending tail after hSpan ih =>
      cases h
      exact .escape (by simpa using hLine) (ih hSpan)
  | case5 c cs hQuote hEscape hLine => cases h
  | case6 c cs hQuote hEscape hLine ending tail after hSpan ih =>
      cases h
      refine .char (fun hc => hQuote hc) ?_ (by simpa using hLine) (ih hSpan)
      rintro rfl
      cases cs with
      | nil => cases hSpan
      | cons d cs => exact hEscape d cs rfl rfl

/-- The three quotation marks at the end count as inside. -/
theorem IsBlockInside.three_le {inside : List Char} (h : IsBlockInside inside) :
    3 ≤ inside.length := by
  induction h with
  | close => simp
  | escape _ ih => simp only [List.length_cons]; omega
  | char _ _ _ ih => simp only [List.length_cons]; omega

/-- A character that starts neither the end nor an escape is passed over. -/
theorem spanBlockString_char {c : Char} {cs : List Char} (hClose : ¬ ['"', '"', '"'] <+: c :: cs)
    (hEscape : ¬ ['\\', '"', '"', '"'] <+: c :: cs) :
    spanBlockString (c :: cs) =
      ((spanBlockString cs).1, c :: (spanBlockString cs).2.1, (spanBlockString cs).2.2) := by
  rw [spanBlockString.eq_4 c cs]
  · rintro tail rfl rfl
    exact hEscape ⟨tail, rfl⟩
  · rintro tail rfl rfl
    exact hClose ⟨tail, rfl⟩

/-- Only the first `k` characters decide whether a text starts with `k` given ones. -/
theorem not_prefix_append {cs ds rest : List Char} (hLength : cs.length ≤ ds.length)
    (h : ¬ cs <+: ds) : ¬ cs <+: ds ++ rest :=
  fun hPrefix => h (List.prefix_of_prefix_length_le hPrefix (List.prefix_append ds rest) hLength)

/-- The inside of a block string is read up to the marks that close it, whatever follows. -/
theorem spanBlockString_lexeme {inside : List Char} (h : IsBlockInside inside)
    (rest : List Char) : spanBlockString (inside ++ rest) = (true, inside, rest) := by
  induction h with
  | close => rfl
  | escape _ ih => simp [spanBlockString, ih]
  | @char c cs hClose hEscape hInside ih =>
      have hLength := hInside.three_le
      rw [List.cons_append, spanBlockString_char, ih]
      · exact not_prefix_append (by simp only [List.length_cons, List.length_nil]; omega) hClose
      · exact not_prefix_append (by simp only [List.length_cons, List.length_nil]; omega) hEscape

/-- What is read of a block string that is closed is the inside of one. -/
theorem isBlockInside_of_spanBlockString {cs inside rest : List Char}
    (h : spanBlockString cs = (true, inside, rest)) : IsBlockInside inside := by
  fun_induction spanBlockString cs generalizing inside with
  | case1 => cases h
  | case2 cs closed tail after hSpan ih =>
      cases h
      exact .escape (ih hSpan)
  | case3 cs =>
      cases h
      exact .close
  | case4 c cs hEscape hClose closed tail after hSpan ih =>
      cases h
      have hAppend := spanBlockString_append cs
      rw [hSpan] at hAppend
      refine .char ?_ ?_ (ih hSpan)
      · rintro ⟨more, hMore⟩
        exact hClose (more ++ rest) (List.cons.inj hMore).1.symm (by
          rw [← hAppend]
          simp [← (List.cons.inj hMore).2])
      · rintro ⟨more, hMore⟩
        exact hEscape (more ++ rest) (List.cons.inj hMore).1.symm (by
          rw [← hAppend]
          simp [← (List.cons.inj hMore).2])

/-- Nothing that follows a punctuator can run into it. -/
theorem delimits_punctuator {kind : TokenKind} {text : String} (h : kind.punctuator? = some text)
    (lexeme rest : List Char) : Delimits kind lexeme rest := by
  intro c _
  cases kind <;> trivial

theorem punctuator?_of_punctuatorOf? {c : Char} {kind : TokenKind}
    (h : punctuatorOf? c = some kind) : kind.punctuator? = some (String.ofList [c]) := by
  unfold punctuatorOf? at h
  split at h <;> cases h <;> rfl

theorem punctuatorOf?_of_isNameContinue {c : Char} (h : isNameContinue c = true) :
    punctuatorOf? c = none := by
  unfold punctuatorOf?
  split <;> first | rfl | exact absurd h (by decide)

/-- A name is the longest run of characters that may continue it. -/
theorem scan_name {c : Char} {cs rest : List Char} (start : Position)
    (hStart : isNameStart c = true) (hContinue : ∀ d ∈ cs, isNameContinue d = true)
    (hRest : ∀ d ∈ rest.head?, isNameContinue d = false) :
    scan start c (cs ++ rest) = ⟨.name, c :: cs, rest⟩ := by
  have hPunctuator : punctuatorOf? c = none :=
    punctuatorOf?_of_isNameContinue (by
      simp only [isNameStart, Bool.or_eq_true] at hStart
      rcases hStart with h | h <;> simp [isNameContinue, Char.isAlphanum, h])
  have hDot : (c == '.') = false := by
    rw [beq_eq_false_iff_ne]
    rintro rfl
    exact absurd hStart (by decide)
  have hQuote : (c == '"') = false := by
    rw [beq_eq_false_iff_ne]
    rintro rfl
    exact absurd hStart (by decide)
  simp [scan, hPunctuator, hDot, hQuote, hStart, takeWhile_append_stop hContinue hRest,
    dropWhile_append_stop hContinue hRest]

theorem isAlpha_of_isDigit {c : Char} (h : c.isDigit = true) : c.isAlpha = false := by
  show (decide ('A'.val ≤ c.val ∧ c.val ≤ 'Z'.val) ||
    decide ('a'.val ≤ c.val) && decide (c.val ≤ 'z'.val)) = false
  simp only [Char.isDigit, Bool.and_eq_true, decide_eq_true_eq, Bool.or_eq_false_iff,
    Bool.and_eq_false_iff, decide_eq_false_iff_not, ge_iff_le, UInt32.le_iff_toNat_le] at h ⊢
  have h9 : '9'.val.toNat = 57 := rfl
  have hA : 'A'.val.toNat = 65 := rfl
  have ha : 'a'.val.toNat = 97 := rfl
  omega

/-- A digit starts a number without a sign. -/
theorem scan_digit {c : Char} (start : Position) (cs : List Char) (hDigit : c.isDigit = true) :
    scan start c cs = scanNumber [] (c :: cs) := by
  have hPunctuator : punctuatorOf? c = none :=
    punctuatorOf?_of_isNameContinue (by simp [isNameContinue, Char.isAlphanum, hDigit])
  have hNot : ∀ d : Char, d.isDigit = false → (c == d) = false := by
    intro d hd
    rw [beq_eq_false_iff_ne]
    rintro rfl
    simp [hDigit] at hd
  have hStart : isNameStart c = false := by
    simp [isNameStart, hNot '_' (by decide), isAlpha_of_isDigit hDigit]
  simp [scan, hPunctuator, hNot '.' (by decide), hNot '"' (by decide), hStart,
    hNot '-' (by decide), hDigit]

/-- A lexeme is found again before every text that does not lengthen it. -/
theorem scan_lexeme {kind : TokenKind} {lexeme : List Char} (h : Lexeme kind lexeme)
    {rest : List Char} (hRest : Delimits kind lexeme rest) (start : Position) :
    ∃ c cs, lexeme = c :: cs ∧ scan start c (cs ++ rest) = ⟨kind, lexeme, rest⟩ := by
  cases h with
  | @punctuator _ text hText =>
      cases kind <;> cases hText <;> exact ⟨_, _, rfl, rfl⟩
  | @name c cs hStart hContinue =>
      exact ⟨c, cs, rfl, scan_name start hStart hContinue hRest⟩
  | number hNumber =>
      obtain ⟨sign, whole, fraction, exponent, hSign, hWhole, hFraction, hExponent, rfl⟩ := hNumber
      have hSpan := spanNumber_lexeme hWhole hFraction hExponent hRest
      obtain ⟨d, ds, rfl⟩ := List.exists_cons_of_ne_nil hWhole.1.1
      have hDigit : d.isDigit = true := hWhole.1.2 d (by simp)
      rcases hSign with rfl | rfl
      · refine ⟨d, ds ++ fraction ++ exponent, rfl, ?_⟩
        rw [scan_digit start _ hDigit, scanNumber]
        simp only [List.cons_append] at hSpan ⊢
        rw [hSpan]
      · refine ⟨'-', d :: ds ++ fraction ++ exponent, rfl, ?_⟩
        have hStart : startsWithDigit (d :: ds ++ fraction ++ exponent ++ rest) = true := hDigit
        have hScan : scan start '-' (d :: ds ++ fraction ++ exponent ++ rest) =
            scanNumber ['-'] (d :: ds ++ fraction ++ exponent ++ rest) := by
          simp only [scan]
          rw [if_pos hStart]
          rfl
        rw [hScan, scanNumber, hSpan]
  | @string inside hInside =>
      refine ⟨'"', inside, rfl, ?_⟩
      have hSpan := spanString_lexeme hInside rest
      change scanString start (inside ++ rest) = _
      unfold scanString
      split
      · next tail hEq =>
          exfalso
          cases hInside with
          | close =>
              simp only [List.cons_append, List.nil_append, List.cons.injEq, true_and] at hEq
              exact hRest '"' (by rw [hEq]; rfl) rfl rfl
          | escape => cases hEq
          | char hQuote => exact hQuote (List.cons.inj hEq).1
      · rw [hSpan]
  | @blockString inside hInside =>
      refine ⟨'"', '"' :: '"' :: inside, rfl, ?_⟩
      have hSpan := spanBlockString_lexeme hInside rest
      change scanString start ('"' :: '"' :: (inside ++ rest)) = _
      rw [scanString, hSpan]
      rfl

/-- Three dots, and no fewer, are an ellipsis. -/
theorem lexeme_scanDots {cs : List Char} (h : (scanDots cs).kind.isError = false) :
    Lexeme (scanDots cs).kind (scanDots cs).lexeme ∧
      Delimits (scanDots cs).kind (scanDots cs).lexeme (scanDots cs).rest := by
  have hText : TokenKind.ellipsis.punctuator? = some "..." := rfl
  revert h
  fun_cases scanDots cs with
  | case1 rest => exact fun _ => ⟨.punctuator hText, delimits_punctuator hText _ _⟩
  | case2 | case3 | case4 =>
      intro h
      cases h

/-- A number that is no error is the lexeme of one, and ends where one must. -/
theorem lexeme_scanNumber {sign cs : List Char} (hSign : sign = [] ∨ sign = ['-'])
    (hStart : startsWithDigit cs = true) (h : (scanNumber sign cs).kind.isError = false) :
    Lexeme (scanNumber sign cs).kind (scanNumber sign cs).lexeme ∧
      Delimits (scanNumber sign cs).kind (scanNumber sign cs).lexeme
        (scanNumber sign cs).rest := by
  unfold scanNumber at h ⊢
  split
  · next digits rest hSpan =>
      obtain ⟨⟨whole, fraction, exponent, hWhole, hFraction, hExponent, rfl⟩, hRest⟩ :=
        isNumber_of_spanNumber hStart hSpan
      exact ⟨.number ⟨sign, whole, fraction, exponent, hSign, hWhole, hFraction, hExponent, rfl⟩,
        hRest⟩
  · next fault hSpan =>
      rw [hSpan] at h
      cases h

/-- A string that is no error is the lexeme of a quoted or a block string. -/
theorem lexeme_scanString {start : Position} {cs : List Char}
    (h : (scanString start cs).kind.isError = false) :
    Lexeme (scanString start cs).kind (scanString start cs).lexeme ∧
      Delimits (scanString start cs).kind (scanString start cs).lexeme
        (scanString start cs).rest := by
  revert h
  fun_cases scanString start cs with
  | case1 cs closed inside rest hSpan =>
      intro h
      cases closed with
      | false => cases h
      | true =>
          have hInside := isBlockInside_of_spanBlockString hSpan
          refine ⟨.blockString hInside, fun c _ hEmpty => ?_⟩
          cases hEmpty
  | case2 cs hNotBlock ending inside rest hSpan kind =>
      intro h
      cases ending with
      | lineEnd => cases h
      | textEnd => cases h
      | closed =>
          refine ⟨.string (isStringInside_of_spanString hSpan), fun c hc hEmpty => ?_⟩
          rintro rfl
          have hInside : inside = ['"'] := (List.cons.inj hEmpty).2
          obtain ⟨tail, rfl⟩ := List.head?_eq_some_iff.mp hc
          have hAppend := spanString_append cs
          rw [hSpan, hInside] at hAppend
          exact hNotBlock tail hAppend.symm

/-- A scan without a fault splits off a lexeme that the rest does not lengthen. -/
theorem lexeme_scan {start : Position} {c : Char} {cs : List Char}
    (h : (scan start c cs).kind.isError = false) :
    Lexeme (scan start c cs).kind (scan start c cs).lexeme ∧
      Delimits (scan start c cs).kind (scan start c cs).lexeme (scan start c cs).rest := by
  revert h
  fun_cases scan start c cs with
  | case1 kind hPunctuator =>
      intro _
      have hText := punctuator?_of_punctuatorOf? hPunctuator
      refine ⟨?_, delimits_punctuator hText _ _⟩
      simpa using Lexeme.punctuator hText
  | case2 => exact lexeme_scanDots
  | case3 => exact lexeme_scanString
  | case4 hPunctuator hDot hQuote hStart =>
      intro _
      exact ⟨.name hStart fun d => List.mem_takeWhile_imp, stop_dropWhile _ _⟩
  | case5 hPunctuator hDot hQuote hStart hMinus hDigit =>
      exact lexeme_scanNumber (.inr rfl) hDigit
  | case6 =>
      intro h
      cases h
  | case7 hPunctuator hDot hQuote hStart hMinus hDigit =>
      exact lexeme_scanNumber (.inl rfl) hDigit
  | case8 =>
      intro h
      cases h

end GraphQL.Lexer
