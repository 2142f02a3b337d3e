import Mathlib.Data.Nat.Digits.Defs
import Mathlib.Data.List.Induction
import GraphQL.Proofs.Token.Run
import GraphQL.Value.Resolution

/-! Numbers without a point or an exponent. Such a lexeme denotes one integer, however long it is,
and it is resolved to that integer or, if that has more than 64 bits, not at all. -/
namespace GraphQL

open Lexer

namespace Number

/-- The digit that a character is. -/
def digitOf (c : Char) : Nat := c.toNat - '0'.toNat

/-- The number that digits denote, the last of them the ones. -/
def placeValue (digits : List Char) : Nat := Nat.ofDigits 10 (digits.reverse.map digitOf)

/-- The integer that digits denote, alone or after a minus sign. -/
inductive Denotes : List Char → Int → Prop where
  | positive {digits : List Char} (h : IsDigits digits) : Denotes digits (placeValue digits)
  | negative {digits : List Char} (h : IsDigits digits) :
      Denotes ('-' :: digits) (-placeValue digits)

/-- Characters with neither a point nor the mark of an exponent among them. -/
def IsPlain (cs : List Char) : Prop := ∀ c ∈ cs, c ≠ '.' ∧ c ≠ 'e' ∧ c ≠ 'E'

/-- Whether 64 bits hold an integer, with its sign: whether it is from `-2 ^ 63` to `2 ^ 63 - 1`. -/
def Fits (n : Int) : Prop := -0x8000000000000000 ≤ n ∧ n ≤ 0x7FFFFFFFFFFFFFFF

instance : DecidablePred Fits := fun _ => inferInstanceAs (Decidable (_ ∧ _))

instance : DecidablePred IsDigits := fun cs =>
  decidable_of_iff (cs.isEmpty = false ∧ cs.all Char.isDigit = true)
    (and_congr List.isEmpty_eq_false_iff List.all_eq_true)

/-- A digit put behind multiplies what is before it by ten. -/
theorem placeValue_concat (digits : List Char) (c : Char) :
    placeValue (digits ++ [c]) = digitOf c + 10 * placeValue digits := by
  simp only [placeValue, List.reverse_append, List.reverse_singleton, List.singleton_append,
    List.map_cons, Nat.ofDigits_cons]

/-- Digits are read as their place value, whether or not zeros lead. -/
theorem decimalValue_eq (digits : List Char) : decimalValue digits = placeValue digits := by
  induction digits using List.reverseRecOn with
  | nil => rfl
  | append_singleton digits c ih =>
      rw [placeValue_concat, ← ih, decimalValue, List.foldl_append, List.foldl_cons, List.foldl_nil,
        Nat.add_comm]
      rfl

theorem splitSign_digits {digits : List Char} (h : IsDigits digits) :
    splitSign digits = (false, digits) := by
  unfold splitSign
  split
  · exact absurd (h.2 '-' List.mem_cons_self) (by decide)
  · exact absurd (h.2 '+' List.mem_cons_self) (by decide)
  · rfl

/-- Digits behind a sign are read as their place value with that sign. -/
theorem integer?_of_splitSign {cs digits : List Char} {negative : Bool}
    (hSplit : splitSign cs = (negative, digits)) (h : IsDigits digits) :
    integer? cs = some (signed negative (placeValue digits)) := by
  have hSome : digits.isEmpty = false := Bool.eq_false_iff.2 (mt List.isEmpty_iff.1 h.1)
  have hAll : digits.all Char.isDigit = true := List.all_eq_true.2 h.2
  simp only [integer?, hSplit, hSome, hAll, decimalValue_eq]
  rfl

/-- What denotes an integer is read as it. -/
theorem Denotes.integer? {cs : List Char} {n : Int} (h : Denotes cs n) :
    integer? cs = some n := by
  cases h with
  | positive hDigits => exact integer?_of_splitSign (splitSign_digits hDigits) hDigits
  | negative hDigits => exact integer?_of_splitSign rfl hDigits

/-- What a text denotes it denotes alone. -/
theorem Denotes.iff_eq {cs : List Char} {m n : Int} (h : Denotes cs n) :
    Denotes cs m ↔ m = n := by
  constructor
  · intro hOther
    exact Option.some.inj (hOther.integer?.symm.trans h.integer?)
  · rintro rfl
    exact h

/-- The grammar leaves nothing but a sign and digits in a number without a point or an exponent. -/
theorem exists_denotes {cs : List Char} (h : IsNumber cs) (hPlain : IsPlain cs) :
    ∃ n, Denotes cs n := by
  obtain ⟨sign, whole, fraction, exponent, hSign, hWhole, hFraction, hExponent, rfl⟩ := h
  obtain rfl : fraction = [] := by
    rcases hFraction with rfl | ⟨digits, -, rfl⟩
    · rfl
    · exact absurd rfl (hPlain '.' (by simp)).1
  obtain rfl : exponent = [] := by
    rcases hExponent with rfl | ⟨mark, power, digits, hMark, -, -, rfl⟩
    · rfl
    · have hNone := (hPlain mark (by simp)).2
      exact absurd hMark (not_or.2 hNone)
  rw [List.append_nil, List.append_nil]
  rcases hSign with rfl | rfl
  · exact ⟨_, .positive hWhole.1⟩
  · exact ⟨_, .negative hWhole.1⟩

/-- A number is no float exactly if it has no fraction and no exponent. -/
theorem isFloat_eq_false_iff {text : String} : isFloat text = false ↔ IsPlain text.toList := by
  simp [isFloat, IsPlain, and_assoc]

theorem int64?_of_fits {text : String} {n : Int} (h : Denotes text.toList n) (hFits : Fits n) :
    int64? text = some (Int64.ofInt n) := by
  rw [int64?, h.integer?]
  exact if_pos hFits

theorem int64?_of_not_fits {text : String} {n : Int} (h : Denotes text.toList n)
    (hFits : ¬ Fits n) : int64? text = none := by
  rw [int64?, h.integer?]
  exact if_neg hFits

/-- An integer within the limits is kept by 64 bits. -/
theorem Fits.toInt_ofInt {n : Int} (h : Fits n) : (Int64.ofInt n).toInt = n :=
  Int64.toInt_ofInt_of_le h.1 (Int.lt_of_le_sub_one h.2)

end Number

open Number

/-- A plain number within the limits is resolved as its integer. -/
theorem resolveNumber_int {text : String} {n : Int} (h : Denotes text.toList n)
    (hPlain : IsPlain text.toList) (hFits : Fits n) :
    resolveNumber text = .ok (.int (Int64.ofInt n)) := by
  rw [resolveNumber, isFloat_eq_false_iff.2 hPlain, int64?_of_fits h hFits]
  rfl

/-- A plain number beyond the limits is refused, and never read as a float. -/
theorem resolveNumber_outOfRange {text : String} {n : Int} (h : Denotes text.toList n)
    (hPlain : IsPlain text.toList) (hFits : ¬ Fits n) :
    resolveNumber text = .error (.intOutOfRange text) := by
  rw [resolveNumber, isFloat_eq_false_iff.2 hPlain, int64?_of_not_fits h hFits]
  rfl

/-- Any other number is resolved as a float or refused as a bad one. -/
theorem resolveNumber_float {text : String} (h : ¬ IsPlain text.toList) :
    (∃ value, resolveNumber text = .ok (.float value)) ∨
      resolveNumber text = .error (.badFloat text) := by
  have hFloat : isFloat text = true := Bool.eq_true_of_not_eq_false (mt isFloat_eq_false_iff.1 h)
  rw [resolveNumber, hFloat, if_pos rfl]
  cases float? text with
  | none => exact .inr rfl
  | some value => exact .inl ⟨value, rfl⟩

/-- A number token has the form of a number. -/
theorem isNumber_of_mem_lex {text : String} {token : Token} (h : token ∈ Token.lex text)
    (hKind : token.kind = .number) : IsNumber token.text.toList := by
  have hLexeme := lexeme_of_mem_lex h ⟨by rw [hKind]; rfl, by rw [hKind]; nofun⟩
  rw [hKind] at hLexeme
  generalize token.text.toList = cs at hLexeme
  cases hLexeme with
  | punctuator hText => cases hText
  | number hNumber => exact hNumber

/-- A number read from a text is resolved to the one integer that it denotes if it has neither a
point nor an exponent and the integer has 64 bits. An integer that does not fit is out of range. A
number with a point or an exponent is a float or none. -/
theorem Token.number_resolves {text : String} {token : Token} (hToken : token ∈ Token.lex text)
    (hKind : token.kind = .number) (document : Document) (supplied : ResolvedMap) :
    (IsPlain token.text.toList →
      ∃ n : Int, (∀ m, Denotes token.text.toList m ↔ m = n) ∧
        (Fits n → ∃ value : Int64, value.toInt = n ∧
          document.resolve supplied (.scalar .number token.text) = .ok (.int value)) ∧
        (¬ Fits n → document.resolve supplied (.scalar .number token.text) =
          .error (.intOutOfRange token.text))) ∧
    (¬ IsPlain token.text.toList →
      (∃ value, document.resolve supplied (.scalar .number token.text) = .ok (.float value)) ∨
        document.resolve supplied (.scalar .number token.text) =
          .error (.badFloat token.text)) := by
  have hResolve : document.resolve supplied (.scalar .number token.text) =
      resolveNumber token.text := rfl
  rw [hResolve]
  refine ⟨fun hPlain => ?_, resolveNumber_float⟩
  obtain ⟨n, hDenotes⟩ := exists_denotes (isNumber_of_mem_lex hToken hKind) hPlain
  refine ⟨n, fun m => hDenotes.iff_eq, fun hFits => ?_, resolveNumber_outOfRange hDenotes hPlain⟩
  exact ⟨Int64.ofInt n, hFits.toInt_ofInt, resolveNumber_int hDenotes hPlain hFits⟩

/-- The least integer of 64 bits is resolved to itself, and the integer below it is not resolved.
Zero with a sign is zero. -/
theorem Token.number_resolves_least :
    (∃ token ∈ Token.lex "-9223372036854775808", token.kind = .number ∧
      ∃ value : Int64, value.toInt = -9223372036854775808 ∧
        (Document.empty {}).resolve [] (.scalar .number token.text) = .ok (.int value)) ∧
    (∃ token ∈ Token.lex "-9223372036854775809", token.kind = .number ∧
      (Document.empty {}).resolve [] (.scalar .number token.text) =
        .error (.intOutOfRange "-9223372036854775809")) ∧
    ∃ token ∈ Token.lex "-0", token.kind = .number ∧ ∃ value : Int64, value.toInt = 0 ∧
      (Document.empty {}).resolve [] (.scalar .number token.text) = .ok (.int value) := by
  have hRead (text : String) (n : Int) (hWritten : isFloat text = false)
      (hDenotes : Denotes text.toList n)
      (hToken : ∃ token ∈ Token.lex text, token.kind = .number ∧ token.text = text) :
      ∃ token ∈ Token.lex text, token.kind = .number ∧ token.text = text ∧
        (Fits n → ∃ value : Int64, value.toInt = n ∧
          (Document.empty {}).resolve [] (.scalar .number token.text) = .ok (.int value)) ∧
        (¬ Fits n → (Document.empty {}).resolve [] (.scalar .number token.text) =
          .error (.intOutOfRange token.text)) := by
    obtain ⟨token, hToken, hKind, hText⟩ := hToken
    rw [← hText] at hWritten hDenotes
    obtain ⟨m, hUnique, hResolves⟩ :=
      (Token.number_resolves hToken hKind (Document.empty {}) []).1
        (isFloat_eq_false_iff.1 hWritten)
    obtain rfl : n = m := (hUnique n).1 hDenotes
    exact ⟨token, hToken, hKind, hText, hResolves⟩
  refine ⟨?_, ?_, ?_⟩
  · have hDigits : IsDigits "9223372036854775808".toList := by decide
    obtain ⟨token, hToken, hKind, -, hLeast, -⟩ :=
      hRead "-9223372036854775808" (-9223372036854775808)
        (by decide) (.negative hDigits) (by decide +kernel)
    exact ⟨token, hToken, hKind, hLeast (by decide)⟩
  · have hDigits : IsDigits "9223372036854775809".toList := by decide
    obtain ⟨token, hToken, hKind, hText, -, hBelow⟩ :=
      hRead "-9223372036854775809" (-9223372036854775809)
        (by decide) (.negative hDigits) (by decide +kernel)
    exact ⟨token, hToken, hKind, hText ▸ hBelow (by decide)⟩
  · have hDigits : IsDigits ['0'] := by decide
    obtain ⟨token, hToken, hKind, -, hZero, -⟩ :=
      hRead "-0" 0 (by decide) (.negative hDigits) (by decide +kernel)
    exact ⟨token, hToken, hKind, hZero (by decide)⟩

end GraphQL
