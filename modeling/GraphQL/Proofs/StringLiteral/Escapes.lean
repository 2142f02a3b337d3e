import Mathlib.Data.List.Induction
import Mathlib.Data.Nat.Digits.Defs
import GraphQL.Proofs.Outcome
import GraphQL.Proofs.StringLiteral
import GraphQL.Proofs.Token.Partition
import GraphQL.Proofs.Token.Run

/-! Literals on one line as lists of items. The lexer takes any character after a backslash along,
and only the value of the literal tells which escapes are meant. Both agree on where each item ends,
so a literal has a value exactly if it is spelled by a list of items. -/
namespace GraphQL.StringLiteral

open Text Lexer

/-- A hexadecimal digit, and whether a letter is written in upper case. -/
structure HexDigit where
  value : Fin 16
  upper : Bool
deriving DecidableEq, Repr

namespace HexDigit

def char (d : HexDigit) : Char :=
  if d.upper then (Nat.digitChar d.value).toUpper else Nat.digitChar d.value

theorem isHexDigit_char (d : HexDigit) : isHexDigit d.char = true := by
  obtain ⟨value, upper⟩ := d
  revert value upper
  decide

theorem hexDigitValue_char (d : HexDigit) : hexDigitValue d.char = d.value := by
  obtain ⟨value, upper⟩ := d
  revert value upper
  decide

/-- Every character that is read as a digit spells one. -/
theorem exists_char {c : Char} (h : isHexDigit c = true) : ∃ d : HexDigit, d.char = c := by
  have hBound : c.toNat < 103 := by
    simp only [isHexDigit, Char.isDigit, Bool.or_eq_true, Bool.and_eq_true, decide_eq_true_eq,
      Char.le_def, UInt32.le_iff_toNat_le] at h
    have h9 : '9'.val.toNat = 57 := rfl
    have hf : 'f'.val.toNat = 102 := rfl
    have hF : 'F'.val.toNat = 70 := rfl
    have hc : c.toNat = c.val.toNat := rfl
    omega
  have hAll : ∀ n < 103, isHexDigit (Char.ofNat n) = true →
      ∃ (value : Fin 16) (upper : Bool), char ⟨value, upper⟩ = Char.ofNat n := by
    decide +kernel
  obtain ⟨value, upper, hChar⟩ := hAll c.toNat hBound (by rwa [Char.ofNat_toNat])
  exact ⟨⟨value, upper⟩, by rw [hChar, Char.ofNat_toNat]⟩

/-- The number that some digits denote, the first of which weighs most. -/
def number (digits : List HexDigit) : Nat :=
  Nat.ofDigits 16 (digits.reverse.map fun d => d.value.val)

def spelling (digits : List HexDigit) : List Char := digits.map char

/-- Digits are read as the number that they denote. -/
theorem hexValue_spelling (digits : List HexDigit) :
    hexValue (spelling digits) = number digits := by
  induction digits using List.reverseRecOn with
  | nil => rfl
  | append_singleton digits d ih =>
      have hStep : hexValue (spelling (digits ++ [d])) =
          16 * hexValue (spelling digits) + hexDigitValue d.char := by
        simp [hexValue, spelling, List.foldl_append]
      rw [hStep, ih, hexDigitValue_char]
      simp [number, Nat.ofDigits_cons, Nat.add_comm]

theorem all_spelling (digits : List HexDigit) : ∀ c ∈ spelling digits, isHexDigit c = true := by
  simp [spelling, isHexDigit_char]

theorem exists_spelling {cs : List Char} (h : ∀ c ∈ cs, isHexDigit c = true) :
    ∃ digits, cs = spelling digits := by
  induction cs with
  | nil => exact ⟨[], rfl⟩
  | cons c cs ih =>
      obtain ⟨hFirst, hRest⟩ := List.forall_mem_cons.1 h
      obtain ⟨d, rfl⟩ := exists_char hFirst
      obtain ⟨digits, rfl⟩ := ih hRest
      exact ⟨d :: digits, rfl⟩

end HexDigit

/-- The four digits that give one code unit of UTF-16. -/
structure CodeUnit where
  digits : List HexDigit
  length_eq : digits.length = 4

namespace CodeUnit

def number (u : CodeUnit) : Nat := HexDigit.number u.digits

def spelling (u : CodeUnit) : List Char := HexDigit.spelling u.digits

theorem length_spelling (u : CodeUnit) : u.spelling.length = 4 := by
  rw [spelling, HexDigit.spelling, List.length_map, u.length_eq]

end CodeUnit

/-- The letters that may follow a backslash, each with the character that the escape denotes. -/
def letters : List (Char × Char) :=
  [('n', '\n'), ('r', '\r'), ('t', '\t'), ('\\', '\\'), ('"', '"'), ('/', '/'), ('b', '\x08'),
   ('f', '\x0c')]

/-- A part of a literal on one line that denotes one character. -/
inductive Item where
  /-- A character that stands for itself. -/
  | plain (c : Char) (h : c ∉ ['"', '\\', '\r', '\n'])
  /-- A backslash and a letter. -/
  | letter (entry : Char × Char) (h : entry ∈ letters)
  /-- The escape of one code unit, which is no surrogate. -/
  | unit (u : CodeUnit) (h : ¬ (0xD800 ≤ u.number ∧ u.number ≤ 0xDFFF))
  /-- The escapes of a leading and a trailing surrogate. -/
  | pair (leading trailing : CodeUnit)
      (hLeading : 0xD800 ≤ leading.number ∧ leading.number ≤ 0xDBFF)
      (hTrailing : 0xDC00 ≤ trailing.number ∧ trailing.number ≤ 0xDFFF)
  /-- The escape of a code point by any number of digits in braces. -/
  | braced (digits : List HexDigit) (hDigits : digits ≠ [])
      (h : (HexDigit.number digits).isValidChar)

namespace Item

/-- The escape of a code unit as it is written. -/
def unitEscape (u : CodeUnit) : List Char := '\\' :: 'u' :: u.spelling

def spelling : Item → List Char
  | plain c _ => [c]
  | letter entry _ => ['\\', entry.1]
  | unit u _ => unitEscape u
  | pair leading trailing _ _ => unitEscape leading ++ unitEscape trailing
  | braced digits _ _ => '\\' :: 'u' :: '\x7b' :: (HexDigit.spelling digits ++ ['\x7d'])

def denotes : Item → Char
  | plain c _ => c
  | letter entry _ => entry.2
  | unit u _ => Char.ofNat u.number
  | pair leading trailing _ _ =>
    Char.ofNat (0x10000 + (leading.number - 0xD800) * 0x400 + (trailing.number - 0xDC00))
  | braced digits _ _ => Char.ofNat (HexDigit.number digits)

end Item

def spellings (items : List Item) : List Char := items.flatMap Item.spelling

/-- The literal that some items spell. -/
def quoted (items : List Item) : String := String.ofList ('"' :: (spellings items ++ ['"']))

/-- Four digits give a character unless they give a surrogate. -/
theorem CodeUnit.isValidChar_iff (u : CodeUnit) :
    u.number.isValidChar ↔ ¬ (0xD800 ≤ u.number ∧ u.number ≤ 0xDFFF) := by
  have hBound : u.number < 16 ^ (u.digits.reverse.map fun d => d.value.val).length :=
    Nat.ofDigits_lt_base_pow_length (by decide) (by simp)
  rw [List.length_map, List.length_reverse, u.length_eq] at hBound
  unfold Nat.isValidChar
  omega

/-- The four digits of a code unit are read back as its number. -/
theorem readHex4_spelling (u : CodeUnit) (rest : List Char) :
    readHex4 (u.spelling ++ rest) = .ok (u.number, rest) := by
  have hLength := u.length_spelling
  have hGood : u.spelling.takeWhile isHexDigit = u.spelling :=
    List.takeWhile_eq_self_iff.2 (HexDigit.all_spelling u.digits)
  simp only [readHex4, List.take_left' hLength, List.drop_left' hLength, hGood, hLength, if_true]
  rw [CodeUnit.spelling, HexDigit.hexValue_spelling, CodeUnit.number]

/-- What is read as four digits spells a code unit. -/
theorem exists_codeUnit {cs rest : List Char} {n : Nat} (h : readHex4 cs = .ok (n, rest)) :
    ∃ u : CodeUnit, cs = u.spelling ++ rest ∧ n = u.number := by
  simp only [readHex4] at h
  split at h
  · next hGood =>
      cases h
      -- all of the four characters are digits, since the run of digits is as long
      have hLength : (cs.take 4).length = 4 := by
        have hRun := (List.takeWhile_prefix isHexDigit (l := cs.take 4)).length_le
        have hFour := List.length_take_le 4 cs
        omega
      have hDigits : (cs.take 4).takeWhile isHexDigit = cs.take 4 :=
        (List.takeWhile_prefix _).eq_of_length (hGood.trans hLength.symm)
      obtain ⟨digits, hSpelling⟩ :=
        HexDigit.exists_spelling (List.takeWhile_eq_self_iff.1 hDigits)
      have hFour : digits.length = 4 := by
        rw [← hLength, hSpelling, HexDigit.spelling, List.length_map]
      refine ⟨⟨digits, hFour⟩, ?_, ?_⟩
      · rw [CodeUnit.spelling, ← hSpelling, List.take_append_drop]
      · rw [hSpelling, HexDigit.hexValue_spelling, CodeUnit.number]
  · cases h

/-- A number is read as a character exactly if it is the code point of one. -/
theorem charOf?_eq_some {n : Nat} {c : Char} :
    charOf? n = some c ↔ n.isValidChar ∧ Char.ofNat n = c := by
  unfold charOf?
  split <;> simp_all

/-- Digits in braces are read as the character whose code point they denote. -/
theorem readBraced_spelling {digits : List HexDigit} (hDigits : digits ≠ [])
    (h : (HexDigit.number digits).isValidChar) (rest : List Char) :
    readBraced (HexDigit.spelling digits ++ ('\x7d' :: rest)) =
      .ok (Char.ofNat (HexDigit.number digits), rest) := by
  have hStop : ∀ c ∈ ('\x7d' :: rest).head?, isHexDigit c = false := by
    rintro c ⟨⟩
    rfl
  have hTake := takeWhile_append_stop (HexDigit.all_spelling digits) hStop
  have hDrop := dropWhile_append_stop (HexDigit.all_spelling digits) hStop
  have hNonempty : (HexDigit.spelling digits).isEmpty = false := by
    simpa [HexDigit.spelling] using hDigits
  simp only [readBraced, hTake, hDrop, hNonempty, HexDigit.hexValue_spelling,
    charOf?_eq_some.2 ⟨h, rfl⟩]
  rfl

/-- What is read in braces are digits, one at least, that denote a code point. -/
theorem exists_braced {cs rest : List Char} {v : Char} (h : readBraced cs = .ok (v, rest)) :
    ∃ digits, digits ≠ [] ∧ (HexDigit.number digits).isValidChar ∧
      cs = HexDigit.spelling digits ++ ('\x7d' :: rest) ∧
      v = Char.ofNat (HexDigit.number digits) := by
  obtain ⟨digits, hSpelling⟩ : ∃ digits, cs.takeWhile isHexDigit = HexDigit.spelling digits :=
    HexDigit.exists_spelling fun c => List.mem_takeWhile_imp
  have hSplit := List.takeWhile_append_dropWhile (p := isHexDigit) (l := cs)
  simp only [readBraced] at h
  split at h
  · cases h
  · next c after hDrop =>
      split at h
      · next hClose =>
          obtain ⟨rfl, hNonempty⟩ : c = '\x7d' ∧ (cs.takeWhile isHexDigit).isEmpty = false := by
            simpa using hClose
          split at h
          · next value hValue =>
              cases h
              rw [hSpelling, HexDigit.hexValue_spelling, charOf?_eq_some] at hValue
              refine ⟨digits, ?_, hValue.1, ?_, hValue.2.symm⟩
              · rintro rfl
                simp [hSpelling, HexDigit.spelling] at hNonempty
              · rw [← hSplit, hDrop, hSpelling]
          · cases h
      · cases h

theorem isLeadingSurrogate_iff {n : Nat} :
    isLeadingSurrogate n = true ↔ 0xD800 ≤ n ∧ n ≤ 0xDBFF := by
  simp [isLeadingSurrogate]

theorem isTrailingSurrogate_iff {n : Nat} :
    isTrailingSurrogate n = true ↔ 0xDC00 ≤ n ∧ n ≤ 0xDFFF := by
  simp [isTrailingSurrogate]

/-- A code unit that is no surrogate is read as a character. -/
theorem readUnits_unit {u : CodeUnit} (h : ¬ (0xD800 ≤ u.number ∧ u.number ≤ 0xDFFF))
    (rest : List Char) : readUnits (u.spelling ++ rest) = .ok (Char.ofNat u.number, rest) := by
  have hLeading : ¬ isLeadingSurrogate u.number = true := by
    rw [isLeadingSurrogate_iff]
    omega
  have hChar := charOf?_eq_some.2 ⟨u.isValidChar_iff.2 h, rfl⟩
  simp only [readUnits, readHex4_spelling, bind, Except.bind, if_neg hLeading, hChar]
  rfl

/-- A leading and a trailing surrogate are read together as one character. -/
theorem readUnits_pair {leading trailing : CodeUnit}
    (hLeading : 0xD800 ≤ leading.number ∧ leading.number ≤ 0xDBFF)
    (hTrailing : 0xDC00 ≤ trailing.number ∧ trailing.number ≤ 0xDFFF) (rest : List Char) :
    readUnits (leading.spelling ++ (Item.unitEscape trailing ++ rest)) =
      .ok (Char.ofNat (joinSurrogates leading.number trailing.number), rest) := by
  simp only [readUnits, readHex4_spelling, bind, Except.bind,
    if_pos (isLeadingSurrogate_iff.2 hLeading), Item.unitEscape, List.cons_append,
    if_pos (isTrailingSurrogate_iff.2 hTrailing)]
  rfl

/-- Two surrogates count from the first code point that one unit cannot hold. -/
theorem joinSurrogates_eq (leading trailing : Nat) :
    joinSurrogates leading trailing =
      0x10000 + (leading - 0xD800) * 0x400 + (trailing - 0xDC00) := by
  unfold joinSurrogates
  omega

/-- A code unit that can be read is an item, alone or as the first of a pair. -/
theorem exists_units {cs rest : List Char} {v : Char} (h : readUnits cs = .ok (v, rest)) :
    ∃ item : Item, '\\' :: 'u' :: cs = item.spelling ++ rest ∧ v = item.denotes := by
  obtain ⟨⟨n, after⟩, hFirst, h⟩ := except_bind_eq_ok.1 h
  obtain ⟨u, rfl, rfl⟩ := exists_codeUnit hFirst
  dsimp only at h
  split at h
  · next hLeading =>
      split at h
      · next more =>
          obtain ⟨⟨m, last⟩, hSecond, h⟩ := except_bind_eq_ok.1 h
          obtain ⟨t, rfl, rfl⟩ := exists_codeUnit hSecond
          dsimp only at h
          split at h
          · next hTrailing =>
              obtain ⟨rfl, rfl⟩ := Prod.mk.inj (Except.ok.inj h)
              refine ⟨.pair u t (isLeadingSurrogate_iff.1 hLeading)
                (isTrailingSurrogate_iff.1 hTrailing), ?_,
                congrArg Char.ofNat (joinSurrogates_eq _ _)⟩
              simp [Item.spelling, Item.unitEscape]
          · cases h
      · cases h
  · next hLeading =>
      split at h
      · next c hChar =>
          cases h
          obtain ⟨hValid, hValue⟩ := charOf?_eq_some.1 hChar
          exact ⟨.unit u (u.isValidChar_iff.1 hValid), rfl, hValue.symm⟩
      · cases h

/-- A brace does not begin four digits. -/
theorem readUnicode_spelling (u : CodeUnit) (rest : List Char) :
    readUnicode (u.spelling ++ rest) = readUnits (u.spelling ++ rest) := by
  refine readUnicode.eq_2 _ fun after hBrace => ?_
  have hMember : '\x7b' ∈ u.spelling := by
    obtain ⟨c, cs, hSpelling⟩ := List.exists_cons_of_length_eq_add_one u.length_spelling
    rw [hSpelling, List.cons_append] at hBrace
    rw [hSpelling, (List.cons.inj hBrace).1]
    exact List.mem_cons_self
  exact absurd (HexDigit.all_spelling u.digits _ hMember) (by decide)

/-- The escapes of one letter are those of the table. -/
theorem simpleEscape?_eq_some {c v : Char} : simpleEscape? c = some v ↔ (c, v) ∈ letters := by
  constructor
  · intro h
    unfold simpleEscape? at h
    split at h <;> cases h <;> decide
  · intro h
    simp only [letters, List.mem_cons, Prod.mk.injEq, List.not_mem_nil, or_false] at h
    rcases h with ⟨rfl, rfl⟩ | ⟨rfl, rfl⟩ | ⟨rfl, rfl⟩ | ⟨rfl, rfl⟩ | ⟨rfl, rfl⟩ | ⟨rfl, rfl⟩ |
      ⟨rfl, rfl⟩ | ⟨rfl, rfl⟩ <;> rfl

/-- An item is read whatever follows it, up to its last character. -/
theorem readChar_spelling (item : Item) (rest : List Char) :
    ∃ c cs, item.spelling = c :: cs ∧ readChar c (cs ++ rest) = .ok (item.denotes, rest) := by
  cases item with
  | plain c h =>
      have hBackslash : c ≠ '\\' := by
        rintro rfl
        simp at h
      exact ⟨c, [], rfl, if_pos hBackslash⟩
  | letter entry h =>
      have hEscape := simpleEscape?_eq_some.2 h
      have hUnicode : entry.1 ≠ 'u' := by
        intro hLetter
        rw [hLetter] at hEscape
        cases hEscape
      refine ⟨'\\', [entry.1], rfl, ?_⟩
      -- `hUnicode` is what picks the arm for letters
      simp [readChar, hEscape, Item.denotes]
  | unit u h =>
      refine ⟨'\\', 'u' :: u.spelling, rfl, ?_⟩
      simp only [readChar, List.cons_append]
      exact (readUnicode_spelling u rest).trans (readUnits_unit h rest)
  | pair leading trailing hLeading hTrailing =>
      refine ⟨'\\', 'u' :: (leading.spelling ++ Item.unitEscape trailing), rfl, ?_⟩
      have hRead := readUnits_pair hLeading hTrailing rest
      rw [← readUnicode_spelling, joinSurrogates_eq, ← List.append_assoc] at hRead
      simpa [readChar, Item.denotes] using hRead
  | braced digits hDigits h =>
      refine ⟨'\\', _, rfl, ?_⟩
      have hRead := readBraced_spelling hDigits h rest
      simpa [readChar, readUnicode, Item.denotes] using hRead

/-- Every character that is read is an item, if one that stands for itself is none of those that
may not. -/
theorem exists_item {c v : Char} {cs rest : List Char}
    (hPlain : c ≠ '\\' → c ∉ ['"', '\\', '\r', '\n']) (h : readChar c cs = .ok (v, rest)) :
    ∃ item : Item, c :: cs = item.spelling ++ rest ∧ v = item.denotes := by
  unfold readChar at h
  split at h
  · next hSelf =>
      cases h
      exact ⟨.plain c (hPlain hSelf), rfl, rfl⟩
  · next hBackslash =>
      obtain rfl : c = '\\' := by simpa using hBackslash
      split at h
      · cases h
      · next after =>
          unfold readUnicode at h
          split at h
          · obtain ⟨digits, hDigits, hValid, rfl, rfl⟩ := exists_braced h
            exact ⟨.braced digits hDigits hValid, by simp [Item.spelling], rfl⟩
          · exact exists_units h
      · next e after hLetter =>
          split at h
          · next value hValue =>
              cases h
              exact ⟨.letter (e, v) (simpleEscape?_eq_some.1 hValue), rfl, rfl⟩
          · cases h

/-- The spellings of some items are read as what the items denote, one after another. -/
theorem readWithin_spellings (items : List Item) {bound : Nat}
    (hBound : (spellings items).length ≤ bound) :
    readWithin bound (spellings items) = .ok (items.map Item.denotes) := by
  induction items generalizing bound with
  | nil => cases bound <;> rfl
  | cons item items ih =>
      obtain ⟨c, cs, hSpelling, hRead⟩ := readChar_spelling item (spellings items)
      have hAll : spellings (item :: items) = c :: (cs ++ spellings items) := by
        simp [spellings, hSpelling]
      rw [hAll] at hBound ⊢
      obtain ⟨bound, rfl⟩ : ∃ less, bound = less + 1 := Nat.exists_eq_add_one.2 (by
        simp only [List.length_cons] at hBound
        omega)
      have hShorter : (spellings items).length ≤ bound := by
        simp only [List.length_cons, List.length_append] at hBound
        omega
      simp only [readWithin, hRead, ih hShorter, bind, Except.bind]
      rfl

/-- A plain character may stand before anything inside of a string. -/
theorem isStringInside_plain {c : Char} {cs : List Char} (h : c ∉ ['"', '\\', '\r', '\n']) :
    IsStringInside (c :: cs) ↔ IsStringInside cs := by
  simp only [List.mem_cons, List.not_mem_nil, or_false, not_or] at h
  obtain ⟨hQuote, hBackslash, hReturn, hFeed⟩ := h
  constructor
  · intro hInside
    cases hInside with
    | close => exact absurd rfl hQuote
    | escape hLine rest => exact absurd rfl hBackslash
    | char hQuote hBackslash hLine rest => exact rest
  · refine .char hQuote hBackslash (Bool.eq_false_iff.2 fun hLine => ?_)
    rcases isLineEnd_iff.1 hLine with rfl | rfl
    · exact hFeed rfl
    · exact hReturn rfl

/-- A character that a backslash does not come before stands for itself unless it ends the
literal. -/
theorem plain_of_isStringInside {c : Char} {cs : List Char}
    (h : IsStringInside (c :: (cs ++ ['"']))) (hBackslash : c ≠ '\\') :
    c ∉ ['"', '\\', '\r', '\n'] := by
  generalize hRest : cs ++ ['"'] = rest at h
  cases h with
  | close => simp at hRest
  | escape hLine rest => exact absurd rfl hBackslash
  | char hQuote hBackslash hLine rest =>
      simp only [List.mem_cons, List.not_mem_nil, or_false, not_or]
      refine ⟨hQuote, hBackslash, ?_, ?_⟩ <;> rintro rfl <;> cases hLine

/-- An escaped character does not close the string, whatever it is. -/
theorem isStringInside_escape {c : Char} {cs : List Char} (h : isLineEnd c = false) :
    IsStringInside ('\\' :: c :: cs) ↔ IsStringInside cs := by
  constructor
  · intro hInside
    cases hInside with
    | escape hLine rest => exact rest
    | char hQuote hBackslash hLine rest => exact absurd rfl hBackslash
  · exact .escape h

/-- Plain characters may stand before anything inside of a string. -/
theorem isStringInside_run {run rest : List Char}
    (h : ∀ c ∈ run, c ∉ ['"', '\\', '\r', '\n']) :
    IsStringInside (run ++ rest) ↔ IsStringInside rest := by
  induction run with
  | nil => rfl
  | cons c run ih =>
      obtain ⟨hFirst, hRun⟩ := List.forall_mem_cons.1 h
      rw [List.cons_append, isStringInside_plain hFirst, ih hRun]

/-- A hexadecimal digit is plain. -/
theorem plain_of_isHexDigit {c : Char} (h : isHexDigit c = true) :
    c ∉ ['"', '\\', '\r', '\n'] := by
  intro hMember
  simp only [List.mem_cons, List.not_mem_nil, or_false] at hMember
  rcases hMember with rfl | rfl | rfl | rfl <;> exact absurd h (by decide)

theorem isStringInside_digits (digits : List HexDigit) (rest : List Char) :
    IsStringInside (HexDigit.spelling digits ++ rest) ↔ IsStringInside rest :=
  isStringInside_run fun c hc => plain_of_isHexDigit (HexDigit.all_spelling digits c hc)

/-- The escape of a code unit may stand before anything inside of a string. -/
theorem isStringInside_unitEscape (u : CodeUnit) (rest : List Char) :
    IsStringInside (Item.unitEscape u ++ rest) ↔ IsStringInside rest := by
  rw [Item.unitEscape, List.cons_append, List.cons_append, isStringInside_escape (by decide)]
  exact isStringInside_digits u.digits rest

/-- The lexer goes on after an item as if it began there. -/
theorem isStringInside_spelling (item : Item) (rest : List Char) :
    IsStringInside (item.spelling ++ rest) ↔ IsStringInside rest := by
  cases item with
  | plain c h => exact isStringInside_plain h
  | letter entry h =>
      have hLine : ∀ entry ∈ letters, isLineEnd entry.1 = false := by decide
      exact isStringInside_escape (hLine entry h)
  | unit u h => exact isStringInside_unitEscape u rest
  | pair leading trailing hLeading hTrailing =>
      rw [Item.spelling, List.append_assoc, isStringInside_unitEscape, isStringInside_unitEscape]
  | braced digits hDigits h =>
      have hClose : '\x7d' ∉ ['"', '\\', '\r', '\n'] := by decide
      have hOpen : '\x7b' ∉ ['"', '\\', '\r', '\n'] := by decide
      rw [Item.spelling, List.cons_append, List.cons_append, isStringInside_escape (by decide),
        List.cons_append, isStringInside_plain hOpen, List.append_assoc, isStringInside_digits]
      exact isStringInside_plain hClose

/-- The spellings of items and a quotation mark are the inside of a string. -/
theorem isStringInside_spellings (items : List Item) :
    IsStringInside (spellings items ++ ['"']) := by
  induction items with
  | nil => exact .close
  | cons item items ih =>
      rw [spellings, List.flatMap_cons, List.append_assoc, isStringInside_spelling]
      exact ih

/-- The characters before the closing quote are as many as can be read, item by item. -/
theorem exists_items {bound : Nat} {inside values : List Char} (hBound : inside.length ≤ bound)
    (hInside : IsStringInside (inside ++ ['"'])) (h : readWithin bound inside = .ok values) :
    ∃ items, inside = spellings items ∧ values = items.map Item.denotes := by
  induction bound generalizing inside values with
  | zero =>
      obtain rfl := List.length_eq_zero_iff.1 (Nat.le_zero.1 hBound)
      cases h
      exact ⟨[], rfl, rfl⟩
  | succ bound ih =>
      cases inside with
      | nil =>
          cases h
          exact ⟨[], rfl, rfl⟩
      | cons c cs =>
          obtain ⟨⟨v, rest⟩, hRead, h⟩ := except_bind_eq_ok.1 h
          obtain ⟨more, hMore, h⟩ := except_bind_eq_ok.1 h
          cases h
          have hPlain := plain_of_isStringInside (c := c) (by simpa using hInside)
          obtain ⟨item, hItem, rfl⟩ := exists_item hPlain hRead
          rw [hItem, List.append_assoc, isStringInside_spelling] at hInside
          have hShorter : rest.length ≤ bound := by
            obtain ⟨d, ds, hSpelling, -⟩ := readChar_spelling item rest
            have hLength := congrArg List.length hItem
            simp only [hSpelling, List.length_cons, List.length_append] at hLength hBound
            omega
          obtain ⟨items, rfl, rfl⟩ := ih hShorter hInside hMore
          exact ⟨item :: items, hItem, rfl⟩

/-- Whether a fault is that of an escape. -/
def Fault.OfEscape (fault : Fault) : Prop :=
  (∃ text, fault = .badEscape text) ∨ ∃ text, fault = .badUnicode text

/-- A bad escape is told from the characters behind its backslash. -/
theorem ofEscape_badUnicode (afterBackslash : List Char) : (badUnicode afterBackslash).OfEscape :=
  .inr ⟨_, rfl⟩

/-- Four digits fail with the fault of an escape and no other. -/
theorem ofEscape_readHex4 {cs : List Char} {fault : Fault} (h : readHex4 cs = .error fault) :
    fault.OfEscape := by
  simp only [readHex4] at h
  split at h <;> cases h
  exact ofEscape_badUnicode _

theorem ofEscape_readBraced {cs : List Char} {fault : Fault} (h : readBraced cs = .error fault) :
    fault.OfEscape := by
  simp only [readBraced] at h
  split at h
  · cases h
    exact ofEscape_badUnicode _
  · split at h
    · split at h <;> cases h
      exact ofEscape_badUnicode _
    · cases h
      exact ofEscape_badUnicode _

theorem ofEscape_readUnits {cs : List Char} {fault : Fault} (h : readUnits cs = .error fault) :
    fault.OfEscape := by
  rcases except_bind_eq_error.1 h with hFirst | ⟨⟨unit, rest⟩, -, h⟩
  · exact ofEscape_readHex4 hFirst
  · dsimp only at h
    split at h
    · split at h
      · rcases except_bind_eq_error.1 h with hSecond | ⟨⟨trailing, last⟩, -, h⟩
        · exact ofEscape_readHex4 hSecond
        · dsimp only at h
          split at h <;> cases h
          exact ofEscape_badUnicode _
      · cases h
        exact ofEscape_badUnicode _
    · split at h <;> cases h
      exact ofEscape_badUnicode _

/-- An escape is the only thing in a string that can be at fault. -/
theorem ofEscape_readChar {c : Char} {cs : List Char} {fault : Fault}
    (h : readChar c cs = .error fault) : fault.OfEscape := by
  unfold readChar at h
  split at h
  · cases h
  · split at h
    · cases h
      exact .inl ⟨_, rfl⟩
    · unfold readUnicode at h
      split at h
      · exact ofEscape_readBraced h
      · exact ofEscape_readUnits h
    · split at h <;> cases h
      exact .inl ⟨_, rfl⟩

/-- A string that was lexed is at fault only in an escape. -/
theorem ofEscape_readWithin {bound : Nat} {inside : List Char} {fault : Fault}
    (h : readWithin bound inside = .error fault) : fault.OfEscape := by
  induction bound generalizing inside with
  | zero => cases h
  | succ bound ih =>
      cases inside with
      | nil => cases h
      | cons c cs =>
          rcases except_bind_eq_error.1 h with hChar | ⟨⟨v, rest⟩, -, h⟩
          · exact ofEscape_readChar hChar
          · rcases except_bind_eq_error.1 h with hRest | ⟨values, -, h⟩
            · exact ih hRest
            · cases h

/-- The value of a literal on one line is read from what stands between its quotes. -/
theorem value_line {inside : List Char} (hInside : IsStringInside (inside ++ ['"'])) :
    value (String.ofList ('"' :: (inside ++ ['"']))) =
      (readWithin inside.length inside).map String.ofList := by
  have hLine : isBlock (String.ofList ('"' :: (inside ++ ['"']))) = false := by
    rw [isBlock, String.toList_ofList, Bool.eq_false_iff]
    intro hPrefix
    obtain ⟨rest, hRest⟩ := List.isPrefixOf_iff_prefix.1 hPrefix
    -- a quote after the first would have to close the literal
    rw [← (List.cons.inj hRest).2] at hInside
    cases hInside with
    | char hQuote hBackslash hLine rest => exact hQuote rfl
  have hQuotes := inside?_quoted 1 inside
  simp only [List.replicate, List.cons_append, List.nil_append] at hQuotes
  rw [value, String.toList_ofList, if_neg (by rw [hLine]; decide), hQuotes]
  exact except_bind_pure

/-- A string token that is no block string has one line between its quotes. -/
theorem exists_line_of_lexeme {raw : String} (h : Lexeme .string raw.toList)
    (hLine : isBlock raw = false) :
    ∃ inside, raw = String.ofList ('"' :: (inside ++ ['"'])) ∧
      IsStringInside (inside ++ ['"']) := by
  generalize hText : raw.toList = lexeme at h
  obtain rfl : raw = String.ofList lexeme := by rw [← hText, String.ofList_toList]
  cases h with
  | punctuator hPunctuator => cases hPunctuator
  | string hInside =>
      obtain ⟨inside, rfl⟩ := hInside.exists_quote
      exact ⟨inside, rfl, hInside⟩
  | blockString hInside =>
      rw [isBlock, String.toList_ofList] at hLine
      exact absurd hLine (by simp [List.isPrefixOf])

/-- Items in quotation marks are the lexeme of a string. -/
theorem lexeme_quoted (items : List Item) : Lexeme .string (quoted items).toList := by
  rw [quoted, String.toList_ofList]
  exact .string (isStringInside_spellings items)

/-- Items in quotation marks have the value that they denote. -/
theorem value_quoted (items : List Item) :
    value (quoted items) = .ok (String.ofList (items.map Item.denotes)) := by
  rw [quoted, value_line (isStringInside_spellings items), readWithin_spellings items le_rfl]
  rfl

/-- A literal on one line has a value exactly if a list of items spells it, and the value is what
the items denote. Any list of items spells a single token, and a literal that no list of items
spells has an escape that is not valid. -/
theorem value_of_items :
    (∀ items : List Item, ∃ stop : Position,
      Token.lex (quoted items) = [⟨.string, ⟨{}, stop⟩, quoted items⟩, .eofAt stop] ∧
      stop.offset = (quoted items).utf8ByteSize ∧
      value (quoted items) = .ok (String.ofList (items.map Item.denotes))) ∧
    ∀ text : String, ∀ token ∈ Token.lex text, token.kind = .string →
      isBlock token.text = false →
      (∃ items, token.text = quoted items ∧
        value token.text = .ok (String.ofList (items.map Item.denotes))) ∨
      ∃ fault, value token.text = .error fault ∧ fault.OfEscape := by
  constructor
  · intro items
    have hSize := Cursor.offset_walk {} (quoted items).toList
    rw [← utf8ByteSize_ofList, String.ofList_toList] at hSize
    exact ⟨_, lex_of_lexeme (lexeme_quoted items), hSize.trans (Nat.zero_add _),
      value_quoted items⟩
  · intro text token hToken hKind hLine
    have hLexeme := lexeme_of_mem_lex hToken ⟨by rw [hKind]; rfl, by rw [hKind]; nofun⟩
    rw [hKind] at hLexeme
    obtain ⟨inside, hText, hInside⟩ := exists_line_of_lexeme hLexeme hLine
    have hValue := value_line hInside
    rw [← hText] at hValue
    cases hRead : readWithin inside.length inside with
    | ok values =>
        obtain ⟨items, rfl, rfl⟩ := exists_items le_rfl hInside hRead
        exact .inl ⟨items, hText, by rw [hValue, hRead]; rfl⟩
    | error fault =>
        exact .inr ⟨fault, by rw [hValue, hRead]; rfl, ofEscape_readWithin hRead⟩

/-- The escapes of two surrogates are one item, which denotes one character. -/
theorem value_of_items_surrogates :
    ∃ token ∈ Token.lex "\"\\uD83D\\uDE00\"", token.kind = .string ∧
      isBlock token.text = false ∧ value token.text = .ok "😀" ∧
      ∃ items, token.text = quoted items ∧ items.map Item.denotes = ['😀'] := by
  have hSpan : spanString "\\uD83D\\uDE00\"".toList =
      (.closed, "\\uD83D\\uDE00\"".toList, []) := by decide
  have hLexeme : Lexeme .string "\"\\uD83D\\uDE00\"".toList :=
    .string (isStringInside_of_spanString hSpan)
  obtain ⟨token, hToken, hKind, hText⟩ : ∃ token ∈ Token.lex "\"\\uD83D\\uDE00\"",
      token.kind = .string ∧ token.text = "\"\\uD83D\\uDE00\"" := by
    rw [lex_of_lexeme hLexeme]
    exact ⟨_, List.mem_cons_self, rfl, rfl⟩
  have hLine : isBlock token.text = false := by
    rw [hText]
    decide
  have hValue : value token.text = .ok "😀" := by
    rw [hText]
    decide
  rcases value_of_items.2 _ token hToken hKind hLine with ⟨items, hItems, hDenoted⟩ | hFault
  · rw [hValue, Except.ok.injEq] at hDenoted
    refine ⟨token, hToken, hKind, hLine, hValue, items, hItems, ?_⟩
    rw [← String.toList_ofList (l := items.map Item.denotes), ← hDenoted]
    rfl
  · obtain ⟨fault, hFault, -⟩ := hFault
    rw [hValue] at hFault
    cases hFault

end GraphQL.StringLiteral
