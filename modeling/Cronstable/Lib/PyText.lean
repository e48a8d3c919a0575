/-!
# Text formatting of a scripting host

The conventions of a scripting host for text: the quoted form of a string (what `{!r}` prints), the
words of a string, as `str.split` without arguments finds them, and the reading back of parts.
-/

namespace PyText

open List

/-- The two lowercase hexadecimal digits of a byte. -/
private def hexByte (n : Nat) : String :=
  String.ofList [Nat.digitChar (n / 16), Nat.digitChar (n % 16)]

/-- One character of a quoted string whose quote character is `quote`. Control characters and
the delimiters are escaped; every other character is taken as printable. -/
private def escapeChar (quote c : Char) : String :=
  if c = quote ∨ c = '\\' then String.ofList ['\\', c]
  else if c = '\n' then "\\n"
  else if c = '\r' then "\\r"
  else if c = '\t' then "\\t"
  else if c.toNat < 0x20 ∨ c.toNat = 0x7f then "\\x" ++ hexByte c.toNat
  else c.toString

/-- The quoted form of `s`: single quotes, unless `s` holds a single quote and no double one. -/
def quoted (s : String) : String :=
  let single := Char.ofNat 39
  let double := Char.ofNat 34
  let quote := if single ∈ s.toList ∧ double ∉ s.toList then double else single
  quote.toString ++ String.join (s.toList.map (escapeChar quote)) ++ quote.toString

/-- `str.isspace`, for one character. -/
def isSpace (c : Char) : Bool :=
  let n := c.toNat
  (9 ≤ n && n ≤ 13) || (28 ≤ n && n ≤ 32) || (0x2000 ≤ n && n ≤ 0x200a) ||
    [0x85, 0xa0, 0x1680, 0x2028, 0x2029, 0x202f, 0x205f, 0x3000].contains n

/-- The words of the characters that are left; `word` is what was read of the current one. -/
private def splitAux : List Char → List Char → List String
  | [], word => if word.isEmpty then [] else [String.ofList word]
  | c :: rest, word =>
    if isSpace c then (if word.isEmpty then [] else [String.ofList word]) ++ splitAux rest []
    else splitAux rest (word ++ [c])

/-- `s.split()`. -/
def split (s : String) : List String := splitAux s.toList []

example : split "  0 5\t* * *\n" = ["0", "5", "*", "*", "*"] := by decide +kernel

/-- Two lists cut at the first occurrence of the same separator agree on both sides. -/
theorem append_sep_inj {c : Char} {x y z w : List Char} (hx : c ∉ x) (hz : c ∉ z)
    (h : x ++ c :: y = z ++ c :: w) : x = z ∧ y = w := by
  induction x generalizing z with
  | nil =>
    cases z with
    | nil => simpa using h
    | cons d z =>
      obtain ⟨rfl, -⟩ := cons.inj h
      exact absurd mem_cons_self hz
  | cons d x ih =>
    cases z with
    | nil =>
      obtain ⟨rfl, -⟩ := cons.inj h
      exact absurd mem_cons_self hx
    | cons d' z =>
      obtain ⟨rfl, htail⟩ := cons.inj h
      obtain ⟨rfl, rfl⟩ := ih (fun hm => hx (mem_cons_of_mem _ hm))
        (fun hm => hz (mem_cons_of_mem _ hm)) htail
      exact ⟨rfl, rfl⟩

/-- Decimal numerals are read back by their digits. -/
theorem toString_nat_inj {i j : Nat} (h : toString i = toString j) : i = j := by
  have hdigits : Nat.toDigits 10 i = Nat.toDigits 10 j := by
    simpa [Nat.toString_eq_repr, Nat.repr_eq_ofList_toDigits] using congrArg String.toList h
  calc i = Nat.ofDigitChars 10 (Nat.toDigits 10 i) 0 :=
        (Nat.ofDigitChars_toDigits (by decide) (Nat.le_refl _)).symm
    _ = Nat.ofDigitChars 10 (Nat.toDigits 10 j) 0 := by rw [hdigits]
    _ = j := Nat.ofDigitChars_toDigits (by decide) (Nat.le_refl _)

end PyText
