import Statechart.Json.Quoted

/-!
# Reading quoted text

A literal is read as the text that it was written from. The escape of one character is read as that
character, whatever follows it (`Quoted.read_escape`), and so the escapes of a text are read one
after the other up to the closing quote (`Quoted.read_escapes`).
-/

namespace Statechart

namespace Quoted

/-- A hexadecimal digit is read as the number that it was written from. -/
theorem hexValue?_hexChar {d : Nat} (h : d < 16) : hexValue? (hexChar d) = some d := by
  revert d
  decide

/-- The two last digits of a numeric escape are enough for a character below U+0100. -/
theorem unit?_hexChar {n : Nat} (h : n < 256) :
    unit? '0' '0' (hexChar (n / 16)) (hexChar (n % 16)) = some n := by
  have hzero : hexValue? '0' = some 0 := rfl
  have hhigh : hexValue? (hexChar (n / 16)) = some (n / 16) := hexValue?_hexChar (by omega)
  have hlow : hexValue? (hexChar (n % 16)) = some (n % 16) := hexValue?_hexChar (by omega)
  have hvalue : ((0 * 16 + 0) * 16 + n / 16) * 16 + n % 16 = n := by omega
  simp only [unit?, hzero, hhigh, hlow, Option.bind_eq_bind, Option.bind_some, Option.pure_def,
    hvalue]

/-- A character that is written as it is stands for itself. -/
theorem read_cons {c : Char} (hquote : c ≠ '"') (hslash : c ≠ '\\') (h : 32 ≤ c.toNat)
    (rest : List Char) : read (c :: rest) = (read rest).map (·.push c) := by
  rw [read.eq_5, if_neg (not_or.2 ⟨Nat.not_lt.2 h, hslash⟩)]
  · exact hquote
  · exact fun _ _ _ _ _ hc _ ↦ hslash hc
  · exact fun _ _ hc _ ↦ hslash hc

/-- A one-letter escape stands for the character that its letter is looked up as. -/
theorem read_letter {letter c : Char} (hletter : letter ≠ 'u') (h : escaped? letter = some c)
    (rest : List Char) : read ('\\' :: letter :: rest) = (read rest).map (·.push c) := by
  rw [read.eq_4 _ _ fun _ _ _ _ _ hu _ ↦ hletter hu, h]

/-- A numeric escape of a character below U+0100 stands for this character. -/
theorem read_unit {c : Char} (h : c.toNat < 256) (rest : List Char) :
    read ('\\' :: 'u' :: '0' :: '0' :: hexChar (c.toNat / 16) :: hexChar (c.toNat % 16) :: rest) =
      (read rest).map (·.push c) := by
  have hhigh : isHigh c.toNat = false := decide_eq_false (by omega)
  have hlow : isLow c.toNat = false := decide_eq_false (by omega)
  rw [read.eq_3, unit?_hexChar h]
  simp only [hhigh, hlow, Bool.false_eq_true, if_false, Char.ofNat_toNat]

/-- The escape of a character is read as the character. -/
theorem read_escape (c : Char) (rest : List Char) :
    read (escape c ++ rest) = (read rest).map (·.push c) := by
  by_cases hquote : c = '"'
  · subst hquote
    exact read_letter (by decide) rfl rest
  by_cases hslash : c = '\\'
  · subst hslash
    exact read_letter (by decide) rfl rest
  rw [escape, if_neg hquote, if_neg hslash]
  split
  · next h => exact read_cons hquote hslash h rest
  -- below U+0020 five characters have letters, and all others are written by their numbers
  split
  · next h => exact h ▸ read_letter (by decide) rfl rest
  split
  · next h => exact h ▸ read_letter (by decide) rfl rest
  split
  · next h => exact h ▸ read_letter (by decide) rfl rest
  split
  · next h => exact h ▸ read_letter (by decide) rfl rest
  split
  · next h => exact h ▸ read_letter (by decide) rfl rest
  · exact read_unit (by omega) rest

/-- The escapes of a text are read as the text, up to the quote that closes it. -/
theorem read_escapes (cs rest : List Char) :
    read (cs.flatMap escape ++ '"' :: rest) = some ⟨some cs, rest⟩ := by
  induction cs with
  | nil => exact read.eq_2 rest
  | cons c cs ih =>
    rw [List.flatMap_cons, List.append_assoc, read_escape, ih]
    rfl

/-- What is written is an opening quote and what is read up to the closing one. -/
theorem write_append (s : String) (rest : List Char) :
    write s ++ rest = '"' :: (s.toList.flatMap escape ++ '"' :: rest) := by
  rw [write, List.cons_append, List.append_assoc, List.singleton_append]

end Quoted

end Statechart
