import ConstraintSpace.Text.CharRange

/-!
# Letter case

Upper and lower case for the letters of ASCII and Latin-1, and for the signs
made of letters: Roman numerals, circled letters and the iota below a vowel.
Three lower case letters of Latin-1 have an upper case outside: the sharp s
becomes two letters, and the micro sign and the y with two dots leave the block.
-/

namespace ConstraintSpace.LetterCase

def upperOf (c : Char) : List Char :=
  if c.isLower then [c.toUpper]
  else if c.toNat = 0xDF then ['S', 'S']
  else if c.toNat = 0xB5 then [Char.ofNat 0x39C]
  else if c.toNat = 0xFF then [Char.ofNat 0x178]
  else if c.toNat = 0x345 then [Char.ofNat 0x399]
  else if 0xE0 ≤ c.toNat && c.toNat ≤ 0xFE && c.toNat ≠ 0xF7 then [Char.ofNat (c.toNat - 32)]
  else if 0x2170 ≤ c.toNat && c.toNat ≤ 0x217F then [Char.ofNat (c.toNat - 16)]
  else if 0x24D0 ≤ c.toNat && c.toNat ≤ 0x24E9 then [Char.ofNat (c.toNat - 26)]
  else [c]

def lowerOf (c : Char) : List Char :=
  if c.isUpper then [c.toLower]
  else if 0xC0 ≤ c.toNat && c.toNat ≤ 0xDE && c.toNat ≠ 0xD7 then [Char.ofNat (c.toNat + 32)]
  else if 0x2160 ≤ c.toNat && c.toNat ≤ 0x216F then [Char.ofNat (c.toNat + 16)]
  else if 0x24B6 ≤ c.toNat && c.toNat ≤ 0x24CF then [Char.ofNat (c.toNat + 26)]
  else [c]

def upper (text : List Char) : List Char := text.flatMap upperOf

def lower (text : List Char) : List Char := text.flatMap lowerOf

/-- Whether a text has a case and is in upper case. -/
def isUpper (text : List Char) : Bool := upper text ≠ lower text && text = upper text

/-- Whether a text has a case and is in lower case. -/
def isLower (text : List Char) : Bool := upper text ≠ lower text && text = lower text

/-- The letters that stand for one case and have no other: the two ordinal
signs, which are small, and the capitals in boxes. -/
def singleRanges : List CharRange :=
  [⟨0xAA, 0xAA⟩, ⟨0xBA, 0xBA⟩, ⟨0x1F130, 0x1F149⟩, ⟨0x1F150, 0x1F169⟩, ⟨0x1F170, 0x1F189⟩]

/-- Whether a character is a letter of either case. -/
def isLetter (c : Char) : Bool := upperOf c ≠ lowerOf c || CharRange.holds singleRanges c

end ConstraintSpace.LetterCase
