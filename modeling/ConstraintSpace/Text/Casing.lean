import ConstraintSpace.Text.Cluster
import ConstraintSpace.Text.LetterCase

/-!
# Casing of names

A name is split into words, at separators and where the kind of its clusters
changes, and the words are joined again in the letters and with the delimiter of
a casing.
-/

namespace ConstraintSpace

inductive Casing where
  | upper
  | lower
  | title
  | toggle
  | camel
  | pascal
  | upperCamel
  | snake
  | upperSnake
  | screamingSnake
  | kebab
  | cobol
  | upperKebab
  | train
  | flat
  | upperFlat
  | alternating
deriving DecidableEq, Repr

namespace Casing

def all : List Casing :=
  [upper, lower, title, toggle, camel, pascal, upperCamel, snake, upperSnake, screamingSnake,
    kebab, cobol, upperKebab, train, flat, upperFlat, alternating]

def name : Casing → String
  | upper => "Upper"
  | lower => "Lower"
  | title => "Title"
  | toggle => "Toggle"
  | camel => "Camel"
  | pascal => "Pascal"
  | upperCamel => "UpperCamel"
  | snake => "Snake"
  | upperSnake => "UpperSnake"
  | screamingSnake => "ScreamingSnake"
  | kebab => "Kebab"
  | cobol => "Cobol"
  | upperKebab => "UpperKebab"
  | train => "Train"
  | flat => "Flat"
  | upperFlat => "UpperFlat"
  | alternating => "Alternating"

def ofName? (text : String) : Option Casing := all.find? (·.name = text)

/-! ### Words -/

def isSeparator (c : Cluster) : Bool := c = ['_'] || c = ['-'] || c = [' ']

def isDigit (c : Cluster) : Bool := c.all Char.isDigit

def isCased (c : Cluster) : Bool := LetterCase.isUpper c || LetterCase.isLower c

/-- Whether a word begins between two clusters, of which the second is followed
by `after`.  A letter of no other case neither ends a word nor begins one. -/
def begins (before c : Cluster) (after : Option Cluster) : Bool :=
  (LetterCase.isLower before && LetterCase.isUpper c) ||
    (isCased before && isDigit c) ||
    (isDigit before && isCased c) ||
    (LetterCase.isUpper before && LetterCase.isUpper c && after.any LetterCase.isLower)

/-- Cuts after the cluster `before` and the reversed word so far. -/
def cut (before : Option Cluster) (word : List Cluster) : List Cluster → List (List Cluster)
  | [] => [word.reverse]
  | c :: rest =>
    if isSeparator c then word.reverse :: cut (some c) [] rest
    else if before.any fun b => begins b c rest.head? then
      word.reverse :: cut (some c) [c] rest
    else cut (some c) (c :: word) rest

def words (text : String) : List (List Char) :=
  ((cut none [] (Cluster.ofChars text.toList)).map List.flatten).filter fun word => !word.isEmpty

/-! ### Letters -/

def capital : List Char → List Char
  | [] => []
  | c :: rest => LetterCase.upperOf c ++ LetterCase.lower rest

def toggled : List Char → List Char
  | [] => []
  | c :: rest => LetterCase.lowerOf c ++ LetterCase.upper rest

/-- Alternates lower and upper case over the letters; the first is upper case
where `up` holds.  Gives the word and the case of the next letter. -/
def alternate (up : Bool) : List Char → List Char × Bool
  | [] => ([], up)
  | c :: rest =>
    if LetterCase.isLetter c then
      let (tail, up') := alternate (!up) rest
      ((if up then LetterCase.upperOf c else LetterCase.lowerOf c) ++ tail, up')
    else
      let (tail, up') := alternate up rest
      (c :: tail, up')

def alternateAll (up : Bool) : List (List Char) → List (List Char)
  | [] => []
  | word :: rest =>
    let (word, up) := alternate up word
    word :: alternateAll up rest

def letters (casing : Casing) (words : List (List Char)) : List (List Char) :=
  match casing with
  | upper | upperFlat | upperSnake | screamingSnake | cobol | upperKebab =>
    words.map LetterCase.upper
  | lower | flat | snake | kebab => words.map LetterCase.lower
  | title | pascal | upperCamel | train => words.map capital
  | camel =>
    match words with
    | [] => []
    | word :: rest => LetterCase.lower word :: rest.map capital
  | toggle => words.map toggled
  | alternating => alternateAll false words

def delimiter : Casing → String
  | upper | lower | title | toggle | alternating => " "
  | snake | upperSnake | screamingSnake => "_"
  | kebab | cobol | upperKebab | train => "-"
  | camel | pascal | upperCamel | flat | upperFlat => ""

def apply (casing : Casing) (text : String) : String :=
  casing.delimiter.intercalate ((casing.letters (words text)).map String.ofList)

end Casing

end ConstraintSpace
