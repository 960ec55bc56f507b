/-!
Texts are lists of characters, seen by letter case, by lines and by blank characters. Case is ASCII
case everywhere, as in PHP names, so an accented capital differs from its small letter. Blank is what
has the Unicode property White_Space, so the zero width space and the byte order mark are not; the
white space between PHP tokens is a smaller set and belongs to the token scanner.
-/

namespace PhpWeave

/-- The text of a token, a node, a name or a path. -/
abbrev Text := List Char

instance : Coe String Text := ⟨String.toList⟩

namespace Text

def lower (text : Text) : Text := text.map Char.toLower

def sameWord (left right : Text) : Bool := lower left == lower right

def newlines (text : Text) : Nat := text.count '\n'

def newlinesOnly (text : Text) : Text := text.filter (· == '\n')

def dropFinalNewline (text : Text) : Text :=
  if text.getLast? = some '\n' then text.dropLast else text

def dropLeadingSeparators (name : Text) : Text := name.dropWhile (· == '\\')

def joinWith (separator : Text) : List Text → Text
  | [] => []
  | [text] => text
  | text :: rest => text ++ separator ++ joinWith separator rest

/-- Cuts a text at every occurrence of a character; `n` occurrences give `n + 1` pieces. -/
def splitAt (mark : Char) : Text → List Text
  | [] => [[]]
  | c :: rest =>
    if c = mark then [] :: splitAt mark rest
    else match splitAt mark rest with
      | [] => [[c]]
      | piece :: pieces => (c :: piece) :: pieces

def ofNat (n : Nat) : Text := Nat.toDigits 10 n

theorem lower_append (left right : Text) : lower (left ++ right) = lower left ++ lower right :=
  List.map_append

theorem newlines_append (left right : Text) :
    newlines (left ++ right) = newlines left + newlines right :=
  List.count_append

theorem newlines_newlinesOnly (text : Text) : newlines (newlinesOnly text) = newlines text := by
  simp [newlines, newlinesOnly, List.count_filter]

theorem splitAt_ne_nil (mark : Char) (text : Text) : splitAt mark text ≠ [] := by
  cases text with
  | nil => simp [splitAt]
  | cons c rest =>
    rw [splitAt]
    split
    · simp
    · split <;> simp

/-! ### Lines -/

/-- The lines of a file, without their line feeds. A line feed ends its line, so a file that ends in one
has no empty line after it, and the empty file has no line at all. -/
def lines (source : Text) : List Text :=
  if source.isEmpty then [] else splitAt '\n' (dropFinalNewline source)

def centred (width : Nat) (text : Text) : Text :=
  let space := width - text.length
  List.replicate (space / 2) ' ' ++ text ++ List.replicate (space - space / 2) ' '

def padded (width : Nat) (text : Text) : Text :=
  text ++ List.replicate (width - text.length) ' '

/-! ### Blank characters -/

def isBlank (c : Char) : Bool :=
  (0x9 ≤ c.val && c.val ≤ 0xd) || c.val == 0x20 || c.val == 0x85 || c.val == 0xa0 ||
    c.val == 0x1680 || (0x2000 ≤ c.val && c.val ≤ 0x200a) || c.val == 0x2028 || c.val == 0x2029 ||
    c.val == 0x202f || c.val == 0x205f || c.val == 0x3000

def trim (text : Text) : Text := (((text.dropWhile isBlank).reverse).dropWhile isBlank).reverse

end Text
end PhpWeave
