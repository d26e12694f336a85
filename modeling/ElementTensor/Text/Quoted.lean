import ElementTensor.Text.CharRanges

/-!
What stands in messages: lists in brackets, and names in double quotes. Characters that cannot be seen, or that would end
the name, are escaped.
-/
namespace ElementTensor

def bracketed (items : List String) : String := "[" ++ ", ".intercalate items ++ "]"

/-- Natural numbers in brackets: `[1, 2]`. -/
def listing (l : List Nat) : String := bracketed (l.map toString)

/-- A character by its number in hexadecimal digits and braces. -/
def numberedChar (c : Char) : List Char :=
  ['\\', 'u', Char.ofNat 123] ++ Nat.toDigits 16 c.toNat ++ [Char.ofNat 125]

/-- The two sound marks of the half-width syllables. They count as drawn onto the character before
them, and yet each has a form and a place of its own. -/
def isHalfwidthSoundMark (c : Char) : Bool := c.toNat == 0xff9e || c.toNat == 0xff9f

/-- Whether a character does not show when it stands alone. -/
def isHidden (c : Char) : Bool :=
  isUnprintable c || isGraphemeExtend c && !isHalfwidthSoundMark c

/-- A character inside a quoted name. Quotes, backslashes and the usual blanks have short escapes;
what is not visible on its own is given by its number. -/
def quotedChar (c : Char) : List Char :=
  if c = '"' then ['\\', '"']
  else if c = '\\' then ['\\', '\\']
  else if c = '\t' then ['\\', 't']
  else if c = '\n' then ['\\', 'n']
  else if c = '\r' then ['\\', 'r']
  else if c.toNat = 0 then ['\\', '0']
  else if isHidden c then numberedChar c
  else [c]

def quoted (s : String) : String := String.ofList ('"' :: s.toList.flatMap quotedChar ++ ['"'])

end ElementTensor
