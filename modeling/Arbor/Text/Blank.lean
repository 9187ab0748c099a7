/-!
# White space

The characters with the Unicode property `White_Space`, and trimming by them.
-/

namespace Arbor.Text

/-- Whether a character is white space.  Tab to carriage return, the space, the next-line and
no-break spaces, and the spaces and separators of the general punctuation block are. -/
def isBlank (c : Char) : Bool :=
  let n := c.toNat
  (9 ≤ n && n ≤ 13) || n == 0x20 || n == 0x85 || n == 0xA0 || n == 0x1680 ||
    (0x2000 ≤ n && n ≤ 0x200A) || n == 0x2028 || n == 0x2029 || n == 0x202F || n == 0x205F ||
    n == 0x3000

/-- The list without the blanks at its end. -/
def dropBlanksEnd (cs : List Char) : List Char := (cs.reverse.dropWhile isBlank).reverse

/-- The text without the blanks around it. -/
def trimBlanks (s : String) : String := String.ofList (dropBlanksEnd (s.toList.dropWhile isBlank))

end Arbor.Text
