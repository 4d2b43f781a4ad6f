/-! # White space

The characters with the Unicode property `White_Space`, and what is left of a text without those at
its ends. -/

namespace Dataflow.Text

def isBlank (c : Char) : Bool :=
  (0x09 ≤ c.toNat && c.toNat ≤ 0x0D) || c.toNat == 0x20 || c.toNat == 0x85 || c.toNat == 0xA0
    || c.toNat == 0x1680 || (0x2000 ≤ c.toNat && c.toNat ≤ 0x200A) || c.toNat == 0x2028
    || c.toNat == 0x2029 || c.toNat == 0x202F || c.toNat == 0x205F || c.toNat == 0x3000

/-- The text after its leading white space. -/
def trimLeft (s : List Char) : List Char := s.dropWhile isBlank

/-- Whether nothing but white space is in the text. -/
def isBlankText (s : String) : Bool := s.toList.all isBlank

end Dataflow.Text
