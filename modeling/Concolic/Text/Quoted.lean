/-!
# Quoted texts

A text as it is shown on one line: between quotes, with a backslash before a
quote and a backslash, with short forms for the common controls, and with every
other character that leaves no mark shown by its number.  Which characters these
are depends on the tables of the system; the controls are among them everywhere.
-/

namespace Concolic

namespace Text

/-- The lower-case hexadecimal digits of a number. -/
def hexadecimal (n : Nat) : String :=
  String.ofList (Nat.toDigits 16 n)

/-- Is the character a control? -/
def isControl (c : Char) : Bool :=
  c.toNat < 0x20 || 0x7F ≤ c.toNat && c.toNat < 0xA0

/-- A character as shown inside a quoted text. -/
def quotedChar (isUnseen : Char → Bool) (c : Char) : String :=
  match c with
  | '"' => "\\\""
  | '\\' => "\\\\"
  | '\n' => "\\n"
  | '\t' => "\\t"
  | '\r' => "\\r"
  | '\x00' => "\\0"
  | c => if isUnseen c then "\\u\x7b" ++ hexadecimal c.toNat ++ "\x7d" else c.toString

/-- A text between quotes, on one line. -/
def quoted (text : String) (isUnseen : Char → Bool := isControl) : String :=
  "\"" ++ String.join (text.toList.map (quotedChar isUnseen)) ++ "\""

end Text

end Concolic
