import Lox.Text.Extending
import Lox.Text.Unseen

/-!
# Quoted text

A text between double quotes, in which a quote, a backslash, the common control characters and
every character that cannot be seen are escaped.
-/

namespace Lox.Text

/-- Characters that are escaped by their code: those that would not stand for themselves between
quotes. -/
def isHidden (c : Char) : Bool :=
  isUnseen c || isExtending c

def escaped (c : Char) : List Char :=
  match c with
  | '"' => ['\\', '"']
  | '\\' => ['\\', '\\']
  | '\n' => ['\\', 'n']
  | '\r' => ['\\', 'r']
  | '\t' => ['\\', 't']
  | '\x00' => ['\\', '0']
  | c =>
    if isHidden c then
      ['\\', 'u', '\x7b'] ++ Nat.toDigits 16 c.toNat ++ ['\x7d']
    else
      [c]

def quoted (text : String) : String :=
  String.ofList ('"' :: text.toList.flatMap escaped ++ ['"'])

example : quoted "a\tb \\ \"c\"" = "\"a\\tb \\\\ \\\"c\\\"\"" := by decide +kernel

example : quoted "né\u200b\u0301" = "\"né\\u\x7b200b\x7d\\u\x7b301\x7d\"" := by decide +kernel

end Lox.Text
