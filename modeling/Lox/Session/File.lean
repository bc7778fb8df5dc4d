import Lox.Session.Basic

/-!
# Running files

A file has to be there, to be a file, and to hold text.
-/

namespace Lox

inductive ReadFault where
  | notFound
  | isDirectory
  | notText
  deriving Repr, DecidableEq

def ReadFault.message : ReadFault → String
  | .notFound => "No such file or directory (os error 2)"
  | .isDirectory => "Is a directory (os error 21)"
  | .notText => "stream did not contain valid UTF-8"

def Failure.unreadable (path : String) (fault : ReadFault) : Failure :=
  .internal ("Failed open source file " ++ path ++ ": " ++ fault.message)

structure Directory where
  files : List (String × ByteArray)

/-- The parts of a path that lead somewhere. -/
def pathParts (path : String) : List String :=
  (path.splitOn "/").filter fun part => part ≠ "" && part ≠ "."

/-- The bytes of a file. Nothing is known about what lies outside the directory. -/
def Directory.read (d : Directory) (path : String) : Except ReadFault ByteArray :=
  let parts := pathParts path
  let name := "/".intercalate parts
  if path = "" then
    .error .notFound
  else if parts.all (· = "..") then
    .error .isDirectory
  else if path.startsWith "/" then
    .error .notFound
  else
    match d.files.find? (·.1 = name) with
    | some (_, bytes) => .ok bytes
    | none =>
      if d.files.any fun (file, _) => file.startsWith (name ++ "/") then
        .error .isDirectory
      else
        .error .notFound

def Directory.source (d : Directory) (path : String) : Except ReadFault String :=
  match d.read path with
  | .ok bytes =>
    match String.fromUTF8? bytes with
    | some text => .ok text
    | none => .error .notText
  | .error fault => .error fault

def Session.runSource (steps : Nat) (path : String) (source : Except ReadFault String)
    (s : Session) : Verdict × Session :=
  match source with
  | .ok text => s.run steps text
  | .error fault => (.failure (.unreadable path fault), s)

end Lox
