import BabOs.Shell.Model
import BabOs.Terminal.Formats
import BabOs.Initrd.Image

/-!
# What the shell is for

A session with the shell as its user sees it: a line is typed, and the files of
the ramdisk answer it.  Nothing here lies in memory.
-/

namespace BabOs.Shell

open Initrd Terminal.Printf

def cString (bytes : List UInt8) : List UInt8 := bytes.takeWhile (· ≠ 0)

/-- What a name stands for. -/
inductive Entry where
  | directory
  | file (content : List UInt8)

/-- The directory `dev` hides files of its name, and a file those behind it. -/
def lookup (files : List File) (name : List UInt8) : Option Entry :=
  if name = devName then some .directory
  else (files.find? fun f => f.text = name).map fun f => .file f.content

/-- The size of a file, as the `int` that is shown. -/
def shownSize (content : List UInt8) : List UInt8 :=
  signedNumeral (BitVec.ofNat 32 content.length).toInt

/-- What is shown behind a name in the listing. -/
def Entry.note : Entry → List UInt8
  | .directory => ascii "(dir)\n"
  | .file content => ascii "(file, size " ++ shownSize content ++ ascii ")\n"

def listingLine (files : List File) (name : List UInt8) : List UInt8 :=
  name ++ ascii "  " ++ ((lookup files name).map Entry.note).getD []

/-- The directory `dev`, and then the files in packing order. -/
def listing (files : List File) : List UInt8 :=
  (devName :: files.map File.text).flatMap (listingLine files)

/-- What there is to read; nothing in a directory. -/
def Entry.content : Entry → List UInt8
  | .directory => []
  | .file content => content

def showFile (files : List File) (name : List UInt8) : List UInt8 :=
  match lookup files name with
  | some entry => cString entry.content ++ ascii "\n"
  | none => ascii "File not found: " ++ name ++ ascii "\n"

def reply (files : List File) (line : List UInt8) : List UInt8 :=
  let text := cString line
  if text = ascii "ls" then listing files
  else if ascii "cat " <+: text then showFile files (text.drop 4)
  else if line = [] then []
  else ascii "Unknown command: " ++ text ++ ascii "\n"

/-- The line that is being typed, and what is on the terminal. -/
structure Session where
  line : List UInt8
  output : List UInt8

/-- A character is typed. -/
def Session.press (files : List File) (x : Session) (c : UInt8) : Session :=
  if c = 0x0A then ⟨[], x.output ++ reply files x.line ++ ascii "> "⟩
  else if c = 0x08 then { x with line := x.line.dropLast }
  else if x.line.length < 127 then { x with line := x.line ++ [c] }
  else x

/-- The session in which the characters are typed. -/
def session (files : List File) (keys : List UInt8) : Session :=
  keys.foldl (Session.press files) ⟨[], Literal.banner.text⟩

end BabOs.Shell
