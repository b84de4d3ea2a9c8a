import VexLang.Node

/-!
# The part a word plays

What a word means depends on its spelling, and for two words also on whether
they stand inside a phrase. A word that ends in an exclamation mark is a command,
one with a colon inside is a cast.
-/

namespace VexLang

/-- Words that end a phrase or a list of parameters, with or without an exclamation mark. -/
def stopWords : List String :=
  ["set", "fr", "this", "if", "elseif", "loop", "cut", "banish", "bussin", "debug", "openfile",
    "vx"]

/-- What a word opens. -/
inductive Role where
  | manual
  | openFile
  | branch (kind : BranchKind)
  | declaration (constant : Bool)
  | assignment
  | loop
  | cut
  | banish
  | call (name : String)
  | cast (name : String) (status : Status)
  | identifier (name : String)
  deriving DecidableEq, Repr

/-- The word before a final exclamation mark. -/
def beforeMark? (word : String) : Option String :=
  if word.toList.getLast? = some '!' then some (String.ofList word.toList.dropLast) else none

/-- The parts of a word before its first colon, and from there to the second one. -/
def splitColon? (word : String) : Option (String × String) :=
  match word.toList.dropWhile (· != ':') with
  | [] => none
  | _ :: after =>
    some (String.ofList (word.toList.takeWhile (· != ':')),
      String.ofList (after.takeWhile (· != ':')))

def isStopWord (word : String) : Bool :=
  stopWords.contains ((beforeMark? word).getD word)

namespace Role

/-- The part a command plays, by its name without the exclamation mark. -/
def ofCommand (name : String) : Role :=
  match name with
  | "loop" => loop
  | "cut" => cut
  | "banish" => banish
  | _ => call name

/-- The part played by a word that opens no statement by itself. -/
def ofPlainWord (word : String) : Role :=
  match beforeMark? word with
  | some name => ofCommand name
  | none =>
    match splitColon? word with
    | some (name, status) => cast name (Status.ofWord status)
    | none => identifier word

/-- The part a word plays. The manual and the file request are ordinary words inside a
phrase. -/
def ofWord (inPhrase : Bool) (word : String) : Role :=
  match word with
  | "vx" => if inPhrase then ofPlainWord word else manual
  | "openfile" => if inPhrase then ofPlainWord word else openFile
  | "if" => branch .opening
  | "elseif" => branch .continuing
  | "fr" => declaration true
  | "this" => declaration false
  | "set" => assignment
  | _ => ofPlainWord word

end Role

end VexLang
