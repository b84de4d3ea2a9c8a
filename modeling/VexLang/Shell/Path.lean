/-!
# Paths

A path is a text of segments divided by slashes. An empty segment and a single
dot stand for the directory they are in.
-/

namespace VexLang

namespace Path

/-- The segments of a path; there is one more of them than there are slashes. -/
def segmentsOf : List Char → List (List Char)
  | [] => [[]]
  | c :: cs =>
    if c = '/' then [] :: segmentsOf cs
    else
      match segmentsOf cs with
      | [] => [[c]]
      | first :: more => (c :: first) :: more

def segments (path : String) : List String :=
  (segmentsOf path.toList).map String.ofList

/-- Does the segment stay in its directory? -/
def staysPut (segment : String) : Bool :=
  segment == "" || segment == "."

/-- The segments that a path names on its way, without those that stay put. -/
def place (path : String) : List String :=
  (segments path).filter fun segment ↦ !staysPut segment

/-- The segments before the last name or dots of a path, whatever slashes follow. -/
def beforeLast (path : String) : List String :=
  (((segments path).reverse.dropWhile String.isEmpty).drop 1).reverse

def fileName (path : String) : String :=
  (segments path).getLastD path

/-- Removes segments that stay put from the end, but never the first segment. -/
def trimSegments : List String → List String
  | [] => []
  | head :: more => head :: (more.reverse.dropWhile staysPut).reverse

def withFileName (path name : String) : String :=
  String.intercalate "/" (trimSegments (segments path).dropLast ++ [name])

end Path

end VexLang
