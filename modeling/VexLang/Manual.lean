/-!
# The manual

Three pages on the language, shown on request.
-/

namespace VexLang

def pageLines : List (List String) :=
  [["[DOCS: VARIABLES & SYNTAX]",
      "* syntax error: variable must be a quoted string",
      "* const-",
      "  fr 'name' is value",
      "  fr this 'name' is value",
      "* let-",
      "  this 'name' is value"],
    ["[DOCS: LOOPS & MATH]",
      "* for loop-",
      "  loop! [counter] \x7b code \x7d",
      "* math-",
      "  debug! (1+1)",
      "  (Math MUST be in parentheses)"],
    ["[DOCS: TYPES & AUTOSTATUS]",
      "* \"value\"        -> :str",
      "* value:str      -> :str",
      "* value          -> :str (by autostatus)",
      "* 1              -> :str (by autostatus)",
      "* 1:num          -> :num"]]

def manualPages : List String :=
  pageLines.map fun lines ↦ String.intercalate "\n" lines

end VexLang
