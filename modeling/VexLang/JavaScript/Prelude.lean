/-!
# The prelude of generated code

Generated code starts with one object that holds the helpers it calls: casts,
sums, random numbers and the test of conditions.
-/

namespace VexLang

namespace JavaScript

def preludeLines : List String :=
  ["",
    "// --- COMPILED VEXAL JS ---",
    "const _vexHelper = \x7b",
    "  cast: (val, type) => \x7b",
    "    if (!type) return val;",
    "    if (type === 'num') return parseFloat(val);",
    "    if (type === 'str') return String(val);",
    "    if (type === 'bool') return val === true || val === 'true' || val === 1 || val === 'yup';",
    "    if (type === 'null') return null;",
    "    if (type === 'undefined') return undefined;",
    "    return val;",
    "  \x7d,",
    "  autoStatus: (val) => \x7b",
    "    if (typeof val === 'number') return String(val);",
    "    return val;",
    "  \x7d,",
    "  add: (l, r) => (typeof l === 'number' && typeof r === 'number' ? l + r : String(l) + String(r)),",
    "  random: (min, max) => Math.floor(Math.random() * (Number(max) - Number(min) + 1) + Number(min)),",
    "  isYup: (val) => val === true || val === 'yup'",
    "\x7d;",
    "",
    "// --- USER CODE ---",
    ""]

/-- The text in front of all generated code. -/
def prelude : String :=
  String.intercalate "\n" preludeLines

end JavaScript

end VexLang
