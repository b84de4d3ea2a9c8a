import VexLang.Number.Numeral
import VexLang.Number.Text

/-!
# Values

What an expression evaluates to: numbers, texts, booleans, and two values that
stand for nothing. A value can be cast to a status, the language's word for a
kind of value. Equality is strict: values of different kinds are never equal,
and numbers compare as numbers, so the undefined number differs from itself.
-/

namespace VexLang

inductive Value where
  | number (n : Float)
  | text (s : String)
  | boolean (b : Bool)
  | null
  | undefined
  deriving DecidableEq

inductive Status where
  | num
  | str
  | bool
  | null
  | undefined
  /-- Names the variable to be read. -/
  | var
  /-- Any other word; a cast to it keeps the value. -/
  | other (word : String)
  deriving DecidableEq, Repr

namespace Status

def ofWord (word : String) : Status :=
  match word with
  | "num" => num
  | "str" => str
  | "bool" => bool
  | "null" => null
  | "undefined" => undefined
  | "var" => var
  | _ => other word

def word : Status → String
  | num => "num"
  | str => "str"
  | bool => "bool"
  | null => "null"
  | undefined => "undefined"
  | var => "var"
  | other word => word

@[simp] theorem word_ofWord (name : String) : (ofWord name).word = name := by
  unfold ofWord
  split <;> rfl

end Status

namespace Value

/-- The text a value is printed as. -/
def toText : Value → String
  | number n => numberText n
  | text s => s
  | boolean true => "true"
  | boolean false => "false"
  | null => "null"
  | undefined => "undefined"

/-- The number a value counts as in arithmetic and as a loop count. A text counts only
as a whole. -/
def toNumber : Value → Float
  | number n => n
  | text s => wholeNumber s
  | boolean true => 1.0
  | boolean false => 0.0
  | null => 0.0
  | undefined => notANumber

/-- Does the value open the body of a condition? Only `yup` does, or its text. -/
def isYup : Value → Bool
  | boolean b => b
  | text s => s == "yup"
  | _ => false

/-- The truth value a value is cast to. -/
def toBool : Value → Bool
  | boolean b => b
  | number n => n == 1.0
  | text s => s == "true" || s == "yup"
  | _ => false

/-- The number a value is cast to. The numeral a text begins with is enough. -/
def toLeadingNumber : Value → Float
  | number n => n
  | v => leadingNumber v.toText

def cast (v : Value) : Status → Value
  | .num => number v.toLeadingNumber
  | .str => text v.toText
  | .bool => boolean v.toBool
  | .null => null
  | .undefined => undefined
  | .var => v
  | .other _ => v

/-- The text a value adds to a phrase: the values that stand for nothing add none. -/
def phraseText : Value → String
  | null => ""
  | undefined => ""
  | v => v.toText

def strictEq : Value → Value → Bool
  | number m, number n => m == n
  | text s, text t => s == t
  | boolean a, boolean b => a == b
  | null, null => true
  | undefined, undefined => true
  | _, _ => false

end Value

inductive Operator where
  | plus
  | minus
  | times
  | divide
  deriving DecidableEq, Repr

namespace Operator

def ofSymbol? : Char → Option Operator
  | '+' => some plus
  | '-' => some minus
  | '*' => some times
  | '/' => some divide
  | _ => none

def symbol : Operator → Char
  | plus => '+'
  | minus => '-'
  | times => '*'
  | divide => '/'

@[simp] theorem ofSymbol?_symbol (op : Operator) : ofSymbol? op.symbol = some op := by
  cases op <;> rfl

/-- The sum of two numbers is a number; anything else is joined as text. -/
def sum : Value → Value → Value
  | .number m, .number n => .number (m + n)
  | v, w => .text (v.toText ++ w.toText)

/-- The result of an operator. Only `plus` works on texts. -/
def apply (op : Operator) (v w : Value) : Value :=
  match op with
  | plus => sum v w
  | minus => .number (v.toNumber - w.toNumber)
  | times => .number (v.toNumber * w.toNumber)
  | divide => .number (v.toNumber / w.toNumber)

end Operator

end VexLang
