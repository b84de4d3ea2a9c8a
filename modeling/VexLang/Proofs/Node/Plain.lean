import VexLang.Node.Text
import VexLang.Run.Evaluation
import VexLang.Token.Lexer

/-!
# Plain programs

The trees whose text can be read back, and the lexemes of that text. What keeps
a tree from being plain is a spelling that the text cannot carry: a quote inside
quoted text, a number with an exponent, a phrase that would fall apart.
-/

namespace VexLang

/-- A number whose text is spelled like a number token and reads back as the number. -/
structure PlainNumber (n : Float) : Prop where
  parts : ∀ c ∈ (numberText n).toList, isNumberPart c = true
  start : ∃ c ∈ (numberText n).toList.head?, c.isDigit = true
  readBack : leadingNumber (numberText n) = n

/-- A name spelled with letters, digits and underscores that does not start with a digit. -/
structure PlainName (name : String) : Prop where
  parts : ∀ c ∈ name.toList, (c.isAlphanum || c == '_') = true
  start : ∃ c ∈ name.toList.head?, isWordStart c = true

theorem PlainName.of_all {name : String}
    (hparts : (name.toList.all fun c ↦ c.isAlphanum || c == '_') = true)
    (hstart : name.toList.head?.any isWordStart = true) : PlainName name where
  parts := List.all_eq_true.mp hparts
  start := (Option.any_eq_true _ _).mp hstart

def plainStatuses : List Status :=
  [.num, .str, .bool, .var]

theorem plainName_status {status : Status} (hs : status ∈ plainStatuses) :
    PlainName status.word := by
  simp only [plainStatuses, List.mem_cons, List.not_mem_nil, or_false] at hs
  rcases hs with rfl | rfl | rfl | rfl <;> exact .of_all rfl rfl

inductive PlainOperand : Node → Prop where
  | number {n : Float} (hn : PlainNumber n) : PlainOperand (.literal (.number n))
  | text {s : String} (hs : '"' ∉ s.toList) : PlainOperand (.literal (.text s))
  | identifier {name : String} (hname : PlainName name) : PlainOperand (.identifier name)

inductive PlainTerm : Node → Prop where
  | number {n : Float} (hn : PlainNumber n) : PlainTerm (.literal (.number n))
  | text {s : String} (hs : '"' ∉ s.toList) : PlainTerm (.literal (.text s))
  | boolean (b : Bool) : PlainTerm (.literal (.boolean b))
  | null : PlainTerm (.literal .null)
  | undefined : PlainTerm (.literal .undefined)
  | cast {operand : Node} {status : Status} (ho : PlainOperand operand)
      (hs : status ∈ plainStatuses) : PlainTerm (.cast operand status)
  | comparison {left right : Node} (hl : PlainTerm left) (hr : PlainTerm right) :
      PlainTerm (.comparison left right)
  | arithmetic {left right : Node} (op : Operator) (hl : PlainTerm left) (hr : PlainTerm right) :
      PlainTerm (.arithmetic left op right)
  | random {low high : Node} (hl : PlainTerm low) (hh : PlainTerm high) :
      PlainTerm (.random low high)

inductive PlainValue : Node → Prop where
  | term {t : Node} (ht : PlainTerm t) : PlainValue t
  | phrase {first : Node} {more : List Node} (hfirst : PlainTerm first)
      (hjoins : first.standsAlone = false) (hmore : ∀ t ∈ more, PlainTerm t) (hne : more ≠ []) :
      PlainValue (.phrase (first :: more))

/-- Plain statements are of the kind `opening`. The conditions that continue a chain are
plain, too, but only where the chain has them. -/
inductive PlainNode : BranchKind → Node → Prop where
  | declaration {name : String} {value : Node} (constant : Bool) (hname : '\'' ∉ name.toList)
      (hvalue : PlainValue value) : PlainNode .opening (.declaration name value constant)
  | assignment {name : String} {value : Node} (hname : '\'' ∉ name.toList)
      (hvalue : PlainValue value) : PlainNode .opening (.assignment name value)
  | print {params : List Node} (hparams : ∀ p ∈ params, PlainValue p) :
      PlainNode .opening (.call printCommand params)
  | loop {times : Option Node} {body : List Node} (htimes : ∀ t ∈ times, PlainTerm t)
      (hbody : ∀ s ∈ body, PlainNode .opening s) : PlainNode .opening (.loop times body)
  | branch {kind : BranchKind} {condition : Node} {body : List Node} {alternate : Option Node}
      (hcondition : PlainTerm condition) (hbody : ∀ s ∈ body, PlainNode .opening s)
      (halternate : ∀ a ∈ alternate, PlainNode .continuing a) :
      PlainNode kind (.branch kind condition body alternate)
  | cut {target : Option String} (htarget : ∀ t ∈ target, '\'' ∉ t.toList) :
      PlainNode .opening (.cut target)
  | banish {target : String} (htarget : '\'' ∉ target.toList) :
      PlainNode .opening (.banish target)
  | bussin : PlainNode .opening .bussin
  | manual : PlainNode .opening .manual
  | openFile : PlainNode .opening .openFile

def Program.Plain (program : Program) : Prop :=
  ∀ s ∈ program, PlainNode .opening s

/-! ## The lexemes of a tree -/

def literalLexeme : Value → Lexeme
  | .number n => .number (numberText n)
  | .text s => .text s
  | .boolean b => .boolean b
  | .null => .null
  | .undefined => .undefined

mutual

def Node.lexemes : Node → List Lexeme
  | .literal value => [literalLexeme value]
  | .identifier name => [.ofWord name]
  | .cast (.identifier name) status => [.ofWord (name ++ ":" ++ status.word)]
  | .cast operand status => operand.lexemes ++ [.symbol ':', .ofWord status.word]
  | .phrase parts => lexemesEach parts
  | .comparison left right =>
    .symbol '(' :: left.lexemes ++ .word "is" :: right.lexemes ++ [.symbol ')']
  | .arithmetic left op right =>
    .symbol '(' :: left.lexemes ++ .symbol op.symbol :: right.lexemes ++ [.symbol ')']
  | .random low high => .random :: low.lexemes ++ high.lexemes
  | .declaration name value constant =>
    .word (if constant then "fr" else "this") :: .text name :: .word "is" :: value.lexemes
  | .assignment name value => .word "set" :: .text name :: .word "is" :: value.lexemes
  | .call name params => .ofWord (name ++ "!") :: lexemesList params
  | .loop times body =>
    .word "loop!" :: lexemesTimes times ++ .symbol '\x7b' :: lexemesEach body ++ [.symbol '\x7d']
  | .branch kind condition body alternate =>
    .word kind.word :: condition.lexemes ++ .symbol '\x7b' :: lexemesEach body
      ++ .symbol '\x7d' :: lexemesAlternate alternate
  | .cut none => [.word "cut!"]
  | .cut (some target) => [.word "cut!", .text target]
  | .banish target => [.word "banish!", .text target]
  | .bussin => [.bussin]
  | .manual => [.word "vx"]
  | .openFile => [.word "openfile"]

def lexemesEach : List Node → List Lexeme
  | [] => []
  | node :: nodes => node.lexemes ++ lexemesEach nodes

/-- The lexemes of nodes with commas between them. -/
def lexemesList : List Node → List Lexeme
  | [] => []
  | node :: nodes => node.lexemes ++ lexemesMore nodes

/-- The lexemes of nodes with a comma before each of them. -/
def lexemesMore : List Node → List Lexeme
  | [] => []
  | node :: nodes => .symbol ',' :: node.lexemes ++ lexemesMore nodes

def lexemesTimes : Option Node → List Lexeme
  | none => []
  | some times => .symbol '[' :: times.lexemes ++ [.symbol ']']

def lexemesAlternate : Option Node → List Lexeme
  | none => []
  | some alternate => alternate.lexemes

end

end VexLang
