import VexLang.Node.Parser

/-!
# The grammar that the rules read by

For every rule, the tokens it can take and the nodes it makes of them, whatever the rules
look at beyond these tokens.
-/

namespace VexLang

/-! ## Tokens that are read by themselves -/

namespace Lexeme

/-- The node that a single lexeme stands for. -/
def leaf? : Lexeme → Option Node
  | number spelling => some (numberNode spelling)
  | text content => some (.text content)
  | boolean value => some (.literal (.boolean value))
  | null => some (.literal .null)
  | undefined => some .undefined
  | bussin => some .bussin
  | symbol c => if delimiters.contains c then none else some (.text (String.singleton c))
  | random | word _ => none

end Lexeme

/-- The node that a word stands for without anything that follows. -/
def Role.leaf? : Role → Option Node
  | manual => some .manual
  | openFile => some .openFile
  | cut => some (.cut none)
  | cast name status => some (.cast (.identifier name) status)
  | identifier name => some (.identifier name)
  | branch _ | declaration _ | assignment | loop | banish | call _ => none

def Token.isDelimiter (t : Token) : Bool :=
  match t.lexeme with
  | .symbol c => delimiters.contains c
  | _ => false

/-- No tokens, or a single one that satisfies the condition. -/
inductive AtMostOne (p : Token → Bool) : List Token → Prop
  | none : AtMostOne p []
  | one {t : Token} (ht : p t = true) : AtMostOne p [t]

namespace Parser

/-- What a rule reads. -/
inductive Part where
  | term (inPhrase : Bool)
  | word (role : Role)
  | group
  | bounds
  | branch (kind : BranchKind)
  | condition
  | alternate
  | statements (inBlock : Bool)
  | declaration (constant : Bool)
  | assignment
  | definition
  | loop
  | loopCount
  | parameters
  | phrase
  | phraseParts

/-- The tokens, taken for the part, make the nodes. -/
inductive Parses : Part → List Token → List Node → Prop
  | nothing {inPhrase : Bool} : Parses (.term inPhrase) [] []
  | cast {inPhrase : Bool} {t colon : Token} {operand : Node} {status : String} {line : Nat}
      (hoperand : castOperand? t.lexeme = some operand) (hcolon : colon.isSymbol ':' = true) :
      Parses (.term inPhrase) [t, colon, ⟨.word status, line⟩] [.cast operand (.ofWord status)]
  | leaf {inPhrase : Bool} {t : Token} {node : Node} (ht : t.lexeme.leaf? = some node) :
      Parses (.term inPhrase) [t] [node]
  | random {inPhrase : Bool} {t : Token} {us : List Token} {nodes : List Node}
      (ht : t.lexeme = .random) (hus : Parses .bounds us nodes) :
      Parses (.term inPhrase) (t :: us) nodes
  | bracket {inPhrase : Bool} {t : Token} {us : List Token} {nodes : List Node}
      (ht : t.isSymbol '(' = true) (hus : Parses .group us nodes) :
      Parses (.term inPhrase) (t :: us) nodes
  | word {inPhrase : Bool} {t : Token} {name : String} {us : List Token} {nodes : List Node}
      (ht : t.isWord name = true) (hus : Parses (.word (.ofWord inPhrase name)) us nodes) :
      Parses (.term inPhrase) (t :: us) nodes
  | simple {role : Role} {node : Node} (hrole : role.leaf? = some node) :
      Parses (.word role) [] [node]
  | cut {target : String} {line : Nat} :
      Parses (.word .cut) [⟨.text target, line⟩] [.cut (some target)]
  | banish {target : String} {line : Nat} :
      Parses (.word .banish) [⟨.text target, line⟩] [.banish target]
  | branch {kind : BranchKind} {us : List Token} {nodes : List Node}
      (hus : Parses (.branch kind) us nodes) : Parses (.word (.branch kind)) us nodes
  | declaration {constant : Bool} {us : List Token} {nodes : List Node}
      (hus : Parses (.declaration constant) us nodes) :
      Parses (.word (.declaration constant)) us nodes
  | assignment {us : List Token} {nodes : List Node} (hus : Parses .assignment us nodes) :
      Parses (.word .assignment) us nodes
  | loop {us : List Token} {nodes : List Node} (hus : Parses .loop us nodes) :
      Parses (.word .loop) us nodes
  | call {name : String} {us : List Token} {params : List Node}
      (hus : Parses .parameters us params) : Parses (.word (.call name)) us [.call name params]
  | single {us closing : List Token} {nodes : List Node} (hus : Parses (.term false) us nodes)
      (hclosing : AtMostOne (·.isSymbol ')') closing) : Parses .group (us ++ closing) nodes
  | joined {us vs closing : List Token} {t : Token} {left right : Option Node}
      {junction : Junction} (hus : Parses (.term false) us left.toList)
      (ht : Junction.ofTokens? [t] = some junction)
      (hvs : Parses (.term false) vs right.toList)
      (hclosing : AtMostOne (·.isSymbol ')') closing) :
      Parses .group (us ++ t :: vs ++ closing)
        [junction.join (left.getD .undefined) (right.getD .undefined)]
  | bounds {us vs : List Token} {low high : Option Node}
      (hus : Parses (.term false) us low.toList) (hvs : Parses (.term false) vs high.toList) :
      Parses .bounds (us ++ vs) [.random (low.getD .undefined) (high.getD .undefined)]
  | chain {kind : BranchKind} {us opening vs xs : List Token} {test : Node} {body : List Node}
      {next : Option Node} (hus : Parses .condition us [test])
      (hopening : AtMostOne (·.isSymbol '\x7b') opening)
      (hvs : Parses (.statements true) vs body) (hxs : Parses .alternate xs next.toList) :
      Parses (.branch kind) (us ++ opening ++ vs ++ xs) [.branch kind test body next]
  | test {us : List Token} {subject : Option Node}
      (hus : Parses (.term false) us subject.toList) :
      Parses .condition us [subject.getD .undefined]
  | comparison {us vs : List Token} {t : Token} {left right : Option Node}
      (hus : Parses (.term false) us left.toList) (ht : t.isEquality = true)
      (hvs : Parses (.term false) vs right.toList) :
      Parses .condition (us ++ t :: vs)
        [.comparison (left.getD .undefined) (right.getD .undefined)]
  | noAlternate : Parses .alternate [] []
  | elseif {t : Token} {us : List Token} {nodes : List Node} (ht : t.isWord "elseif" = true)
      (hus : Parses (.term false) (t :: us) nodes) : Parses .alternate (t :: us) nodes
  | otherwise {t u : Token} {us : List Token} {body : List Node} (ht : t.isWord "else" = true)
      (hu : u.isSymbol '\x7b' = true) (hus : Parses (.statements true) us body) :
      Parses .alternate (t :: u :: us)
        [.branch .continuing (.literal (.boolean true)) body none]
  | noStatements {inBlock : Bool} : Parses (.statements inBlock) [] []
  | closed {t : Token} (ht : t.isSymbol '\x7d' = true) : Parses (.statements true) [t] []
  | skipped {inBlock : Bool} {t : Token} {us : List Token} {nodes : List Node}
      (ht : t.isDelimiter = true) (hus : Parses (.statements inBlock) us nodes) :
      Parses (.statements inBlock) (t :: us) nodes
  | statement {inBlock : Bool} {us vs : List Token} {first : Option Node} {nodes : List Node}
      (hus : Parses (.term false) us first.toList) (hvs : Parses (.statements inBlock) vs nodes) :
      Parses (.statements inBlock) (us ++ vs) (first.toList ++ nodes)
  | declared {constant : Bool} {us vs : List Token} {name : String} {line : Nat} {value : Node}
      (hus : AtMostOne (fun t ↦ constant && t.isWord "this") us)
      (hvs : Parses .definition vs [value]) :
      Parses (.declaration constant) (us ++ ⟨.text name, line⟩ :: vs)
        [.declaration name value constant]
  | assigned {us : List Token} {name : String} {line : Nat} {value : Node}
      (hus : Parses .definition us [value]) :
      Parses .assignment (⟨.text name, line⟩ :: us) [.assignment name value]
  | definition {us vs : List Token} {value : Option Node} (hus : AtMostOne Token.isEquality us)
      (hvs : Parses .phrase vs value.toList) :
      Parses .definition (us ++ vs) [value.getD (.text "")]
  | repeated {us vs : List Token} {t : Token} {times : Option Node} {body : List Node}
      (hus : Parses .loopCount us times.toList) (ht : t.isSymbol '\x7b' = true)
      (hvs : Parses (.statements true) vs body) :
      Parses .loop (us ++ t :: vs) [.loop times body]
  | noCount : Parses .loopCount [] []
  | count {t : Token} {us closing : List Token} {nodes : List Node} (ht : t.isSymbol '[' = true)
      (hus : Parses (.term false) us nodes) (hclosing : AtMostOne (·.isSymbol ']') closing) :
      Parses .loopCount (t :: us ++ closing) nodes
  | noParameters : Parses .parameters [] []
  | separator {t : Token} {us : List Token} {nodes : List Node} (ht : t.isDelimiter = true)
      (hus : Parses .parameters us nodes) : Parses .parameters (t :: us) nodes
  | parameter {us vs : List Token} {first : Option Node} {nodes : List Node}
      (hus : Parses .phrase us first.toList) (hvs : Parses .parameters vs nodes) :
      Parses .parameters (us ++ vs) (first.toList ++ nodes)
  | noPhrase {us : List Token} (hus : Parses (.term true) us []) : Parses .phrase us []
  | alone {us : List Token} {node : Node} (hus : Parses (.term true) us [node])
      (hnode : node.standsAlone = true) : Parses .phrase us [node]
  | parts {us vs : List Token} {node : Node} {more : List Node}
      (hus : Parses (.term true) us [node]) (hnode : node.standsAlone = false)
      (hvs : Parses .phraseParts vs more) : Parses .phrase (us ++ vs) [joinParts node more]
  | noParts {us : List Token} (hus : Parses (.term true) us []) : Parses .phraseParts us []
  | part {us vs : List Token} {node : Node} {more : List Node}
      (hus : Parses (.term true) us [node]) (hvs : Parses .phraseParts vs more) :
      Parses .phraseParts (us ++ vs) (node :: more)

end Parser

end VexLang
