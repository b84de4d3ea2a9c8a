import VexLang.Proofs.Node.Rules

/-!
# The shape of what is read

Everywhere in a program that was read from tokens, phrases stand only where a value is stored
or handed to a command, casts have simple operands, and commands that have a rule of their own
are not calls. A condition is continued by another condition, with one exception: where the
word that continues it is followed by a colon and another word, the three are a cast.
-/

namespace VexLang

mutual

/-- The nodes inside a node, at any depth. -/
def Node.inner : Node → List Node
  | .literal _ | .identifier _ | .cut _ | .banish _ | .bussin | .manual | .openFile => []
  | .cast operand _ => operand :: operand.inner
  | .phrase parts => nodesOf parts
  | .comparison left right => left :: left.inner ++ right :: right.inner
  | .arithmetic left _ right => left :: left.inner ++ right :: right.inner
  | .random low high => low :: low.inner ++ high :: high.inner
  | .declaration _ value _ => value :: value.inner
  | .assignment _ value => value :: value.inner
  | .call _ params => nodesOf params
  | .loop times body => optionNodes times ++ nodesOf body
  | .branch _ condition body alternate =>
    condition :: condition.inner ++ (nodesOf body ++ optionNodes alternate)

/-- The nodes of a list and all nodes inside them. -/
def nodesOf : List Node → List Node
  | [] => []
  | node :: nodes => node :: node.inner ++ nodesOf nodes

def optionNodes : Option Node → List Node
  | none => []
  | some node => node :: node.inner

end

theorem nodesOf_append (xs ys : List Node) : nodesOf (xs ++ ys) = nodesOf xs ++ nodesOf ys := by
  induction xs with
  | nil => rfl
  | cons x xs ih => simp only [List.cons_append, nodesOf, ih, List.append_assoc]

theorem nodesOf_singleton (node : Node) : nodesOf [node] = node :: node.inner := by
  simp only [nodesOf, List.append_nil]

theorem nodesOf_toList (node : Option Node) : nodesOf node.toList = optionNodes node := by
  cases node with
  | none => rfl
  | some node => exact nodesOf_singleton node

namespace Node

def isPhrase : Node → Bool
  | phrase _ => true
  | _ => false

/-- Can the node be the operand of a cast? -/
def isCastable : Node → Bool
  | literal (.number _) | literal (.text _) | literal (.boolean _) | identifier _ => true
  | _ => false

/-- Does the node continue a chain of conditions? -/
def continues : Node → Bool
  | branch .continuing .. => true
  | _ => false

def alternate? : Node → Option Node
  | branch _ _ _ alternate => alternate
  | _ => none

end Node

/-- The commands that are no calls. -/
def ruledCommands : List String :=
  ["loop", "cut", "banish"]

/-- What may stand directly inside a node. There is no phrase but as the value of a name and as
a parameter. -/
def Node.WellShaped : Node → Prop
  | .cast operand _ => operand.isCastable = true
  | .phrase parts => 2 ≤ parts.length ∧ (∀ part ∈ parts, part.isPhrase = false) ∧
      ∀ first ∈ parts.head?, first.standsAlone = false
  | .comparison left right => left.isPhrase = false ∧ right.isPhrase = false
  | .arithmetic left _ right => left.isPhrase = false ∧ right.isPhrase = false
  | .random low high => low.isPhrase = false ∧ high.isPhrase = false
  | .call name _ => name ∉ ruledCommands
  | .loop times body => (∀ count ∈ times, count.isPhrase = false) ∧
      ∀ node ∈ body, node.isPhrase = false
  | .branch _ condition body alternate => condition.isPhrase = false ∧
      (∀ node ∈ body, node.isPhrase = false) ∧ ∀ next ∈ alternate, next.isPhrase = false
  | .literal _ | .identifier _ | .declaration .. | .assignment .. => True
  | .cut _ | .banish _ | .bussin | .manual | .openFile => True

/-- What can follow the body of a condition. -/
inductive Alternate (us : List Token) : Node → Prop
  | continued (test : Node) (body : List Node) (next : Option Node) :
      Alternate us (.branch .continuing test body next)
  /-- The word that continues the chain is the operand of a cast. -/
  | captured {t colon : Token} {status : String} {line : Nat} (ht : t.isWord "elseif" = true)
      (hcolon : colon.isSymbol ':' = true) (hus : [t, colon, ⟨.word status, line⟩] <:+: us) :
      Alternate us (.cast (.identifier "elseif") (.ofWord status))

theorem Alternate.widen {us vs : List Token} {node : Node} (h : Alternate us node)
    (hus : us <:+: vs) : Alternate vs node := by
  cases h with
  | continued test body next => exact .continued test body next
  | captured ht hcolon h => exact .captured ht hcolon (h.trans hus)

theorem Alternate.isPhrase_eq {us : List Token} {node : Node} (h : Alternate us node) :
    node.isPhrase = false := by
  cases h <;> rfl

/-- What is said of every node of a program. -/
structure Node.Sound (us : List Token) (node : Node) : Prop where
  shape : node.WellShaped
  alternate : ∀ next ∈ node.alternate?, Alternate us next

/-- All nodes, at any depth, are sound, and unless phrases are allowed none of the outermost
nodes is one. -/
structure Tidy (phrases : Bool) (us : List Token) (nodes : List Node) : Prop where
  terms : phrases = false → ∀ node ∈ nodes, node.isPhrase = false
  sound : ∀ node ∈ nodesOf nodes, node.Sound us

namespace Tidy

variable {phrases : Bool} {us vs : List Token} {node : Node} {nodes : List Node}

theorem nil : Tidy phrases us [] :=
  ⟨fun _ ↦ List.forall_mem_nil _, List.forall_mem_nil _⟩

theorem widen (h : Tidy phrases us nodes) (hus : us <:+: vs) : Tidy phrases vs nodes := by
  refine ⟨h.terms, fun node hnode ↦ ?_⟩
  obtain ⟨hshape, halternate⟩ := h.sound node hnode
  exact ⟨hshape, fun next hnext ↦ (halternate next hnext).widen hus⟩

theorem followed (h : Tidy phrases us nodes) (vs : List Token) : Tidy phrases (us ++ vs) nodes :=
  h.widen (List.prefix_append us vs).isInfix

theorem preceded (us : List Token) (h : Tidy phrases vs nodes) : Tidy phrases (us ++ vs) nodes :=
  h.widen (List.suffix_append us vs).isInfix

theorem weaken (h : Tidy false us nodes) : Tidy phrases us nodes :=
  ⟨fun _ ↦ h.terms rfl, h.sound⟩

theorem append (h : Tidy phrases us nodes) {nodes' : List Node} (h' : Tidy phrases us nodes') :
    Tidy phrases us (nodes ++ nodes') := by
  refine ⟨fun hterms ↦ List.forall_mem_append.mpr ⟨h.terms hterms, h'.terms hterms⟩, ?_⟩
  rw [nodesOf_append]
  exact List.forall_mem_append.mpr ⟨h.sound, h'.sound⟩

/-- A node is made of what stands inside it. -/
theorem made (hterm : phrases = false → node.isPhrase = false) (hnode : node.Sound us)
    (hinner : ∀ n ∈ node.inner, n.Sound us) : Tidy phrases us [node] := by
  refine ⟨fun h ↦ List.forall_mem_singleton.mpr (hterm h), ?_⟩
  rw [nodesOf_singleton]
  exact List.forall_mem_cons.mpr ⟨hnode, hinner⟩

theorem isPhrase_eq (h : Tidy false us [node]) : node.isPhrase = false :=
  h.terms rfl node List.mem_cons_self

theorem sound_self (h : Tidy phrases us [node]) : ∀ n ∈ node :: node.inner, n.Sound us := by
  rw [← nodesOf_singleton]
  exact h.sound

theorem operand {node : Option Node} (h : Tidy phrases us node.toList) (v : Value) :
    Tidy phrases us [node.getD (.literal v)] := by
  cases node with
  | none => exact .made (fun _ ↦ rfl) ⟨trivial, nofun⟩ nofun
  | some node => exact h

/-- A node with nothing inside. -/
theorem leaf (hterm : node.isPhrase = false) (hshape : node.WellShaped)
    (halternate : node.alternate? = none) (hinner : node.inner = []) : Tidy phrases us [node] := by
  refine .made (fun _ ↦ hterm) ⟨hshape, ?_⟩ ?_
  · rw [halternate]
    exact nofun
  · rw [hinner]
    exact List.forall_mem_nil _

end Tidy

/-! ## What the rules make -/

theorem Tidy.of_lexeme {l : Lexeme} {node : Node} (h : l.leaf? = some node) (us : List Token) :
    Tidy false us [node] := by
  cases l with
  | random | word => cases h
  | symbol c =>
      rw [Lexeme.leaf?] at h
      split at h
      · cases h
      · cases h
        exact .leaf rfl trivial rfl rfl
  | _ =>
      cases h
      exact .leaf rfl trivial rfl rfl

theorem isCastable_of_castOperand? {l : Lexeme} {operand : Node}
    (h : castOperand? l = some operand) : operand.isCastable = true := by
  cases l <;> cases h <;> rfl

theorem inner_of_isCastable {node : Node} (h : node.isCastable = true) :
    node.inner = [] ∧ node.WellShaped ∧ node.alternate? = none := by
  cases node with
  | literal | identifier => exact ⟨rfl, trivial, rfl⟩
  | _ => cases h

theorem Tidy.cast {operand : Node} (h : operand.isCastable = true) (status : Status)
    (us : List Token) : Tidy false us [.cast operand status] := by
  obtain ⟨hinner, hshape, halternate⟩ := inner_of_isCastable h
  refine .made (fun _ ↦ rfl) ⟨h, nofun⟩ ?_
  rw [Node.inner, hinner, List.forall_mem_singleton]
  refine ⟨hshape, ?_⟩
  rw [halternate]
  exact nofun

/-- A node made of two operands. -/
theorem Tidy.pair {us : List Token} {left right node : Node} (hleft : Tidy false us [left])
    (hright : Tidy false us [right]) (hterm : node.isPhrase = false)
    (hshape : left.isPhrase = false ∧ right.isPhrase = false → node.WellShaped)
    (halternate : node.alternate? = none)
    (hinner : node.inner = left :: left.inner ++ right :: right.inner) :
    Tidy false us [node] := by
  refine .made (fun _ ↦ hterm) ⟨hshape ⟨hleft.isPhrase_eq, hright.isPhrase_eq⟩, ?_⟩ ?_
  · rw [halternate]
    exact nofun
  · rw [hinner]
    exact List.forall_mem_append.mpr ⟨hleft.sound_self, hright.sound_self⟩

theorem Tidy.join {us : List Token} {left right : Node} (hleft : Tidy false us [left])
    (hright : Tidy false us [right]) (junction : Junction) :
    Tidy false us [junction.join left right] := by
  cases junction with
  | equality => exact hleft.pair hright rfl id rfl rfl
  | operator op => exact hleft.pair hright rfl id rfl rfl

theorem Tidy.branch {us : List Token} {test : Node} {body : List Node} {next : Option Node}
    (kind : BranchKind) (htest : Tidy false us [test]) (hbody : Tidy false us body)
    (hnext : Tidy false us next.toList) (halternate : ∀ node ∈ next.toList, Alternate us node) :
    Tidy false us [.branch kind test body next] := by
  have hsound := hnext.sound
  rw [nodesOf_toList] at hsound
  simp only [Option.mem_toList] at halternate
  refine .made (fun _ ↦ rfl) ⟨⟨htest.isPhrase_eq, hbody.terms rfl, ?_⟩, halternate⟩ ?_
  · exact fun node hnode ↦ (halternate node hnode).isPhrase_eq
  · rw [Node.inner]
    exact List.forall_mem_append.mpr
      ⟨htest.sound_self, List.forall_mem_append.mpr ⟨hbody.sound, hsound⟩⟩

theorem Tidy.loop {us : List Token} {times : Option Node} {body : List Node}
    (htimes : Tidy false us times.toList) (hbody : Tidy false us body) :
    Tidy false us [.loop times body] := by
  have hsound := htimes.sound
  have hterms := htimes.terms rfl
  rw [nodesOf_toList] at hsound
  simp only [Option.mem_toList] at hterms
  refine .made (fun _ ↦ rfl) ⟨⟨hterms, hbody.terms rfl⟩, nofun⟩ ?_
  rw [Node.inner]
  exact List.forall_mem_append.mpr ⟨hsound, hbody.sound⟩

theorem Tidy.parts {us : List Token} {first : Node} {more : List Node}
    (hfirst : Tidy false us [first]) (hmore : Tidy false us more)
    (halone : first.standsAlone = false) : Tidy true us [joinParts first more] := by
  cases more with
  | nil => exact hfirst.weaken
  | cons second more =>
      have hparts : Tidy false us (first :: second :: more) := hfirst.append hmore
      refine .made nofun ⟨⟨?_, hparts.terms rfl, ?_⟩, nofun⟩ hparts.sound
      · simp only [List.length_cons]
        omega
      · intro node hnode
        obtain rfl := Option.some.inj hnode
        exact halone

/-- The role of a word whose command has a rule of its own is not a call. -/
def Role.Unruled : Role → Prop
  | call name => name ∉ ruledCommands
  | _ => True

theorem Role.unruled_ofPlainWord (word : String) : (ofPlainWord word).Unruled := by
  unfold ofPlainWord
  split
  · rename_i name _
    unfold ofCommand
    split
    · trivial
    · trivial
    · trivial
    · rename_i hloop hcut hbanish
      simpa [Role.Unruled, ruledCommands] using ⟨hloop, hcut, hbanish⟩
  · split <;> trivial

theorem Role.unruled_ofWord (inPhrase : Bool) (word : String) : (ofWord inPhrase word).Unruled := by
  unfold ofWord
  split
  · split
    · exact unruled_ofPlainWord _
    · trivial
  · split
    · exact unruled_ofPlainWord _
    · trivial
  · trivial
  · trivial
  · trivial
  · trivial
  · trivial
  · exact unruled_ofPlainWord _

theorem Tidy.of_role {role : Role} {node : Node} (h : role.leaf? = some node) (us : List Token) :
    Tidy false us [node] := by
  cases role with
  | branch | declaration | assignment | loop | banish | call => cases h
  | cast name status =>
      cases h
      exact .cast rfl status us
  | _ =>
      cases h
      exact .leaf rfl trivial rfl rfl

namespace Parser

/-- Can the part be a phrase, or hold one among its outermost nodes? -/
def Part.phrases : Part → Bool
  | definition | parameters | phrase => true
  | _ => false

def Part.Unruled : Part → Prop
  | word role => role.Unruled
  | _ => True

/-- Behind a body, the word that continues a chain opens a condition or is cast. -/
theorem Parses.alternate {us : List Token} {nodes : List Node} (h : Parses .alternate us nodes) :
    ∀ next ∈ nodes, Alternate us next := by
  cases h with
  | noAlternate => exact List.forall_mem_nil _
  | otherwise => exact List.forall_mem_singleton.mpr (.continued _ _ _)
  | @elseif t us nodes ht hterm =>
      have hlexeme : t.lexeme = .word "elseif" := of_decide_eq_true ht
      cases hterm with
      | @cast _ _ colon operand status line hoperand hcolon =>
          rw [hlexeme] at hoperand
          cases hoperand
          exact List.forall_mem_singleton.mpr (.captured ht hcolon List.infix_rfl)
      | leaf hleaf =>
          rw [hlexeme] at hleaf
          cases hleaf
      | random hrandom =>
          rw [hlexeme] at hrandom
          cases hrandom
      | bracket hbracket =>
          rw [Token.isSymbol, hlexeme] at hbracket
          cases of_decide_eq_true hbracket
      | word hname hus =>
          have hword := (of_decide_eq_true hname).symm.trans hlexeme
          cases hword
          cases hus with
          | simple hrole => cases hrole
          | branch hbranch =>
              cases hbranch
              exact List.forall_mem_singleton.mpr (.continued _ _ _)

theorem Parses.tidy {part : Part} {us : List Token} {nodes : List Node} (h : Parses part us nodes)
    (hpart : part.Unruled) : Tidy part.phrases us nodes := by
  induction h with
  | nothing | noAlternate | noStatements | closed | noCount | noParameters => exact .nil
  | cast hoperand _ => exact .cast (isCastable_of_castOperand? hoperand) _ _
  | leaf ht => exact .of_lexeme ht _
  | @random _ t _ _ _ _ ih | @bracket _ t _ _ _ _ ih => exact (ih trivial).preceded [t]
  | @word _ t _ _ _ _ _ ih => exact (ih (Role.unruled_ofWord _ _)).preceded [t]
  | simple hrole => exact .of_role hrole _
  | cut | banish => exact .leaf rfl trivial rfl rfl
  | branch _ ih | declaration _ ih | assignment _ ih | loop _ ih => exact ih trivial
  | call _ ih => exact .made (fun _ ↦ rfl) ⟨hpart, nofun⟩ (ih trivial).sound
  | single _ _ ih => exact (ih trivial).followed _
  | @joined us vs closing t left right junction _ _ _ _ ihus ihvs =>
      have hleft := ((ihus trivial).operand .undefined).followed (t :: vs)
      have hright := (((ihvs trivial).operand .undefined).preceded [t]).preceded us
      exact (hleft.join hright junction).followed closing
  | @bounds us vs low high _ _ ihus ihvs =>
      have hlow := ((ihus trivial).operand .undefined).followed vs
      have hhigh := ((ihvs trivial).operand .undefined).preceded us
      exact hlow.pair hhigh rfl id rfl rfl
  | @chain kind us opening vs xs test body next _ _ _ hxs ihus ihvs ihxs =>
      have htest := (((ihus trivial).followed opening).followed vs).followed xs
      have hbody := ((ihvs trivial).preceded (us ++ opening)).followed xs
      have hnext := (ihxs trivial).preceded (us ++ opening ++ vs)
      refine htest.branch kind hbody hnext fun node hnode ↦ ?_
      exact (hxs.alternate node hnode).widen (List.suffix_append _ _).isInfix
  | test _ ih => exact (ih trivial).operand .undefined
  | @comparison us vs t left right _ _ _ ihus ihvs =>
      have hleft := ((ihus trivial).operand .undefined).followed (t :: vs)
      have hright := (((ihvs trivial).operand .undefined).preceded [t]).preceded us
      exact hleft.pair hright rfl id rfl rfl
  | elseif _ _ ih => exact ih trivial
  | @otherwise t u us body _ _ _ ih =>
      have htest : Tidy false (t :: u :: us) [.literal (.boolean true)] :=
        .leaf rfl trivial rfl rfl
      exact htest.branch .continuing ((ih trivial).preceded [t, u]) .nil nofun
  | @skipped _ t _ _ _ _ ih | @separator t _ _ _ _ ih => exact (ih trivial).preceded [t]
  | @statement _ us vs _ _ _ _ ihus ihvs | @parameter us vs _ _ _ _ ihus ihvs
  | @part us vs _ _ _ _ ihus ihvs =>
      exact ((ihus trivial).followed vs).append ((ihvs trivial).preceded us)
  | @declared _ us _ name line _ _ _ ih =>
      have hvalue := ((ih trivial).preceded [⟨.text name, line⟩]).preceded us
      exact .made (fun _ ↦ rfl) ⟨trivial, nofun⟩ hvalue.sound_self
  | @assigned _ name line _ _ ih =>
      have hvalue := (ih trivial).preceded [⟨.text name, line⟩]
      exact .made (fun _ ↦ rfl) ⟨trivial, nofun⟩ hvalue.sound_self
  | definition _ _ ih => exact ((ih trivial).operand (.text "")).preceded _
  | @repeated us vs t _ _ _ _ _ ihus ihvs =>
      have htimes := (ihus trivial).followed (t :: vs)
      exact htimes.loop (((ihvs trivial).preceded [t]).preceded us)
  | @count t us closing _ _ _ _ ih => exact ((ih trivial).preceded [t]).followed closing
  | noParts _ ih => exact ih trivial
  | noPhrase _ ih | alone _ _ ih => exact (ih trivial).weaken
  | @parts us vs _ _ _ hnode _ ihus ihvs =>
      exact ((ihus trivial).followed vs).parts ((ihvs trivial).preceded us) hnode

end Parser

theorem parses_of_ofTokens {ts : List Token} {program : Program}
    (h : Program.ofTokens ts = .ok program) : Parser.Parses (.statements false) ts program := by
  obtain ⟨r, hr, rfl⟩ := Parser.exists_of_map_eq_ok h
  obtain ⟨us, rest, rfl, hus, hparses⟩ := Parser.starts_of_read (.statements false) hr
  have hall := Parser.count_statements hr
  obtain rfl : rest = [] := by
    rw [List.length_append] at hall
    exact List.eq_nil_of_length_eq_zero (by omega)
  rwa [List.append_nil]

theorem tidy_of_ofTokens {ts : List Token} {program : Program}
    (h : Program.ofTokens ts = .ok program) : Tidy false ts program :=
  (parses_of_ofTokens h).tidy trivial

/-- The word that continues a chain of conditions, a colon and another word. -/
def HasCapture (ts : List Token) : Prop :=
  ∃ t colon status line, t.isWord "elseif" = true ∧ colon.isSymbol ':' = true ∧
    [t, colon, ⟨.word status, line⟩] <:+: ts

/-- A condition is continued by another condition, unless the word that continues it is cast.
Tokens without such a cast are read as conditions that only conditions continue, and behind a
body such a cast is always read as the alternate. -/
theorem ofTokens_alternates {ts : List Token} {program : Program}
    (h : Program.ofTokens ts = .ok program) :
    (∀ node ∈ nodesOf program, ∀ next ∈ node.alternate?, Alternate ts next) ∧
      (¬ HasCapture ts →
        ∀ node ∈ nodesOf program, ∀ next ∈ node.alternate?, next.continues = true) ∧
      ∀ context t colon status line rest, t.isWord "elseif" = true → colon.isSymbol ':' = true →
        Parser.alternate context (t :: colon :: ⟨.word status, line⟩ :: rest) =
          .ok ⟨some (.cast (.identifier "elseif") (.ofWord status)), 3⟩ := by
  have halternates : ∀ node ∈ nodesOf program, ∀ next ∈ node.alternate?, Alternate ts next :=
    fun node hnode ↦ ((tidy_of_ofTokens h).sound node hnode).alternate
  refine ⟨halternates, ?_, ?_⟩
  · intro hfree node hnode next hnext
    cases halternates node hnode next hnext with
    | continued => rfl
    | captured ht hcolon hus => exact absurd ⟨_, _, _, _, ht, hcolon, hus⟩ hfree
  · intro context t colon status line rest ht hcolon
    have hlexeme : t.lexeme = .word "elseif" := of_decide_eq_true ht
    have hcast : cast? (t :: colon :: ⟨.word status, line⟩ :: rest) =
        some (.cast (.identifier "elseif") (.ofWord status)) := by
      rw [cast?, if_pos hcolon, hlexeme]
      rfl
    rw [Parser.alternate, if_pos ht, Parser.term, hcast]

/-- A chain of three conditions, the last of which holds another chain. -/
def chained : List Token :=
  [⟨.word "if", 1⟩, ⟨.boolean false, 1⟩, ⟨.symbol '\x7b', 1⟩, ⟨.symbol '\x7d', 1⟩,
    ⟨.word "elseif", 2⟩, ⟨.null, 2⟩, ⟨.symbol '\x7b', 2⟩, ⟨.bussin, 2⟩, ⟨.symbol '\x7d', 2⟩,
    ⟨.word "else", 3⟩, ⟨.symbol '\x7b', 3⟩, ⟨.word "if", 4⟩, ⟨.null, 4⟩, ⟨.symbol '\x7b', 4⟩,
    ⟨.symbol '\x7d', 4⟩, ⟨.word "elseif", 5⟩, ⟨.null, 5⟩]

def chainedRead : Program :=
  [.branch .opening (.literal (.boolean false)) []
    (some (.branch .continuing (.literal .null) [.bussin]
      (some (.branch .continuing (.literal (.boolean true))
        [.branch .opening (.literal .null) []
          (some (.branch .continuing (.literal .null) [] none))] none))))]

theorem ofTokens_alternates_chained :
    Program.ofTokens chained = .ok chainedRead ∧ ¬ HasCapture chained ∧
      (nodesOf chainedRead).filterMap Node.alternate? ≠ [] ∧
      ∀ node ∈ nodesOf chainedRead, ∀ next ∈ node.alternate?, next.continues = true := by
  have hread : Program.ofTokens chained = .ok chainedRead := by cbv
  have hfree : ¬ HasCapture chained := by
    rintro ⟨t, colon, status, line, -, hcolon, hus⟩
    have hmem : colon ∈ chained := hus.subset (by simp)
    have hnone : ∀ t ∈ chained, t.isSymbol ':' = false := by decide
    rw [hnone colon hmem] at hcolon
    cases hcolon
  exact ⟨hread, hfree, List.cons_ne_nil _ _, (ofTokens_alternates hread).2.1 hfree⟩

/-- A condition with a body, and the word that continues a chain in a cast. -/
def capturing : List Token :=
  [⟨.word "if", 1⟩, ⟨.boolean true, 1⟩, ⟨.symbol '\x7b', 1⟩, ⟨.symbol '\x7d', 1⟩,
    ⟨.word "elseif", 1⟩, ⟨.symbol ':', 1⟩, ⟨.word "num", 1⟩]

/-- The alternate of a condition need not be a condition. -/
theorem ofTokens_capturing :
    ∃ program, Program.ofTokens capturing = .ok program ∧
      ∃ node ∈ nodesOf program, ∃ next ∈ node.alternate?, next.continues = false := by
  have hread : Program.ofTokens capturing = .ok
      [.branch .opening (.literal (.boolean true)) [] (some (.cast (.identifier "elseif") .num))] :=
    by cbv
  exact ⟨_, hread, _, List.mem_cons_self, _, Option.mem_some_self _, rfl⟩

end VexLang
