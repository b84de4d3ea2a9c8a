import VexLang.Proofs.Node.Reading
import VexLang.Proofs.Node.Spelling

/-!
# Plain programs are read back from their text

Every statement starts with a token that ends the statement before it, so that
statements are told apart without separators. Main statement: reading the text
of a plain program gives the program.
-/

namespace VexLang

/-- The token can be the first one of a statement. -/
structure OpensStatement (t : Token) : Prop where
  ends : t.endsParameters = true
  noChain : t.isWord "elseif" = false
  noBrace : t.isSymbol '\x7d' = false

theorem PlainNode.opens {s : Node} (hs : PlainNode .opening s) {ts : List Token}
    (hts : ts.map Token.lexeme = s.lexemes) :
    ∃ first more, ts = first :: more ∧ OpensStatement first := by
  have hopen {l : Lexeme} {ls : List Lexeme} (h : s.lexemes = l :: ls)
      (ho : ∀ line, OpensStatement ⟨l, line⟩) :
      ∃ first more, ts = first :: more ∧ OpensStatement first := by
    obtain ⟨line, more, rfl, -⟩ := lexemes_cons (hts.trans h)
    exact ⟨_, more, rfl, ho line⟩
  cases hs with
  | declaration constant _ _ =>
      refine hopen rfl fun line ↦ ?_
      cases constant <;> exact ⟨rfl, rfl, rfl⟩
  | @cut target _ => cases target <;> exact hopen rfl fun _ ↦ ⟨rfl, rfl, rfl⟩
  | assignment _ _ => exact hopen rfl fun _ ↦ ⟨rfl, rfl, rfl⟩
  | print _ => exact hopen rfl fun _ ↦ ⟨rfl, rfl, rfl⟩
  | loop _ _ => exact hopen rfl fun _ ↦ ⟨rfl, rfl, rfl⟩
  | branch _ _ _ => exact hopen rfl fun _ ↦ ⟨rfl, rfl, rfl⟩
  | banish _ => exact hopen rfl fun _ ↦ ⟨rfl, rfl, rfl⟩
  | bussin => exact hopen rfl fun _ ↦ ⟨rfl, rfl, rfl⟩
  | manual => exact hopen rfl fun _ ↦ ⟨rfl, rfl, rfl⟩
  | openFile => exact hopen rfl fun _ ↦ ⟨rfl, rfl, rfl⟩

theorem statementEnds_cons {t : Token} (hends : t.endsParameters = true)
    (hchain : t.isWord "elseif" = false) (rest : List Token) : StatementEnds (t :: rest) := by
  intro u hu
  obtain rfl : t = u := by simpa using hu
  exact ⟨hends, hchain⟩

/-- What follows a statement is another one or what follows them all. -/
theorem statementEnds_body {body : List Node} (hbody : ∀ s ∈ body, PlainNode .opening s)
    {ts : List Token} (hts : ts.map Token.lexeme = lexemesEach body) {rest : List Token}
    (hrest : StatementEnds rest) : StatementEnds (ts ++ rest) := by
  cases body with
  | nil =>
      obtain rfl : ts = [] := by simpa [lexemesEach] using hts
      exact hrest
  | cons s body =>
      obtain ⟨tn, tm, rfl, htn, -⟩ := List.map_eq_append_iff.mp hts
      obtain ⟨first, others, rfl, hopens⟩ := (hbody s List.mem_cons_self).opens htn
      exact statementEnds_cons hopens.ends hopens.noChain _

theorem noColon_values {values : List Node} (hvalues : ∀ v ∈ values, PlainValue v)
    {ts : List Token} (hts : ts.map Token.lexeme = lexemesList values) {rest : List Token}
    (hrest : NoColon rest) : NoColon (ts ++ rest) := by
  cases values with
  | nil =>
      obtain rfl : ts = [] := by simpa [lexemesList] using hts
      exact hrest
  | cons v values =>
      obtain ⟨tv, tm, rfl, htv, -⟩ := List.map_eq_append_iff.mp hts
      obtain ⟨first, others, rfl, hopens⟩ := (hvalues v List.mem_cons_self).opens htv
      exact noColon_cons hopens.noColon _

theorem noColon_times {times : Option Node} {ts : List Token}
    (hts : ts.map Token.lexeme = lexemesTimes times) {t : Token} (ht : t.isSymbol ':' = false)
    (rest : List Token) : NoColon (ts ++ t :: rest) := by
  cases times with
  | none =>
      obtain rfl : ts = [] := by simpa [lexemesTimes] using hts
      exact noColon_cons ht _
  | some n =>
      obtain ⟨line, ts', rfl, -⟩ := lexemes_cons hts
      exact noColon_cons rfl _

namespace Parser

/-- The tokens are read as the statement, whatever follows, unless it belongs to it. -/
def ReadsStatement (ts : List Token) (node : Node) : Prop :=
  ∀ context rest, StatementEnds rest →
    term context false (ts ++ rest) = .ok ⟨some node, ts.length⟩

/-- What is read first, and the statements behind it. -/
theorem statements_first {context : List Rule} {inBlock : Bool} {t : Token} {rest : List Token}
    {first : Option Node} {n : Nat} (hfirst : term context false (t :: rest) = .ok ⟨first, n + 1⟩)
    (hopens : (inBlock && t.isSymbol '\x7d') = false) {more : List Node} {count : Nat}
    (hmore : statements context inBlock (rest.drop n) = .ok ⟨more, count⟩) :
    statements context inBlock (t :: rest) = .ok ⟨first.toList ++ more, n + 1 + count⟩ := by
  rw [statements, hopens]
  simp only [Bool.false_eq_true, if_false, bind, Except.bind, hfirst, Nat.add_sub_cancel, hmore,
    pure, Except.pure, Nat.add_comm 1]

theorem statements_cons {s : Node} (hs : PlainNode .opening s) {ts : List Token}
    (hts : ts.map Token.lexeme = s.lexemes) (hreads : ReadsStatement ts s) {context : List Rule}
    {inBlock : Bool} {rest : List Token} (hrest : StatementEnds rest) {more : List Node}
    {count : Nat} (hmore : statements context inBlock rest = .ok ⟨more, count⟩) :
    statements context inBlock (ts ++ rest) = .ok ⟨s :: more, ts.length + count⟩ := by
  have hterm := hreads context rest hrest
  obtain ⟨first, others, rfl, hopens⟩ := hs.opens hts
  have hbehind : statements context inBlock ((others ++ rest).drop others.length) =
      .ok ⟨more, count⟩ := by
    rw [List.drop_left, hmore]
  exact statements_first hterm (by rw [hopens.noBrace, Bool.and_false]) hbehind

theorem statements_body {body : List Node} (hbody : ∀ s ∈ body, PlainNode .opening s)
    (hreads : ∀ s ∈ body, ∀ ts, ts.map Token.lexeme = s.lexemes → ReadsStatement ts s)
    {ts : List Token} (hts : ts.map Token.lexeme = lexemesEach body) {context : List Rule}
    {inBlock : Bool} {rest : List Token} (hrest : StatementEnds rest) {count : Nat}
    (hlast : statements context inBlock rest = .ok ⟨[], count⟩) :
    statements context inBlock (ts ++ rest) = .ok ⟨body, ts.length + count⟩ := by
  induction body generalizing ts with
  | nil =>
      obtain rfl : ts = [] := by simpa [lexemesEach] using hts
      simpa using hlast
  | cons s body ih =>
      obtain ⟨tn, tm, rfl, htn, htm⟩ := List.map_eq_append_iff.mp hts
      have hbody' : ∀ u ∈ body, PlainNode .opening u :=
        fun u hu ↦ hbody u (List.mem_cons_of_mem _ hu)
      have hmore := ih hbody' (fun u hu ↦ hreads u (List.mem_cons_of_mem _ hu)) htm
      have hcons := statements_cons (hbody s List.mem_cons_self) htn
        (hreads s List.mem_cons_self tn htn) (statementEnds_body hbody' htm hrest) hmore
      rw [List.append_assoc, hcons, List.length_append, Nat.add_assoc]

/-- A block takes its statements and the brace that closes it. -/
theorem statements_block {body : List Node} (hbody : ∀ s ∈ body, PlainNode .opening s)
    (hreads : ∀ s ∈ body, ∀ ts, ts.map Token.lexeme = s.lexemes → ReadsStatement ts s)
    {ts : List Token} (hts : ts.map Token.lexeme = lexemesEach body) (context : List Rule)
    (line : Nat) (rest : List Token) :
    statements context true (ts ++ ⟨.symbol '\x7d', line⟩ :: rest) =
      .ok ⟨body, ts.length + 1⟩ := by
  have hbrace : statements context true (⟨.symbol '\x7d', line⟩ :: rest) = .ok ⟨[], 1⟩ := by
    rw [statements]
    rfl
  exact statements_body hbody hreads hts (statementEnds_cons rfl rfl rest) hbrace

/-- The value of a declaration or an assignment, with the word before it. -/
theorem definition_value {context : List Rule} {ts : List Token} {v : Node} {count : Nat}
    (hv : phrase (.phrase :: context) ts = .ok ⟨some v, count⟩) (line : Nat) :
    definition context (⟨.word "is", line⟩ :: ts) = .ok ⟨v, 1 + count⟩ := by
  have hstart : leading Token.isEquality (⟨.word "is", line⟩ :: ts) = 1 := rfl
  rw [definition, hstart]
  simp only [List.drop_succ_cons, List.drop_zero, hv, bind, Except.bind, Option.getD_some]
  rfl

theorem term_word {w : String} {role : Role} (hrole : Role.ofWord false w = role) (line : Nat)
    {context : List Rule} {rest : List Token} {node : Node} {count : Nat}
    (hcast : NoColon rest) (hrest : wordTerm context role rest = .ok ⟨some node, count⟩) :
    term context false (⟨.word w, line⟩ :: rest) = .ok ⟨some node, count + 1⟩ := by
  rw [term, cast?_eq_none hcast]
  simp only [hrole, hrest, Except.map, Taken.after, Nat.add_comm 1]

/-- A quoted name, the word `is` and a value, behind the word that opens a declaration. -/
theorem declaration_value (name : String) {context : List Rule} {ts : List Token} {v : Node}
    {count : Nat} (hv : phrase (.phrase :: context) ts = .ok ⟨some v, count⟩) (constant : Bool)
    (line₁ line₂ : Nat) :
    declaration context constant (⟨.text name, line₁⟩ :: ⟨.word "is", line₂⟩ :: ts) =
      .ok ⟨some (.declaration name v constant), count + 2⟩ := by
  have hstart : (if constant then
      leading (·.isWord "this") (⟨.text name, line₁⟩ :: ⟨.word "is", line₂⟩ :: ts) else 0) = 0 := by
    cases constant <;> rfl
  rw [declaration, hstart]
  simp only [List.drop_zero, quoted?, List.drop_succ_cons, Nat.zero_add, definition_value hv line₂,
    bind, Except.bind]
  simp only [pure, Except.pure]
  congr 2
  omega

theorem assignment_value (name : String) {context : List Rule} {ts : List Token} {v : Node}
    {count : Nat} (hv : phrase (.phrase :: context) ts = .ok ⟨some v, count⟩)
    (line₁ line₂ : Nat) :
    assignment context (⟨.text name, line₁⟩ :: ⟨.word "is", line₂⟩ :: ts) =
      .ok ⟨some (.assignment name v), count + 2⟩ := by
  rw [assignment]
  simp only [quoted?, List.drop_succ_cons, List.drop_zero, definition_value hv line₂, bind,
    Except.bind]
  simp only [pure, Except.pure]
  congr 2
  omega

theorem loopCount_times {times : Option Node} (htimes : ∀ t ∈ times, PlainTerm t)
    {ts : List Token} (hts : ts.map Token.lexeme = lexemesTimes times) (context : List Rule)
    (line : Nat) (rest : List Token) :
    loopCount context (ts ++ ⟨.symbol '\x7b', line⟩ :: rest) = .ok ⟨times, ts.length⟩ := by
  cases times with
  | none =>
      obtain rfl : ts = [] := by simpa [lexemesTimes] using hts
      rw [List.nil_append, loopCount]
      rfl
  | some t =>
      simp only [lexemesTimes, List.cons_append] at hts
      obtain ⟨line₁, ts₁, rfl, h₁⟩ := lexemes_cons hts
      obtain ⟨tt, ts₂, rfl, htt, h₂⟩ := List.map_eq_append_iff.mp h₁
      obtain ⟨line₃, ts₃, rfl, h₃⟩ := lexemes_cons h₂
      obtain rfl : ts₃ = [] := by simpa using h₃
      have hterm := (htimes t rfl).reads htt context false
        (⟨.symbol ']', line₃⟩ :: ⟨.symbol '\x7b', line⟩ :: rest) (noColon_cons rfl _)
      have hdrop (u : Token) (us : List Token) : (u :: (tt ++ us)).drop (1 + tt.length) = us := by
        rw [Nat.add_comm, List.drop_succ_cons, List.drop_left]
      have hbracket : leading (·.isSymbol '[') (⟨.symbol '[', line₁⟩ ::
          (tt ++ ⟨.symbol ']', line₃⟩ :: ⟨.symbol '\x7b', line⟩ :: rest)) = 1 := rfl
      simp only [List.cons_append, List.append_assoc, List.nil_append]
      rw [loopCount, hbracket]
      simp only [Nat.one_ne_zero, if_false, List.drop_succ_cons, List.drop_zero, hterm, bind,
        Except.bind, hdrop]
      simp only [leading, Token.isSymbol, pure, Except.pure, decide_true, if_true,
        List.length_cons, List.length_append, List.length_nil]
      congr 2
      omega

theorem loop_body {times : Option Node} {body : List Node} (htimes : ∀ t ∈ times, PlainTerm t)
    (hbody : ∀ s ∈ body, PlainNode .opening s)
    (hreads : ∀ s ∈ body, ∀ ts, ts.map Token.lexeme = s.lexemes → ReadsStatement ts s)
    {tt tb : List Token} (htt : tt.map Token.lexeme = lexemesTimes times)
    (htb : tb.map Token.lexeme = lexemesEach body) (context : List Rule) (line₁ line₂ : Nat)
    (rest : List Token) :
    loop context (tt ++ ⟨.symbol '\x7b', line₁⟩ :: (tb ++ ⟨.symbol '\x7d', line₂⟩ :: rest)) =
      .ok ⟨some (.loop times body), tt.length + tb.length + 2⟩ := by
  have hcount := loopCount_times htimes htt context line₁ (tb ++ ⟨.symbol '\x7d', line₂⟩ :: rest)
  have hblock := statements_block hbody hreads htb (.block :: context) line₂ rest
  have hbrace : leading (·.isSymbol '\x7b')
      (⟨.symbol '\x7b', line₁⟩ :: (tb ++ ⟨.symbol '\x7d', line₂⟩ :: rest)) = 1 := rfl
  rw [loop, hcount]
  simp only [bind, Except.bind, List.drop_left, hbrace, Nat.one_ne_zero, if_false,
    List.drop_succ_cons, List.drop_zero, hblock]
  simp only [pure, Except.pure]
  congr 2
  omega

theorem alternate_none (context : List Rule) {rest : List Token} (hrest : StatementEnds rest) :
    alternate context rest = .ok ⟨none, 0⟩ := by
  cases rest with
  | nil => rw [alternate]
  | cons t rest =>
      obtain ⟨hends, hchain⟩ := hrest t rfl
      have helse : t.isWord "else" = false := by
        by_contra hword
        have hlexeme : t.lexeme = .word "else" := by simpa [Token.isWord] using hword
        have hstop : isStopWord "else" = true := by
          simpa [Token.endsParameters, Token.isStop, hlexeme] using hends
        exact absurd hstop (by decide)
      rw [alternate, hchain, helse]
      rfl

theorem alternate_chain {a : Node} (ha : PlainNode .continuing a) {ts : List Token}
    (hts : ts.map Token.lexeme = a.lexemes) (hreads : ReadsStatement ts a) (context : List Rule)
    {rest : List Token} (hrest : StatementEnds rest) :
    alternate context (ts ++ rest) = .ok ⟨some a, ts.length⟩ := by
  have hterm := hreads context rest hrest
  cases ha with
  | branch _ _ _ =>
      obtain ⟨line, ts', rfl, -⟩ := lexemes_cons hts
      rw [List.cons_append] at hterm ⊢
      have hword : (⟨.word BranchKind.continuing.word, line⟩ : Token).isWord "elseif" = true := rfl
      rw [alternate, hword, if_pos rfl]
      exact hterm

theorem branch_body (kind : BranchKind) {test : Node} {body : List Node} {next : Option Node}
    (htest : PlainTerm test) (hbody : ∀ s ∈ body, PlainNode .opening s)
    (hreads : ∀ s ∈ body, ∀ ts, ts.map Token.lexeme = s.lexemes → ReadsStatement ts s)
    {tt tb : List Token} (htt : tt.map Token.lexeme = test.lexemes)
    (htb : tb.map Token.lexeme = lexemesEach body) (context : List Rule) (line₁ line₂ : Nat)
    {rest : List Token} {count : Nat} (hnext : alternate context rest = .ok ⟨next, count⟩) :
    branch context kind
        (tt ++ ⟨.symbol '\x7b', line₁⟩ :: (tb ++ ⟨.symbol '\x7d', line₂⟩ :: rest)) =
      .ok ⟨some (.branch kind test body next), tt.length + tb.length + 2 + count⟩ := by
  have hterm := htest.reads htt context false
    (⟨.symbol '\x7b', line₁⟩ :: (tb ++ ⟨.symbol '\x7d', line₂⟩ :: rest)) (noColon_cons rfl _)
  have hcondition : condition context
      (tt ++ ⟨.symbol '\x7b', line₁⟩ :: (tb ++ ⟨.symbol '\x7d', line₂⟩ :: rest)) =
      .ok ⟨test, tt.length⟩ := by
    rw [condition, hterm]
    simp only [bind, Except.bind, List.drop_left]
    rfl
  have hblock := statements_block hbody hreads htb (.block :: context) line₂ rest
  have hbrace : leading (·.isSymbol '\x7b')
      (⟨.symbol '\x7b', line₁⟩ :: (tb ++ ⟨.symbol '\x7d', line₂⟩ :: rest)) = 1 := rfl
  have hstart (t : Token) (us : List Token) : (tt ++ t :: us).drop (tt.length + 1) = us := by
    rw [← List.drop_drop, List.drop_left, List.drop_succ_cons, List.drop_zero]
  have hdrop (t u : Token) (us : List Token) :
      (tt ++ t :: (tb ++ u :: us)).drop (tt.length + 1 + (tb.length + 1)) = us := by
    rw [← List.drop_drop, hstart, ← List.drop_drop, List.drop_left, List.drop_succ_cons,
      List.drop_zero]
  rw [branch, hcondition]
  simp only [bind, Except.bind, List.drop_left, hbrace, hstart, hblock, hdrop, hnext]
  simp only [pure, Except.pure]
  congr 2
  omega

end Parser

theorem readsStatement_word {w : String} {node : Node} {role : Role}
    (hrole : Role.ofWord false w = role)
    (hread : ∀ context rest, StatementEnds rest →
      Parser.wordTerm context role rest = .ok ⟨some node, 0⟩)
    {ts : List Token} (hts : ts.map Token.lexeme = [.word w]) : Parser.ReadsStatement ts node := by
  obtain ⟨line, ts', rfl, hnil⟩ := lexemes_cons hts
  obtain rfl : ts' = [] := by simpa using hnil
  intro context rest hrest
  exact Parser.term_word hrole line hrest.phraseEnds.noColon (hread context rest hrest)

theorem readsStatement_target {w target : String} {node : Node} {role : Role}
    (hrole : Role.ofWord false w = role)
    (hread : ∀ context line rest,
      Parser.wordTerm context role (⟨.text target, line⟩ :: rest) = .ok ⟨some node, 1⟩)
    {ts : List Token} (hts : ts.map Token.lexeme = [.word w, .text target]) :
    Parser.ReadsStatement ts node := by
  obtain ⟨line₁, ts₁, rfl, h₁⟩ := lexemes_cons hts
  obtain ⟨line₂, ts₂, rfl, h₂⟩ := lexemes_cons h₁
  obtain rfl : ts₂ = [] := by simpa using h₂
  intro context rest _
  exact Parser.term_word hrole _ (noColon_cons rfl _) (hread context line₂ rest)

theorem quoted?_eq_none {rest : List Token} (hrest : StatementEnds rest) : quoted? rest = none := by
  rcases rest with _ | ⟨⟨l, line⟩, rest⟩
  · rfl
  · obtain ⟨hends, -⟩ := hrest _ rfl
    cases l with
    | text content => simp [Token.endsParameters, Token.isStop] at hends
    | _ => rfl

/-- The tokens of a statement with a block: the word that opens it, what stands before the
block, the block between its braces, and what belongs to the statement behind it. -/
theorem lexemes_block {opener : Lexeme} {header inside tail : List Lexeme} {ts : List Token}
    (h : ts.map Token.lexeme =
      opener :: (header ++ .symbol '\x7b' :: (inside ++ .symbol '\x7d' :: tail))) :
    ∃ line₁ th line₂ tb line₃ tt,
      ts = ⟨opener, line₁⟩ ::
        (th ++ ⟨.symbol '\x7b', line₂⟩ :: (tb ++ ⟨.symbol '\x7d', line₃⟩ :: tt)) ∧
      th.map Token.lexeme = header ∧ tb.map Token.lexeme = inside ∧ tt.map Token.lexeme = tail := by
  obtain ⟨line₁, ts₁, rfl, h₁⟩ := lexemes_cons h
  obtain ⟨th, ts₂, rfl, hheader, h₂⟩ := List.map_eq_append_iff.mp h₁
  obtain ⟨line₂, ts₃, rfl, h₃⟩ := lexemes_cons h₂
  obtain ⟨tb, ts₄, rfl, hinside, h₄⟩ := List.map_eq_append_iff.mp h₃
  obtain ⟨line₃, tt, rfl, htail⟩ := lexemes_cons h₄
  exact ⟨line₁, th, line₂, tb, line₃, tt, rfl, hheader, hinside, htail⟩

theorem readsStatement_loop {times : Option Node} {body : List Node}
    (htimes : ∀ t ∈ times, PlainTerm t) (hbody : ∀ s ∈ body, PlainNode .opening s)
    (hreads : ∀ s ∈ body, ∀ ts, ts.map Token.lexeme = s.lexemes → Parser.ReadsStatement ts s)
    {ts : List Token} (hts : ts.map Token.lexeme = (Node.loop times body).lexemes) :
    Parser.ReadsStatement ts (.loop times body) := by
  simp only [Node.lexemes, List.cons_append, List.append_assoc] at hts
  obtain ⟨line₁, th, line₂, tb, line₃, tt, rfl, hheader, hinside, htail⟩ := lexemes_block hts
  obtain rfl : tt = [] := by simpa using htail
  intro context rest _
  have hread := Parser.loop_body htimes hbody hreads hheader hinside (.loop :: context) line₂ line₃
    rest
  have hrole : Role.ofWord false "loop!" = .loop := by decide
  have hbrace : (⟨.symbol '\x7b', line₂⟩ : Token).isSymbol ':' = false := rfl
  have hcolon := noColon_times hheader hbrace (tb ++ ⟨.symbol '\x7d', line₃⟩ :: rest)
  have hterm := Parser.term_word hrole line₁ hcolon (by rw [Parser.wordTerm]; exact hread)
  simp only [List.cons_append, List.append_assoc, List.nil_append, hterm, List.length_cons,
    List.length_append, List.length_nil, Nat.add_assoc]

theorem readsStatement_branch (kind : BranchKind) {condition : Node} {body : List Node}
    {alternate : Option Node} (hcondition : PlainTerm condition)
    (hbody : ∀ s ∈ body, PlainNode .opening s)
    (halternate : ∀ a ∈ alternate, PlainNode .continuing a)
    (hreads : ∀ s ∈ body, ∀ ts, ts.map Token.lexeme = s.lexemes → Parser.ReadsStatement ts s)
    (hchain : ∀ a ∈ alternate, ∀ ts, ts.map Token.lexeme = a.lexemes → Parser.ReadsStatement ts a)
    {ts : List Token}
    (hts : ts.map Token.lexeme = (Node.branch kind condition body alternate).lexemes) :
    Parser.ReadsStatement ts (.branch kind condition body alternate) := by
  simp only [Node.lexemes, List.cons_append, List.append_assoc] at hts
  obtain ⟨line₁, th, line₂, tb, line₃, tt, rfl, hheader, hinside, htail⟩ := lexemes_block hts
  intro context rest hrest
  have hnext : Parser.alternate (.condition :: context) (tt ++ rest) =
      .ok ⟨alternate, tt.length⟩ := by
    cases alternate with
    | none =>
        obtain rfl : tt = [] := by simpa [lexemesAlternate] using htail
        exact Parser.alternate_none _ hrest
    | some a =>
        exact Parser.alternate_chain (halternate a rfl) htail (hchain a rfl _ htail) _ hrest
  have hread := Parser.branch_body kind hcondition hbody hreads hheader hinside
    (.condition :: context) line₂ line₃ hnext
  have hrole : Role.ofWord false kind.word = .branch kind := by
    cases kind <;> rfl
  have hcolon := hcondition.noColon hheader
    (⟨.symbol '\x7b', line₂⟩ :: (tb ++ ⟨.symbol '\x7d', line₃⟩ :: (tt ++ rest)))
  have hterm := Parser.term_word hrole line₁ hcolon (by rw [Parser.wordTerm]; exact hread)
  simp only [List.cons_append, List.append_assoc, hterm, List.length_cons, List.length_append]
  congr 2
  omega

theorem PlainNode.reads {kind : BranchKind} {s : Node} (hs : PlainNode kind s) {ts : List Token}
    (hts : ts.map Token.lexeme = s.lexemes) : Parser.ReadsStatement ts s := by
  induction hs generalizing ts with
  | @declaration name value constant hname hvalue =>
      obtain ⟨line₁, ts₁, rfl, h₁⟩ := lexemes_cons hts
      obtain ⟨line₂, ts₂, rfl, h₂⟩ := lexemes_cons h₁
      obtain ⟨line₃, tv, rfl, htv⟩ := lexemes_cons h₂
      intro context rest hrest
      have hread := Parser.declaration_value name
        (hvalue.reads htv (.phrase :: .declaration :: context) hrest.phraseEnds) constant line₂ line₃
      have hrole : Role.ofWord false (if constant then "fr" else "this") =
          .declaration constant := by
        cases constant <;> rfl
      exact Parser.term_word hrole _ (noColon_cons rfl _) (by rw [Parser.wordTerm]; exact hread)
  | @assignment name value hname hvalue =>
      obtain ⟨line₁, ts₁, rfl, h₁⟩ := lexemes_cons hts
      obtain ⟨line₂, ts₂, rfl, h₂⟩ := lexemes_cons h₁
      obtain ⟨line₃, tv, rfl, htv⟩ := lexemes_cons h₂
      intro context rest hrest
      have hread := Parser.assignment_value name
        (hvalue.reads htv (.phrase :: .assignment :: context) hrest.phraseEnds) line₂ line₃
      have hrole : Role.ofWord false "set" = .assignment := rfl
      exact Parser.term_word hrole _ (noColon_cons rfl _) (by rw [Parser.wordTerm]; exact hread)
  | @print params hparams =>
      obtain ⟨line, tp, rfl, htp⟩ := lexemes_cons hts
      intro context rest hrest
      have hread := Parser.parameters_values hparams htp (.call :: context)
        fun t ht ↦ (hrest t ht).1
      have hrole : Role.ofWord false "debug!" = .call printCommand := by decide
      have hcall : Parser.wordTerm context (.call printCommand) (tp ++ rest) =
          .ok ⟨some (.call printCommand params), tp.length⟩ := by
        rw [Parser.wordTerm, hread]
        rfl
      exact Parser.term_word hrole line (noColon_values hparams htp hrest.phraseEnds.noColon) hcall
  | loop htimes hbody ihbody =>
      exact readsStatement_loop htimes hbody (fun s hs _ hu ↦ ihbody s hs hu) hts
  | branch hcondition hbody halternate ihbody ihalternate =>
      exact readsStatement_branch _ hcondition hbody halternate (fun s hs _ hu ↦ ihbody s hs hu)
        (fun a ha _ hu ↦ ihalternate a ha hu) hts
  | @cut target htarget =>
      have hrole : Role.ofWord false "cut!" = .cut := by decide
      cases target with
      | none =>
          refine readsStatement_word hrole (fun context rest hrest ↦ ?_) hts
          rw [Parser.wordTerm, quoted?_eq_none hrest]
      | some t =>
          refine readsStatement_target hrole (fun context line rest ↦ ?_) hts
          rw [Parser.wordTerm]
          rfl
  | banish htarget =>
      have hrole : Role.ofWord false "banish!" = .banish := by decide
      refine readsStatement_target hrole (fun context line rest ↦ ?_) hts
      rw [Parser.wordTerm]
      rfl
  | bussin =>
      -- a lexeme of its own, for which no role is looked up
      obtain ⟨line, ts', rfl, hnil⟩ := lexemes_cons hts
      obtain rfl : ts' = [] := by simpa using hnil
      intro context rest _
      rw [List.singleton_append, Parser.term, cast?_eq_none_of_operand rfl]
      rfl
  | manual =>
      have hrole : Role.ofWord false "vx" = .manual := rfl
      exact readsStatement_word hrole (fun _ _ _ ↦ by rw [Parser.wordTerm]) hts
  | openFile =>
      have hrole : Role.ofWord false "openfile" = .openFile := rfl
      exact readsStatement_word hrole (fun _ _ _ ↦ by rw [Parser.wordTerm]) hts

/-- Reading the text of a plain program gives the program back. -/
theorem ofSource_render (program : Program) (hp : program.Plain) :
    Program.ofSource program.render = .ok program := by
  obtain ⟨ts, hts, htokens⟩ := tokens_render hp
  have hend : Parser.statements [.program] false [] = .ok ⟨[], 0⟩ := by
    rw [Parser.statements]
  have hnone : StatementEnds [] := by
    intro t ht
    simp at ht
  have hstatements := Parser.statements_body hp (fun s hs _ hu ↦ (hp s hs).reads hu) hts hnone hend
  rw [List.append_nil] at hstatements
  have hparse : Program.ofTokens ts = .ok program := by
    rw [Program.ofTokens, hstatements]
    rfl
  simp only [Program.ofSource, htokens, hparse]

/-- A program with a phrase, a chain of conditions and loops inside each other. -/
def countdown : Program :=
  [.declaration "n" (.literal (.number 2.5)) false,
    .declaration "a \"b\"" (.phrase [.literal (.text "left:"), .cast (.identifier "n") .var]) true,
    .loop (some (.arithmetic (.cast (.identifier "n") .var) .divide (.literal (.number 2.5))))
      [.branch .opening (.comparison (.cast (.literal (.text "n")) .num) (.literal .null))
        [.call printCommand [.random (.literal (.number 2.5)) (.literal .undefined),
          .literal (.boolean true)], .cut none, .loop none [.openFile]]
        (some (.branch .continuing (.literal (.boolean false)) [.cut (some "n")] none)),
      .assignment "n" (.literal (.text ""))],
    .banish "n", .manual, .bussin]

theorem countdown_plain : countdown.Plain := by
  have hnumber : PlainTerm (.literal (.number 2.5)) :=
    .number ⟨List.all_eq_true.mp (by decide +kernel), ⟨'2', by decide +kernel, rfl⟩,
      by decide +kernel⟩
  have hvar : PlainTerm (.cast (.identifier "n") .var) :=
    .cast (.identifier ⟨List.all_eq_true.mp (by decide), ⟨'n', rfl, rfl⟩⟩) (by decide)
  have hphrase : PlainValue (.phrase [.literal (.text "left:"), .cast (.identifier "n") .var]) :=
    .phrase (.text (by decide)) rfl (by simpa using hvar) (by simp)
  have htest : PlainTerm (.comparison (.cast (.literal (.text "n")) .num) (.literal .null)) :=
    .comparison (.cast (.text (by decide)) (by decide)) .null
  have hprint : PlainNode .opening (.call printCommand
      [.random (.literal (.number 2.5)) (.literal .undefined), .literal (.boolean true)]) := by
    refine .print ?_
    simp only [List.forall_mem_cons]
    exact ⟨.term (.random hnumber .undefined), .term (.boolean true), by simp⟩
  have hbranch : PlainNode .opening
      (.branch .opening (.comparison (.cast (.literal (.text "n")) .num) (.literal .null))
        [.call printCommand [.random (.literal (.number 2.5)) (.literal .undefined),
          .literal (.boolean true)], .cut none, .loop none [.openFile]]
        (some (.branch .continuing (.literal (.boolean false)) [.cut (some "n")] none))) := by
    refine .branch htest ?_ ?_
    · simp only [List.forall_mem_cons]
      exact ⟨hprint, .cut (by simp), .loop (by simp) (by simpa using .openFile), by simp⟩
    · rintro a ⟨⟩
      refine .branch (.boolean false) ?_ (by simp)
      simpa using .cut (by simp)
  simp only [Program.Plain, countdown, List.forall_mem_cons]
  refine ⟨.declaration false (by decide) (.term hnumber), .declaration true (by decide) hphrase,
    .loop ?_ ?_, .banish (by decide), .manual, .bussin, by simp⟩
  · simpa using .arithmetic .divide hvar hnumber
  · simp only [List.forall_mem_cons]
    exact ⟨hbranch, .assignment (by decide) (.term (.text (by decide))), by simp⟩

theorem ofSource_render_countdown :
    countdown.Plain ∧ Program.ofSource countdown.render = .ok countdown :=
  ⟨countdown_plain, ofSource_render countdown countdown_plain⟩

end VexLang
