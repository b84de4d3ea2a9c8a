import Mathlib.Data.List.TakeWhile
import Mathlib.Tactic.ByContra
import VexLang.Proofs.Node.Plain
import VexLang.Source

/-!
# Reading the lexemes of a plain tree

Whatever the lines of the tokens are, a rule that is given the lexemes of a plain
tree takes just these and gives the tree back, provided that what follows cannot
be taken for a part of it.
-/

namespace VexLang

/-! ## Tokens with given lexemes -/

theorem lexemes_cons {ts : List Token} {l : Lexeme} {ls : List Lexeme}
    (h : ts.map Token.lexeme = l :: ls) :
    ∃ line ts', ts = ⟨l, line⟩ :: ts' ∧ ts'.map Token.lexeme = ls := by
  obtain ⟨t, ts', rfl, hl, hls⟩ := List.map_eq_cons_iff.mp h
  exact ⟨t.line, ts', by rw [← hl], hls⟩

/-- Nothing follows that would make a cast of the token before it. -/
def NoColon (rest : List Token) : Prop :=
  ∀ t ∈ rest.head?, t.isSymbol ':' = false

/-- What follows, if anything does, ends a phrase. -/
def PhraseEnds (rest : List Token) : Prop :=
  ∀ t ∈ rest.head?, t.endsPhrase = true

/-- What follows, if anything does, ends a statement and does not continue a chain of
conditions. -/
def StatementEnds (rest : List Token) : Prop :=
  ∀ t ∈ rest.head?, t.endsParameters = true ∧ t.isWord "elseif" = false

/-- The token can be the first one of a term. -/
structure OpensTerm (t : Token) : Prop where
  goesOn : t.endsPhrase = false
  noColon : t.isSymbol ':' = false

theorem cast?_eq_none {rest : List Token} (h : NoColon rest) (t : Token) :
    cast? (t :: rest) = none := by
  rcases rest with _ | ⟨colon, _ | ⟨⟨l, line⟩, rest⟩⟩
  · rfl
  · rfl
  · have hcolon : colon.isSymbol ':' = false := h colon rfl
    cases l <;> simp [cast?, hcolon]

theorem cast?_eq_none_of_operand {l : Lexeme} (h : castOperand? l = none) (line : Nat)
    (rest : List Token) : cast? (⟨l, line⟩ :: rest) = none := by
  rcases rest with _ | ⟨colon, _ | ⟨⟨l', line'⟩, rest⟩⟩
  · rfl
  · rfl
  · cases l' <;> simp [cast?, h]

theorem noColon_cons {t : Token} (h : t.isSymbol ':' = false) (rest : List Token) :
    NoColon (t :: rest) := by
  intro u hu
  obtain rfl : t = u := by simpa using hu
  exact h

theorem PhraseEnds.noColon {rest : List Token} (h : PhraseEnds rest) : NoColon rest := by
  intro t ht
  by_contra hcolon
  have hsymbol : t.lexeme = .symbol ':' := by simpa [Token.isSymbol] using hcolon
  have hends := h t ht
  simp [Token.endsPhrase, hsymbol, phraseEnds] at hends

theorem endsPhrase_of_endsParameters {t : Token} (h : t.endsParameters = true) :
    t.endsPhrase = true := by
  rcases t with ⟨l, line⟩
  cases l with
  | symbol c =>
      have hc : c ∈ parameterEnds := by simpa [Token.endsParameters] using h
      have hsub : ∀ d ∈ parameterEnds, phraseEnds.contains d = true :=
        List.all_eq_true.mp (by decide)
      exact hsub c hc
  | _ => simp_all [Token.endsParameters, Token.endsPhrase]

theorem StatementEnds.phraseEnds {rest : List Token} (h : StatementEnds rest) :
    PhraseEnds rest :=
  fun t ht ↦ endsPhrase_of_endsParameters (h t ht).1

/-! ## Words with a colon -/

theorem ne_of_colon {w v : String} (hw : ':' ∈ w.toList) (hv : ':' ∉ v.toList) : w ≠ v := by
  rintro rfl
  exact hv hw

theorem ofWord_of_colon {w : String} (hw : ':' ∈ w.toList) : Lexeme.ofWord w = .word w := by
  unfold Lexeme.ofWord
  split <;> first | rfl | exact absurd hw (by decide)

theorem splitColon?_cast {name status : String} (hname : ':' ∉ name.toList)
    (hstatus : ':' ∉ status.toList) :
    splitColon? (name ++ ":" ++ status) = some (name, status) := by
  have hnot {w : String} (hw : ':' ∉ w.toList) : ∀ c ∈ w.toList, (c != ':') = true := by
    intro c hc
    have hne : c ≠ ':' := fun h ↦ hw (h ▸ hc)
    simpa using hne
  have hlist : (name ++ ":" ++ status).toList = name.toList ++ ':' :: status.toList := by simp
  have htake : (name.toList ++ ':' :: status.toList).takeWhile (· != ':') = name.toList := by
    rw [List.takeWhile_append_of_pos (hnot hname)]
    simp
  have hdrop : (name.toList ++ ':' :: status.toList).dropWhile (· != ':') =
      ':' :: status.toList := by
    rw [List.dropWhile_append_of_pos (hnot hname)]
    simp
  have hall : status.toList.takeWhile (· != ':') = status.toList :=
    List.takeWhile_eq_self_iff.mpr (hnot hstatus)
  simp only [splitColon?, hlist, htake, hdrop, hall, String.ofList_toList]

theorem PlainName.toList_ne_nil {name : String} (hname : PlainName name) : name.toList ≠ [] := by
  obtain ⟨c, hc, -⟩ := hname.start
  intro hnil
  rw [hnil] at hc
  cases hc

theorem PlainName.noColon {name : String} (hname : PlainName name) : ':' ∉ name.toList := by
  intro hmem
  have hpart := hname.parts ':' hmem
  exact absurd hpart (by decide)

/-- A word that ends in a plain name is no command. -/
theorem beforeMark?_append (before : String) {name : String} (hname : PlainName name) :
    beforeMark? (before ++ name) = none := by
  have hlast : (before ++ name).toList.getLast? ≠ some '!' := by
    rw [String.toList_append, List.getLast?_append,
      List.getLast?_eq_some_getLast hname.toList_ne_nil, Option.some_or]
    intro hmark
    have hpart := hname.parts _ (List.getLast_mem hname.toList_ne_nil)
    rw [Option.some.inj hmark] at hpart
    exact absurd hpart (by decide)
  rw [beforeMark?, if_neg hlast]

theorem ofWord_plainStatus {status : Status} (hs : status ∈ plainStatuses) :
    Status.ofWord status.word = status ∧ Lexeme.ofWord status.word = .word status.word := by
  revert status
  decide

theorem Role.ofWord_cast {name status : String} (hname : PlainName name) (hs : PlainName status)
    (inPhrase : Bool) :
    Role.ofWord inPhrase (name ++ ":" ++ status) = .cast name (.ofWord status) := by
  have hcolon : ':' ∈ (name ++ ":" ++ status).toList := by simp
  have hplain : Role.ofPlainWord (name ++ ":" ++ status) = .cast name (.ofWord status) := by
    simp only [Role.ofPlainWord, beforeMark?_append _ hs,
      splitColon?_cast hname.noColon hs.noColon]
  generalize name ++ ":" ++ status = w at hcolon hplain ⊢
  unfold Role.ofWord
  split <;> first | exact hplain | exact absurd hcolon (by decide)

theorem isStopWord_cast (name : String) {status : String} (hs : PlainName status) :
    isStopWord (name ++ ":" ++ status) = false := by
  have hstops : ∀ w ∈ stopWords, ':' ∉ w.toList := by decide
  have hcolon : ':' ∈ (name ++ ":" ++ status).toList := by simp
  rw [isStopWord, beforeMark?_append _ hs, Option.getD_none]
  by_contra hstop
  have hmem : name ++ ":" ++ status ∈ stopWords := by simpa using hstop
  exact hstops _ hmem hcolon

/-! ## Terms -/

theorem opensTerm_of_literal {l : Lexeme} (hl : ∃ v, l = literalLexeme v) (line : Nat) :
    OpensTerm ⟨l, line⟩ := by
  obtain ⟨v, rfl⟩ := hl
  cases v <;> exact ⟨rfl, rfl⟩

theorem PlainTerm.opens {t : Node} (ht : PlainTerm t) {ts : List Token}
    (hts : ts.map Token.lexeme = t.lexemes) :
    ∃ first more, ts = first :: more ∧ OpensTerm first := by
  have hopen {l : Lexeme} {ls : List Lexeme} (h : t.lexemes = l :: ls)
      (ho : ∀ line, OpensTerm ⟨l, line⟩) : ∃ first more, ts = first :: more ∧ OpensTerm first := by
    obtain ⟨line, more, rfl, -⟩ := lexemes_cons (hts.trans h)
    exact ⟨_, more, rfl, ho line⟩
  cases ht with
  | number _ => exact hopen rfl (opensTerm_of_literal ⟨_, rfl⟩)
  | text _ => exact hopen rfl (opensTerm_of_literal ⟨_, rfl⟩)
  | boolean b => exact hopen rfl (opensTerm_of_literal ⟨_, rfl⟩)
  | null => exact hopen rfl (opensTerm_of_literal ⟨_, rfl⟩)
  | undefined => exact hopen rfl (opensTerm_of_literal ⟨_, rfl⟩)
  | comparison _ _ => exact hopen rfl fun _ ↦ ⟨rfl, rfl⟩
  | arithmetic _ _ _ => exact hopen rfl fun _ ↦ ⟨rfl, rfl⟩
  | random _ _ => exact hopen rfl fun _ ↦ ⟨rfl, rfl⟩
  | @cast operand status ho hs =>
      cases ho with
      | number _ => exact hopen rfl (opensTerm_of_literal ⟨_, rfl⟩)
      | text _ => exact hopen rfl (opensTerm_of_literal ⟨_, rfl⟩)
      | @identifier name hname =>
          have hcolon : ':' ∈ (name ++ ":" ++ status.word).toList := by simp
          have hword := ofWord_of_colon hcolon
          refine hopen (congrArg ([·]) hword) fun line ↦ ⟨?_, rfl⟩
          have his := ne_of_colon hcolon (v := "is") (by decide)
          simp [Token.endsPhrase, Token.isStop, isStopWord_cast name (plainName_status hs), Token.isWord, his]

theorem PlainTerm.noColon {t : Node} (ht : PlainTerm t) {ts : List Token}
    (hts : ts.map Token.lexeme = t.lexemes) (rest : List Token) : NoColon (ts ++ rest) := by
  obtain ⟨first, more, rfl, hopens⟩ := ht.opens hts
  exact noColon_cons hopens.noColon _

namespace Parser

/-- The tokens are read as the node, whatever follows, unless it makes a cast of them. -/
def ReadsTerm (ts : List Token) (node : Node) : Prop :=
  ∀ context inPhrase rest, NoColon rest →
    term context inPhrase (ts ++ rest) = .ok ⟨some node, ts.length⟩

theorem readsTerm_literal {v : Value} (hv : ∀ n, v = .number n → PlainNumber n) {ts : List Token}
    (hts : ts.map Token.lexeme = [literalLexeme v]) : ReadsTerm ts (.literal v) := by
  obtain ⟨line, ts', rfl, hnil⟩ := lexemes_cons hts
  obtain rfl : ts' = [] := by simpa using hnil
  intro context inPhrase rest hrest
  rw [List.singleton_append, term, cast?_eq_none hrest]
  cases v with
  | number n => simp [literalLexeme, numberNode, (hv n rfl).readBack]
  | _ => rfl

/-- A cast that is spelled as an operand, a colon and a status. -/
theorem readsTerm_cast {l : Lexeme} {operand : Node} {status : String}
    (hoperand : castOperand? l = some operand) (hword : Lexeme.ofWord status = .word status)
    {ts : List Token} (hts : ts.map Token.lexeme = [l, .symbol ':', .ofWord status]) :
    ReadsTerm ts (.cast operand (.ofWord status)) := by
  rw [hword] at hts
  obtain ⟨line₁, ts₁, rfl, h₁⟩ := lexemes_cons hts
  obtain ⟨line₂, ts₂, rfl, h₂⟩ := lexemes_cons h₁
  obtain ⟨line₃, ts₃, rfl, h₃⟩ := lexemes_cons h₂
  obtain rfl : ts₃ = [] := by simpa using h₃
  intro context inPhrase rest _
  have hcast : cast? (⟨l, line₁⟩ :: ⟨.symbol ':', line₂⟩ :: ⟨.word status, line₃⟩ :: rest) =
      some (.cast operand (.ofWord status)) := by
    simp [cast?, Token.isSymbol, hoperand]
  simp only [List.cons_append, List.nil_append]
  rw [term, hcast]
  rfl

/-- A cast that is spelled as one word. -/
theorem readsTerm_name {name status : String} (hname : PlainName name) (hs : PlainName status)
    {ts : List Token} (hts : ts.map Token.lexeme = [.ofWord (name ++ ":" ++ status)]) :
    ReadsTerm ts (.cast (.identifier name) (.ofWord status)) := by
  have hcolon : ':' ∈ (name ++ ":" ++ status).toList := by simp
  rw [ofWord_of_colon hcolon] at hts
  obtain ⟨line, ts', rfl, hnil⟩ := lexemes_cons hts
  obtain rfl : ts' = [] := by simpa using hnil
  intro context inPhrase rest hrest
  rw [List.singleton_append, term, cast?_eq_none hrest]
  simp only [Role.ofWord_cast hname hs, wordTerm]
  rfl

/-- The inside of a group: two terms around an operator, and the closing bracket. -/
theorem group_join {left right : Node} {junction : Junction} {tl tr : List Token} {tj tc : Token}
    (hl : ReadsTerm tl left) (hr : ReadsTerm tr right)
    (hj : ∀ rest, Junction.ofTokens? (tj :: rest) = some junction)
    (hjcolon : tj.isSymbol ':' = false) (hc : tc.lexeme = .symbol ')')
    (context : List Rule) (rest : List Token) :
    group context (tl ++ tj :: (tr ++ tc :: rest)) =
      .ok ⟨some (junction.join left right), tl.length + (1 + tr.length) + 1⟩ := by
  have hccolon : tc.isSymbol ':' = false := by simp [Token.isSymbol, hc]
  have hleft := hl context false (tj :: (tr ++ tc :: rest)) (noColon_cons hjcolon _)
  have hright := hr context false (tc :: rest) (noColon_cons hccolon _)
  have hclosing : leading (·.isSymbol ')') (tc :: rest) = 1 := by
    simp [leading, Token.isSymbol, hc]
  have hdrop : (tj :: (tr ++ tc :: rest)).drop (1 + tr.length) = tc :: rest := by
    rw [Nat.add_comm, List.drop_succ_cons, List.drop_left]
  rw [group, hleft]
  simp only [bind, Except.bind, List.drop_left, hj, List.drop_succ_cons, List.drop_zero, hright,
    hdrop, hclosing]
  rfl

/-- A group with brackets around two terms and an operator. -/
theorem readsTerm_group {left right : Node} {l : Lexeme} {ts : List Token} (junction : Junction)
    (hts : ts.map Token.lexeme =
      .symbol '(' :: left.lexemes ++ l :: right.lexemes ++ [.symbol ')'])
    (hl : ∀ tl, tl.map Token.lexeme = left.lexemes → ReadsTerm tl left)
    (hr : ∀ tr, tr.map Token.lexeme = right.lexemes → ReadsTerm tr right)
    (hj : ∀ line rest, Junction.ofTokens? (⟨l, line⟩ :: rest) = some junction)
    (hcolon : l ≠ .symbol ':') : ReadsTerm ts (junction.join left right) := by
  simp only [List.cons_append, List.append_assoc] at hts
  obtain ⟨line₁, ts₁, rfl, h₁⟩ := lexemes_cons hts
  obtain ⟨tl, ts₂, rfl, htl, h₂⟩ := List.map_eq_append_iff.mp h₁
  obtain ⟨line₃, ts₃, rfl, h₃⟩ := lexemes_cons h₂
  obtain ⟨tr, ts₄, rfl, htr, h₄⟩ := List.map_eq_append_iff.mp h₃
  obtain ⟨line₅, ts₅, rfl, h₅⟩ := lexemes_cons h₄
  obtain rfl : ts₅ = [] := by simpa using h₅
  intro context inPhrase rest _
  have hnot : (⟨l, line₃⟩ : Token).isSymbol ':' = false := by simpa [Token.isSymbol] using hcolon
  have hclose : (⟨.symbol ')', line₅⟩ : Token).lexeme = .symbol ')' := rfl
  have hgroup := group_join (hl tl htl) (hr tr htr) (hj line₃) hnot hclose (.group :: context) rest
  simp only [List.cons_append, List.append_assoc, List.nil_append]
  rw [term, cast?_eq_none_of_operand rfl]
  simp only [if_true, hgroup, Except.map, Taken.after, List.length_cons, List.length_append,
    List.length_nil]
  congr 2
  omega

theorem readsTerm_random {low high : Node} {ts : List Token}
    (hts : ts.map Token.lexeme = .random :: low.lexemes ++ high.lexemes)
    (hl : ∀ tl, tl.map Token.lexeme = low.lexemes → ReadsTerm tl low)
    (hh : ∀ th, th.map Token.lexeme = high.lexemes → ReadsTerm th high)
    (hnext : ∀ th, th.map Token.lexeme = high.lexemes → ∀ rest, NoColon (th ++ rest)) :
    ReadsTerm ts (.random low high) := by
  obtain ⟨line₁, ts₁, rfl, h₁⟩ := lexemes_cons hts
  obtain ⟨tl, th, rfl, htl, hth⟩ := List.map_eq_append_iff.mp h₁
  intro context inPhrase rest hrest
  have hlow := hl tl htl (.random :: context) false (th ++ rest) (hnext th hth rest)
  have hhigh := hh th hth (.random :: context) false rest hrest
  simp only [List.cons_append, List.append_assoc]
  rw [term, cast?_eq_none_of_operand rfl]
  simp only [bounds, hlow, bind, Except.bind, List.drop_left, hhigh, pure, Except.pure, Except.map,
    Taken.after, Option.getD_some, List.length_cons, List.length_append]
  congr 2
  omega

end Parser

theorem PlainTerm.reads {t : Node} (ht : PlainTerm t) {ts : List Token}
    (hts : ts.map Token.lexeme = t.lexemes) : Parser.ReadsTerm ts t := by
  induction ht generalizing ts with
  | number hn => exact Parser.readsTerm_literal (by simp_all) hts
  | text _ => exact Parser.readsTerm_literal (by simp) hts
  | boolean b => exact Parser.readsTerm_literal (by simp) hts
  | null => exact Parser.readsTerm_literal (by simp) hts
  | undefined => exact Parser.readsTerm_literal (by simp) hts
  | cast ho hs =>
      obtain ⟨hstatus, hword⟩ := ofWord_plainStatus hs
      rw [← hstatus]
      cases ho with
      | number hn =>
          refine Parser.readsTerm_cast ?_ hword hts
          simp [castOperand?, literalLexeme, numberNode, hn.readBack]
      | text _ => exact Parser.readsTerm_cast rfl hword hts
      | identifier hname => exact Parser.readsTerm_name hname (plainName_status hs) hts
  | comparison hl hr ihl ihr =>
      exact Parser.readsTerm_group .equality hts (fun _ ↦ ihl) (fun _ ↦ ihr)
        (fun _ _ ↦ rfl) (by simp)
  | arithmetic op hl hr ihl ihr =>
      refine Parser.readsTerm_group (.operator op) hts (fun _ ↦ ihl) (fun _ ↦ ihr)
        (fun _ _ ↦ ?_) ?_
      · cases op <;> rfl
      · cases op <;> decide
  | random hl hh ihl ihh =>
      exact Parser.readsTerm_random hts (fun _ ↦ ihl) (fun _ ↦ ihh) fun _ ↦ hh.noColon

/-! ## Values and lists of values -/

theorem phraseEnds_cons {t : Token} (h : t.endsPhrase = true) (rest : List Token) :
    PhraseEnds (t :: rest) := by
  intro u hu
  obtain rfl : t = u := by simpa using hu
  exact h

/-- What follows a term of a phrase is another term or the end of the phrase. -/
theorem noColon_terms {terms : List Node} (hterms : ∀ t ∈ terms, PlainTerm t) {ts : List Token}
    (hts : ts.map Token.lexeme = lexemesEach terms) {rest : List Token} (hrest : NoColon rest) :
    NoColon (ts ++ rest) := by
  cases terms with
  | nil =>
      obtain rfl : ts = [] := by simpa [lexemesEach] using hts
      exact hrest
  | cons t terms =>
      obtain ⟨tt, tm, rfl, htt, -⟩ := List.map_eq_append_iff.mp hts
      rw [List.append_assoc]
      exact (hterms t List.mem_cons_self).noColon htt _

namespace Parser

theorem phraseParts_nil (context : List Rule) {rest : List Token} (hrest : PhraseEnds rest) :
    phraseParts context rest = .ok ⟨[], 0⟩ := by
  cases rest with
  | nil => rw [phraseParts]
  | cons t rest => rw [phraseParts, if_pos (hrest t rfl)]

/-- A part of a phrase, and the parts behind it. -/
theorem phraseParts_cons {context : List Rule} {t : Token} {rest : List Token} {part : Node}
    {n : Nat} (hpart : term context true (t :: rest) = .ok ⟨some part, n + 1⟩)
    (hgoesOn : t.endsPhrase = false) {more : List Node} {count : Nat}
    (hmore : phraseParts context (rest.drop n) = .ok ⟨more, count⟩) :
    phraseParts context (t :: rest) = .ok ⟨part :: more, n + 1 + count⟩ := by
  rw [phraseParts, hgoesOn]
  simp only [Bool.false_eq_true, if_false, bind, Except.bind, hpart, Nat.add_sub_cancel, hmore,
    pure, Except.pure, Nat.add_comm 1]

theorem phraseParts_terms {more : List Node} (hmore : ∀ t ∈ more, PlainTerm t) {ts : List Token}
    (hts : ts.map Token.lexeme = lexemesEach more) (context : List Rule) {rest : List Token}
    (hrest : PhraseEnds rest) :
    phraseParts context (ts ++ rest) = .ok ⟨more, ts.length⟩ := by
  induction more generalizing ts with
  | nil =>
      obtain rfl : ts = [] := by simpa [lexemesEach] using hts
      exact phraseParts_nil context hrest
  | cons t more ih =>
      obtain ⟨tt, tm, rfl, htt, htm⟩ := List.map_eq_append_iff.mp hts
      have ht := hmore t List.mem_cons_self
      have hmore' : ∀ u ∈ more, PlainTerm u := fun u hu ↦ hmore u (List.mem_cons_of_mem _ hu)
      have hrec := ih hmore' htm
      have hnext := noColon_terms hmore' htm hrest.noColon
      have hterm := ht.reads htt context true (tm ++ rest) hnext
      obtain ⟨first, others, rfl, hopens⟩ := ht.opens htt
      have hparts : phraseParts context ((others ++ (tm ++ rest)).drop others.length) =
          .ok ⟨more, tm.length⟩ := by
        rw [List.drop_left, hrec]
      rw [List.append_assoc, List.length_append]
      exact phraseParts_cons hterm hopens.goesOn hparts

/-- A phrase of a single term. -/
theorem phrase_term {ts : List Token} {v : Node} (hv : ReadsTerm ts v) (context : List Rule)
    {rest : List Token} (hrest : PhraseEnds rest) :
    phrase context (ts ++ rest) = .ok ⟨some v, ts.length⟩ := by
  rw [phrase, hv context true rest hrest.noColon]
  simp only [bind, Except.bind, List.drop_left, phraseParts_nil context hrest]
  split <;> rfl

/-- A phrase of a term that something is joined to. -/
theorem phrase_join {context : List Rule} {ts : List Token} {first : Node} {count : Nat}
    (hfirst : term context true ts = .ok ⟨some first, count⟩) (hjoins : first.standsAlone = false)
    {more : List Node} {n : Nat} (hmore : phraseParts context (ts.drop count) = .ok ⟨more, n⟩)
    (hne : more ≠ []) :
    phrase context ts = .ok ⟨some (.phrase (first :: more)), count + n⟩ := by
  have hjoin : joinParts first more = .phrase (first :: more) := by
    simp [joinParts, hne]
  rw [phrase, hfirst]
  simp only [bind, Except.bind, hjoins, Bool.false_eq_true, if_false, hmore, hjoin]
  rfl

end Parser

theorem PlainValue.reads {v : Node} (hv : PlainValue v) {ts : List Token}
    (hts : ts.map Token.lexeme = v.lexemes) (context : List Rule) {rest : List Token}
    (hrest : PhraseEnds rest) :
    Parser.phrase context (ts ++ rest) = .ok ⟨some v, ts.length⟩ := by
  cases hv with
  | term ht => exact Parser.phrase_term (ht.reads hts) context hrest
  | @phrase first more hfirst hjoins hmore hne =>
      obtain ⟨tf, tm, rfl, htf, htm⟩ := List.map_eq_append_iff.mp hts
      have hnext := noColon_terms hmore htm hrest.noColon
      have hterm := hfirst.reads htf context true (tm ++ rest) hnext
      have hparts : Parser.phraseParts context ((tf ++ (tm ++ rest)).drop tf.length) =
          .ok ⟨more, tm.length⟩ := by
        rw [List.drop_left]
        exact Parser.phraseParts_terms hmore htm context hrest
      rw [List.append_assoc, Parser.phrase_join hterm hjoins hparts hne, List.length_append]

theorem PlainValue.opens {v : Node} (hv : PlainValue v) {ts : List Token}
    (hts : ts.map Token.lexeme = v.lexemes) :
    ∃ first more, ts = first :: more ∧ OpensTerm first := by
  cases hv with
  | term ht => exact ht.opens hts
  | phrase hfirst _ _ _ =>
      obtain ⟨tf, tm, rfl, htf, -⟩ := List.map_eq_append_iff.mp hts
      obtain ⟨first, more, rfl, hopens⟩ := hfirst.opens htf
      exact ⟨first, more ++ tm, rfl, hopens⟩

theorem phraseEnds_values {values : List Node} {ts : List Token}
    (hts : ts.map Token.lexeme = lexemesMore values) {rest : List Token} (hrest : PhraseEnds rest) :
    PhraseEnds (ts ++ rest) := by
  cases values with
  | nil =>
      obtain rfl : ts = [] := by simpa [lexemesMore] using hts
      exact hrest
  | cons v values =>
      obtain ⟨line, ts', rfl, -⟩ := lexemes_cons hts
      exact phraseEnds_cons rfl _

namespace Parser

theorem parameters_value {v : Node} (hv : PlainValue v) {ts : List Token}
    (hts : ts.map Token.lexeme = v.lexemes) {context : List Rule} {rest : List Token}
    (hrest : PhraseEnds rest) {more : List Node} {count : Nat}
    (hmore : parameters context rest = .ok ⟨more, count⟩) :
    parameters context (ts ++ rest) = .ok ⟨v :: more, ts.length + count⟩ := by
  have hphrase := hv.reads hts (.phrase :: context) hrest
  obtain ⟨first, others, rfl, hopens⟩ := hv.opens hts
  have hgoesOn : first.endsParameters = false := by
    by_contra hends
    have hphraseEnds := endsPhrase_of_endsParameters (by simpa using hends)
    simp [hopens.goesOn] at hphraseEnds
  have hcomma : first.isSymbol ',' = false := by
    by_contra hc
    have hsymbol : first.lexeme = .symbol ',' := by simpa [Token.isSymbol] using hc
    have hgoes := hopens.goesOn
    simp [Token.endsPhrase, hsymbol, phraseEnds] at hgoes
  rw [List.cons_append] at hphrase
  rw [List.cons_append, parameters, hgoesOn, hcomma]
  simp only [Bool.false_eq_true, if_false, bind, Except.bind, hphrase, List.length_cons,
    Nat.add_sub_cancel, List.drop_left, hmore, pure, Except.pure, Option.toList_some,
    List.singleton_append]
  congr 2
  omega

/-- Values after the first one, each behind a comma. -/
theorem parameters_more {values : List Node} (hvalues : ∀ v ∈ values, PlainValue v)
    {ts : List Token} (hts : ts.map Token.lexeme = lexemesMore values) (context : List Rule)
    {rest : List Token} (hrest : ∀ t ∈ rest.head?, t.endsParameters = true) :
    parameters context (ts ++ rest) = .ok ⟨values, ts.length⟩ := by
  have hends : PhraseEnds rest := fun t ht ↦ endsPhrase_of_endsParameters (hrest t ht)
  induction values generalizing ts with
  | nil =>
      obtain rfl : ts = [] := by simpa [lexemesMore] using hts
      cases rest with
      | nil => rw [List.nil_append, parameters]; rfl
      | cons t rest => rw [List.nil_append, parameters, if_pos (hrest t rfl)]; rfl
  | cons v values ih =>
      obtain ⟨line, ts', rfl, hts'⟩ := lexemes_cons hts
      obtain ⟨tv, tm, rfl, htv, htm⟩ := List.map_eq_append_iff.mp hts'
      have hmore := ih (fun u hu ↦ hvalues u (List.mem_cons_of_mem _ hu)) htm
      have hvalue := parameters_value (hvalues v List.mem_cons_self) htv
        (phraseEnds_values htm hends) hmore
      have hcomma : (⟨.symbol ',', line⟩ : Token).endsParameters = false := rfl
      have hsymbol : (⟨.symbol ',', line⟩ : Token).isSymbol ',' = true := rfl
      rw [List.cons_append, List.append_assoc, parameters, hcomma, hsymbol, hvalue]
      simp only [Bool.false_eq_true, if_false, if_true, Except.map, Taken.after, List.length_cons,
        List.length_append]
      congr 2
      omega

theorem parameters_values {values : List Node} (hvalues : ∀ v ∈ values, PlainValue v)
    {ts : List Token} (hts : ts.map Token.lexeme = lexemesList values) (context : List Rule)
    {rest : List Token} (hrest : ∀ t ∈ rest.head?, t.endsParameters = true) :
    parameters context (ts ++ rest) = .ok ⟨values, ts.length⟩ := by
  cases values with
  | nil => exact parameters_more hvalues hts context hrest
  | cons v values =>
      obtain ⟨tv, tm, rfl, htv, htm⟩ := List.map_eq_append_iff.mp hts
      have hends : PhraseEnds rest := fun t ht ↦ endsPhrase_of_endsParameters (hrest t ht)
      have hmore := parameters_more (fun u hu ↦ hvalues u (List.mem_cons_of_mem _ hu)) htm context
        hrest
      have hvalue := parameters_value (hvalues v List.mem_cons_self) htv
        (phraseEnds_values htm hends) hmore
      rw [List.append_assoc, hvalue, List.length_append]

end Parser

end VexLang
