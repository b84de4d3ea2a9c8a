import VexLang.Proofs.Node.RoundTrip
import VexLang.Proofs.Run.Inline
import VexLang.Session

/-!
# Blanks around the colon of a cast

A cast of a bare word can be spelled as one word, `n:num`, or as three lexemes, `n : num`. The
first is taken apart where the role of the word is looked up, the second is recognised before
any role is. Where both words are lexemes of the same kind as any other word, the two are the
same tree. Where the status has a lexeme of its own, the second is a phrase instead, and both
fail on the bare word in front of the colon before anything else is done.

A word in front of the colon that has a lexeme of its own keeps its meaning only in the second
spelling.
-/

namespace VexLang

open Effect

/-- A declaration with a cast that is spelled as one word. -/
def joinedCast (w s : String) : String :=
  "this 'x' is " ++ (w ++ ":" ++ s)

/-- A declaration with a cast that is spelled with blanks around the colon. -/
def spacedCast (w s : String) : String :=
  "this 'x' is " ++ (w ++ " : " ++ s)

/-- The words that have a lexeme of their own. -/
def reservedWords : List String :=
  ["yup", "nah", "null", "undefined", "random", "bussin"]

/-- The words that are no values inside a phrase, either. -/
def openingWords : List String :=
  ["if", "elseif", "fr", "this", "set"]

theorem ofWord_of_not_reserved {w : String} (h : w ∉ reservedWords) :
    Lexeme.ofWord w = .word w := by
  unfold Lexeme.ofWord
  split <;> first | rfl | exact absurd (by decide) h

/-! ## Lexemes -/

theorem spells_opening :
    Spells noPart "this 'x' is ".toList [.word "this", .text "x", .word "is"] := by
  have hthis : Spells noPart ("this".toList ++ [' ']) [.word "this"] :=
    spells_keyword rfl rfl rfl
  have hname : Spells noPart ('\'' :: "x".toList ++ ['\'']) [.text "x"] :=
    Spells.quoted rfl (by decide)
  exact hthis.append_closed (hname.append_closed Spells.equality)

theorem spells_joinedCast {w s : String} (hw : PlainName w) (hs : PlainName s) :
    Spells isWordPart (joinedCast w s).toList
      [.word "this", .text "x", .word "is", .ofWord (w ++ ":" ++ s)] := by
  rw [joinedCast, String.toList_append]
  exact spells_opening.append_closed (hw.spells_cast hs)

theorem spells_spacedCast {w s : String} (hw : PlainName w) (hs : PlainName s) :
    Spells isWordPart (spacedCast w s).toList
      [.word "this", .text "x", .word "is", .ofWord w, .symbol ':', .ofWord s] := by
  have hcolon : Spells noPart [':', ' '] [.symbol ':'] :=
    (Spells.symbol (by decide) (by decide)).close rfl rfl
  have hcast := (hw.spells.close (c := ' ') rfl rfl).append_closed (hcolon.append_closed hs.spells)
  have h := spells_opening.append_closed hcast
  simpa [spacedCast] using h

theorem ofSource_of_spells {part : Char → Bool} {source : String} {ls : List Lexeme}
    (hspells : Spells part source.toList ls) {program : Program}
    (hread : ∀ ts : List Token, ts.map Token.lexeme = ls → Program.ofTokens ts = .ok program) :
    Program.ofSource source = .ok program := by
  obtain ⟨ts, hts, htokens⟩ := hspells.tokens_eq
  simp only [Program.ofSource, htokens, hread ts hts]

/-! ## Trees -/

/-- What is declared is read up to the end of its value, and goes on behind it. -/
theorem ofTokens_declaration {ts : List Token} {v : Node} {count n : Nat} {more : Program}
    (hv : Parser.phrase [.phrase, .declaration, .program] ts = .ok ⟨some v, count⟩)
    (hmore : Parser.statements [.program] false (ts.drop count) = .ok ⟨more, n⟩)
    (line₁ line₂ line₃ : Nat) :
    Program.ofTokens (⟨.word "this", line₁⟩ :: ⟨.text "x", line₂⟩ :: ⟨.word "is", line₃⟩ :: ts) =
      .ok (.declaration "x" v false :: more) := by
  have hrole : Role.ofWord false "this" = .declaration false := rfl
  have hread := Parser.declaration_value "x" hv false line₂ line₃
  have hterm := Parser.term_word hrole line₁ (noColon_cons rfl _)
    (by rw [Parser.wordTerm]; exact hread)
  rw [Program.ofTokens, Parser.statements_first hterm (Bool.false_and _) hmore]
  rfl

theorem lexemes_opening {ts : List Token} {ls : List Lexeme}
    (h : ts.map Token.lexeme = .word "this" :: .text "x" :: .word "is" :: ls) :
    ∃ line₁ line₂ line₃ ts', ts = ⟨.word "this", line₁⟩ :: ⟨.text "x", line₂⟩ ::
      ⟨.word "is", line₃⟩ :: ts' ∧ ts'.map Token.lexeme = ls := by
  obtain ⟨line₁, ts₁, rfl, h₁⟩ := lexemes_cons h
  obtain ⟨line₂, ts₂, rfl, h₂⟩ := lexemes_cons h₁
  obtain ⟨line₃, ts₃, rfl, h₃⟩ := lexemes_cons h₂
  exact ⟨line₁, line₂, line₃, ts₃, rfl, h₃⟩

/-- A declaration of a single term. -/
theorem ofTokens_declaration_term {ls : List Lexeme} {v : Node}
    (hv : ∀ ts : List Token, ts.map Token.lexeme = ls → Parser.ReadsTerm ts v) {ts : List Token}
    (hts : ts.map Token.lexeme = .word "this" :: .text "x" :: .word "is" :: ls) :
    Program.ofTokens ts = .ok [.declaration "x" v false] := by
  obtain ⟨line₁, line₂, line₃, ts', rfl, hts'⟩ := lexemes_opening hts
  have hnone : PhraseEnds [] := by
    intro t ht
    cases ht
  have hphrase := Parser.phrase_term (hv ts' hts') [.phrase, .declaration, .program] hnone
  have hend : Parser.statements [.program] false (ts'.drop ts'.length) = .ok ⟨[], 0⟩ := by
    rw [List.drop_length, Parser.statements]
  rw [List.append_nil] at hphrase
  exact ofTokens_declaration hphrase hend line₁ line₂ line₃

theorem ofSource_joinedCast {w s : String} (hw : PlainName w) (hs : PlainName s) :
    Program.ofSource (joinedCast w s) =
      .ok [.declaration "x" (.cast (.identifier w) (.ofWord s)) false] :=
  ofSource_of_spells (spells_joinedCast hw hs) fun _ hts ↦
    ofTokens_declaration_term (fun _ hcast ↦ Parser.readsTerm_name hw hs hcast) hts

/-- With a status that is a word like any other, the operand is what stands before the colon. -/
theorem ofSource_spacedCast {w s : String} (hw : PlainName w) (hs : PlainName s) {operand : Node}
    (hoperand : castOperand? (.ofWord w) = some operand) (hstatus : s ∉ reservedWords) :
    Program.ofSource (spacedCast w s) =
      .ok [.declaration "x" (.cast operand (.ofWord s)) false] :=
  ofSource_of_spells (spells_spacedCast hw hs) fun _ hts ↦
    ofTokens_declaration_term
      (fun _ hcast ↦ Parser.readsTerm_cast hoperand (ofWord_of_not_reserved hstatus) hcast) hts

/-! ### A status with a lexeme of its own -/

theorem splitColon?_eq_none {name : String} (h : ':' ∉ name.toList) : splitColon? name = none := by
  have hall : name.toList.dropWhile (· != ':') = [] := by
    rw [List.dropWhile_eq_nil_iff]
    intro c hc
    have hne : c ≠ ':' := fun hcolon ↦ h (hcolon ▸ hc)
    simpa using hne
  rw [splitColon?, hall]

/-- Inside a phrase a plain name is nothing but a word, unless it opens a statement. -/
theorem Role.ofWord_name {name : String} (hname : PlainName name) (hopens : name ∉ openingWords) :
    Role.ofWord true name = .identifier name := by
  have hplain : Role.ofPlainWord name = .identifier name := by
    have hmark : beforeMark? ("" ++ name) = none := beforeMark?_append "" hname
    rw [String.empty_append] at hmark
    simp only [Role.ofPlainWord, hmark, splitColon?_eq_none hname.noColon]
  unfold Role.ofWord
  split <;> first | exact hplain | exact absurd (by decide) hopens

theorem cast?_eq_none_of_status {l : Lexeme} (hl : ∀ name, l ≠ .word name) (t colon : Token)
    (line : Nat) (rest : List Token) : cast? (t :: colon :: ⟨l, line⟩ :: rest) = none := by
  cases l with
  | word name => exact absurd rfl (hl name)
  | _ => rfl

namespace Parser

/-- At the end of the input a word with a lexeme of its own is a part of a phrase, unless it
ends the program. -/
theorem term_reserved {s : String} (hs : s ∈ reservedWords) (hgoesOn : s ≠ "bussin")
    (context : List Rule) (line : Nat) :
    (⟨.ofWord s, line⟩ : Token).endsPhrase = false ∧
      ∃ part, term context true [⟨.ofWord s, line⟩] = .ok ⟨some part, 1⟩ := by
  have hbounds (context : List Rule) : bounds context [] =
      .ok ⟨some (.random .undefined .undefined), 0⟩ := by
    simp only [bounds, List.drop_nil, term, bind, Except.bind]
    rfl
  simp only [reservedWords, List.mem_cons, List.not_mem_nil, or_false] at hs
  rcases hs with rfl | rfl | rfl | rfl | rfl | rfl
  · exact ⟨rfl, .literal (.boolean true), by rw [term]; rfl⟩
  · exact ⟨rfl, .literal (.boolean false), by rw [term]; rfl⟩
  · exact ⟨rfl, .literal .null, by rw [term]; rfl⟩
  · exact ⟨rfl, .undefined, by rw [term]; rfl⟩
  · refine ⟨rfl, .random .undefined .undefined, ?_⟩
    rw [term]
    simp only [cast?, Lexeme.ofWord, hbounds]
    rfl
  · exact absurd rfl hgoesOn

/-- Behind a word, a colon and a lexeme of its own are parts of the phrase, and what is left of
them is read as a program. -/
theorem phraseParts_colon {s : String} (hs : s ∈ reservedWords) (context : List Rule)
    (line₁ line₂ : Nat) :
    ∃ more count after n,
      phraseParts context [⟨.symbol ':', line₁⟩, ⟨.ofWord s, line₂⟩] =
        .ok ⟨.text ":" :: more, count⟩ ∧
      statements [.program] false ([⟨.symbol ':', line₁⟩, ⟨.ofWord s, line₂⟩].drop count) =
        .ok ⟨after, n⟩ := by
  have hcolon : term context true [⟨.symbol ':', line₁⟩, ⟨.ofWord s, line₂⟩] =
      .ok ⟨some (.text ":"), 1⟩ := by
    rw [term, cast?_eq_none_of_operand rfl]
    rfl
  have hend : statements [.program] false [] = .ok ⟨[], 0⟩ := by rw [statements]
  by_cases hgoesOn : s = "bussin"
  · subst hgoesOn
    have hends : phraseParts context [⟨.ofWord "bussin", line₂⟩] = .ok ⟨[], 0⟩ :=
      phraseParts_nil context (phraseEnds_cons rfl [])
    refine ⟨_, _, [.bussin], 1, phraseParts_cons hcolon rfl hends, ?_⟩
    have hterm : term [.program] false [⟨.ofWord "bussin", line₂⟩] = .ok ⟨some .bussin, 1⟩ := by
      rw [term]
      rfl
    exact statements_first hterm (Bool.false_and _) hend
  · obtain ⟨hpart, part, hterm⟩ := term_reserved hs hgoesOn context line₂
    have hnil : phraseParts context [] = .ok ⟨[], 0⟩ := by rw [phraseParts]
    refine ⟨_, _, [], 0, phraseParts_cons hcolon rfl (phraseParts_cons hterm hpart hnil), ?_⟩
    exact hend

end Parser

theorem ofWord_ne_word {s : String} (hs : s ∈ reservedWords) (name : String) :
    Lexeme.ofWord s ≠ .word name := by
  simp only [reservedWords, List.mem_cons, List.not_mem_nil, or_false] at hs
  rcases hs with rfl | rfl | rfl | rfl | rfl | rfl <;> exact Lexeme.noConfusion

/-- With a status that is no word like any other, the colon and the status are parts of a phrase
that begins with the bare word. -/
theorem ofSource_spacedCast_reserved {w s : String} (hw : PlainName w) (hs : PlainName s)
    (hoperand : w ∉ reservedWords) (hopens : w ∉ openingWords) (hstatus : s ∈ reservedWords) :
    ∃ more after, Program.ofSource (spacedCast w s) =
      .ok (.declaration "x" (.phrase (.identifier w :: more)) false :: after) := by
  obtain ⟨ts, hts, htokens⟩ := (spells_spacedCast hw hs).tokens_eq
  rw [ofWord_of_not_reserved hoperand] at hts
  obtain ⟨line₁, line₂, line₃, ts₃, rfl, h₃⟩ := lexemes_opening hts
  obtain ⟨line₄, ts₄, rfl, h₄⟩ := lexemes_cons h₃
  obtain ⟨line₅, ts₅, rfl, h₅⟩ := lexemes_cons h₄
  obtain ⟨line₆, ts₆, rfl, h₆⟩ := lexemes_cons h₅
  obtain rfl : ts₆ = [] := List.map_eq_nil_iff.mp h₆
  obtain ⟨more, count, after, n, hparts, hafter⟩ :=
    Parser.phraseParts_colon hstatus [.phrase, .declaration, .program] line₅ line₆
  have hfirst : Parser.term [.phrase, .declaration, .program] true
      [⟨.word w, line₄⟩, ⟨.symbol ':', line₅⟩, ⟨.ofWord s, line₆⟩] =
        .ok ⟨some (.identifier w), 1⟩ := by
    rw [Parser.term, cast?_eq_none_of_status (ofWord_ne_word hstatus)]
    simp only [Role.ofWord_name hw hopens, Parser.wordTerm]
    rfl
  have hphrase := Parser.phrase_join hfirst rfl hparts (List.cons_ne_nil _ _)
  have hread := ofTokens_declaration hphrase
    (by rw [Nat.add_comm, List.drop_succ_cons]; exact hafter) line₁ line₂ line₃
  exact ⟨.text ":" :: more, after, by simp only [Program.ofSource, htokens, hread]⟩

/-! ## Runs -/

/-- The node fails before anything else is done. -/
def FailsAtOnce (e : RunError) (node : Node) : Prop :=
  ∀ host fuel w, eval host fuel node w = .error (.failed e) w

theorem failsAtOnce_word {name : String} (h : name ∉ reservedWords) :
    FailsAtOnce (.unquoted name) (.identifier name) := by
  intro host fuel w
  rw [eval]
  unfold wordValue
  split
  · exact absurd (by decide) h
  · exact absurd (by decide) h
  · rfl

namespace FailsAtOnce

variable {e : RunError} {node : Node}

theorem cast (h : FailsAtOnce e node) {status : Status} (hs : status ≠ .var) :
    FailsAtOnce e (.cast node status) := by
  intro host fuel w
  rw [eval, bind_of_error (h host fuel w)]
  exact fun _ _ hvar ↦ hs hvar

theorem phrase (h : FailsAtOnce e node) (more : List Node) :
    FailsAtOnce e (.phrase (node :: more)) := by
  intro host fuel w
  rw [eval, evalEach]
  exact bind_of_error (bind_of_error (h host fuel w) _) _

theorem declaration (h : FailsAtOnce e node) (name : String) (constant : Bool) :
    FailsAtOnce e (.declaration name node constant) := by
  intro host fuel w
  rw [eval]
  exact bind_of_error (h host fuel w) _

end FailsAtOnce

/-! ## Steps of a session -/

/-- How a step ends, whatever the statement that an error is reported for. -/
def StepResult.ending : StepResult → Except SourceError (Option Stop)
  | unreadable e => .error e
  | ran outcome => .ok outcome.stop?

/-- Two steps end alike, show the same and leave the same behind. -/
structure StepReport.Alike (r r' : StepReport) : Prop where
  ending : r.result.ending = r'.result.ending
  events : r.events = r'.events
  env : r.env = r'.env
  drawn : r.drawn = r'.drawn

/-- In every environment and under every host, the two texts do the same. -/
def SourcesAlike (source source' : String) : Prop :=
  ∀ chance fuel env interrupted raiseAt closeAt,
    (SessionStep.perform chance fuel env ⟨source, interrupted, raiseAt, closeAt⟩).Alike
      (SessionStep.perform chance fuel env ⟨source', interrupted, raiseAt, closeAt⟩)

theorem sourcesAlike_of_eq {source source' : String}
    (h : Program.ofSource source = Program.ofSource source') : SourcesAlike source source' := by
  intro chance fuel env interrupted raiseAt closeAt
  simp only [SessionStep.perform, h]
  exact ⟨rfl, rfl, rfl, rfl⟩

theorem FailsAtOnce.perform {e : RunError} {node : Node} (h : FailsAtOnce e node)
    {program : Program} {step : SessionStep}
    (hsource : Program.ofSource step.source = .ok (node :: program)) (chance : Nat → Float)
    (fuel : Nat) (env : Environment) :
    step.perform chance fuel env = ⟨.ran (.failed e node), [], env, 0⟩ := by
  have hrun (host : Host) (w : World) :
      run host fuel (node :: program) w = (.failed e node, w) := by
    rw [run, EStateM.run, h]
    rfl
  simp only [SessionStep.perform, hsource, hrun]
  rfl

theorem sourcesAlike_of_failsAtOnce {e : RunError} {source source' : String}
    {node node' : Node} {program program' : Program}
    (hsource : Program.ofSource source = .ok (node :: program)) (h : FailsAtOnce e node)
    (hsource' : Program.ofSource source' = .ok (node' :: program')) (h' : FailsAtOnce e node') :
    SourcesAlike source source' := by
  intro chance fuel env interrupted raiseAt closeAt
  rw [h.perform hsource, h'.perform hsource']
  exact ⟨rfl, rfl, rfl, rfl⟩

/-- Blanks around the colon make no difference for a word in front of it that has no lexeme of
its own. If the status has one, the word must not open a statement, either. -/
theorem cast_spellings_alike {w s : String} (hw : PlainName w) (hs : PlainName s)
    (hoperand : w ∉ reservedWords) (hstatus : s ∈ reservedWords → w ∉ openingWords) :
    SourcesAlike (joinedCast w s) (spacedCast w s) := by
  by_cases hreserved : s ∈ reservedWords
  · obtain ⟨more, after, hspaced⟩ :=
      ofSource_spacedCast_reserved hw hs hoperand (hstatus hreserved) hreserved
    have hword := failsAtOnce_word hoperand
    have hvar : ∀ s ∈ reservedWords, Status.ofWord s ≠ .var := by decide
    exact sourcesAlike_of_failsAtOnce (ofSource_joinedCast hw hs)
      ((hword.cast (hvar s hreserved)).declaration "x" false) hspaced
      ((hword.phrase more).declaration "x" false)
  · have hword : castOperand? (.ofWord w) = some (.identifier w) := by
      rw [ofWord_of_not_reserved hoperand]
      rfl
    apply sourcesAlike_of_eq
    rw [ofSource_joinedCast hw hs, ofSource_spacedCast hw hs hword hreserved]

theorem cast_spellings_alike_keyword :
    (PlainName "this" ∧ PlainName "num" ∧ "this" ∉ reservedWords ∧
      ("num" ∈ reservedWords → "this" ∉ openingWords) ∧
      SourcesAlike (joinedCast "this" "num") (spacedCast "this" "num")) ∧
    PlainName "count" ∧ PlainName "null" ∧ "count" ∉ reservedWords ∧
      ("null" ∈ reservedWords → "count" ∉ openingWords) ∧
      SourcesAlike (joinedCast "count" "null") (spacedCast "count" "null") := by
  have hthis : PlainName "this" := .of_all rfl rfl
  have hnum : PlainName "num" := .of_all rfl rfl
  have hcount : PlainName "count" := .of_all rfl rfl
  have hnull : PlainName "null" := .of_all rfl rfl
  exact ⟨⟨hthis, hnum, by decide, by decide,
    cast_spellings_alike hthis hnum (by decide) (by decide)⟩,
    hcount, hnull, by decide, by decide,
    cast_spellings_alike hcount hnull (by decide) (by decide)⟩

/-- A truth value is a cast only with blanks around the colon. Without them it is a bare word. -/
theorem cast_spellings_differ :
    PlainName "yup" ∧ PlainName "str" ∧
      ¬ SourcesAlike (joinedCast "yup" "str") (spacedCast "yup" "str") := by
  refine ⟨.of_all rfl rfl, .of_all rfl rfl, fun halike ↦ ?_⟩
  have hending := (halike (fun _ ↦ 0.0) 0 .empty false none none).ending
  revert hending
  decide +kernel

end VexLang
