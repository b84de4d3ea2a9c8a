import VexLang.Proofs.Node.Plain
import VexLang.Proofs.Token.Spelling

/-!
# The text of a plain tree spells its lexemes

Every piece of a text ends with a character that closes it or is followed by one
that cannot continue it, so the pieces are read one by one.
-/

namespace VexLang

namespace Spells

/-- A word of the language, spelled out. -/
theorem keyword {w : String} (hstart : (w.toList.head?.any isWordStart) = true)
    (hparts : w.toList.all isWordPart = true) : Spells isWordPart w.toList [.ofWord w] := by
  cases hw : w.toList with
  | nil => simp [hw] at hstart
  | cons first more =>
      have hmore : ∀ c ∈ more, isWordPart c = true := by
        rw [hw, List.all_cons, Bool.and_eq_true, List.all_eq_true] at hparts
        exact hparts.2
      have hfirst : isWordStart first = true := by simpa [hw] using hstart
      have hspell := word hfirst hmore
      rw [← hw, String.ofList_toList] at hspell
      rwa [← hw]

/-- Text between double quotes or between single ones. -/
theorem quoted {q : Char} (hq : isQuote q = true) {s : String} (hs : q ∉ s.toList) :
    Spells noPart (q :: s.toList ++ [q]) [.text s] := by
  simpa using text hq hs

theorem equality : Spells noPart [' ', 'i', 's', ' '] [.word "is"] :=
  ((keyword (w := "is") rfl rfl).close (c := ' ') rfl rfl).indent rfl

theorem operator (op : Operator) : Spells noPart [' ', op.symbol, ' '] [.symbol op.symbol] := by
  cases op with
  | divide => exact (slash.close rfl rfl).indent rfl
  | plus => exact ((symbol (by decide) (by decide)).close rfl rfl).indent rfl
  | minus => exact ((symbol (by decide) (by decide)).close rfl rfl).indent rfl
  | times => exact ((symbol (by decide) (by decide)).close rfl rfl).indent rfl

end Spells

theorem PlainNumber.spells {n : Float} (hn : PlainNumber n) :
    Spells isNumberPart (numberText n).toList [.number (numberText n)] := by
  obtain ⟨c, hc, hdigit⟩ := hn.start
  have hparts := hn.parts
  cases htext : (numberText n).toList with
  | nil => simp [htext] at hc
  | cons first more =>
      rw [htext] at hc hparts
      obtain rfl : first = c := by simpa using hc
      have hspell := Spells.number hdigit fun d hd ↦ hparts d (List.mem_cons_of_mem _ hd)
      rw [← htext, String.ofList_toList] at hspell
      rwa [← htext]

theorem PlainName.wordParts {name : String} (hname : PlainName name) :
    ∀ c ∈ name.toList, isWordPart c = true := by
  intro c hc
  have hpart := hname.parts c hc
  simp_all [isWordPart]

theorem PlainName.any_isWordStart {name : String} (hname : PlainName name) :
    name.toList.head?.any isWordStart = true := by
  obtain ⟨c, hc, hstart⟩ := hname.start
  rw [Option.mem_def.mp hc]
  exact hstart

theorem PlainName.spells {name : String} (hname : PlainName name) :
    Spells isWordPart name.toList [.ofWord name] :=
  Spells.keyword hname.any_isWordStart (List.all_eq_true.mpr hname.wordParts)

/-- The word of a cast to a status, written behind a name. -/
theorem PlainName.spells_cast {name status : String} (hname : PlainName name)
    (hs : PlainName status) :
    Spells isWordPart (name ++ ":" ++ status).toList [.ofWord (name ++ ":" ++ status)] := by
  apply Spells.keyword
  · obtain ⟨c, hc, hstart⟩ := hname.start
    rw [String.toList_append, String.toList_append, List.append_assoc, List.head?_append,
      Option.mem_def.mp hc]
    exact hstart
  · rw [List.all_eq_true, String.toList_append, String.toList_append, List.append_assoc]
    exact List.forall_mem_append.mpr ⟨hname.wordParts,
      List.forall_mem_cons.mpr ⟨rfl, hs.wordParts⟩⟩

theorem spells_boolean (b : Bool) :
    Spells isWordPart (literalText (.boolean b)).toList [.boolean b] := by
  cases b with
  | false => exact Spells.keyword (w := "nah") rfl rfl
  | true => exact Spells.keyword (w := "yup") rfl rfl

/-- The text of a cast: the operand, a colon and the status follow each other closely. -/
theorem PlainOperand.spells_cast {operand : Node} {status : Status} (ho : PlainOperand operand)
    (hs : status ∈ plainStatuses) :
    Spells isJoined (Node.cast operand status).render.toList
      (Node.cast operand status).lexemes := by
  have hcolon : Spells isWordPart (':' :: status.word.toList)
      [.symbol ':', .ofWord status.word] :=
    (Spells.symbol (by decide) (by decide)).append_closed (plainName_status hs).spells
  cases ho with
  | number hn =>
      have h := hn.spells.append hcolon rfl
      simpa [Node.render, literalText, Node.lexemes, literalLexeme] using h.of_word
  | text ht =>
      have h := (Spells.quoted (q := '"') rfl ht).append_closed hcolon
      simpa [Node.render, literalText, Node.lexemes, literalLexeme] using h.of_word
  | identifier hname =>
      have h := hname.spells_cast (plainName_status hs)
      simpa [Node.render, Node.lexemes] using h.of_word

theorem PlainTerm.spells {t : Node} (ht : PlainTerm t) :
    Spells isJoined t.render.toList t.lexemes := by
  have hopen : Spells noPart ['('] [.symbol '('] := Spells.symbol (by decide) (by decide)
  have hclose : Spells noPart [')'] [.symbol ')'] := Spells.symbol (by decide) (by decide)
  induction ht with
  | number hn => exact hn.spells.of_number
  | text hs =>
      have h : Spells isJoined _ _ := (Spells.quoted (q := '"') rfl hs).of_closed
      simpa [Node.render, literalText, Node.lexemes, literalLexeme] using h
  | boolean b => exact (spells_boolean b).of_word
  | null => exact (Spells.keyword (w := "null") rfl rfl).of_word
  | undefined => exact (Spells.keyword (w := "undefined") rfl rfl).of_word
  | cast ho hs => exact ho.spells_cast hs
  | comparison _ _ ihl ihr =>
      have hright := Spells.equality.append_closed (ihr.append hclose rfl)
      have h := hopen.append_closed (ihl.append hright rfl)
      simpa [Node.render, Node.lexemes] using h.of_closed
  | arithmetic op _ _ ihl ihr =>
      have hright := (Spells.operator op).append_closed (ihr.append hclose rfl)
      have h := hopen.append_closed (ihl.append hright rfl)
      simpa [Node.render, Node.lexemes] using h.of_closed
  | random _ _ ihl ihh =>
      have hword : Spells noPart ("random".toList ++ [' ']) [.random] :=
        (Spells.keyword (w := "random") rfl rfl).close rfl rfl
      have h := hword.append_closed (ihl.append (ihh.indent (c := ' ') rfl) rfl)
      simpa [Node.render, Node.lexemes] using h

theorem spells_terms {first : Node} {more : List Node} (hfirst : PlainTerm first)
    (hmore : ∀ t ∈ more, PlainTerm t) :
    Spells isJoined (String.intercalate " " (renderEach (first :: more))).toList
      (lexemesEach (first :: more)) := by
  induction more generalizing first with
  | nil => simpa [renderEach, lexemesEach] using hfirst.spells
  | cons second more ih =>
      have hrest := ih (hmore second List.mem_cons_self)
        fun t ht ↦ hmore t (List.mem_cons_of_mem _ ht)
      have h := hfirst.spells.append (hrest.indent (c := ' ') rfl) rfl
      simpa [renderEach, lexemesEach, String.intercalate_cons_cons] using h

theorem PlainValue.spells {v : Node} (hv : PlainValue v) :
    Spells isJoined v.render.toList v.lexemes := by
  cases hv with
  | term ht => exact ht.spells
  | phrase hfirst _ hmore _ => exact spells_terms hfirst hmore

theorem spells_values {first : Node} {more : List Node} (hfirst : PlainValue first)
    (hmore : ∀ v ∈ more, PlainValue v) :
    Spells isJoined (String.intercalate ", " (renderEach (first :: more))).toList
      (lexemesList (first :: more)) := by
  have hcomma : Spells noPart [',', ' '] [.symbol ','] :=
    (Spells.symbol (by decide) (by decide)).close rfl rfl
  induction more generalizing first with
  | nil => simpa [renderEach, lexemesList, lexemesMore] using hfirst.spells
  | cons second more ih =>
      have hrest := ih (hmore second List.mem_cons_self)
        fun t ht ↦ hmore t (List.mem_cons_of_mem _ ht)
      have h := hfirst.spells.append (hcomma.append_closed hrest) rfl
      simpa [renderEach, lexemesList, lexemesMore, String.intercalate_cons_cons] using h

theorem spells_lines {body : List Node}
    (hbody : ∀ s ∈ body, Spells isJoined s.render.toList s.lexemes) :
    Spells noPart (lines (renderEach body)).toList (lexemesEach body) := by
  induction body with
  | nil => exact Spells.nil
  | cons s body ih =>
      have hs := (hbody s List.mem_cons_self).close (c := '\n') rfl rfl
      have h := hs.append_closed (ih fun t ht ↦ hbody t (List.mem_cons_of_mem _ ht))
      simpa [renderEach, lexemesEach, lines] using h

theorem spells_braced {body : List Node}
    (hbody : ∀ s ∈ body, Spells isJoined s.render.toList s.lexemes) :
    Spells noPart (braced (renderEach body)).toList
      (.symbol '\x7b' :: lexemesEach body ++ [.symbol '\x7d']) := by
  have hopen : Spells noPart ['\x7b', '\n'] [.symbol '\x7b'] :=
    (Spells.symbol (by decide) (by decide)).close rfl rfl
  have hclose : Spells noPart ['\x7d'] [.symbol '\x7d'] := Spells.symbol (by decide) (by decide)
  have h := hopen.append_closed ((spells_lines hbody).append_closed hclose)
  simpa [braced] using h

theorem spells_keyword {w : String} (hstart : (w.toList.head?.any isWordStart) = true)
    (hparts : w.toList.all isWordPart = true) (hword : Lexeme.ofWord w = .word w) :
    Spells noPart (w.toList ++ [' ']) [.word w] := by
  rw [← hword]
  exact (Spells.keyword hstart hparts).close rfl rfl

/-- What a declaration and an assignment have in common. -/
theorem spells_binding {w name : String} {value : Node}
    (hw : Spells noPart (w.toList ++ [' ']) [.word w]) (hname : '\'' ∉ name.toList)
    (hvalue : PlainValue value) :
    Spells isJoined (w ++ " '" ++ name ++ "' is " ++ value.render).toList
      (.word w :: .text name :: .word "is" :: value.lexemes) := by
  have htext := Spells.quoted (q := '\'') rfl hname
  have h := hw.append_closed (htext.append_closed (Spells.equality.append_closed hvalue.spells))
  simpa using h

theorem spells_command {w target : String} (hw : Spells noPart (w.toList ++ [' ']) [.word w])
    (htarget : '\'' ∉ target.toList) :
    Spells isJoined (w ++ " '" ++ target ++ "'").toList [.word w, .text target] := by
  have h := hw.append_closed (Spells.quoted (q := '\'') rfl htarget)
  simpa using h.of_closed

theorem spells_times {times : Option Node} (htimes : ∀ t ∈ times, PlainTerm t) :
    Spells noPart (renderTimes times).toList (lexemesTimes times) := by
  cases times with
  | none => exact Spells.nil
  | some t =>
      have hopen : Spells noPart ['['] [.symbol '['] := Spells.symbol (by decide) (by decide)
      have hclose : Spells noPart [']', ' '] [.symbol ']'] :=
        (Spells.symbol (by decide) (by decide)).close rfl rfl
      have h := hopen.append_closed ((htimes t rfl).spells.append hclose rfl)
      simpa [renderTimes, lexemesTimes] using h

theorem PlainNode.spells {kind : BranchKind} {s : Node} (hs : PlainNode kind s) :
    Spells isJoined s.render.toList s.lexemes := by
  induction hs with
  | declaration constant hname hvalue =>
      cases constant with
      | false => exact spells_binding (w := "this") (spells_keyword rfl rfl rfl) hname hvalue
      | true => exact spells_binding (w := "fr") (spells_keyword rfl rfl rfl) hname hvalue
  | assignment hname hvalue =>
      exact spells_binding (w := "set") (spells_keyword rfl rfl rfl) hname hvalue
  | @print params hparams =>
      cases params with
      | nil => exact (Spells.keyword (w := "debug!") rfl rfl).of_word
      | cons first more =>
          have hvalues := spells_values (hparams first List.mem_cons_self)
            fun v hv ↦ hparams v (List.mem_cons_of_mem _ hv)
          have hword := spells_keyword (w := "debug!") rfl rfl rfl
          have h := hword.append_closed hvalues
          have hdebug : Lexeme.ofWord "debug!" = .word "debug!" := rfl
          simpa [Node.render, Node.lexemes, printCommand, hdebug] using h
  | loop htimes _ ihbody =>
      have hword := spells_keyword (w := "loop!") rfl rfl rfl
      have h := hword.append_closed ((spells_times htimes).append_closed (spells_braced ihbody))
      simpa [Node.render, Node.lexemes] using h.of_closed
  | @branch kind condition body alternate hcondition _ _ ihbody ihalternate =>
      have hword : Spells noPart (kind.word.toList ++ [' ']) [.word kind.word] := by
        cases kind <;> exact spells_keyword rfl rfl rfl
      have hbody := (spells_braced ihbody).indent (c := ' ') rfl
      have hopening := hword.append_closed (hcondition.spells.append hbody rfl)
      cases alternate with
      | none =>
          have h : Spells isJoined _ _ := hopening.of_closed
          simpa [Node.render, Node.lexemes, renderAlternate, lexemesAlternate] using h
      | some a =>
          have h := hopening.append_closed ((ihalternate a rfl).indent (c := ' ') rfl)
          simpa [Node.render, Node.lexemes, renderAlternate, lexemesAlternate] using h
  | @cut target htarget =>
      cases target with
      | none => exact (Spells.keyword (w := "cut!") rfl rfl).of_word
      | some t => exact spells_command (w := "cut!") (spells_keyword rfl rfl rfl) (htarget t rfl)
  | banish htarget => exact spells_command (w := "banish!") (spells_keyword rfl rfl rfl) htarget
  | bussin => exact (Spells.keyword (w := "bussin") rfl rfl).of_word
  | manual => exact (Spells.keyword (w := "vx") rfl rfl).of_word
  | openFile => exact (Spells.keyword (w := "openfile") rfl rfl).of_word

/-- The text of a plain program is read as its lexemes. -/
theorem tokens_render {program : Program} (hp : program.Plain) :
    ∃ ts, ts.map Token.lexeme = lexemesEach program ∧ tokens program.render = .ok ts := by
  exact (spells_lines fun s hs ↦ (hp s hs).spells).tokens_eq

end VexLang
