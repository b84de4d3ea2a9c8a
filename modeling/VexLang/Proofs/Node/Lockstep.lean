import Mathlib.Data.List.Chain
import VexLang.Proofs.Node.Rules

/-!
# Two readings in lockstep

Lists of tokens with the same lexemes are read by the same rules from the same positions. A
relation between answers that passes from parts to sequences, and that holds where a rule
refuses its tokens, therefore holds of whole programs.

What is known where a rule refuses its tokens is collected on the way there: the rules that
are open follow each other in the graph of the rules, and the word that has opened the last
of them stands in front of the position.
-/

namespace VexLang

/-! ## The graph of the rules -/

namespace Rule

/-- Are terms read directly inside the rule? -/
def holdsTerms : Rule → Bool
  | program | group | random | condition | loop | block | phrase => true
  | declaration | assignment | banish | call => false

/-- Is the rule opened by the first token of a term? -/
def opensTerm : Rule → Bool
  | group | random | condition | declaration | assignment | banish | loop | call => true
  | program | block | phrase => false

/-- Can the second rule be opened directly inside the first one? -/
def encloses : Rule → Rule → Bool
  | condition, block | loop, block => true
  | declaration, phrase | assignment, phrase | call, phrase => true
  | outer, inner => outer.holdsTerms && inner.opensTerm

end Rule

/-- The open rules, innermost first: the outermost is the program, and each of the others can
be opened inside the next. -/
structure Nested (context : List Rule) : Prop where
  outermost : context.getLast? = some .program
  chain : context.IsChain fun inner outer ↦ outer.encloses inner = true

theorem nested_program : Nested [.program] :=
  ⟨rfl, .singleton _⟩

theorem Nested.cons {outer inner : Rule} {rest : List Rule} (h : Nested (outer :: rest))
    (hinner : outer.encloses inner = true) : Nested (inner :: outer :: rest) :=
  ⟨h.outermost, .cons_cons hinner h.chain⟩

theorem Nested.reverse {context : List Rule} (h : Nested context) :
    context.reverse.head? = some .program ∧
      context.reverse.IsChain fun outer inner ↦ outer.encloses inner = true := by
  refine ⟨?_, List.isChain_reverse.mpr h.chain⟩
  rw [List.head?_reverse, h.outermost]

/-! ## Words that open a rule -/

namespace Role

/-- The word behind which a rule may refuse its tokens. -/
def keyword? : Role → Option String
  | declaration true => some "fr"
  | declaration false => some "this"
  | assignment => some "set"
  | loop => some "loop!"
  | banish => some "banish!"
  | manual | openFile | branch _ | cut | call _ | cast _ _ | identifier _ => none

theorem eq_of_beforeMark? {word name : String} (h : beforeMark? word = some name) :
    word = name ++ "!" := by
  unfold beforeMark? at h
  split at h
  · rename_i hlast
    obtain rfl := Option.some.inj h
    apply String.toList_injective
    rw [String.toList_append, String.toList_ofList]
    exact (List.dropLast_append_getLast? _ hlast).symm
  · cases h

theorem keyword?_ofPlainWord {word w : String} (h : (ofPlainWord word).keyword? = some w) :
    word = w := by
  unfold ofPlainWord at h
  split at h
  · rename_i name hname
    rw [eq_of_beforeMark? hname]
    unfold ofCommand at h
    split at h
    · exact Option.some.inj h
    · cases h
    · exact Option.some.inj h
    · cases h
  · split at h <;> cases h

theorem keyword?_ofWord {inPhrase : Bool} {word w : String}
    (h : (ofWord inPhrase word).keyword? = some w) : word = w := by
  unfold ofWord at h
  split at h
  · split at h
    · exact keyword?_ofPlainWord h
    · cases h
  · split at h
    · exact keyword?_ofPlainWord h
    · cases h
  · cases h
  · cases h
  · exact Option.some.inj h
  · exact Option.some.inj h
  · exact Option.some.inj h
  · exact keyword?_ofPlainWord h

end Role

/-- The word stands directly in front of the position. -/
def Announced (ts : List Token) (word : String) (p : Nat) : Prop :=
  ∃ i t, p = i + 1 ∧ ts[i]? = some t ∧ t.isWord word = true

theorem Announced.le_length {ts : List Token} {word : String} {p : Nat}
    (h : Announced ts word p) : p ≤ ts.length := by
  obtain ⟨i, t, rfl, ht, -⟩ := h
  exact (List.getElem?_eq_some_iff.mp ht).1

/-- No quoted text stands at the position. -/
def NoTextAt (ts : List Token) (p : Nat) : Prop :=
  ∀ t content, ts[p]? = some t → t.lexeme ≠ .text content

def SymbolAt (ts : List Token) (c : Char) (p : Nat) : Prop :=
  ∃ t, ts[p]? = some t ∧ t.isSymbol c = true

/-- The rule refuses the tokens at position `n` because of the word at position `i`. -/
inductive Cause (ts : List Token) : ParseFault → Rule → Nat → Nat → Prop
  | declaration {i : Nat} {t : Token} (ht : ts[i]? = some t)
      (hword : t.isWord "this" = true ∨ t.isWord "fr" = true) (hnext : NoTextAt ts (i + 1)) :
      Cause ts .variableNotQuoted .declaration i (i + 1)
  | assignment {i : Nat} {t : Token} (ht : ts[i]? = some t) (hword : t.isWord "set" = true)
      (hnext : NoTextAt ts (i + 1)) : Cause ts .variableNotQuoted .assignment i (i + 1)
  | banish {i : Nat} {t : Token} (ht : ts[i]? = some t) (hword : t.isWord "banish!" = true)
      (hnext : NoTextAt ts (i + 1)) : Cause ts .banishTargetNotQuoted .banish i (i + 1)
  | loop {i n : Nat} {t : Token} (ht : ts[i]? = some t) (hword : t.isWord "loop!" = true)
      (hnext : ¬SymbolAt ts '\x7b' n) (hcount : SymbolAt ts '[' (i + 1) → i + 2 ≤ n)
      (hplain : ¬SymbolAt ts '[' (i + 1) → n = i + 1) : Cause ts .missingLoopBody .loop i n

/-! ## The same tokens on other lines -/

theorem firstLine?_drop (ts : List Token) (n : Nat) :
    firstLine? (ts.drop n) = ts[n]?.map Token.line := by
  rw [firstLine?, List.head?_drop]

namespace Token

variable {t u : Token}

theorem isSymbol_congr (h : u.lexeme = t.lexeme) : u.isSymbol = t.isSymbol := by
  funext c
  rw [isSymbol, isSymbol, h]

theorem isWord_congr (h : u.lexeme = t.lexeme) : u.isWord = t.isWord := by
  funext name
  rw [isWord, isWord, h]

theorem isEquality_congr (h : u.lexeme = t.lexeme) : u.isEquality = t.isEquality := by
  rw [isEquality, isEquality, isSymbol_congr h, isWord_congr h]

theorem isStop_congr (h : u.lexeme = t.lexeme) : u.isStop = t.isStop := by
  rw [isStop, isStop, h]

theorem endsPhrase_congr (h : u.lexeme = t.lexeme) : u.endsPhrase = t.endsPhrase := by
  rw [endsPhrase, endsPhrase, h, isStop_congr h, isWord_congr h]

theorem endsParameters_congr (h : u.lexeme = t.lexeme) : u.endsParameters = t.endsParameters := by
  rw [endsParameters, endsParameters, h, isStop_congr h]

end Token

namespace Parser

/-- The two lists go on alike from the position. -/
structure At (ts us : List Token) (p : Nat) (xs ys : List Token) : Prop where
  left : ts.drop p = xs
  right : us.drop p = ys
  same : xs.map Token.lexeme = ys.map Token.lexeme

namespace At

variable {ts us xs ys : List Token} {p : Nat}

theorem drop (h : At ts us p xs ys) (k : Nat) : At ts us (p + k) (xs.drop k) (ys.drop k) where
  left := by rw [← h.left, List.drop_drop]
  right := by rw [← h.right, List.drop_drop]
  same := by rw [List.map_drop, List.map_drop, h.same]

theorem getElem?_eq (h : At ts us p xs ys) (k : Nat) : ts[p + k]? = xs[k]? := by
  rw [← h.left, List.getElem?_drop]

theorem eq_nil (h : At ts us p [] ys) : ys = [] :=
  List.map_eq_nil_iff.mp h.same.symm

theorem exists_cons {t : Token} (h : At ts us p (t :: xs) ys) :
    ∃ u rest, ys = u :: rest ∧ u.lexeme = t.lexeme ∧ At ts us (p + 1) xs rest := by
  obtain ⟨u, rest, rfl, hu, -⟩ := List.map_eq_cons_iff.mp h.same.symm
  exact ⟨u, rest, rfl, hu, h.drop 1⟩

theorem leading_eq (h : At ts us p xs ys) {q : Token → Bool}
    (hq : ∀ t u : Token, u.lexeme = t.lexeme → q u = q t) : leading q ys = leading q xs := by
  cases xs with
  | nil => rw [h.eq_nil]
  | cons t xs =>
      obtain ⟨u, rest, rfl, hu, -⟩ := h.exists_cons
      rw [leading, leading, hq t u hu]

theorem leading_symbol_eq (h : At ts us p xs ys) (c : Char) :
    leading (·.isSymbol c) ys = leading (·.isSymbol c) xs :=
  h.leading_eq fun _ _ hu ↦ by rw [Token.isSymbol_congr hu]

theorem leading_equality_eq (h : At ts us p xs ys) :
    leading Token.isEquality ys = leading Token.isEquality xs :=
  h.leading_eq fun _ _ ↦ Token.isEquality_congr

theorem leading_word_eq (h : At ts us p xs ys) (name : String) :
    leading (·.isWord name) ys = leading (·.isWord name) xs :=
  h.leading_eq fun _ _ hu ↦ by rw [Token.isWord_congr hu]

theorem quoted?_eq (h : At ts us p xs ys) : quoted? ys = quoted? xs := by
  cases xs with
  | nil => rw [h.eq_nil]
  | cons t xs =>
      obtain ⟨⟨l, line⟩, rest, rfl, rfl, -⟩ := h.exists_cons
      rcases t with ⟨l, line⟩
      cases l <;> rfl

theorem junction_eq (h : At ts us p xs ys) : Junction.ofTokens? ys = Junction.ofTokens? xs := by
  cases xs with
  | nil => rw [h.eq_nil]
  | cons t xs =>
      obtain ⟨u, rest, rfl, hu, -⟩ := h.exists_cons
      rw [Junction.ofTokens?, Junction.ofTokens?, Token.isEquality_congr hu, hu]

theorem cast?_eq (h : At ts us p xs ys) : cast? ys = cast? xs := by
  rcases xs with _ | ⟨t, _ | ⟨colon, _ | ⟨⟨status, line⟩, xs⟩⟩⟩
  · rw [h.eq_nil]
  · obtain ⟨u, rest, rfl, -, h⟩ := h.exists_cons
    rw [h.eq_nil]
    rfl
  · obtain ⟨u, rest, rfl, -, h⟩ := h.exists_cons
    obtain ⟨v, rest, rfl, -, h⟩ := h.exists_cons
    rw [h.eq_nil]
    rfl
  · obtain ⟨u, rest, rfl, hu, h⟩ := h.exists_cons
    obtain ⟨v, rest, rfl, hv, h⟩ := h.exists_cons
    obtain ⟨⟨l, _⟩, rest, rfl, rfl, -⟩ := h.exists_cons
    cases l with
    | word status => rw [cast?, cast?, Token.isSymbol_congr hv, hu]
    | _ => rfl

end At

theorem At.noTextAt {ts us xs ys : List Token} {p : Nat} (h : At ts us p xs ys)
    (hquoted : quoted? xs = none) : NoTextAt ts p := by
  intro t content ht hlexeme
  have hfirst : xs[0]? = some t := by rw [← h.getElem?_eq 0, Nat.add_zero, ht]
  cases xs with
  | nil => cases hfirst
  | cons u xs =>
      obtain rfl := Option.some.inj hfirst
      rcases u with ⟨l, line⟩
      obtain rfl : l = .text content := hlexeme
      cases hquoted

theorem At.symbolAt_iff {ts us xs ys : List Token} {p : Nat} (h : At ts us p xs ys) (c : Char) :
    SymbolAt ts c p ↔ leading (·.isSymbol c) xs ≠ 0 := by
  rw [SymbolAt, ← Nat.add_zero p, h.getElem?_eq 0]
  cases xs with
  | nil => simp [leading]
  | cons t xs => simp [leading]

/-! ## Where a part can be read -/

namespace Part

/-- The rules directly inside which the part is read. -/
def rules : Part → List Rule
  | term _ | word _ => [.program, .group, .random, .condition, .loop, .block, .phrase]
  | group => [.group]
  | bounds => [.random]
  | branch _ | condition | alternate => [.condition]
  | statements inBlock => if inBlock then [.block] else [.program]
  | declaration _ => [.declaration]
  | assignment => [.assignment]
  | definition => [.declaration, .assignment]
  | loop | loopCount => [.loop]
  | parameters => [.call]
  | phrase | phraseParts => [.phrase]

/-- The word behind which the part is read, if the part may be refused. -/
def keyword? : Part → Option String
  | word role => role.keyword?
  | declaration constant => (Role.declaration constant).keyword?
  | assignment => Role.assignment.keyword?
  | loop => Role.loop.keyword?
  | _ => none

structure Proper (ts : List Token) (part : Part) (context : List Rule) (p : Nat) : Prop where
  nested : Nested context
  inside : ∃ rule outer, context = rule :: outer ∧ rule ∈ part.rules
  announced : ∀ word, part.keyword? = some word → Announced ts word p

theorem announced_of_none {ts : List Token} {q : Part} (hq : q.keyword? = none) (n : Nat) :
    ∀ word, q.keyword? = some word → Announced ts word n := by
  intro word hword
  rw [hq] at hword
  cases hword

namespace Proper

variable {ts : List Token} {part : Part} {context : List Rule} {p : Nat}

/-- A part of a part, read inside the same rule. -/
theorem within (h : part.Proper ts context p) (q : Part) (n : Nat) (hq : q.keyword? = none)
    (hrules : part.rules.all q.rules.contains = true) : q.Proper ts context n := by
  obtain ⟨rule, outer, rfl, hrule⟩ := h.inside
  have hmem : rule ∈ q.rules := List.contains_iff_mem.mp (List.all_eq_true.mp hrules rule hrule)
  exact ⟨h.nested, ⟨rule, outer, rfl, hmem⟩, announced_of_none hq n⟩

theorem nested_cons (h : part.Proper ts context p) {inner : Rule}
    (hrules : part.rules.all (·.encloses inner) = true) : Nested (inner :: context) := by
  obtain ⟨rule, outer, rfl, hrule⟩ := h.inside
  exact h.nested.cons (List.all_eq_true.mp hrules rule hrule)

/-- A part of a part, read inside a rule of its own. -/
theorem opened (h : part.Proper ts context p) (q : Part) (n : Nat) {inner : Rule}
    (hq : ∀ word, q.keyword? = some word → Announced ts word n) (hinner : q.rules = [inner])
    (hrules : part.rules.all (·.encloses inner) = true) : q.Proper ts (inner :: context) n := by
  refine ⟨h.nested_cons hrules, ⟨inner, context, rfl, ?_⟩, hq⟩
  rw [hinner]
  exact List.mem_singleton_self inner

theorem openedFreely (h : part.Proper ts context p) (q : Part) (n : Nat) {inner : Rule}
    (hq : q.keyword? = none) (hinner : q.rules = [inner])
    (hrules : part.rules.all (·.encloses inner) = true) : q.Proper ts (inner :: context) n :=
  h.opened q n (announced_of_none hq n) hinner hrules

theorem exists_eq_cons (h : part.Proper ts context p) {rule : Rule} (hrules : part.rules = [rule]) :
    ∃ outer, context = rule :: outer := by
  obtain ⟨inner, outer, rfl, hinner⟩ := h.inside
  rw [hrules] at hinner
  obtain rfl := List.mem_singleton.mp hinner
  exact ⟨outer, rfl⟩

end Proper

end Part

/-! ## Relations that pass to whole programs -/

/-- A relation between answers to two lists of tokens that passes from parts to sequences and
holds where a rule refuses both lists. -/
structure Lockstep (ts us : List Token)
    (r : ∀ {α : Type}, Except ParseError α → Except ParseError α → Prop) : Prop where
  ok : ∀ {α : Type} (a : α), r (.ok a) (.ok a)
  bind : ∀ {α β : Type} {x y : Except ParseError α} {f g : α → Except ParseError β},
    r x y → (∀ a, x = .ok a → r (f a) (g a)) → r (x >>= f) (y >>= g)
  of_map : ∀ {α β : Type} {x y : Except ParseError α} {f : α → β}, Function.Injective f →
    r (x.map f) (y.map f) → r x y
  refuse : ∀ {α : Type} {fault : ParseFault} {rule : Rule} {outer : List Rule} {i n : Nat},
    Cause ts fault rule i n → n ≤ ts.length → Nested (rule :: outer) →
      r (Parser.refuse fault (rule :: outer) (ts.drop n) : Except ParseError (Taken α))
        (Parser.refuse fault (rule :: outer) (us.drop n))

namespace Lockstep

variable {ts us xs ys : List Token} {p : Nat} {context : List Rule} {part : Part}
  {r : ∀ {α : Type}, Except ParseError α → Except ParseError α → Prop}

/-- The relation holds of the parts with a smaller potential. -/
def Below (ts us : List Token)
    (r : ∀ {α : Type}, Except ParseError α → Except ParseError α → Prop) (part : Part)
    (xs : List Token) : Prop :=
  ∀ (q : Part) {p : Nat} {xs' ys' : List Token} {context : List Rule},
    q.potential xs' < part.potential xs → At ts us p xs' ys' → q.Proper ts context p →
      r (q.read context xs') (q.read context ys')

theorem map (hr : Lockstep ts us r) {α β : Type} {x y : Except ParseError α} (f : α → β)
    (h : r x y) : r (x.map f) (y.map f) := by
  have hmap (x : Except ParseError α) : x.map f = x >>= fun a ↦ .ok (f a) := by
    cases x <;> rfl
  rw [hmap, hmap]
  exact hr.bind h fun a _ ↦ hr.ok (f a)

theorem of_listed (hr : Lockstep ts us r) {x y : Except ParseError (Taken (Option Node))}
    (h : r (Part.read.listed x) (Part.read.listed y)) : r x y := by
  refine hr.of_map (fun a b hab ↦ ?_) h
  obtain ⟨hvalue, hcount⟩ := Taken.mk.inj hab
  rcases a with ⟨_ | _, _⟩ <;> rcases b with ⟨_ | _, _⟩ <;> simp_all

theorem of_single (hr : Lockstep ts us r) {x y : Except ParseError (Taken Node)}
    (h : r (x.map fun s ↦ (⟨[s.value], s.count⟩ : Taken (List Node)))
      (y.map fun s ↦ (⟨[s.value], s.count⟩ : Taken (List Node)))) : r x y := by
  refine hr.of_map (fun a b hab ↦ ?_) h
  rcases a with ⟨_, _⟩
  rcases b with ⟨_, _⟩
  simp_all

theorem refuse_at (hr : Lockstep ts us r) {α : Type} {fault : ParseFault} {rule : Rule}
    {outer : List Rule} {i : Nat} (hat : At ts us p xs ys) (hcause : Cause ts fault rule i p)
    (hle : p ≤ ts.length) (hnested : Nested (rule :: outer)) :
    r (Parser.refuse fault (rule :: outer) xs : Except ParseError (Taken α))
      (Parser.refuse fault (rule :: outer) ys) := by
  have h := hr.refuse hcause hle hnested (α := α)
  rwa [hat.left, hat.right] at h

theorem Below.drop (ih : Below ts us r part xs) (hat : At ts us p xs ys) (k : Nat) (q : Part)
    (hrank : Nat.blt q.rank part.rank = true) (hq : q.Proper ts context (p + k)) :
    r (q.read context (xs.drop k)) (q.read context (ys.drop k)) := by
  refine ih q ?_ (hat.drop k) hq
  have hlen : (xs.drop k).length ≤ xs.length := (List.drop_sublist k xs).length_le
  have hlt : q.rank < part.rank := Nat.le_of_ble_eq_true hrank
  simp only [Part.potential]
  omega

theorem Below.rest {t : Token} {rest rest' : List Token} (ih : Below ts us r part (t :: rest))
    (hat : At ts us (p + 1) rest rest') (k : Nat) (q : Part)
    (hq : q.Proper ts context (p + 1 + k)) :
    r (q.read context (rest.drop k)) (q.read context (rest'.drop k)) := by
  refine ih q ?_ (hat.drop k) hq
  have hlen : (rest.drop k).length ≤ rest.length := (List.drop_sublist k rest).length_le
  have hrank := q.rank_le
  simp only [Part.potential, List.length_cons]
  omega

theorem term (hr : Lockstep ts us r) {inPhrase : Bool} (ih : Below ts us r (.term inPhrase) xs)
    (hat : At ts us p xs ys) (hproper : (Part.term inPhrase).Proper ts context p) :
    r (Parser.term context inPhrase xs) (Parser.term context inPhrase ys) := by
  cases xs with
  | nil =>
      rw [hat.eq_nil]
      rw [Parser.term]
      exact hr.ok _
  | cons t rest =>
      have hcast := hat.cast?_eq
      obtain ⟨u, rest', rfl, hu, hrest⟩ := hat.exists_cons
      rw [Parser.term, Parser.term, hcast, hu]
      split
      · exact hr.ok _
      · split
        · exact hr.ok _
        · exact hr.ok _
        · exact hr.ok _
        · exact hr.ok _
        · exact hr.ok _
        · exact hr.ok _
        · apply hr.map
          apply hr.of_listed
          exact ih.rest hrest 0 .bounds (hproper.openedFreely _ _ rfl rfl rfl)
        · split
          · apply hr.map
            apply hr.of_listed
            exact ih.rest hrest 0 .group (hproper.openedFreely _ _ rfl rfl rfl)
          · split
            · exact hr.ok _
            · exact hr.ok _
        · rename_i name hname
          apply hr.map
          apply hr.of_listed
          refine ih.rest hrest 0 (.word (.ofWord inPhrase name))
            ⟨hproper.nested, hproper.inside, ?_⟩
          intro word hword
          obtain rfl := Role.keyword?_ofWord hword
          exact ⟨p, t, rfl, hat.getElem?_eq 0, decide_eq_true hname⟩

theorem word (hr : Lockstep ts us r) {role : Role} (ih : Below ts us r (.word role) xs)
    (hat : At ts us p xs ys) (hproper : (Part.word role).Proper ts context p) :
    r (wordTerm context role xs) (wordTerm context role ys) := by
  rw [wordTerm.eq_def, wordTerm.eq_def context role ys]
  cases role with
  | manual | openFile | cast | identifier => exact hr.ok _
  | branch kind =>
      apply hr.of_listed
      exact ih.drop hat 0 (.branch kind) rfl (hproper.openedFreely _ _ rfl rfl rfl)
  | declaration constant =>
      apply hr.of_listed
      exact ih.drop hat 0 (.declaration constant) rfl
        (hproper.opened _ _ hproper.announced rfl rfl)
  | assignment =>
      apply hr.of_listed
      exact ih.drop hat 0 .assignment rfl
        (hproper.opened _ _ hproper.announced rfl rfl)
  | loop =>
      apply hr.of_listed
      exact ih.drop hat 0 .loop rfl
        (hproper.opened _ _ hproper.announced rfl rfl)
  | cut =>
      simp only [hat.quoted?_eq]
      split <;> exact hr.ok _
  | banish =>
      simp only [hat.quoted?_eq]
      split
      · exact hr.ok _
      · rename_i hnone
        have hannounced := hproper.announced _ rfl
        have hle := hannounced.le_length
        obtain ⟨i, t, rfl, ht, hword⟩ := hannounced
        exact hr.refuse_at hat (.banish ht hword (hat.noTextAt hnone)) hle (hproper.nested_cons rfl)
  | call name =>
      refine hr.bind (ih.drop hat 0 .parameters rfl ?_) fun params _ ↦ hr.ok _
      exact hproper.openedFreely _ _ rfl rfl rfl

theorem Below.terms (ih : Below ts us r part xs) (hr : Lockstep ts us r) (hat : At ts us p xs ys)
    (hproper : part.Proper ts context p) (inPhrase : Bool) (hrank : Nat.blt 0 part.rank = true)
    (hrules : part.rules.all (Part.term inPhrase).rules.contains = true) (k : Nat) :
    r (Parser.term context inPhrase (xs.drop k)) (Parser.term context inPhrase (ys.drop k)) :=
  hr.of_listed (ih.drop hat k (.term inPhrase) hrank (hproper.within _ _ rfl hrules))

theorem group (hr : Lockstep ts us r) (ih : Below ts us r .group xs)
    (hat : At ts us p xs ys) (hproper : Part.group.Proper ts context p) :
    r (Parser.group context xs) (Parser.group context ys) := by
  have hterm := ih.terms hr hat hproper false rfl rfl
  rw [Parser.group, Parser.group]
  refine hr.bind (hterm 0) fun left _ ↦ ?_
  have hrest := hat.drop left.count
  simp only [hrest.junction_eq, hrest.leading_symbol_eq, List.drop_drop]
  split
  · refine hr.bind (hterm _) fun right _ ↦ ?_
    rw [(hat.drop _).leading_symbol_eq]
    exact hr.ok _
  · exact hr.ok _

theorem bounds (hr : Lockstep ts us r) (ih : Below ts us r .bounds xs)
    (hat : At ts us p xs ys) (hproper : Part.bounds.Proper ts context p) :
    r (Parser.bounds context xs) (Parser.bounds context ys) := by
  have hterm := ih.terms hr hat hproper false rfl rfl
  rw [Parser.bounds, Parser.bounds]
  exact hr.bind (hterm 0) fun low _ ↦ hr.bind (hterm low.count) fun high _ ↦ hr.ok _

theorem condition (hr : Lockstep ts us r) (ih : Below ts us r .condition xs)
    (hat : At ts us p xs ys) (hproper : Part.condition.Proper ts context p) :
    r (Parser.condition context xs) (Parser.condition context ys) := by
  have hterm := ih.terms hr hat hproper false rfl rfl
  rw [Parser.condition, Parser.condition]
  refine hr.bind (hterm 0) fun left _ ↦ ?_
  simp only [(hat.drop left.count).leading_equality_eq, List.drop_drop]
  split
  · exact hr.ok _
  · exact hr.bind (hterm _) fun right _ ↦ hr.ok _

theorem branch (hr : Lockstep ts us r) {kind : BranchKind} (ih : Below ts us r (.branch kind) xs)
    (hat : At ts us p xs ys) (hproper : (Part.branch kind).Proper ts context p) :
    r (Parser.branch context kind xs) (Parser.branch context kind ys) := by
  have hcondition : r (Parser.condition context xs) (Parser.condition context ys) :=
    hr.of_single (ih.drop hat 0 .condition rfl (hproper.within _ _ rfl rfl))
  have hblock (k : Nat) : r (Parser.statements (.block :: context) true (xs.drop k))
      (Parser.statements (.block :: context) true (ys.drop k)) :=
    ih.drop hat k (.statements true) rfl (hproper.openedFreely _ _ rfl rfl rfl)
  have halternate (k : Nat) : r (Parser.alternate context (xs.drop k))
      (Parser.alternate context (ys.drop k)) :=
    hr.of_listed (ih.drop hat k .alternate rfl (hproper.within _ _ rfl rfl))
  rw [Parser.branch, Parser.branch]
  refine hr.bind hcondition fun test _ ↦ ?_
  simp only [(hat.drop test.count).leading_symbol_eq]
  exact hr.bind (hblock _) fun body _ ↦ hr.bind (halternate _) fun next _ ↦ hr.ok _

theorem alternate (hr : Lockstep ts us r) (ih : Below ts us r .alternate xs)
    (hat : At ts us p xs ys) (hproper : Part.alternate.Proper ts context p) :
    r (Parser.alternate context xs) (Parser.alternate context ys) := by
  cases xs with
  | nil =>
      rw [hat.eq_nil, Parser.alternate]
      exact hr.ok _
  | cons t rest =>
      have hterm := ih.terms hr hat hproper false rfl rfl 0
      obtain ⟨u, rest', rfl, hu, hrest⟩ := hat.exists_cons
      rw [Parser.alternate, Parser.alternate, Token.isWord_congr hu, hrest.leading_symbol_eq]
      split
      · exact hterm
      · split
        · refine hr.bind (ih.rest hrest 1 (.statements true) ?_) fun body _ ↦ hr.ok _
          exact hproper.openedFreely _ _ rfl rfl rfl
        · exact hr.ok _

theorem statements (hr : Lockstep ts us r) {inBlock : Bool}
    (ih : Below ts us r (.statements inBlock) xs) (hat : At ts us p xs ys)
    (hproper : (Part.statements inBlock).Proper ts context p) :
    r (Parser.statements context inBlock xs) (Parser.statements context inBlock ys) := by
  cases xs with
  | nil =>
      rw [hat.eq_nil, Parser.statements]
      exact hr.ok _
  | cons t rest =>
      have hterm := ih.terms hr hat hproper false rfl (by cases inBlock <;> rfl) 0
      obtain ⟨u, rest', rfl, hu, hrest⟩ := hat.exists_cons
      rw [Parser.statements, Parser.statements, Token.isSymbol_congr hu]
      split
      · exact hr.ok _
      · refine hr.bind hterm fun first _ ↦ ?_
        refine hr.bind (ih.rest hrest _ (.statements inBlock) ?_) fun more _ ↦ hr.ok _
        exact hproper.within _ _ rfl (by cases inBlock <;> rfl)

theorem definition (hr : Lockstep ts us r) (ih : Below ts us r .definition xs)
    (hat : At ts us p xs ys) (hproper : Part.definition.Proper ts context p) :
    r (Parser.definition context xs) (Parser.definition context ys) := by
  have hphrase (k : Nat) : r (Parser.phrase (.phrase :: context) (xs.drop k))
      (Parser.phrase (.phrase :: context) (ys.drop k)) :=
    hr.of_listed (ih.drop hat k .phrase rfl (hproper.openedFreely _ _ rfl rfl rfl))
  rw [Parser.definition, Parser.definition]
  simp only [hat.leading_equality_eq]
  exact hr.bind (hphrase _) fun value _ ↦ hr.ok _

/-- A second word may stand between the word that opens a declaration and the name. -/
theorem announced_declaration {constant : Bool} (hat : At ts us p xs ys)
    (hproper : (Part.declaration constant).Proper ts context p) :
    ∃ word, (word = "this" ∨ word = "fr") ∧
      Announced ts word (p + if constant then leading (·.isWord "this") xs else 0) := by
  cases constant with
  | false => exact ⟨"this", .inl rfl, hproper.announced _ rfl⟩
  | true =>
      rw [if_pos rfl]
      by_cases hthis : leading (·.isWord "this") xs = 0
      · rw [hthis]
        exact ⟨"fr", .inr rfl, hproper.announced _ rfl⟩
      · obtain ⟨t, rest, rfl, ht⟩ := exists_cons_of_leading hthis
        rw [leading, if_pos ht]
        exact ⟨"this", .inl rfl, p, t, rfl, hat.getElem?_eq 0, ht⟩

theorem declaration (hr : Lockstep ts us r) {constant : Bool}
    (ih : Below ts us r (.declaration constant) xs) (hat : At ts us p xs ys)
    (hproper : (Part.declaration constant).Proper ts context p) :
    r (Parser.declaration context constant xs) (Parser.declaration context constant ys) := by
  have hdefinition (k : Nat) : r (Parser.definition context (xs.drop k))
      (Parser.definition context (ys.drop k)) :=
    hr.of_single (ih.drop hat k .definition rfl (hproper.within _ _ rfl rfl))
  rw [Parser.declaration, Parser.declaration]
  simp only [hat.leading_word_eq, (hat.drop _).quoted?_eq]
  split
  · rename_i hnone
    obtain ⟨word, hword, hannounced⟩ := announced_declaration hat hproper
    have hle := hannounced.le_length
    have hnext := (hat.drop _).noTextAt hnone
    have hstart := hat.drop (if constant then leading (·.isWord "this") xs else 0)
    obtain ⟨outer, rfl⟩ := hproper.exists_eq_cons rfl
    obtain ⟨i, t, hi, ht, hisWord⟩ := hannounced
    rw [hi] at hle hnext hstart
    refine hr.refuse_at hstart (.declaration ht ?_ hnext) hle hproper.nested
    rcases hword with rfl | rfl
    · exact .inl hisWord
    · exact .inr hisWord
  · exact hr.bind (hdefinition _) fun value _ ↦ hr.ok _

theorem assignment (hr : Lockstep ts us r) (ih : Below ts us r .assignment xs)
    (hat : At ts us p xs ys) (hproper : Part.assignment.Proper ts context p) :
    r (Parser.assignment context xs) (Parser.assignment context ys) := by
  have hdefinition : r (Parser.definition context (xs.drop 1))
      (Parser.definition context (ys.drop 1)) :=
    hr.of_single (ih.drop hat 1 .definition rfl (hproper.within _ _ rfl rfl))
  rw [Parser.assignment, Parser.assignment, hat.quoted?_eq]
  split
  · rename_i hnone
    have hannounced := hproper.announced _ rfl
    have hle := hannounced.le_length
    obtain ⟨outer, rfl⟩ := hproper.exists_eq_cons rfl
    obtain ⟨i, t, rfl, ht, hword⟩ := hannounced
    exact hr.refuse_at hat (.assignment ht hword (hat.noTextAt hnone)) hle hproper.nested
  · exact hr.bind hdefinition fun value _ ↦ hr.ok _

theorem loopCount (hr : Lockstep ts us r) (ih : Below ts us r .loopCount xs)
    (hat : At ts us p xs ys) (hproper : Part.loopCount.Proper ts context p) :
    r (Parser.loopCount context xs) (Parser.loopCount context ys) := by
  have hterm := ih.terms hr hat hproper false rfl rfl 1
  rw [Parser.loopCount, Parser.loopCount, hat.leading_symbol_eq]
  split
  · exact hr.ok _
  · refine hr.bind hterm fun times _ ↦ ?_
    simp only [(hat.drop _).leading_symbol_eq]
    exact hr.ok _

/-- The count of a loop is empty, or takes at least its opening bracket. -/
theorem count_of_loopCount {times : Taken (Option Node)}
    (h : Parser.loopCount context xs = .ok times) :
    (leading (·.isSymbol '[') xs = 0 → times.count = 0) ∧
      (leading (·.isSymbol '[') xs ≠ 0 → 1 ≤ times.count) := by
  rw [Parser.loopCount] at h
  split at h
  · rename_i hnone
    obtain rfl := Except.ok.inj h
    exact ⟨fun _ ↦ rfl, fun hsome ↦ absurd hnone hsome⟩
  · rename_i hsome
    obtain ⟨inner, -, h⟩ := exists_of_bind_eq_ok h
    obtain rfl := Except.ok.inj h
    exact ⟨fun hnone ↦ absurd hnone hsome, fun _ ↦ by simp only; omega⟩

theorem loop (hr : Lockstep ts us r) (ih : Below ts us r .loop xs)
    (hat : At ts us p xs ys) (hproper : Part.loop.Proper ts context p) :
    r (Parser.loop context xs) (Parser.loop context ys) := by
  have htimes : r (Parser.loopCount context xs) (Parser.loopCount context ys) :=
    hr.of_listed (ih.drop hat 0 .loopCount rfl (hproper.within _ _ rfl rfl))
  have hblock (k : Nat) : r (Parser.statements (.block :: context) true (xs.drop k))
      (Parser.statements (.block :: context) true (ys.drop k)) :=
    ih.drop hat k (.statements true) rfl (hproper.openedFreely _ _ rfl rfl rfl)
  rw [Parser.loop, Parser.loop]
  refine hr.bind htimes fun times hcount ↦ ?_
  simp only [(hat.drop times.count).leading_symbol_eq, List.drop_drop]
  split
  · rename_i hnone
    have hannounced := hproper.announced _ rfl
    have hle := hannounced.le_length
    have hbound : times.count ≤ xs.length := count_le .loopCount (Part.listed_of_ok hcount)
    have hlen : xs.length = ts.length - p := by rw [← hat.left, List.length_drop]
    obtain ⟨hzero, hpos⟩ := count_of_loopCount hcount
    obtain ⟨outer, rfl⟩ := hproper.exists_eq_cons rfl
    obtain ⟨i, t, rfl, ht, hword⟩ := hannounced
    refine hr.refuse_at (hat.drop times.count) (.loop ht hword ?_ ?_ ?_) (by omega) hproper.nested
    · rw [(hat.drop times.count).symbolAt_iff]
      exact not_not_intro hnone
    · intro hopen
      have hpos' := hpos ((hat.symbolAt_iff '[').mp hopen)
      omega
    · intro hopen
      rw [hat.symbolAt_iff, not_not] at hopen
      rw [hzero hopen, Nat.add_zero]
  · exact hr.bind (hblock _) fun body _ ↦ hr.ok _

theorem parameters (hr : Lockstep ts us r) (ih : Below ts us r .parameters xs)
    (hat : At ts us p xs ys) (hproper : Part.parameters.Proper ts context p) :
    r (Parser.parameters context xs) (Parser.parameters context ys) := by
  cases xs with
  | nil =>
      rw [hat.eq_nil, Parser.parameters]
      exact hr.ok _
  | cons t rest =>
      have hphrase : r (Parser.phrase (.phrase :: context) (t :: rest))
          (Parser.phrase (.phrase :: context) ys) :=
        hr.of_listed (ih.drop hat 0 .phrase rfl (hproper.openedFreely _ _ rfl rfl rfl))
      obtain ⟨u, rest', rfl, hu, hrest⟩ := hat.exists_cons
      have hmore (k : Nat) : r (Parser.parameters context (rest.drop k))
          (Parser.parameters context (rest'.drop k)) :=
        ih.rest hrest k .parameters (hproper.within _ _ rfl rfl)
      rw [Parser.parameters, Parser.parameters, Token.endsParameters_congr hu,
        Token.isSymbol_congr hu]
      split
      · exact hr.ok _
      · split
        · exact hr.map _ (hmore 0)
        · exact hr.bind hphrase fun first _ ↦ hr.bind (hmore _) fun more _ ↦ hr.ok _

theorem phrase (hr : Lockstep ts us r) (ih : Below ts us r .phrase xs)
    (hat : At ts us p xs ys) (hproper : Part.phrase.Proper ts context p) :
    r (Parser.phrase context xs) (Parser.phrase context ys) := by
  have hterm := ih.terms hr hat hproper true rfl rfl 0
  have hparts (k : Nat) : r (Parser.phraseParts context (xs.drop k))
      (Parser.phraseParts context (ys.drop k)) :=
    ih.drop hat k .phraseParts rfl (hproper.within _ _ rfl rfl)
  rw [Parser.phrase, Parser.phrase]
  refine hr.bind hterm fun first _ ↦ ?_
  split
  · exact hr.ok _
  · split
    · exact hr.ok _
    · exact hr.bind (hparts _) fun more _ ↦ hr.ok _

theorem phraseParts (hr : Lockstep ts us r) (ih : Below ts us r .phraseParts xs)
    (hat : At ts us p xs ys) (hproper : Part.phraseParts.Proper ts context p) :
    r (Parser.phraseParts context xs) (Parser.phraseParts context ys) := by
  cases xs with
  | nil =>
      rw [hat.eq_nil, Parser.phraseParts]
      exact hr.ok _
  | cons t rest =>
      have hterm := ih.terms hr hat hproper true rfl rfl 0
      obtain ⟨u, rest', rfl, hu, hrest⟩ := hat.exists_cons
      rw [Parser.phraseParts, Parser.phraseParts, Token.endsPhrase_congr hu]
      split
      · exact hr.ok _
      · refine hr.bind hterm fun part _ ↦ ?_
        split
        · exact hr.ok _
        · refine hr.bind (ih.rest hrest _ .phraseParts ?_) fun more _ ↦ hr.ok _
          exact hproper.within _ _ rfl rfl

/-- What one rule does, when the relation holds of the rules that it calls. -/
theorem read_of_below (hr : Lockstep ts us r) (ih : Below ts us r part xs) (hat : At ts us p xs ys)
    (hproper : part.Proper ts context p) : r (part.read context xs) (part.read context ys) := by
  cases part with
  | term inPhrase => exact hr.map _ (hr.term ih hat hproper)
  | word role => exact hr.map _ (hr.word ih hat hproper)
  | group => exact hr.map _ (hr.group ih hat hproper)
  | bounds => exact hr.map _ (hr.bounds ih hat hproper)
  | branch kind => exact hr.map _ (hr.branch ih hat hproper)
  | condition => exact hr.map _ (hr.condition ih hat hproper)
  | alternate => exact hr.map _ (hr.alternate ih hat hproper)
  | statements inBlock => exact hr.statements ih hat hproper
  | declaration constant => exact hr.map _ (hr.declaration ih hat hproper)
  | assignment => exact hr.map _ (hr.assignment ih hat hproper)
  | definition => exact hr.map _ (hr.definition ih hat hproper)
  | loop => exact hr.map _ (hr.loop ih hat hproper)
  | loopCount => exact hr.map _ (hr.loopCount ih hat hproper)
  | parameters => exact hr.parameters ih hat hproper
  | phrase => exact hr.map _ (hr.phrase ih hat hproper)
  | phraseParts => exact hr.phraseParts ih hat hproper

theorem read (hr : Lockstep ts us r) (part : Part) (hat : At ts us p xs ys)
    (hproper : part.Proper ts context p) : r (part.read context xs) (part.read context ys) := by
  -- the induction is on the potential of the call, for all rules and positions at once
  have hall (n : Nat) : ∀ (part : Part) {p : Nat} {xs ys : List Token} {context : List Rule},
      part.potential xs < n → At ts us p xs ys → part.Proper ts context p →
        r (part.read context xs) (part.read context ys) := by
    induction n with
    | zero => exact fun _ _ _ _ _ hlt ↦ absurd hlt (Nat.not_lt_zero _)
    | succ n ih =>
        intro part p xs ys context hlt hat hproper
        refine hr.read_of_below (fun q p' xs' ys' context' hq ↦ ih q ?_) hat hproper
        exact Nat.lt_of_lt_of_le hq (Nat.le_of_lt_succ hlt)
  exact hall _ part (Nat.lt_succ_self _) hat hproper

theorem program (hr : Lockstep ts us r) (hsame : ts.map Token.lexeme = us.map Token.lexeme) :
    r (Program.ofTokens ts) (Program.ofTokens us) := by
  apply hr.map
  refine hr.read (.statements false) (p := 0) ⟨rfl, rfl, hsame⟩ ?_
  exact ⟨nested_program, ⟨.program, [], rfl, List.mem_singleton_self _⟩,
    Part.announced_of_none rfl 0⟩

end Lockstep

end Parser

end VexLang
