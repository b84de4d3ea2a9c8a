import VexLang.Proofs.Node.Grammar

/-!
# Rules read by the grammar

A rule that succeeds has taken tokens from the start of its list, and has read them by the
grammar. The proof is an induction on the potential of a call: six times the number of
tokens, and a rank that orders the rules that are called on the same tokens.
-/

namespace VexLang

/-! ## Looking at the next tokens -/

theorem exists_leading (p : Token → Bool) (ts : List Token) :
    ∃ us rest, ts = us ++ rest ∧ us.length = leading p ts ∧ AtMostOne p us := by
  cases ts with
  | nil => exact ⟨[], [], rfl, rfl, .none⟩
  | cons t rest =>
      by_cases ht : p t = true
      · exact ⟨[t], rest, rfl, by rw [leading, if_pos ht]; rfl, .one ht⟩
      · exact ⟨[], t :: rest, rfl, by rw [leading, if_neg ht]; rfl, .none⟩

theorem exists_cons_of_leading {p : Token → Bool} {ts : List Token} (h : leading p ts ≠ 0) :
    ∃ t rest, ts = t :: rest ∧ p t = true := by
  cases ts with
  | nil => exact absurd rfl h
  | cons t rest =>
      refine ⟨t, rest, rfl, ?_⟩
      by_cases ht : p t = true
      · exact ht
      · exact absurd (if_neg ht) h

theorem exists_cons_of_quoted? {ts : List Token} {name : String} (h : quoted? ts = some name) :
    ∃ line rest, ts = ⟨.text name, line⟩ :: rest := by
  rcases ts with _ | ⟨⟨l, line⟩, rest⟩
  · cases h
  · cases l with
    | text content =>
        obtain rfl := Option.some.inj h
        exact ⟨line, rest, rfl⟩
    | _ => cases h

theorem exists_of_cast? {ts : List Token} {node : Node} (h : cast? ts = some node) :
    ∃ t colon status line rest operand, ts = t :: colon :: ⟨.word status, line⟩ :: rest ∧
      castOperand? t.lexeme = some operand ∧ colon.isSymbol ':' = true ∧
      node = .cast operand (.ofWord status) := by
  unfold cast? at h
  split at h
  · rename_i t colon status line rest
    split at h
    · rename_i hcolon
      obtain ⟨operand, hoperand, hnode⟩ := Option.map_eq_some_iff.mp h
      exact ⟨t, colon, status, line, rest, operand, rfl, hoperand, hcolon, hnode.symm⟩
    · cases h
  · cases h

theorem exists_of_junction {ts : List Token} {junction : Junction}
    (h : Junction.ofTokens? ts = some junction) :
    ∃ t rest, ts = t :: rest ∧ Junction.ofTokens? [t] = some junction := by
  cases ts with
  | nil => cases h
  | cons t rest => exact ⟨t, rest, rfl, h⟩

namespace Parser

namespace Part

/-- A rule by the part that it reads, with its nodes as a list. -/
def read (context : List Rule) (ts : List Token) : Part → Except ParseError (Taken (List Node))
  | term inPhrase => listed (Parser.term context inPhrase ts)
  | word role => listed (Parser.wordTerm context role ts)
  | group => listed (Parser.group context ts)
  | bounds => listed (Parser.bounds context ts)
  | branch kind => listed (Parser.branch context kind ts)
  | condition => (Parser.condition context ts).map fun r ↦ ⟨[r.value], r.count⟩
  | alternate => listed (Parser.alternate context ts)
  | statements inBlock => Parser.statements context inBlock ts
  | declaration constant => listed (Parser.declaration context constant ts)
  | assignment => listed (Parser.assignment context ts)
  | definition => (Parser.definition context ts).map fun r ↦ ⟨[r.value], r.count⟩
  | loop => listed (Parser.loop context ts)
  | loopCount => listed (Parser.loopCount context ts)
  | parameters => Parser.parameters context ts
  | phrase => listed (Parser.phrase context ts)
  | phraseParts => Parser.phraseParts context ts
where
  listed (r : Except ParseError (Taken (Option Node))) : Except ParseError (Taken (List Node)) :=
    r.map fun r ↦ ⟨r.value.toList, r.count⟩

/-- The order in which parts are read from the same tokens. -/
def rank : Part → Nat
  | term _ => 0
  | phraseParts => 1
  | phrase => 2
  | condition | alternate | statements _ | definition | loopCount | parameters => 3
  | group | bounds | branch _ | declaration _ | assignment | loop => 4
  | word _ => 5

/-- Smaller for every rule that a rule calls. -/
def potential (part : Part) (ts : List Token) : Nat :=
  6 * ts.length + part.rank

/-- The list starts with as many tokens as are counted, and these read as the part. -/
def Starts (part : Part) (ts : List Token) (nodes : List Node) (count : Nat) : Prop :=
  ∃ us rest, ts = us ++ rest ∧ us.length = count ∧ Parses part us nodes

/-- The rules of a smaller potential read by the grammar. -/
def Below (part : Part) (ts : List Token) : Prop :=
  ∀ (q : Part) us, q.potential us < part.potential ts →
    ∀ context r, q.read context us = .ok r → q.Starts us r.value r.count

end Part

open VexLang.Parser.Part (Starts Below)

theorem exists_of_bind_eq_ok {ε α β : Type} {x : Except ε α} {f : α → Except ε β} {b : β}
    (h : x >>= f = .ok b) : ∃ a, x = .ok a ∧ f a = .ok b := by
  cases x with
  | ok a => exact ⟨a, rfl, h⟩
  | error e => cases h

theorem exists_of_map_eq_ok {ε α β : Type} {x : Except ε α} {f : α → β} {b : β}
    (h : x.map f = .ok b) : ∃ a, x = .ok a ∧ f a = b := by
  cases x with
  | ok a => exact ⟨a, rfl, Except.ok.inj h⟩
  | error e => cases h

namespace Part

theorem rank_le (part : Part) : part.rank ≤ 5 := by
  cases part <;> exact Nat.le_of_ble_eq_true rfl

theorem listed_of_ok {x : Except ParseError (Taken (Option Node))} {r : Taken (Option Node)}
    (h : x = .ok r) : read.listed x = .ok ⟨r.value.toList, r.count⟩ := by
  rw [h]
  rfl

theorem single_of_ok {x : Except ParseError (Taken Node)} {r : Taken Node} (h : x = .ok r) :
    (x.map fun r ↦ (⟨[r.value], r.count⟩ : Taken (List Node))) = .ok ⟨[r.value], r.count⟩ := by
  rw [h]
  rfl

variable {part : Part} {context : List Rule} {ts us : List Token}

theorem Below.of_le (ih : Below part ts) (q : Part) (hrank : q.rank < part.rank)
    (hlen : us.length ≤ ts.length)
    {r : Taken (List Node)} (h : q.read context us = .ok r) : q.Starts us r.value r.count := by
  refine ih q us ?_ context r h
  simp only [potential]
  omega

theorem Below.of_lt (ih : Below part ts) (q : Part) (hlen : us.length < ts.length)
    {r : Taken (List Node)} (h : q.read context us = .ok r) : q.Starts us r.value r.count := by
  refine ih q us ?_ context r h
  have hrank := rank_le q
  simp only [potential]
  omega

theorem Below.term (ih : Below part ts) (hrank : 0 < part.rank) (hlen : us.length ≤ ts.length)
    {inPhrase : Bool} {r : Taken (Option Node)} (h : Parser.term context inPhrase us = .ok r) :
    Starts (.term inPhrase) us r.value.toList r.count :=
  ih.of_le (.term inPhrase) hrank hlen (listed_of_ok h)

variable {r : Taken (List Node)} {nodes : List Node}

/-- A rule that leaves the reading to another one. -/
theorem Below.pass (ih : Below part ts) (q : Part) (hrank : q.rank < part.rank)
    (h : q.read context ts = .ok r) (hpass : ∀ us, Parses q us r.value → Parses part us nodes) :
    part.Starts ts nodes r.count := by
  obtain ⟨us, rest, hts, hus, hparses⟩ := ih.of_le q hrank (Nat.le_refl _) h
  exact ⟨us, rest, hts, hus, hpass us hparses⟩

/-- A rule that takes a token and leaves the rest to another one. -/
theorem Below.after {t : Token} {rest : List Token} (ih : Below part (t :: rest)) (q : Part)
    (h : q.read context rest = .ok r)
    (hafter : ∀ us, Parses q us r.value → Parses part (t :: us) nodes) :
    part.Starts (t :: rest) nodes (1 + r.count) := by
  obtain ⟨us, rest, rfl, hus, hparses⟩ := ih.of_lt q (Nat.lt_succ_self _) h
  refine ⟨t :: us, rest, rfl, ?_, hafter us hparses⟩
  rw [List.length_cons, hus, Nat.add_comm]

end Part

variable {context : List Rule} {ts : List Token}

theorem starts_term {inPhrase : Bool} (ih : Below (.term inPhrase) ts) {r : Taken (Option Node)}
    (h : term context inPhrase ts = .ok r) :
    Starts (.term inPhrase) ts r.value.toList r.count := by
  cases ts with
  | nil =>
      rw [term] at h
      obtain rfl := Except.ok.inj h
      exact ⟨[], [], rfl, rfl, .nothing⟩
  | cons t rest =>
      have hleaf {node : Node} (ht : t.lexeme.leaf? = some node) :
          Starts (.term inPhrase) (t :: rest) [node] 1 := ⟨[t], rest, rfl, rfl, .leaf ht⟩
      rw [term] at h
      split at h
      · rename_i node hcast
        obtain rfl := Except.ok.inj h
        obtain ⟨t, colon, status, line, rest, operand, hts, hoperand, hcolon, rfl⟩ :=
          exists_of_cast? hcast
        exact ⟨[t, colon, ⟨.word status, line⟩], rest, hts, rfl, .cast hoperand hcolon⟩
      · cases hlexeme : t.lexeme with
        | number | text | boolean | null | undefined | bussin =>
            rw [hlexeme] at h
            obtain rfl := Except.ok.inj h
            exact hleaf (by rw [hlexeme]; rfl)
        | random =>
            rw [hlexeme] at h
            obtain ⟨s, hs, rfl⟩ := exists_of_map_eq_ok h
            exact ih.after .bounds (Part.listed_of_ok hs) fun _ ↦ .random hlexeme
        | word name =>
            rw [hlexeme] at h
            obtain ⟨s, hs, rfl⟩ := exists_of_map_eq_ok h
            exact ih.after (.word (.ofWord inPhrase name)) (Part.listed_of_ok hs) fun _ ↦
              .word (by simp [Token.isWord, hlexeme])
        | symbol c =>
            rw [hlexeme] at h
            dsimp only at h
            split at h
            · rename_i hc
              obtain ⟨s, hs, rfl⟩ := exists_of_map_eq_ok h
              exact ih.after .group (Part.listed_of_ok hs) fun _ ↦
                .bracket (by simp [Token.isSymbol, hlexeme, hc])
            · split at h
              · obtain rfl := Except.ok.inj h
                exact ⟨[], t :: rest, rfl, rfl, .nothing⟩
              · rename_i hnot
                obtain rfl := Except.ok.inj h
                exact hleaf (by rw [hlexeme, Lexeme.leaf?, if_neg hnot])

theorem starts_word {role : Role} (ih : Below (.word role) ts) {r : Taken (Option Node)}
    (h : wordTerm context role ts = .ok r) :
    Starts (.word role) ts r.value.toList r.count := by
  have hleaf {node : Node} (hrole : role.leaf? = some node) : Starts (.word role) ts [node] 0 :=
    ⟨[], ts, rfl, rfl, .simple hrole⟩
  rw [wordTerm.eq_def] at h
  cases role with
  | manual | openFile | cast | identifier =>
      obtain rfl := Except.ok.inj h
      exact hleaf rfl
  | branch kind =>
      exact ih.pass (.branch kind) (Nat.lt_succ_self 4) (Part.listed_of_ok h) fun _ ↦ .branch
  | declaration constant =>
      exact ih.pass (.declaration constant) (Nat.lt_succ_self 4) (Part.listed_of_ok h) fun _ ↦
        .declaration
  | assignment =>
      exact ih.pass .assignment (Nat.lt_succ_self 4) (Part.listed_of_ok h) fun _ ↦ .assignment
  | loop => exact ih.pass .loop (Nat.lt_succ_self 4) (Part.listed_of_ok h) fun _ ↦ .loop
  | cut =>
      dsimp only at h
      split at h
      · rename_i target htarget
        obtain rfl := Except.ok.inj h
        obtain ⟨line, rest, rfl⟩ := exists_cons_of_quoted? htarget
        exact ⟨[_], rest, rfl, rfl, .cut⟩
      · obtain rfl := Except.ok.inj h
        exact hleaf rfl
  | banish =>
      dsimp only at h
      split at h
      · rename_i target htarget
        obtain rfl := Except.ok.inj h
        obtain ⟨line, rest, rfl⟩ := exists_cons_of_quoted? htarget
        exact ⟨[_], rest, rfl, rfl, .banish⟩
      · cases h
  | call name =>
      obtain ⟨params, hparams, h⟩ := exists_of_bind_eq_ok h
      obtain rfl := Except.ok.inj h
      exact ih.pass .parameters (Nat.lt_of_sub_pos (Nat.succ_pos 1)) hparams fun _ ↦ .call

theorem drop_one_add (n : Nat) (t : Token) (rest : List Token) :
    (t :: rest).drop (1 + n) = rest.drop n := by
  rw [Nat.add_comm, List.drop_succ_cons]

/-- Tokens that are taken from a list, and are not none, begin with its first one. -/
theorem exists_of_cons_eq_append {t : Token} {rest us more : List Token} {n : Nat}
    (h : t :: rest = us ++ more) (hus : us.length = n) (hn : n ≠ 0) :
    ∃ vs, us = t :: vs ∧ rest = vs ++ more ∧ vs.length = n - 1 := by
  cases us with
  | nil => exact absurd hus.symm hn
  | cons u vs =>
      rw [List.cons_append] at h
      obtain ⟨rfl, hrest⟩ := List.cons.inj h
      exact ⟨vs, rfl, hrest, by rw [← hus, List.length_cons, Nat.add_sub_cancel]⟩

/-- A turn of a loop that has read `us`, and the turns behind it. -/
theorem starts_turn {part : Part} {t : Token} {rest us left : List Token}
    (ih : Below part (t :: rest)) {n : Nat} (h : t :: rest = us ++ left) (hus : us.length = n)
    (hn : n ≠ 0) {r : Taken (List Node)} (hr : part.read context (rest.drop (n - 1)) = .ok r)
    {nodes : List Node} (hturn : ∀ vs, Parses part vs r.value → Parses part (us ++ vs) nodes) :
    part.Starts (t :: rest) nodes (1 + (n - 1) + r.count) := by
  obtain ⟨vs, rfl, rfl, hvs⟩ := exists_of_cons_eq_append h hus hn
  rw [List.drop_left' hvs] at hr
  obtain ⟨xs, rest, rfl, hxs, hparses⟩ := ih.of_lt part (by grind) hr
  refine ⟨t :: vs ++ xs, rest, by simp, ?_, hturn xs hparses⟩
  simp only [List.length_append, List.length_cons, hvs, hxs]
  omega

theorem starts_group (ih : Below .group ts) {r : Taken (Option Node)}
    (h : group context ts = .ok r) : Starts .group ts r.value.toList r.count := by
  rw [group] at h
  obtain ⟨left, hleft, h⟩ := exists_of_bind_eq_ok h
  obtain ⟨us, rest, rfl, hus, hl⟩ := ih.term (Nat.succ_pos _) (Nat.le_refl _) hleft
  rw [List.drop_left' hus] at h
  dsimp only at h
  split at h
  · rename_i junction hjunction
    obtain ⟨t, rest, rfl, ht⟩ := exists_of_junction hjunction
    obtain ⟨right, hright, h⟩ := exists_of_bind_eq_ok h
    obtain rfl := Except.ok.inj h
    rw [List.drop_one, List.tail_cons] at hright
    obtain ⟨vs, rest, rfl, hvs, hr⟩ := ih.term (Nat.succ_pos _) (by grind) hright
    rw [drop_one_add, List.drop_left' hvs]
    obtain ⟨closing, rest, rfl, hclosing, hone⟩ := exists_leading (·.isSymbol ')') rest
    refine ⟨us ++ t :: vs ++ closing, rest, by simp, ?_, .joined hl ht hr hone⟩
    simp only [List.length_append, List.length_cons, hus, hvs, hclosing]
    omega
  · obtain rfl := Except.ok.inj h
    obtain ⟨closing, rest, rfl, hclosing, hone⟩ := exists_leading (·.isSymbol ')') rest
    exact ⟨us ++ closing, rest, by simp, by simp [hus, hclosing], .single hl hone⟩

theorem starts_bounds (ih : Below .bounds ts) {r : Taken (Option Node)}
    (h : bounds context ts = .ok r) : Starts .bounds ts r.value.toList r.count := by
  rw [bounds] at h
  obtain ⟨low, hlow, h⟩ := exists_of_bind_eq_ok h
  obtain ⟨high, hhigh, h⟩ := exists_of_bind_eq_ok h
  obtain rfl := Except.ok.inj h
  obtain ⟨us, rest, rfl, hus, hl⟩ := ih.term (Nat.succ_pos _) (Nat.le_refl _) hlow
  rw [List.drop_left' hus] at hhigh
  obtain ⟨vs, rest, rfl, hvs, hh⟩ := ih.term (Nat.succ_pos _) (by grind) hhigh
  exact ⟨us ++ vs, rest, by simp, by simp [hus, hvs], .bounds hl hh⟩

theorem starts_condition (ih : Below .condition ts) {r : Taken Node}
    (h : condition context ts = .ok r) : Starts .condition ts [r.value] r.count := by
  rw [condition] at h
  obtain ⟨left, hleft, h⟩ := exists_of_bind_eq_ok h
  obtain ⟨us, rest, rfl, hus, hl⟩ := ih.term (Nat.succ_pos _) (Nat.le_refl _) hleft
  rw [List.drop_left' hus] at h
  dsimp only at h
  split at h
  · obtain rfl := Except.ok.inj h
    exact ⟨us, rest, rfl, hus, .test hl⟩
  · rename_i hequality
    obtain ⟨t, rest, rfl, ht⟩ := exists_cons_of_leading hequality
    obtain ⟨right, hright, h⟩ := exists_of_bind_eq_ok h
    obtain rfl := Except.ok.inj h
    rw [List.drop_one, List.tail_cons] at hright
    obtain ⟨vs, rest, rfl, hvs, hr⟩ := ih.term (Nat.succ_pos _) (by grind) hright
    refine ⟨us ++ t :: vs, rest, by simp, ?_, .comparison hl ht hr⟩
    simp only [List.length_append, List.length_cons, hus, hvs]
    omega

theorem starts_branch {kind : BranchKind} (ih : Below (.branch kind) ts) {r : Taken (Option Node)}
    (h : branch context kind ts = .ok r) : Starts (.branch kind) ts r.value.toList r.count := by
  rw [branch] at h
  obtain ⟨test, htest, h⟩ := exists_of_bind_eq_ok h
  dsimp only at h
  obtain ⟨body, hbody, h⟩ := exists_of_bind_eq_ok h
  obtain ⟨next, hnext, h⟩ := exists_of_bind_eq_ok h
  obtain rfl := Except.ok.inj h
  obtain ⟨us, rest, rfl, hus, hcondition⟩ :=
    ih.of_le .condition (Nat.lt_succ_self 3) (Nat.le_refl _) (Part.single_of_ok htest)
  rw [← List.drop_drop, List.drop_left' hus] at hbody
  rw [← List.drop_drop, ← List.drop_drop, List.drop_left' hus] at hnext
  rw [List.drop_left' hus]
  obtain ⟨opening, rest, rfl, hopening, hone⟩ := exists_leading (·.isSymbol '\x7b') rest
  rw [List.drop_left' hopening] at hbody hnext
  obtain ⟨vs, rest, rfl, hvs, hblock⟩ :=
    ih.of_le (.statements true) (Nat.lt_succ_self 3) (by grind) hbody
  rw [List.drop_left' hvs] at hnext
  obtain ⟨xs, rest, rfl, hxs, hchain⟩ :=
    ih.of_le .alternate (Nat.lt_succ_self 3) (by grind) (Part.listed_of_ok hnext)
  refine ⟨us ++ opening ++ vs ++ xs, rest, by simp, ?_, .chain hcondition hone hblock hchain⟩
  simp only [List.length_append, hus, hopening, hvs, hxs]

/-- Only a delimiter starts no term. -/
theorem isDelimiter_of_term {inPhrase : Bool} {t : Token} {rest : List Token}
    {r : Taken (Option Node)} (h : term context inPhrase (t :: rest) = .ok r)
    (hzero : r.count = 0) : t.isDelimiter = true ∧ r.value = none := by
  rw [term] at h
  split at h
  · obtain rfl := Except.ok.inj h
    cases hzero
  · have hafter {x : Except ParseError (Taken (Option Node))}
        (hx : x.map (fun r ↦ r.after 1) = .ok r) : t.isDelimiter = true ∧ r.value = none := by
      obtain ⟨s, -, rfl⟩ := exists_of_map_eq_ok hx
      exact absurd hzero (Nat.ne_of_gt (Nat.lt_of_lt_of_le Nat.one_pos (Nat.le_add_right 1 s.count)))
    cases hlexeme : t.lexeme with
    | number | text | boolean | null | undefined | bussin =>
        rw [hlexeme] at h
        obtain rfl := Except.ok.inj h
        cases hzero
    | random | word =>
        rw [hlexeme] at h
        exact hafter h
    | symbol c =>
        rw [hlexeme] at h
        dsimp only at h
        split at h
        · exact hafter h
        · split at h
          · rename_i hc
            obtain rfl := Except.ok.inj h
            exact ⟨by rw [Token.isDelimiter, hlexeme]; exact hc, rfl⟩
          · obtain rfl := Except.ok.inj h
            cases hzero

theorem count_pos_of_term {inPhrase : Bool} {r : Taken (Option Node)} {node : Node}
    (h : term context inPhrase ts = .ok r) (hnode : r.value = some node) : 0 < r.count := by
  apply Nat.pos_of_ne_zero
  intro hzero
  cases ts with
  | nil =>
      rw [term] at h
      obtain rfl := Except.ok.inj h
      cases hnode
  | cons t rest =>
      rw [(isDelimiter_of_term h hzero).2] at hnode
      cases hnode

theorem isDelimiter_of_phrase {t : Token} {rest : List Token} {r : Taken (Option Node)}
    (h : phrase context (t :: rest) = .ok r) (hzero : r.count = 0) :
    t.isDelimiter = true ∧ r.value = none := by
  rw [phrase] at h
  obtain ⟨first, hfirst, h⟩ := exists_of_bind_eq_ok h
  have hcount : first.count = 0 := by
    split at h
    · obtain rfl := Except.ok.inj h
      exact hzero
    · split at h
      · obtain rfl := Except.ok.inj h
        exact hzero
      · obtain ⟨more, -, h⟩ := exists_of_bind_eq_ok h
        obtain rfl := Except.ok.inj h
        exact (Nat.add_eq_zero_iff.mp hzero).1
  obtain ⟨ht, hnone⟩ := isDelimiter_of_term hfirst hcount
  rw [hnone] at h
  obtain rfl := Except.ok.inj h
  exact ⟨ht, rfl⟩

theorem isDelimiter_eq_false {t : Token} {name : String} (ht : t.isWord name = true) :
    t.isDelimiter = false := by
  have hlexeme : t.lexeme = .word name := of_decide_eq_true ht
  rw [Token.isDelimiter, hlexeme]

theorem starts_alternate (ih : Below .alternate ts) {r : Taken (Option Node)}
    (h : alternate context ts = .ok r) : Starts .alternate ts r.value.toList r.count := by
  cases ts with
  | nil =>
      rw [alternate] at h
      obtain rfl := Except.ok.inj h
      exact ⟨[], [], rfl, rfl, .noAlternate⟩
  | cons t rest =>
      rw [alternate] at h
      split at h
      · rename_i ht
        obtain ⟨us, rest', hts, hus, hterm⟩ := ih.term (Nat.succ_pos _) (Nat.le_refl _) h
        have htaken : r.count ≠ 0 := by
          intro hzero
          have hdelimiter := (isDelimiter_of_term h hzero).1
          rw [isDelimiter_eq_false ht] at hdelimiter
          cases hdelimiter
        obtain ⟨vs, rfl, -, -⟩ := exists_of_cons_eq_append hts hus htaken
        exact ⟨t :: vs, rest', hts, hus, .elseif ht hterm⟩
      · split at h
        · rename_i helse
          obtain ⟨ht, hopen⟩ := Bool.and_eq_true_iff.mp helse
          have hopening : leading (·.isSymbol '\x7b') rest ≠ 0 := by
            rw [of_decide_eq_true hopen]
            decide
          obtain ⟨u, rest, rfl, hu⟩ := exists_cons_of_leading hopening
          obtain ⟨body, hbody, h⟩ := exists_of_bind_eq_ok h
          obtain rfl := Except.ok.inj h
          rw [List.drop_one, List.tail_cons] at hbody
          obtain ⟨us, rest, rfl, hus, hblock⟩ := ih.of_lt (.statements true) (by grind) hbody
          refine ⟨t :: u :: us, rest, rfl, ?_, .otherwise ht hu hblock⟩
          simp only [List.length_cons, hus]
          omega
        · obtain rfl := Except.ok.inj h
          exact ⟨[], t :: rest, rfl, rfl, .noAlternate⟩

theorem starts_statements {inBlock : Bool} (ih : Below (.statements inBlock) ts)
    {r : Taken (List Node)} (h : statements context inBlock ts = .ok r) :
    Starts (.statements inBlock) ts r.value r.count := by
  cases ts with
  | nil =>
      rw [statements] at h
      obtain rfl := Except.ok.inj h
      exact ⟨[], [], rfl, rfl, .noStatements⟩
  | cons t rest =>
      rw [statements] at h
      split at h
      · rename_i hclosed
        obtain ⟨rfl, ht⟩ := Bool.and_eq_true_iff.mp hclosed
        obtain rfl := Except.ok.inj h
        exact ⟨[t], rest, rfl, rfl, .closed ht⟩
      · obtain ⟨first, hfirst, h⟩ := exists_of_bind_eq_ok h
        obtain ⟨more, hmore, h⟩ := exists_of_bind_eq_ok h
        obtain rfl := Except.ok.inj h
        by_cases hzero : first.count = 0
        · obtain ⟨ht, hnone⟩ := isDelimiter_of_term hfirst hzero
          rw [hzero] at hmore
          rw [hzero, hnone]
          exact ih.after (.statements inBlock) hmore fun _ ↦ .skipped ht
        · obtain ⟨us, left, hts, hus, hterm⟩ := ih.term (Nat.succ_pos _) (Nat.le_refl _) hfirst
          exact starts_turn ih hts hus hzero hmore fun _ ↦ .statement hterm

theorem starts_definition (ih : Below .definition ts) {r : Taken Node}
    (h : definition context ts = .ok r) : Starts .definition ts [r.value] r.count := by
  rw [definition] at h
  obtain ⟨value, hvalue, h⟩ := exists_of_bind_eq_ok h
  obtain rfl := Except.ok.inj h
  obtain ⟨us, rest, rfl, hus, hone⟩ := exists_leading Token.isEquality ts
  rw [List.drop_left' hus] at hvalue
  obtain ⟨vs, rest, rfl, hvs, hphrase⟩ :=
    ih.of_le .phrase (Nat.lt_succ_self 2) (by grind) (Part.listed_of_ok hvalue)
  exact ⟨us ++ vs, rest, by simp, by simp only [List.length_append, hus, hvs],
    .definition hone hphrase⟩

theorem starts_declaration {constant : Bool} (ih : Below (.declaration constant) ts)
    {r : Taken (Option Node)} (h : declaration context constant ts = .ok r) :
    Starts (.declaration constant) ts r.value.toList r.count := by
  have hstart : (if constant then leading (·.isWord "this") ts else 0) =
      leading (fun t ↦ constant && t.isWord "this") ts := by
    cases ts <;> cases constant <;> rfl
  rw [declaration, hstart] at h
  obtain ⟨us, rest, rfl, hus, hone⟩ := exists_leading (fun t ↦ constant && t.isWord "this") ts
  rw [List.drop_left' hus] at h
  split at h
  · cases h
  · rename_i name hname
    obtain ⟨line, rest, rfl⟩ := exists_cons_of_quoted? hname
    obtain ⟨value, hvalue, h⟩ := exists_of_bind_eq_ok h
    obtain rfl := Except.ok.inj h
    rw [← List.drop_drop, List.drop_left' hus, List.drop_one, List.tail_cons] at hvalue
    obtain ⟨vs, rest, rfl, hvs, hdefinition⟩ :=
      ih.of_lt .definition (by grind) (Part.single_of_ok hvalue)
    refine ⟨us ++ ⟨.text name, line⟩ :: vs, rest, by simp, ?_, .declared hone hdefinition⟩
    simp only [List.length_append, List.length_cons, hus, hvs]
    omega

theorem starts_assignment (ih : Below .assignment ts) {r : Taken (Option Node)}
    (h : assignment context ts = .ok r) : Starts .assignment ts r.value.toList r.count := by
  rw [assignment] at h
  split at h
  · cases h
  · rename_i name hname
    obtain ⟨line, rest, rfl⟩ := exists_cons_of_quoted? hname
    obtain ⟨value, hvalue, h⟩ := exists_of_bind_eq_ok h
    obtain rfl := Except.ok.inj h
    rw [List.drop_one, List.tail_cons] at hvalue
    exact ih.after .definition (Part.single_of_ok hvalue) fun _ ↦ .assigned

theorem starts_loop (ih : Below .loop ts) {r : Taken (Option Node)}
    (h : loop context ts = .ok r) : Starts .loop ts r.value.toList r.count := by
  rw [loop] at h
  obtain ⟨times, htimes, h⟩ := exists_of_bind_eq_ok h
  obtain ⟨us, rest, rfl, hus, hcount⟩ :=
    ih.of_le .loopCount (Nat.lt_succ_self 3) (Nat.le_refl _) (Part.listed_of_ok htimes)
  rw [List.drop_left' hus] at h
  dsimp only at h
  split at h
  · cases h
  · rename_i hopening
    obtain ⟨t, rest, rfl, ht⟩ := exists_cons_of_leading hopening
    obtain ⟨body, hbody, h⟩ := exists_of_bind_eq_ok h
    obtain rfl := Except.ok.inj h
    rw [List.drop_one, List.tail_cons] at hbody
    obtain ⟨vs, rest, rfl, hvs, hblock⟩ := ih.of_lt (.statements true) (by grind) hbody
    refine ⟨us ++ t :: vs, rest, by simp, ?_, .repeated hcount ht hblock⟩
    simp only [List.length_append, List.length_cons, hus, hvs]
    omega

theorem starts_loopCount (ih : Below .loopCount ts) {r : Taken (Option Node)}
    (h : loopCount context ts = .ok r) : Starts .loopCount ts r.value.toList r.count := by
  rw [loopCount] at h
  split at h
  · obtain rfl := Except.ok.inj h
    exact ⟨[], ts, rfl, rfl, .noCount⟩
  · rename_i hopening
    obtain ⟨t, rest, rfl, ht⟩ := exists_cons_of_leading hopening
    obtain ⟨times, htimes, h⟩ := exists_of_bind_eq_ok h
    obtain rfl := Except.ok.inj h
    rw [List.drop_one, List.tail_cons] at htimes
    obtain ⟨us, rest, rfl, hus, hterm⟩ :=
      ih.term (Nat.succ_pos _) (Nat.le_succ _) htimes
    rw [drop_one_add, List.drop_left' hus]
    obtain ⟨closing, rest, rfl, hclosing, hone⟩ := exists_leading (·.isSymbol ']') rest
    refine ⟨t :: us ++ closing, rest, by simp, ?_, .count ht hterm hone⟩
    simp only [List.length_append, List.length_cons, hus, hclosing]
    omega

theorem starts_parameters (ih : Below .parameters ts) {r : Taken (List Node)}
    (h : parameters context ts = .ok r) : Starts .parameters ts r.value r.count := by
  cases ts with
  | nil =>
      rw [parameters] at h
      obtain rfl := Except.ok.inj h
      exact ⟨[], [], rfl, rfl, .noParameters⟩
  | cons t rest =>
      rw [parameters] at h
      split at h
      · obtain rfl := Except.ok.inj h
        exact ⟨[], t :: rest, rfl, rfl, .noParameters⟩
      · split at h
        · rename_i hcomma
          obtain ⟨more, hmore, rfl⟩ := exists_of_map_eq_ok h
          have ht : t.isDelimiter = true := by
            rw [Token.isDelimiter, of_decide_eq_true hcomma]
            decide
          exact ih.after .parameters hmore fun _ ↦ .separator ht
        · obtain ⟨first, hfirst, h⟩ := exists_of_bind_eq_ok h
          obtain ⟨more, hmore, h⟩ := exists_of_bind_eq_ok h
          obtain rfl := Except.ok.inj h
          by_cases hzero : first.count = 0
          · obtain ⟨ht, hnone⟩ := isDelimiter_of_phrase hfirst hzero
            rw [hzero] at hmore
            rw [hzero, hnone]
            exact ih.after .parameters hmore fun _ ↦ .separator ht
          · obtain ⟨us, left, hts, hus, hphrase⟩ :=
              ih.of_le .phrase (Nat.lt_succ_self 2) (Nat.le_refl _) (Part.listed_of_ok hfirst)
            exact starts_turn ih hts hus hzero hmore fun _ ↦ .parameter hphrase

theorem starts_phrase (ih : Below .phrase ts) {r : Taken (Option Node)}
    (h : phrase context ts = .ok r) : Starts .phrase ts r.value.toList r.count := by
  rw [phrase] at h
  obtain ⟨first, hfirst, h⟩ := exists_of_bind_eq_ok h
  obtain ⟨us, rest, rfl, hus, hterm⟩ := ih.term (Nat.succ_pos _) (Nat.le_refl _) hfirst
  split at h
  · rename_i hnone
    obtain rfl := Except.ok.inj h
    rw [hnone] at hterm
    exact ⟨us, rest, rfl, hus, .noPhrase hterm⟩
  · rename_i node hnode
    rw [hnode] at hterm
    split at h
    · rename_i halone
      obtain rfl := Except.ok.inj h
      exact ⟨us, rest, rfl, hus, .alone hterm halone⟩
    · rename_i hjoins
      obtain ⟨more, hmore, h⟩ := exists_of_bind_eq_ok h
      obtain rfl := Except.ok.inj h
      rw [List.drop_left' hus] at hmore
      obtain ⟨vs, rest, rfl, hvs, hparts⟩ :=
        ih.of_le .phraseParts (Nat.lt_succ_self 1) (by grind) hmore
      refine ⟨us ++ vs, rest, by simp, ?_, .parts hterm (Bool.eq_false_iff.mpr hjoins) hparts⟩
      simp only [List.length_append, hus, hvs]

theorem starts_phraseParts (ih : Below .phraseParts ts) {r : Taken (List Node)}
    (h : phraseParts context ts = .ok r) : Starts .phraseParts ts r.value r.count := by
  cases ts with
  | nil =>
      rw [phraseParts] at h
      obtain rfl := Except.ok.inj h
      exact ⟨[], [], rfl, rfl, .noParts .nothing⟩
  | cons t rest =>
      rw [phraseParts] at h
      split at h
      · obtain rfl := Except.ok.inj h
        exact ⟨[], t :: rest, rfl, rfl, .noParts .nothing⟩
      · obtain ⟨first, hfirst, h⟩ := exists_of_bind_eq_ok h
        obtain ⟨us, rest', hts, hus, hterm⟩ := ih.term (Nat.succ_pos _) (Nat.le_refl _) hfirst
        split at h
        · rename_i hnone
          obtain rfl := Except.ok.inj h
          rw [hnone] at hterm
          exact ⟨us, rest', hts, hus, .noParts hterm⟩
        · rename_i node hnode
          have htaken : first.count ≠ 0 := Nat.ne_of_gt (count_pos_of_term hfirst hnode)
          rw [hnode] at hterm
          obtain ⟨more, hmore, h⟩ := exists_of_bind_eq_ok h
          obtain rfl := Except.ok.inj h
          exact starts_turn ih hts hus htaken hmore fun _ ↦ .part hterm

theorem starts_of_below (part : Part) (ih : Below part ts) {r : Taken (List Node)}
    (h : part.read context ts = .ok r) : part.Starts ts r.value r.count := by
  have hlisted {x : Except ParseError (Taken (Option Node))} {part : Part}
      (hx : Part.read.listed x = .ok r)
      (hstarts : ∀ s, x = .ok s → part.Starts ts s.value.toList s.count) :
      part.Starts ts r.value r.count := by
    obtain ⟨s, hs, rfl⟩ := exists_of_map_eq_ok hx
    exact hstarts s hs
  cases part with
  | term inPhrase => exact hlisted h fun _ ↦ starts_term ih
  | word role => exact hlisted h fun _ ↦ starts_word ih
  | group => exact hlisted h fun _ ↦ starts_group ih
  | bounds => exact hlisted h fun _ ↦ starts_bounds ih
  | branch kind => exact hlisted h fun _ ↦ starts_branch ih
  | condition =>
      obtain ⟨s, hs, rfl⟩ := exists_of_map_eq_ok h
      exact starts_condition ih hs
  | alternate => exact hlisted h fun _ ↦ starts_alternate ih
  | statements inBlock => exact starts_statements ih h
  | declaration constant => exact hlisted h fun _ ↦ starts_declaration ih
  | assignment => exact hlisted h fun _ ↦ starts_assignment ih
  | definition =>
      obtain ⟨s, hs, rfl⟩ := exists_of_map_eq_ok h
      exact starts_definition ih hs
  | loop => exact hlisted h fun _ ↦ starts_loop ih
  | loopCount => exact hlisted h fun _ ↦ starts_loopCount ih
  | parameters => exact starts_parameters ih h
  | phrase => exact hlisted h fun _ ↦ starts_phrase ih
  | phraseParts => exact starts_phraseParts ih h

/-- Every rule reads by the grammar. -/
theorem starts_of_read (part : Part) {r : Taken (List Node)} (h : part.read context ts = .ok r) :
    part.Starts ts r.value r.count := by
  -- the induction is on the potential of the call, for all rules at once
  have hall (n : Nat) : ∀ (part : Part) (ts : List Token), part.potential ts < n →
      ∀ context r, part.read context ts = .ok r → part.Starts ts r.value r.count := by
    induction n with
    | zero => exact fun _ _ hlt ↦ absurd hlt (Nat.not_lt_zero _)
    | succ n ih =>
        intro part ts hlt context r h
        refine starts_of_below part (fun q us hq ↦ ih q us ?_) h
        exact Nat.lt_of_lt_of_le hq (Nat.le_of_lt_succ hlt)
  exact hall _ part ts (Nat.lt_succ_self _) context r h

theorem count_le (part : Part) {r : Taken (List Node)} (h : part.read context ts = .ok r) :
    r.count ≤ ts.length := by
  obtain ⟨us, rest, rfl, hus, -⟩ := starts_of_read part h
  rw [List.length_append, hus]
  exact Nat.le_add_right _ _

/-- Outside of blocks, statements are read up to the last token. -/
theorem count_statements {r : Taken (List Node)} (h : statements context false ts = .ok r) :
    r.count = ts.length := by
  induction hn : ts.length using Nat.strongRecOn generalizing ts r with
  | _ n ih =>
      cases ts with
      | nil =>
          rw [statements] at h
          obtain rfl := Except.ok.inj h
          exact hn
      | cons t rest =>
          rw [statements, Bool.false_and, if_neg Bool.false_ne_true] at h
          obtain ⟨first, hfirst, h⟩ := exists_of_bind_eq_ok h
          obtain ⟨more, hmore, h⟩ := exists_of_bind_eq_ok h
          obtain rfl := Except.ok.inj h
          have hcount := count_le (.term false) (Part.listed_of_ok hfirst)
          have hrest : (rest.drop (first.count - 1)).length = rest.length - (first.count - 1) :=
            List.length_drop
          rw [List.length_cons] at hn hcount
          have hmore' := ih _ (by omega) hmore rfl
          dsimp only at hcount ⊢
          omega

end Parser

end VexLang
