import VexLang.Proofs.Node.Rules

/-!
# Reading comes to an end

Four loops read statements, those of a block, the parameters of a command and the parts of
a phrase. A turn of such a loop is written here as it stands by itself, with no bound on
the number of turns: it reads something and goes on with the tokens that are left. Where
statements and parameters are read, a turn that has taken nothing drops a token; where
parts of a phrase are read there is no such guard, and none is needed, because a term that
gives a node has taken a token.
-/

namespace VexLang

namespace Parser

/-- What one turn of a loop does. -/
inductive Turn where
  | stop (rest : List Token)
  /-- The loop goes on with the tokens that are left. -/
  | next (nodes : List Node) (rest : List Token)

/-- Drops a token if none has been taken. -/
def advance (before after : List Token) : List Token :=
  if after.length = before.length then before.drop 1 else after

inductive Loop where
  | statements (inBlock : Bool)
  | parameters
  | phraseParts

namespace Loop

def turn (context : List Rule) : Loop → List Token → Except ParseError Turn
  | _, [] => .ok (.stop [])
  | statements inBlock, t :: rest =>
    if inBlock && t.isSymbol '\x7d' then .ok (.stop rest)
    else do
      let first ← term context false (t :: rest)
      return .next first.value.toList (advance (t :: rest) ((t :: rest).drop first.count))
  | parameters, t :: rest =>
    if t.endsParameters then .ok (.stop (t :: rest))
    else if t.isSymbol ',' then .ok (.next [] rest)
    else do
      let first ← phrase (.phrase :: context) (t :: rest)
      return .next first.value.toList (advance (t :: rest) ((t :: rest).drop first.count))
  | phraseParts, t :: rest =>
    if t.endsPhrase then .ok (.stop (t :: rest))
    else do
      let part ← term context true (t :: rest)
      match part.value with
      | none => return .stop ((t :: rest).drop part.count)
      | some node => return .next [node] ((t :: rest).drop part.count)

def part : Loop → Part
  | statements inBlock => .statements inBlock
  | parameters => .parameters
  | phraseParts => .phraseParts

/-- What the rule that holds the loop answers: its nodes and the tokens that are left. -/
def answer (l : Loop) (context : List Rule) (ts : List Token) :
    Except ParseError (List Node × List Token) :=
  (l.part.read context ts).map fun r ↦ (r.value, ts.drop r.count)

end Loop

/-- The nodes of a turn come before those of the turns behind it. -/
def prepend (nodes : List Node) (answer : Except ParseError (List Node × List Token)) :
    Except ParseError (List Node × List Token) :=
  answer.map fun more ↦ (nodes ++ more.1, more.2)

/-- The loop ends with the answer after it has gone on `n` times. -/
inductive Ends (turn : List Token → Except ParseError Turn) :
    Nat → List Token → Except ParseError (List Node × List Token) → Prop
  | stop {ts rest : List Token} (h : turn ts = .ok (.stop rest)) : Ends turn 0 ts (.ok ([], rest))
  | fail {ts : List Token} {e : ParseError} (h : turn ts = .error e) : Ends turn 0 ts (.error e)
  | next {ts rest : List Token} {nodes : List Node} {n : Nat}
      {answer : Except ParseError (List Node × List Token)}
      (h : turn ts = .ok (.next nodes rest)) (hrest : Ends turn n rest answer) :
      Ends turn (n + 1) ts (prepend nodes answer)

/-! ## One turn -/

variable {context : List Rule} {ts rest : List Token}

theorem length_lt_of_term {inPhrase : Bool} {r : Taken (Option Node)} {node : Node}
    (h : term context inPhrase ts = .ok r) (hnode : r.value = some node) :
    (ts.drop r.count).length < ts.length := by
  have hpos := count_pos_of_term h hnode
  have hle : r.count ≤ ts.length := count_le (.term inPhrase) (Part.listed_of_ok h)
  rw [List.length_drop]
  omega

theorem advance_drop (n : Nat) (t : Token) (rest : List Token) :
    advance (t :: rest) ((t :: rest).drop n) = rest.drop (n - 1) := by
  cases n with
  | zero => rw [advance, List.drop_zero, if_pos rfl, List.drop_one, List.tail_cons]; rfl
  | succ n =>
      have hshorter : (rest.drop n).length ≠ (t :: rest).length := by
        rw [List.length_drop, List.length_cons]
        omega
      rw [advance, List.drop_succ_cons, if_neg hshorter, Nat.add_sub_cancel]

theorem drop_suffix_cons (n : Nat) (t : Token) (rest : List Token) :
    rest.drop n <:+ t :: rest ∧ (rest.drop n).length < (t :: rest).length := by
  refine ⟨(List.drop_suffix n rest).trans (List.suffix_cons t rest), ?_⟩
  rw [List.length_drop, List.length_cons]
  omega

/-- A turn that does not end its loop leaves fewer tokens. -/
theorem length_lt_of_turn (l : Loop) {nodes : List Node}
    (h : l.turn context ts = .ok (.next nodes rest)) : rest <:+ ts ∧ rest.length < ts.length := by
  cases ts with
  | nil => cases l <;> cases h
  | cons t more =>
      cases l with
      | statements inBlock =>
          rw [Loop.turn] at h
          split at h
          · cases h
          · obtain ⟨first, -, h⟩ := exists_of_bind_eq_ok h
            cases h
            rw [advance_drop]
            exact drop_suffix_cons _ t more
      | parameters =>
          rw [Loop.turn] at h
          split at h
          · cases h
          · split at h
            · cases h
              exact drop_suffix_cons 0 t rest
            · obtain ⟨first, -, h⟩ := exists_of_bind_eq_ok h
              cases h
              rw [advance_drop]
              exact drop_suffix_cons _ t more
      | phraseParts =>
          rw [Loop.turn] at h
          split at h
          · cases h
          · obtain ⟨part, hpart, h⟩ := exists_of_bind_eq_ok h
            split at h
            · cases h
            · rename_i node hnode
              cases h
              exact ⟨List.drop_suffix _ _, length_lt_of_term hpart hnode⟩

/-! ## All turns -/

/-- What becomes of the answer after one turn. -/
def follow (answer : List Token → Except ParseError (List Node × List Token)) :
    Turn → Except ParseError (List Node × List Token)
  | .stop rest => .ok ([], rest)
  | .next nodes rest => prepend nodes (answer rest)

theorem answer_nil (l : Loop) : l.answer context [] = .ok ([], []) := by
  cases l with
  | statements inBlock => rw [Loop.answer, Loop.part, Part.read, statements]; rfl
  | parameters => rw [Loop.answer, Loop.part, Part.read, parameters]; rfl
  | phraseParts => rw [Loop.answer, Loop.part, Part.read, phraseParts]; rfl

/-- A turn that has taken a token, and the turns behind it. -/
theorem prepend_answer (l : Loop) (context : List Rule) (n : Nat) (nodes : List Node) (t : Token)
    (rest : List Token) :
    ((l.part.read context (rest.drop n)).map fun more ↦
        (nodes ++ more.value, (t :: rest).drop (1 + n + more.count))) =
      prepend nodes (l.answer context (rest.drop n)) := by
  rw [Loop.answer, prepend]
  cases l.part.read context (rest.drop n) with
  | error e => rfl
  | ok more =>
      simp only [Except.map]
      rw [Nat.add_assoc, drop_one_add, List.drop_drop]

theorem map_bind_pure {α β γ : Type} (x : Except ParseError α) (g : α → β) (f : β → γ) :
    (x >>= fun a ↦ pure (g a)).map f = x.map fun a ↦ f (g a) := by
  cases x <;> rfl

/-- The loops of the rules are made of these turns. -/
theorem answer_cons (l : Loop) (t : Token) (rest : List Token) :
    l.answer context (t :: rest) = l.turn context (t :: rest) >>= follow (l.answer context) := by
  -- the tokens behind a turn are counted from the second token on
  have hnext (nodes : List Node) (n : Nat) :
      ((l.part.read context (rest.drop (n - 1))).map fun more ↦
          (nodes ++ more.value, (t :: rest).drop (1 + (n - 1) + more.count))) =
        follow (l.answer context) (.next nodes (advance (t :: rest) ((t :: rest).drop n))) := by
    rw [prepend_answer, advance_drop]
    rfl
  cases l with
  | statements inBlock =>
      rw [Loop.answer, Loop.part, Part.read, statements, Loop.turn]
      split
      · rfl
      · cases term context false (t :: rest) with
        | error e => rfl
        | ok first => exact (map_bind_pure _ _ _).trans (hnext _ first.count)
  | parameters =>
      rw [Loop.answer, Loop.part, Part.read, parameters, Loop.turn]
      split
      · rfl
      · split
        · have hcomma : ((parameters context rest).map fun r ↦ r.after 1).map
              (fun r ↦ (r.value, (t :: rest).drop r.count)) =
              (parameters context rest).map fun more ↦
                ([] ++ more.value, (t :: rest).drop (1 + 0 + more.count)) := by
            cases parameters context rest <;> rfl
          exact hcomma.trans (prepend_answer .parameters context 0 [] t rest)
        · cases phrase (.phrase :: context) (t :: rest) with
          | error e => rfl
          | ok first => exact (map_bind_pure _ _ _).trans (hnext _ first.count)
  | phraseParts =>
      rw [Loop.answer, Loop.part, Part.read, phraseParts, Loop.turn]
      split
      · rfl
      · cases hpart : term context true (t :: rest) with
        | error e => rfl
        | ok part =>
            obtain ⟨value, count⟩ := part
            cases value with
            | none => rfl
            | some node =>
                have hpos : 0 < count := count_pos_of_term hpart rfl
                have hdrop : (t :: rest).drop count =
                    advance (t :: rest) ((t :: rest).drop count) := by
                  obtain ⟨k, rfl⟩ := Nat.exists_eq_add_of_lt hpos
                  rw [advance_drop, Nat.zero_add, List.drop_succ_cons, Nat.add_sub_cancel]
                refine ((map_bind_pure _ _ _).trans (hnext [node] count)).trans ?_
                rw [← hdrop]
                rfl

/-- A loop that is left to itself ends with the answer of its rule, and takes no more turns
than there are tokens. -/
theorem exists_ends (l : Loop) (context : List Rule) (ts : List Token) :
    ∃ n ≤ ts.length, Ends (l.turn context) n ts (l.answer context ts) := by
  induction hlen : ts.length using Nat.strongRecOn generalizing ts with
  | _ len ih =>
      cases ts with
      | nil =>
          refine ⟨0, Nat.zero_le _, ?_⟩
          rw [answer_nil]
          exact .stop (by cases l <;> rfl)
      | cons t rest =>
          rw [answer_cons]
          cases hturn : l.turn context (t :: rest) with
          | error e => exact ⟨0, Nat.zero_le _, .fail hturn⟩
          | ok turn =>
              cases turn with
              | stop left => exact ⟨0, Nat.zero_le _, .stop hturn⟩
              | next nodes left =>
                  have hshorter := (length_lt_of_turn l hturn).2
                  obtain ⟨n, hn, hends⟩ := ih _ (hlen ▸ hshorter) left rfl
                  exact ⟨n + 1, by omega, .next hturn hends⟩

/-- Every rule that succeeds leaves what follows the tokens it has taken, a term that gives a
node has taken some, a turn of a loop that does not end it leaves fewer tokens, and so all
loops end, that of the program with no token left. -/
theorem reading_ends (context : List Rule) (ts : List Token) :
    (∀ (part : Part) r, part.read context ts = .ok r →
      ∃ taken, taken.length = r.count ∧ ts = taken ++ ts.drop r.count) ∧
    (∀ inPhrase node count, term context inPhrase ts = .ok ⟨some node, count⟩ →
      (ts.drop count).length < ts.length) ∧
    (∀ (l : Loop) nodes rest, l.turn context ts = .ok (.next nodes rest) →
      rest <:+ ts ∧ rest.length < ts.length) ∧
    (∀ l : Loop, ∃ n ≤ ts.length, Ends (l.turn context) n ts (l.answer context ts)) ∧
    ∃ n ≤ ts.length, Ends ((Loop.statements false).turn [.program]) n ts
      ((Program.ofTokens ts).map fun program ↦ (program, [])) := by
  refine ⟨?_, ?_, fun l _ _ h ↦ length_lt_of_turn l h, fun l ↦ exists_ends l context ts, ?_⟩
  · intro part r h
    obtain ⟨us, rest, rfl, hus, -⟩ := starts_of_read part h
    exact ⟨us, hus, by rw [List.drop_left' hus]⟩
  · intro inPhrase node count h
    exact length_lt_of_term h rfl
  · obtain ⟨n, hn, hends⟩ := exists_ends (.statements false) [.program] ts
    refine ⟨n, hn, ?_⟩
    have hanswer : (Program.ofTokens ts).map (fun program ↦ (program, [])) =
        (Loop.statements false).answer [.program] ts := by
      rw [Program.ofTokens, Loop.answer, Loop.part, Part.read]
      cases hread : statements [.program] false ts with
      | error e => rfl
      | ok r =>
          simp only [Except.map, count_statements hread, List.drop_length]
    rw [hanswer]
    exact hends

end Parser

end VexLang
