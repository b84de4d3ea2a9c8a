import VexLang.Proofs.Node.Rules

/-!
# What a program keeps of its tokens

The literals of the tokens stand in the tree, in the same order and none of them twice. The
rules add only what stands for something left out, the texts of symbols, and the condition
of a final alternative.
-/

namespace VexLang

/-- What carries content: values, the call for chance and the end of the run. -/
inductive Atom where
  | value (v : Value)
  | random
  | bussin
  deriving DecidableEq

def Lexeme.atom? : Lexeme → Option Atom
  | text content => some (.value (.text content))
  | number spelling => some (.value (.number (leadingNumber spelling)))
  | boolean b => some (.value (.boolean b))
  | null => some (.value .null)
  | undefined => some (.value .undefined)
  | random => some .random
  | bussin => some .bussin
  | word _ | symbol _ => none

def tokenAtoms (ts : List Token) : List Atom :=
  ts.filterMap fun t ↦ t.lexeme.atom?

mutual

/-- The atoms of a node from left to right. Names and targets count as texts. -/
def Node.atoms : Node → List Atom
  | .literal v => [.value v]
  | .identifier _ | .cut none | .manual | .openFile => []
  | .cast operand _ => operand.atoms
  | .phrase parts => atomsOf parts
  | .comparison left right => left.atoms ++ right.atoms
  | .arithmetic left _ right => left.atoms ++ right.atoms
  | .random low high => .random :: (low.atoms ++ high.atoms)
  | .declaration name value _ => .value (.text name) :: value.atoms
  | .assignment name value => .value (.text name) :: value.atoms
  | .call _ params => atomsOf params
  | .loop times body => optionAtoms times ++ atomsOf body
  | .branch _ condition body alternate =>
    condition.atoms ++ (atomsOf body ++ optionAtoms alternate)
  | .cut (some target) => [.value (.text target)]
  | .banish target => [.value (.text target)]
  | .bussin => [.bussin]

def atomsOf : List Node → List Atom
  | [] => []
  | node :: nodes => node.atoms ++ atomsOf nodes

def optionAtoms : Option Node → List Atom
  | none => []
  | some node => node.atoms

end

theorem atomsOf_append (xs ys : List Node) : atomsOf (xs ++ ys) = atomsOf xs ++ atomsOf ys := by
  induction xs with
  | nil => rfl
  | cons x xs ih => rw [List.cons_append, atomsOf, atomsOf, ih, List.append_assoc]

theorem atomsOf_singleton (node : Node) : atomsOf [node] = node.atoms := by
  rw [atomsOf, atomsOf, List.append_nil]

theorem atomsOf_toList (node : Option Node) : atomsOf node.toList = optionAtoms node := by
  cases node with
  | none => rfl
  | some node => exact atomsOf_singleton node

/-! ## Lists with fillers -/

/-- The second list is the first with fillers in between. -/
inductive Padded (filler : Atom → Prop) : List Atom → List Atom → Prop
  | nil : Padded filler [] []
  | keep {xs ys : List Atom} (a : Atom) (h : Padded filler xs ys) :
      Padded filler (a :: xs) (a :: ys)
  | fill {a : Atom} {xs ys : List Atom} (ha : filler a) (h : Padded filler xs ys) :
      Padded filler xs (a :: ys)

namespace Padded

variable {filler : Atom → Prop} {xs ys : List Atom}

theorem append (h : Padded filler xs ys) {xs' ys' : List Atom} (h' : Padded filler xs' ys') :
    Padded filler (xs ++ xs') (ys ++ ys') := by
  induction h with
  | nil => exact h'
  | keep a _ ih => exact .keep a ih
  | fill ha _ ih => exact .fill ha ih

theorem mono (h : Padded filler xs ys) {wider : Atom → Prop} (hwider : ∀ a, filler a → wider a) :
    Padded wider xs ys := by
  induction h with
  | nil => exact .nil
  | keep a _ ih => exact .keep a ih
  | fill ha _ ih => exact .fill (hwider _ ha) ih

theorem sublist (h : Padded filler xs ys) : xs.Sublist ys := by
  induction h with
  | nil => exact .slnil
  | keep a _ ih => exact ih.cons_cons a
  | fill ha _ ih => exact ih.cons _

/-- A class of atoms without fillers is the same in both lists. -/
theorem filter_eq (h : Padded filler xs ys) {p : Atom → Bool}
    (hp : ∀ a, filler a → p a = false) : xs.filter p = ys.filter p := by
  induction h with
  | nil => rfl
  | keep a _ ih => rw [List.filter_cons, List.filter_cons, ih]
  | fill ha _ ih => rw [List.filter_cons_of_neg (by rw [hp _ ha]; exact Bool.false_ne_true), ih]

end Padded

/-- What the rules may add to the atoms of the tokens. -/
inductive Filler (ts : List Token) : Atom → Prop
  | undefined : Filler ts (.value .undefined)
  | empty : Filler ts (.value (.text ""))
  | symbol {t : Token} {c : Char} (ht : t ∈ ts) (hc : t.lexeme = .symbol c) :
      Filler ts (.value (.text (String.singleton c)))
  | yup : Filler ts (.value (.boolean true))

theorem Filler.mono {us ts : List Token} (hsub : us ⊆ ts) {a : Atom} (h : Filler us a) :
    Filler ts a := by
  cases h with
  | undefined => exact .undefined
  | empty => exact .empty
  | symbol ht hc => exact .symbol (hsub ht) hc
  | yup => exact .yup

/-- Numbers, `null`, chance and the end of the run are never added. -/
def Atom.isFirm : Atom → Bool
  | value (.number _) | value .null | random | bussin => true
  | value (.text _) | value (.boolean _) | value .undefined => false

theorem Filler.isFirm_eq {ts : List Token} {a : Atom} (h : Filler ts a) : a.isFirm = false := by
  cases h <;> rfl

/-- The atoms are those of the tokens, with fillers. -/
def Accounts (us : List Token) (atoms : List Atom) : Prop :=
  Padded (Filler us) (tokenAtoms us) atoms

def Silent (us : List Token) : Prop :=
  ∀ t ∈ us, t.lexeme.atom? = none

namespace Accounts

variable {us vs : List Token} {as bs : List Atom}

theorem append (h : Accounts us as) (h' : Accounts vs bs) : Accounts (us ++ vs) (as ++ bs) := by
  rw [Accounts, tokenAtoms, List.filterMap_append]
  apply Padded.append
  · exact h.mono fun _ ↦ Filler.mono (List.subset_append_left us vs)
  · exact h'.mono fun _ ↦ Filler.mono (List.subset_append_right us vs)

theorem of_silent (h : Silent us) : Accounts us [] := by
  have hnone : tokenAtoms us = [] := List.filterMap_eq_nil_iff.mpr h
  rw [Accounts, hnone]
  exact .nil

theorem append_silent (h : Accounts us as) (hvs : Silent vs) : Accounts (us ++ vs) as := by
  have happend := h.append (of_silent hvs)
  rwa [List.append_nil] at happend

theorem silent_append (hus : Silent us) (h : Accounts vs bs) : Accounts (us ++ vs) bs :=
  (of_silent hus).append h

theorem silent_cons {t : Token} (ht : t.lexeme.atom? = none) (h : Accounts us as) :
    Accounts (t :: us) as :=
  silent_append (List.forall_mem_singleton.mpr ht) h

theorem keep {t : Token} {a : Atom} (ht : t.lexeme.atom? = some a) (h : Accounts us as) :
    Accounts (t :: us) (a :: as) := by
  have hone : Accounts [t] [a] := by
    have hatoms : tokenAtoms [t] = [a] := by
      simp only [tokenAtoms, List.filterMap_cons, List.filterMap_nil, ht]
    rw [Accounts, hatoms]
    exact .keep a .nil
  exact hone.append h

theorem fill {a : Atom} (ha : Filler us a) (h : Accounts us as) : Accounts us (a :: as) :=
  Padded.fill ha h

theorem single {node : Node} (h : Accounts us node.atoms) : Accounts us (atomsOf [node]) := by
  rwa [atomsOf_singleton]

theorem of_single {node : Node} (h : Accounts us (atomsOf [node])) : Accounts us node.atoms := by
  rwa [atomsOf_singleton] at h

theorem of_toList {node : Option Node} (h : Accounts us (atomsOf node.toList)) :
    Accounts us (optionAtoms node) := by
  rwa [atomsOf_toList] at h

/-- An operand left out is replaced by a filler. -/
theorem operand {node : Option Node} (h : Accounts us (atomsOf node.toList)) {v : Value}
    (hv : Filler us (.value v)) : Accounts us (node.getD (.literal v)).atoms := by
  cases node with
  | none => exact fill hv h
  | some node => exact of_single h

end Accounts

/-! ## Silent tokens -/

theorem atom?_of_isSymbol {t : Token} {c : Char} (h : t.isSymbol c = true) :
    t.lexeme.atom? = none := by
  rw [of_decide_eq_true h]
  rfl

theorem atom?_of_isWord {t : Token} {name : String} (h : t.isWord name = true) :
    t.lexeme.atom? = none := by
  rw [of_decide_eq_true h]
  rfl

theorem atom?_of_isEquality {t : Token} (h : t.isEquality = true) : t.lexeme.atom? = none := by
  rcases Bool.or_eq_true_iff.mp h with hword | hsymbol
  · exact atom?_of_isWord hword
  · exact atom?_of_isSymbol hsymbol

theorem atom?_of_isDelimiter {t : Token} (h : t.isDelimiter = true) : t.lexeme.atom? = none := by
  cases hlexeme : t.lexeme with
  | symbol c => rfl
  | _ =>
      rw [Token.isDelimiter, hlexeme] at h
      cases h

theorem atom?_of_junction {t : Token} {junction : Junction}
    (h : Junction.ofTokens? [t] = some junction) : t.lexeme.atom? = none := by
  rw [Junction.ofTokens?] at h
  split at h
  · exact atom?_of_isEquality ‹_›
  · cases hlexeme : t.lexeme with
    | symbol c => rfl
    | _ =>
        rw [hlexeme] at h
        cases h

theorem silent_of_atMostOne {p : Token → Bool} {us : List Token} (h : AtMostOne p us)
    (hp : ∀ t, p t = true → t.lexeme.atom? = none) : Silent us := by
  cases h with
  | none => exact nofun
  | one ht => exact List.forall_mem_singleton.mpr (hp _ ht)

/-! ## Atoms of the grammar -/

theorem accounts_leaf {t : Token} {node : Node} (h : t.lexeme.leaf? = some node) :
    Accounts [t] node.atoms := by
  cases hlexeme : t.lexeme with
  | random | word =>
      rw [hlexeme] at h
      cases h
  | symbol c =>
      rw [hlexeme, Lexeme.leaf?] at h
      split at h
      · cases h
      · obtain rfl := Option.some.inj h
        have hsilent : t.lexeme.atom? = none := by
          rw [hlexeme]
          rfl
        refine .fill (.symbol List.mem_cons_self hlexeme) ?_
        exact .of_silent (List.forall_mem_singleton.mpr hsilent)
  | _ =>
      rw [hlexeme] at h
      obtain rfl := Option.some.inj h
      exact .keep (by rw [hlexeme]; rfl) .nil

theorem accounts_castOperand {t : Token} {operand : Node}
    (h : castOperand? t.lexeme = some operand) : Accounts [t] operand.atoms := by
  cases hlexeme : t.lexeme with
  | number | text | boolean =>
      rw [hlexeme] at h
      obtain rfl := Option.some.inj h
      exact .keep (by rw [hlexeme]; rfl) .nil
  | word name =>
      rw [hlexeme] at h
      obtain rfl := Option.some.inj h
      have hsilent : t.lexeme.atom? = none := by
        rw [hlexeme]
        rfl
      exact .of_silent (List.forall_mem_singleton.mpr hsilent)
  | _ =>
      rw [hlexeme] at h
      cases h

theorem atoms_of_role {role : Role} {node : Node} (h : role.leaf? = some node) :
    node.atoms = [] := by
  cases role with
  | branch | declaration | assignment | loop | banish | call => cases h
  | _ =>
      obtain rfl := Option.some.inj h
      rfl

theorem atoms_join (junction : Junction) (left right : Node) :
    (junction.join left right).atoms = left.atoms ++ right.atoms := by
  cases junction <;> rfl

theorem atoms_joinParts (first : Node) (more : List Node) :
    (joinParts first more).atoms = first.atoms ++ atomsOf more := by
  cases more with
  | nil => exact (List.append_nil _).symm
  | cons node more => rfl

namespace Parser

/-- The nodes of the part account for its tokens. The word for chance is no token of its
bounds, but the token before them. -/
def Part.Accounted : Part → List Token → List Node → Prop
  | .bounds, us, nodes =>
    ∃ low high, nodes = [.random low high] ∧ Accounts us (low.atoms ++ high.atoms)
  | _, us, nodes => Accounts us (atomsOf nodes)

theorem Parses.accounted {part : Part} {us : List Token} {nodes : List Node}
    (h : Parses part us nodes) : part.Accounted us nodes := by
  induction h with
  | nothing | noAlternate | noStatements | noCount | noParameters => exact .of_silent nofun
  | @cast _ t colon operand status line hoperand hcolon =>
      have hsilent : Silent [colon, ⟨.word status, line⟩] :=
        List.forall_mem_cons.mpr ⟨atom?_of_isSymbol hcolon, List.forall_mem_singleton.mpr rfl⟩
      exact .single ((accounts_castOperand hoperand).append_silent hsilent)
  | leaf ht => exact .single (accounts_leaf ht)
  | random ht _ ih =>
      obtain ⟨low, high, rfl, hbounds⟩ := ih
      exact .single (.keep (by rw [ht]; rfl) hbounds)
  | bracket ht _ ih => exact .silent_cons (atom?_of_isSymbol ht) ih
  | word ht _ ih => exact .silent_cons (atom?_of_isWord ht) ih
  | simple hrole =>
      apply Accounts.single
      rw [atoms_of_role hrole]
      exact .of_silent nofun
  | cut | banish => exact .single (.keep rfl (.of_silent nofun))
  | branch _ ih | declaration _ ih | assignment _ ih | loop _ ih => exact ih
  | call _ ih => exact .single ih
  | single _ hclosing ih =>
      exact .append_silent ih (silent_of_atMostOne hclosing fun _ ↦ atom?_of_isSymbol)
  | @joined us vs closing t left right junction _ ht _ hclosing ihus ihvs =>
      have hleft := Accounts.operand ihus .undefined
      have hright := Accounts.silent_cons (atom?_of_junction ht) (.operand ihvs .undefined)
      apply Accounts.single
      rw [atoms_join]
      exact (hleft.append hright).append_silent
        (silent_of_atMostOne hclosing fun _ ↦ atom?_of_isSymbol)
  | bounds _ _ ihus ihvs =>
      exact ⟨_, _, rfl, (Accounts.operand ihus .undefined).append (.operand ihvs .undefined)⟩
  | chain _ hopening _ _ ihus ihvs ihxs =>
      have hopened := silent_of_atMostOne hopening fun _ ↦ atom?_of_isSymbol
      have htest := (Accounts.of_single ihus).append_silent hopened
      apply Accounts.single
      rw [List.append_assoc]
      exact htest.append (.append ihvs (.of_toList ihxs))
  | test _ ih => exact .single (.operand ih .undefined)
  | comparison _ ht _ ihus ihvs =>
      have hright := Accounts.silent_cons (atom?_of_isEquality ht) (.operand ihvs .undefined)
      exact .single ((Accounts.operand ihus .undefined).append hright)
  | elseif _ _ ih => exact ih
  | otherwise ht hu _ ih =>
      have hbody := Accounts.silent_cons (atom?_of_isWord ht) (.silent_cons (atom?_of_isSymbol hu) ih)
      apply Accounts.single
      rw [Node.atoms, Node.atoms, optionAtoms, List.append_nil]
      exact .fill .yup hbody
  | closed ht => exact .silent_cons (atom?_of_isSymbol ht) (.of_silent nofun)
  | skipped ht _ ih | separator ht _ ih => exact .silent_cons (atom?_of_isDelimiter ht) ih
  | statement _ _ ihus ihvs | parameter _ _ ihus ihvs =>
      have hboth := Accounts.append ihus ihvs
      rwa [← atomsOf_append] at hboth
  | declared hus _ ih =>
      have hthis := silent_of_atMostOne hus fun _ h ↦ atom?_of_isWord (Bool.and_eq_true_iff.mp h).2
      exact .single (.silent_append hthis (.keep rfl (.of_single ih)))
  | assigned _ ih => exact .single (.keep rfl (.of_single ih))
  | definition hus _ ih =>
      have hequality := silent_of_atMostOne hus fun _ ↦ atom?_of_isEquality
      exact .single (.silent_append hequality (.operand ih .empty))
  | repeated _ ht _ ihus ihvs =>
      have hbody := Accounts.silent_cons (atom?_of_isSymbol ht) ihvs
      exact .single ((Accounts.of_toList ihus).append hbody)
  | count ht _ hclosing ih =>
      have hclosed := silent_of_atMostOne hclosing fun _ ↦ atom?_of_isSymbol
      exact (Accounts.silent_cons (atom?_of_isSymbol ht) ih).append_silent hclosed
  | noPhrase _ ih | noParts _ ih => exact ih
  | alone _ _ ih => exact ih
  | parts _ _ _ ihus ihvs =>
      apply Accounts.single
      rw [atoms_joinParts]
      exact (Accounts.of_single ihus).append ihvs
  | part _ _ ihus ihvs => exact (Accounts.of_single ihus).append ihvs

end Parser

/-- The atoms of the tokens stand in the program in their order, and all that the program has
beyond them are fillers: operands and values left out, texts of symbols, and the condition of
a final alternative. -/
theorem ofTokens_atoms {ts : List Token} {program : Program}
    (h : Program.ofTokens ts = .ok program) :
    (tokenAtoms ts).Sublist (atomsOf program) ∧
      Padded (Filler ts) (tokenAtoms ts) (atomsOf program) ∧
      (tokenAtoms ts).filter Atom.isFirm = (atomsOf program).filter Atom.isFirm := by
  obtain ⟨r, hr, rfl⟩ := Parser.exists_of_map_eq_ok h
  obtain ⟨us, rest, rfl, hus, hparses⟩ := Parser.starts_of_read (.statements false) hr
  have hall := Parser.count_statements hr
  obtain rfl : rest = [] := by
    rw [List.length_append] at hall
    exact List.eq_nil_of_length_eq_zero (by omega)
  have haccounts : Accounts us (atomsOf r.value) := hparses.accounted
  rw [List.append_nil]
  exact ⟨haccounts.sublist, haccounts, haccounts.filter_eq fun _ ↦ Filler.isFirm_eq⟩

/-- A condition in brackets that nobody closes, and a block that nobody closes. -/
def unclosed : List Token :=
  [⟨.word "if", 1⟩, ⟨.symbol '(', 1⟩, ⟨.text "a", 1⟩, ⟨.symbol '=', 1⟩, ⟨.symbol '\x7b', 1⟩,
    ⟨.bussin, 2⟩, ⟨.symbol '\x7d', 3⟩, ⟨.word "else", 3⟩, ⟨.symbol '\x7b', 3⟩, ⟨.random, 4⟩,
    ⟨.null, 4⟩, ⟨.symbol ':', 4⟩]

def unclosedRead : Program :=
  [.branch .opening (.comparison (.text "a") .undefined) [.bussin]
    (some (.branch .continuing (.literal (.boolean true))
      [.random (.literal .null) (.text ":")] none))]

theorem ofTokens_atoms_unclosed :
    Program.ofTokens unclosed = .ok unclosedRead ∧
      tokenAtoms unclosed = [.value (.text "a"), .bussin, .random, .value .null] ∧
      atomsOf unclosedRead = [.value (.text "a"), .value .undefined, .bussin,
        .value (.boolean true), .random, .value .null, .value (.text ":")] ∧
      Padded (Filler unclosed) (tokenAtoms unclosed) (atomsOf unclosedRead) := by
  have hread : Program.ofTokens unclosed = .ok unclosedRead := by cbv
  exact ⟨hread, rfl, rfl, (ofTokens_atoms hread).2.1⟩

end VexLang
