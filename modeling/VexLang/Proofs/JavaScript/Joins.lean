import VexLang.JavaScript.Code

/-!
# Joins in generated code

Where a phrase becomes code, its parts are the elements of a list that is joined by blanks.
The text of every such list stands in the text of the code it belongs to.
-/

namespace VexLang

/-- The part stands in the whole text. -/
def Contains (whole part : String) : Prop :=
  ∃ before after, whole = before ++ part ++ after

namespace Contains

variable {whole part : String}

theorem refl (text : String) : Contains text text :=
  ⟨"", "", by simp⟩

theorem followed (h : Contains whole part) (text : String) : Contains (whole ++ text) part := by
  obtain ⟨before, after, rfl⟩ := h
  exact ⟨before, after ++ text, by simp only [String.append_assoc]⟩

theorem preceded (text : String) (h : Contains whole part) : Contains (text ++ whole) part := by
  obtain ⟨before, after, rfl⟩ := h
  exact ⟨text ++ before, after, by simp only [String.append_assoc]⟩

/-- What stands in one of several texts stands in all of them together. -/
theorem intercalate (h : Contains whole part) (sep : String) {texts : List String}
    (hmem : whole ∈ texts) : Contains (String.intercalate sep texts) part := by
  induction texts with
  | nil => exact absurd hmem List.not_mem_nil
  | cons text texts ih =>
      rcases List.mem_cons.mp hmem with rfl | hmem
      · cases texts with
        | nil => rwa [String.intercalate_singleton]
        | cons next texts =>
            rw [String.intercalate_cons_cons]
            exact (h.followed sep).followed _
      · rw [String.intercalate_cons_of_ne_nil (List.ne_nil_of_mem hmem)]
        exact (ih hmem).preceded _

end Contains

namespace JavaScript

mutual

/-- The lists that are joined anywhere in an expression, from left to right. -/
def Expr.joins : Expr → List (List Expr)
  | .number _ | .string _ | .boolean _ | .null | .undefined | .variable _ | .missing _ => []
  | .strictEq left right => left.joins ++ right.joins
  | .arithmetic left _ right => left.joins ++ right.joins
  | .helper _ args => joinsOf args
  | .join parts => parts :: joinsOf parts
  | .lookup name => name.joins
  | .closure body => body.joins

def Stmt.joins : Stmt → List (List Expr)
  | .declare _ _ value => value.joins
  | .assign _ value => value.joins
  | .log values => joinsOf values
  | .discard _ params => joinsOf params
  | .exit | .remark _ => []
  | .count limit body => limit.joins ++ joinsOfAll body
  | .forever body => joinsOfAll body
  | .conditional test body otherwise =>
    test.joins ++ (joinsOfAll body ++ joinsOfOption otherwise)
  | .expression e => e.joins

def joinsOf : List Expr → List (List Expr)
  | [] => []
  | e :: es => e.joins ++ joinsOf es

def joinsOfAll : List Stmt → List (List Expr)
  | [] => []
  | s :: ss => s.joins ++ joinsOfAll ss

def joinsOfOption : Option Stmt → List (List Expr)
  | none => []
  | some s => s.joins

end

theorem contains_block {texts : List String} {text part : String} (h : Contains text part)
    (hmem : text ∈ texts) : Contains (block texts) part :=
  ((h.intercalate "\n" hmem).preceded "\x7b\n").followed "\n\x7d"

variable {parts : List Expr}

mutual

theorem Expr.contains_join : ∀ e : Expr, parts ∈ e.joins →
    Contains e.render (Expr.join parts).render
  | .number _, h | .string _, h | .boolean _, h | .null, h | .undefined, h | .variable _, h
  | .missing _, h => absurd h List.not_mem_nil
  | .strictEq left right, h => by
      change Contains ("(" ++ left.render ++ " === " ++ right.render ++ ")") _
      rcases List.mem_append.mp h with h | h
      · exact ((((left.contains_join h).preceded _).followed _).followed _).followed _
      · exact ((right.contains_join h).preceded _).followed _
  | .arithmetic left op right, h => by
      change Contains ("(" ++ left.render ++ " " ++ String.singleton op.symbol ++ " " ++
        right.render ++ ")") _
      rcases List.mem_append.mp h with h | h
      · have hleft := ((left.contains_join h).preceded "(").followed " "
        exact (((hleft.followed _).followed _).followed _).followed _
      · exact ((right.contains_join h).preceded _).followed _
  | .helper helper args, h => by
      obtain ⟨text, hmem, htext⟩ := contains_join_each args h
      change Contains ("_vexHelper." ++ helper.name ++ "(" ++ _ ++ ")") _
      exact ((htext.intercalate ", " hmem).preceded _).followed _
  | .join elements, h => by
      rcases List.mem_cons.mp h with rfl | h
      · exact .refl _
      · obtain ⟨text, hmem, htext⟩ := contains_join_each elements h
        change Contains ("[" ++ _ ++ "].join(\" \")") _
        exact ((htext.intercalate ", " hmem).preceded _).followed _
  | .lookup name, h => by
      change Contains ("eval(String(" ++ name.render ++ "))") _
      exact ((name.contains_join h).preceded _).followed _
  | .closure body, h => by
      change Contains ("(() => \x7b " ++ body.render ++ " \x7d)()") _
      exact ((body.contains_join h).preceded _).followed _

theorem Stmt.contains_join : ∀ s : Stmt, parts ∈ s.joins →
    Contains s.render (Expr.join parts).render
  | .exit, h => absurd h List.not_mem_nil
  | .remark _, h => absurd h List.not_mem_nil
  | .declare constant name value, h => by
      change Contains (_ ++ name ++ " = " ++ value.render ++ ";") _
      exact ((value.contains_join h).preceded _).followed _
  | .assign name value, h => by
      change Contains (name ++ " = " ++ value.render ++ ";") _
      exact ((value.contains_join h).preceded _).followed _
  | .log values, h => by
      obtain ⟨text, hmem, htext⟩ := contains_join_each values h
      change Contains (String.intercalate "\n" ((renderExprs values).map _)) _
      exact ((htext.preceded _).followed _).intercalate _ (List.mem_map_of_mem hmem)
  | .discard command params, h => by
      obtain ⟨text, hmem, htext⟩ := contains_join_each params h
      change Contains ("/* " ++ commentText command ++ "! */ void [" ++
        String.intercalate ", " (renderExprs params) ++ "];") _
      exact ((htext.intercalate ", " hmem).preceded _).followed _
  | .count limit body, h => by
      change Contains ("for (let i = 0; i < Number(" ++ limit.render ++ "); i++) " ++ _) _
      rcases List.mem_append.mp h with h | h
      · exact (((limit.contains_join h).preceded _).followed _).followed _
      · obtain ⟨text, hmem, htext⟩ := contains_join_all body h
        exact (contains_block htext hmem).preceded _
  | .forever body, h => by
      obtain ⟨text, hmem, htext⟩ := contains_join_all body h
      change Contains ("while (true) " ++ _) _
      exact (contains_block htext hmem).preceded _
  | .conditional test body otherwise, h => by
      change Contains ("if (_vexHelper.isYup(" ++ test.render ++ ")) " ++ _ ++ _) _
      rcases List.mem_append.mp h with h | h
      · have htest := ((test.contains_join h).preceded "if (_vexHelper.isYup(").followed ")) "
        exact (htest.followed _).followed _
      · rcases List.mem_append.mp h with h | h
        · obtain ⟨text, hmem, htext⟩ := contains_join_all body h
          exact ((contains_block htext hmem).preceded _).followed _
        · exact (contains_join_option otherwise h).preceded _
  | .expression e, h => by
      change Contains (e.render ++ ";") _
      exact (e.contains_join h).followed _

theorem contains_join_each : ∀ es : List Expr, parts ∈ joinsOf es →
    ∃ text ∈ renderExprs es, Contains text (Expr.join parts).render
  | [], h => absurd h List.not_mem_nil
  | e :: es, h => by
      rcases List.mem_append.mp h with h | h
      · exact ⟨_, List.mem_cons_self, e.contains_join h⟩
      · obtain ⟨text, hmem, htext⟩ := contains_join_each es h
        exact ⟨text, List.mem_cons_of_mem _ hmem, htext⟩

theorem contains_join_all : ∀ ss : List Stmt, parts ∈ joinsOfAll ss →
    ∃ text ∈ renderStmts ss, Contains text (Expr.join parts).render
  | [], h => absurd h List.not_mem_nil
  | s :: ss, h => by
      rcases List.mem_append.mp h with h | h
      · exact ⟨_, List.mem_cons_self, s.contains_join h⟩
      · obtain ⟨text, hmem, htext⟩ := contains_join_all ss h
        exact ⟨text, List.mem_cons_of_mem _ hmem, htext⟩

theorem contains_join_option : ∀ otherwise : Option Stmt, parts ∈ joinsOfOption otherwise →
    Contains (renderOtherwise otherwise) (Expr.join parts).render
  | none, h => absurd h List.not_mem_nil
  | some s, h => by
      change Contains (" else " ++ block [s.render]) _
      exact (contains_block (s.contains_join h) (List.mem_singleton_self _)).preceded _

end

end JavaScript

end VexLang
