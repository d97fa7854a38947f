import Rsleigh.Preprocessor.Machine

namespace Rsleigh.Preprocessor

open Parsing Syntax

-- How a line ends.
inductive Ending where
  | lf
  | crlf

def Ending.chars : Ending → Text
  | .lf => ['\n']
  | .crlf => ['\r','\n']

-- What follows the text of a line.
def Ends (next : Text) : Prop :=
  ∃ ending : Ending, ∃ more, next = ending.chars ++ more

inductive LineItem where
  | token (token : TokenType)
  | expansion (name : Text)

def LineItem.body : LineItem → Body
  | .token own => .token own
  | .expansion name => .expansion name

def lexItem : TextParser LineItem :=
  alt [map expansion .expansion,map TokenType.parse .token]

-- The text of a line is read as some tokens and macro expansions, whatever the lines after it are.
inductive Lexes : Text → List LineItem → Prop where
  | done {text : Text} : (∀ next, Ends next → emptySpace0 (text ++ next) = some ((), next)) → Lexes text []
  | item {text rest : Text} {item : LineItem} {items : List LineItem} :
      (∀ next, Ends next → ∃ spaced, emptySpace0 (text ++ next) = some ((), spaced) ∧ lineEnding spaced = none ∧
        spaced ≠ [] ∧ lexItem spaced = some (item, rest ++ next)) →
      Lexes rest items → Lexes text (item :: items)

def Unbroken (text : Text) : Prop :=
  '\n' ∉ text ∧ '\r' ∉ text

instance (text : Text) : Decidable (Unbroken text) :=
  inferInstanceAs (Decidable (_ ∧ _))

structure TokenLine where
  text : Text
  ending : Ending
  items : List LineItem
  unbroken : Unbroken text
  lexes : Lexes text items

-- The text of a line is read as one directive.
structure DirectiveLine (macroLine : MacroLine) where
  text : Text
  ending : Ending
  unbroken : Unbroken text
  parses : ∀ next, Ends next → MacroLine.parse (text ++ next) = some (macroLine, next)

inductive Line where
  | tokens (line : TokenLine)
  | directive (macroLine : MacroLine) (line : DirectiveLine macroLine)

namespace Line

def text : Line → Text
  | .tokens line => line.text
  | .directive _ line => line.text

def ending : Line → Ending
  | .tokens line => line.ending
  | .directive _ line => line.ending

theorem unbroken : (line : Line) → Unbroken line.text
  | .tokens line => line.unbroken
  | .directive _ line => line.unbroken

def chars (line : Line) : Text :=
  line.text ++ line.ending.chars

end Line

def chars (ls : List Line) : Text :=
  ls.flatMap Line.chars

theorem chars_cons (line : Line) (ls : List Line) : chars (line :: ls) = line.text ++ (line.ending.chars ++ chars ls) := by
  unfold chars
  rw [List.flatMap_cons,Line.chars,List.append_assoc]

theorem ends_chars (ending : Ending) (more : Text) : Ends (ending.chars ++ more) :=
  ⟨ending,more,rfl⟩

theorem ends_head {next : Text} (ends : Ends next) : ∃ c more, next = c :: more ∧ (c = '\n' ∨ c = '\r') := by
  obtain ⟨ending,more,rfl⟩ := ends
  cases ending with
  | lf => exact ⟨'\n',more,rfl,Or.inl rfl⟩
  | crlf => exact ⟨'\r','\n' :: more,rfl,Or.inr rfl⟩

-- A line that does not start with `@` is no directive.
section Directives

theorem word_some {expected : String} {input rest : Text} :
    word expected input = some ((),rest) ↔ input = expected.toList ++ rest := by
  unfold word
  constructor
  · intro accepted
    split at accepted
    · rename_i isPrefix
      obtain ⟨tail,rfl⟩ := List.isPrefixOf_iff_prefix.mp isPrefix
      rw [List.drop_left] at accepted
      cases accepted
      rfl
    · cases accepted
  · intro same
    subst same
    rw [if_pos (List.isPrefixOf_iff_prefix.mpr (List.prefix_append _ _)),List.drop_left]

theorem word_head {expected : String} {input : Text} {c : Char} (starts : expected.toList.head? = some c)
    (other : input.head? ≠ some c) : word expected input = none := by
  cases accepted : word expected input with
  | none => rfl
  | some result =>
    have shape := word_some.mp accepted
    rw [shape] at other
    cases letters : expected.toList with
    | nil =>
      rw [letters] at starts
      cases starts
    | cons first rest =>
      rw [letters] at starts other
      exact absurd starts other

-- What a directive starts with.
def MacroLine.words : MacroLine → List String
  | .define _ _ => ["@define"]
  | .undefine _ => ["@undef"]
  | .include_ _ => ["@include"]
  | .if_ _ => ["@if","@ifdef","@ifndef"]
  | .elIf _ => ["@elif"]
  | .else_ => ["@else"]
  | .endIf => ["@endif"]

-- What a directive is to the search for the end of a block.
def MacroLine.border : MacroLine → Option IfBorders
  | .define _ _ | .undefine _ | .include_ _ => none
  | .if_ _ => some .if_
  | .elIf _ => some .ifElse
  | .else_ => some .else_
  | .endIf => some .endIf

theorem word_begins {expected : String} {input : Text} {result : Unit × Text}
    (accepted : word expected input = some result) : expected.toList <+: input := by
  rcases result with ⟨_,rest⟩
  rw [word_some.mp accepted]
  exact List.prefix_append _ _

theorem preceded_word {expected : String} {space : TextParser β} {second : TextParser γ} {input : Text}
    {result : γ × Text} (accepted : preceded (pair (word expected) space) second input = some result) :
    expected.toList <+: input := by
  obtain ⟨_,both,_⟩ := map_inv accepted
  obtain ⟨_,leading,_⟩ := pair_inv both
  obtain ⟨_,found,_⟩ := pair_inv leading
  exact word_begins found

theorem parse_word {input rest : Text} {macroLine : MacroLine} (accepted : MacroLine.parse input = some (macroLine,rest)) :
    ∃ expected ∈ macroLine.words, expected.toList <+: input.dropWhile isSpace := by
  obtain ⟨⟨leading,own⟩,both,same⟩ := map_inv accepted
  obtain ⟨middle,spaces,directive⟩ := pair_inv both
  cases spaces
  change own = macroLine at same
  subst same
  change _ = some (own,rest) at directive
  obtain ⟨parser,member,accepted⟩ := alt_some directive
  simp only [List.mem_cons,List.not_mem_nil,or_false] at member
  rcases member with rfl | rfl | rfl | rfl | rfl | rfl | rfl | rfl | rfl
  · obtain ⟨_,found,same⟩ := map_inv accepted
    rw [← same]
    exact ⟨"@define",List.mem_cons_self ..,preceded_word found⟩
  · obtain ⟨_,found,same⟩ := map_inv accepted
    rw [← same]
    exact ⟨"@undef",List.mem_cons_self ..,preceded_word found⟩
  · obtain ⟨_,found,same⟩ := map_inv accepted
    rw [← same]
    exact ⟨"@include",List.mem_cons_self ..,preceded_word found⟩
  · obtain ⟨_,found,same⟩ := map_inv accepted
    rw [← same]
    exact ⟨"@if",List.mem_cons_self ..,preceded_word found⟩
  · obtain ⟨_,found,same⟩ := map_inv accepted
    rw [← same]
    exact ⟨"@ifdef",by simp [MacroLine.words],preceded_word found⟩
  · obtain ⟨_,found,same⟩ := map_inv accepted
    rw [← same]
    exact ⟨"@ifndef",by simp [MacroLine.words],preceded_word found⟩
  · obtain ⟨_,found,same⟩ := map_inv accepted
    rw [← same]
    exact ⟨"@elif",List.mem_cons_self ..,preceded_word found⟩
  · obtain ⟨_,both,same⟩ := map_inv accepted
    obtain ⟨_,found,_⟩ := pair_inv both
    rw [← same]
    exact ⟨"@else",List.mem_cons_self ..,word_begins found⟩
  · obtain ⟨_,both,same⟩ := map_inv accepted
    obtain ⟨_,found,_⟩ := pair_inv both
    rw [← same]
    exact ⟨"@endif",List.mem_cons_self ..,word_begins found⟩

theorem words_at (macroLine : MacroLine) : ∀ expected ∈ macroLine.words, expected.toList.head? = some '@' := by
  intro expected member
  cases macroLine <;> simp only [MacroLine.words,List.mem_cons,List.not_mem_nil,or_false] at member
  case if_ cond => rcases member with rfl | rfl | rfl <;> rfl
  all_goals
    subst member
    rfl

theorem macro_refused {input : Text} (other : (input.dropWhile isSpace).head? ≠ some '@') :
    MacroLine.parse input = none := by
  cases accepted : MacroLine.parse input with
  | none => rfl
  | some result =>
    obtain ⟨expected,isWord,rest,shape⟩ := @parse_word input result.2 result.1 accepted
    have starts := words_at _ _ isWord
    rw [← shape] at other
    cases letters : expected.toList with
    | nil =>
      rw [letters] at starts
      cases starts
    | cons first later =>
      rw [letters] at starts other
      exact absurd starts other

theorem border_refused {line : Text} (other : (line.dropWhile isSpace).head? ≠ some '@') : border line = none := by
  unfold border
  rw [alt_none]
  · rfl
  · intro parser member
    have refused : ∀ expected : String, expected.toList.head? = some '@' → pair space0 (word expected) line = none := by
      intro expected starts
      unfold pair
      simp only [space0,takeWhile,Option.bind_some,word_head starts other,Option.map_none]
    simp only [List.mem_cons,List.not_mem_nil,or_false] at member
    rcases member with rfl | rfl | rfl | rfl | rfl | rfl
    · exact map_none (refused "@if" rfl) _
    · exact map_none (refused "@ifdef" rfl) _
    · exact map_none (refused "@ifndef" rfl) _
    · exact map_none (refused "@elif" rfl) _
    · exact map_none (refused "@else" rfl) _
    · exact map_none (refused "@endif" rfl) _

theorem border_word {line rest : Text} {expected : String} {macroLine : MacroLine} (isWord : expected ∈ macroLine.words)
    (shape : line.dropWhile isSpace = expected.toList ++ rest) : border line = macroLine.border := by
  have starts : ∀ other : String, pair space0 (word other) line =
      (word other (expected.toList ++ rest)).map fun (value, left) => ((line.takeWhile isSpace, value), left) := by
    intro other
    unfold pair
    simp only [space0,takeWhile,Option.bind_some,shape]
  unfold border
  simp only [alt,map,starts]
  cases macroLine <;> simp only [MacroLine.words,List.mem_cons,List.not_mem_nil,or_false] at isWord
  case if_ cond => rcases isWord with rfl | rfl | rfl <;> rfl
  all_goals
    subst isWord
    rfl

theorem dropWhile_text (text : Text) {next : Text} (ends : Ends next) :
    (text ++ next).dropWhile isSpace = text.dropWhile isSpace ++ next := by
  rw [List.dropWhile_append]
  split
  · rename_i empty
    obtain ⟨c,more,rfl,isBreak⟩ := ends_head ends
    have notSpace : isSpace c = false := by rcases isBreak with rfl | rfl <;> rfl
    rw [List.isEmpty_iff.mp empty,List.nil_append,List.dropWhile_cons_of_neg (by simp [notSpace])]
  · rfl

theorem lexItem_at (rest : Text) : lexItem ('@' :: rest) = none := by
  have notAt : ∀ c, '@' ≠ c → ('@' :: rest).head? ≠ some c := by
    intro c different same
    exact different (Option.some.inj same)
  apply alt_none
  intro parser member
  simp only [List.mem_cons,List.not_mem_nil,or_false] at member
  rcases member with rfl | rfl
  · exact map_none (delimited_none (pair_none (word_head rfl (notAt '$' (by decide))) _) _ _) _
  · apply map_none
    apply alt_none
    intro parser member
    simp only [List.mem_cons,List.not_mem_nil,or_false] at member
    rcases member with rfl | rfl | rfl | rfl
    · rfl
    · apply alt_none
      intro parser member
      obtain ⟨operator,isOperator,rfl⟩ := List.mem_map.mp member
      apply map_none
      have known : ∀ operator ∈ operators, operator.1.toList.head?.any ('@' != ·) = true := by decide
      obtain ⟨c,starts,different⟩ := (Option.any_eq_true _ _).mp (known operator isOperator)
      exact word_head starts (notAt c (bne_iff_ne.mp different))
    · exact map_none (delimited_none (word_head rfl (notAt '"' (by decide))) _ _) _
    · rfl

end Directives

-- The first character after the spaces of a line of tokens is no `@`.
theorem lexes_head {text next : Text} {items : List LineItem} (lexes : Lexes text items) (ends : Ends next) :
    ((text ++ next).dropWhile isSpace).head? ≠ some '@' := by
  intro starts
  obtain ⟨rest,shape⟩ : ∃ rest, (text ++ next).dropWhile isSpace = '@' :: rest := by
    cases left : (text ++ next).dropWhile isSpace with
    | nil =>
      rw [left] at starts
      cases starts
    | cons first rest =>
      rw [left] at starts
      cases starts
      exact ⟨rest,rfl⟩
  have spaced : emptySpace0 (text ++ next) = some ((),'@' :: rest) := by
    have noComment : opt comment ('@' :: rest) = some (none,'@' :: rest) := opt_none rfl
    apply map_some
    apply @pair_some _ _ _ _ ((text ++ next).takeWhile isSpace) ('@' :: rest)
    · change some (_,(text ++ next).dropWhile isSpace) = _
      rw [shape]
    · exact noComment
  cases lexes with
  | done finished =>
    have same := spaced.symm.trans (finished next ends)
    cases same
    obtain ⟨c,more,isNext,isBreak⟩ := ends_head ends
    cases isNext
    rcases isBreak with isBreak | isBreak <;> cases isBreak
  | item read _ =>
    obtain ⟨spaced',isSpaced,_,_,found⟩ := read next ends
    have same := spaced.symm.trans isSpaced
    cases same
    rw [lexItem_at] at found
    cases found

namespace Line

def border : Line → Option IfBorders
  | .tokens _ => none
  | .directive macroLine _ => macroLine.border

end Line

theorem prefix_text {expected text next : Text} (unbroken : Unbroken expected) (ends : Ends next)
    (isPrefix : expected <+: text ++ next) : expected <+: text := by
  rcases Nat.lt_or_ge text.length expected.length with longer | shorter
  · obtain ⟨rest,rfl⟩ := List.prefix_of_prefix_length_le (List.prefix_append text next) isPrefix (Nat.le_of_lt longer)
    obtain ⟨c,more,rfl,isBreak⟩ := ends_head ends
    have later := (List.prefix_append_right_inj text).mp isPrefix
    cases rest with
    | nil =>
      rw [List.append_nil] at longer
      exact absurd longer (Nat.lt_irrefl _)
    | cons first rest =>
      obtain ⟨same,_⟩ := List.cons_prefix_cons.mp later
      rw [same] at unbroken
      have member : c ∈ text ++ c :: rest := List.mem_append_right _ (List.mem_cons_self ..)
      rcases isBreak with rfl | rfl
      · exact absurd member unbroken.1
      · exact absurd member unbroken.2
  · exact List.prefix_of_prefix_length_le isPrefix (List.prefix_append text next) shorter

theorem words_unbroken (macroLine : MacroLine) : ∀ expected ∈ macroLine.words, Unbroken expected.toList := by
  intro expected member
  cases macroLine <;> simp only [MacroLine.words,List.mem_cons,List.not_mem_nil,or_false] at member
  case if_ cond => rcases member with rfl | rfl | rfl <;> decide
  all_goals
    subst member
    decide

theorem border_line (line : Line) : Preprocessor.border line.text = line.border := by
  have ends := ends_chars .lf []
  cases line with
  | tokens line =>
    apply border_refused
    have head := lexes_head line.lexes ends
    rw [dropWhile_text line.text ends] at head
    change (line.text.dropWhile isSpace).head? ≠ _
    cases left : line.text.dropWhile isSpace with
    | nil => exact nofun
    | cons first rest =>
      rw [left] at head
      exact head
  | directive macroLine line =>
    obtain ⟨expected,isWord,isPrefix⟩ := parse_word (line.parses _ ends)
    rw [dropWhile_text line.text ends] at isPrefix
    obtain ⟨rest,shape⟩ := prefix_text (words_unbroken macroLine expected isWord) ends isPrefix
    exact border_word isWord shape.symm

theorem linesFrom_line {text : Text} (unbroken : '\n' ∉ text) (start more : Text) :
    ∀ line : Text, linesFrom start line (text ++ '\n' :: more) =
      (if (line ++ text).getLast? = some '\r' then (line ++ text).dropLast else line ++ text,start) ::
        linesFrom more [] more := by
  induction text with
  | nil =>
    intro line
    rw [List.append_nil]
    rfl
  | cons c rest ih =>
    intro line
    have notBreak : c ≠ '\n' := fun same => unbroken (same ▸ List.mem_cons_self ..)
    have later := ih (fun member => unbroken (List.mem_cons_of_mem _ member)) (line ++ [c])
    rw [List.append_assoc] at later
    rw [List.cons_append,linesFrom,if_neg notBreak]
    exact later

theorem lines_line {text : Text} (unbroken : Unbroken text) (ending : Ending) (more : Text) :
    lines (text ++ (ending.chars ++ more)) = (text,text ++ (ending.chars ++ more)) :: lines more := by
  unfold lines
  cases ending with
  | lf =>
    have split := linesFrom_line unbroken.1 (text ++ '\n' :: more) more []
    have notReturn : text.getLast? ≠ some '\r' := fun last => unbroken.2 (List.mem_of_getLast? last)
    rw [List.nil_append,if_neg notReturn] at split
    exact split
  | crlf =>
    have noBreak : '\n' ∉ text ++ ['\r'] := by
      intro member
      rcases List.mem_append.mp member with member | member
      · exact unbroken.1 member
      · cases List.mem_singleton.mp member
    have split := linesFrom_line noBreak (text ++ '\r' :: '\n' :: more) more []
    rw [List.nil_append,if_pos (List.getLast?_concat ..),List.dropLast_concat,List.append_assoc] at split
    exact split

-- The search over lines: the block it finds and the lines that start with it.
def findBlock (f : IfBorders → Bool) : Nat → List Line → Option (IfBorders × List Line)
  | _, [] => none
  | counter, line :: rest =>
    match line.border with
    | none => findBlock f counter rest
    | some found =>
      match counter, found with
      | counter, .if_ | counter, .ifDef | counter, .ifNDef => findBlock f (counter + 1) rest
      | counter + 1, .endIf => findBlock f counter rest
      | counter + 1, .ifElse | counter + 1, .else_ => findBlock f (counter + 1) rest
      | 0, block => if f block then some (block, line :: rest) else findBlock f 0 rest

theorem findIfBlock_lines (f : IfBorders → Bool) (ls : List Line) :
    ∀ counter, findIfBlock f counter (lines (chars ls)) =
      (findBlock f counter ls).map fun (block, rest) => (block, chars rest) := by
  induction ls with
  | nil =>
    intro counter
    cases counter <;> rfl
  | cons line rest ih =>
    intro counter
    have split : lines (chars (line :: rest)) = (line.text,chars (line :: rest)) :: lines (chars rest) := by
      rw [chars_cons]
      exact lines_line line.unbroken line.ending (chars rest)
    rw [split]
    unfold findIfBlock findBlock
    rw [border_line]
    cases line.border with
    | none => exact ih counter
    | some found =>
      cases counter with
      | zero =>
        cases found <;> simp only
        case ifElse => split <;> first | rfl | exact ih 0
        case else_ => split <;> first | rfl | exact ih 0
        case endIf => split <;> first | rfl | exact ih 0
        all_goals exact ih 1
      | succ counter => cases found <;> exact ih _

end Rsleigh.Preprocessor
