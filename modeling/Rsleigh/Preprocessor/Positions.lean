import Rsleigh.Preprocessor.Lines

namespace Rsleigh.Preprocessor

open Parsing Syntax

theorem lexes_nil : Lexes [] [] := by
  apply Lexes.done
  intro next ends
  obtain ⟨c,more,rfl,isBreak⟩ := ends_head ends
  rcases isBreak with rfl | rfl <;> rfl

-- Where a file stands: at its start, or in a line with some items left, and in front of some lines.
inductive At (file : DrainingFile) : List LineItem → List Line → Prop where
  | start {ls : List Line} : file.position = 0 → file.data = chars ls → At file [] ls
  | line {text : Text} {items : List LineItem} {ending : Ending} {ls : List Line} : Lexes text items →
      file.data = text ++ (ending.chars ++ chars ls) → At file items ls

-- At the end of a line, after its last directive.
def AtEnd (file : DrainingFile) (ls : List Line) : Prop :=
  ∃ ending : Ending, file.data = ending.chars ++ chars ls

theorem atEnd_at {file : DrainingFile} {ls : List Line} (atEnd : AtEnd file ls) : At file [] ls := by
  obtain ⟨ending,isData⟩ := atEnd
  exact At.line lexes_nil isData

namespace DrainingFile

-- A file that has consumed its data up to some rest of it.
def moved (file : DrainingFile) (rest : Text) : DrainingFile :=
  { file with data := rest, position := file.position + (file.data.length - rest.length) }

theorem nomIt_some {file : DrainingFile} {nom : TextParser α} {value : α} {rest : Text}
    (accepted : nom file.data = some (value,rest)) : file.nomIt nom = .ok (value,file.moved rest) := by
  unfold nomIt
  rw [accepted]
  rfl

theorem nomIt_none {file : DrainingFile} {nom : TextParser α} (refused : nom file.data = none) :
    file.nomIt nom = .error (.error .preprocessorToken) := by
  unfold nomIt
  rw [refused]

theorem parseMacroLine_some {file : DrainingFile} {macroLine : MacroLine} {rest : Text}
    (accepted : MacroLine.parse file.data = some (macroLine,rest)) :
    file.parseMacroLine = some (.macro_ macroLine,file.moved rest) := by
  unfold parseMacroLine
  rw [nomIt_some accepted]

theorem parseMacroLine_none {file : DrainingFile} (refused : MacroLine.parse file.data = none) :
    file.parseMacroLine = none := by
  unfold parseMacroLine
  rw [nomIt_none refused]

theorem parseBody_line {file : DrainingFile} (refused : MacroLine.parse file.data = none) (fuel : Nat) :
    file.parseBody fuel = parseBodyLoop fuel file := by
  unfold parseBody
  rw [parseMacroLine_none refused]
  split <;> rfl

theorem lexes_refused {text next : Text} {items : List LineItem} (lexes : Lexes text items) (ends : Ends next) :
    MacroLine.parse (text ++ next) = none :=
  macro_refused (lexes_head lexes ends)

-- The next item of a line.
theorem parseBody_item {file : DrainingFile} {item : LineItem} {items : List LineItem} {ls : List Line}
    (position : At file (item :: items) ls) :
    ∃ file', (∀ fuel, file.parseBody (fuel + 1) = .ok (item.body,file')) ∧ At file' items ls ∧
      file'.ifStack = file.ifStack := by
  cases position with
  | @line text _ ending _ lexes isData =>
    have ends := ends_chars ending (chars ls)
    have refused : MacroLine.parse file.data = none := by
      rw [isData]
      exact lexes_refused lexes ends
    cases lexes with
    | @item _ rest _ _ read later =>
      obtain ⟨spaced,isSpaced,noEnding,nonempty,found⟩ := read _ ends
      rw [← isData] at isSpaced
      have start := nomIt_some isSpaced
      have notEnding := @nomIt_none _ (file.moved spaced) _ noEnding
      have notEmpty : (file.moved spaced).data.isEmpty = false := by
        cases spaced with
        | nil => exact absurd rfl nonempty
        | cons c more => rfl
      refine ⟨(file.moved spaced).moved (rest ++ (ending.chars ++ chars ls)),?_,At.line later rfl,rfl⟩
      intro fuel
      rw [parseBody_line refused]
      simp only [parseBodyLoop,start,notEnding,notEmpty]
      unfold lexItem at found
      cases expanded : expansion spaced with
      | some result =>
        rcases result with ⟨name,left⟩
        rw [alt_first (map_some expanded _)] at found
        obtain ⟨isName,isLeft⟩ := Prod.mk.inj (Option.some.inj found)
        rw [@nomIt_some _ (file.moved spaced) _ _ _ expanded,← isName,isLeft]
        rfl
      | none =>
        rw [alt_skip (map_none expanded _)] at found
        rw [@nomIt_none _ (file.moved spaced) _ expanded]
        obtain ⟨parser,member,accepted⟩ := alt_some found
        rw [List.mem_singleton.mp member] at accepted
        obtain ⟨token,isToken,same⟩ := map_inv accepted
        rw [@nomIt_some _ (file.moved spaced) _ _ _ isToken,← same]
        rfl

theorem parseBodyLoop_break {file : DrainingFile} {text : Text} {ending : Ending} {ls : List Line}
    (lexes : Lexes text []) (isData : file.data = text ++ (ending.chars ++ chars ls)) :
    ∃ next : DrainingFile, (∀ fuel, file.parseBody (fuel + 1) =
        match next.parseMacroLine with
        | some body => .ok body
        | none => parseBodyLoop fuel next) ∧
      next.data = chars ls ∧ next.ifStack = file.ifStack := by
  have ends := ends_chars ending (chars ls)
  have refused : MacroLine.parse file.data = none := by
    rw [isData]
    exact lexes_refused lexes ends
  cases lexes with
  | done finished =>
    have spaced := finished _ ends
    rw [← isData] at spaced
    have ended : lineEnding (ending.chars ++ chars ls) = some ((),chars ls) := by cases ending <;> rfl
    refine ⟨(file.moved (ending.chars ++ chars ls)).moved (chars ls),?_,rfl,rfl⟩
    intro fuel
    rw [parseBody_line refused]
    simp only [parseBodyLoop,nomIt_some spaced]
    rw [@nomIt_some _ (file.moved _) _ _ _ ended] <;> rfl

theorem parseBody_directive {file : DrainingFile} {macroLine : MacroLine} {line : DirectiveLine macroLine}
    {ls : List Line} (position : At file [] (.directive macroLine line :: ls)) :
    ∃ file', (∀ fuel, file.parseBody (fuel + 1) = .ok (.macro_ macroLine,file')) ∧ AtEnd file' ls ∧
      file'.ifStack = file.ifStack := by
  have accepted := line.parses _ (ends_chars line.ending (chars ls))
  have shape : chars (.directive macroLine line :: ls) = line.text ++ (line.ending.chars ++ chars ls) :=
    chars_cons _ _
  rw [← shape] at accepted
  cases position with
  | start isStart isData =>
    rw [← isData] at accepted
    refine ⟨file.moved (line.ending.chars ++ chars ls),?_,⟨line.ending,rfl⟩,rfl⟩
    intro fuel
    unfold parseBody
    rw [if_pos isStart,parseMacroLine_some accepted]
  | line lexes isData =>
    obtain ⟨next,moved,isNext,sameStack⟩ := parseBodyLoop_break lexes isData
    rw [← isNext] at accepted
    refine ⟨next.moved (line.ending.chars ++ chars ls),?_,⟨line.ending,rfl⟩,sameStack⟩
    intro fuel
    rw [moved,parseMacroLine_some accepted]

theorem parseBody_tokens {file : DrainingFile} {line : TokenLine} {ls : List Line}
    (position : At file [] (.tokens line :: ls)) :
    ∃ file', At file' line.items ls ∧ file'.ifStack = file.ifStack ∧
      ((∀ fuel, file.parseBody fuel = file'.parseBody fuel) ∨ ∀ fuel, file.parseBody (fuel + 1) = file'.parseBody fuel) := by
  have shape : chars (.tokens line :: ls) = line.text ++ (line.ending.chars ++ chars ls) := chars_cons _ _
  cases position with
  | start isStart isData =>
    rw [shape] at isData
    exact ⟨file,At.line line.lexes isData,rfl,Or.inl fun _ => rfl⟩
  | line lexes isData =>
    obtain ⟨next,moved,isNext,sameStack⟩ := parseBodyLoop_break lexes isData
    rw [shape] at isNext
    have refused : MacroLine.parse next.data = none := by
      rw [isNext]
      exact lexes_refused line.lexes (ends_chars _ _)
    refine ⟨next,At.line line.lexes isNext,sameStack,Or.inr ?_⟩
    intro fuel
    rw [moved,parseMacroLine_none refused,parseBody_line refused]

theorem parseBody_end {file : DrainingFile} (position : At file [] []) :
    ∃ file', (∀ fuel, file.parseBody (fuel + 2) = .ok (.end_,file')) ∧ file'.ifStack = file.ifStack := by
  have ended : ∀ file : DrainingFile, file.data = [] →
      ∃ file', (∀ fuel, parseBodyLoop (fuel + 1) file = .ok (.end_,file')) ∧ file'.ifStack = file.ifStack := by
    intro file isData
    refine ⟨file.moved [],?_,rfl⟩
    intro fuel
    have spaced : emptySpace0 file.data = some ((),[]) := by
      rw [isData]
      rfl
    have noEnding : (file.moved []).nomIt lineEnding = .error (.error .preprocessorToken) := nomIt_none rfl
    simp only [parseBodyLoop,nomIt_some spaced,noEnding]
    rfl
  cases position with
  | start isStart isData =>
    obtain ⟨file',run,sameStack⟩ := ended file isData
    refine ⟨file',?_,sameStack⟩
    intro fuel
    have refused : MacroLine.parse file.data = none := by
      rw [isData]
      rfl
    rw [parseBody_line refused]
    exact run (fuel + 1)
  | line lexes isData =>
    obtain ⟨next,moved,isNext,sameStack⟩ := parseBodyLoop_break lexes isData
    obtain ⟨file',run,same⟩ := ended next isNext
    refine ⟨file',?_,same.trans sameStack⟩
    intro fuel
    have refused : MacroLine.parse next.data = none := by
      rw [isNext]
      rfl
    rw [moved,parseMacroLine_none refused]
    exact run fuel

end DrainingFile

end Rsleigh.Preprocessor
