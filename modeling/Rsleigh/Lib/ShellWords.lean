import Mathlib.Data.List.Basic

namespace Rsleigh.ShellWords

-- A character of a word. Where it is active the shell may give it a meaning.
structure Letter where
  char : Char
  active : Bool
  deriving DecidableEq

inductive Token where
  | word (letters : List Letter)
  | control (char : Char)
  deriving DecidableEq

def flush (word : Option (List Letter)) (tokens : List Token) : List Token :=
  match word with
  | some letters => .word letters :: tokens
  | none => tokens

def isBlank (c : Char) : Bool := c = ' ' || c = '\t'

-- A word without active characters that have a meaning.
def plainWord (special : List Char) : Token → Option String
  | .word letters =>
    if letters.all fun letter => !letter.active || !special.contains letter.char then
      some (String.ofList (letters.map Letter.char))
    else none
  | .control _ => none

-- The words of a text that consists of these, and in which nothing is expanded.
def plainWords (special : List Char) (tokens : List Token) : Option (List String) :=
  tokens.mapM (plainWord special)

-- A shell splits a text into tokens, and separates words by blanks.
structure Shell where
  tokens : List Char → Option (List Token)
  special : List Char
  ended : tokens [] = some []
  blank : ∀ rest, tokens (' ' :: rest) = tokens rest

def Shell.words (shell : Shell) (text : List Char) : Option (List String) :=
  (shell.tokens text).bind (plainWords shell.special)

-- A text that the shell reads as one word, whatever comes after a blank.
def Shell.Reads (shell : Shell) (text : List Char) (letters : List Letter) : Prop :=
  ∀ rest, (∀ c ∈ rest.head?, c = ' ') → shell.tokens (text ++ rest) = (shell.tokens rest).map (.word letters :: ·)

-- A text that stands for a word in which nothing is expanded.
def Shell.Renders (shell : Shell) (text : List Char) (word : String) : Prop :=
  ∃ letters, shell.Reads text letters ∧ plainWord shell.special (.word letters) = some word

def spaced (texts : List (List Char)) : List Char := texts.flatMap fun text => ' ' :: text

theorem spaced_head (texts : List (List Char)) : ∀ c ∈ (spaced texts).head?, c = ' ' := by
  intro c isHead
  cases texts with
  | nil => cases isHead
  | cons text rest => exact (Option.some.inj isHead).symm

theorem plainWords_cons (special : List Char) (token : Token) (tokens : List Token) :
    plainWords special (token :: tokens) =
      (plainWord special token).bind fun word => (plainWords special tokens).map (word :: ·) := by
  unfold plainWords
  rw [List.mapM_cons]
  cases plainWord special token with
  | none => rfl
  | some word => cases tokens.mapM (plainWord special) <;> rfl

theorem words_cons {shell : Shell} {text rest : List Char} {word : String} (renders : shell.Renders text word)
    (blank : ∀ c ∈ rest.head?, c = ' ') : shell.words (text ++ rest) = (shell.words rest).map (word :: ·) := by
  obtain ⟨letters,reads,plain⟩ := renders
  unfold Shell.words
  rw [reads rest blank]
  cases shell.tokens rest with
  | none => rfl
  | some tokens =>
    rw [Option.map_some,Option.bind_some,Option.bind_some,plainWords_cons,plain]
    rfl

theorem words_spaced {shell : Shell} {render : String → List Char} (renders : ∀ word, shell.Renders (render word) word)
    (words : List String) : shell.words (spaced (words.map render)) = some words := by
  induction words with
  | nil => simp [Shell.words,spaced,shell.ended,plainWords]
  | cons word rest ih =>
    have split : spaced ((word :: rest).map render) = ' ' :: (render word ++ spaced (rest.map render)) := rfl
    have skip : shell.words (' ' :: (render word ++ spaced (rest.map render))) =
        shell.words (render word ++ spaced (rest.map render)) := by
      unfold Shell.words
      rw [shell.blank]
    rw [split,skip,words_cons (renders word) (spaced_head _),ih]
    rfl

theorem words_command {shell : Shell} {command : List Char} {name : String} {render : String → List Char}
    (isCommand : shell.Renders command name) (renders : ∀ word, shell.Renders (render word) word) (words : List String) :
    shell.words (command ++ spaced (words.map render)) = some (name :: words) := by
  rw [words_cons isCommand (spaced_head _),words_spaced renders]
  rfl

def quotedLetters (text : List Char) : List Letter := text.map fun c => ⟨c, false⟩

def bareLetters (text : List Char) : List Letter := text.map fun c => ⟨c, true⟩

theorem plainWord_quoted (special : List Char) (word : String) :
    plainWord special (.word (quotedLetters word.toList)) = some word := by
  simp [plainWord,quotedLetters,Function.comp_def]

theorem plainWord_bare {special : List Char} {word : String} (plain : ∀ c ∈ word.toList, c ∉ special) :
    plainWord special (.word (bareLetters word.toList)) = some word := by
  have allPlain : (bareLetters word.toList).all (fun letter => !letter.active || !special.contains letter.char) = true := by
    simp only [bareLetters,List.all_map,List.all_eq_true]
    intro c isChar
    simpa using plain c isChar
  rw [plainWord,if_pos allPlain]
  simp [bareLetters,Function.comp_def]

-- A character without a meaning in any place of a word.
def isPlain (c : Char) : Bool := c.isAlphanum || c = '-'

theorem isPlain_ne {c : Char} (plain : isPlain c = true) (d : Char) (notPlain : isPlain d = false) : c ≠ d := by
  rintro rfl
  rw [plain] at notPlain
  cases notPlain

theorem isPlain_notMem {c : Char} (plain : isPlain c = true) (others : List Char)
    (notPlain : others.all (fun d => !isPlain d) = true) : c ∉ others := by
  intro member
  have notC := List.all_eq_true.mp notPlain c member
  rw [plain] at notC
  cases notC

namespace Posix

inductive Mode where
  | bare (word : Option (List Letter))
  | single (word : Option (List Letter)) (quoted : List Letter)
  | double (word : Option (List Letter)) (quoted : List Letter)
  | escaped (word : Option (List Letter))
  | doubleEscaped (word : Option (List Letter)) (quoted : List Letter)
  | comment

def isOperator (c : Char) : Bool := ['|','&',';','<','>','(',')','\n'].contains c

def special : List Char := ['$','`','*','?','[',']','~','{','}','!','=','%','#','^']

-- Quoting as in the POSIX shell: a word may have quoted and other parts.
def tokens : Mode → List Char → Option (List Token)
  | .bare word, [] => some (flush word [])
  | .comment, [] => some []
  | .single _ _, [] | .double _ _, [] | .escaped _, [] | .doubleEscaped _ _, [] => none
  | .bare word, c :: rest =>
    if c = '\'' then tokens (.single word []) rest
    else if c = '"' then tokens (.double word []) rest
    else if c = '\\' then tokens (.escaped word) rest
    else if isBlank c then (tokens (.bare none) rest).map (flush word)
    else if isOperator c then (tokens (.bare none) rest).map fun tokens => flush word (.control c :: tokens)
    else if c = '#' ∧ word = none then tokens .comment rest
    else tokens (.bare (some (word.getD [] ++ [⟨c, true⟩]))) rest
  | .single word quoted, c :: rest =>
    if c = '\'' then tokens (.bare (some (word.getD [] ++ quoted))) rest
    else tokens (.single word (quoted ++ [⟨c, false⟩])) rest
  | .double word quoted, c :: rest =>
    if c = '"' then tokens (.bare (some (word.getD [] ++ quoted))) rest
    else if c = '\\' then tokens (.doubleEscaped word quoted) rest
    else tokens (.double word (quoted ++ [⟨c, ['$','`'].contains c⟩])) rest
  | .escaped word, c :: rest =>
    if c = '\n' then tokens (.bare word) rest
    else tokens (.bare (some (word.getD [] ++ [⟨c, false⟩]))) rest
  | .doubleEscaped word quoted, c :: rest =>
    if c = '\n' then tokens (.double word quoted) rest
    else if ['$','`','"','\\'].contains c then tokens (.double word (quoted ++ [⟨c, false⟩])) rest
    else tokens (.double word (quoted ++ [⟨'\\', false⟩,⟨c, false⟩])) rest
  | .comment, c :: rest =>
    if c = '\n' then (tokens (.bare none) rest).map fun tokens => .control c :: tokens else tokens .comment rest

theorem tokens_blank (word : Option (List Letter)) (rest : List Char) :
    tokens (.bare word) (' ' :: rest) = (tokens (.bare none) rest).map (flush word) := by
  simp [tokens,isBlank]

def shell : Shell where
  tokens := tokens (.bare none)
  special := special
  ended := rfl
  blank := by
    intro rest
    rw [tokens_blank]
    cases tokens (.bare none) rest <;> rfl

theorem tokens_end {letters : List Letter} {rest : List Char} (blank : ∀ c ∈ rest.head?, c = ' ') :
    tokens (.bare (some letters)) rest = (tokens (.bare none) rest).map (.word letters :: ·) := by
  cases rest with
  | nil => rfl
  | cons c rest =>
    rw [blank c rfl,tokens_blank,tokens_blank]
    cases tokens (.bare none) rest <;> rfl

theorem tokens_plain {c : Char} (plain : isPlain c = true) (word : Option (List Letter)) (rest : List Char) :
    tokens (.bare word) (c :: rest) = tokens (.bare (some (word.getD [] ++ [⟨c, true⟩]))) rest := by
  have notBlank : isBlank c = false := by
    simp [isBlank,isPlain_ne plain ' ' rfl,isPlain_ne plain '\t' rfl]
  have notOperator : isOperator c = false := by
    simpa [isOperator] using isPlain_notMem plain ['|','&',';','<','>','(',')','\n'] rfl
  simp [tokens,notBlank,notOperator,isPlain_ne plain '\'' rfl,isPlain_ne plain '"' rfl,
    isPlain_ne plain '\\' rfl,isPlain_ne plain '#' rfl]

theorem tokens_bare {text : List Char} (plain : ∀ c ∈ text, isPlain c = true) (letters : List Letter) (rest : List Char) :
    tokens (.bare (some letters)) (text ++ rest) = tokens (.bare (some (letters ++ bareLetters text))) rest := by
  induction text generalizing letters with
  | nil => simp [bareLetters]
  | cons c text ih =>
    have later := ih fun d member => plain d (List.mem_cons_of_mem _ member)
    rw [List.cons_append,tokens_plain (plain c List.mem_cons_self),Option.getD_some,later]
    simp [bareLetters]

theorem reads_bare {text : List Char} (nonempty : text ≠ []) (plain : ∀ c ∈ text, isPlain c = true) :
    shell.Reads text (bareLetters text) := by
  intro rest blank
  obtain ⟨c,text,rfl⟩ := List.exists_cons_of_ne_nil nonempty
  have later := tokens_bare (fun d member => plain d (List.mem_cons_of_mem _ member)) [⟨c, true⟩] rest
  calc tokens (.bare none) (c :: (text ++ rest))
      = tokens (.bare (some [⟨c, true⟩])) (text ++ rest) := tokens_plain (plain c List.mem_cons_self) none _
    _ = tokens (.bare (some (bareLetters (c :: text)))) rest := later
    _ = _ := tokens_end blank

-- The text between single quotes, where a quote closes them, is escaped, and opens them again.
def quoteChar (c : Char) : List Char := if c = '\'' then ['\'','\\','\'','\''] else [c]

theorem tokens_quoteChar (letters : List Letter) (word : Option (List Letter)) (c : Char) (rest : List Char) :
    ∃ word' quoted', tokens (.single word letters) (quoteChar c ++ rest) = tokens (.single word' quoted') rest ∧
      word'.getD [] ++ quoted' = word.getD [] ++ letters ++ [⟨c, false⟩] := by
  by_cases isQuote : c = '\''
  · subst isQuote
    refine ⟨some (word.getD [] ++ letters ++ [⟨'\'', false⟩]),[],?_,List.append_nil _⟩
    simp [quoteChar,tokens]
  · refine ⟨word,letters ++ [⟨c, false⟩],?_,(List.append_assoc _ _ _).symm⟩
    simp [quoteChar,tokens,isQuote]

theorem tokens_quoted (text : List Char) (letters : List Letter) (word : Option (List Letter)) (rest : List Char) :
    tokens (.single word letters) (text.flatMap quoteChar ++ '\'' :: rest) =
      tokens (.bare (some (word.getD [] ++ letters ++ quotedLetters text))) rest := by
  induction text generalizing letters word with
  | nil => simp [quotedLetters,tokens]
  | cons c text ih =>
    obtain ⟨word',quoted',same,sameLetters⟩ := tokens_quoteChar letters word c (text.flatMap quoteChar ++ '\'' :: rest)
    rw [List.flatMap_cons,List.append_assoc,same,ih,sameLetters]
    simp [quotedLetters]

theorem reads_quoted (text : List Char) : shell.Reads ('\'' :: text.flatMap quoteChar ++ ['\'']) (quotedLetters text) := by
  intro rest blank
  have opened : shell.tokens ('\'' :: text.flatMap quoteChar ++ ['\''] ++ rest) =
      tokens (.single none []) (text.flatMap quoteChar ++ '\'' :: rest) := by
    simp [shell,tokens]
  rw [opened,tokens_quoted]
  exact tokens_end blank

end Posix

namespace PowerShell

inductive Mode where
  | bare (word : Option (List Letter))
  | single (word : Option (List Letter)) (quoted : List Letter)
  | double (word : Option (List Letter)) (quoted : List Letter)
  | comment

def isQuote (c : Char) : Bool := ['\'','\u2018','\u2019','\u201A','\u201B'].contains c

def isDoubleQuote (c : Char) : Bool := ['"','\u201C','\u201D','\u201E'].contains c

def isOperator (c : Char) : Bool := ['|','&',';','<','>','(',')','{','}',',','\n','\r'].contains c

def special : List Char := ['$','`','@','*','?','[',']','~','%','!','=','#']

-- A quoted string at the start of a word is this word; a later one is a part of it.
def close (next : Mode → Option (List Token)) (word : Option (List Letter)) (quoted : List Letter) : Option (List Token) :=
  match word with
  | some letters => next (.bare (some (letters ++ quoted)))
  | none => (next (.bare none)).map (.word quoted :: ·)

-- Quoting as in PowerShell: any quote of a kind opens and closes, and two of them in a row stand for the second. The
-- escapes of a string with double quotes stay active.
def tokens : Mode → List Char → Option (List Token)
  | .bare word, [] => some (flush word [])
  | .comment, [] => some []
  | .single _ _, [] | .double _ _, [] => none
  | .bare word, c :: rest =>
    if isQuote c then tokens (.single word []) rest
    else if isDoubleQuote c then tokens (.double word []) rest
    else if isBlank c then (tokens (.bare none) rest).map (flush word)
    else if isOperator c then (tokens (.bare none) rest).map fun tokens => flush word (.control c :: tokens)
    else if c = '#' ∧ word = none then tokens .comment rest
    else tokens (.bare (some (word.getD [] ++ [⟨c, true⟩]))) rest
  | .single word quoted, [c] =>
    if isQuote c then close (fun mode => tokens mode []) word quoted else none
  | .single word quoted, c :: d :: rest =>
    if isQuote c then
      if isQuote d then tokens (.single word (quoted ++ [⟨d, false⟩])) rest
      else close (fun mode => tokens mode (d :: rest)) word quoted
    else tokens (.single word (quoted ++ [⟨c, false⟩])) (d :: rest)
  | .double word quoted, [c] =>
    if isDoubleQuote c then close (fun mode => tokens mode []) word quoted else none
  | .double word quoted, c :: d :: rest =>
    if isDoubleQuote c then
      if isDoubleQuote d then tokens (.double word (quoted ++ [⟨d, false⟩])) rest
      else close (fun mode => tokens mode (d :: rest)) word quoted
    else tokens (.double word (quoted ++ [⟨c, ['$','`'].contains c⟩])) (d :: rest)
  | .comment, c :: rest =>
    if c = '\n' then (tokens (.bare none) rest).map fun tokens => .control c :: tokens else tokens .comment rest

theorem tokens_blank (word : Option (List Letter)) (rest : List Char) :
    tokens (.bare word) (' ' :: rest) = (tokens (.bare none) rest).map (flush word) := by
  simp [tokens,isBlank,isQuote,isDoubleQuote]

def shell : Shell where
  tokens := tokens (.bare none)
  special := special
  ended := by simp [tokens,flush]
  blank := by
    intro rest
    rw [tokens_blank]
    cases tokens (.bare none) rest <;> rfl

theorem tokens_end {letters : List Letter} {rest : List Char} (blank : ∀ c ∈ rest.head?, c = ' ') :
    tokens (.bare (some letters)) rest = (tokens (.bare none) rest).map (.word letters :: ·) := by
  cases rest with
  | nil => simp [tokens,flush]
  | cons c rest =>
    rw [blank c rfl,tokens_blank,tokens_blank]
    cases tokens (.bare none) rest <;> rfl

theorem tokens_plain {c : Char} (plain : isPlain c = true) (word : Option (List Letter)) (rest : List Char) :
    tokens (.bare word) (c :: rest) = tokens (.bare (some (word.getD [] ++ [⟨c, true⟩]))) rest := by
  have notQuote : isQuote c = false := by
    simpa [isQuote] using isPlain_notMem plain ['\'','\u2018','\u2019','\u201A','\u201B'] (by decide)
  have notDouble : isDoubleQuote c = false := by
    simpa [isDoubleQuote] using isPlain_notMem plain ['"','\u201C','\u201D','\u201E'] (by decide)
  have notBlank : isBlank c = false := by
    simp [isBlank,isPlain_ne plain ' ' rfl,isPlain_ne plain '\t' rfl]
  have notOperator : isOperator c = false := by
    simpa [isOperator] using isPlain_notMem plain ['|','&',';','<','>','(',')','{','}',',','\n','\r'] rfl
  simp [tokens,notQuote,notDouble,notBlank,notOperator,isPlain_ne plain '#' rfl]

theorem tokens_bare {text : List Char} (plain : ∀ c ∈ text, isPlain c = true) (letters : List Letter) (rest : List Char) :
    tokens (.bare (some letters)) (text ++ rest) = tokens (.bare (some (letters ++ bareLetters text))) rest := by
  induction text generalizing letters with
  | nil => simp [bareLetters]
  | cons c text ih =>
    have later := ih fun d member => plain d (List.mem_cons_of_mem _ member)
    rw [List.cons_append,tokens_plain (plain c List.mem_cons_self),Option.getD_some,later]
    simp [bareLetters]

theorem reads_bare {text : List Char} (nonempty : text ≠ []) (plain : ∀ c ∈ text, isPlain c = true) :
    shell.Reads text (bareLetters text) := by
  intro rest blank
  obtain ⟨c,text,rfl⟩ := List.exists_cons_of_ne_nil nonempty
  have later := tokens_bare (fun d member => plain d (List.mem_cons_of_mem _ member)) [⟨c, true⟩] rest
  calc tokens (.bare none) (c :: (text ++ rest))
      = tokens (.bare (some [⟨c, true⟩])) (text ++ rest) := tokens_plain (plain c List.mem_cons_self) none _
    _ = tokens (.bare (some (bareLetters (c :: text)))) rest := later
    _ = _ := tokens_end blank

-- Each quote is written twice.
def quoteChar (c : Char) : List Char := if isQuote c then [c,c] else [c]

theorem tokens_quoteChar (word : Option (List Letter)) (quoted : List Letter) (c d : Char) (rest : List Char) :
    tokens (.single word quoted) (quoteChar c ++ d :: rest) = tokens (.single word (quoted ++ [⟨c, false⟩])) (d :: rest) := by
  by_cases quote : isQuote c = true <;> simp [quoteChar,tokens,quote]

theorem tokens_quoted (text : List Char) (quoted : List Letter) {rest : List Char} (blank : ∀ c ∈ rest.head?, c = ' ') :
    tokens (.single none quoted) (text.flatMap quoteChar ++ '\'' :: rest) =
      (tokens (.bare none) rest).map (.word (quoted ++ quotedLetters text) :: ·) := by
  induction text generalizing quoted with
  | nil =>
    have isQuoteMark : isQuote '\'' = true := rfl
    cases rest with
    | nil => simp [tokens,isQuoteMark,close,quotedLetters]
    | cons c rest =>
      have notQuote : isQuote c = false := by
        rw [blank c rfl]
        rfl
      simp [tokens,isQuoteMark,notQuote,close,quotedLetters]
  | cons c text ih =>
    obtain ⟨d,more,isMore⟩ : ∃ d more, text.flatMap quoteChar ++ '\'' :: rest = d :: more :=
      List.exists_cons_of_ne_nil (by simp)
    have step := tokens_quoteChar none quoted c d more
    rw [← isMore] at step
    rw [List.flatMap_cons,List.append_assoc,step,ih]
    simp [quotedLetters]

theorem reads_quoted (text : List Char) : shell.Reads ('\'' :: text.flatMap quoteChar ++ ['\'']) (quotedLetters text) := by
  intro rest blank
  have opened : shell.tokens ('\'' :: text.flatMap quoteChar ++ ['\''] ++ rest) =
      tokens (.single none []) (text.flatMap quoteChar ++ '\'' :: rest) := by
    simp [shell,tokens,isQuote]
  rw [opened,tokens_quoted text [] blank]
  rfl

end PowerShell

end Rsleigh.ShellWords
