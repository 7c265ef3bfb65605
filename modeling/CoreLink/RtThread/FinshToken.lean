/-
# `CoreLink.RtThread.FinshToken` — the tokens of a command line, `components/finsh/finsh_token.c`.

The tokenizer reads one character at a time, and puts back at most one. At the end of the line, which is a 0 or a line feed,
it sets a flag and goes back to position 0; from then on it reads a 0, and puts nothing back. Most of its loops read on while
a test holds of the character that has been read last (`FinshToken.scanLoop`). They have fuel, and nothing is said about a
write behind the end of a buffer: both are `none`.
-/
import Mathlib.Data.Nat.Bitwise
import Mathlib.Data.List.Basic

namespace CoreLink.RtThread

/-! ## Tokens -/

/-- `enum finsh_token_type`. -/
inductive FinshTokenType where
  | leftParen | rightParen | comma | semicolon | mul | add | inc | sub | dec | div | mod | assign
  | and | or | xor | bitwise | shl | shr | comments
  | void | char | short | int | long | unsigned
  | valueChar | valueInt | valueLong | valueString | valueNull
  | identifier | bad | eof
  deriving DecidableEq

/-- The errors of the shell, without `FINSH_ERROR_OK`. -/
inductive FinshError where
  | invalidToken | expectType | unknownType | variableExist | expectOperator | memoryFull | unknownOp | unknownNode
  | expectChar | unexpectEnd | unknownToken | noFloat | unknownSymbol | nullNode
  deriving DecidableEq

/-- `FINSH_STRING_MAX`. -/
def finshStringMax : ℕ := 128

/-- The length of `buf` in `token_proc_number`. -/
def numberBufMax : ℕ := 128

/-- `struct finsh_token`, without `replay`, and the error number. The members of `value` are apart here, since the parser
reads the one that the token has been stored in. -/
structure FinshToken where
  eof : Bool
  position : ℕ
  currentToken : FinshTokenType
  charValue : ℕ
  intValue : ℕ
  /-- the characters of `string` in front of the 0 that has been stored last -/
  string : List ℕ
  line : List Char
  error : Option FinshError

/-- `is_alpha`. -/
def isAlpha (ch : Char) : Bool := decide ('a' ≤ ch ∧ ch ≤ 'z' ∨ 'A' ≤ ch ∧ ch ≤ 'Z')

/-- `is_digit`. -/
def isDigit (ch : Char) : Bool := decide ('0' ≤ ch ∧ ch ≤ '9')

/-- `is_xdigit`. -/
def isXdigit (ch : Char) : Bool := decide ('0' ≤ ch ∧ ch ≤ '9' ∨ 'a' ≤ ch ∧ ch ≤ 'f' ∨ 'A' ≤ ch ∧ ch ≤ 'F')

/-- The test for an octal digit. -/
def isOctal (ch : Char) : Bool := decide ('0' ≤ ch ∧ ch ≤ '7')

/-- `is_separator`. -/
def isSeparator (ch : Char) : Bool := !(isAlpha ch || isDigit ch || ch == '_')

/-- `finsh_name_table`. -/
def finshNameTable : List (List Char × FinshTokenType) :=
  [("void".toList, .void), ("char".toList, .char), ("short".toList, .short), ("int".toList, .int), ("long".toList, .long),
    ("unsigned".toList, .unsigned), ("NULL".toList, .valueNull), ("null".toList, .valueNull)]

/-- A digit of any radix, as the functions compute it. -/
def digitValue (ch : Char) : ℕ :=
  if 'a' ≤ ch ∧ ch ≤ 'f' then ch.toNat - 'a'.toNat + 10
  else if 'A' ≤ ch ∧ ch ≤ 'F' then ch.toNat - 'A'.toNat + 10
  else ch.toNat - '0'.toNat

/-- One digit of `token_spec_number`: the two words are shifted, and the digit comes to the lowest bits. -/
def specDigit (shift : ℕ) (bn : ℕ × ℕ) (ch : Char) : ℕ × ℕ :=
  ((bn.1 <<< shift) % 2 ^ 32 ||| digitValue ch, (bn.2 <<< shift) % 2 ^ 32 ||| (bn.1 >>> (32 - shift)))

/-- `token_spec_number`, for 16, 8 and 2 as a number of bits. -/
def tokenSpecNumber (string : List Char) (shift : ℕ) : ℕ := (string.foldl (specDigit shift) (0, 0)).1

namespace FinshToken

/-- `finsh_token_init`. -/
def init (line : List Char) : FinshToken where
  eof := false
  position := 0
  currentToken := .bad
  charValue := 0
  intValue := 0
  string := []
  line := line
  error := none

/-! ## Characters -/

/-- `token_next_char`. -/
def tokenNextChar (s : FinshToken) : Char × FinshToken :=
  if s.eof then ('\x00', s)
  else
    match s.line[s.position]? with
    | none => ('\x00', { s with eof := true, position := 0 })
    | some ch =>
      if ch = '\x00' ∨ ch = '\n' then ('\x00', { s with eof := true, position := 0 })
      else (ch, { s with position := s.position + 1 })

/-- `token_prev_char`. -/
def tokenPrevChar (s : FinshToken) : FinshToken :=
  if s.eof then s else if s.position = 0 then s else { s with position := s.position - 1 }

/-- Reading on while the last character has the property. -/
def scanLoop {α : Type} (p : Char → Bool) (f : α → Char → α) : ℕ → α → Char → FinshToken → Option (α × Char × FinshToken)
  | 0, _, _, _ => none
  | fuel + 1, acc, ch, s =>
    if p ch then scanLoop p f fuel (f acc ch) s.tokenNextChar.1 s.tokenNextChar.2 else some (acc, ch, s)

/-- The fuel of a loop: there are no more characters than that. -/
def fuel (s : FinshToken) : ℕ := s.line.length + 2

/-- A loop that begins with the next character. -/
def scan {α : Type} (s : FinshToken) (p : Char → Bool) (f : α → Char → α) (acc : α) : Option (α × Char × FinshToken) :=
  scanLoop p f s.fuel acc s.tokenNextChar.1 s.tokenNextChar.2

/-- `token_trim_space`. -/
def tokenTrimSpace (s : FinshToken) : Option FinshToken :=
  (s.scan (fun ch => ch == ' ' || ch == '\t' || ch == '\r') (fun _ _ => ()) ()).map fun r => r.2.2.tokenPrevChar

/-- `token_get_string`, into `string`. -/
def tokenGetString (s : FinshToken) : Option FinshToken :=
  let (ch, s) := s.tokenNextChar
  if s.eof then some s
  else if isDigit ch then some { s.tokenPrevChar with string := [] }
  else
    (scanLoop (fun ch => !isSeparator ch) (fun str ch => str ++ [ch.toNat]) s.fuel [] ch s).bind fun r =>
      if finshStringMax ≤ r.1.length then none
      else some { tokenPrevChar { r.2.2 with eof := false } with string := r.1 }

/-! ## Numbers -/

/-- The end of `token_proc_number`. -/
def numberSuffix (ch : Char) (s : FinshToken) : FinshToken :=
  if ch = 'l' ∨ ch = 'L' then { s with currentToken := .valueLong } else s.tokenPrevChar

/-- The digits behind a radix: they are collected in `buf`, with a 0 behind them. -/
def radixNumber (s : FinshToken) (p : Char → Bool) (shift : ℕ) (ch : Char) : Option FinshToken :=
  (scanLoop p (fun buf ch => buf ++ [ch]) s.fuel [] ch s).bind fun r =>
    if numberBufMax ≤ r.1.length then none
    else some (numberSuffix r.2.1 { r.2.2 with intValue := tokenSpecNumber r.1 shift, currentToken := .valueInt })

/-- `token_proc_number`. -/
def tokenProcNumber (s : FinshToken) : Option FinshToken :=
  let (ch, s) := s.tokenNextChar
  if ch = '0' then
    let (ch, s) := s.tokenNextChar
    -- it's a hex number
    if ch = 'x' ∨ ch = 'X' then s.tokenNextChar.2.radixNumber (fun ch => isDigit ch || isAlpha ch) 4 s.tokenNextChar.1
    else if ch = 'b' ∨ ch = 'B' then s.tokenNextChar.2.radixNumber (fun ch => ch == '0' || ch == '1') 1 s.tokenNextChar.1
    else if isOctal ch then s.radixNumber isOctal 3 ch
    -- made as 0 value
    else some { s.tokenPrevChar with intValue := 0, currentToken := .valueInt }
  else
    (scanLoop isDigit (fun value ch => (value * 10 + (ch.toNat - '0'.toNat)) % 2 ^ 32) s.fuel 0 ch s).map fun r =>
      numberSuffix r.2.1 { r.2.2 with intValue := r.1, currentToken := .valueInt }

/-! ## Characters and strings -/

/-- The escapes of `token_proc_char` with a character of their own. -/
def charEscape : Char → Option ℕ
  | 'n' => some 10
  | 't' => some 9
  | 'v' => some 11
  | 'b' => some 8
  | 'r' => some 13
  | '\\' => some 92
  | '\'' => some 39
  | _ => none

/-- The end of `token_proc_char`. -/
def charEnd (value : ℕ) (s : FinshToken) : ℕ × FinshToken :=
  if s.tokenNextChar.1 ≠ '\'' then (value, { s.tokenNextChar.2.tokenPrevChar with error := some .expectChar })
  else (value, s.tokenNextChar.2)

/-- `token_proc_char`. -/
def tokenProcChar (s : FinshToken) : Option (ℕ × FinshToken) :=
  let (ch, s) := s.tokenNextChar
  if ch = '\\' then
    let (ch, s) := s.tokenNextChar
    match charEscape ch with
    | some value => some (charEnd value s)
    | none =>
      (scanLoop isDigit (fun n _ => n + 1) s.fuel 0 ch s).bind fun r =>
        -- four bytes of `buf`, with the 0; `atoi` gets `p`, which is behind the digits
        if 4 ≤ r.1 then none else some (charEnd 0 r.2.2.tokenPrevChar)
  else some (charEnd (ch.toNat % 256) s)

/-- The escapes of `token_proc_escape` with a character of their own. -/
def stringEscape : Char → Option ℕ
  | 'n' => some 10
  | 't' => some 9
  | 'v' => some 11
  | 'b' => some 8
  | 'r' => some 13
  | 'f' => some 12
  | 'a' => some 7
  | '"' => some 34
  | _ => none

/-- `token_proc_escape`. -/
def tokenProcEscape (s : FinshToken) : Option (ℕ × FinshToken) :=
  let (ch, s) := s.tokenNextChar
  match stringEscape ch with
  | some value => some (value, s)
  | none =>
    if ch = 'x' ∨ ch = 'X' then
      (s.scan isXdigit (fun result ch => (result * 16 + digitValue ch) % 2 ^ 32) 0).map fun r => (r.1, r.2.2.tokenPrevChar)
    else if isOctal ch then
      (scanLoop isOctal (fun result ch => (result * 8 + (ch.toNat - '0'.toNat)) % 2 ^ 32) s.fuel 0 ch s).map fun r =>
        (r.1, r.2.2.tokenPrevChar)
    else some (0, s)

/-- The loop of `token_proc_string`, with the characters that it has stored. -/
def stringLoop : ℕ → List ℕ → FinshToken → Option FinshToken
  | 0, _, _ => none
  | fuel + 1, string, s =>
    if finshStringMax ≤ string.length then some { s with string := string }
    else
      let (ch, s) := s.tokenNextChar
      if s.eof then some { s with string := string, error := some .unexpectEnd }
      else if ch = '\\' then s.tokenProcEscape.bind fun r => stringLoop fuel (string ++ [r.1 % 256]) r.2
      -- end of string
      else if ch = '"' then some { s with string := string }
      else stringLoop fuel (string ++ [ch.toNat % 256]) s

/-- `token_proc_string`. -/
def tokenProcString (s : FinshToken) : Option FinshToken := stringLoop (finshStringMax + 1) [] s

/-! ## A token -/

def setToken (s : FinshToken) (type : FinshTokenType) : FinshToken := { s with currentToken := type }

/-- An operator of two equal characters, or of one. -/
def twice (s : FinshToken) (ch : Char) (double single : FinshTokenType) : FinshToken :=
  if s.tokenNextChar.1 = ch then s.tokenNextChar.2.setToken double else s.tokenNextChar.2.tokenPrevChar.setToken single

/-- The operators of one character. -/
def operator : Char → Option FinshTokenType
  | '(' => some .leftParen
  | ')' => some .rightParen
  | ',' => some .comma
  | ';' => some .semicolon
  | '&' => some .and
  | '*' => some .mul
  | '|' => some .or
  | '%' => some .mod
  | '~' => some .bitwise
  | '^' => some .xor
  | '=' => some .assign
  | _ => none

/-- The `switch` of `token_run`. -/
def runOperator (s : FinshToken) : Option FinshToken :=
  let (ch, s) := s.tokenNextChar
  match operator ch with
  | some type => some (s.setToken type)
  | none =>
    if ch = '+' then some (s.twice '+' .inc .add)
    else if ch = '-' then some (s.twice '-' .dec .sub)
    -- line comments, set to end of file
    else if ch = '/' then some (s.twice '/' .eof .div)
    else if ch = '<' then some (s.twice '<' .shl .bad)
    else if ch = '>' then some (s.twice '>' .shr .bad)
    else if ch = '\'' then s.tokenProcChar.map fun r => { r.2 with charValue := r.1, currentToken := .valueChar }
    else if ch = '"' then s.tokenProcString.map fun s => s.setToken .valueString
    else if isDigit ch then s.tokenPrevChar.tokenProcNumber
    else some { s with error := some .unknownToken, currentToken := .bad }

/-- `token_run`. -/
def tokenRun (s : FinshToken) : Option FinshToken :=
  s.tokenTrimSpace.bind fun s => s.tokenGetString.bind fun s =>
    if s.eof then some (s.setToken .eof)
    else if s.string ≠ [] then
      match finshNameTable.find? fun entry => entry.1.map Char.toNat = s.string with
      | some entry => some (s.setToken entry.2)
      | none => some (s.setToken .identifier)
    else s.runOperator

end FinshToken

end CoreLink.RtThread
