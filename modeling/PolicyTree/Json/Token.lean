import PolicyTree.Text.Hex

namespace PolicyTree.Json

/-- A part of a string literal: a character, or a code unit written as a `\u` escape. -/
inductive Piece where
  | char (c : Char)
  | unit (n : Nat)
  deriving DecidableEq, Repr

structure NumberText where
  negative : Bool
  whole : List Nat
  fraction : Option (List Nat)
  /-- The sign of the exponent (true for a minus) and its digits. -/
  exponent : Option (Bool × List Nat)
  deriving DecidableEq, Repr

/-- Strings and numbers are kept as they are written: whether an escape pairs up or a number fits is
not a question of tokens, and skipped parts of a text are not asked. -/
inductive Token where
  | openBrace
  | closeBrace
  | openBracket
  | closeBracket
  | colon
  | comma
  | null
  | bool (b : Bool)
  | number (n : NumberText)
  | string (s : List Piece)
  deriving DecidableEq, Repr

def digit? (c : Char) : Option Nat :=
  if '0' ≤ c ∧ c ≤ '9' then some (c.toNat - '0'.toNat) else none

def spanDigits : List Char → List Nat × List Char
  | [] => ([], [])
  | c :: cs =>
    match digit? c with
    | some d => let (ds, rest) := spanDigits cs; (d :: ds, rest)
    | none => ([], c :: cs)

/-- An exponent part, the letter already read. -/
def exponent? (cs : List Char) : Option (Bool × List Nat) :=
  let (negative, cs) := match cs with
    | '+' :: rest => (false, rest)
    | '-' :: rest => (true, rest)
    | _ => (false, cs)
  match spanDigits cs with
  | ([], _) => none
  | (ds, []) => some (negative, ds)
  | _ => none

def isWhole : List Nat → Bool
  | [] => false
  | [_] => true
  | d :: _ => d != 0

/-- A number literal from its characters: no leading zeros, and digits on both sides of a point. -/
def NumberText.ofChars? (cs : List Char) : Option NumberText := do
  let (negative, cs) := match cs with
    | '-' :: rest => (true, rest)
    | _ => (false, cs)
  let (whole, cs) := spanDigits cs
  guard (isWhole whole)
  let (fraction, cs) ← match cs with
    | '.' :: rest =>
      match spanDigits rest with
      | ([], _) => none
      | (ds, rest) => some (some ds, rest)
    | _ => some (none, cs)
  match cs with
  | [] => some ⟨negative, whole, fraction, none⟩
  | c :: rest =>
    if c = 'e' ∨ c = 'E' then do
      let e ← exponent? rest
      return ⟨negative, whole, fraction, some e⟩
    else none

/-- Where a scan is: what has been read of the token at hand, latest character first. -/
inductive Scan where
  | between
  | number (read : List Char)
  | word (read : List Char)
  | string (read : List Piece)
  | escape (read : List Piece)
  | codeUnit (read : List Piece) (digits value : Nat)
  deriving DecidableEq, Repr

def isNumberChar (c : Char) : Bool :=
  (digit? c).isSome || c == '-' || c == '+' || c == '.' || c == 'e' || c == 'E'

def isWordChar (c : Char) : Bool :=
  'a' ≤ c && c ≤ 'z'

def word? (read : List Char) : Option Token :=
  match String.ofList read.reverse with
  | "true" => some (.bool true)
  | "false" => some (.bool false)
  | "null" => some .null
  | _ => none

def escaped? : Char → Option Char
  | '"' => some '"'
  | '\\' => some '\\'
  | '/' => some '/'
  | 'b' => some '\x08'
  | 'f' => some '\x0c'
  | 'n' => some '\n'
  | 'r' => some '\r'
  | 't' => some '\t'
  | _ => none

namespace Scan

/-- A character between tokens: what it completes, and where the scan is after it. -/
def start (c : Char) : Option (Option Token × Scan) :=
  match c with
  | ' ' | '\t' | '\n' | '\r' => some (none, between)
  | '\x7b' => some (some .openBrace, between)
  | '\x7d' => some (some .closeBrace, between)
  | '[' => some (some .openBracket, between)
  | ']' => some (some .closeBracket, between)
  | ':' => some (some .colon, between)
  | ',' => some (some .comma, between)
  | '"' => some (none, string [])
  | c =>
    if c = '-' ∨ (digit? c).isSome then some (none, number [c])
    else if isWordChar c then some (none, word [c])
    else none

def finish : Scan → Option (Option Token)
  | between => some none
  | number read => (NumberText.ofChars? read.reverse).map (some ∘ Token.number)
  | word read => (word? read).map some
  | _ => none

/-- Ends the token at hand, then starts with `c`. -/
def restart (tokens : List Token) (s : Scan) (c : Char) : Option (List Token × Scan) := do
  let ended ← s.finish
  let (own, next) ← start c
  return (own.toList ++ ended.toList ++ tokens, next)

/-- One character; the tokens come latest first. -/
def step (tokens : List Token) (s : Scan) (c : Char) : Option (List Token × Scan) :=
  match s with
  | between => s.restart tokens c
  | number read =>
    if isNumberChar c then some (tokens, number (c :: read)) else s.restart tokens c
  | word read =>
    if isWordChar c then some (tokens, word (c :: read)) else s.restart tokens c
  | string read =>
    if c = '"' then some (.string read.reverse :: tokens, between)
    else if c = '\\' then some (tokens, escape read)
    else if c < ' ' then none
    else some (tokens, string (.char c :: read))
  | escape read =>
    if c = 'u' then some (tokens, codeUnit read 0 0)
    else (escaped? c).map fun e => (tokens, string (.char e :: read))
  | codeUnit read digits value =>
    (Text.hexDigit? c).map fun d =>
      let value := 16 * value + d
      if digits = 3 then (tokens, string (.unit value :: read))
      else (tokens, codeUnit read (digits + 1) value)

end Scan

def tokens? (text : String) : Option (List Token) := do
  let (tokens, s) ← text.toList.foldlM (fun (tokens, s) c => Scan.step tokens s c) ([], .between)
  let ended ← s.finish
  return (ended.toList ++ tokens).reverse

end PolicyTree.Json
