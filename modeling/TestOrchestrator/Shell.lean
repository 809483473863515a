import TestOrchestrator.Text.Utf8
/-!
# Shell scripts

The part of the shell language that test programs are written in: lists of simple commands.

* `Shell.Word` is a word with its quotes taken off and its expansions still to be made.
* `Shell.Simple` is a simple command, where its output goes, and whether it is run at all after the
  command before it.
* `Shell.parse` reads the commands of a script.
-/

namespace TestOrchestrator.Shell

/-! ## Words -/

/-- A part of a word. Text and results inside quotes are not split at blanks. -/
inductive Piece where
  | text (quoted : Bool) (cs : List Char)
  | parameter (quoted : Bool) (name : List Char)
  /-- The output of a script. -/
  | output (quoted : Bool) (script : List Char)

/-- A word before its expansions are made. -/
abbrev Word := List Piece

/-- Adds a character to the text at the end of the pieces, which are in reverse order. -/
def addChar (quoted : Bool) (c : Char) : List Piece → List Piece
  | .text q cs :: ps => if q = quoted then .text q (cs ++ [c]) :: ps else .text quoted
      [c] :: .text q cs :: ps
  | ps => .text quoted [c] :: ps

/-- The characters of the names of variables. -/
def isNameChar (c : Char) : Bool := c.isAlphanum || c = '_'

/-- The text up to the parenthesis that closes the one before it, and what follows. -/
def untilClosed : Nat → List Char → List Char × List Char
  | _, [] => ([], [])
  | depth, c :: cs =>
    if c = ')' then
      match depth with
      | 0 => ([], cs)
      | depth + 1 => let (inner, rest) := untilClosed depth cs; (c :: inner, rest)
    else
      let (inner, rest) := untilClosed (if c = '(' then depth + 1 else depth) cs
      (c :: inner, rest)

/-- The expansion behind a dollar sign, if there is one, and what follows. -/
def expansion? (quoted : Bool) : List Char → Option (Piece × List Char)
  | '(' :: cs => let (script, rest) := untilClosed 0 cs; some (.output quoted script, rest)
  | '\x7b' :: cs =>
    let name := cs.takeWhile (· ≠ '\x7d')
    some (.parameter quoted name, cs.drop (name.length + 1))
  | c :: cs =>
    if ['@', '*', '#', '?', '$'].contains c || c.isDigit then some (.parameter quoted [c], cs)
    else
      let name := (c :: cs).takeWhile isNameChar
      if name = [] then none else some (.parameter quoted name, (c :: cs).drop name.length)
  | [] => none

/-- Reads text between double quotes. -/
def doubleQuoted : Nat → List Piece → List Char → List Piece × List Char
  | 0, ps, cs => (ps, cs)
  | _, ps, [] => (ps, [])
  | fuel + 1, ps, c :: cs =>
    if c = '"' then (ps, cs)
    else if c = '\\' then
      match cs with
      | '\n' :: cs => doubleQuoted fuel ps cs
      | d :: cs =>
        if ['$', '\x60', '"', '\\'].contains d then doubleQuoted fuel (addChar true d ps) cs
        else doubleQuoted fuel (addChar true d (addChar true c ps)) cs
      | [] => (addChar true c ps, [])
    else if c = '$' then
      match expansion? true cs with
      | some (p, rest) => doubleQuoted fuel (p :: ps) rest
      | none => doubleQuoted fuel (addChar true c ps) cs
    else doubleQuoted fuel (addChar true c ps) cs

/-- The characters that end a word. -/
def endsWord (c : Char) : Bool := [' ', '\t', '\n', ';', '&', '|', '<', '>', '(', ')'].contains c

/-- Reads a word. -/
def word : Nat → List Piece → List Char → Word × List Char
  | 0, ps, cs => (ps.reverse, cs)
  | _, ps, [] => (ps.reverse, [])
  | fuel + 1, ps, c :: cs =>
    if endsWord c then (ps.reverse, c :: cs)
    else if c = '\\' then
      match cs with
      | '\n' :: cs => word fuel ps cs
      | d :: cs => word fuel (addChar true d ps) cs
      | [] => word fuel (addChar true c ps) []
    else if c = '\'' then
      let inner := cs.takeWhile (· ≠ '\'')
      word fuel (.text true inner :: ps) (cs.drop (inner.length + 1))
    else if c = '"' then
      match cs with
      | '"' :: cs => word fuel (.text true [] :: ps) cs
      | cs =>
        let (ps, rest) := doubleQuoted (cs.length + 1) ps cs
        word fuel ps rest
    else if c = '$' then
      match expansion? false cs with
      | some (p, rest) => word fuel (p :: ps) rest
      | none => word fuel (addChar false c ps) cs
    else word fuel (addChar false c ps) cs

/-! ## Commands -/

/-- Where output goes. -/
inductive Sink where
  | out
  | err
  | nowhere
  deriving DecidableEq

/-- When a command is run. -/
inductive Condition where
  | always
  /-- Only if the command before it succeeded. -/
  | success
  /-- Only if the command before it failed. -/
  | failure
  deriving DecidableEq

/-- A simple command. -/
structure Simple where
  line : Nat
  condition : Condition := .always
  words : List Word := []
  /-- Where the standard output goes. -/
  out : Sink := .out
  /-- Where the error output goes. -/
  err : Sink := .err

/-- A redirection of the standard output, or of the error output. -/
def Simple.redirect (s : Simple) (error : Bool) (target : List Char) : Simple :=
  let sink :=
    match target with
    | ['&', '1'] => s.out
    | ['&', '2'] => s.err
    | _ => .nowhere
  if error then { s with err := sink } else { s with out := sink }

/-- Reads a redirection if one stands here. -/
def redirection? (cs : List Char) : Option (Bool × List Char × List Char) :=
  let (error, cs) :=
    match cs with
    | '1' :: '>' :: cs => (false, '>' :: cs)
    | '2' :: '>' :: cs => (true, '>' :: cs)
    | cs => (false, cs)
  match cs with
  | '>' :: cs =>
    let cs := (if cs.head? = some '>' then cs.drop 1 else cs)
    match cs with
    | '&' :: c :: rest => some (error, ['&', c], rest)
    | cs =>
      let cs := cs.dropWhile fun c => c = ' ' || c = '\t'
      let target := cs.takeWhile (!endsWord ·)
      some (error, target, cs.drop target.length)
  | _ => none

/-- Reads the commands of a script, given the line, the command at hand and those before it in
reverse order. -/
def commands : Nat → Nat → Simple → List Simple → List Char → List Simple
  | 0, _, s, done, _ => (s :: done).reverse
  | _, _, s, done, [] => (s :: done).reverse
  | fuel + 1, line, s, done, c :: cs =>
    if c = ' ' || c = '\t' then commands fuel line s done cs
    else if c = '\\' && cs.head? = some '\n' then commands fuel (line + 1) s done (cs.drop 1)
    else if c = '#' then commands fuel line s done (cs.dropWhile (· ≠ '\n'))
    else if c = '\n' then
      if s.words.isEmpty && s.condition ≠ .always then
        commands fuel (line + 1) { s with line := line + 1 } done cs
      else commands fuel (line + 1) { line := line + 1 } (s :: done) cs
    else if c = ';' then commands fuel line { line } (s :: done) cs
    else if c = '&' && cs.head? = some '&' then
      commands fuel line { line, condition := .success } (s :: done) (cs.drop 1)
    else if c = '|' && cs.head? = some '|' then
      commands fuel line { line, condition := .failure } (s :: done) (cs.drop 1)
    else
      match redirection? (c :: cs) with
      | some (error, target, rest) => commands fuel line (s.redirect error target) done rest
      | none =>
        if endsWord c then commands fuel line s done cs
        else
          let (w, rest) := word (cs.length + 2) [] (c :: cs)
          let lines := ((c :: cs).take (cs.length + 1 - rest.length)).count '\n'
          commands fuel (line + lines) { s with words := s.words ++ [w] } done rest

/-- The commands of a script. -/
def parse (script : List Char) : List Simple :=
  commands (script.length + 1) 1 { line := 1 } [] script

end TestOrchestrator.Shell
