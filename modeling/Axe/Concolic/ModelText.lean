import Axe.Concolic.PureRust
import Axe.Concolic.OperandParser
import Axe.Lib.SmtScript

/-!
# Models read back from a solver's text

`parse_model_input_bytes` looks at one line after another for a definition of an input byte, and
in the rest of that line for a literal. A text is described by its tokens and the white space
between them, of which only two adjacent words need some.
-/
namespace Axe.Concolic

open Smt (isHexDigit)

/-- The part of a text behind the first occurrence of a pattern. -/
def findAfter (pat : List Char) : List Char → Option (List Char)
  | [] => pat.isPrefixOf? []
  | c :: s =>
    match pat.isPrefixOf? (c :: s) with
    | some rest => some rest
    | none => findAfter pat s

/-- `u8::from_str_radix`. -/
def u8FromStrRadix (s : List Char) (radix : Nat) : Option (BitVec 8) :=
  let n := digits radix (match s with
    | '+' :: ds => ds
    | ds => ds)
  n.bind fun n => if n < 2 ^ 8 then some (BitVec.ofNat 8 n) else none

/-- The characters of a literal behind its mark, if there are any. -/
def literalAfter (mark : String) (inLiteral : Char → Bool) (s : List Char) :
    Option (List Char) :=
  match findAfter mark.toList s with
  | none => none
  | some rest =>
    let ds := rest.takeWhile inLiteral
    if ds = [] then none else some ds

def isBinaryDigit (c : Char) : Bool := c = '0' || c = '1'

def parseByteLiteral (s : List Char) : Option (BitVec 8) :=
  match literalAfter "#x" isHexDigit s with
  | some ds => u8FromStrRadix ds 16
  | none =>
    match literalAfter "#b" isBinaryDigit s with
    | some ds => u8FromStrRadix ds 2
    | none =>
      match literalAfter "(_ bv" (· ≠ ' ') s with
      | some ds => u8FromStrRadix ds 10
      | none => none

/-- The parts of a list between its breaks. -/
def splitBreaks {α : Type} (isBreak : α → Bool) : List α → List (List α)
  | [] => [[]]
  | a :: l =>
    if isBreak a then [] :: splitBreaks isBreak l
    else
      match splitBreaks isBreak l with
      | [] => [[a]]
      | first :: rest => (a :: first) :: rest

def stripCarriageReturn (line : List Char) : List Char :=
  if line.getLast? = some '\r' then line.dropLast else line

/-- `str::lines`. -/
def strLines (s : List Char) : List (List Char) :=
  let parts := splitBreaks (· = '\n') s
  let terminated := parts.dropLast.map stripCarriageReturn
  match parts.getLast? with
  | none | some [] => terminated
  | some last => terminated ++ [last]

def parseModelLine (inputBytes : Nat) (out : List (BitVec 8)) (line : List Char) :
    List (BitVec 8) :=
  match "(define-fun input_b".toList.isPrefixOf? (trim line) with
  | none => out
  | some rest =>
    match parseU32 (rest.takeWhile (· ≠ ' ')) with
    | none => out
    | some idx =>
      if idx ≥ inputBytes then out
      else
        match parseByteLiteral (rest.dropWhile (· ≠ ' ')) with
        | some value => out.set idx value
        | none => out

def parseModelInputBytes (stdout : List Char) (inputBytes : Nat) : List (BitVec 8) :=
  (strLines stdout).foldl (parseModelLine inputBytes) (List.replicate inputBytes 0)

/-- Two hexadecimal digits, in either case. -/
abbrev HexByte := {ds : List Char // ds.length = 2 ∧ ∀ c ∈ ds, isHexDigit c = true}

abbrev BinaryByte := {ds : List Char // ds.length = 8 ∧ ∀ c ∈ ds, isBinaryDigit c = true}

def HexByte.value (ds : HexByte) : BitVec 8 := BitVec.ofNat 8 ((digits 16 ds.1).getD 0)

def BinaryByte.value (ds : BinaryByte) : BitVec 8 := BitVec.ofNat 8 ((digits 2 ds.1).getD 0)

inductive Token where
  | lparen
  | rparen
  | defineFun
  | name (index : Nat)
  | underscore
  | bitVec
  | eight
  | model
  | hex (ds : HexByte)
  | binary (ds : BinaryByte)
  | bv (value : BitVec 8)
  deriving DecidableEq

def Token.chars : Token → List Char
  | .lparen => ['(']
  | .rparen => [')']
  | .defineFun => "define-fun".toList
  | .name index => "input_b".toList ++ Nat.toDigits 10 index
  | .underscore => ['_']
  | .bitVec => "BitVec".toList
  | .eight => ['8']
  | .model => "model".toList
  | .hex ds => '#' :: 'x' :: ds.1
  | .binary ds => '#' :: 'b' :: ds.1
  | .bv value => "bv".toList ++ Nat.toDigits 10 value.toNat

def Token.isWord : Token → Bool
  | .lparen | .rparen => false
  | _ => true

/-- The white space of SMT-LIB. -/
abbrev Blank := {c : Char // c ∈ [' ', '\t', '\n', '\r']}

inductive Piece where
  | blank (c : Blank)
  | token (t : Token)
  deriving DecidableEq

def Piece.chars : Piece → List Char
  | .blank c => [c.1]
  | .token t => t.chars

def Piece.isWord : Piece → Bool
  | .blank _ => false
  | .token t => t.isWord

def Piece.token? : Piece → Option Token
  | .blank _ => none
  | .token t => some t

/-- The text of a list of pieces. -/
def text (ps : List Piece) : List Char := ps.flatMap Piece.chars

/-- The ways to write a byte. -/
inductive Literal where
  | hex (ds : HexByte)
  | binary (ds : BinaryByte)
  | decimal (value : BitVec 8)

def Literal.value : Literal → BitVec 8
  | .hex ds => ds.value
  | .binary ds => ds.value
  | .decimal value => value

def Literal.tokens : Literal → List Token
  | .hex ds => [.hex ds]
  | .binary ds => [.binary ds]
  | .decimal value => [.lparen, .underscore, .bv value, .eight, .rparen]

/-- `(define-fun input_b<i> () (_ BitVec 8) <literal>)` -/
structure Item where
  index : Nat
  literal : Literal

def Item.tokens (item : Item) : List Token :=
  ([.lparen, .defineFun, .name item.index, .lparen, .rparen, .lparen, .underscore, .bitVec, .eight,
    .rparen] : List Token) ++ item.literal.tokens ++ [.rparen]

/-- Around the items: nothing, or a block with or without the word `model`. -/
inductive Enclosure where
  | none
  | block
  | modelBlock
  deriving DecidableEq

def Enclosure.tokens (enclosure : Enclosure) (items : List Token) : List Token :=
  match enclosure with
  | .none => items
  | .block => .lparen :: items ++ [.rparen]
  | .modelBlock => .lparen :: .model :: items ++ [.rparen]

/-- A rendering of an assignment: one item for every input byte, in any order and layout. The
number of bytes is a `u32`. -/
structure Rendering (bytes : List (BitVec 8)) where
  fits : bytes.length < 2 ^ 32
  items : List Item
  enclosure : Enclosure
  pieces : List Piece
  each_once : (items.map Item.index).Perm (List.range bytes.length)
  values : ∀ item ∈ items, bytes[item.index]? = some item.literal.value
  tokens : pieces.filterMap Piece.token? = enclosure.tokens (items.flatMap Item.tokens)
  separated : pieces.IsChain fun a b => (a.isWord && b.isWord) = false

def Piece.isBlank : Piece → Bool
  | .blank _ => true
  | .token _ => false

def Piece.isNewline : Piece → Bool
  | .blank c => c.1 = '\n'
  | .token _ => false

/-- Without the blanks at both ends. -/
def trimPieces (ps : List Piece) : List Piece :=
  ((ps.dropWhile Piece.isBlank).reverse.dropWhile Piece.isBlank).reverse

def spaceBlank : Piece := .blank ⟨' ', by simp⟩

/-- The line is over, or goes on with a space. -/
def atSpace (ps : List Piece) : Bool :=
  match ps with
  | [] => true
  | p :: _ => p = spaceBlank

/-- The index of the item that a line opens with, and the rest of the line. -/
def opened (line : List Piece) : Option (Nat × List Piece) :=
  match trimPieces line with
  | .token .lparen :: .token .defineFun :: space :: .token (.name index) :: rest =>
    if space = spaceBlank ∧ atSpace rest then some (index, rest) else none
  | _ => none

def Piece.hex? : Piece → Option HexByte
  | .token (.hex ds) => some ds
  | _ => none

def Piece.binary? : Piece → Option BinaryByte
  | .token (.binary ds) => some ds
  | _ => none

/-- The first number spelled `(_ bv<N>`, with what follows it. -/
def firstDecimal : List Piece → Option (BitVec 8 × List Piece)
  | [] => none
  | p :: ps =>
    match p, ps with
    | .token .lparen, .token .underscore :: space :: .token (.bv value) :: rest =>
      if space = spaceBlank then some (value, rest) else firstDecimal ps
    | _, _ => firstDecimal ps

/-- The literal that stands for a whole rest of a line: the first one of the strongest form. -/
def readLiteral (rest : List Piece) : Option (BitVec 8) :=
  match rest.findSome? Piece.hex? with
  | some ds => some ds.value
  | none =>
    match rest.findSome? Piece.binary? with
    | some ds => some ds.value
    | none =>
      match firstDecimal rest with
      | some (value, rest) => if atSpace rest then some value else none
      | none => none

/-- The byte of an item can be read off its line: the item opens it and the literal that stands
for the rest of the line has this value, or nothing is read and the byte is zero. -/
def Legible (ps : List Piece) (index : Nat) (byte : BitVec 8) : Prop :=
  (∃ line ∈ splitBreaks Piece.isNewline ps, ∃ rest, opened line = some (index, rest) ∧
    readLiteral rest = some byte) ∨
  byte = 0 ∧ ∀ line ∈ splitBreaks Piece.isNewline ps, ∀ rest,
    opened line = some (index, rest) → readLiteral rest = none

end Axe.Concolic
