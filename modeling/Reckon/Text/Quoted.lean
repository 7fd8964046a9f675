import Reckon.Text
import Reckon.Text.Printable

namespace Reckon

def hex (width n : Nat) : List Char :=
  let digits := Nat.toDigits 16 n
  List.replicate (width - digits.length) '0' ++ digits

def controlLetter? : Nat → Option Char
  | 7 => some 'a'
  | 8 => some 'b'
  | 9 => some 't'
  | 10 => some 'n'
  | 11 => some 'v'
  | 12 => some 'f'
  | 13 => some 'r'
  | _ => none

/-- A character between quotes. One that is not printable has a letter or is given by its number. -/
def escapeChar (delimiter c : Char) : List Char :=
  if c = delimiter ∨ c = '\\' then ['\\', c]
  else if Text.isPrintable c then [c]
  else
    match controlLetter? c.toNat with
    | some letter => ['\\', letter]
    | none =>
      if c.toNat < 0x80 then '\\' :: 'x' :: hex 2 c.toNat
      else if c.toNat < 0x10000 then '\\' :: 'u' :: hex 4 c.toNat
      else '\\' :: 'U' :: hex 8 c.toNat

/-- A piece of text between double quotes: a stray byte is written by its number. -/
def Piece.escape : Piece → List Char
  | .char c => escapeChar '"' c
  | .stray b => '\\' :: 'x' :: hex 2 b.toNat

def Text.quote (t : Text) : String :=
  String.ofList ('"' :: t.flatMap Piece.escape ++ ['"'])

def quote (s : String) : String := (Text.ofString s).quote

def apostrophe : Char := '\x27'

def quoteChar (c : Char) : String :=
  String.ofList (apostrophe :: escapeChar apostrophe c ++ [apostrophe])

def padRight (width : Nat) (s : String) : String :=
  s ++ String.ofList (List.replicate (width - s.length) ' ')

end Reckon
