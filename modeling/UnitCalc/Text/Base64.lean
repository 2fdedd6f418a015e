/-!
# Base64

The standard alphabet with required padding. Decoding accepts only what encoding produces: padding must
complete the last group of four, and the bits of the last symbol that make no whole byte must be zero.
Offsets in faults count bytes.
-/

namespace UnitCalc.Base64

/-- Why a text is not Base64. -/
inductive Fault where
  | symbol (byte : UInt8) (offset : Nat)
  | length (n : Nat)
  | padding
  | lastSymbol (symbol : Char) (offset : Nat)
deriving DecidableEq

def Fault.message : Fault → String
  | symbol byte offset =>
    "Invalid symbol " ++ toString byte.toNat ++ ", offset " ++ toString offset ++ "."
  | length n => "Invalid input length: " ++ toString n
  | padding => "Invalid padding"
  | lastSymbol c offset =>
    "Invalid last symbol " ++ toString c.toNat ++ ", offset " ++ toString offset ++ "."

/-- The symbol of a group of six bits. -/
def symbol (sextet : Nat) : Char :=
  if sextet < 26 then Char.ofNat (sextet + 65)
  else if sextet < 52 then Char.ofNat (sextet + 71)
  else if sextet < 62 then Char.ofNat (sextet - 4)
  else if sextet = 62 then '+'
  else '/'

/-- The six bits that a byte of the alphabet stands for. -/
def sextet? (byte : UInt8) : Option Nat :=
  let b := byte.toNat
  if 65 ≤ b ∧ b ≤ 90 then some (b - 65)
  else if 97 ≤ b ∧ b ≤ 122 then some (b - 71)
  else if 48 ≤ b ∧ b ≤ 57 then some (b + 4)
  else if b = 43 then some 62
  else if b = 47 then some 63
  else none

/-- Three bytes become four symbols; a shorter last group is filled with zero bits and padding. -/
def encode : List UInt8 → List Char
  | [] => []
  | [a] => [symbol (a.toNat / 4), symbol (a.toNat % 4 * 16), '=', '=']
  | [a, b] =>
    [symbol (a.toNat / 4), symbol (a.toNat % 4 * 16 + b.toNat / 16), symbol (b.toNat % 16 * 4), '=']
  | a :: b :: c :: rest =>
    symbol (a.toNat / 4) :: symbol (a.toNat % 4 * 16 + b.toNat / 16)
      :: symbol (b.toNat % 16 * 4 + c.toNat / 64) :: symbol (c.toNat % 64) :: encode rest

/-- The whole bytes in a sequence of six-bit groups. -/
def packed : List Nat → List UInt8
  | a :: b :: c :: d :: rest =>
    UInt8.ofNat (a * 4 + b / 16) :: UInt8.ofNat (b % 16 * 16 + c / 4)
      :: UInt8.ofNat (c % 4 * 64 + d) :: packed rest
  | [a, b, c] => [UInt8.ofNat (a * 4 + b / 16), UInt8.ofNat (b % 16 * 16 + c / 4)]
  | [a, b] => [UInt8.ofNat (a * 4 + b / 16)]
  | _ => []

/-- The bits of a last group that make no whole byte. -/
def spareBits : List Nat → Nat
  | [_, b] => b % 16
  | [_, _, c] => c % 4
  | _ => 0

/-- The byte of the padding sign. -/
def padByte : UInt8 := 61

/-- Reads symbols with no padding among them. -/
def readSymbols (offset : Nat) : List UInt8 → Except Fault (List Nat)
  | [] => .ok []
  | b :: bs =>
    match sextet? b with
    | none => .error (.symbol b offset)
    | some v => (readSymbols (offset + 1) bs).map (v :: ·)

/-- The last group: its symbols and how many padding signs follow them. -/
structure LastGroup where
  sextets : List Nat
  padding : Nat

/-- Reads the last group from its symbol number `index` on. Padding can stand for its third and fourth
symbol only, and nothing but padding follows it. -/
def readLast (start : Nat) (index : Nat) : List UInt8 → Except Fault LastGroup
  | [] => .ok ⟨[], 0⟩
  | b :: bs =>
    if b = padByte then
      if 2 ≤ index ∧ bs.all (· = padByte) then .ok ⟨[], bs.length + 1⟩
      else .error (.symbol padByte (start + index))
    else
      match sextet? b with
      | none => .error (.symbol b (start + index))
      | some v => (readLast start (index + 1) bs).map fun g => ⟨v :: g.sextets, g.padding⟩

/-- How many of `n` bytes belong to the last group. -/
def lastLength (n : Nat) : Nat := if n % 4 = 0 then min n 4 else n % 4

/-- A byte left over after whole groups of four is looked at before all others. -/
def strayByte? (bs : List UInt8) : Option UInt8 :=
  if bs.length % 4 = 1 then bs.getLast?.filter fun b => b ≠ padByte ∧ sextet? b = none else none

def decode (bs : List UInt8) : Except Fault (List UInt8) := do
  if let some b := strayByte? bs then
    throw (.symbol b (bs.length - 1))
  let start := bs.length - lastLength bs.length
  let sextets ← readSymbols 0 (bs.take start)
  let last ← readLast start 0 (bs.drop start)
  let count := last.sextets.length
  if bs ≠ [] ∧ count < 2 then
    throw (.length (start + count))
  if (count + last.padding) % 4 ≠ 0 then
    throw .padding
  if spareBits last.sextets ≠ 0 then
    throw (.lastSymbol (symbol (last.sextets.getLastD 0)) (start + count - 1))
  return packed (sextets ++ last.sextets)

end UnitCalc.Base64
