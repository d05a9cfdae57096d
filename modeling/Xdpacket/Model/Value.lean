import Xdpacket.Lib.Patterns
import Xdpacket.Model.Yaml

namespace Xdpacket

open RegularExpression (char oneOf opt many1 between)

/-- `[0-9]` -/
def decDigits : List Char := "0123456789".toList

/-- `[0-9a-f]`: the expressions ignore case. -/
def hexDigits : List Char := "0123456789abcdefABCDEF".toList

/-- `\s` -/
def spaces : List Char := [' ', '\t', '\n', Char.ofNat 11, Char.ofNat 12, '\r']

/-- `^([0-9]{1,3}\.){3}([0-9]+)$` -/
def txtIpv4 : RegularExpression Char :=
  (between (oneOf decDigits) 1 2 * char '.') ^ 3 * many1 (oneOf decDigits)

/-- `^([0-9a-fA-F]{2}:){5}([0-9a-fA-F]{2})$` -/
def txtMac : RegularExpression Char :=
  (oneOf hexDigits ^ 2 * char ':') ^ 5 * oneOf hexDigits ^ 2

/-- `^\s*[+-]?([0-9]+|0[xX][0-9a-f]+)$` -/
def txtInt : RegularExpression Char :=
  (oneOf spaces).star * opt (oneOf ['+', '-']) *
    (many1 (oneOf decDigits) + char '0' * oneOf ['x', 'X'] * many1 (oneOf hexDigits))

/-- `[0-9a-f]{1,4}` -/
def ipv6Group : RegularExpression Char := between (oneOf hexDigits) 1 3

/-- `^((([0-9a-f]{1,4}(:|::)){1,7}([0-9a-f]{1,4}))|::|::1)$` -/
def txtIpv6 : RegularExpression Char :=
  between (ipv6Group * (char ':' + char ':' * char ':')) 1 6 * ipv6Group +
    char ':' * char ':' + char ':' * char ':' * char '1'

/-- `^\s*0[xX][0-9a-f]+$` -/
def txtHex : RegularExpression Char :=
  (oneOf spaces).star * char '0' * oneOf ['x', 'X'] * many1 (oneOf hexDigits)

/-- `regexec`: every expression is anchored at both ends. -/
def regexec (re : RegularExpression Char) (value : Text) : Bool := re.rmatch value.toList

/-- The loop of `inet_pton(AF_INET)`: the octets done, and the one begun. -/
def pton4Loop : List Char → Bytes → Option Nat → Option Bytes
  | [], octets, some v => if octets.length = 3 then some (octets ++ [UInt8.ofNat v]) else none
  | [], _, none => none
  | ch :: src, octets, tp =>
    if '0' ≤ ch ∧ ch ≤ '9' then
      let new := tp.getD 0 * 10 + digitValue ch
      -- no leading zero, and no octet above 255
      if tp = some 0 ∨ 255 < new then none
      else if tp = none ∧ 4 < octets.length + 1 then none
      else pton4Loop src octets (some new)
    else if ch = '.' then
      match tp with
      | none => none
      | some v =>
        if octets.length + 1 = 4 then none
        else pton4Loop src (octets ++ [UInt8.ofNat v]) none
    else none

def inetPton4 (src : List Char) : Option Bytes := pton4Loop src [] none

/-- The local variables of `inet_pton(AF_INET6)`: the bytes written, where
among them `::` was, the text of the current group, its digits and value. -/
structure Pton6 where
  tmp : Bytes
  colonp : Option Nat
  curtok : List Char
  xdigitsSeen : Nat
  val : Nat
deriving DecidableEq, Repr

/-- A group is written, if there is room. -/
def Pton6.putGroup (s : Pton6) : Option Pton6 :=
  if 16 < s.tmp.length + 2 then none
  else some { s with
    tmp := s.tmp ++ [UInt8.ofNat (s.val / 256), UInt8.ofNat (s.val % 256)]
    xdigitsSeen := 0
    val := 0 }

def pton6Loop : List Char → Pton6 → Option Pton6
  | [], s => some s
  | ch :: src, s =>
    if digitValue ch < 16 then
      if s.xdigitsSeen = 4 then none
      else pton6Loop src
        { s with xdigitsSeen := s.xdigitsSeen + 1, val := s.val * 16 + digitValue ch }
    else if ch = ':' then
      if s.xdigitsSeen = 0 then
        if s.colonp.isSome then none
        else pton6Loop src { s with curtok := src, colonp := some s.tmp.length }
      else if src = [] then none
      else
        match { s with curtok := src }.putGroup with
        | none => none
        | some s => pton6Loop src s
    else if ch = '.' ∧ s.tmp.length + 4 ≤ 16 then
      match inetPton4 s.curtok with
      | none => none
      | some i4 => some { s with tmp := s.tmp ++ i4, xdigitsSeen := 0 }
    else none

/-- After the loop: the last group, then zeros for `::`, at least one group of them. -/
def Pton6.finish (s : Pton6) : Option Bytes :=
  match if 0 < s.xdigitsSeen then s.putGroup else some s with
  | none => none
  | some s =>
    match s.colonp with
    | none => if s.tmp.length = 16 then some s.tmp else none
    | some colon =>
      if s.tmp.length = 16 then none
      else some (s.tmp.take colon ++ List.replicate (16 - s.tmp.length) 0 ++ s.tmp.drop colon)

/-- A leading colon must be one of two. -/
def inetPton6 (src : List Char) : Option Bytes :=
  match src with
  | [] => none
  | ':' :: ':' :: rest => (pton6Loop (':' :: rest) ⟨[], none, ':' :: rest, 0, 0⟩).bind Pton6.finish
  | ':' :: _ => none
  | src => (pton6Loop src ⟨[], none, src, 0, 0⟩).bind Pton6.finish

/-- `n` of the `%hhx` of `sscanf`, with a colon between two. -/
def scanHex : Nat → List Char → Option Bytes
  | 0, _ => some []
  | n + 1, cs =>
    let ds := cs.takeWhile (fun c => digitValue c < 16)
    let byte := UInt8.ofNat (takeDigits 16 ds 0)
    if ds = [] then none
    else if n = 0 then some [byte]
    else
      match cs.drop ds.length with
      | ':' :: rest => (scanHex n rest).map (byte :: ·)
      | _ => none

/-- A fixed-width integer type, and whether it can hold a number. -/
structure IntType where
  signed : Bool
  size : Nat
deriving DecidableEq, Repr

def IntType.holds (t : IntType) (v : Int) : Bool :=
  if t.signed then -2 ^ (8 * t.size - 1) ≤ v ∧ v < 2 ^ (8 * t.size - 1)
  else 0 ≤ v ∧ v < 2 ^ (8 * t.size)

/-- The type of `out`, by length and sign. -/
def outType (len : Nat) (tt : Int) : Option IntType :=
  if len = 1 ∧ 0 ≤ tt then some ⟨false, 1⟩
  else if len = 1 then some ⟨true, 1⟩
  else if len = 2 ∧ 0 ≤ tt then some ⟨false, 2⟩
  else if len = 2 then some ⟨true, 2⟩
  else if len = 4 ∧ 0 ≤ tt then some ⟨false, 4⟩
  else if len = 4 then some ⟨true, 4⟩
  else if len = 8 ∧ 0 ≤ tt then some ⟨true, 8⟩
  else if len = 8 then some ⟨false, 8⟩
  else none

/-- The low bytes of a number in two's complement, as `htobe` leaves them. -/
def toBe : Nat → Int → Bytes
  | 0, _ => []
  | n + 1, v => toBe n (v / 256) ++ [UInt8.ofNat (v % 256).toNat]

/-- The integer branch; nothing at `die`. -/
def valueParseInt (value : Text) (len : Nat) : Option Bytes :=
  let (tt, erange) := strtol value
  if erange then none
  else
    match outType len tt with
    | none => none
    | some out => if out.holds tt then some (toBe len tt) else none

/-- The bytes of a C string. -/
def textBytes (value : Text) : Bytes := value.toList.flatMap String.utf8EncodeChar

/-- The last branch: the characters themselves. Too many of them are cut off
with a warning, too few are an error. -/
def valueParseChars (value : Text) (len : Nat) : Option Bytes :=
  let valueLen := min (textBytes value).length (len + 1)
  let valueLen := if len < valueLen then len else valueLen
  if valueLen ≠ len then none else some ((textBytes value).take valueLen)

/-- The chain of recognisers. `hx2bBE` stands for the library function of that
name, which has nothing to say of a text without digits. -/
def valueParseBytes (hx2bBE : Text → (len : Nat) → Option { bs : Bytes // bs.length = len })
    (value : Text) (len : Nat) : Option Bytes :=
  if len = 0 then some []
  else if len ≤ 4 ∧ regexec txtIpv4 value then (inetPton4 value.toList).map (List.take len)
  else if len ≤ 6 ∧ regexec txtMac value then (scanHex 6 value.toList).map (List.take len)
  else if len ≤ 8 ∧ regexec txtInt value then valueParseInt value len
  else
    match if len ≤ 16 ∧ regexec txtIpv6 value then inetPton6 value.toList else none with
    | some i6 => some (i6.take len)
    | none =>
      if regexec txtHex value then (hx2bBE value len).map Subtype.val
      else valueParseChars value len

/-- `value_parse`: the error count, and the bytes at `parsed`, which are zeroed
on failure. -/
def valueParse (hx2bBE : Text → (len : Nat) → Option { bs : Bytes // bs.length = len })
    (value : Text) (len : Nat) : Nat × Bytes :=
  match valueParseBytes hx2bBE value len with
  | some parsed => (0, parsed)
  | none => (1, List.replicate len 0)

end Xdpacket
