import Supercache.Wire

/-!
JSON values and their text. The writer is compact and sorts object members by key; the reader
takes one value from the front of the input, bounds the nesting, keeps number literals and
replaces what is not UTF-8. It runs on fuel, two units for every byte of input.
-/
namespace Supercache.JsonText

open Wire

abbrev Text := List Char

inductive Json where
  | null
  | bool (b : Bool)
  | num (lit : Bytes)
  | str (s : Text)
  | arr (xs : List Json)
  | obj (fields : List (Text × Json))

def insertField (k : Text) (v : Json) : List (Text × Json) → List (Text × Json)
  | [] => [(k, v)]
  | (k', v') :: rest =>
    match compare k k' with
    | .lt => (k, v) :: (k', v') :: rest
    | .eq => (k, v) :: rest
    | .gt => (k', v') :: insertField k v rest

def lookupField (k : Text) : List (Text × Json) → Option Json
  | [] => none
  | (k', v) :: rest => if k = k' then some v else lookupField k rest

def eraseField (k : Text) (fields : List (Text × Json)) : List (Text × Json) :=
  fields.filter fun f => f.1 ≠ k

section Strings

def hexDigit (n : ℕ) : UInt8 := UInt8.ofNat (if n < 10 then 0x30 + n else 0x57 + n)

def hexVal (c : UInt8) : Option ℕ :=
  if 0x30 ≤ c ∧ c ≤ 0x39 then some (c.toNat - 0x30)
  else if 0x61 ≤ c ∧ c ≤ 0x66 then some (c.toNat - 0x57)
  else if 0x41 ≤ c ∧ c ≤ 0x46 then some (c.toNat - 0x37)
  else none

def escUnicode (n : ℕ) : Bytes :=
  [0x5C, 0x75, hexDigit (n / 4096 % 16), hexDigit (n / 256 % 16), hexDigit (n / 16 % 16),
    hexDigit (n % 16)]

def escChar (c : Char) : Bytes :=
  if c = '"' then [0x5C, 0x22]
  else if c = '\\' then [0x5C, 0x5C]
  else if c.toNat = 8 then [0x5C, 0x62]
  else if c.toNat = 12 then [0x5C, 0x66]
  else if c.toNat = 10 then [0x5C, 0x6E]
  else if c.toNat = 13 then [0x5C, 0x72]
  else if c.toNat = 9 then [0x5C, 0x74]
  else if c.toNat < 0x20 then escUnicode c.toNat
  else if c.toNat = 0x2028 ∨ c.toNat = 0x2029 then escUnicode c.toNat
  else String.utf8EncodeChar c

def replacementChar : Char := Char.ofNat 0xFFFD

def decodeRune (b : Bytes) : Char × ℕ :=
  match b.toByteArray.utf8DecodeChar? 0 with
  | some c => (c, c.utf8Size)
  | none => (replacementChar, 1)

def readU4 : Bytes → Option (ℕ × Bytes)
  | a :: b :: c :: d :: rest =>
    match hexVal a, hexVal b, hexVal c, hexVal d with
    | some a, some b, some c, some d => some (((a * 16 + b) * 16 + c) * 16 + d, rest)
    | _, _, _, _ => none
  | _ => none

def readUnicode (b : Bytes) : Option (Char × Bytes) :=
  match readU4 b with
  | none => none
  | some (hi, rest) =>
    if hi < 0xD800 ∨ 0xE000 ≤ hi then some (Char.ofNat hi, rest)
    else
      match rest with
      | 0x5C :: 0x75 :: rest' =>
        match readU4 rest' with
        | some (lo, rest'') =>
          if hi < 0xDC00 ∧ 0xDC00 ≤ lo ∧ lo < 0xE000 then
            some (Char.ofNat (0x10000 + (hi - 0xD800) * 0x400 + (lo - 0xDC00)), rest'')
          else some (replacementChar, rest)
        | none => some (replacementChar, rest)
      | _ => some (replacementChar, rest)

def readEscape : Bytes → Option (Char × Bytes)
  | [] => none
  | e :: rest =>
    if e = 0x22 then some ('"', rest)
    else if e = 0x5C then some ('\\', rest)
    else if e = 0x2F then some ('/', rest)
    else if e = 0x62 then some (Char.ofNat 8, rest)
    else if e = 0x66 then some (Char.ofNat 12, rest)
    else if e = 0x6E then some (Char.ofNat 10, rest)
    else if e = 0x72 then some (Char.ofNat 13, rest)
    else if e = 0x74 then some (Char.ofNat 9, rest)
    else if e = 0x75 then readUnicode rest
    else none

def readStr : ℕ → Bytes → Option (Text × Bytes)
  | 0, _ => none
  | _ + 1, [] => none
  | fuel + 1, c :: rest =>
    if c = 0x22 then some ([], rest)
    else if c = 0x5C then
      match readEscape rest with
      | none => none
      | some (ch, rest) => (readStr fuel rest).map fun p => (ch :: p.1, p.2)
    else if c < 0x20 then none
    else
      let (ch, n) := decodeRune (c :: rest)
      (readStr fuel ((c :: rest).drop n)).map fun p => (ch :: p.1, p.2)

def encodeStr (s : Text) : Bytes := 0x22 :: (s.flatMap escChar ++ [0x22])

end Strings

section Numbers

def isDigit (c : UInt8) : Bool := 0x30 ≤ c && c ≤ 0x39

def readDigits (b : Bytes) : Option (Bytes × Bytes) :=
  match b.takeWhile isDigit with
  | [] => none
  | ds => some (ds, b.dropWhile isDigit)

def readInt : Bytes → Option (Bytes × Bytes)
  | [] => none
  | c :: rest => if c = 0x30 then some ([c], rest) else readDigits (c :: rest)

def readFrac : Bytes → Option (Bytes × Bytes)
  | [] => some ([], [])
  | c :: rest =>
    if c = 0x2E then (readDigits rest).map fun p => (c :: p.1, p.2) else some ([], c :: rest)

def readExp : Bytes → Option (Bytes × Bytes)
  | [] => some ([], [])
  | c :: rest =>
    if c = 0x65 ∨ c = 0x45 then
      match rest with
      | [] => none
      | s :: rest' =>
        if s = 0x2B ∨ s = 0x2D then (readDigits rest').map fun p => (c :: s :: p.1, p.2)
        else (readDigits (s :: rest')).map fun p => (c :: p.1, p.2)
    else some ([], c :: rest)

def readNumber (b : Bytes) : Option (Bytes × Bytes) :=
  let (sign, b) :=
    match b with
    | 0x2D :: rest => ([(0x2D : UInt8)], rest)
    | _ => ([], b)
  match readInt b with
  | none => none
  | some (int, b) =>
    match readFrac b with
    | none => none
    | some (frac, b) => (readExp b).map fun p => (sign ++ int ++ frac ++ p.1, p.2)

end Numbers

def isSpace (c : UInt8) : Bool := c == 0x20 || c == 0x09 || c == 0x0A || c == 0x0D

def skipWs (b : Bytes) : Bytes := b.dropWhile isSpace

def readWord (w : Bytes) (v : Json) (b : Bytes) : Option (Json × Bytes) :=
  if w.isPrefixOf b then some (v, b.drop w.length) else none

mutual

def parseValue : ℕ → ℕ → Bytes → Option (Json × Bytes)
  | 0, _, _ => none
  | fuel + 1, depth, b =>
    match skipWs b with
    | [] => none
    | c :: rest =>
      if c = 0x7B then
        if depth = 0 then none
        else
          match skipWs rest with
          | 0x7D :: rest => some (.obj [], rest)
          | rest =>
            (parseMembers fuel (depth - 1) rest).map fun p =>
              (.obj (p.1.foldl (fun fs f => insertField f.1 f.2 fs) []), p.2)
      else if c = 0x5B then
        if depth = 0 then none
        else
          match skipWs rest with
          | 0x5D :: rest => some (.arr [], rest)
          | rest => (parseElems fuel (depth - 1) rest).map fun p => (.arr p.1, p.2)
      else if c = 0x22 then (readStr (rest.length + 1) rest).map fun p => (.str p.1, p.2)
      else if c = 0x74 then readWord (ascii "true") (.bool true) (c :: rest)
      else if c = 0x66 then readWord (ascii "false") (.bool false) (c :: rest)
      else if c = 0x6E then readWord (ascii "null") .null (c :: rest)
      else (readNumber (c :: rest)).map fun p => (.num p.1, p.2)

def parseElems : ℕ → ℕ → Bytes → Option (List Json × Bytes)
  | 0, _, _ => none
  | fuel + 1, depth, b =>
    match parseValue fuel depth b with
    | none => none
    | some (x, rest) =>
      match skipWs rest with
      | 0x2C :: rest => (parseElems fuel depth rest).map fun p => (x :: p.1, p.2)
      | 0x5D :: rest => some ([x], rest)
      | _ => none

def parseMembers : ℕ → ℕ → Bytes → Option (List (Text × Json) × Bytes)
  | 0, _, _ => none
  | fuel + 1, depth, b =>
    match skipWs b with
    | 0x22 :: rest =>
      match readStr (rest.length + 1) rest with
      | none => none
      | some (k, rest) =>
        match skipWs rest with
        | 0x3A :: rest =>
          match parseValue fuel depth rest with
          | none => none
          | some (v, rest) =>
            match skipWs rest with
            | 0x2C :: rest => (parseMembers fuel depth rest).map fun p => ((k, v) :: p.1, p.2)
            | 0x7D :: rest => some ([(k, v)], rest)
            | _ => none
        | _ => none
    | _ => none

end

def readValue (maxDepth : ℕ) (b : Bytes) : Option (Json × Bytes) :=
  parseValue (2 * b.length) maxDepth b

mutual

def encode : Json → Bytes
  | .null => ascii "null"
  | .bool true => ascii "true"
  | .bool false => ascii "false"
  | .num lit => lit
  | .str s => encodeStr s
  | .arr [] => [0x5B, 0x5D]
  | .arr (x :: xs) => 0x5B :: (encode x ++ encodeElems xs)
  | .obj [] => [0x7B, 0x7D]
  | .obj ((k, v) :: fs) => 0x7B :: (encodeStr k ++ 0x3A :: (encode v ++ encodeMembers fs))

def encodeElems : List Json → Bytes
  | [] => [0x5D]
  | x :: xs => 0x2C :: (encode x ++ encodeElems xs)

def encodeMembers : List (Text × Json) → Bytes
  | [] => [0x7D]
  | (k, v) :: fs => 0x2C :: (encodeStr k ++ 0x3A :: (encode v ++ encodeMembers fs))

end

end Supercache.JsonText
