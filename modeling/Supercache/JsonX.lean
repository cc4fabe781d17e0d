import Supercache.JsonText

/-!
JSON documents of the store: the path language, reading and writing at a path,
and the codec. A path is a dollar sign followed by object keys and array
indexes. Writing below a missing key creates objects on the way; writing at the
length of an array appends to it.
-/
namespace Supercache.JsonX

open Wire JsonText

def maxNestingDepth : ℕ := 10000

inductive Seg where
  | key (k : Text)
  | index (n : ℤ)
deriving DecidableEq, Repr

abbrev Path := List Seg

inductive Err where
  | type
  | index
deriving DecidableEq, Repr

def isIdentStart (c : UInt8) : Bool :=
  c == 0x5F || (0x41 ≤ c && c ≤ 0x5A) || (0x61 ≤ c && c ≤ 0x7A)

def isIdentCont (c : UInt8) : Bool := isIdentStart c || isDigit c

def asciiText (b : Bytes) : Text := b.map fun c => Char.ofNat c.toNat

def digitsVal (ds : Bytes) : ℕ := ds.foldl (fun n c => n * 10 + (c.toNat - 0x30)) 0

def parseIndex : Bytes → Option (ℕ × Bytes)
  | [] => none
  | c :: rest =>
    if c = 0x30 then some (0, rest)
    else if c < 0x31 ∨ 0x39 < c then none
    else
      let n := digitsVal ((c :: rest).takeWhile isDigit)
      if n < 2 ^ 63 then some (n, (c :: rest).dropWhile isDigit) else none

def parseSegs : ℕ → Bytes → Option Path
  | _, [] => some []
  | 0, _ :: _ => none
  | fuel + 1, c :: rest =>
    if c = 0x2E then
      match rest with
      | [] => none
      | c :: tail =>
        if isIdentStart c then
          (parseSegs fuel (tail.dropWhile isIdentCont)).map
            (.key (asciiText (c :: tail.takeWhile isIdentCont)) :: ·)
        else none
    else if c = 0x5B then
      match rest with
      | [] => none
      | 0x22 :: tail =>
        match readStr (tail.length + 1) tail with
        | some (k, 0x5D :: tail) => (parseSegs fuel tail).map (.key k :: ·)
        | _ => none
      | rest =>
        match parseIndex rest with
        | some (n, 0x5D :: tail) => (parseSegs fuel tail).map (.index n :: ·)
        | _ => none
    else none

def parsePath : Bytes → Option Path
  | [] => some []
  | c :: rest => if c = 0x24 then parseSegs rest.length rest else none

/-- One value, and nothing after it but white space; the decoder's look-ahead
does not count a closing bracket or brace. -/
def decode (b : Bytes) : Option Json :=
  if b = [] then none
  else
    match readValue maxNestingDepth b with
    | none => none
    | some (v, rest) =>
      match skipWs rest with
      | [] => some v
      | c :: _ => if c = 0x5D ∨ c = 0x7D then some v else none

def encode (v : Json) : Bytes := JsonText.encode v

def get : Json → Path → Option Json
  | cur, [] => some cur
  | cur, .index n :: rest =>
    match cur with
    | .arr xs => if n < 0 then none else (xs[n.toNat]?).bind (get · rest)
    | _ => none
  | cur, .key k :: rest =>
    match cur with
    | .obj fs => (lookupField k fs).bind (get · rest)
    | _ => none

def createPath : Path → Json → Except Err Json
  | [], val => .ok val
  | .index _ :: _, _ => .error .type
  | .key k :: rest, val => (createPath rest val).map fun child => .obj [(k, child)]

def setRec : Path → Json → Json → Except Err Json
  | [], _, val => .ok val
  | .index n :: rest, cur, val =>
    match cur with
    | .arr xs =>
      if n < 0 then .error .index
      else
        match xs[n.toNat]? with
        | some x => (setRec rest x val).map fun child => .arr (xs.set n.toNat child)
        | none =>
          if n = xs.length then (createPath rest val).map fun child => .arr (xs ++ [child])
          else .error .index
    | _ => .error .type
  | .key k :: rest, cur, val =>
    match cur with
    | .obj fs =>
      match lookupField k fs with
      | none => (createPath rest val).map fun child => .obj (insertField k child fs)
      | some x => (setRec rest x val).map fun child => .obj (insertField k child fs)
    | _ => .error .type

def set (doc : Json) (p : Path) (val : Json) : Except Err Json :=
  if p = [] then .ok val
  else
    match doc with
    | .null => .error .type
    | doc => setRec p doc val

def delRec : Path → Json → Option Json
  | [], _ => none
  | .index n :: rest, cur =>
    match cur with
    | .arr xs =>
      if n < 0 then none
      else
        match xs[n.toNat]? with
        | none => none
        | some x =>
          if rest = [] then some (.arr (xs.eraseIdx n.toNat))
          else (delRec rest x).map fun child => .arr (xs.set n.toNat child)
    | _ => none
  | .key k :: rest, cur =>
    match cur with
    | .obj fs =>
      match lookupField k fs with
      | none => none
      | some x =>
        if rest = [] then some (.obj (eraseField k fs))
        else (delRec rest x).map fun child => .obj (insertField k child fs)
    | _ => none

/-- Deleting the root leaves an empty object; nothing is returned when nothing was removed. -/
def del (doc : Json) (p : Path) : Option Json :=
  if p = [] then some (.obj [])
  else
    match doc with
    | .null => none
    | doc => delRec p doc

end Supercache.JsonX
