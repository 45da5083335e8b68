import RoleFlow.Json.Reader

/-!
# Addresses

The address of a request is a path, which a scheme and a host may precede and a query and a
fragment may follow. Only the path tells what is asked for.

Main definitions:
* `addressPath?`: the path of an address, in normal form.
-/

namespace RoleFlow

/-- The parts of an address: its scheme, its host, and its path. Each may be empty. -/
structure Address where
  scheme : List Char
  host : List Char
  path : List Char

namespace Address

/-- Whether a character may stand in a scheme after the first letter. -/
def isSchemeChar (c : Char) : Bool := c.isAlphanum || c == '+' || c == '.' || c == '-'

/-- The scheme in front of a colon, and the text after it. -/
def splitScheme (text : List Char) : List Char × List Char :=
  let scheme := text.takeWhile isSchemeChar
  match text.dropWhile isSchemeChar with
  | ':' :: rest => if (scheme.headD 'a').isAlpha then (scheme, rest) else ([], text)
  | _ => ([], text)

/-- The host between two slashes and what ends it, and the text after it. -/
def splitHost : List Char → List Char × List Char
  | '/' :: '/' :: rest =>
    let isPart (c : Char) : Bool := c != '/' && c != '?' && c != '#'
    (rest.takeWhile isPart, rest.dropWhile isPart)
  | text => ([], text)

/-- The parts of an address. -/
def ofText (text : List Char) : Address :=
  let (scheme, rest) := splitScheme text
  let (host, rest) := splitHost rest
  ⟨scheme, host, rest.takeWhile fun c => c != '?' && c != '#'⟩

/-- Whether the path cannot be told from a scheme or a host. -/
def isMistakable (a : Address) : Bool :=
  a.scheme.isEmpty && a.host.isEmpty && (a.path.head? == some ':' || a.path.take 2 == ['/', '/'])

/-- A text cut at every slash. -/
def segments (path : List Char) : List (List Char) := path.splitOn '/'

/-- The segments without single dots, and without double dots and the segments before them; the
first segment stays. The segments in `seen` come before these, the last one first. -/
def dropDots (seen : List (List Char)) : List (List Char) → List (List Char)
  | [] => seen.reverse
  | segment :: segments =>
    if segment = ['.'] then dropDots seen segments
    else if segment = ['.', '.'] then
      dropDots (if seen = [[]] then seen else seen.drop 1) segments
    else dropDots (segment :: seen) segments

/-- The text with every character in the place of its code, which are two hexadecimal digits after
a percent sign. -/
def decodePercents : List Char → List Char
  | '%' :: a :: b :: rest =>
    match Json.hexValue? a, Json.hexValue? b with
    | some high, some low => .ofNat (high * 16 + low) :: decodePercents rest
    | _, _ => '%' :: decodePercents (a :: b :: rest)
  | c :: rest => c :: decodePercents rest
  | [] => []

/-- The path in normal form: with one slash in front, without dots, and with all codes decoded. -/
def normalPath (a : Address) : List Char :=
  let path := '/' :: a.path.dropWhile (· == '/')
  let plain := List.intercalate ['/'] (dropDots [] (segments path))
  decodePercents (decodePercents (if plain.isEmpty then ['/'] else plain))

end Address

/-- Whether a character of ASCII cannot be printed. -/
def isControl (c : Char) : Bool := c.toNat < 0x20 || c.toNat == 0x7F

/-- The path of an address in normal form, if the text is an address. -/
def addressPath? (text : String) : Option String :=
  let address := Address.ofText text.toList
  if text.toList.any isControl || address.isMistakable then none
  else some (String.ofList address.normalPath)

/-- A path without the slashes at its end. -/
def dropFinalSlashes (path : String) : String :=
  String.ofList ((path.toList.reverse.dropWhile (· == '/')).reverse)

end RoleFlow
