/-!
# Web addresses

`Url.ofText` reads an absolute address and brings it into its one written form: the scheme and the
host are in lower case, the usual port is left out, dots in the path are resolved, and characters
that may not stand in an address are written as the percent codes of their bytes.
-/

set_option autoImplicit false

namespace EventUpload

/-- Why a text is no address. -/
inductive UrlFault where
  | noScheme
  | emptyHost
  | badPort
  | badHost
deriving BEq, DecidableEq, Repr

def UrlFault.message : UrlFault → String
  | noScheme => "relative URL without a base"
  | emptyHost => "empty host"
  | badPort => "invalid port number"
  | badHost => "invalid international domain name"

structure Url where
  scheme : String
  user : String
  host : String
  port : Option Nat
  /-- The pieces of the path, after a slash each. -/
  path : List String
  query : Option String
  fragment : Option String
deriving BEq, DecidableEq, Repr

namespace Url

/-! ## Characters -/

def isLetter (c : Char) : Bool := ('a' ≤ c && c ≤ 'z') || ('A' ≤ c && c ≤ 'Z')

def isDigit (c : Char) : Bool := '0' ≤ c && c ≤ '9'

/-- A character of a scheme after its first one. -/
def isSchemeChar (c : Char) : Bool :=
  isLetter c || isDigit c || c = '+' || c = '-' || c = '.'

def hexDigit (n : Nat) : Char :=
  if n < 10 then Char.ofNat ('0'.toNat + n) else Char.ofNat ('A'.toNat + (n - 10))

def percentCode (c : Char) : List Char :=
  (String.utf8EncodeChar c).flatMap fun b => ['%', hexDigit (b.toNat / 16), hexDigit (b.toNat % 16)]

/-- Writes the characters as percent codes that have to be. -/
def escape (special : List Char) (cs : List Char) : String :=
  String.ofList (cs.flatMap fun c =>
    if c.toNat ≤ 0x20 || 0x7F ≤ c.toNat || special.contains c then percentCode c else [c])

def pathSpecial : List Char := ['"', '<', '>', '\x60', '#', '?', '{', '}']

def querySpecial : List Char := ['"', '<', '>', '#', '\x27']

def fragmentSpecial : List Char := ['"', '<', '>', '\x60']

def hostSpecial : List Char :=
  [' ', '#', '%', '/', ':', '<', '>', '?', '@', '[', '\\', ']', '^', '|']

/-! ## Reading -/

def isSlash (c : Char) : Bool := c = '/' || c = '\\'

def pieces (cs : List Char) : List (List Char) :=
  cs.foldr (fun c acc =>
    if isSlash c then [] :: acc
    else match acc with
      | piece :: acc => (c :: piece) :: acc
      | [] => [[c]]) [[]]

/-- The path without dots: one dot stands for the same place, two for the one before. The pieces so
far come in reverse. -/
def resolveDots : List String → List (List Char) → List String
  | acc, [] => acc.reverse
  | acc, [piece] =>
    if piece = ['.'] then ("" :: acc).reverse
    else if piece = ['.', '.'] then ("" :: acc.tail).reverse
    else (escape pathSpecial piece :: acc).reverse
  | acc, piece :: rest =>
    if piece = ['.'] then resolveDots acc rest
    else if piece = ['.', '.'] then resolveDots acc.tail rest
    else resolveDots (escape pathSpecial piece :: acc) rest

def usualPort? : String → Option Nat
  | "http" => some 80
  | "https" => some 443
  | "ftp" => some 21
  | _ => none

/-- The port after the host, if it is not the usual one. -/
def readPort (scheme : String) (cs : List Char) : Except UrlFault (Option Nat) :=
  if cs.isEmpty then .ok none
  else if cs.all isDigit then
    let n := cs.foldl (fun n c => n * 10 + (c.toNat - '0'.toNat)) 0
    if 65535 < n then .error .badPort
    else .ok (if usualPort? scheme = some n then none else some n)
  else .error .badPort

def readHost (cs : List Char) : Except UrlFault String :=
  if cs.isEmpty then .error .emptyHost
  else if cs.any fun c => hostSpecial.contains c || c.toNat < 0x20 then .error .badHost
  else .ok (String.ofList (cs.map Char.toLower))

/-- The part up to a character, and what follows that, if the character occurs. -/
def cutAt (c : Char) (cs : List Char) : List Char × Option (List Char) :=
  match cs.dropWhile (· ≠ c) with
  | [] => (cs, none)
  | _ :: rest => (cs.takeWhile (· ≠ c), some rest)

def ofText (text : String) : Except UrlFault Url := do
  let cs := text.toList.dropWhile (·.toNat ≤ 0x20)
  let cs := (cs.reverse.dropWhile (·.toNat ≤ 0x20)).reverse
  let cs := cs.filter fun c => c ≠ '\t' && c ≠ '\n' && c ≠ '\r'
  let scheme := cs.takeWhile isSchemeChar
  match scheme, cs.dropWhile isSchemeChar with
  | first :: _, ':' :: rest =>
    if !isLetter first then .error .noScheme
    else
      let scheme := String.ofList (scheme.map Char.toLower)
      let (rest, fragment) := cutAt '#' rest
      let (rest, query) := cutAt '?' rest
      let rest := rest.dropWhile isSlash
      let authority := rest.takeWhile (!isSlash ·)
      let (user, hostPort) := match cutAt '@' authority with
        | (user, some hostPort) => (String.ofList user, hostPort)
        | (_, none) => ("", authority)
      let (host, port) := cutAt ':' hostPort
      let host ← readHost host
      let port ← readPort scheme (port.getD [])
      let path := resolveDots [] (pieces ((rest.dropWhile (!isSlash ·)).drop 1))
      return ⟨scheme, user, host, port, path, query.map (escape querySpecial),
        fragment.map (escape fragmentSpecial)⟩
  | _, _ => .error .noScheme

/-! ## Writing -/

/-- The part of an address that is sent to its host. -/
def target (u : Url) : String :=
  "/" ++ String.intercalate "/" u.path ++ (u.query.elim "" fun q => "?" ++ q)

def toText (u : Url) : String :=
  u.scheme ++ "://" ++ (if u.user = "" then "" else u.user ++ "@") ++ u.host
    ++ (u.port.elim "" fun p => ":" ++ toString p) ++ u.target
    ++ (u.fragment.elim "" fun f => "#" ++ f)

end Url

end EventUpload
