/-
This file is how Go's `net/url` reads a URL and writes it again, for URLs that
have a scheme and a plain host: `scheme://host/path?query#fragment`. Reading
unescapes the path and the fragment and keeps the text they had only as a hint.
Writing takes the hint where it is a valid encoding, and escapes otherwise. So a
URL that is read and written is not always the text it was: a byte that has to be
escaped, and was not, comes out as a percent and two digits.
-/

import Mathlib.Data.List.TakeWhile
import ConsensusDB.Lib.Wire

namespace Url

open Wire

/-! ### Escaping -/

/-- The part of the URL that is escaped. -/
inductive Encoding where
  | path
  | fragment
  deriving DecidableEq, Repr

def isLower (byte : UInt8) : Bool := 97 ≤ byte && byte ≤ 122

def isAlphanumeric (byte : UInt8) : Bool :=
  isLower byte || (65 ≤ byte && byte ≤ 90) || (48 ≤ byte && byte ≤ 57)

def shouldEscape (mode : Encoding) (byte : UInt8) : Bool :=
  if isAlphanumeric byte then false
  else if (str "-_.~").contains byte then false
  else if (str "$&+,/:;=?@").contains byte then
    match mode with
    | .path => byte = 63
    | .fragment => false
  else if mode = .fragment && (str "!()*").contains byte then false
  else true

/-- An upper-case hexadecimal digit. -/
def upperHex (digit : UInt8) : UInt8 := if digit < 10 then 48 + digit else 55 + digit

def unhex (byte : UInt8) : Option UInt8 :=
  if 48 ≤ byte && byte ≤ 57 then some (byte - 48)
  else if 97 ≤ byte && byte ≤ 102 then some (byte - 87)
  else if 65 ≤ byte && byte ≤ 70 then some (byte - 55)
  else none

def escape (mode : Encoding) (bytes : Bytes) : Bytes :=
  bytes.flatMap fun byte =>
    if shouldEscape mode byte then [37, upperHex (byte / 16), upperHex (byte % 16)] else [byte]

/-- `none` is an invalid escape. -/
def unescape : Bytes → Option Bytes
  | [] => some []
  | byte :: rest =>
    if byte = 37 then
      match rest with
      | high :: low :: rest =>
        match unhex high, unhex low with
        | some high, some low => (unescape rest).map (List.cons (high * 16 + low))
        | _, _ => none
      | _ => none
    else (unescape rest).map (List.cons byte)

/-- Whether a text needs no further escape. -/
def validEncoded (mode : Encoding) (bytes : Bytes) : Bool :=
  bytes.all fun byte => (str "!$&'()*+,;=:@[]%").contains byte || !shouldEscape mode byte

/-- A component: what it means, and the text it had where this is not the usual encoding. -/
structure Part where
  plain : Bytes
  raw : Bytes
  deriving DecidableEq, Repr

def Part.set (mode : Encoding) (raw : Bytes) : Option Part :=
  (unescape raw).map fun plain => ⟨plain, if escape mode plain = raw then [] else raw⟩

def Part.escaped (mode : Encoding) (part : Part) : Bytes :=
  if part.raw ≠ [] ∧ validEncoded mode part.raw = true ∧ unescape part.raw = some part.plain then
    part.raw
  else escape mode part.plain

/-! ### Reading and writing -/

/-- `strings.Cut` at a byte. -/
def cut (separator : UInt8) (bytes : Bytes) : Bytes × Bytes :=
  (bytes.takeWhile (· ≠ separator), (bytes.dropWhile (· ≠ separator)).drop 1)

def isControl (byte : UInt8) : Bool := byte < 32 || byte = 127

/-- The text before the query, whether a lone question mark ends it, and the query. -/
def cutQuery (rest : Bytes) : Bytes × Bool × Bytes :=
  if rest.getLast? = some 63 ∧ rest.count 63 = 1 then (rest.dropLast, true, [])
  else ((cut 63 rest).1, false, (cut 63 rest).2)

structure Parsed where
  scheme : Bytes
  host : Bytes
  path : Part
  forceQuery : Bool
  rawQuery : Bytes
  fragment : Part
  deriving DecidableEq, Repr

/-- `Parse` of a URL with a lower-case scheme and a host of letters and digits. `none` is an error,
or a URL of another form. -/
def parse (text : Bytes) : Option Parsed :=
  let (reference, fragment) := cut 35 text
  if reference.any isControl then none
  else
    let (scheme, rest) := cut 58 reference
    let (rest, forceQuery, rawQuery) := cutQuery rest
    match rest with
    | 47 :: 47 :: authority =>
      let host := authority.takeWhile (· ≠ 47)
      if scheme ≠ [] ∧ scheme.all isLower = true ∧ host ≠ [] ∧ host.all isAlphanumeric = true then
        match Part.set .path (authority.dropWhile (· ≠ 47)), Part.set .fragment fragment with
        | some path, some fragment => some ⟨scheme, host, path, forceQuery, rawQuery, fragment⟩
        | _, _ => none
      else none
    | _ => none

/-- `String`. The path is empty or starts with a slash, as the host is not empty. -/
def Parsed.string (url : Parsed) : Bytes :=
  url.scheme ++ str "://" ++ url.host ++ url.path.escaped .path ++
    (if url.forceQuery || url.rawQuery ≠ [] then 63 :: url.rawQuery else []) ++
    (if url.fragment.plain ≠ [] then 35 :: url.fragment.escaped .fragment else [])

/-- A URL that is read and written again. -/
def reserialize (text : Bytes) : Option Bytes := (parse text).map Parsed.string

theorem reserialize_ne_nil {text written : Bytes} (isWritten : reserialize text = some written) :
    written ≠ [] := by
  obtain ⟨url, _, rfl⟩ := Option.map_eq_some_iff.mp isWritten
  have marks : str "://" ≠ [] := by decide
  simp [Parsed.string, marks]

/-- A text with the separator in it is put together again from its two parts. -/
theorem cut_append (separator : UInt8) (bytes : Bytes) (member : separator ∈ bytes) :
    (cut separator bytes).1 ++ separator :: (cut separator bytes).2 = bytes := by
  induction bytes with
  | nil => cases member
  | cons byte rest inductionHypothesis =>
    by_cases same : byte = separator
    · simp [cut, same]
    · have later : separator ∈ rest := by
        rcases List.mem_cons.mp member with first | later
        · exact absurd first.symm same
        · exact later
      have joined := inductionHypothesis later
      simp only [cut] at joined ⊢
      simp only [List.takeWhile_cons, List.dropWhile_cons,
        decide_eq_true (show byte ≠ separator from same), if_true, List.cons_append, joined]

end Url
