import GitComet.Process.Stream
import GitComet.Text.Scan

namespace GitComet.Blame
open ByteOrder Text Process Utf8

def tab : UInt8 := 9
def newline : UInt8 := 10
def carriageReturn : UInt8 := 13
def space : UInt8 := 32
def slash : UInt8 := 47

def i64Max : ℕ := 9223372036854775807

def ascii (text : List Char) : Bytes := text.map fun c => UInt8.ofNat c.toNat

structure BlameLine where
  commitId : List Char
  author : List Char
  authorTimeUnix : Option ℤ
  summary : List Char
  body : Option (List Char)
  line : List Char
  priorExists : Bool
  sourcePath : Option Bytes
  priorCommit : Option (List Char)
  deriving DecidableEq

structure BlameState where
  commitId : Option (List Char) := none
  author : Option (List Char) := none
  authorTimeUnix : Option ℤ := none
  summary : Option (List Char) := none
  priorExists : Bool := false
  priorCommit : Option (List Char) := none
  filename : Option Bytes := none
  deriving DecidableEq

def isAsciiHexDigit (c : Char) : Bool := c.isDigit || "abcdefABCDEF".toList.contains c

def isHexObjectId (token : List Char) : Bool :=
  decide (byteLen token = 40 ∨ byteLen token = 64) && token.all isAsciiHexDigit

def isUncommittedCommitId (id : List Char) : Bool := id.isEmpty || id.all fun c => c == '0'

def notCommitted : List Char := "Not Committed Yet".toList

def stripByte (suffix : UInt8) (bytes : Bytes) : Bytes :=
  if bytes.getLast? = some suffix then bytes.dropLast else bytes

def stripBytes (mark bytes : Bytes) : Option Bytes :=
  if mark.isPrefixOf bytes then some (bytes.drop mark.length) else none

def blameLineText (bytes : Bytes) : Option (List Char) :=
  let bytes := stripByte carriageReturn (stripByte newline bytes)
  match fromUtf8 bytes with
  | .ok text => some text
  | .error _ => bytesToTextPreservingUtf8 bytes

def readDigits (digits : List Char) : Option ℕ :=
  if digits = [] ∨ ¬ digits.all Char.isDigit then none else some (Nat.ofDigitChars 10 digits 0)

def parseI64 : List Char → Option ℤ
  | '-' :: digits =>
    (readDigits digits).bind fun n => if n ≤ i64Max + 1 then some (-(n : ℤ)) else none
  | text => (readDigits (unsigned text)).bind fun n => if n ≤ i64Max then some (n : ℤ) else none

def splitOnce (line : List Char) : List Char × List Char :=
  (line.takeWhile fun c => decide (c ≠ ' '), (line.dropWhile fun c => decide (c ≠ ' ')).tail)

-- Whether a path has a root, with its parts; a leading `.` counts and a later one does not.
def pathComponents (path : Bytes) : Bool × List Bytes :=
  let parts := path.splitOn slash
  (decide (path.head? = some slash), (parts.take 1).filter (fun part => decide (part ≠ [])) ++
      (parts.drop 1).filter fun part => decide (part ≠ [] ∧ part ≠ ascii ['.']))

def samePath (path blamedPath : Bytes) : Bool :=
  decide (pathComponents path = pathComponents blamedPath)

def BlameState.set (state : BlameState) (key rest : List Char) : BlameState :=
  if key = "author".toList then { state with author := some rest }
  else if key = "author-time".toList then { state with authorTimeUnix := parseI64 (trim rest) }
  else if key = "summary".toList then { state with summary := some rest }
  else if key = "previous".toList then
    { state with priorExists := true, priorCommit := (nextWord rest).map Prod.fst }
  else if isHexObjectId key then { state with commitId := some key }
  else state

-- A line that is not UTF-8 is passed over, unless it holds a file name.
def BlameState.readLine (state : BlameState) (raw : Bytes) : BlameState :=
  match stripBytes (ascii "filename ".toList) raw with
  | some rest => { state with filename := some rest }
  | none =>
    match fromUtf8 raw with
    | .error _ => state
    | .ok line => state.set (splitOnce line).1 (splitOnce line).2

def BlameState.entry (state : BlameState) (text : List Char) (blamedPath : Bytes) : BlameLine :=
  let sha := state.commitId.getD []
  if isUncommittedCommitId sha then
    { commitId := sha
      author := notCommitted
      authorTimeUnix := none
      summary := notCommitted
      body := none
      line := text
      priorExists := false
      sourcePath := none
      priorCommit := state.priorCommit }
  else
    { commitId := sha
      author := state.author.getD []
      authorTimeUnix := state.authorTimeUnix
      summary := state.summary.getD []
      body := none
      line := text
      priorExists := state.priorExists
      sourcePath := state.filename.filter fun path => !samePath path blamedPath
      priorCommit := none }

def parseLines (blamedPath : Bytes) : BlameState → List Bytes → Option (List BlameLine)
  | _, [] => some []
  | state, raw :: rest =>
    if raw.head? = some tab then do
      let text ← blameLineText raw.tail
      let lines ← parseLines blamedPath {} rest
      some (state.entry text blamedPath :: lines)
    else parseLines blamedPath (state.readLine raw) rest

def parseBlamePorcelain (output blamedPath : Bytes) : Option (List BlameLine) :=
  parseLines blamedPath {} (output.splitOn newline)

abbrev Field := { bytes : Bytes // newline ∉ bytes }

abbrev ObjectId := { id : List Char // isHexObjectId id = true }

structure Signature where
  name : Field
  mail : Field
  time : ℕ
  zone : Field

structure PorcelainRecord where
  commitId : ObjectId
  originalLine : ℕ
  finalLine : ℕ
  groupLines : Option ℕ
  author : Signature
  committer : Signature
  summary : Field
  boundary : Bool
  previous : Option Field
  filename : Field
  content : Field

def keyed (key : List Char) (value : Bytes) : Bytes := ascii key ++ space :: value

def Signature.lines (role : List Char) (signature : Signature) : List Bytes :=
  [keyed role signature.name.val, keyed (role ++ "-mail".toList) signature.mail.val,
    keyed (role ++ "-time".toList) (ascii (decimal signature.time)),
    keyed (role ++ "-tz".toList) signature.zone.val]

def PorcelainRecord.position (record : PorcelainRecord) : List Char :=
  decimal record.originalLine ++ ' ' :: decimal record.finalLine ++
    (record.groupLines.map fun lines => ' ' :: decimal lines).getD []

def PorcelainRecord.headerLines (record : PorcelainRecord) : List Bytes :=
  keyed record.commitId.val (ascii record.position) ::
    (record.author.lines "author".toList ++ record.committer.lines "committer".toList ++
      [keyed "summary".toList record.summary.val] ++
      (if record.boundary then [ascii "boundary".toList] else []) ++
      record.previous.toList.map (fun rest => keyed "previous".toList rest.val) ++
      [keyed "filename".toList record.filename.val])

def PorcelainRecord.lines (record : PorcelainRecord) : List Bytes :=
  record.headerLines ++ [tab :: record.content.val]

def porcelain (records : List PorcelainRecord) (closed : Bool) : Bytes :=
  [newline].intercalate
    (records.flatMap PorcelainRecord.lines ++ if closed then [[]] else [])

end GitComet.Blame
