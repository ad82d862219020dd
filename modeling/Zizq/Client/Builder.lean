import Mathlib.Data.List.DropRight
import Zizq.Client.Page
import Zizq.Patch.Budget

/-! The client builder.

`build` admits every base URL that parses. The `url` crate and `reqwest` are
third-party code and parameters here; of the first the URL standard says which texts
it must parse, and that `scheme:text`, where the scheme has no authority and the text
does not start with a slash, becomes a URL whose path has no segments. On such a URL
`Client::url` panics, and on no other (`url_isSome_iff`). -/
namespace Zizq.Client
open Patch

/-! ### Parsed URLs -/

/-- The path of a URL: segments, or a text that has none. -/
inductive UrlPath where
  | segments (path : Url)
  | text (text : List Char)

/-- A parsed URL of any scheme. Its query and its fragment are the text behind its path. -/
structure ParsedUrl where
  scheme : List Char
  authority : Option (List Char)
  path : UrlPath
  behind : List Char

namespace ParsedUrl

def cannotBeABase (url : ParsedUrl) : Bool :=
  match url.path with
  | .segments _ => false
  | .text _ => true

def pathSegmentsMut (url : ParsedUrl) : Except Unit Url :=
  match url.path with
  | .segments path => .ok path
  | .text _ => .error ()

theorem pathSegmentsMut_isOk (url : ParsedUrl) : url.pathSegmentsMut.isOk = !url.cannotBeABase := by
  unfold pathSegmentsMut cannotBeABase
  cases url.path <;> rfl

end ParsedUrl

/-! ### What the URL standard parses -/

def isC0OrSpace (c : Char) : Bool := c.toNat ≤ 32

/-- The text without what is stripped before it is parsed. -/
def stripped (text : String) : List Char :=
  ((text.toList.dropWhile isC0OrSpace).rdropWhile isC0OrSpace).filter (!isTabOrNewline ·)

def isSchemeChar (c : Char) : Bool := c.isAlphanum || c = '+' || c = '-' || c = '.'

/-- The scheme in lower case, and what follows its colon. -/
def splitScheme (text : List Char) : Option (List Char × List Char) :=
  match text.takeWhile isSchemeChar, text.dropWhile isSchemeChar with
  | c :: name, ':' :: rest => if c.isAlpha then some ((c :: name).map Char.toLower, rest) else none
  | _, _ => none

/-- The schemes whose URLs have segments whatever follows the colon. -/
def specialSchemes : List (List Char) :=
  ["ftp".toList, "file".toList, "http".toList, "https".toList, "ws".toList, "wss".toList]

/-- `scheme:text` without a slash behind the colon, for a scheme that is not special. -/
def isRootless (text : String) : Bool :=
  match splitScheme (stripped text) with
  | some (scheme, rest) => !specialSchemes.contains scheme && rest.head? != some '/'
  | none => false

/-- `Url::parse`: a rootless text always parses, to a URL without segments, and no other text does to
such a one. -/
structure UrlParser extends SegmentSet where
  parse : String → Except String ParsedUrl
  parse_rootless : ∀ text, isRootless text = true → ∃ url, parse text = .ok url ∧ url.cannotBeABase = true
  parse_rooted : ∀ text url, isRootless text = false → parse text = .ok url → url.cannotBeABase = false

/-! ### The builder -/

inductive Protocol where
  | http2PriorKnowledge | http1Only

structure PoolSettings (κ ι : Type) where
  protocol : Protocol
  poolIdleTimeout : Duration
  tcpKeepalive : Duration
  connectTimeout : Duration
  readTimeout : Duration
  rootCertificate : Option κ := none
  identity : Option ι := none

/-- What `reqwest` makes of PEM data and of the settings of a connection pool. -/
structure Reqwest (κ ι η : Type) where
  certificate : Bytes → Except String κ
  identity : Bytes → Except String ι
  build : PoolSettings κ ι → Except String η

structure ClientBuilder where
  url : Option String := none
  format : Option Format := none
  connectTimeout : Option Duration := none
  readTimeout : Option Duration := none
  streamIdleTimeout : Option Duration := none
  caCert : Option Bytes := none
  identity : Option (Bytes × Bytes) := none

/-- What the clones of a client share. -/
structure Inner (η : Type) where
  baseUrl : ParsedUrl
  format : Format
  http2 : η
  http1 : η

def seconds (secs : UInt64) : Duration := ⟨secs, 0, by decide⟩

def defaultConnectTimeout : Duration := seconds 10
def defaultReadTimeout : Duration := seconds 30
def defaultStreamIdleTimeout : Duration := seconds 30
def defaultTcpKeepalive : Duration := seconds 60

section Build
variable {κ ι η : Type} (reqwest : Reqwest κ ι η)

/-- The chain and the key as one PEM document. -/
def loadIdentity (certPem keyPem : Bytes) : Except ZizqError ι :=
  let combined := certPem ++ (if certPem.getLast? = some 10 then [] else [10]) ++ keyPem
  (reqwest.identity combined).mapError fun e => .tls ("invalid client identity: " ++ e)

def ClientBuilder.applyTls (builder : ClientBuilder) (settings : PoolSettings κ ι) :
    Except ZizqError (PoolSettings κ ι) := do
  let settings ← match builder.caCert with
    | some ca =>
      let cert ← (reqwest.certificate ca).mapError fun e => .tls ("invalid CA certificate: " ++ e)
      pure { settings with rootCertificate := some cert }
    | none => pure settings
  match builder.identity with
  | some (certPem, keyPem) =>
    let identity ← loadIdentity reqwest certPem keyPem
    return { settings with identity := some identity }
  | none => return settings

def ClientBuilder.build (parser : UrlParser) (builder : ClientBuilder) : Except ZizqError (Inner η) := do
  let rawUrl ← builder.url.elim (.error .missingUrl) .ok
  let baseUrl ← (parser.parse rawUrl).mapError .invalidUrl
  let connectTimeout := builder.connectTimeout.getD defaultConnectTimeout
  let http2 ← builder.applyTls reqwest
    { protocol := .http2PriorKnowledge
      poolIdleTimeout := seconds 90
      tcpKeepalive := defaultTcpKeepalive
      connectTimeout := connectTimeout
      readTimeout := builder.readTimeout.getD defaultReadTimeout }
  let http2 ← (reqwest.build http2).mapError .transport
  let http1 ← builder.applyTls reqwest
    { protocol := .http1Only
      poolIdleTimeout := seconds 90
      tcpKeepalive := defaultTcpKeepalive
      connectTimeout := connectTimeout
      readTimeout := builder.streamIdleTimeout.getD defaultStreamIdleTimeout }
  let http1 ← (reqwest.build http1).mapError .transport
  return { baseUrl := baseUrl, format := builder.format.getD .messagePack, http2 := http2, http1 := http1 }

/-- `Client::url`; `none` where `expect` panics. -/
def Inner.url (set : SegmentSet) (client : Inner η) (segments : List String) : Option ParsedUrl :=
  match client.baseUrl.pathSegmentsMut with
  | .ok path => some { client.baseUrl with path := .segments (path.popIfEmpty.extend set segments) }
  | .error _ => none

/-! ### When `url` panics -/

/-- On a URL with segments it is the URL of the calls. -/
theorem Inner.url_eq (set : SegmentSet) {client : Inner η} {path : Url}
    (h : client.baseUrl.path = .segments path) (segments : List String) :
    client.url set segments =
      some { client.baseUrl with path := .segments (Client.url set path segments) } := by
  simp only [url, ParsedUrl.pathSegmentsMut, h]
  rfl

theorem Inner.url_isSome (set : SegmentSet) (client : Inner η) (segments : List String) :
    (client.url set segments).isSome = !client.baseUrl.cannotBeABase := by
  rw [← ParsedUrl.pathSegmentsMut_isOk, url]
  cases client.baseUrl.pathSegmentsMut <;> rfl

theorem bind_eq_ok {α β ε : Type} {x : Except ε α} {f : α → Except ε β} {b : β} (h : x >>= f = .ok b) :
    ∃ a, x = .ok a ∧ f a = .ok b := by
  cases x with
  | error e => cases h
  | ok a => exact ⟨a, rfl, h⟩

/-- The base URL of a client is what its builder's text parses to. -/
theorem ClientBuilder.build_baseUrl {parser : UrlParser} {builder : ClientBuilder} {client : Inner η}
    {text : String} (hurl : builder.url = some text) (h : builder.build reqwest parser = .ok client) :
    parser.parse text = .ok client.baseUrl := by
  rw [build, hurl] at h
  obtain ⟨rawUrl, hraw, h⟩ := bind_eq_ok h
  obtain rfl : text = rawUrl := Except.ok.inj hraw
  obtain ⟨baseUrl, hbase, h⟩ := bind_eq_ok h
  obtain ⟨_, -, h⟩ := bind_eq_ok h
  obtain ⟨_, -, h⟩ := bind_eq_ok h
  obtain ⟨_, -, h⟩ := bind_eq_ok h
  obtain ⟨_, -, h⟩ := bind_eq_ok h
  obtain rfl := Except.ok.inj h
  cases hparse : parser.parse text with
  | error e =>
    rw [hparse] at hbase
    cases hbase
  | ok url =>
    rw [hparse] at hbase
    exact congrArg _ (Except.ok.inj hbase)

end Build

/-- **Main theorem.** A client that `build` makes of a text panics on no list of segments exactly if the
text is not rootless. -/
theorem url_isSome_iff {κ ι η : Type} (reqwest : Reqwest κ ι η) (parser : UrlParser)
    (builder : ClientBuilder) {text : String} (hurl : builder.url = some text) {client : Inner η}
    (h : builder.build reqwest parser = .ok client) :
    (∀ segments, (client.url parser.toSegmentSet segments).isSome) ↔ isRootless text = false := by
  have hparse := ClientBuilder.build_baseUrl reqwest hurl h
  simp only [Inner.url_isSome, Bool.not_eq_true', forall_const]
  cases hrootless : isRootless text with
  | false => simp [parser.parse_rooted text _ hrootless hparse]
  | true =>
    obtain ⟨url, hurl', hbase⟩ := parser.parse_rootless text hrootless
    obtain rfl := Except.ok.inj (hurl'.symm.trans hparse)
    simp [hbase]

/-- A parser of rootless texts. -/
def rootlessParser : UrlParser where
  toSegmentSet := specialPathSegment
  parse text :=
    match isRootless text, splitScheme (stripped text) with
    | true, some (scheme, rest) =>
      .ok
        { scheme := scheme
          authority := none
          path := .text (rest.takeWhile fun c => c ≠ '?' ∧ c ≠ '#')
          behind := rest.dropWhile fun c => c ≠ '?' ∧ c ≠ '#' }
    | _, _ => .error "relative URL without a base"
  parse_rootless text h := by
    cases hsplit : splitScheme (stripped text) with
    | none => simp [isRootless, hsplit] at h
    | some split => simp [h, ParsedUrl.cannotBeABase]
  parse_rooted text url h hparse := by simp [h] at hparse

/-- A `reqwest` that accepts everything. -/
def lenient : Reqwest Unit Unit Unit := ⟨fun _ => .ok (), fun _ => .ok (), fun _ => .ok ()⟩

theorem build_lenient {parser : UrlParser} {text : String} {url : ParsedUrl} (h : parser.parse text = .ok url) :
    ∃ client, ClientBuilder.build lenient parser { url := some text } = .ok client := by
  refine ⟨⟨url, .messagePack, (), ()⟩, ?_⟩
  change ((parser.parse text).mapError ZizqError.invalidUrl).bind _ = _
  rw [h]
  rfl

/-- Without a scheme in front, the host becomes the scheme. -/
theorem isRootless_localhost : isRootless "localhost:7890" = true := rfl

theorem url_isSome_localhost :
    ∃ client, ClientBuilder.build lenient rootlessParser { url := some "localhost:7890" } = .ok client ∧
      ((∀ segments, (client.url rootlessParser.toSegmentSet segments).isSome) ↔
        isRootless "localhost:7890" = false) := by
  obtain ⟨url, hparse, -⟩ := rootlessParser.parse_rootless _ isRootless_localhost
  obtain ⟨client, hbuild⟩ := build_lenient hparse
  exact ⟨client, hbuild, url_isSome_iff lenient rootlessParser _ rfl hbuild⟩

theorem not_url_isSome_localhost : ¬ ∀ (parser : UrlParser) (builder : ClientBuilder) (client : Inner Unit),
    builder.build lenient parser = .ok client →
      ∀ segments, (client.url parser.toSegmentSet segments).isSome := by
  intro h
  obtain ⟨url, hparse, hbase⟩ := rootlessParser.parse_rootless _ isRootless_localhost
  obtain ⟨client, hbuild⟩ := build_lenient hparse
  have hsome := h rootlessParser _ client hbuild ["jobs"]
  have hclient := ClientBuilder.build_baseUrl lenient rfl hbuild
  rw [hparse] at hclient
  rw [Inner.url_isSome, ← Except.ok.inj hclient, hbase] at hsome
  cases hsome

end Zizq.Client
