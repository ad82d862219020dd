import Zizq.Client.Error

/-! Formats, responses and what the client makes of them.

The codecs of the two formats are third-party code and a parameter here. What
became of a request is an `Exchange`: the transport failed, or there is a response,
whose body may still fail to arrive. `expectStatus` and `parseJobResponse` turn it
into the result of a call, and only a transport failure, a status the call does
not accept or a codec error makes it an error. -/
namespace Zizq.Client

inductive Format where
  | json | messagePack
deriving DecidableEq

namespace Format

def contentType : Format → String
  | .json => "application/json"
  | .messagePack => "application/msgpack"

def streamContentType : Format → String
  | .json => "application/x-ndjson"
  | .messagePack => "application/vnd.zizq.msgpack-stream"

/-- The header value up to its parameters, without the blanks around it. -/
def mime (s : String) : String :=
  let upToParams := s.toList.takeWhile (· ≠ ';')
  String.ofList ((upToParams.dropWhile Char.isWhitespace).reverse.dropWhile Char.isWhitespace).reverse

def fromContentType (s : String) : Option Format :=
  if mime s = "application/json" ∨ mime s = "application/x-ndjson" then some .json
  else if mime s = "application/msgpack" ∨ mime s = "application/vnd.zizq.msgpack-stream" then
    some .messagePack
  else none

/-- Every content type that a format announces is read back as that format. -/
theorem fromContentType_contentType (format : Format) :
    fromContentType format.contentType = some format ∧
      fromContentType format.streamContentType = some format := by
  cases format <;> decide

end Format

abbrev Bytes := List UInt8

structure Response where
  status : Nat
  contentType : Option String
  body : Except String Bytes

/-- What became of a request: a transport error, or a response. -/
abbrev Exchange := Except String Response

structure FailureRequest where
  message : String
  errorType : Option String
  backtrace : Option String
  retryAt : Option UInt64
  kill : Bool
deriving DecidableEq

/-- `serde_json` and `rmp_serde` on the bodies that the worker's calls send and receive. -/
structure Codec (J : Type) where
  encodeIds : Format → List String → Except String Bytes
  encodeFailure : Format → FailureRequest → Except String Bytes
  decodeApiError : Format → Bytes → Option String
  decodeJob : Format → Bytes → Except String J
  lossy : Bytes → String

section Calls
variable {J : Type} (codec : Codec J) (configured : Format)

/-- The message of an error body: in the assumed format, else in JSON, else as it is. -/
def extractErrorMessage (body : Bytes) (format : Format) : String :=
  match codec.decodeApiError format body with
  | some error => error
  | none =>
    match if format ≠ .json then codec.decodeApiError .json body else none with
    | some error => error
    | none => codec.lossy body

def responseFormat (response : Response) : Format :=
  (response.contentType.bind Format.fromContentType).getD configured

def expectStatus (response : Response) (ok : List Nat) : Except ZizqError Unit :=
  if response.status ∈ ok then .ok ()
  else
    match response.body with
    | .error source => .error (.transport source)
    | .ok body =>
      .error (.response response.status
        (extractErrorMessage codec body (responseFormat configured response)))

def Response.isSuccess (response : Response) : Bool := 200 ≤ response.status && response.status ≤ 299

def parseJobResponse (response : Response) : Except ZizqError J :=
  match response.body with
  | .error source => .error (.transport source)
  | .ok body =>
    let format := responseFormat configured response
    if response.isSuccess then (codec.decodeJob format body).mapError .decode
    else .error (.response response.status (extractErrorMessage codec body format))

/-- The result of `report_success_bulk(ids)` when its request, if one is sent, becomes `exchange`. -/
def reportSuccessBulk (ids : List String) (exchange : Exchange) : Except ZizqError Unit :=
  match codec.encodeIds configured ids with
  | .error message => .error (.encode message)
  | .ok _ =>
    match exchange with
    | .error source => .error (.transport source)
    | .ok response => expectStatus codec configured response [204, 422]

/-- The result of a failure report when its request, if one is sent, becomes `exchange`. -/
def reportFailureRaw (req : FailureRequest) (exchange : Exchange) : Except ZizqError J :=
  match codec.encodeFailure configured req with
  | .error message => .error (.encode message)
  | .ok _ =>
    match exchange with
    | .error source => .error (.transport source)
    | .ok response => parseJobResponse codec configured response

/-! ### Which errors a call can end in -/

/-- A bulk acknowledgement succeeds exactly on the two statuses it accepts. -/
theorem reportSuccessBulk_ok_iff {ids : List String} {exchange : Exchange} :
    reportSuccessBulk codec configured ids exchange = .ok () ↔
      (∃ bytes, codec.encodeIds configured ids = .ok bytes) ∧
        ∃ response, exchange = .ok response ∧ (response.status = 204 ∨ response.status = 422) := by
  unfold reportSuccessBulk
  cases codec.encodeIds configured ids with
  | error message => simp
  | ok bytes =>
    cases exchange with
    | error source => simp
    | ok response =>
      simp only [expectStatus]
      split
      · next hmem => simpa using hmem
      · next hmem => cases response.body <;> simpa using hmem

end Calls

end Zizq.Client
