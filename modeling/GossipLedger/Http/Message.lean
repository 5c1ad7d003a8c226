import GossipLedger.Json.Document

/-!
# Requests and responses

## Main definitions

* `Method`, `Request` — what a client asks.
* `Request.path` — the path within the target of a request.
* `ResponseStatus`, `Response` — what it is told.
-/

namespace GossipLedger

/-- What is to be done with a resource. -/
inductive Method
  | get
  /-- As `get`, but without a body in the response. -/
  | head
  | post
  | delete
  /-- Any other method. -/
  | other
  deriving DecidableEq, Repr

/-- The method of a given name; names are in upper case. -/
def Method.ofText (s : String) : Method :=
  if s = "GET" then .get
  else if s = "HEAD" then .head
  else if s = "POST" then .post
  else if s = "DELETE" then .delete
  else .other

/-- What a client asks. -/
structure Request where
  method : Method
  /-- The path, perhaps with a scheme and an authority before it and a query after
  it. -/
  target : String
  /-- What the body is said to be. -/
  contentType : Option String
  body : Bytes

/-- Whether a character may stand in the name of a scheme. -/
def isSchemeChar (c : Char) : Bool := c.isAlphanum || c = '+' || c = '-' || c = '.'

/-- What follows a scheme and an authority, if the target begins with them. -/
def afterAuthority? (target : List Char) : Option (List Char) :=
  match target.dropWhile isSchemeChar with
  | ':' :: '/' :: '/' :: rest => some (rest.dropWhile fun c => c ≠ '/' && c ≠ '?' && c ≠ '#')
  | _ => none

/-- A target up to its query or its fragment. -/
def beforeQuery (target : List Char) : List Char := target.takeWhile fun c => c ≠ '?' && c ≠ '#'

/-- The path of a request.  After an authority no path means the path `/`. -/
def Request.path (q : Request) : List Char :=
  match afterAuthority? q.target.toList with
  | some rest => if beforeQuery rest = [] then ['/'] else beforeQuery rest
  | none => beforeQuery q.target.toList

/-- A target that begins with `/` is its own path up to the query. -/
theorem Request.path_of_slash {q : Request} {rest : List Char} (h : q.target.toList = '/' :: rest) :
    q.path = beforeQuery ('/' :: rest) := by
  have ha : afterAuthority? ('/' :: rest) = none := by
    rw [afterAuthority?, List.dropWhile_cons_of_neg (by decide)]
    rfl
  rw [Request.path, h, ha]

/-- How a request went. -/
inductive ResponseStatus
  | ok
  | badRequest
  | notFound
  | methodNotAllowed
  | payloadTooLarge
  | unsupportedMediaType
  | unprocessable
  | internalError
  | unavailable
  deriving DecidableEq, Repr

/-- The number of a status. -/
def ResponseStatus.code : ResponseStatus → Nat
  | ok => 200
  | badRequest => 400
  | notFound => 404
  | methodNotAllowed => 405
  | payloadTooLarge => 413
  | unsupportedMediaType => 415
  | unprocessable => 422
  | internalError => 500
  | unavailable => 503

/-- What a client is told. -/
structure Response where
  status : ResponseStatus
  /-- A document, unless the request was turned away before anyone looked at what
  it asks, or a body was not asked for. -/
  body : Option Json.Document

/-- The response as it is sent: one to `head` has no body. -/
def Response.forMethod (a : Response) (m : Method) : Response :=
  if m = .head then { a with body := none } else a

end GossipLedger
