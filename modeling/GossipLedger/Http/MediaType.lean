/-!
# Media types

What the body of a request is said to be: a type and a subtype, such as
`application/json`, in either case, the subtype perhaps with a suffix after its
last `+`, and parameters after a `;`.

## Main definitions

* `MediaType` — type, subtype and suffix; parameters are checked and dropped.
* `MediaType.parse?` — the media type in a text.
* `MediaType.IsJson` — JSON, or a kind of it.
-/

namespace GossipLedger

/-- Whether a character may stand in a token. -/
def isTokenChar (c : Char) : Bool := c.isAlphanum || "!#$%&'*+-.^_`|~".toList.contains c

/-- A media type in lower case. -/
structure MediaType where
  type : String
  subtype : String
  /-- What follows the last `+` of the subtype. -/
  suffix : Option String
  deriving DecidableEq, Repr

/-! ### Parameters -/

/-- Places in a list of parameters, each a name, an equals sign and a value that
may stand between quotes. -/
inductive ParameterPlace
  /-- Before a parameter. -/
  | before
  /-- In a name. -/
  | name
  /-- Before a value. -/
  | equals
  /-- In a value without quotes. -/
  | bare
  /-- After an opening quote. -/
  | opened
  /-- In a value between quotes. -/
  | quoted
  /-- After a closing quote. -/
  | closed
  deriving DecidableEq, Repr

namespace ParameterPlace

/-- Whether a character may stand between quotes. -/
def isQuotable (c : Char) : Bool := 32 ≤ c.toNat && c.toNat < 127

/-- The place after a character that is allowed here.  A value between quotes is
not empty, so that a quote at its beginning belongs to it. -/
def next? : ParameterPlace → Char → Option ParameterPlace
  | before, c => if c = ' ' then some before else if isTokenChar c then some name else none
  | name, c => if c = '=' then some equals else if isTokenChar c then some name else none
  | equals, c => if c = '"' then some opened else if isTokenChar c then some bare else none
  | bare, c => if c = ';' then some before else if isTokenChar c then some bare else none
  | opened, c => if isQuotable c then some quoted else none
  | quoted, c => if c = '"' then some closed else if isQuotable c then some quoted else none
  | closed, c => if c = ' ' then some closed else if c = ';' then some before else none

/-- Whether a list may end here. -/
def mayEnd : ParameterPlace → Bool
  | before | equals | bare | closed => true
  | name | opened | quoted => false

end ParameterPlace

/-- Whether a text is a list of parameters. -/
def isParameterList (cs : List Char) : Bool :=
  match cs.foldlM ParameterPlace.next? .before with
  | some place => place.mayEnd
  | none => false

/-! ### Types -/

namespace MediaType

/-- A subtype and its suffix, parted at the last `+` that is not its first
character. -/
def splitSuffix (cs : List Char) : List Char × Option (List Char) :=
  let suffix := (cs.reverse.takeWhile (· ≠ '+')).reverse
  let front := cs.take (cs.length - (suffix.length + 1))
  if front = [] then (cs, none) else (front, some suffix)

/-- The characters in lower case. -/
def lower (cs : List Char) : String := String.ofList (cs.map Char.toLower)

/-- The media type in a text. -/
def parse? (s : String) : Option MediaType :=
  let cs := s.toList
  let type := cs.takeWhile isTokenChar
  match cs.dropWhile isTokenChar with
  | '/' :: rest =>
      let (subtype, suffix) := splitSuffix (rest.takeWhile isTokenChar)
      let found : MediaType := ⟨lower type, lower subtype, suffix.map lower⟩
      match rest.dropWhile isTokenChar with
      | [] => if type = [] then none else some found
      | ';' :: parameters =>
          if type = [] || subtype = [] || !isParameterList parameters then none else some found
      | _ => none
  | _ => none

/-- JSON, or a kind of it. -/
def IsJson (m : MediaType) : Prop :=
  m.type = "application" ∧ (m.subtype = "json" ∨ m.suffix = some "json")

instance (m : MediaType) : Decidable m.IsJson := by unfold IsJson; infer_instance

end MediaType

end GossipLedger
