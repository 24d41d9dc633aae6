import NearClone.Document.Reader
import NearClone.Encoding.Report
import NearClone.Form.Request
import NearClone.Service.Target
import NearClone.Text.Capital

/-!
The service: calls by method and path, answered with a status and a document.
-/

set_option autoImplicit false
set_option relaxedAutoImplicit false

namespace NearClone.Service

open Form

variable {α : Type} [Numeral α]

/-- A call of the service. -/
structure Call where
  method : String
  target : String
  body : Option String := none

/-- An answer of the service. -/
structure Response (α : Type) where
  status : Nat
  body : Document α

/-- The answer to a call that cannot be carried out. -/
def refusal (status : Nat) (detail : Document α) : Response α :=
  ⟨status, .object [("detail", detail)]⟩

/-- The answer that the service is up. -/
def health (settings : Settings α) : Document α :=
  .object
    [("status", .text "healthy"),
     ("service", .text "duplication-analyzer"),
     ("default_preset", .text settings.preset)]

/-- A preset with its most important values. -/
def presetEntry (p : Preset) : Option (Document α) :=
  match (Config.ofPreset (some p.name) [] : Except (ConfigError α) (Config α)) with
  | .error _ => none
  | .ok c =>
    some (.object
      [("name", .text p.name),
       ("min_lines", .int c.minLines),
       ("threshold", .number c.threshold)])

/-- The presets. -/
def presets : Document α := .list (Preset.all.filterMap presetEntry)

/-- Why a call has no answer. -/
inductive Failure where
  /-- The answer would quote a number that is not finite. -/
  | unquotable
  /-- The target is malformed. -/
  | badTarget (flaw : TargetFlaw)
  /-- The method asks for an answer without its body. -/
  | bodiless
  deriving DecidableEq, Repr

namespace Failure

/-- The message of a failure. -/
def message : Failure → String
  | unquotable => "Out of range float values are not JSON compliant"
  | badTarget flaw => flaw.message
  | bodiless => "Expecting value: line 1 column 1 (char 0)"

end Failure

/-- The answer to faults in a body. Each fault quotes what it is about. -/
def refuse (given : Document α) (faults : List (Fault α)) : Except Failure (Response α) :=
  if faults.all fun f ↦ (Fault.subject f.path given).isFinite then
    .ok (refusal 422 (.list (faults.map fun f ↦ Fault.document (f.within (.field "body")))))
  else .error .unquotable

/-- The answer to a request for a survey. -/
def survey (settings : Settings α) (clock : Clock α) (request : Request α) : Response α :=
  match request.config settings with
  | .error e => refusal 422 (.text e.message)
  | .ok config => ⟨200, ((Survey.ofConfig config).project clock request.entries).document⟩

/-- The answer to a call for a survey. No body at all, a text that is no document and a document
that is no request are told apart. -/
def analyze (settings : Settings α) (clock : Clock α) (body : Option String) :
    Except Failure (Response α) :=
  match body.filter fun s ↦ !s.isEmpty with
  | none => refuse .null [⟨.missing, []⟩]
  | some s =>
    let unreadable := refusal 400 (.text "There was an error parsing the body")
    match (Text.reread? s).map Document.parse with
    | none | some (.error .excessive) => .ok unreadable
    | some (.error (.malformed offset)) => refuse .null [⟨.notDocument, [.item offset]⟩]
    | some (.ok given) =>
      match Request.reading given with
      | .faulty faults => refuse given faults
      | .ok request => .ok (survey settings clock request)

/-- The answer to a call that asks for one in full. A path that is known under another method is
told apart from one that is not known at all. -/
def answer (settings : Settings α) (clock : Clock α) (method path : String) (body : Option String) :
    Except Failure (Response α) :=
  let wrongMethod := refusal 405 (.text "Method Not Allowed")
  match path with
  | "/health" => .ok (if method = "GET" then ⟨200, health settings⟩ else wrongMethod)
  | "/api/duplication/presets" => .ok (if method = "GET" then ⟨200, presets⟩ else wrongMethod)
  | "/api/duplication/analyze" =>
    if method = "POST" then analyze settings clock body else .ok wrongMethod
  | _ => .ok (refusal 404 (.text "Not Found"))

/-- The answer to a call. Methods count in any case. -/
def respond (settings : Settings α) (clock : Clock α) (call : Call) :
    Except Failure (Response α) :=
  let method := Text.inCapitals call.method
  match targetFlaw? call.target with
  | some flaw => .error (.badTarget flaw)
  | none =>
    if method = "HEAD" then .error .bodiless
    else answer settings clock method (pathOf call.target) call.body

end NearClone.Service
