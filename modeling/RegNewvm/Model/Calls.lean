import RegNewvm.Lib.Interaction
import RegNewvm.Lib.Value

/-!
# What the scripts call

The operations of the scripts: output, one HTTP exchange, and the three calls of the vSphere SDK.
The SDK and the HTTP library are not part of the repository; an SDK call may die, an HTTP exchange
always yields a response.
-/

namespace RegNewvm

open Interaction Perl

inductive Method
  | get
  | post
  deriving DecidableEq

/-- `HTTP::Request->new(method => url)`, with the URL string as the script built it. -/
structure Request where
  method : Method
  url : String
  deriving DecidableEq

/-- The fields `_rc` and `_content` of an `HTTP::Response`. -/
structure Reply where
  rc : ℕ
  content : String

/-- `Common::SampleBase->new('params' => \%params)`, identified by its parameters. -/
structure SampleBase where
  params : List (String × String)

/-- A stub made from the stub factory of a sample base. -/
structure Stub where
  base : SampleBase
  serviceName : String

/-- The summary of a VM as vCenter lists it. -/
structure Vm where
  name : String

inductive Op
  | print (text : String)
  | dump (response : Reply)
  | http (request : Request)
  | newSampleBase (params : List (String × String))
  | createStub (base : SampleBase) (serviceName : String)
  | list (stub : Stub)

/-- What each operation is answered with. -/
def Ans : Op → Type
  | .print _ => PUnit
  | .dump _ => PUnit
  | .http _ => Reply
  | .newSampleBase _ => Except String PUnit
  | .createStub _ _ => Except String PUnit
  | .list _ => Except String (List Vm)

/-- A script, or a part of one. -/
abbrev Script := Prog Op Ans

def print (text : String) : Script PUnit := Prog.ask (Op.print text)

def dump (response : Reply) : Script PUnit := Prog.ask (Op.dump response)

/-- `$ua->request($request)` -/
def request (method : Method) (url : String) : Script Reply := Prog.ask (Op.http ⟨method, url⟩)

/-- The call does not change anything outside the script: it is no POST. -/
def Quiet : Op → Prop
  | .http req => req.method = .get
  | _ => True

/-- The request that a call makes. -/
def requestOf : Op → Option Request
  | .http req => some req
  | _ => none

/-- The POST that a call makes. -/
def postOf : Op → Option Request
  | .http ⟨.post, url⟩ => some ⟨.post, url⟩
  | _ => none

theorem postOf_eq_none {op : Op} (h : Quiet op) : postOf op = none := by
  match op, h with
  | .http ⟨.get, _⟩, _ => rfl
  | .print _, _ => rfl
  | .dump _, _ => rfl
  | .newSampleBase _, _ => rfl
  | .createStub _ _, _ => rfl
  | .list _, _ => rfl

theorem quiet_print (text : String) : Only Quiet (print text) :=
  Only.ask trivial

theorem quiet_get (url : String) : Only Quiet (request .get url) :=
  Only.ask rfl

end RegNewvm
