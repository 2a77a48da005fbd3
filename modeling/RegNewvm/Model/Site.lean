import RegNewvm.Model.Calls
import RegNewvm.Lib.Uri

/-!
# The appliance and vCenter

What a run of the scripts talks to.  The appliance gives its replies in the order of the calls,
whatever they are, and answers a POST by adding the names in the `vms` value of the request to its
host list; vCenter lists its VMs.  The appliance reads a request as the URI object sends it.
-/

namespace RegNewvm

open Interaction Url

/-- What the URI object does: letters, digits, marks and reserved characters stay, and white space
at both ends is trimmed. -/
def defaultRules : UriRules where
  uric c := c.isAlphanum || c ∈ "-_.!~*'()".toList || c ∈ reserved
  blank c := c.isWhitespace
  uric_reserved c hc := by simp [hc]
  uric_alphanum c hc := by simp [hc]
  blank_not_uric c hc := by
    simp only [Char.isWhitespace, Bool.or_eq_true, decide_eq_true_eq] at hc
    rcases hc with ((rfl | rfl) | rfl) | rfl <;> decide

/-- The parameters that the appliance reads in the URL it is sent: what the URI object trims is
lost, and the appliance decodes what it escapes. -/
def readParams (url : String) : List Param := readQuery (defaultRules.trim url.toList)

/-- The names in a value of `vms`. -/
def splitVmHosts (vms : String) : List String := (vms.toList.splitOn ':').map String.ofList

/-- The names that the appliance reads in a request. -/
def requestedNames (url : String) : List String :=
  match valuesOf "vms".toList (readParams url) with
  | [some vms] => splitVmHosts (String.ofList vms)
  | _ => []

structure Site where
  /-- The replies of the appliance still to come. -/
  replies : List Reply
  vms : List Vm
  /-- The host list of the appliance. -/
  hosts : List String

namespace Site

/-- The host list after a request. -/
def register (site : Site) : Request → List String
  | ⟨.get, _⟩ => site.hosts
  | ⟨.post, url⟩ => site.hosts ++ requestedNames url

def answer : Peer Op Ans Site
  | site, .print _ => (⟨⟩, site)
  | site, .dump _ => (⟨⟩, site)
  | site, .http req =>
    (site.replies.headD ⟨500, ""⟩, ⟨site.replies.tail, site.vms, site.register req⟩)
  | site, .newSampleBase _ => (.ok ⟨⟩, site)
  | site, .createStub _ _ => (.ok ⟨⟩, site)
  | site, .list _ => (.ok site.vms, site)

end Site

/-- The requests that a run of `p` posts, in order. -/
def posted {α : Type} (p : Script α) (site : Site) : List Request :=
  (calls Site.answer p site).filterMap postOf

end RegNewvm
