import RegNewvm.Model.Main
import RegNewvm.Model.Site

/-!
# The system over many runs

The system between runs is the host list of the appliance and the VM list of vCenter.  It goes on by
a change of vCenter or by a run of `main` in which every call succeeds (`Step`).
-/

namespace RegNewvm

open Interaction Url

/-- A name that the appliance reads as it was written: free of `:` and of what a URL would not
carry, the blanks at its end included. -/
structure Clean (vm : String) : Prop where
  carried : Carried vm.toList
  no_colon : ':' ∉ vm.toList
  no_blank : ¬ defaultRules.EndsBlank vm.toList

/-- A VM name that is not empty and can be read in a request. -/
structure VmName where
  text : String
  ne_empty : text ≠ ""
  clean : Clean text

/-- A name without `:`, without the characters that end or change a value in a URL, and without a
blank at its end. -/
def VmName.ofPlain (text : String) (h : text ≠ "" ∧ ':' ∉ text.toList ∧ '&' ∉ text.toList ∧
    '#' ∉ text.toList ∧ '%' ∉ text.toList ∧ ¬ defaultRules.EndsBlank text.toList) : VmName where
  text := text
  ne_empty := h.1
  clean := ⟨⟨h.2.2.1, h.2.2.2.1, hasEscape_of_not_mem h.2.2.2.2.1⟩, h.2.1, h.2.2.2.2.2⟩

structure System where
  hosts : List String
  vms : List VmName

/-- The names that vCenter reports. -/
def System.reported (s : System) : List String := s.vms.map (·.text)

/-- Every remote call of a run succeeds: the login yields a session id, the listing the host list,
the appliance knows the session it is asked in, and the request is accepted. -/
structure Succeeds (decode : Decoder) (s : System) (sessionid : String)
    (login lshost discovery : Reply) : Prop where
  login_ok : login.rc = 200 ∧ ∃ address entries,
    decode login.content = .ok (.hash address entries) ∧
      entries.lookup "sessionid" = some (.text sessionid)
  lshost_ok : lshost.rc = 200 ∧ ∃ address entries address' items,
    decode lshost.content = .ok (.hash address entries) ∧
      entries.lookup "result" = some (.array address' items) ∧
      items.map (·.field "hostname") = s.hosts.map fun host => .ok (.text host)
  session_ok : valuesOf "sessionid".toList (readParams (lshostUrl Config.actifio sessionid)) =
    [some sessionid.toList]
  discovery_ok : discovery.rc = 200

/-- What a run read, was told, requested and left behind. -/
structure Run where
  /-- The host list the run read. -/
  read : List String
  /-- The names that vCenter reported to it. -/
  reported : List String
  requested : List String
  /-- The host list after the run. -/
  after : List String

inductive Event
  | vcenter
  | run (r : Run)

variable (decode : Decoder)

/-- The parties that a run of `main` in the state `s` meets. -/
def System.site (s : System) (login lshost discovery : Reply) : Site :=
  ⟨[login, lshost, discovery], s.reported.map Vm.mk, s.hosts⟩

/-- The run of `main` in the state `s` on these replies. -/
def System.runOf (s : System) (login lshost discovery : Reply) : Run where
  read := s.hosts
  reported := s.reported
  requested := (posted (main decode) (s.site login lshost discovery)).flatMap fun req =>
    requestedNames req.url
  after := (result Site.answer (main decode) (s.site login lshost discovery)).2.hosts

inductive Step : System → Event → System → Prop
  | vcenter (s : System) (vms : List VmName) : Step s .vcenter ⟨s.hosts, vms⟩
  | run (s : System) {sessionid : String} {login lshost discovery : Reply}
      (h : Succeeds decode s sessionid login lshost discovery) :
      Step s (.run (s.runOf decode login lshost discovery))
        ⟨(s.runOf decode login lshost discovery).after, s.vms⟩

end RegNewvm
