import RegNewvm.Model.Calls

/-!
# The Actifio calls

`actLogin`, `actLshost` and `actVmdiscovery` as they stand in `work/old/lshost.pl`.  The JSON
decoder is a parameter; it dies on a text it cannot decode.
-/

namespace RegNewvm

open Interaction Perl

def loginUrl (actifio name pswd vdrk : String) : String :=
  "https://" ++ actifio ++ "/actifio/api/login" ++
    "?name=" ++ name ++ "&password=" ++ pswd ++ "&vendorkey=" ++ vdrk

def lshostUrl (actifio sessionid : String) : String :=
  "https://" ++ actifio ++ "/actifio/api/info/lshost" ++ "?sessionid=" ++ sessionid

def vmdiscoveryUrl (actifio sessionid vcentHname vmHosts : String) : String :=
  "https://" ++ actifio ++ "/actifio/api/task/vmdiscovery?sessionid=" ++ sessionid ++
    "&addvms&host=" ++ vcentHname ++ "&cluster=192.168.99.85&vms=" ++ vmHosts

/-- `JSON->new()->decode(text)` -/
abbrev Decoder := String → Except String Value

variable (decode : Decoder)

def actLogin (want : Want) (actifio name pswd vdrk : String) : Script (List Value) := do
  let response ← request .get (loginUrl actifio name pswd vdrk)
  if response.rc = 200 then
    let items ← Prog.ofExcept (decode response.content)
    -- `foreach my $item ( $items )` runs once and returns
    let sessionid ← Prog.ofExcept (items.field "sessionid")
    return returnScalar want sessionid
  else
    return returnFalse want

/-- The loop of `act_lshost` over the result list. -/
def pushHostnames : List Value → List Value → Script (List Value)
  | [], hostnames => return hostnames
  | item :: rest, hostnames => do
    let hostname ← Prog.ofExcept (item.field "hostname")
    print (hostname.str ++ "\n")
    pushHostnames rest (hostnames ++ [hostname])

def actLshost (want : Want) (actifio : String) (sessionid : Value) : Script (List Value) := do
  let response ← request .get (lshostUrl actifio sessionid.str)
  if response.rc = 200 then
    let items ← Prog.ofExcept (decode response.content)
    let lists ← Prog.ofExcept (items.field "result")
    let elems ← Prog.ofExcept lists.elems
    let hostnames ← pushHostnames elems []
    return returnArray want hostnames
  else
    return returnFalse want

def actVmdiscovery (actifio : String) (sessionid : Value) (vcentHname vmHosts : String) :
    Script PUnit := do
  let response ← request .post (vmdiscoveryUrl actifio sessionid.str vcentHname vmHosts)
  dump response

end RegNewvm
