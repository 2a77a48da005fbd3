import RegNewvm.Model.Actifio
import RegNewvm.Model.Vmware
import RegNewvm.Model.Reconcile

/-!
# `main`

The script `work/reg_newvm_main.pl` (`work/old/lshost.pl` runs the same statements): log in, list
the registered hosts, list the VMs of vCenter, take the registered names out, and post a request for
two of the names that are left.
-/

namespace RegNewvm

open Interaction Perl

namespace Config

def actifio := "192.168.99.171"
def name := "admin"
def pswd := "insight"
def vdrk := "actifio"
def vcentUname := "administrator@vsphere.local"
def vcentPass := "Insight1310!"
def vcentSvr := "192.168.99.166"
def vcentHname := "vCenter6.5"

end Config

/-- The loops that print `"$i $vm_host\n"`. -/
def printNumbered (i : ℕ) : List String → Script PUnit
  | [] => return ⟨⟩
  | vmHost :: rest => do
    print (toString i ++ " " ++ vmHost ++ "\n")
    printNumbered (i + 1) rest

/-- `join (':', @{$vm_hosts_ref})` -/
def joinVmHosts (vmHosts : List String) : String := ":".intercalate vmHosts

/-- `@{$vm_hosts_ref}[i]` in string context; past the end it is undefined. -/
def vmHostAt (vmHosts : List String) (i : ℕ) : String := vmHosts.getD i ""

/-- `@{$vm_hosts_ref}[1].":".@{$vm_hosts_ref}[5]`, the two VMs taken for testing. -/
def testVmHosts (vmHosts : List String) : String := vmHostAt vmHosts 1 ++ ":" ++ vmHostAt vmHosts 5

variable (decode : Decoder)

/-- `main` up to the printed list of hostnames. -/
def mainHostnames : Script (Value × List Value) := do
  let returned ← actLogin decode .scalar Config.actifio Config.name Config.pswd Config.vdrk
  let sessionid := assignScalar returned
  print (sessionid.str ++ "\n")
  let hostnames ← actLshost decode .list Config.actifio sessionid
  hostnames.forM fun hostname => print (hostname.str ++ "\n")
  return (sessionid, hostnames)

/-- From there to the end of the reconciliation loop. -/
def mainVmHosts (hostnames : List Value) : Script (List String) := do
  let sampleBase ← vmwareInit Config.vcentUname Config.vcentPass Config.vcentSvr
  let vmService ← vmwareSetup sampleBase
  let vmHosts ← vmwareRun vmService
  print "---- vm_hosts ----\n"
  printNumbered 0 vmHosts
  print "-----end---\n"
  return reconcile (hostnames.map Value.str) vmHosts

/-- The rest of `main`. -/
def mainRequest (sessionid : Value) (vmHosts : List String) : Script PUnit := do
  printNumbered 0 vmHosts
  let _joined := joinVmHosts vmHosts
  -- the joined names are overwritten by the two test VMs
  let request := testVmHosts vmHosts
  print (request ++ "\n")
  actVmdiscovery Config.actifio sessionid Config.vcentHname request

def main : Script PUnit := do
  let (sessionid, hostnames) ← mainHostnames decode
  let vmHosts ← mainVmHosts hostnames
  mainRequest sessionid vmHosts

end RegNewvm
