import RegNewvm.Model.Calls
import RegNewvm.Lib.Foreach

/-!
# The vCenter calls

`vmwareInit`, `vmwareSetup` and `vmwareRun` as they stand in `work/vmware_vms_list.pl`; the globals
they hand to one another are arguments here.
-/

namespace RegNewvm

open Interaction Perl

def vmwareInit (username password server : String) : Script SampleBase := do
  let params := [("username", username), ("password", password), ("server", server)]
  let made ← Prog.ask (Op.newSampleBase params)
  Prog.ofExcept made
  return ⟨params⟩

def vmwareSetup (sampleBase : SampleBase) : Script Stub := do
  let made ← Prog.ask (Op.createStub sampleBase "Com::Vmware::Vcenter::VM")
  Prog.ofExcept made
  return ⟨sampleBase, "Com::Vmware::Vcenter::VM"⟩

/-- `foreach my $vm (@$vm_list) { push @vm_hosts, $vm->get_name(); }` -/
def vmHostsOf (vmList : List Vm) : List String :=
  (foreach (fun vm vmList vmHosts => (vmList, vmHosts ++ [vm.name])) vmList []).2

def vmwareRun (vmService : Stub) : Script (List String) := do
  let listed ← Prog.ask (Op.list vmService)
  let vmList ← Prog.ofExcept listed
  return vmHostsOf vmList

/-- Every name is pushed, in order, whatever is repeated. -/
theorem vmHostsOf_eq (vmList : List Vm) : vmHostsOf vmList = vmList.map (·.name) := by
  have hfold (l : List Vm) (acc : List String) :
      l.foldl (fun vmHosts vm => vmHosts ++ [vm.name]) acc = acc ++ l.map (·.name) := by
    induction l generalizing acc with
    | nil => simp
    | cons vm l ih => rw [List.foldl_cons, ih, List.map_cons, List.append_assoc]; rfl
  rw [vmHostsOf, foreach_keep fun vmHosts (vm : Vm) => vmHosts ++ [vm.name], hfold,
    List.nil_append]

end RegNewvm
