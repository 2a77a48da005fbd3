import RegNewvm.Lib.Foreach

/-!
# The reconciliation loop

`main` takes every registered hostname in turn and walks the array of VM names, splicing one
element out of the array it is walking whenever a name equals the hostname.  The splice offset is
the program's own counter `$i`, which is set back to `0` by a splice while the walk goes on.
-/

namespace RegNewvm

open Perl

variable {α : Type*} [DecidableEq α]

/-- The body of the inner loop; the variable is `$i`. -/
def reconcileBody (hostname : α) : Body α ℕ := fun vmHost vmHosts i =>
  if hostname = vmHost then (splice vmHosts i 1, 0) else (vmHosts, i + 1)

/-- One pass: `$i = 0` and the inner loop. -/
def pass (hostname : α) (vmHosts : List α) : List α :=
  (foreach (reconcileBody hostname) vmHosts 0).1

/-- The outer loop, which reads `@hostnames` and updates the array of VM names. -/
def reconcile (hostnames vmHosts : List α) : List α :=
  (foreach (fun hostname hostnames vmHosts => (hostnames, pass hostname vmHosts))
    hostnames vmHosts).2

theorem reconcile_eq_foldl (hostnames vmHosts : List α) :
    reconcile hostnames vmHosts = hostnames.foldl (fun vs h => pass h vs) vmHosts := by
  rw [reconcile, foreach_keep fun vs h => pass h vs]

@[simp] theorem reconcile_nil (vmHosts : List α) : reconcile [] vmHosts = vmHosts := by
  rw [reconcile_eq_foldl, List.foldl_nil]

@[simp] theorem reconcile_cons (hostname : α) (hostnames vmHosts : List α) :
    reconcile (hostname :: hostnames) vmHosts = reconcile hostnames (pass hostname vmHosts) := by
  simp only [reconcile_eq_foldl, List.foldl_cons]

theorem reconcile_concat (hostnames : List α) (hostname : α) (vmHosts : List α) :
    reconcile (hostnames ++ [hostname]) vmHosts = pass hostname (reconcile hostnames vmHosts) := by
  simp only [reconcile_eq_foldl, List.foldl_append, List.foldl_cons, List.foldl_nil]

end RegNewvm
