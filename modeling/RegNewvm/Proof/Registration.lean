import RegNewvm.Lib.Registry
import RegNewvm.Model.System
import RegNewvm.Proof.Reconcile
import RegNewvm.Proof.Requests
import Mathlib.Data.List.GetD

/-!
# Registration over many runs

A run requests the names at positions 1 and 5 of the list the reconciliation leaves, and the host
list grows by exactly these (`Run.Spec`).  So the system refines the registry that only grows
(`system_refines_registry`): what is registered was reported before, and no name is requested twice
unless vCenter repeats a registered name.  `registration_runs` says run by run what is requested.
-/

namespace RegNewvm

open Perl Transition Url

variable {decode : Decoder}

/-! ## One run -/

section OneRun

variable {s : System} {sessionid : String} {login lshost discovery : Reply}

theorem Succeeds.loginResult_eq (h : Succeeds decode s sessionid login lshost discovery) :
    loginResult decode login = .ok (.text sessionid) := by
  obtain ⟨hrc, address, entries, hdecode, hlookup⟩ := h.login_ok
  unfold loginResult
  rw [if_pos hrc, hdecode]
  show Except.ok ((entries.lookup "sessionid").getD .undef) = _
  rw [hlookup]
  rfl

theorem hostnamesOf_eq {items : List Value} {hosts : List String}
    (h : items.map (·.field "hostname") = hosts.map fun host => .ok (.text host)) :
    hostnamesOf items = .ok (hosts.map .text) := by
  induction items generalizing hosts with
  | nil =>
    cases hosts with
    | nil => rfl
    | cons host hosts => cases h
  | cons item rest ih =>
    cases hosts with
    | nil => cases h
    | cons host hosts =>
      rw [List.map_cons, List.map_cons, List.cons_eq_cons] at h
      rw [hostnamesOf_cons, h.1, ih h.2]
      rfl

theorem Succeeds.lshostResult_eq (h : Succeeds decode s sessionid login lshost discovery) :
    lshostResult decode lshost = .ok (s.hosts.map .text) := by
  obtain ⟨hrc, address, entries, address', items, hdecode, hlookup, hitems⟩ := h.lshost_ok
  unfold lshostResult
  rw [if_pos hrc, hdecode]
  show ((Except.ok ((entries.lookup "result").getD .undef) : Except String Value) >>=
    fun lists => lists.elems >>= hostnamesOf) = _
  rw [hlookup]
  exact hostnamesOf_eq hitems

/-- The names left after the reconciliation. -/
def Run.left (r : Run) : List String := reconcile r.read r.reported

/-- A run posts one request, for the names left. -/
theorem Succeeds.posted_eq (h : Succeeds decode s sessionid login lshost discovery) :
    posted (main decode) (s.site login lshost discovery) = [vmdiscoveryRequest (.text sessionid)
      (s.runOf decode login lshost discovery).left] := by
  have hvms : (s.reported.map Vm.mk).map (·.name) = s.reported := by
    rw [List.map_map]
    exact List.map_id _
  unfold System.site
  rw [posted_main, h.loginResult_eq, h.lshostResult_eq]
  simp only [Value.map_str_text, hvms]
  rfl

/-- A session id that the appliance reads back is carried. -/
theorem Succeeds.carried (h : Succeeds decode s sessionid login lshost discovery) :
    Carried sessionid.toList :=
  ((valuesOf_sessionid_iff (by decide)).1 h.session_ok).1

end OneRun

theorem clean_reported {s : System} {vm : String} (h : vm ∈ s.reported) : vm ≠ "" ∧ Clean vm := by
  unfold System.reported at h
  obtain ⟨name, -, rfl⟩ := List.mem_map.1 h
  exact ⟨name.ne_empty, name.clean⟩

theorem vmHostAt_mem_or (vmHosts : List String) (i : ℕ) :
    vmHostAt vmHosts i ∈ vmHosts ∨ vmHostAt vmHosts i = "" := by
  unfold vmHostAt
  rcases Nat.lt_or_ge i vmHosts.length with hi | hi
  · left
    rw [List.getD_eq_getElem _ _ hi]
    exact List.getElem_mem hi
  · right
    exact List.getD_eq_default _ _ hi

theorem clean_vmHostAt {vmHosts : List String} (h : ∀ vm ∈ vmHosts, Clean vm) (i : ℕ) :
    Clean (vmHostAt vmHosts i) := by
  rcases vmHostAt_mem_or vmHosts i with hmem | hempty
  · exact h _ hmem
  · rw [hempty]
    exact ⟨by decide, by decide, by decide⟩

theorem testVmHosts_eq (vmHosts : List String) :
    testVmHosts vmHosts = joinVmHosts [vmHostAt vmHosts 1, vmHostAt vmHosts 5] := by
  unfold testVmHosts joinVmHosts
  simp

/-- The appliance reads the names that were joined into the request. -/
theorem requestedNames_vmdiscoveryUrl {sessionid : String} {vmHosts : List String}
    (hsessionid : Carried sessionid.toList) (hne : vmHosts ≠ []) (h : ∀ vm ∈ vmHosts, Clean vm) :
    requestedNames (vmdiscoveryUrl Config.actifio sessionid Config.vcentHname
      (joinVmHosts vmHosts)) = vmHosts := by
  have hquery := isQuery_vmdiscovery Config.actifio sessionid Config.vcentHname
    (joinVmHosts vmHosts)
  have hcarried : AllCarried (vmdiscoveryParams sessionid Config.vcentHname
      (joinVmHosts vmHosts)) := by
    unfold AllCarried
    rw [forall_vmdiscovery_values (by decide), carried_joinVmHosts_iff]
    exact ⟨hsessionid, by decide, fun vm hvm => (h vm hvm).carried⟩
  have hend : ¬ defaultRules.EndsBlank (joinVmHosts vmHosts).toList := by
    rw [endsBlank_joinVmHosts_iff defaultRules hne]
    exact (h _ (List.getLast_mem hne)).no_blank
  have hvalues := readBack_self hquery.nodup "vms".toList (joinVmHosts vmHosts).toList
    (by simp [vmdiscoveryParams])
  unfold requestedNames readParams
  rw [(hquery.read_iff defaultRules (by decide)).2 ⟨hcarried, hend⟩, hvalues]
  show splitVmHosts (String.ofList (joinVmHosts vmHosts).toList) = vmHosts
  rw [String.ofList_toList, split_joinVmHosts_iff hne]
  exact fun vm hvm => (h vm hvm).no_colon

section OneRun

variable {s t : System} {sessionid : String} {login lshost discovery : Reply} {r : Run}

theorem mem_of_mem_left {vm : String} (h : vm ∈ r.left) : vm ∈ r.reported :=
  (reconcile_sublist r.read r.reported).subset h

/-- What holds of a run of `main`. -/
structure Run.Spec (r : Run) : Prop where
  requested_eq : r.requested = [vmHostAt r.left 1, vmHostAt r.left 5]
  after_eq : r.after = r.read ++ r.requested
  clean : ∀ vm ∈ r.reported, vm ≠ "" ∧ Clean vm

theorem Run.Spec.after_eq_append {names : List String} (hr : r.Spec) (h : r.requested = names) :
    r.after = r.read ++ names := by
  rw [hr.after_eq, h]

theorem Succeeds.spec (h : Succeeds decode s sessionid login lshost discovery) :
    (s.runOf decode login lshost discovery).Spec where
  requested_eq := by
    have hclean : ∀ vm ∈ (s.runOf decode login lshost discovery).left, Clean vm :=
      fun vm hvm => (clean_reported (mem_of_mem_left hvm)).2
    show (posted (main decode) (s.site login lshost discovery)).flatMap _ = _
    rw [h.posted_eq, List.flatMap_singleton]
    unfold vmdiscoveryRequest
    rw [testVmHosts_eq]
    refine requestedNames_vmdiscoveryUrl h.carried (List.cons_ne_nil _ _) ?_
    simp [clean_vmHostAt hclean]
  after_eq := hosts_result (main decode) (s.site login lshost discovery)
  clean _ hvm := clean_reported hvm

theorem Step.run_spec (h : Step decode s (.run r) t) :
    r.Spec ∧ r.read = s.hosts ∧ r.reported = s.reported ∧ t.vms = s.vms := by
  cases h with
  | run hsucceeds => exact ⟨hsucceeds.spec, rfl, rfl, rfl⟩

end OneRun

/-! ## What a run requests -/

namespace Run

/-- No name of the host list is reported twice. -/
def NoRepeats (r : Run) : Prop := ∀ host ∈ r.read, r.reported.count host ≤ 1

variable {r : Run} {vm : String}

theorem mem_left_of_mem_requested (hr : r.Spec) (h : vm ∈ r.requested) (hne : vm ≠ "") :
    vm ∈ r.left := by
  rw [hr.requested_eq, List.mem_cons, List.mem_singleton] at h
  rcases h with rfl | rfl
  · exact (vmHostAt_mem_or _ _).resolve_right hne
  · exact (vmHostAt_mem_or _ _).resolve_right hne

/-- The reconciliation leaves what is not registered, if no registered name is repeated. -/
theorem left_eq_unregistered (hrepeats : r.NoRepeats) :
    r.left = unregistered r.read r.reported :=
  reconcile_eq_unregistered hrepeats

/-- Then only new names are requested. -/
theorem not_mem_read (hr : r.Spec) (hrepeats : r.NoRepeats) (h : vm ∈ r.requested)
    (hne : vm ≠ "") : vm ∉ r.read := by
  have hleft := mem_left_of_mem_requested hr h hne
  rw [left_eq_unregistered hrepeats] at hleft
  exact (mem_unregistered.1 hleft).2

theorem mem_after_iff (hr : r.Spec) : vm ∈ r.after ↔ vm ∈ r.read ∨ vm ∈ r.requested := by
  rw [hr.after_eq, List.mem_append]

theorem vmHostAt_left_ne_empty_iff (hr : r.Spec) (i : ℕ) :
    vmHostAt r.left i ≠ "" ↔ i < r.left.length := by
  unfold vmHostAt
  rcases Nat.lt_or_ge i r.left.length with hi | hi
  · rw [List.getD_eq_getElem _ _ hi]
    exact iff_of_true (hr.clean _ (mem_of_mem_left (List.getElem_mem hi))).1 hi
  · rw [List.getD_eq_default _ _ hi]
    exact iff_of_false (fun h => h rfl) (by omega)

/-- The request has no empty name exactly when six names are left. -/
theorem requested_ne_empty_iff (hr : r.Spec) :
    (∀ vm ∈ r.requested, vm ≠ "") ↔ 6 ≤ r.left.length := by
  rw [hr.requested_eq, List.forall_mem_cons, List.forall_mem_singleton,
    vmHostAt_left_ne_empty_iff hr, vmHostAt_left_ne_empty_iff hr]
  omega

end Run

/-! ## Any number of runs -/

namespace Event

/-- The names that an event adds to the host list. -/
def requested : Event → List String
  | vcenter => []
  | run r => r.requested

/-- What an event means for the registry of names. -/
def round : Event → Registry.Round String
  | vcenter => ⟨∅, ∅⟩
  | run r => ⟨{vm | vm ∈ r.reported}, {vm | vm ∈ r.requested ∧ vm ≠ ""}⟩

def NoRepeats : Event → Prop
  | vcenter => True
  | run r => r.NoRepeats

end Event

/-- The names in the host list. -/
def System.registered (s : System) : Set String := {vm | vm ∈ s.hosts ∧ vm ≠ ""}

section Runs

variable {s t : System} {e : Event} {events : List Event}

theorem Step.hosts_eq (h : Step decode s e t) : t.hosts = s.hosts ++ e.requested := by
  cases h with
  | vcenter => exact (List.append_nil _).symm
  | run hsucceeds => exact hsucceeds.spec.after_eq

theorem Step.refines (h : Step decode s e t) : Registry.Step s.registered e.round t.registered := by
  constructor
  · cases e with
    | vcenter => exact Set.empty_subset _
    | run r =>
      rintro vm ⟨hvm, hne⟩
      exact mem_of_mem_left (Run.mem_left_of_mem_requested h.run_spec.1 hvm hne)
  · ext vm
    have hround : vm ∈ e.round.added ↔ vm ∈ e.requested ∧ vm ≠ "" := by
      cases e with
      | vcenter => simp [Event.round, Event.requested]
      | run r => exact Iff.rfl
    unfold System.registered
    rw [h.hosts_eq, Set.mem_union, hround]
    simp only [Set.mem_ofPred_eq, List.mem_append]
    exact or_and_right

theorem Step.refines_fresh (h : Step decode s e t) (he : e.NoRepeats) :
    Registry.FreshStep s.registered e.round t.registered := by
  refine ⟨h.refines, fun vm hadded hvm => ?_⟩
  cases e with
  | vcenter => exact hadded
  | run r =>
    obtain ⟨hspec, hread, -, -⟩ := h.run_spec
    apply Run.not_mem_read hspec he hadded.1 hadded.2
    rw [hread]
    exact hvm.1

/-- Every sequence of steps is a sequence of rounds of the registry. -/
theorem system_refines_registry (h : Trace (Step decode) s events t) :
    Trace Registry.Step s.registered (events.map Event.round) t.registered :=
  h.simulate fun _ _ _ hstep => hstep.refines

theorem hosts_of_trace (h : Trace (Step decode) s events t) :
    t.hosts = s.hosts ++ events.flatMap Event.requested := by
  induction h with
  | nil => simp
  | cons first _ ih =>
    rw [ih, first.hosts_eq, List.flatMap_cons, List.append_assoc]

/-- A run of a sequence reads the host list and the VM list that the steps before it left. -/
theorem run_of_trace {earlier later : List Event} {r : Run}
    (h : Trace (Step decode) s (earlier ++ .run r :: later) t) :
    r.Spec ∧ ∃ u, Trace (Step decode) s earlier u ∧ r.read = u.hosts ∧ r.reported = u.reported := by
  obtain ⟨u, hearlier, hlater⟩ := h.split
  cases hlater with
  | cons first _ =>
    obtain ⟨hspec, hread, hreported, -⟩ := first.run_spec
    exact ⟨hspec, u, hearlier, hread, hreported⟩

/-- What every run of every sequence guarantees.  It requests two names of the list left and adds
just these to the host list.  If vCenter repeats no registered name, they are the names at positions
1 and 5 of those that are not registered. -/
theorem registration_runs (decode : Decoder) (h : Trace (Step decode) s events t) :
    t.hosts = s.hosts ++ events.flatMap Event.requested ∧
      ∀ earlier r later, events = earlier ++ .run r :: later →
        (∃ u, Trace (Step decode) s earlier u ∧ r.read = u.hosts ∧ r.reported = u.reported) ∧
        r.read = s.hosts ++ earlier.flatMap Event.requested ∧
        r.requested = [vmHostAt (reconcile r.read r.reported) 1,
          vmHostAt (reconcile r.read r.reported) 5] ∧
        r.after = r.read ++ r.requested ∧
        (∀ vm ∈ r.requested, vm ≠ "" → vm ∈ r.reported) ∧
        (∀ vm ∈ r.reported, vm ∈ r.after ↔ vm ∈ r.read ∨ vm ∈ r.requested) ∧
        ((∀ vm ∈ r.requested, vm ≠ "") ↔ 6 ≤ (reconcile r.read r.reported).length) ∧
        ((∀ host ∈ r.read, r.reported.count host ≤ 1) →
          r.requested = [vmHostAt (unregistered r.read r.reported) 1,
            vmHostAt (unregistered r.read r.reported) 5] ∧
          (∀ vm ∈ r.requested, vm ≠ "" → vm ∉ r.read) ∧
          (∀ vm ∈ r.reported, vm ∈ r.after ↔ vm ∈ r.read ∨
            vm = vmHostAt (unregistered r.read r.reported) 1 ∨
            vm = vmHostAt (unregistered r.read r.reported) 5) ∧
          ((∀ vm ∈ r.requested, vm ≠ "") ↔ 6 ≤ (unregistered r.read r.reported).length)) := by
  refine ⟨hosts_of_trace h, ?_⟩
  rintro earlier r later rfl
  obtain ⟨hspec, u, hearlier, hread, hreported⟩ := run_of_trace h
  have hafter (vm : String) : vm ∈ r.after ↔ vm ∈ r.read ∨ vm ∈ r.requested :=
    Run.mem_after_iff hspec
  have hempty := Run.requested_ne_empty_iff hspec
  refine ⟨⟨u, hearlier, hread, hreported⟩, hread.trans (hosts_of_trace hearlier),
    hspec.requested_eq, hspec.after_eq,
    fun vm hvm hne => mem_of_mem_left (Run.mem_left_of_mem_requested hspec hvm hne),
    fun vm _ => hafter vm, hempty, fun hrepeats => ?_⟩
  have hleft := Run.left_eq_unregistered hrepeats
  have hrequested := hspec.requested_eq
  rw [hleft] at hrequested hempty
  refine ⟨hrequested, fun vm => Run.not_mem_read hspec hrepeats, fun vm _ => ?_, hempty⟩
  rw [hafter, hrequested, List.mem_cons, List.mem_singleton]

end Runs

/-! ### Sample runs -/

/-- The host list has `web`, and so has vCenter, before six other VMs. -/
def sampleSystem : System where
  hosts := ["web"]
  vms := [.ofPlain "web" (by decide), .ofPlain "vm0" (by decide), .ofPlain "vm1" (by decide),
    .ofPlain "vm2" (by decide), .ofPlain "vm3" (by decide), .ofPlain "vm4" (by decide),
    .ofPlain "vm5" (by decide)]

/-- The listing of the hosts. -/
def listing (hosts : List String) : Reply :=
  ⟨200, "\x7b\"result\":[" ++ ",".intercalate (hosts.map fun host =>
    "\x7b\"hostname\":\"" ++ host ++ "\"\x7d") ++ "]\x7d"⟩

/-- A decoder that knows one more listing. -/
def listingDecoder (hosts : List String) : Decoder := fun text =>
  if text = (listing hosts).content then
    .ok (.hash 5 [("result", .array 6 ((hosts.zipIdx 7).map fun host =>
      .hash host.2 [("hostname", .text host.1)]))])
  else sampleDecoder text

section Listing

variable {hosts : List String} (hlogin : sampleLogin.content ≠ (listing hosts).content)
  (vms : List VmName)

include hlogin

theorem listing_succeeds : Succeeds (listingDecoder hosts) ⟨hosts, vms⟩ "41b6f3" sampleLogin
    (listing hosts) ⟨200, ""⟩ where
  login_ok := ⟨rfl, _, _, if_neg hlogin, rfl⟩
  lshost_ok := by
    refine ⟨rfl, _, _, _, _, if_pos rfl, rfl, ?_⟩
    conv_rhs => rw [← List.zipIdx_map_fst 7 hosts, List.map_map]
    rw [List.map_map]
    rfl
  session_ok := (valuesOf_sessionid_iff (by decide)).2 (by decide)
  discovery_ok := rfl

theorem web_succeeds (hlshost : sampleLshost.content ≠ (listing hosts).content) :
    Succeeds (listingDecoder hosts) ⟨["web"], vms⟩ "41b6f3" sampleLogin sampleLshost
      ⟨200, ""⟩ where
  login_ok := ⟨rfl, _, _, if_neg hlogin, rfl⟩
  lshost_ok := ⟨rfl, _, _, _, _, if_neg hlshost, rfl, rfl⟩
  session_ok := (valuesOf_sessionid_iff (by decide)).2 (by decide)
  discovery_ok := rfl

end Listing

/-- The host list after a run on `sampleSystem`. -/
def laterSystem : System := ⟨["web", "vm1", "vm5"], sampleSystem.vms⟩

def laterDecoder : Decoder := listingDecoder laterSystem.hosts

def firstRun : Run := sampleSystem.runOf laterDecoder sampleLogin sampleLshost ⟨200, ""⟩

def secondRun : Run :=
  laterSystem.runOf laterDecoder sampleLogin (listing laterSystem.hosts) ⟨200, ""⟩

theorem later_succeeds (vms : List VmName) :
    Succeeds laterDecoder ⟨["web"], vms⟩ "41b6f3" sampleLogin sampleLshost ⟨200, ""⟩ :=
  web_succeeds (by decide) vms (by decide)

theorem firstRun_requested : firstRun.requested = ["vm1", "vm5"] :=
  (later_succeeds sampleSystem.vms).spec.requested_eq.trans (by decide)

theorem firstRun_after : firstRun.after = laterSystem.hosts :=
  (later_succeeds sampleSystem.vms).spec.after_eq_append firstRun_requested

/-- Two runs, one after the other. -/
theorem trace_two_runs : Trace (Step laterDecoder) sampleSystem [.run firstRun, .run secondRun]
    ⟨secondRun.after, sampleSystem.vms⟩ := by
  have hfirst : Step laterDecoder sampleSystem (.run firstRun) ⟨firstRun.after, sampleSystem.vms⟩ :=
    .run sampleSystem (later_succeeds _)
  rw [firstRun_after] at hfirst
  exact .cons hfirst (.cons (.run laterSystem (listing_succeeds (by decide) _)) (.nil _))

/-- The second run finds four names left. -/
theorem registration_sample : secondRun.read = ["web", "vm1", "vm5"] ∧
    secondRun.requested = ["vm2", ""] ∧
      secondRun.after = ["web", "vm1", "vm5", "vm2", ""] := by
  obtain ⟨-, hread, -, hafter, -, -, -, hnorepeats⟩ :=
    (registration_runs laterDecoder trace_two_runs).2 [.run firstRun] secondRun [] rfl
  have hrequested : secondRun.requested = ["vm2", ""] :=
    (hnorepeats (by decide)).1.trans (by decide)
  have hread' : secondRun.read = ["web", "vm1", "vm5"] := by
    rw [hread, List.flatMap_singleton]
    show ["web"] ++ firstRun.requested = _
    rw [firstRun_requested]
    rfl
  rw [hafter, hread', hrequested]
  exact ⟨rfl, rfl, rfl⟩

/-- The host list has `web`, and vCenter has two VMs called `web`. -/
def repeatedSystem : System where
  hosts := ["web"]
  vms := [.ofPlain "new" (by decide), .ofPlain "web" (by decide), .ofPlain "db" (by decide),
    .ofPlain "web" (by decide)]

def repeatedRun : Run := repeatedSystem.runOf laterDecoder sampleLogin sampleLshost ⟨200, ""⟩

/-- The host list has every VM of vCenter. -/
def settledSystem : System := ⟨["web"], sampleSystem.vms.take 1⟩

/-- The host list after a run on `settledSystem`. -/
def emptySystem : System := ⟨["web", "", ""], settledSystem.vms⟩

def emptyDecoder : Decoder := listingDecoder emptySystem.hosts

def settledRun : Run := settledSystem.runOf emptyDecoder sampleLogin sampleLshost ⟨200, ""⟩

def emptyRun : Run :=
  emptySystem.runOf emptyDecoder sampleLogin (listing emptySystem.hosts) ⟨200, ""⟩

theorem settledRun_succeeds :
    Succeeds emptyDecoder settledSystem "41b6f3" sampleLogin sampleLshost ⟨200, ""⟩ :=
  web_succeeds (by decide) settledSystem.vms (by decide)

theorem emptyRun_succeeds : Succeeds emptyDecoder emptySystem "41b6f3" sampleLogin
    (listing emptySystem.hosts) ⟨200, ""⟩ :=
  listing_succeeds (by decide) emptySystem.vms

/-- Two runs that find no name left. -/
theorem trace_settled_runs : Trace (Step emptyDecoder) settledSystem
    [.run settledRun, .run emptyRun] ⟨emptyRun.after, settledSystem.vms⟩ := by
  have hrequested : settledRun.requested = ["", ""] :=
    settledRun_succeeds.spec.requested_eq.trans (by decide)
  have hafter : settledRun.after = emptySystem.hosts :=
    settledRun_succeeds.spec.after_eq_append hrequested
  have hfirst : Step emptyDecoder settledSystem (.run settledRun)
      ⟨settledRun.after, settledSystem.vms⟩ := .run settledSystem settledRun_succeeds
  rw [hafter] at hfirst
  exact .cons hfirst (.cons (.run emptySystem emptyRun_succeeds) (.nil _))

/-- A run that requests two new names leaves new names unregistered.  Where vCenter repeats the
registered `web`, it is requested, and `new` stays unregistered.  With no name left the empty name
is requested, and by the next run again. -/
theorem registration_leaves_new_names :
    (Step laterDecoder sampleSystem (.run firstRun) ⟨["web", "vm1", "vm5"], sampleSystem.vms⟩ ∧
      firstRun.requested = ["vm1", "vm5"] ∧ ¬ ∀ vm ∈ firstRun.reported, vm ∈ firstRun.after) ∧
    (Step laterDecoder repeatedSystem (.run repeatedRun) ⟨["web", "web", ""], repeatedSystem.vms⟩ ∧
      repeatedRun.requested = ["web", ""] ∧
      ¬ (∀ vm ∈ repeatedRun.requested, vm ∉ repeatedRun.read) ∧
      ¬ (∀ vm ∈ repeatedRun.reported, vm ∈ repeatedRun.after) ∧
      ¬ ∀ vm ∈ repeatedRun.requested, vm ≠ "") ∧
    Trace (Step emptyDecoder) settledSystem [.run settledRun, .run emptyRun]
        ⟨["web", "", "", "", ""], settledSystem.vms⟩ ∧
      (∀ host ∈ emptyRun.read, emptyRun.reported.count host ≤ 1) ∧
      emptyRun.requested = ["", ""] ∧
      ¬ ∀ vm ∈ emptyRun.requested, vm ∉ emptyRun.read := by
  refine ⟨?_, ?_, ?_⟩
  · have hrun : Step laterDecoder sampleSystem (.run firstRun) ⟨firstRun.after, _⟩ :=
      .run sampleSystem (later_succeeds _)
    rw [firstRun_after] at hrun ⊢
    exact ⟨hrun, firstRun_requested, by decide⟩
  · have hrun : Step laterDecoder repeatedSystem (.run repeatedRun) ⟨repeatedRun.after, _⟩ :=
      .run repeatedSystem (later_succeeds _)
    have hrequested : repeatedRun.requested = ["web", ""] :=
      hrun.run_spec.1.requested_eq.trans (by decide)
    rw [hrun.run_spec.1.after_eq_append hrequested] at hrun ⊢
    rw [hrequested]
    exact ⟨hrun, rfl, by decide, by decide, by decide⟩
  · have hspec : emptyRun.Spec := emptyRun_succeeds.spec
    have hrequested : emptyRun.requested = ["", ""] := hspec.requested_eq.trans (by decide)
    have hrun := trace_settled_runs
    rw [hspec.after_eq_append hrequested] at hrun
    rw [hrequested]
    exact ⟨hrun, by decide, rfl, by decide⟩

end RegNewvm
