import RegNewvm.Lib.Snapshot
import RegNewvm.Proof.Protocol
import RegNewvm.Proof.Registration
import Mathlib.Data.List.Nodup

/-!
# Runs that overlap

Nothing keeps two runs of the script apart.  Here any number of runs make their calls in any order,
one call at a time, while vCenter changes.  To the appliance each of them is a client that takes a
snapshot of the host list and later adds names that are not in it (`Step.simulates`).  So what is
registered at the start is not registered again, and a name is registered twice only by a run that
listed the hosts before another run registered the name (`overlapping_runs`).
-/

namespace RegNewvm.Overlap

open Interaction Perl Transition Url

variable (decode : Decoder)

/-! ## The system -/

/-- The VMs of vCenter, no two of which have the same name. -/
structure Inventory where
  vms : List VmName
  distinct : (vms.map (·.text)).Nodup

theorem map_name (vms : List VmName) :
    (vms.map fun vm => (⟨vm.text⟩ : Vm)).map (·.name) = vms.map (·.text) := by
  rw [List.map_map]
  rfl

/-- A run of `main`, perhaps before its first call: what it exchanged and what remains of it. -/
structure Invocation where
  past : List (Exchange Op Ans)
  rest : Script PUnit

structure State where
  hosts : List String
  inventory : Inventory
  runs : ℕ → Invocation

/-- No run has made a call. -/
def start (hosts : List String) (inventory : Inventory) : State :=
  ⟨hosts, inventory, fun _ => ⟨[], main decode⟩⟩

/-- A change of vCenter, or one call of the run `i` and the names that it added to the host list. -/
inductive Event
  | vcenter
  | call (i : ℕ) (x : Exchange Op Ans) (added : List String)

def Event.added : Event → List String
  | vcenter => []
  | call _ _ added => added

/-- What the appliance may reply to a GET while it has the host list `hosts`: it hands out session
ids that it reads back, and a listing that does not stop the run is the host list. -/
structure Truthful (hosts : List String) (url : String) (reply : Reply) : Prop where
  login : url = loginUrl Config.actifio Config.name Config.pswd Config.vdrk →
    ∀ sessionid, loginResult decode reply = .ok sessionid → Carried sessionid.str.toList
  lshost : ∀ sessionid, url = lshostUrl Config.actifio sessionid →
    ∀ hostnames, lshostResult decode reply = .ok hostnames → hostnames.map Value.str = hosts

/-- The answers to a call, and the names that it adds to the host list. -/
inductive Answers (s : State) : (op : Op) → Ans op → List String → Prop
  | print (text : String) : Answers s (.print text) ⟨⟩ []
  | dump (response : Reply) : Answers s (.dump response) ⟨⟩ []
  | get {url : String} {reply : Reply} (h : Truthful decode s.hosts url reply) :
    Answers s (.http ⟨.get, url⟩) reply []
  | accepted (url : String) (reply : Reply) :
    Answers s (.http ⟨.post, url⟩) reply (requestedNames url)
  | refused (url : String) (reply : Reply) : Answers s (.http ⟨.post, url⟩) reply []
  | newSampleBase (params : List (String × String)) (made : Except String PUnit) :
    Answers s (.newSampleBase params) made []
  | createStub (base : SampleBase) (serviceName : String) (made : Except String PUnit) :
    Answers s (.createStub base serviceName) made []
  | listed (stub : Stub) : Answers s (.list stub) (.ok (s.inventory.vms.map fun vm => ⟨vm.text⟩)) []
  | unlisted (stub : Stub) (message : String) : Answers s (.list stub) (.error message) []

/-- The state after a call of the run `i`. -/
def State.after (s : State) (i : ℕ) (x : Exchange Op Ans) (rest : Script PUnit)
    (added : List String) : State where
  hosts := s.hosts ++ added
  inventory := s.inventory
  runs := Function.update s.runs i ⟨(s.runs i).past ++ [x], rest⟩

inductive Step : State → Event → State → Prop
  | vcenter (s : State) (inventory : Inventory) : Step s .vcenter ⟨s.hosts, inventory, s.runs⟩
  | call {s : State} {i : ℕ} {op : Op} {next : Ans op → Script PUnit} {ans : Ans op}
      {added : List String} (hrest : (s.runs i).rest = .call op next)
      (h : Answers decode s op ans added) :
    Step s (.call i ⟨op, ans⟩ added) (s.after i ⟨op, ans⟩ (next ans) added)

/-- The run `i` received the host list. -/
def Event.Lists (i : ℕ) : Event → Prop
  | call j ⟨.http ⟨.get, url⟩, reply⟩ _ =>
    j = i ∧ (∃ sessionid, url = lshostUrl Config.actifio sessionid) ∧
      ∃ hostnames, lshostResult decode reply = .ok hostnames
  | _ => False

/-! ## Each run keeps the protocol -/

/-- How far the run has come. -/
def Invocation.stage (run : Invocation) : Stage := (mainProtocol decode).phase .login run.past

/-- The session id is carried, and the VMs have proper names and are distinct. -/
def Sound : Stage → Prop
  | .lshost sessionid | .sampleBase sessionid _ | .stub sessionid _ | .list sessionid _ =>
    Carried sessionid.str.toList
  | .request sessionid _ vmHosts => Carried sessionid.str.toList ∧ vmHosts.Nodup ∧
    ∀ vm ∈ vmHosts, Clean vm
  | _ => True

/-- What remains of the run keeps the protocol. -/
structure Invocation.Proper (run : Invocation) : Prop where
  keeps : Keeps (mainProtocol decode) (run.stage decode) run.rest fun _ _ => True
  sound : Sound (run.stage decode)

section Proper

variable {decode} {s t : State} {e : Event} {i : ℕ} {q : Stage} {op : Op} {ans : Ans op}
  {added : List String}

theorem stage_concat (run : Invocation) (x : Exchange Op Ans) (rest : Script PUnit) :
    Invocation.stage decode ⟨run.past ++ [x], rest⟩ = (run.stage decode).next decode x.1 x.2 :=
  Protocol.phase_concat ..

theorem sound_ofExcept {α : Type} {next : α → Stage} {r : Except String α}
    (h : ∀ a, r = .ok a → Sound (next a)) : Sound (Stage.ofExcept next r) := by
  cases r with
  | error message => trivial
  | ok a => exact h a rfl

theorem sound_next (hq : Sound q) (hallowed : q.Allowed op)
    (h : Answers decode s op ans added) : Sound (q.next decode op ans) := by
  cases h with
  | print text => exact (Stage.next_print decode text ⟨⟩).symm ▸ hq
  | dump response => cases q <;> trivial
  | get htruthful =>
    obtain ⟨rfl, rfl⟩ | ⟨sessionid, rfl, rfl⟩ := Stage.allowed_get hallowed
    · exact sound_ofExcept fun sessionid => htruthful.login rfl sessionid
    · exact sound_ofExcept fun _ _ => hq
  | accepted url reply =>
    obtain ⟨sessionid, hostnames, vmHosts, rfl, -⟩ := Stage.allowed_post hallowed
    trivial
  | refused url reply =>
    obtain ⟨sessionid, hostnames, vmHosts, rfl, -⟩ := Stage.allowed_post hallowed
    trivial
  | newSampleBase params made =>
    cases q with
    | sampleBase sessionid hostnames => exact sound_ofExcept fun _ _ => hq
    | _ => exact hallowed.elim
  | createStub base serviceName made =>
    cases q with
    | stub sessionid hostnames => exact sound_ofExcept fun _ _ => hq
    | _ => exact hallowed.elim
  | listed service =>
    obtain ⟨sessionid, hostnames, rfl⟩ := Stage.allowed_list hallowed
    show Sound (.request sessionid hostnames
      ((s.inventory.vms.map fun vm => (⟨vm.text⟩ : Vm)).map (·.name)))
    rw [map_name]
    refine ⟨hq, s.inventory.distinct, fun vm hvm => ?_⟩
    obtain ⟨name, -, rfl⟩ := List.mem_map.1 hvm
    exact name.clean
  | unlisted service message =>
    obtain ⟨sessionid, hostnames, rfl⟩ := Stage.allowed_list hallowed
    trivial

theorem Step.proper (hs : ∀ i, (s.runs i).Proper decode) (h : Step decode s e t) (j : ℕ) :
    (t.runs j).Proper decode := by
  cases h with
  | vcenter => exact hs j
  | @call i op next ans added hrest hans =>
    show ((Function.update s.runs i _) j).Proper decode
    by_cases hij : j = i
    · subst hij
      have hkeeps := (hs j).keeps
      rw [hrest] at hkeeps
      rw [Function.update_self]
      refine ⟨?_, ?_⟩
      · rw [stage_concat]
        exact (hkeeps.step ans).2
      · rw [stage_concat]
        exact sound_next (hs j).sound hkeeps.1 hans
    · rw [Function.update_of_ne hij]
      exact hs j

theorem proper_start (hosts : List String) (inventory : Inventory) (i : ℕ) :
    ((start decode hosts inventory).runs i).Proper decode :=
  ⟨keeps_main.mono fun _ _ _ => trivial, trivial⟩

end Proper

/-! ## The registry and its clients -/

/-- The names in a list. -/
def names (hosts : List String) : Set String := {vm | vm ∈ hosts ∧ vm ≠ ""}

theorem names_append (hosts added : List String) :
    names (hosts ++ added) = names hosts ∪ names added := by
  ext vm
  unfold names
  rw [Set.mem_union]
  simp only [Set.mem_ofPred_eq, List.mem_append]
  exact or_and_right

/-- The hosts that the run was told, as long as it has not posted. -/
def snapshot : Stage → Option (Set String)
  | .sampleBase _ hostnames | .stub _ hostnames | .list _ hostnames | .request _ hostnames _ =>
    some (names (hostnames.map Value.str))
  | _ => none

def State.view (s : State) : Snapshot.State ℕ String :=
  ⟨names s.hosts, fun i => snapshot ((s.runs i).stage decode)⟩

open Classical in
noncomputable def Event.view : Event → Snapshot.Event ℕ String
  | vcenter => .idle
  | call i x added =>
    if added ≠ [] then .add i (names added)
    else if (call i x added).Lists decode i then .take i
    else .idle

section View

variable {decode} {s t : State} {e : Event} {i : ℕ} {q : Stage} {op : Op} {ans : Ans op}
  {added : List String} {rest : Script PUnit}

theorem view_after (s : State) (i : ℕ) (x : Exchange Op Ans) (rest : Script PUnit)
    (added : List String) : (s.after i x rest added).view decode =
      ⟨names s.hosts ∪ names added, Function.update (s.view decode).taken i
        (snapshot (((s.runs i).stage decode).next decode x.1 x.2))⟩ := by
  have htaken : (fun j => snapshot ((Function.update s.runs i
      ⟨(s.runs i).past ++ [x], rest⟩ j).stage decode)) = Function.update (s.view decode).taken i
        (snapshot (((s.runs i).stage decode).next decode x.1 x.2)) := by
    funext j
    by_cases hij : j = i
    · subst hij
      rw [Function.update_self, Function.update_self, stage_concat]
    · rw [Function.update_of_ne hij, Function.update_of_ne hij]
      rfl
  unfold State.view State.after
  rw [names_append, htaken]
  rfl

/-- A call that neither registers nor lists: at most the snapshot is lost. -/
theorem simulates_idle (hlists : ¬ (Event.call i ⟨op, ans⟩ []).Lists decode i)
    (hlost : ∀ S, snapshot (((s.runs i).stage decode).next decode op ans) = some S →
      snapshot ((s.runs i).stage decode) = some S) :
    Snapshot.Step (s.view decode) ((Event.call i ⟨op, ans⟩ []).view decode)
      ((s.after i ⟨op, ans⟩ rest []).view decode) := by
  have hempty : names s.hosts ∪ names [] = names s.hosts := by
    rw [← names_append, List.append_nil]
  rw [Event.view, if_neg (not_not.2 rfl), if_neg hlists, view_after, hempty]
  refine .idle _ fun j S hS => ?_
  by_cases hij : j = i
  · subst hij
    rw [Function.update_self] at hS
    exact hlost S hS
  · rwa [Function.update_of_ne hij] at hS

theorem snapshot_ofExcept {α : Type} {next : α → Stage} {r : Except String α} {S : Set String}
    (h : snapshot (Stage.ofExcept next r) = some S) :
    ∃ a, r = .ok a ∧ snapshot (next a) = some S := by
  cases r with
  | error message => cases h
  | ok a => exact ⟨a, rfl, h⟩

theorem snapshot_next {S : Set String} (hop : ∀ url, op ≠ .http ⟨.get, url⟩)
    (hallowed : q.Allowed op) (h : snapshot (q.next decode op ans) = some S) :
    snapshot q = some S := by
  cases op with
  | print text => rwa [Stage.next_print] at h
  | dump response =>
    cases q with
    | response _ => cases h
    | _ => exact hallowed.elim
  | http req =>
    obtain ⟨method, url⟩ := req
    cases method with
    | get => exact absurd rfl (hop url)
    | post =>
      obtain ⟨sessionid, hostnames, vmHosts, rfl, -⟩ := Stage.allowed_post hallowed
      cases h
  | newSampleBase params =>
    cases q with
    | sampleBase sessionid hostnames =>
      obtain ⟨_, -, h⟩ := snapshot_ofExcept h
      exact h
    | _ => exact hallowed.elim
  | createStub base serviceName =>
    cases q with
    | stub sessionid hostnames =>
      obtain ⟨_, -, h⟩ := snapshot_ofExcept h
      exact h
    | _ => exact hallowed.elim
  | list service =>
    obtain ⟨sessionid, hostnames, rfl⟩ := Stage.allowed_list hallowed
    obtain ⟨_, -, h⟩ := snapshot_ofExcept h
    exact h

theorem loginUrl_ne_lshostUrl (sessionid : String) :
    loginUrl Config.actifio Config.name Config.pswd Config.vdrk ≠
      lshostUrl Config.actifio sessionid := by
  intro h
  have hprefix : ("https://" ++ Config.actifio ++ "/actifio/api/info/lshost" ++
      "?sessionid=").toList <+:
        (loginUrl Config.actifio Config.name Config.pswd Config.vdrk).toList := by
    rw [h, lshostUrl]
    exact ⟨sessionid.toList, String.toList_append.symm⟩
  exact absurd hprefix (by decide)

/-- A listing of the hosts is a snapshot. -/
theorem simulates_get {url : String} {reply : Reply}
    (hallowed : ((s.runs i).stage decode).Allowed (.http ⟨.get, url⟩))
    (htruthful : Truthful decode s.hosts url reply) :
    Snapshot.Step (s.view decode) ((Event.call i ⟨.http ⟨.get, url⟩, reply⟩ []).view decode)
      ((s.after i ⟨.http ⟨.get, url⟩, reply⟩ rest []).view decode) := by
  obtain ⟨hq, rfl⟩ | ⟨sessionid, hq, rfl⟩ := Stage.allowed_get hallowed
  · refine simulates_idle ?_ fun S hS => ?_
    · rintro ⟨-, ⟨sessionid, h⟩, -⟩
      exact loginUrl_ne_lshostUrl sessionid h
    · rw [hq] at hS
      obtain ⟨sessionid, -, h⟩ := snapshot_ofExcept hS
      cases h
  · have hnext : ((s.runs i).stage decode).next decode
        (.http ⟨.get, lshostUrl Config.actifio sessionid.str⟩) reply =
          Stage.ofExcept (.sampleBase sessionid) (lshostResult decode reply) := by
      rw [hq]
      rfl
    cases hresult : lshostResult decode reply with
    | error message =>
      refine simulates_idle ?_ fun S hS => ?_
      · rintro ⟨-, -, hostnames, h⟩
        rw [hresult] at h
        cases h
      · rw [hnext, hresult] at hS
        cases hS
    | ok hostnames =>
      have hlists : (Event.call i ⟨.http ⟨.get, lshostUrl Config.actifio sessionid.str⟩, reply⟩
          []).Lists decode i := ⟨rfl, ⟨_, rfl⟩, hostnames, hresult⟩
      have hempty : names s.hosts ∪ names [] = names s.hosts := by
        rw [← names_append, List.append_nil]
      rw [Event.view, if_neg (not_not.2 rfl), if_pos hlists, view_after, hempty, hnext, hresult]
      show Snapshot.Step _ _ ⟨_, Function.update _ i (some (names (hostnames.map Value.str)))⟩
      rw [htruthful.lshost _ rfl hostnames hresult]
      exact .take _ i

theorem requestedNames_request {sessionid : Value} {hostnames : List Value} {vmHosts : List String}
    (h : Sound (.request sessionid hostnames vmHosts)) (hosts : List String) :
    requestedNames (vmdiscoveryUrl Config.actifio sessionid.str Config.vcentHname
        (testVmHosts (reconcile hosts vmHosts))) =
      [vmHostAt (reconcile hosts vmHosts) 1, vmHostAt (reconcile hosts vmHosts) 5] := by
  obtain ⟨hcarried, -, hclean⟩ := h
  have hleft : ∀ vm ∈ reconcile hosts vmHosts, Clean vm :=
    fun vm hvm => hclean vm ((reconcile_sublist hosts vmHosts).subset hvm)
  rw [testVmHosts_eq]
  refine requestedNames_vmdiscoveryUrl hcarried (List.cons_ne_nil _ _) ?_
  simp [clean_vmHostAt hleft]

/-- A request adds names that are not in the snapshot of the run. -/
theorem simulates_post {url : String} {reply : Reply} (hproper : (s.runs i).Proper decode)
    (hallowed : ((s.runs i).stage decode).Allowed (.http ⟨.post, url⟩)) :
    Snapshot.Step (s.view decode)
      ((Event.call i ⟨.http ⟨.post, url⟩, reply⟩ (requestedNames url)).view decode)
      ((s.after i ⟨.http ⟨.post, url⟩, reply⟩ rest (requestedNames url)).view decode) := by
  obtain ⟨sessionid, hostnames, vmHosts, hq, hurl⟩ := Stage.allowed_post hallowed
  have hsound := hproper.sound
  rw [hq] at hsound
  have hadded := requestedNames_request hsound (hostnames.map Value.str)
  rw [← hurl] at hadded
  have hnew : ∀ vm ∈ names (requestedNames url), vm ∉ names (hostnames.map Value.str) := by
    rintro vm ⟨hvm, hne⟩ ⟨hseen, -⟩
    have hleft : vm ∈ reconcile (hostnames.map Value.str) vmHosts := by
      rw [hadded, List.mem_cons, List.mem_singleton] at hvm
      obtain rfl | rfl := hvm
      · exact (vmHostAt_mem_or _ _).resolve_right hne
      · exact (vmHostAt_mem_or _ _).resolve_right hne
    rw [reconcile_eq_unregistered fun host _ =>
      List.nodup_iff_count_le_one.1 hsound.2.1 host] at hleft
    exact (mem_unregistered.1 hleft).2 hseen
  have htaken : (s.view decode).taken i = some (names (hostnames.map Value.str)) := by
    show snapshot ((s.runs i).stage decode) = _
    rw [hq]
    rfl
  have hne : requestedNames url ≠ [] := by
    rw [hadded]
    exact List.cons_ne_nil _ _
  rw [Event.view, if_pos hne, view_after, hq]
  exact .add _ htaken hnew

/-- Every step is a step of the registry and its clients. -/
theorem Step.simulates (hs : ∀ i, (s.runs i).Proper decode) (h : Step decode s e t) :
    Snapshot.Step (s.view decode) (e.view decode) (t.view decode) := by
  cases h with
  | vcenter inventory => exact .idle _ fun _ _ h => h
  | @call i op next ans added hrest hans =>
    have hkeeps := (hs i).keeps
    rw [hrest] at hkeeps
    cases hans with
    | print text => exact simulates_idle id fun _ => snapshot_next nofun hkeeps.1
    | dump response => exact simulates_idle id fun _ => snapshot_next nofun hkeeps.1
    | get htruthful => exact simulates_get hkeeps.1 htruthful
    | accepted url reply => exact simulates_post (hs i) hkeeps.1
    | refused url reply => exact simulates_idle id fun _ => snapshot_next nofun hkeeps.1
    | newSampleBase params made => exact simulates_idle id fun _ => snapshot_next nofun hkeeps.1
    | createStub base serviceName made =>
      exact simulates_idle id fun _ => snapshot_next nofun hkeeps.1
    | listed service => exact simulates_idle id fun _ => snapshot_next nofun hkeeps.1
    | unlisted service message => exact simulates_idle id fun _ => snapshot_next nofun hkeeps.1

end View

/-! ## Any number of runs -/

section Runs

variable {decode} {s t : State} {e : Event} {events l₁ l₂ l₃ : List Event} {hosts : List String}
  {inventory : Inventory} {i j : ℕ} {x y : Exchange Op Ans} {A B : List String} {vm : String}

theorem Step.hosts_eq (h : Step decode s e t) : t.hosts = s.hosts ++ e.added := by
  cases h with
  | vcenter => exact (List.append_nil _).symm
  | call => rfl

theorem hosts_of_trace (h : Trace (Step decode) s events t) :
    t.hosts = s.hosts ++ events.flatMap Event.added := by
  induction h with
  | nil => simp
  | cons first _ ih => rw [ih, first.hosts_eq, List.flatMap_cons, List.append_assoc]

/-- Every execution is one of the registry and its clients. -/
theorem trace_view (h : Trace (Step decode) (start decode hosts inventory) events t) :
    Trace Snapshot.Step ((start decode hosts inventory).view decode)
      (events.map (Event.view decode)) (t.view decode) :=
  (h.and_invariant (fun _ _ _ hs hstep => hstep.proper hs) (proper_start hosts inventory)).simulate
    fun _ _ _ hstep => hstep.1.simulates hstep.2

theorem view_call (hvm : vm ∈ A) :
    (Event.call i x A).view decode = .add i (names A) :=
  if_pos (List.ne_nil_of_mem hvm)

theorem lists_of_view (h : e.view decode = .take j) : e.Lists decode j := by
  cases e with
  | vcenter => cases h
  | call i x added =>
    rw [Event.view] at h
    split_ifs at h with hadded hlists
    cases h
    exact hlists

theorem Step.view_eq_take (h : Step decode s e t) (hlists : e.Lists decode j) :
    e.view decode = .take j := by
  cases h with
  | vcenter => exact hlists.elim
  | call hrest hans =>
    cases hans with
    | get htruthful =>
      have hself := hlists
      obtain ⟨rfl, -⟩ := hlists
      rw [Event.view, if_neg (not_not.2 rfl), if_pos hself]
    | _ => exact hlists.elim

/-- A name that two requests register: the later of the two runs listed the hosts before the earlier
request. -/
theorem registered_twice (h : Trace (Step decode) (start decode hosts inventory)
      (l₁ ++ .call i x A :: (l₂ ++ .call j y B :: l₃)) t)
    (hA : vm ∈ A) (hB : vm ∈ B) (hne : vm ≠ "") :
    i ≠ j ∧ (∃ e ∈ l₁, e.Lists decode j) ∧ ∀ e ∈ l₂, ¬ e.Lists decode j := by
  have hview := trace_view h
  rw [List.map_append, List.map_cons, List.map_append, List.map_cons, view_call hA,
    view_call hB] at hview
  obtain ⟨hij, hl₁, hl₂⟩ := Snapshot.added_twice hview rfl ⟨hA, hne⟩ ⟨hB, hne⟩
  refine ⟨hij, ?_, fun e he hlists => hl₂ (List.mem_map.2 ⟨e, he, ?_⟩)⟩
  · obtain ⟨e, he, htake⟩ := List.mem_map.1 hl₁
    exact ⟨e, he, lists_of_view htake⟩
  · refine h.forall_label (I := fun _ => True)
      (P := fun e => e.Lists decode j → e.view decode = .take j)
      (fun _ _ _ _ hstep => ⟨hstep.view_eq_take, trivial⟩) trivial e ?_ hlists
    simp [he]

end Runs

end RegNewvm.Overlap
