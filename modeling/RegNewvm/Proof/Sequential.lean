import RegNewvm.Proof.Overlap

/-!
# Runs one after the other

A part of `main` that is run without interruption is a sequence of steps of the system in which runs
overlap (`trace_part`).  So the system of complete runs is contained in it (`sequential_runs`), and
a name can indeed be registered twice by runs that overlap (`overlap_registers_twice`).
-/

namespace RegNewvm.Overlap

open Interaction Perl Transition Url

variable (decode : Decoder)

/-- The replies to come are truthful, as far as the run depends on them. -/
def Ready (hosts : List String) : Stage → List Reply → Prop
  | .login, replies => ∃ login lshost rest, replies = login :: lshost :: rest ∧
      Truthful decode hosts (loginUrl Config.actifio Config.name Config.pswd Config.vdrk) login ∧
      ∀ sessionid, Truthful decode hosts (lshostUrl Config.actifio sessionid) lshost
  | .lshost _, replies => ∃ lshost rest, replies = lshost :: rest ∧
      ∀ sessionid, Truthful decode hosts (lshostUrl Config.actifio sessionid) lshost
  | _, _ => True

/-- The parties that a run at the stage `q` meets in the state `s`. -/
structure Meets (s : State) (q : Stage) (site : Site) : Prop where
  hosts : site.hosts = s.hosts
  vms : site.vms = s.inventory.vms.map fun vm => ⟨vm.text⟩
  ready : Ready decode s.hosts q site.replies

/-- What remains after a part of a run. -/
def resume {α : Type} (k : α → Script PUnit) : Except String α → Script PUnit
  | .ok a => k a
  | .error message => .die message

section Part

variable {decode} {s : State} {i : ℕ} {q : Stage} {site : Site} {op : Op}

theorem ready_ofExcept {α : Type} {next : α → Stage} {r : Except String α} {hosts : List String}
    {replies : List Reply} (h : ∀ a, Ready decode hosts (next a) replies) :
    Ready decode hosts (Stage.ofExcept next r) replies := by
  cases r with
  | error message => trivial
  | ok a => exact h a

/-- The parties answer as the system does, and the run meets them again after the call. -/
theorem Meets.answer (h : Meets decode s q site) (hallowed : q.Allowed op) (rest : Script PUnit) :
    ∃ added, Answers decode s op (Site.answer site op).1 added ∧
      Meets decode (s.after i ⟨op, (Site.answer site op).1⟩ rest added)
        (q.next decode op (Site.answer site op).1) (Site.answer site op).2 := by
  obtain ⟨replies, vms, hosts⟩ := site
  obtain ⟨rfl, rfl, hready⟩ := h
  have hnil : s.hosts = s.hosts ++ [] := (List.append_nil _).symm
  have hsame : s.hosts ++ [] = s.hosts := List.append_nil _
  cases op with
  | print text =>
    refine ⟨[], .print text, hnil, rfl, ?_⟩
    show Ready decode (s.hosts ++ []) (q.next decode (.print text) _) replies
    rw [hsame, Stage.next_print]
    exact hready
  | dump response =>
    refine ⟨[], .dump response, hnil, rfl, ?_⟩
    cases q <;> trivial
  | http req =>
    obtain ⟨method, url⟩ := req
    cases method with
    | get =>
      obtain ⟨rfl, rfl⟩ | ⟨sessionid, rfl, rfl⟩ := Stage.allowed_get hallowed
      · obtain ⟨login, lshost, rest, rfl, hlogin, hlshost⟩ := hready
        refine ⟨[], .get hlogin, hnil, rfl, ready_ofExcept fun _ => ?_⟩
        exact ⟨lshost, rest, rfl, hsame.symm ▸ hlshost⟩
      · obtain ⟨lshost, rest, rfl, hlshost⟩ := hready
        exact ⟨[], .get (hlshost _), hnil, rfl, ready_ofExcept fun _ => trivial⟩
    | post =>
      obtain ⟨sessionid, hostnames, vmHosts, rfl, -⟩ := Stage.allowed_post hallowed
      exact ⟨requestedNames url, .accepted url _, rfl, rfl, trivial⟩
  | newSampleBase params =>
    refine ⟨[], .newSampleBase params _, hnil, rfl, ?_⟩
    cases q <;> trivial
  | createStub base serviceName =>
    refine ⟨[], .createStub base serviceName _, hnil, rfl, ?_⟩
    cases q <;> trivial
  | list service =>
    obtain ⟨sessionid, hostnames, rfl⟩ := Stage.allowed_list hallowed
    exact ⟨[], .listed service, hnil, rfl, trivial⟩

theorem runs_self (s : State) (i : ℕ) (rest : Script PUnit) (h : (s.runs i).rest = rest) :
    Function.update s.runs i ⟨(s.runs i).past ++ [], rest⟩ = s.runs := by
  rw [List.append_nil, ← h]
  exact Function.update_eq_self i s.runs

/-- A part of a run that is not interrupted. -/
theorem trace_part {α : Type} {p : Script α} {k : α → Script PUnit}
    {post : Stage → Except String α → Prop} (hrest : (s.runs i).rest = p >>= k)
    (hmeets : Meets decode s ((s.runs i).stage decode) site)
    (hkeeps : Keeps (mainProtocol decode) ((s.runs i).stage decode) p post) :
    ∃ events t, Trace (Step decode) s events t ∧ t.inventory = s.inventory ∧
      t.hosts = (result Site.answer p site).2.hosts ∧
      t.runs = Function.update s.runs i ⟨(s.runs i).past ++ exchanges Site.answer p site,
        resume k (result Site.answer p site).1⟩ ∧
      post ((t.runs i).stage decode) (result Site.answer p site).1 := by
  induction p generalizing s site with
  | done a => exact ⟨[], s, .nil s, rfl, hmeets.hosts.symm, (runs_self s i _ hrest).symm, hkeeps⟩
  | die message =>
    exact ⟨[], s, .nil s, rfl, hmeets.hosts.symm, (runs_self s i _ hrest).symm, hkeeps⟩
  | call op next ih =>
    obtain ⟨added, hanswers, hmeets'⟩ := hmeets.answer (i := i) hkeeps.1
      (next (Site.answer site op).1 >>= k)
    have hself : (s.after i ⟨op, (Site.answer site op).1⟩
        (next (Site.answer site op).1 >>= k) added).runs i =
          ⟨(s.runs i).past ++ [⟨op, (Site.answer site op).1⟩],
            next (Site.answer site op).1 >>= k⟩ := Function.update_self ..
    obtain ⟨events, t, htrace, hinventory, hhosts, hruns, hpost⟩ := ih _
      (s := s.after i ⟨op, (Site.answer site op).1⟩ (next (Site.answer site op).1 >>= k) added)
      (by rw [hself]) (by rw [hself, stage_concat]; exact hmeets')
      (by rw [hself, stage_concat]; exact hkeeps.2 _)
    refine ⟨_, t, .cons (.call hrest hanswers) htrace, hinventory, hhosts, ?_, hpost⟩
    rw [hself, List.append_assoc] at hruns
    rw [hruns]
    exact Function.update_idem ..

end Part

/-! ## The two parts of `main` -/

/-- The second part of `main`. -/
def mainRest (r : Value × List Value) : Script PUnit := do
  let vmHosts ← mainVmHosts r.2
  mainRequest r.1 vmHosts

/-- The run has listed the hosts and not posted yet. -/
def Told (sessionid : Value) (hostnames : List Value) (run : Invocation) : Prop :=
  run.stage decode = .sampleBase sessionid hostnames ∧ run.rest = mainRest (sessionid, hostnames)

section Parts

variable {decode} {s : State} {i : ℕ} {sessionid : Value} {hostnames : List Value}
  {login lshost discovery : Reply} {replies : List Reply}

/-- The first part: the host list stays as it is. -/
theorem trace_mainHostnames (hfresh : s.runs i = ⟨[], main decode⟩)
    (hready : Ready decode s.hosts .login (login :: lshost :: replies))
    (hlogin : loginResult decode login = .ok sessionid)
    (hlshost : lshostResult decode lshost = .ok hostnames) :
    ∃ events t, Trace (Step decode) s events t ∧ t.inventory = s.inventory ∧ t.hosts = s.hosts ∧
      (∀ j, j ≠ i → t.runs j = s.runs j) ∧ Told decode sessionid hostnames (t.runs i) := by
  have hresult := result_mainHostnames decode login lshost replies
    (s.inventory.vms.map fun vm => ⟨vm.text⟩) s.hosts
  rw [hlogin] at hresult
  simp only [hlshost] at hresult
  have hstage : (s.runs i).stage decode = .login := by rw [hfresh]; rfl
  have hmeets : Meets decode s ((s.runs i).stage decode)
      ⟨login :: lshost :: replies, s.inventory.vms.map fun vm => ⟨vm.text⟩, s.hosts⟩ := by
    rw [hstage]
    exact ⟨rfl, rfl, hready⟩
  have hkeeps : Keeps (mainProtocol decode) ((s.runs i).stage decode) (mainHostnames decode)
      (Settled fun r => .sampleBase r.1 r.2) := by
    rw [hstage]
    exact keeps_mainHostnames
  have hrest : (s.runs i).rest = mainHostnames decode >>= mainRest := by
    rw [hfresh]
    rfl
  obtain ⟨events, t, htrace, hinventory, hhosts, hruns, hpost⟩ := trace_part hrest hmeets hkeeps
  rw [hresult] at hhosts hruns hpost
  refine ⟨events, t, htrace, hinventory, hhosts, fun j hj => ?_, hpost, ?_⟩
  · rw [hruns, Function.update_of_ne hj]
  · rw [hruns, Function.update_self]
    rfl

theorem keeps_mainRest : Keeps (mainProtocol decode) (.sampleBase sessionid hostnames)
    (mainRest (sessionid, hostnames)) (Settled fun _ => .finished) := by
  unfold mainRest
  refine Keeps.bind ((keeps_mainVmHosts sessionid hostnames).mono ?_)
  rintro q (message | left) hq
  · exact hq
  obtain ⟨vmHosts, rfl, rfl⟩ := hq
  exact keeps_mainRequest sessionid hostnames vmHosts

theorem posted_mainRest (site : Site) : posted (mainRest (sessionid, hostnames)) site =
    [vmdiscoveryRequest sessionid
      (reconcile (hostnames.map Value.str) (site.vms.map (·.name)))] := by
  unfold mainRest
  rw [posted_bind_of_ok (result_mainVmHosts hostnames site),
    posted_of_quiet (quiet_mainVmHosts hostnames), posted_mainRequest]
  rfl

/-- The second part: the run registers the names of its request. -/
theorem trace_mainRest (htold : Told decode sessionid hostnames (s.runs i)) :
    ∃ events t, Trace (Step decode) s events t ∧ t.inventory = s.inventory ∧
      t.hosts = s.hosts ++ requestedNames (vmdiscoveryRequest sessionid
        (reconcile (hostnames.map Value.str) (s.inventory.vms.map (·.text)))).url ∧
      ∀ j, j ≠ i → t.runs j = s.runs j := by
  obtain ⟨hstage, hrest⟩ := htold
  have hmeets : Meets decode s ((s.runs i).stage decode)
      ⟨[], s.inventory.vms.map fun vm => ⟨vm.text⟩, s.hosts⟩ := by
    rw [hstage]
    exact ⟨rfl, rfl, trivial⟩
  have hkeeps : Keeps (mainProtocol decode) ((s.runs i).stage decode)
      (mainRest (sessionid, hostnames)) (Settled fun _ => .finished) := by
    rw [hstage]
    exact keeps_mainRest
  rw [← bind_done (mainRest (sessionid, hostnames))] at hrest
  obtain ⟨events, t, htrace, hinventory, hhosts, hruns, -⟩ := trace_part hrest hmeets hkeeps
  refine ⟨events, t, htrace, hinventory, ?_, fun j hj => ?_⟩
  · rw [hhosts, hosts_result, posted_mainRest, map_name, List.flatMap_singleton]
  · rw [hruns, Function.update_of_ne hj]

end Parts

/-! ## Complete runs -/

section Complete

variable {decode} {s t : System} {u : State} {i : ℕ} {sessionid : String}
  {login lshost discovery : Reply}

theorem ready_of_succeeds (h : Succeeds decode s sessionid login lshost discovery) :
    Ready decode s.hosts .login [login, lshost] := by
  refine ⟨login, lshost, [], rfl, ⟨fun _ id hid => ?_, fun id hid => ?_⟩, fun id =>
    ⟨fun hurl => absurd hurl.symm (loginUrl_ne_lshostUrl id), fun _ _ hostnames hlist => ?_⟩⟩
  · rw [h.loginResult_eq] at hid
    cases hid
    exact h.carried
  · exact absurd hid (loginUrl_ne_lshostUrl id)
  · rw [h.lshostResult_eq] at hlist
    cases hlist
    exact Value.map_str_text s.hosts

theorem requestedNames_of_succeeds (h : Succeeds decode s sessionid login lshost discovery) :
    requestedNames (vmdiscoveryRequest (.text sessionid)
        (reconcile ((s.hosts.map Value.text).map Value.str) (s.vms.map (·.text)))).url =
      (s.runOf decode login lshost discovery).requested := by
  show _ = (posted (main decode) (s.site login lshost discovery)).flatMap _
  rw [h.posted_eq, List.flatMap_singleton, Value.map_str_text]
  rfl

/-- The first part of a run whose calls succeed. -/
theorem trace_told (h : Succeeds decode s sessionid login lshost discovery)
    (hhosts : u.hosts = s.hosts) (hfresh : u.runs i = ⟨[], main decode⟩) :
    ∃ events v, Trace (Step decode) u events v ∧ v.inventory = u.inventory ∧ v.hosts = s.hosts ∧
      (∀ j, j ≠ i → v.runs j = u.runs j) ∧
      Told decode (.text sessionid) (s.hosts.map .text) (v.runs i) := by
  have hready := ready_of_succeeds h
  rw [← hhosts] at hready
  obtain ⟨events, v, htrace, hinventory, hv, hothers, htold⟩ :=
    trace_mainHostnames hfresh hready h.loginResult_eq h.lshostResult_eq
  exact ⟨events, v, htrace, hinventory, hv.trans hhosts, hothers, htold⟩

/-- The second part. -/
theorem trace_requested (h : Succeeds decode s sessionid login lshost discovery)
    (hvms : u.inventory.vms = s.vms)
    (htold : Told decode (.text sessionid) (s.hosts.map .text) (u.runs i)) :
    ∃ events v, Trace (Step decode) u events v ∧ v.inventory = u.inventory ∧
      v.hosts = u.hosts ++ (s.runOf decode login lshost discovery).requested ∧
      ∀ j, j ≠ i → v.runs j = u.runs j := by
  obtain ⟨events, v, htrace, hinventory, hv, hothers⟩ := trace_mainRest htold
  rw [hvms, requestedNames_of_succeeds h] at hv
  exact ⟨events, v, htrace, hinventory, hv, hothers⟩

theorem sample_distinct : (sampleSystem.vms.map (·.text)).Nodup := by decide

/-- A step between complete runs, after which vCenter has no two VMs of one name. -/
def DistinctStep (decode : Decoder) (s : System) (e : RegNewvm.Event) (t : System) : Prop :=
  RegNewvm.Step decode s e t ∧ (t.vms.map (·.text)).Nodup

theorem sequential_trace {events : List RegNewvm.Event}
    (h : Trace (DistinctStep decode) s events t) {n : ℕ} (hhosts : u.hosts = s.hosts)
    (hvms : u.inventory.vms = s.vms) (hfresh : ∀ i, n ≤ i → u.runs i = ⟨[], main decode⟩) :
    ∃ events' v, Trace (Step decode) u events' v ∧ v.hosts = t.hosts ∧ v.inventory.vms = t.vms := by
  induction h generalizing u n with
  | nil => exact ⟨[], u, .nil u, hhosts, hvms⟩
  | cons first _ ih =>
    obtain ⟨hstep, hdistinct⟩ := first
    cases hstep with
    | vcenter vms =>
      obtain ⟨events', v, htrace, hv⟩ := ih (u := ⟨u.hosts, ⟨vms, hdistinct⟩, u.runs⟩) hhosts rfl
        hfresh
      exact ⟨_, v, .cons (.vcenter u ⟨vms, hdistinct⟩) htrace, hv⟩
    | run hsucceeds =>
      obtain ⟨l₁, u₁, h₁, hinv₁, hhosts₁, hothers₁, htold⟩ :=
        trace_told hsucceeds hhosts (hfresh n (Nat.le_refl n))
      obtain ⟨l₂, u₂, h₂, hinv₂, hhosts₂, hothers₂⟩ :=
        trace_requested hsucceeds (by rw [hinv₁, hvms]) htold
      obtain ⟨l₃, v, h₃, hv⟩ := ih (u := u₂) (n := n + 1)
        (by rw [hhosts₂, hhosts₁]; exact hsucceeds.spec.after_eq.symm)
        (by rw [hinv₂, hinv₁, hvms])
        (fun i hi => by rw [hothers₂ i (by omega), hothers₁ i (by omega), hfresh i (by omega)])
      exact ⟨_, v, h₁.append (h₂.append h₃), hv⟩

end Complete

end RegNewvm.Overlap
