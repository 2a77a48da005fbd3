import RegNewvm.Lib.Protocol
import RegNewvm.Proof.Session

/-!
# The calls of a run, whoever answers

`mainProtocol` lists the calls of `main` in their order, with what each call is made of: the session
id of the login reply, the host list of the second reply, the VMs of vCenter.  `main` keeps to it
against every peer (`main_exchanges`), so that nothing is posted before all three are there, and
nothing is posted twice.
-/

namespace RegNewvm

open Interaction Perl Transition

variable (decode : Decoder)

/-- How far a run of `main` has come, with what it has been told. -/
inductive Stage
  | login
  | lshost (sessionid : Value)
  | sampleBase (sessionid : Value) (hostnames : List Value)
  | stub (sessionid : Value) (hostnames : List Value)
  | list (sessionid : Value) (hostnames : List Value)
  | request (sessionid : Value) (hostnames : List Value) (vmHosts : List String)
  | response (reply : Reply)
  | finished
  | stopped (message : String)

namespace Stage

def vcentParams : List (String × String) :=
  [("username", Config.vcentUname), ("password", Config.vcentPass), ("server", Config.vcentSvr)]

def vmService : String := "Com::Vmware::Vcenter::VM"

/-- The calls of each phase; printing is allowed in all. -/
def Allowed : Stage → Op → Prop
  | _, .print _ => True
  | login, .http req =>
    req = ⟨.get, loginUrl Config.actifio Config.name Config.pswd Config.vdrk⟩
  | lshost sessionid, .http req => req = ⟨.get, lshostUrl Config.actifio sessionid.str⟩
  | sampleBase _ _, .newSampleBase params => params = vcentParams
  | stub _ _, .createStub base serviceName => base = ⟨vcentParams⟩ ∧ serviceName = vmService
  | list _ _, .list service => service = ⟨⟨vcentParams⟩, vmService⟩
  | request sessionid hostnames vmHosts, .http req =>
    req = vmdiscoveryRequest sessionid (reconcile (hostnames.map Value.str) vmHosts)
  | response reply, .dump shown => shown = reply
  | _, _ => False

/-- The phase after a computation that may die. -/
def ofExcept {α : Type} (next : α → Stage) : Except String α → Stage
  | .ok a => next a
  | .error message => stopped message

def next : Stage → (op : Op) → Ans op → Stage
  | login, .http _, reply => ofExcept lshost (loginResult decode reply)
  | lshost sessionid, .http _, reply => ofExcept (sampleBase sessionid) (lshostResult decode reply)
  | sampleBase sessionid hostnames, .newSampleBase _, made =>
    ofExcept (fun _ => stub sessionid hostnames) made
  | stub sessionid hostnames, .createStub _ _, made =>
    ofExcept (fun _ => list sessionid hostnames) made
  | list sessionid hostnames, .list _, listed =>
    ofExcept (fun vms => request sessionid hostnames (vms.map (·.name))) listed
  | request _ _ _, .http _, reply => response reply
  | response _, .dump _, _ => finished
  | q, _, _ => q

end Stage

namespace Stage

variable {q : Stage} {url : String}

/-- The two GETs. -/
theorem allowed_get (h : q.Allowed (.http ⟨.get, url⟩)) :
    (q = login ∧ url = loginUrl Config.actifio Config.name Config.pswd Config.vdrk) ∨
      ∃ sessionid, q = lshost sessionid ∧ url = lshostUrl Config.actifio sessionid.str := by
  cases q with
  | login => exact Or.inl ⟨rfl, congrArg Request.url h⟩
  | lshost sessionid => exact Or.inr ⟨sessionid, rfl, congrArg Request.url h⟩
  | request sessionid hostnames vmHosts => exact absurd (congrArg Request.method h) nofun
  | _ => exact h.elim

/-- The POST. -/
theorem allowed_post (h : q.Allowed (.http ⟨.post, url⟩)) :
    ∃ sessionid hostnames vmHosts, q = request sessionid hostnames vmHosts ∧
      url = vmdiscoveryUrl Config.actifio sessionid.str Config.vcentHname
        (testVmHosts (reconcile (hostnames.map Value.str) vmHosts)) := by
  cases q with
  | login => exact absurd (congrArg Request.method h) nofun
  | lshost sessionid => exact absurd (congrArg Request.method h) nofun
  | request sessionid hostnames vmHosts =>
    exact ⟨sessionid, hostnames, vmHosts, rfl, congrArg Request.url h⟩
  | _ => exact h.elim

theorem allowed_list {service : Stub} (h : q.Allowed (.list service)) :
    ∃ sessionid hostnames, q = list sessionid hostnames := by
  cases q with
  | list sessionid hostnames => exact ⟨sessionid, hostnames, rfl⟩
  | _ => exact h.elim

theorem next_print (text : String) (ans : Ans (.print text)) :
    q.next decode (.print text) ans = q := by
  cases q <;> rfl

end Stage

/-- The calls of `main`. -/
def mainProtocol : Protocol Op Ans Stage := ⟨Stage.Allowed, Stage.next decode⟩

section Keeps

variable {decode} {α β : Type} {q : Stage} {k : α → Script β}
  {post : Stage → Except String β → Prop}

/-- Ended where its outcome leads to. -/
def Settled (next : α → Stage) (q : Stage) (r : Except String α) : Prop :=
  q = Stage.ofExcept next r

theorem keeps_print (text : String) : Keeps (mainProtocol decode) q (print text)
    fun q' r => ∃ a, r = .ok a ∧ q' = q := by
  refine Keeps.ask ?_ fun ans => ⟨ans, rfl, Stage.next_print decode text ans⟩
  cases q <;> trivial

/-- Printing does not change the phase. -/
theorem Keeps.print_bind {text : String} {k : PUnit → Script β}
    (h : Keeps (mainProtocol decode) q (k ⟨⟩) post) :
    Keeps (mainProtocol decode) q (print text >>= k) post := by
  refine Keeps.bind_ok (keeps_print text) ?_
  rintro _ _ rfl
  exact h

theorem keeps_printNumbered (i : ℕ) (vmHosts : List String) :
    Keeps (mainProtocol decode) q (printNumbered i vmHosts)
      fun q' r => ∃ a, r = .ok a ∧ q' = q := by
  induction vmHosts generalizing i with
  | nil => exact ⟨⟨⟩, rfl, rfl⟩
  | cons vmHost rest ih => exact Keeps.print_bind (ih _)

theorem keeps_pushHostnames (next : List Value → Stage) (elems hostnames : List Value)
    (hq : Settled next q ((hostnamesOf elems).map (hostnames ++ ·))) :
    Keeps (mainProtocol decode) q (pushHostnames elems hostnames) (Settled next) := by
  induction elems generalizing hostnames with
  | nil =>
    rw [show hostnamesOf [] = .ok [] from rfl] at hq
    rwa [Except.map, List.append_nil] at hq
  | cons item rest ih =>
    rw [hostnamesOf_cons] at hq
    unfold pushHostnames
    cases hitem : item.field "hostname" with
    | error message =>
      rw [hitem] at hq
      exact hq
    | ok hostname =>
      rw [hitem] at hq
      refine Keeps.print_bind (ih _ ?_)
      change Settled next q ((hostnamesOf rest >>= fun hostnames =>
        .ok (hostname :: hostnames)).map (hostnames ++ ·)) at hq
      cases hrest : hostnamesOf rest with
      | error message =>
        rw [hrest] at hq
        exact hq
      | ok values =>
        rw [hrest] at hq
        change Settled next q (.ok (hostnames ++ hostname :: values)) at hq
        show Settled next q (.ok (hostnames ++ [hostname] ++ values))
        rwa [List.append_assoc, List.singleton_append]

theorem keeps_actLogin : Keeps (mainProtocol decode) .login
    (actLogin decode .scalar Config.actifio Config.name Config.pswd Config.vdrk)
    (Settled fun returned => .lshost (assignScalar returned)) := by
  unfold actLogin
  refine Keeps.bind (Keeps.ask rfl fun reply => ?_)
  show Keeps (mainProtocol decode) (Stage.ofExcept .lshost (loginResult decode reply)) _ _
  unfold loginResult
  by_cases hrc : reply.rc = 200
  · rw [if_pos hrc, if_pos hrc]
    cases decode reply.content with
    | error message => exact Eq.refl (Stage.stopped message)
    | ok items =>
      show Keeps _ (Stage.ofExcept _ (items.field "sessionid"))
        (Prog.ofExcept (items.field "sessionid") >>= _) _
      cases items.field "sessionid" with
      | error message => exact Eq.refl (Stage.stopped message)
      | ok sessionid => exact Eq.refl (Stage.lshost sessionid)
  · rw [if_neg hrc, if_neg hrc]
    exact Eq.refl (Stage.lshost (.text ""))

theorem keeps_actLshost (sessionid : Value) : Keeps (mainProtocol decode) (.lshost sessionid)
    (actLshost decode .list Config.actifio sessionid) (Settled (.sampleBase sessionid)) := by
  unfold actLshost
  refine Keeps.bind (Keeps.ask rfl fun reply => ?_)
  show Keeps (mainProtocol decode)
    (Stage.ofExcept (.sampleBase sessionid) (lshostResult decode reply)) _ _
  unfold lshostResult
  by_cases hrc : reply.rc = 200
  · rw [if_pos hrc, if_pos hrc]
    cases decode reply.content with
    | error message => exact Eq.refl (Stage.stopped message)
    | ok items =>
      show Keeps _ (Stage.ofExcept _ (items.field "result" >>= _))
        (Prog.ofExcept (items.field "result") >>= _) _
      cases items.field "result" with
      | error message => exact Eq.refl (Stage.stopped message)
      | ok lists =>
        show Keeps _ (Stage.ofExcept _ (lists.elems >>= _)) (Prog.ofExcept lists.elems >>= _) _
        cases lists.elems with
        | error message => exact Eq.refl (Stage.stopped message)
        | ok elems =>
          show Keeps _ (Stage.ofExcept _ (hostnamesOf elems)) (pushHostnames elems [] >>= _) _
          refine Keeps.bind ((keeps_pushHostnames (.sampleBase sessionid) elems [] ?_).mono ?_)
          · show _ = _
            cases hostnamesOf elems <;> rfl
          · rintro q (message | hostnames) hq
            · exact hq
            · exact hq
  · rw [if_neg hrc, if_neg hrc]
    exact Eq.refl (Stage.sampleBase sessionid [.text ""])

theorem keeps_mainHostnames : Keeps (mainProtocol decode) .login (mainHostnames decode)
    (Settled fun r => .sampleBase r.1 r.2) := by
  unfold mainHostnames
  refine Keeps.bind (keeps_actLogin.mono ?_)
  rintro q (message | returned) hq
  · exact hq
  · obtain rfl : q = .lshost (assignScalar returned) := hq
    refine Keeps.print_bind (Keeps.bind ((keeps_actLshost _).mono ?_))
    rintro q (message | hostnames) hq
    · exact hq
    · obtain rfl : q = .sampleBase (assignScalar returned) hostnames := hq
      refine Keeps.bind_ok (Keeps.forM fun hostname _ => keeps_print _) ?_
      rintro _ _ rfl
      exact Eq.refl (Stage.sampleBase (assignScalar returned) hostnames)

/-- Returned `a` in the phase `next`, or stopped. -/
def Returned (a : α) (next : Stage) (q : Stage) : Except String α → Prop
  | .ok b => b = a ∧ q = next
  | .error message => q = .stopped message

variable (sessionid : Value) (hostnames : List Value)

theorem keeps_vmwareInit : Keeps (mainProtocol decode) (.sampleBase sessionid hostnames)
    (vmwareInit Config.vcentUname Config.vcentPass Config.vcentSvr)
    (Returned ⟨Stage.vcentParams⟩ (.stub sessionid hostnames)) := by
  unfold vmwareInit
  refine Keeps.bind (Keeps.ask rfl ?_)
  rintro (message | made)
  · exact Eq.refl (Stage.stopped message)
  · exact ⟨rfl, rfl⟩

theorem keeps_vmwareSetup : Keeps (mainProtocol decode) (.stub sessionid hostnames)
    (vmwareSetup ⟨Stage.vcentParams⟩)
    (Returned ⟨⟨Stage.vcentParams⟩, Stage.vmService⟩ (.list sessionid hostnames)) := by
  unfold vmwareSetup
  refine Keeps.bind (Keeps.ask ?_ ?_)
  · exact ⟨rfl, rfl⟩
  rintro (message | made)
  · exact Eq.refl (Stage.stopped message)
  · exact ⟨rfl, rfl⟩

theorem keeps_vmwareRun : Keeps (mainProtocol decode) (.list sessionid hostnames)
    (vmwareRun ⟨⟨Stage.vcentParams⟩, Stage.vmService⟩)
    (Settled (.request sessionid hostnames)) := by
  unfold vmwareRun
  refine Keeps.bind (Keeps.ask rfl ?_)
  rintro (message | vms)
  · exact Eq.refl (Stage.stopped message)
  · show Stage.request sessionid hostnames (vms.map (·.name)) =
      .request sessionid hostnames (vmHostsOf vms)
    rw [vmHostsOf_eq]

/-- The names left are those of the VMs that vCenter listed. -/
theorem keeps_mainVmHosts : Keeps (mainProtocol decode) (.sampleBase sessionid hostnames)
    (mainVmHosts hostnames) fun q r => match r with
      | .ok left => ∃ vmHosts, left = reconcile (hostnames.map Value.str) vmHosts ∧
          q = .request sessionid hostnames vmHosts
      | .error message => q = .stopped message := by
  unfold mainVmHosts
  refine Keeps.bind ((keeps_vmwareInit sessionid hostnames).mono ?_)
  rintro q (message | base) hq
  · exact hq
  obtain ⟨rfl, rfl⟩ := hq
  refine Keeps.bind ((keeps_vmwareSetup sessionid hostnames).mono ?_)
  rintro q (message | service) hq
  · exact hq
  obtain ⟨rfl, rfl⟩ := hq
  refine Keeps.bind ((keeps_vmwareRun sessionid hostnames).mono ?_)
  rintro q (message | vmHosts) hq
  · exact hq
  obtain rfl : q = .request sessionid hostnames vmHosts := hq
  refine Keeps.print_bind (Keeps.bind_ok (keeps_printNumbered _ _) ?_)
  rintro _ _ rfl
  exact Keeps.print_bind ⟨vmHosts, rfl, rfl⟩

theorem keeps_mainRequest (vmHosts : List String) :
    Keeps (mainProtocol decode) (.request sessionid hostnames vmHosts)
      (mainRequest sessionid (reconcile (hostnames.map Value.str) vmHosts))
      (Settled fun _ => .finished) := by
  unfold mainRequest actVmdiscovery
  refine Keeps.bind_ok (keeps_printNumbered _ _) ?_
  rintro _ _ rfl
  refine Keeps.print_bind (Keeps.bind (Keeps.ask rfl fun reply => ?_))
  exact Keeps.ask rfl fun _ => Eq.refl Stage.finished

theorem keeps_main : Keeps (mainProtocol decode) .login (main decode)
    (Settled fun _ => .finished) := by
  unfold main
  refine Keeps.bind (keeps_mainHostnames.mono ?_)
  rintro q (message | ⟨sessionid, hostnames⟩) hq
  · exact hq
  obtain rfl : q = .sampleBase sessionid hostnames := hq
  refine Keeps.bind ((keeps_mainVmHosts sessionid hostnames).mono ?_)
  rintro q (message | left) hq
  · exact hq
  obtain ⟨vmHosts, rfl, rfl⟩ := hq
  exact keeps_mainRequest sessionid hostnames vmHosts

end Keeps

/-- Whoever answers, and whatever, the calls of a run of `main` and the answers to them are a run of
the protocol, which ends finished if the run returns, and stopped with its message if it dies. -/
theorem main_exchanges {σ : Type} (decode : Decoder) (peer : Peer Op Ans σ) (s : σ) :
    Trace (mainProtocol decode).Step .login (exchanges peer (main decode) s)
      (Stage.ofExcept (fun _ => .finished) (result peer (main decode) s).1) := by
  obtain ⟨q, htrace, hq⟩ := keeps_main.run peer s
  rwa [hq] at htrace

/-! ## What a run has been told -/

section Heard

variable {decode : Decoder} {q q' : Stage} {x : Exchange Op Ans} {past l : List (Exchange Op Ans)}

/-- The login was answered with this session id. -/
def HeardSession (decode : Decoder) (past : List (Exchange Op Ans)) (sessionid : Value) : Prop :=
  ∃ reply,
    ⟨.http ⟨.get, loginUrl Config.actifio Config.name Config.pswd Config.vdrk⟩, reply⟩ ∈ past ∧
    loginResult decode reply = .ok sessionid

/-- The listing for the session was answered with these hosts. -/
def HeardHosts (decode : Decoder) (past : List (Exchange Op Ans)) (sessionid : Value)
    (hostnames : List Value) : Prop :=
  ∃ reply, ⟨.http ⟨.get, lshostUrl Config.actifio sessionid.str⟩, reply⟩ ∈ past ∧
    lshostResult decode reply = .ok hostnames

/-- vCenter listed these VMs. -/
def HeardVms (past : List (Exchange Op Ans)) (vmHosts : List String) : Prop :=
  ∃ service vms, ⟨.list service, .ok vms⟩ ∈ past ∧ vms.map (·.name) = vmHosts

/-- What a run that has come to the stage `q` was told. -/
def Heard (decode : Decoder) (past : List (Exchange Op Ans)) : Stage → Prop
  | .lshost sessionid => HeardSession decode past sessionid
  | .sampleBase sessionid hostnames | .stub sessionid hostnames | .list sessionid hostnames =>
    HeardSession decode past sessionid ∧ HeardHosts decode past sessionid hostnames
  | .request sessionid hostnames vmHosts =>
    HeardSession decode past sessionid ∧ HeardHosts decode past sessionid hostnames ∧
      HeardVms past vmHosts
  | _ => True

theorem Heard.mono {past' : List (Exchange Op Ans)} (h : Heard decode past q)
    (hsub : past ⊆ past') :
    Heard decode past' q := by
  have hsession {sessionid : Value} (h : HeardSession decode past sessionid) :
      HeardSession decode past' sessionid := by
    obtain ⟨reply, hmem, hreply⟩ := h
    exact ⟨reply, hsub hmem, hreply⟩
  have hhosts {sessionid : Value} {hostnames : List Value}
      (h : HeardHosts decode past sessionid hostnames) :
      HeardHosts decode past' sessionid hostnames := by
    obtain ⟨reply, hmem, hreply⟩ := h
    exact ⟨reply, hsub hmem, hreply⟩
  cases q with
  | lshost sessionid => exact hsession h
  | sampleBase sessionid hostnames => exact ⟨hsession h.1, hhosts h.2⟩
  | stub sessionid hostnames => exact ⟨hsession h.1, hhosts h.2⟩
  | list sessionid hostnames => exact ⟨hsession h.1, hhosts h.2⟩
  | request sessionid hostnames vmHosts =>
    obtain ⟨service, vms, hmem, hvms⟩ := h.2.2
    exact ⟨hsession h.1, hhosts h.2.1, service, vms, hsub hmem, hvms⟩
  | _ => trivial

theorem heard_ofExcept {α : Type} {next : α → Stage} {r : Except String α}
    (h : ∀ a, r = .ok a → Heard decode past (next a)) :
    Heard decode past (Stage.ofExcept next r) := by
  cases r with
  | error message => trivial
  | ok a => exact h a rfl

theorem Heard.step (h : Heard decode past q) (hstep : (mainProtocol decode).Step q x q') :
    Heard decode (past ++ [x]) q' := by
  obtain ⟨op, ans⟩ := x
  obtain ⟨hallowed, rfl⟩ := hstep
  replace hallowed : q.Allowed op := hallowed
  have hlast : ⟨op, ans⟩ ∈ past ++ [⟨op, ans⟩] := by simp
  have hold : Heard decode (past ++ [⟨op, ans⟩]) q := h.mono (List.subset_append_left _ _)
  show Heard decode _ (q.next decode op ans)
  cases op with
  | print text => rwa [Stage.next_print]
  | dump response => cases q <;> trivial
  | http req =>
    obtain ⟨method, url⟩ := req
    cases method with
    | get =>
      obtain ⟨rfl, rfl⟩ | ⟨sessionid, rfl, rfl⟩ := Stage.allowed_get hallowed
      · exact heard_ofExcept fun sessionid hreply => ⟨ans, hlast, hreply⟩
      · exact heard_ofExcept fun hostnames hreply => ⟨hold, ans, hlast, hreply⟩
    | post =>
      obtain ⟨sessionid, hostnames, vmHosts, rfl, -⟩ := Stage.allowed_post hallowed
      trivial
  | newSampleBase params =>
    cases q with
    | sampleBase sessionid hostnames => exact heard_ofExcept fun _ _ => hold
    | _ => exact hallowed.elim
  | createStub base serviceName =>
    cases q with
    | stub sessionid hostnames => exact heard_ofExcept fun _ _ => hold
    | _ => exact hallowed.elim
  | list service =>
    obtain ⟨sessionid, hostnames, rfl⟩ := Stage.allowed_list hallowed
    refine heard_ofExcept fun vms hvms => ⟨hold.1, hold.2, service, vms, ?_, rfl⟩
    subst hvms
    exact hlast

theorem Heard.trace (h : Heard decode past q) (htrace : Trace (mainProtocol decode).Step q l q') :
    Heard decode (past ++ l) q' := by
  induction htrace generalizing past with
  | nil => rwa [List.append_nil]
  | cons first _ ih =>
    have hrest := ih (h.step first)
    rwa [List.append_assoc] at hrest

/-- The request has been made. -/
def Over : Stage → Prop
  | .response _ => True
  | .finished => True
  | _ => False

theorem Over.step (h : Over q) (hstep : (mainProtocol decode).Step q x q') :
    postOf x.1 = none ∧ Over q' := by
  obtain ⟨op, ans⟩ := x
  obtain ⟨hallowed, rfl⟩ := hstep
  replace hallowed : q.Allowed op := hallowed
  show postOf op = none ∧ Over (q.next decode op ans)
  cases q with
  | response reply =>
    cases op with
    | print text => exact ⟨rfl, trivial⟩
    | dump response => exact ⟨rfl, trivial⟩
    | _ => exact hallowed.elim
  | finished =>
    cases op with
    | print text => exact ⟨rfl, trivial⟩
    | _ => exact hallowed.elim
  | _ => exact h.elim

/-- After a POST there is no other. -/
theorem not_post_after {url : String} {reply : Reply}
    (h : Trace (mainProtocol decode).Step q (⟨.http ⟨.post, url⟩, reply⟩ :: l) q') :
    ∀ x ∈ l, postOf x.1 = none := by
  cases h with
  | cons first rest =>
    obtain ⟨hallowed, rfl⟩ := first
    obtain ⟨sessionid, hostnames, vmHosts, rfl, -⟩ := Stage.allowed_post hallowed
    have hover : Over (.response reply) := trivial
    exact rest.forall_label (I := Over) (P := fun x => postOf x.1 = none)
      (fun _ _ _ hover hstep => hover.step hstep) hover

theorem exists_post {op : Op} {req : Request} (h : postOf op = some req) :
    op = .http ⟨.post, req.url⟩ := by
  match op, h with
  | .http ⟨.post, _⟩, rfl => rfl

end Heard

/-- The exchanges of a run that posts. -/
def sampleExchanges : List (Exchange Op Ans) :=
  exchanges Site.answer (main sampleDecoder)
    ⟨[sampleLogin, sampleLshost, ⟨200, ""⟩], [⟨"vm0"⟩, ⟨"vm1"⟩], ["web"]⟩

end RegNewvm
