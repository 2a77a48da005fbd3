import RegNewvm.Model.Scripts
import RegNewvm.Proof.Session

/-!
# What the other scripts do

`list_vms_calls`: which calls a run of `list_vms.pl` makes, from its parameters.  `scrape_calls`:
the pages that a search asks for and the lines that it prints; `calls_scrape` and `calls_scrape2`
are the two scripts.
-/

namespace RegNewvm

open Interaction Perl

/-! ## `list_vms.pl` -/

namespace ListVms

variable {params : Params}

/-- The mandatory parameters that are not given. -/
def missing (params : Params) (options : List String) : List String :=
  options.filter fun option => (params.lookup option).isNone

/-- The message for missing parameters: a blank in front for each of them. -/
def message (text : String) (options : List String) : String :=
  options.foldl (fun text option => " " ++ text ++ "--" ++ option ++ ", ") text

/-- The options that are given leave no trace in the loop. -/
theorem foldl_missing (options : List String) (text : String) (flag : ℕ) :
    options.foldl (fun vars option =>
        if (params.lookup option).isNone then (" " ++ vars.1 ++ "--" ++ option ++ ", ", 1)
        else vars) (text, flag) =
      (message text (missing params options), if missing params options = [] then flag else 1) := by
  induction options generalizing text flag with
  | nil => rfl
  | cons option options ih =>
    rw [List.foldl_cons]
    by_cases hoption : (params.lookup option).isNone
    · have hmissing : missing params (option :: options) = option :: missing params options :=
        List.filter_cons_of_pos hoption
      rw [if_pos hoption, ih, hmissing, if_neg (List.cons_ne_nil _ _), ite_self]
      rfl
    · have hmissing : missing params (option :: options) = missing params options :=
        List.filter_cons_of_neg hoption
      rw [if_neg hoption, ih, hmissing]

theorem mandatoryParams_eq (params : Params) :
    mandatoryParams params =
      (message "Missing mandatory parameter(s) i.e. " (missing params requiredOptions),
        if missing params requiredOptions = [] then 0 else 1) := by
  unfold mandatoryParams
  rw [foreach_keep fun (vars : String × ℕ) option =>
    if (params.lookup option).isNone then (" " ++ vars.1 ++ "--" ++ option ++ ", ", 1) else vars]
  exact foldl_missing requiredOptions _ 0

/-- What a run of `list_vms.pl` does on the parameters that the command line gives: help comes
before the check for missing parameters, and only a complete command line reaches vCenter. -/
def callsOn (params : Params) (vms : List Vm) : List Op :=
  if (params.lookup "help").isSome then help.map .print
  else if missing params requiredOptions ≠ [] then
    [.print (message "Missing mandatory parameter(s) i.e. " (missing params requiredOptions))]
  else [.newSampleBase params, .createStub ⟨params⟩ "Com::Vmware::Vcenter::VM",
    .list ⟨⟨params⟩, "Com::Vmware::Vcenter::VM"⟩] ++ vms.map fun vm => .print (vm.name ++ "\n")

theorem calls_run (stub : Stub) (site : Site) :
    calls Site.answer (run stub) site =
      .list stub :: site.vms.map fun vm => .print (vm.name ++ "\n") := by
  have hprint : calls Site.answer (site.vms.forM fun vm => print (vm.name ++ "\n")) site =
      site.vms.map fun vm => .print (vm.name ++ "\n") :=
    (calls_forM Site.answer (fun vm _ site => result_print (vm.name ++ "\n") site) site).trans
      List.map_eq_flatMap.symm
  exact congrArg (Op.list stub :: ·) hprint

/-- A run of `list_vms.pl` makes these calls and no others. -/
theorem list_vms_calls (params : Params) (site : Site) :
    calls Site.answer (main (some params)) site = callsOn params site.vms := by
  unfold callsOn
  by_cases hhelp : (params.lookup "help").isSome
  · have hinit : init (some params) = help.forM print >>= fun _ => pure none := if_pos hhelp
    rw [if_pos hhelp, main, hinit]
    rfl
  · rw [if_neg hhelp]
    by_cases hmissing : missing params requiredOptions = []
    · have hflag : (mandatoryParams params).2 = 0 := by rw [mandatoryParams_eq, if_pos hmissing]
      have hinit : init (some params) =
          .call (.newSampleBase params) fun made =>
            Prog.ofExcept made >>= fun _ => pure (some ⟨params⟩) :=
        (if_neg hhelp).trans (if_neg (by omega))
      rw [if_neg (not_not_intro hmissing), main, hinit]
      exact congrArg (fun listing => Op.newSampleBase params :: Op.createStub _ _ :: listing)
        (calls_run ⟨⟨params⟩, "Com::Vmware::Vcenter::VM"⟩ site)
    · have hflag : (mandatoryParams params).2 = 1 := by rw [mandatoryParams_eq, if_neg hmissing]
      have hinit : init (some params) =
          print (mandatoryParams params).1 >>= fun _ => pure none :=
        (if_neg hhelp).trans (if_pos hflag)
      rw [if_pos hmissing, main, hinit, mandatoryParams_eq]
      rfl

end ListVms

/-! ## `scrape.pl` and `scrape2.pl` -/

namespace Scrape

/-- The machines of the subnet, each of which has one page for each URL. -/
def web (body : String → String) : Peer Op Ans Unit
  | _, .get url => (body url, ())
  | _, .print _ => (⟨⟩, ())

/-- The lines of a text in which the pattern occurs. -/
def matchingLines (pattern text : String) : List String :=
  ((text.toList.splitOn '\n').map String.ofList).filter (Matches pattern)

/-- A pattern does not occur in the empty fields that `split` drops. -/
theorem filter_splitLines {pattern : String} (hpattern : pattern ≠ "") (text : String) :
    (splitLines text).filter (Matches pattern) = matchingLines pattern text := by
  have hempty : ∀ line ∈ ((text.toList.splitOn '\n').rtakeWhile (· = [])).map String.ofList,
      ¬ decide (Matches pattern line) = true := by
    intro line hline hmatches
    obtain ⟨field, hfield, rfl⟩ := List.mem_map.1 hline
    have hnil : field = [] := by simpa using List.mem_rtakeWhile_imp hfield
    have hinfix : Matches pattern (String.ofList field) := of_decide_eq_true hmatches
    unfold Matches at hinfix
    rw [String.toList_ofList, hnil, List.infix_nil, String.toList_eq_nil_iff] at hinfix
    exact hpattern hinfix
  unfold matchingLines splitLines
  conv_rhs =>
    rw [← List.rdropWhile_append_rtakeWhile (p := (· = [])) (l := text.toList.splitOn '\n')]
  rw [List.map_append, List.filter_append, List.filter_eq_nil_iff.2 hempty, List.append_nil]

/-- What a search prints about a line of the page of one URL. -/
def printed (url line : String) : List Op := [.print (url ++ "\n"), .print line]

section Calls

variable (search : Search) (body : String → String)

theorem result_printMatch (url line : String) (s : Unit) :
    result (web body) (printMatch search url line) s = (.ok ⟨⟩, s) := by
  unfold printMatch
  split <;> rfl

theorem calls_printMatch (url line : String) (s : Unit) :
    calls (web body) (printMatch search url line) s =
      if Matches search.pattern line then printed url line else [] := by
  unfold printMatch
  split <;> rfl

/-- The inner loop: a line in which the pattern does not occur makes no call. -/
theorem calls_printMatches (url : String) (lines : List String) (s : Unit) :
    calls (web body) (lines.forM (printMatch search url)) s =
      (lines.filter (Matches search.pattern)).flatMap (printed url) := by
  rw [calls_forM (web body) fun line _ s => result_printMatch search body url line s]
  induction lines with
  | nil => rfl
  | cons line lines ih =>
    rw [List.flatMap_cons, ih, calls_printMatch, List.filter_cons]
    by_cases hline : Matches search.pattern line
    · rw [if_pos hline, if_pos (decide_eq_true hline), List.flatMap_cons]
    · rw [if_neg hline, if_neg (by simpa using hline), List.nil_append]

theorem calls_visit (hpattern : search.pattern ≠ "") (i : ℕ) (s : Unit) :
    calls (web body) (visit search i) s =
      .get (search.url i) ::
        (matchingLines search.pattern (body (search.url i))).flatMap (printed (search.url i)) := by
  rw [← filter_splitLines hpattern, ← calls_printMatches search body]
  rfl

/-- A search asks for the page of every address, in order, and prints the address with each line of
the page in which the pattern occurs, whatever empty lines the page ends in. -/
theorem scrape_calls (hpattern : search.pattern ≠ "") :
    calls (web body) (run search) () =
      (List.range' search.first (search.last + 1 - search.first)).flatMap fun i =>
        .get (search.url i) ::
          (matchingLines search.pattern (body (search.url i))).flatMap
            (printed (search.url i)) := by
  have hvisit (i : ℕ) (s : Unit) : result (web body) (visit search i) s = (.ok ⟨⟩, s) :=
    result_forM (web body) (fun line _ s => result_printMatch search body (search.url i) line s) s
  unfold run
  rw [calls_forM (web body) fun i _ s => hvisit i s]
  simp only [calls_visit search body hpattern]

theorem calls_scrape : calls (web body) (run scrape) () =
    (List.range' 100 155).flatMap fun i => .get ("http://192.168.99." ++ toString i) ::
      (matchingLines "name=\"description" (body ("http://192.168.99." ++ toString i))).flatMap
        (printed ("http://192.168.99." ++ toString i)) :=
  scrape_calls scrape body (by decide)

theorem calls_scrape2 : calls (web body) (run scrape2) () =
    (List.range' 1 254).flatMap fun i =>
      .get ("https://192.168.99." ++ toString i ++ "/ui/#/login") ::
        (matchingLines "ng-app=\"esxUiApp\""
          (body ("https://192.168.99." ++ toString i ++ "/ui/#/login"))).flatMap
          (printed ("https://192.168.99." ++ toString i ++ "/ui/#/login")) :=
  scrape_calls scrape2 body (by decide)

end Calls

end Scrape

end RegNewvm
