import RegNewvm.Model.Vmware
import Mathlib.Data.List.DropRight

/-!
# The other scripts

`work/list_vms.pl`, which prints the names of the VMs of the vCenter given on the command line, and
`scrape/scrape.pl` and `scrape/scrape2.pl`, which look for certain pages on the machines of a
subnet.
-/

namespace RegNewvm

open Interaction Perl

/-! ## `list_vms.pl` -/

namespace ListVms

/-- `%params` -/
abbrev Params := List (String × String)

def requiredOptions : List String := ["username", "password", "server"]

def usage : String :=
  "\nValid options are --server <server> --username <user> --password <password>\n" ++
    "                         --privatekey <private key> --servercert <server cert> " ++
    "--cert <cert> or --help\n"

def help : List String :=
  ["\nCommand to execute sample:\n",
    "list_vms.pl --server <server> --username <user> --password <password> \n",
    "               --privatekey <private key> --servercert <server cert> --cert <cert>\n"]

/-- The loop over `@required_options`: `$mandatory_params_list` and `$flag`. -/
def mandatoryParams (params : Params) : String × ℕ :=
  (foreach (fun option options vars =>
    (options, if (params.lookup option).isNone then (" " ++ vars.1 ++ "--" ++ option ++ ", ", 1)
      else vars)) requiredOptions ("Missing mandatory parameter(s) i.e. ", 0)).2

/-- `init`, on what `GetOptions` makes of the command line; it returns nothing where it exits. -/
def init : Option Params → Script (Option SampleBase)
  | none => .die usage
  | some params =>
    if (params.lookup "help").isSome then do
      help.forM print
      return none
    else if (mandatoryParams params).2 = 1 then do
      print (mandatoryParams params).1
      return none
    else do
      let made ← Prog.ask (Op.newSampleBase params)
      Prog.ofExcept made
      return some ⟨params⟩

/-- `run` -/
def run (vmService : Stub) : Script PUnit := do
  let listed ← Prog.ask (Op.list vmService)
  let vmList ← Prog.ofExcept listed
  vmList.forM fun vm => print (vm.name ++ "\n")

/-- `main`, up to the listing. -/
def main (parsed : Option Params) : Script PUnit := do
  match ← init parsed with
  | none => return ⟨⟩
  | some sampleBase =>
    let vmService ← vmwareSetup sampleBase
    run vmService

end ListVms

/-! ## `scrape.pl` and `scrape2.pl` -/

namespace Scrape

inductive Op
  | get (url : String)
  | print (text : String)

/-- The content of a response, or nothing. -/
def Ans : Op → Type
  | .get _ => String
  | .print _ => PUnit

/-- `split /\n/, $body`: empty fields at the end are dropped. -/
def splitLines (body : String) : List String :=
  ((body.toList.splitOn '\n').rdropWhile (· = [])).map String.ofList

/-- `$line =~ /pattern/`, of a pattern that stands for itself. -/
def Matches (pattern line : String) : Prop := pattern.toList <:+: line.toList

instance (pattern line : String) : Decidable (Matches pattern line) :=
  inferInstanceAs (Decidable (_ <:+: _))

/-- The addresses, how a URL is made of each, and what is looked for. -/
structure Search where
  first : ℕ
  last : ℕ
  url : ℕ → String
  pattern : String

def scrape : Search where
  first := 100
  last := 254
  url i := "http://192.168.99." ++ toString i
  pattern := "name=\"description"

def scrape2 : Search where
  first := 1
  last := 254
  url i := "https://192.168.99." ++ toString i ++ "/ui/#/login"
  pattern := "ng-app=\"esxUiApp\""

def print (text : String) : Prog Op Ans PUnit := Prog.ask (Op.print text)

def get (url : String) : Prog Op Ans String := Prog.ask (Op.get url)

/-- The body of the inner loop. -/
def printMatch (search : Search) (url line : String) : Prog Op Ans PUnit :=
  if Matches search.pattern line then do
    print (url ++ "\n")
    print line
  else return ⟨⟩

/-- The body of the outer loop. -/
def visit (search : Search) (i : ℕ) : Prog Op Ans PUnit := do
  let body ← get (search.url i)
  (splitLines body).forM (printMatch search (search.url i))

/-- The script. -/
def run (search : Search) : Prog Op Ans PUnit :=
  (List.range' search.first (search.last + 1 - search.first)).forM (visit search)

end Scrape

end RegNewvm
