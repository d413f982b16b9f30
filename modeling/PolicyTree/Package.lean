import PolicyTree.Environment
import PolicyTree.Files.Basic

namespace PolicyTree

/-- Where packages are installed. -/
inductive Locator where
  | table (packages : List (String × Path))
  /-- By the first of several roots that has a directory of the package's name. -/
  | search (roots : List Path)
  | environment (env : Environment)

inductive PackageFault where
  | unregistered (package : String)
  | notUnderRoots (package : String) (roots : Nat)
  | notSetUp (package varName : String)
  deriving DecidableEq, Repr

def PackageFault.message : PackageFault → String
  | .unregistered package => s!"package \"{package}\" is not registered"
  | .notUnderRoots package roots =>
    s!"package \"{package}\" not found in {roots} search root(s)"
  | .notSetUp package varName =>
    s!"package \"{package}\" is not set up ({varName} is not set)"

namespace Locator

/-- The variable that holds the directory of a package: its name in capitals, with underscores
for hyphens. -/
def variableOf (package : String) : String :=
  String.ofList (package.toList.map fun c => if c = '-' then '_' else c.toUpper) ++ "_DIR"

def locate (fs : FileSystem) (package : String) : Locator → Except PackageFault Path
  | .table packages =>
    match packages.find? fun p => p.1 == package with
    | some (_, dir) => .ok dir
    | none => .error (.unregistered package)
  | .search roots =>
    match (roots.map (·.join ⟨package⟩)).find? fs.leadsToDirectory with
    | some dir => .ok dir
    | none => .error (.notUnderRoots package roots.length)
  | .environment env =>
    match env.get? (variableOf package) with
    | some dir => .ok ⟨dir⟩
    | none => .error (.notSetUp package (variableOf package))

/-- Where policy packages are installed for a user: below the data directory, which is by default
one in the home directory. -/
def standardRoot? (env : Environment) : Option Path :=
  let data := match (env.get? "XDG_DATA_HOME").map Path.mk with
    | some dir => if dir.isAbsolute then some dir else none
    | none => none
  let home := match env.get? "HOME" with
    | some dir => if dir.isEmpty then none else some ((Path.mk dir).join ⟨".local/share"⟩)
    | none => none
  (data <|> home).map fun dir => (dir.join ⟨"policy"⟩).join ⟨"packages"⟩

def standard (env : Environment) : Locator :=
  .search (standardRoot? env).toList

end Locator

end PolicyTree
