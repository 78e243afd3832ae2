import Sidebar.FileSystem.Resolve
import Sidebar.Text.Blank

/-!
# Sidebar.Settings: what the environment sets

The group that questions are about when none is named, the content root, and the extensions of
document files.
-/

namespace Sidebar

/-- What the environment says; `none` for a variable that is not set. -/
structure Environment where
  defaultGroup : Option Text
  docsPath : Option Text
  docExtensions : Option Text
  /-- The home directory of the user. -/
  home : Text

/-- The settings in force. -/
structure Settings where
  defaultGroup : Text
  docsPath : Location
  extensions : List Text
deriving DecidableEq

/-- Why there are no settings. -/
inductive SettingsError
  /-- The content root is given from a home directory that is not known. -/
  | noHome
  | path (e : ResolveError)
deriving DecidableEq

/-- The wording of an error. -/
def SettingsError.message : SettingsError → Text
  | .noHome => "Could not determine home directory."
  | .path e => e.message

namespace Settings

/-- The group that questions are about. -/
def standardGroup : Text := "docs"

/-- The content root, from the working directory. -/
def standardDocsPath : Text := "docs"

/-- The extensions of document files. -/
def standardExtensions : List Text := [".md", ".mdx"]

/-- The names in a list with commas, without the white space around them. -/
def extensionsOf (list : Text) : List Text :=
  ((Text.split (CodePoint.ofChar ',') list).map Text.strip).filter (· ≠ [])

/-- The code point stands for a home directory. -/
def tilde : CodePoint := CodePoint.ofChar '~'

/-- The path with a tilde at its start replaced by the home directory.  The home directories of
other users are not known. -/
def expandHome (home : Text) (p : Path) : Except SettingsError Path :=
  match p.absolute, p.names with
  | false, first :: names =>
    if first = [tilde] then
      let dir := home.dropRightWhile (· == slash)
      if dir.head? = some tilde then .error .noHome
      else
        let dir := if dir = [] then [slash] else dir
        .ok ((Path.parse dir).join ⟨false, names⟩)
    else if first.head? = some tilde then .error .noHome
    else .ok p
  | _, _ => .ok p

/-- The settings that an environment makes, in a working directory. -/
def ofEnvironment (files : Entry) (work : List Text) (env : Environment) :
    Except SettingsError Settings :=
  match expandHome env.home (.parse (env.docsPath.getD standardDocsPath)) with
  | .error e => .error e
  | .ok path =>
    match files.resolve work path with
    | .error e => .error (.path e)
    | .ok docsPath =>
      .ok ⟨env.defaultGroup.getD standardGroup, docsPath,
        (env.docExtensions.map extensionsOf).getD standardExtensions⟩

end Settings

end Sidebar
